import Bitwire.Directive
import Bitwire.Proofs.Numerals

/-! The text of an address denotes that address. Each rule of the grammar takes just what the
printer wrote, in front of whatever may follow there. -/
namespace Bitwire
namespace Phrase
variable {rest : List Char}

theorem octet_write (x : UInt8) (stops : Stops 10 rest) :
    octet (Numeral.write 10 x.toNat ++ rest) = some (x,rest) := by
  have small := x.toNat_lt
  rw [octet,number_write (by decide) (by decide) false (by omega) (by simp; omega) stops]
  simp

theorem group_write (g : UInt16) (stops : Stops 16 rest) :
    group (Numeral.write 16 g.toNat ++ rest) = some (g,rest) := by
  have small := g.toNat_lt
  rw [group,number_write (by decide) (by decide) true (by omega) (by simp; omega) stops]
  simp

theorem port_write (p : UInt16) (stops : Stops 10 rest) :
    port (':'::(Numeral.write 10 p.toNat ++ rest)) = some (p,rest) := by
  have small := p.toNat_lt
  have read : number 10 65536 none true (Numeral.write 10 p.toNat ++ rest) = some (p.toNat,rest) :=
    number_write (by decide) (by decide) true (by omega) (by simp) stops
  simp [port,symbol,read]

theorem ipv4_write (ip : Ipv4) (stops : Stops 10 rest) :
    ipv4 (ip.write ++ rest) = some (ip,rest) := by
  have dot : ∀ {cs}, Stops 10 ('.'::cs) := stops_cons (by decide)
  have text : ip.write ++ rest = Numeral.write 10 ip.a.toNat ++ '.'::(Numeral.write 10 ip.b.toNat ++
      '.'::(Numeral.write 10 ip.c.toNat ++ '.'::(Numeral.write 10 ip.d.toNat ++ rest))) := by
    simp [Ipv4.write,List.intercalate]
  rw [text,ipv4,octet_write ip.a dot]
  simp only [Option.bind_eq_bind,Option.bind_some,symbol,if_true]
  rw [octet_write ip.b dot]
  simp only [Option.bind_some,if_true]
  rw [octet_write ip.c dot]
  simp only [Option.bind_some,if_true]
  rw [octet_write ip.d stops]
  rfl

/-- A numeral that is no decimal one, or that no dot follows, is the start of no version 4
address. -/
theorem ipv4_none {cs : List Char}
    (h : (cs.dropWhile fun c => (Numeral.digit? 10 c).isSome).head? ≠ some '.') :
    ipv4 cs = none := by
  have first : octet cs = none ∨ ∃ x, octet cs =
      some (x,cs.dropWhile fun c => (Numeral.digit? 10 c).isSome) := by
    unfold octet number
    dsimp only
    split
    · exact .inl rfl
    · exact .inr ⟨_,rfl⟩
  rw [ipv4]
  rcases first with none | ⟨x,some⟩
  · rw [none]
    rfl
  · rw [some]
    cases rest : cs.dropWhile fun c => (Numeral.digit? 10 c).isSome with
    | nil => rfl
    | cons d rest =>
      rw [rest] at h
      have noDot : ¬d = '.' := fun same => h (congrArg _ same)
      simp [symbol,noDot]

/-- Behind the digits of a group there is no dot. -/
def Plain (rest : List Char) : Prop := Stops 16 rest ∧ rest.head? ≠ some '.'

theorem plain_nil : Plain [] := ⟨stops_nil,fun h => by cases h⟩

theorem plain_cons {c : Char} (digit : Numeral.digit? 16 c = none) (dot : c ≠ '.') :
    Plain (c::rest) := ⟨stops_cons digit,fun h => dot (Option.some.inj h)⟩

theorem Stops.decimal (h : Stops 16 rest) : Stops 10 rest := by
  intro c same
  have hex := h c same
  unfold Numeral.digit? at hex ⊢
  rw [Option.filter_eq_none_iff] at hex ⊢
  intro d value
  have := hex d value
  simp only [decide_eq_true_eq] at this ⊢
  omega

theorem digits_ipv4_none {digits : List Char}
    (hex : ∀ c ∈ digits, (Numeral.digit? 16 c).isSome) (plain : Plain rest) :
    ipv4 (digits ++ rest) = none := by
  apply ipv4_none
  induction digits with
  | nil =>
    rw [List.nil_append,plain.1.decimal.dropWhile]
    exact plain.2
  | cons c digits ih =>
    have hexes := List.forall_mem_cons.mp hex
    rw [List.cons_append,List.dropWhile_cons]
    split
    · exact ih hexes.2
    · intro dot
      rw [Option.some.inj dot] at hexes
      exact absurd hexes.1 (by decide)

theorem group_ipv4_none (g : UInt16) (plain : Plain rest) :
    ipv4 (Numeral.write 16 g.toNat ++ rest) = none :=
  digits_ipv4_none (Numeral.write_digits (by decide) (by decide) _) plain

theorem empty_ipv4_none (plain : Plain rest) : ipv4 rest = none := by
  apply ipv4_none
  rw [plain.1.decimal.dropWhile]
  exact plain.2

theorem empty_group_none (stops : Stops 16 rest) : group rest = none := by
  simp [group,number,stops.takeWhile]

/-- No group follows. -/
def Closed (rest : List Char) : Prop :=
  Plain rest ∧ ∀ room, groups false room rest = ⟨[],false,rest⟩

theorem closed_of_head (plain : Plain rest) (colon : rest.head? ≠ some ':') : Closed rest := by
  refine ⟨plain,fun room => ?_⟩
  have none : symbol ':' rest = none := by
    cases rest with
    | nil => rfl
    | cons c rest => exact if_neg fun same => colon (congrArg _ same)
  cases room with
  | zero => rfl
  | succ room => simp [groups,none]

theorem colon_plain : Plain (':'::rest) := plain_cons (by decide) (by decide)

theorem closed_colons : Closed (':' :: ':' :: rest) := by
  refine ⟨colon_plain,fun room => ?_⟩
  cases room with
  | zero => rfl
  | succ room =>
    have noGroup : group (':'::rest) = none := empty_group_none colon_plain.1
    simp [groups,symbol,empty_ipv4_none colon_plain,noGroup]

/-- Groups behind a first one, each with its colon. -/
def moreGroups (gs : List UInt16) : List Char := gs.flatMap fun g => ':'::Numeral.write 16 g.toNat

theorem writeGroups_cons (g : UInt16) (gs : List UInt16) :
    Ipv6.writeGroups (g::gs) = Numeral.write 16 g.toNat ++ moreGroups gs := by
  induction gs generalizing g with
  | nil => simp [Ipv6.writeGroups,moreGroups,List.intercalate]
  | cons h gs ih =>
    have step : Ipv6.writeGroups (g::h::gs) =
        Numeral.write 16 g.toNat ++ ':'::Ipv6.writeGroups (h::gs) := by
      simp [Ipv6.writeGroups,List.intercalate]
    rw [step,ih]
    rfl

theorem moreGroups_plain (gs : List UInt16) (plain : Plain rest) :
    Plain (moreGroups gs ++ rest) := by
  cases gs with
  | nil => exact plain
  | cons g gs => exact colon_plain

theorem moreGroups_read {room : Nat} {gs : List UInt16} (fits : gs.length ≤ room)
    (closed : Closed rest) :
    groups false room (moreGroups gs ++ rest) = ⟨gs,false,rest⟩ := by
  induction gs generalizing room with
  | nil => exact closed.2 room
  | cons g gs ih =>
    obtain ⟨room,rfl⟩ : ∃ more, room = more + 1 := ⟨room - 1,by simp at fits; omega⟩
    have plain := moreGroups_plain gs closed.1
    have text : moreGroups (g::gs) ++ rest =
        ':'::(Numeral.write 16 g.toNat ++ (moreGroups gs ++ rest)) := by simp [moreGroups]
    rw [text,groups]
    simp only [Bool.false_eq_true,if_false,symbol,if_true,Option.bind_some,group_ipv4_none g plain,
      group_write g plain.1,ite_self]
    rw [ih (by simpa using fits)]

theorem writeGroups_read {room : Nat} {gs : List UInt16} (fits : gs.length ≤ room)
    (closed : Closed rest) :
    groups true room (Ipv6.writeGroups gs ++ rest) = ⟨gs,false,rest⟩ := by
  cases gs with
  | nil =>
    cases room with
    | zero => rfl
    | succ room =>
      have text : Ipv6.writeGroups [] ++ rest = rest := rfl
      simp [text,groups,empty_ipv4_none closed.1,empty_group_none closed.1.1]
  | cons g gs =>
    obtain ⟨room,rfl⟩ : ∃ more, room = more + 1 := ⟨room - 1,by simp at fits; omega⟩
    have plain := moreGroups_plain gs closed.1
    rw [writeGroups_cons,List.append_assoc,groups]
    simp only [if_true,Option.bind_some,group_ipv4_none g plain,group_write g plain.1,ite_self]
    rw [moreGroups_read (by simpa using fits) closed]

end Phrase

namespace Ipv6

/-- Zero groups in a row, from a start for a length. -/
structure IsRun (groups : List UInt16) (run : Nat × Nat) : Prop where
  within : run.1 + run.2 ≤ groups.length
  zeros : (groups.drop run.1).take run.2 = List.replicate run.2 0

variable {groups : List UInt16}

theorem zerosFrom_isRun {start : Nat} (inside : start < groups.length) :
    IsRun groups (start,zerosFrom groups start) := by
  have ahead : (groups.drop start).takeWhile (· == 0) <+: groups.drop start :=
    List.takeWhile_prefix _
  have few := ahead.length_le
  rw [List.length_drop] at few
  refine ⟨by rw [zerosFrom]; omega,?_⟩
  rw [zerosFrom,← List.prefix_iff_eq_take.mp ahead,List.eq_replicate_iff]
  exact ⟨rfl,fun g member => by simpa using List.mem_takeWhile_imp member⟩

theorem zeroRun_isRun (groups : List UInt16) : IsRun groups (zeroRun groups) := by
  refine List.foldlRecOn _ _ ⟨Nat.zero_le _,rfl⟩ fun best run start member => ?_
  dsimp only
  split
  · exact zerosFrom_isRun (List.mem_range.mp member)
  · exact run

theorem IsRun.split {run : Nat × Nat} (h : IsRun groups run) :
    groups.take run.1 ++ List.replicate run.2 0 ++ groups.drop (run.1 + run.2) = groups := by
  rw [← h.zeros,List.append_assoc,← List.drop_drop,List.take_append_drop,List.take_append_drop]

theorem highGroup_ofGroups (high low : UInt16) : (Ipv4.ofGroups high low).highGroup = high := by
  have := high.toNat_lt
  apply UInt16.toNat.inj
  simp [Ipv4.highGroup,Ipv4.ofGroups]
  omega

theorem lowGroup_ofGroups (high low : UInt16) : (Ipv4.ofGroups high low).lowGroup = low := by
  have := low.toNat_lt
  apply UInt16.toNat.inj
  simp [Ipv4.lowGroup,Ipv4.ofGroups]
  omega

theorem mapped?_eq_some {ip : Ipv6} {v4 : Ipv4} (h : ip.mapped? = some v4) :
    ip.groups = [0,0,0,0,0,65535,v4.highGroup,v4.lowGroup] := by
  unfold mapped? at h
  split at h
  · next front =>
    split at h
    · next high low back =>
      obtain rfl := Option.some.inj h
      rw [highGroup_ofGroups,lowGroup_ofGroups,← List.take_append_drop 6 ip.groups,front,back]
      rfl
    · cases h
  · cases h

end Ipv6

namespace Phrase
variable {rest : List Char}

theorem groups_nil_read (room : Nat) : groups true room (':'::rest) = ⟨[],false,':'::rest⟩ := by
  cases room with
  | zero => rfl
  | succ room =>
    have noGroup : group (':'::rest) = none := empty_group_none colon_plain.1
    simp [groups,empty_ipv4_none colon_plain,noGroup]

/-- The dotted groups stand behind the group of the prefix. -/
theorem mapped_read (v4 : Ipv4) (stops : Stops 10 rest) :
    groups true 7 ("ffff:".toList ++ (v4.write ++ rest)) =
      ⟨[65535,v4.highGroup,v4.lowGroup],true,rest⟩ := by
  have text : "ffff:".toList ++ (v4.write ++ rest) =
      Numeral.write 16 (65535 : UInt16).toNat ++ ':'::(v4.write ++ rest) := rfl
  rw [text,groups]
  simp only [if_true,Option.bind_some,group_ipv4_none _ colon_plain,group_write _ colon_plain.1,
    ite_self]
  rw [groups]
  simp only [Bool.false_eq_true,if_false,symbol,if_true,Option.bind_some,ipv4_write v4 stops]
  rfl

/-- Eight groups in all, around the zeros that were left out. -/
theorem ipv6_around {front : List UInt16} {back : Groups} {cs : List Char}
    (short : front.length < 8)
    (ahead : groups true 8 cs = ⟨front,false,':' :: ':' :: rest⟩) (ip : Ipv6)
    (behind : groups true (7 - front.length) rest = back)
    (all : front ++ List.replicate (8 - front.length - back.values.length) 0 ++ back.values =
      ip.groups) : ipv6 cs = some (ip,back.rest) := by
  have whole : Ipv6.ofGroups? ip.groups = some ip := dif_pos ip.length_eq
  rw [List.append_assoc] at all
  simp [ipv6,ahead,symbol,behind,all,whole,Nat.ne_of_lt short]

theorem ipv6_write (ip : Ipv6) (closed : Closed rest) (stops : Stops 10 rest) :
    ipv6 (ip.write ++ rest) = some (ip,rest) := by
  unfold Ipv6.write
  split
  · next v4 mapped =>
    have text : "::ffff:".toList ++ v4.write ++ rest =
        ':' :: ':' :: ("ffff:".toList ++ (v4.write ++ rest)) := by simp
    rw [text]
    refine ipv6_around (by decide) (groups_nil_read 8) ip (mapped_read v4 stops) ?_
    rw [Ipv6.mapped?_eq_some mapped]
    rfl
  · have eight := ip.length_eq
    have isRun := Ipv6.zeroRun_isRun ip.groups
    generalize Ipv6.zeroRun ip.groups = run at isRun ⊢
    obtain ⟨start,length⟩ := run
    dsimp only
    split
    · next long =>
      have within : start + length ≤ 8 := eight ▸ isRun.within
      have front : (ip.groups.take start).length = start := List.length_take_of_le (by omega)
      have back : (ip.groups.drop (start + length)).length = 8 - (start + length) := by
        rw [List.length_drop,eight]
      rw [List.append_assoc,List.append_assoc]
      refine ipv6_around (by omega) (writeGroups_read (by omega) closed_colons) ip
        (writeGroups_read (by omega) closed) ?_
      rw [front,back,show 8 - start - (8 - (start + length)) = length by omega]
      exact isRun.split
    · have whole : Ipv6.ofGroups? ip.groups = some ip := dif_pos ip.length_eq
      simp [ipv6,writeGroups_read (Nat.le_of_eq eight) closed,eight,whole]

/-- The text of a version 6 address starts with no version 4 address. -/
theorem ipv6_write_ipv4 (ip : Ipv6) : ipv4 (ip.write ++ rest) = none := by
  unfold Ipv6.write
  split
  · exact empty_ipv4_none colon_plain
  · have eight := ip.length_eq
    generalize Ipv6.zeroRun ip.groups = run
    obtain ⟨start,length⟩ := run
    dsimp only
    split
    · cases front : ip.groups.take start with
      | nil => exact empty_ipv4_none colon_plain
      | cons g gs =>
        rw [writeGroups_cons,List.append_assoc,List.append_assoc,List.append_assoc]
        exact group_ipv4_none g (moreGroups_plain gs colon_plain)
    · obtain ⟨g,h,gs,all⟩ : ∃ g h gs, ip.groups = g::h::gs := by
        match ip.groups,eight with
        | g::h::gs,_ => exact ⟨g,h,gs,rfl⟩
      rw [all,writeGroups_cons,List.append_assoc]
      exact group_ipv4_none g colon_plain

theorem ip_write (address : Ip) : whole ip address.write = some address := by
  cases address with
  | v4 address =>
    have read := ipv4_write address stops_nil
    rw [List.append_nil] at read
    simp [whole,ip,Ip.write,read]
  | v6 address =>
    have none : ipv4 (address.write ++ []) = none := ipv6_write_ipv4 address
    have read := ipv6_write address (closed_of_head plain_nil (by simp)) stops_nil
    rw [List.append_nil] at none read
    simp [whole,ip,Ip.write,none,read]

theorem zone_write (scope : UInt32) :
    zone ((if scope = 0 then [] else '%'::Numeral.write 10 scope.toNat) ++ ']'::rest) =
      (scope,']'::rest) := by
  have bracket : Stops 10 (']'::rest) := stops_cons (by decide)
  split
  · next zero => simp [zone,symbol,zero]
  · have small := scope.toNat_lt
    have read : number 10 4294967296 none true (Numeral.write 10 scope.toNat ++ ']'::rest) =
        some (scope.toNat,']'::rest) :=
      number_write (by decide) (by decide) true (by omega) (by simp) bracket
    simp [zone,symbol,read]

/-- A flow label is the only part of an address that its text leaves out. -/
theorem socket_write (address : Socket) :
    whole socket address.write = some address.withoutFlow := by
  cases address with
  | v4 ip port =>
    have colon : ∀ {cs}, Stops 10 (':'::cs) := stops_cons (by decide)
    have read := port_write port stops_nil
    rw [List.append_nil] at read
    simp [whole,socket,socketV4,Socket.write,ipv4_write ip colon,read,Socket.withoutFlow]
  | v6 ip port flow scope =>
    let zoneText := if scope = 0 then [] else '%'::Numeral.write 10 scope.toNat
    let rest := zoneText ++ ']' :: ':' :: Numeral.write 10 port.toNat
    have head : rest.head? = some '%' ∨ rest.head? = some ']' := by
      by_cases zero : scope = 0
      · simp [rest,zoneText,zero]
      · simp [rest,zoneText,zero]
    have stops : ∀ radix, radix = 10 ∨ radix = 16 → Stops radix rest := by
      intro radix base c same
      rcases head with percent | bracket
      · rw [Option.some.inj (same.symm.trans percent)]
        rcases base with rfl | rfl <;> rfl
      · rw [Option.some.inj (same.symm.trans bracket)]
        rcases base with rfl | rfl <;> rfl
    have closed : Closed rest := by
      refine closed_of_head ⟨stops 16 (.inr rfl),?_⟩ ?_
      · rcases head with h | h <;> rw [h] <;> decide
      · rcases head with h | h <;> rw [h] <;> decide
    have text : (Socket.v6 ip port flow scope).write = '['::(ip.write ++ rest) := by
      simp [Socket.write,rest,zoneText]
    have noV4 : ipv4 ('['::(ip.write ++ rest)) = none :=
      empty_ipv4_none (plain_cons (by decide) (by decide))
    have read := port_write port stops_nil
    rw [List.append_nil] at read
    have groups := ipv6_write ip closed (stops 10 (.inl rfl))
    simp [whole,socket,socketV4,socketV6,text,noV4,symbol,groups,rest,zoneText,zone_write,read,
      Socket.withoutFlow]

end Phrase

theorem Ip.format_read (address : Ip) :
    Ip.format.read? (Ip.format.write address) = some address := by
  simp only [Ip.format,String.toList_ofList]
  exact Phrase.ip_write address

theorem Socket.format_read (address : Socket) :
    Socket.format.read? (Socket.format.write address) = some address.withoutFlow := by
  simp only [Socket.format,String.toList_ofList]
  exact Phrase.socket_write address

theorem Endpoint.format_read (address : Endpoint) :
    Endpoint.format.read? (Endpoint.format.write address) = some ⟨address.socket.withoutFlow⟩ := by
  simp only [Endpoint.format,Socket.format_read,Option.map_some]

end Bitwire
