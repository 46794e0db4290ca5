import Bitwire.Proofs.Patterns

/-! The forms of acknowledgements. A near one has two forms, of which a writer takes the short one
and a reader both; any other has the raw form only. Every input that is long enough begins with a
form. -/
namespace Bitwire
namespace Relative
variable {sequence ack : UInt16}

/-- At most 64 behind, modulo 2^16. -/
def IsNear (sequence ack : UInt16) : Prop :=
  1 ≤ (sequence - ack).toNat ∧ (sequence - ack).toNat ≤ 64

instance (sequence ack : UInt16) : Decidable (IsNear sequence ack) :=
  inferInstanceAs (Decidable (_ ∧ _))

/-- A set flag and how far behind. -/
def ackShort (sequence ack : UInt16) : List Bool := true::bitsOf 6 ((sequence - ack).toNat - 1)

/-- An empty flag and the number itself. -/
def ackRaw (ack : UInt16) : List Bool := false::bitsOf 16 ack.toNat

/-- The form that a writer takes. -/
def ackCode (sequence ack : UInt16) : List Bool :=
  if IsNear sequence ack then ackShort sequence ack else ackRaw ack

/-- The forms that a reader takes. -/
def ackForms (sequence ack : UInt16) : List (List Bool) :=
  if IsNear sequence ack then [ackShort sequence ack,ackRaw ack] else [ackRaw ack]

/-- How many bits an input needs to have, by its first one. -/
def ackNeeded : List Bool → Nat
  | [] => 1
  | true::_ => 7
  | false::_ => 17

theorem ackCode_mem (sequence ack : UInt16) : ackCode sequence ack ∈ ackForms sequence ack := by
  unfold ackCode ackForms
  split
  · exact List.mem_cons_self
  · exact List.mem_cons_self

theorem mem_ackForms {form : List Bool} : form ∈ ackForms sequence ack ↔
    (IsNear sequence ack ∧ form = ackShort sequence ack) ∨ form = ackRaw ack := by
  unfold ackForms
  split
  · next near => simp [near]
  · next far => simp [far]

theorem ackForms_length_le {form : List Bool} (member : form ∈ ackForms sequence ack) :
    form.length ≤ 17 := by
  rcases mem_ackForms.mp member with ⟨-,rfl⟩ | rfl
  · rw [ackShort,List.length_cons,bitsOf_length]
    decide
  · rw [ackRaw,List.length_cons,bitsOf_length]

/-- The number itself is a full lap behind, any other less than one. -/
theorem behind_eq (sequence ack : UInt16) :
    behind sequence ack = if sequence = ack then 65536 else (sequence - ack).toNat := by
  have := sequence.toNat_lt
  have := ack.toNat_lt
  rw [behind,UInt16.toNat_sub]
  simp only [UInt16.lt_iff_toNat_lt,← UInt16.toNat_inj]
  split <;> split <;> omega

theorem behind_near : behind sequence ack ≤ 64 ↔ IsNear sequence ack := by
  have := sequence.toNat_lt
  have := ack.toNat_lt
  rw [IsNear,behind,UInt16.toNat_sub]
  simp only [UInt16.lt_iff_toNat_lt]
  split <;> omega

/-- Each pattern behind a set flag is the short form of a near acknowledgement. -/
theorem exists_ackShort (sequence : UInt16) {offset : Nat} (small : offset < 2^6) :
    ∃ ack, IsNear sequence ack ∧ ackShort sequence ack = true::bitsOf 6 offset := by
  have := sequence.toNat_lt
  have number : (UInt16.ofNat (offset + 1)).toNat = offset + 1 :=
    UInt16.toNat_ofNat_of_lt' (by simp only [UInt16.size]; omega)
  have distance : (sequence - (sequence - UInt16.ofNat (offset + 1))).toNat = offset + 1 := by
    rw [UInt16.toNat_sub,UInt16.toNat_sub,number]
    omega
  refine ⟨sequence - UInt16.ofNat (offset + 1),?_,?_⟩
  · rw [IsNear,distance]
    omega
  · rw [ackShort,distance,Nat.add_sub_cancel]

/-- An input with as many bits as it needs begins with a form. -/
theorem exists_form (sequence : UInt16) {ahead : List Bool}
    (enough : ackNeeded ahead ≤ ahead.length) :
    ∃ ack, ∃ form ∈ ackForms sequence ack, form <+: ahead := by
  cases ahead with
  | nil => cases enough
  | cons flag more =>
    rw [List.length_cons] at enough
    cases flag with
    | true =>
      obtain ⟨offset,small,front⟩ := exists_pattern (Nat.le_of_succ_le_succ enough)
      obtain ⟨ack,near,short⟩ := exists_ackShort sequence small
      refine ⟨ack,_,mem_ackForms.mpr (.inl ⟨near,rfl⟩),?_⟩
      rw [short]
      exact List.cons_prefix_cons.mpr ⟨rfl,front⟩
    | false =>
      obtain ⟨offset,small,front⟩ := exists_pattern (Nat.le_of_succ_le_succ enough)
      have number : (UInt16.ofNat offset).toNat = offset := UInt16.toNat_ofNat_of_lt' small
      refine ⟨UInt16.ofNat offset,_,mem_ackForms.mpr (.inr rfl),?_⟩
      rw [ackRaw,number]
      exact List.cons_prefix_cons.mpr ⟨rfl,front⟩

/-- What a reader makes of the bits ahead where it expects an acknowledgement. -/
structure DecodesAck (sequence kept : UInt16) (ahead : List Bool) (position : Nat)
    (seen : Seen UInt16) : Prop where
  accepts : ∀ found stop, seen = ⟨found,.ok (),stop⟩ ↔
    ∃ form ∈ ackForms sequence found, form <+: ahead ∧ stop = position + form.length
  restores : ∀ ack, ackCode sequence ack <+: ahead →
    seen = ⟨ack,.ok (),position + (ackCode sequence ack).length⟩
  succeeds : ackNeeded ahead ≤ ahead.length → seen.result = .ok ()
  cut : ahead.length < ackNeeded ahead → seen.result = reject .endOfBuffer ∧ seen.value = kept

end Relative

theorem Wire.ackRelative_code (sequence ack : UInt16) :
    ackRelative sequence ack = Relative.ackCode sequence ack := by
  rw [ackRelative,Relative.ackCode]
  by_cases near : Relative.IsNear sequence ack
  · have apart : sequence ≠ ack := by
      rintro rfl
      exact absurd near.1 (by rw [UInt16.sub_self]; decide)
    have offset : ((Relative.behind sequence ack : Int) - 1).toNat =
        (sequence - ack).toNat - 1 := by
      rw [Relative.behind_eq,if_neg apart]
      omega
    rw [if_pos near,if_pos (Relative.behind_near.mpr near),Relative.ackShort,← offset]
    rfl
  · rw [if_neg near,if_neg (mt Relative.behind_near.mp near)]
    rfl

namespace Cursor
variable {c : Cursor} (checks : Bool)

theorem ack_raw (sequence kept ack : UInt16) (sees : c.Sees (Relative.ackRaw ack)) :
    Directive.ackRelative (stream checks) sequence kept c =
      .done ack (c.skip (Relative.ackRaw ack).length) := by
  obtain ⟨flag,number⟩ := sees.tail
  have read := (bitRun_reads checks 16 kept).accepts ack ⟨by decide,ack.toNat_lt⟩ number
  rw [ackRelative_eq,bool_sees flag,Step.andThen_done,if_neg Bool.false_ne_true,read,skip_skip,
    Relative.ackRaw,List.length_cons,Nat.add_comm]
  rfl

/-- Each form of an acknowledgement is taken for it. -/
theorem ack_form {sequence ack : UInt16} {form : List Bool}
    (member : form ∈ Relative.ackForms sequence ack) (front : form <+: c.rest)
    (room : c.position + 17 < 2^64) (kept : UInt16) :
    Directive.ackRelative (stream checks) sequence kept c = .done ack (c.skip form.length) := by
  have short := Relative.ackForms_length_le member
  have sees : c.Sees form := ⟨front,by omega⟩
  rcases Relative.mem_ackForms.mp member with ⟨near,rfl⟩ | rfl
  · have code : Wire.ackRelative sequence ack = Relative.ackShort sequence ack :=
      (Wire.ackRelative_code sequence ack).trans (if_pos near)
    rw [← code] at sees ⊢
    exact ackRelative_accepts checks sequence kept ack trivial sees
  · exact ack_raw checks sequence kept ack sees

theorem ack_cut (short : c.rest.length < Relative.ackNeeded c.rest)
    (room : c.position + 17 < 2^64) (sequence kept : UInt16) :
    ∃ d, Directive.ackRelative (stream checks) sequence kept c =
      .fail kept d (.error .endOfBuffer) := by
  rw [ackRelative_eq]
  cases ahead : c.rest with
  | nil =>
    refine ⟨c,?_⟩
    rw [bool_empty ahead (by omega)]
    rfl
  | cons flag more =>
    obtain ⟨sees,later⟩ := sees_cons ahead (by omega)
    rw [ahead,List.length_cons] at short
    rw [← later] at short
    refine ⟨c.skip 1,?_⟩
    rw [bool_sees sees,Step.andThen_done]
    cases flag with
    | true =>
      rw [if_pos rfl,int_short (by decide) (Nat.lt_of_succ_lt_succ short)
        (show c.position + 1 + 6 < _ by omega)]
      rfl
    | false =>
      rw [if_neg Bool.false_ne_true,bitRun_short (by decide) (Nat.lt_of_succ_lt_succ short)
        (show c.position + 1 + 16 < _ by omega)]

theorem ack_decodes (c : Cursor) (sequence kept : UInt16) (room : c.position + 17 < 2^64) :
    Relative.DecodesAck sequence kept c.rest c.position
      ((stream checks).seen (Directive.ackRelative (stream checks) sequence kept c)) where
  accepts found stop := by
    constructor
    · intro seen
      by_cases enough : Relative.ackNeeded c.rest ≤ c.rest.length
      · -- The form in front is one of a number that can only be the one found.
        obtain ⟨ack,form,member,front⟩ := Relative.exists_form sequence enough
        rw [ack_form checks member front room kept] at seen
        obtain rfl : ack = found := congrArg Seen.value seen
        exact ⟨form,member,front,(congrArg Seen.position seen).symm⟩
      · obtain ⟨d,run⟩ := ack_cut checks (Nat.lt_of_not_le enough) room sequence kept
        rw [run] at seen
        cases congrArg Seen.result seen
    · rintro ⟨form,member,front,rfl⟩
      rw [ack_form checks member front room kept]
      rfl
  restores ack front := by
    rw [ack_form checks (Relative.ackCode_mem sequence ack) front room kept]
    rfl
  succeeds enough := by
    obtain ⟨ack,form,member,front⟩ := Relative.exists_form sequence enough
    rw [ack_form checks member front room kept]
    rfl
  cut short := by
    obtain ⟨d,run⟩ := ack_cut checks short room sequence kept
    rw [run]
    exact ⟨rfl,rfl⟩

end Cursor

/-- A writer at any position sends an acknowledgement that is 1 to 64 behind in the short form, and
any other in the raw one, also the sequence number itself. A reader at any position whose counter
has room for the longer form takes just the forms of an acknowledgement for it; it succeeds where
the bits it needs are there, and leaves the variable as it was where they are not. -/
theorem ack_coded (checks : Bool) :
    (∀ p, Packer.Reached checks p → ∀ sequence ack : UInt16,
      p.Appends ack (Relative.ackCode sequence ack)
        (Directive.ackRelative (Packer.stream checks) sequence ack p)) ∧
    (∀ bytes r, Reader.Reached checks bytes r → r.input.position + 17 < 2^64 →
      ∀ sequence kept : UInt16, Relative.DecodesAck sequence kept
        ((bitsOfBytes bytes).drop r.input.position) r.input.position
        ((Reader.stream checks).seen
          (Directive.ackRelative (Reader.stream checks) sequence kept r))) := by
  constructor
  · intro p reached sequence ack
    obtain ⟨t,holds⟩ := reached.holds
    have alike := ((Packer.stream_holds checks).follows.ackRelative holds sequence ack).toAlike
    rw [← Wire.ackRelative_code]
    exact holds.appends (Tape.ackRelative_sends checks t sequence ack) alike trivial
  · intro bytes r reached room sequence kept
    have alike := ((Reader.stream_at checks).follows.ackRelative reached.at sequence kept).toAlike
    rw [(Reader.stream_at checks).seen_eq alike]
    exact Cursor.ack_decodes checks ⟨bitsOfBytes bytes,r.input.position⟩ sequence kept room

/-- The number 65535 is two behind 1, and is also read in its raw form. -/
theorem ack_coded_wrapped :
    Packer.empty.Appends 65535 [true,true,false,false,false,false,false]
      (Directive.ackRelative (Packer.stream true) 1 65535 .empty) ∧
    (Reader.stream true).seen
        (Directive.ackRelative (Reader.stream true) 1 0 (.ofBytes [0xfe,0xff,0x01])) =
      ⟨65535,.ok (),17⟩ := by
  have written := (ack_coded true).1 .empty .start 1 65535
  have read := (ack_coded true).2 [0xfe,0xff,0x01] (.ofBytes [0xfe,0xff,0x01]) .start (by decide)
    1 0
  exact ⟨written,(read.accepts 65535 17).mpr ⟨Relative.ackRaw 65535,by decide,by decide,rfl⟩⟩

end Bitwire
