import Bitwire.Proofs.AddressSize
import Bitwire.Proofs.RoundTrip

/-! Sending what was received. A reader makes sure of all that a writer demands, also where it takes
a form that no writer chooses. What it took is then sent in another form, which is no more than
256 times as long. -/
namespace Bitwire

theorem AddressFormat.accept_eq_ok {α : Type} {F : AddressFormat α} {text : String} {address : α} :
    F.accept text = .ok address ↔ F.read? text = some address ∧ F.isValid address = true := by
  unfold accept
  cases F.read? text with
  | none => exact ⟨fun h => (by cases h),fun h => (by cases h.1)⟩
  | some found =>
    dsimp only
    split
    · next valid =>
      refine ⟨fun h => ?_,fun h => congrArg _ (Option.some.inj h.1)⟩
      obtain rfl := Except.ok.inj h
      exact ⟨rfl,valid⟩
    · next invalid =>
      refine ⟨fun h => (by cases h),fun h => absurd h.2 ?_⟩
      rwa [← Option.some.inj h.1]

/-- An address that was accepted may be sent, however its text was written. -/
theorem Leaf.fits_of_accept {type : AddressType} {text : String} {address : type.Carrier}
    (accepted : type.format.accept text = .ok address) (scope : Scope) :
    (Leaf.address type).Fits scope address := by
  obtain ⟨found,valid⟩ := AddressFormat.accept_eq_ok.mp accepted
  refine ⟨⟨valid,type.write_size address⟩,?_⟩
  cases type with
  | ip => trivial
  | socket => exact Socket.read_withoutFlow found
  | endpoint =>
    obtain ⟨socket,read,rfl⟩ := Option.map_eq_some_iff.mp found
    exact Socket.read_withoutFlow read

theorem padding_moved {p q : Nat} (h : q ≤ 256*p) : q + padding q ≤ 256*p := by
  unfold padding
  omega

theorem Wire.bytes_moved {p q : Nat} (h : q ≤ 256*p) (data : List UInt8) :
    q + (Wire.bytes q data).length ≤ 256*(p + (Wire.bytes p data).length) := by
  have aligned := padding_moved h
  rw [bytes_length,bytes_length]
  omega

theorem Wire.text_moved {p q : Nat} (h : q ≤ 256*p) (size : Nat) (value : String) :
    q + (Wire.text size q value).length ≤ 256*(p + (Wire.text size p value).length) := by
  let length := Wire.integer 0 (Int32.ofNat (size - 1)) value.utf8ByteSize
  have bytes := Wire.bytes_moved (show q + length.length ≤ 256*(p + length.length) by omega)
    value.toUTF8.data.toList
  change q + (length ++ Wire.bytes (q + length.length) _).length ≤
    256*(p + (length ++ Wire.bytes (p + length.length) _).length)
  rw [List.length_append,List.length_append]
  omega

/-- A form is the same in another place but for its padding. -/
theorem Leaf.wire_moved (checks : Bool) (scope : Scope) (kind : Leaf) (value : kind.Value)
    {p q : Nat} (h : q ≤ 256*p) :
    q + (kind.wire checks scope q value).length ≤
      256*(p + (kind.wire checks scope p value).length) := by
  have aligned := padding_moved h
  cases kind with
  | bytes length => exact Wire.bytes_moved h _
  | text size => exact Wire.text_moved h _ _
  | address type => exact Wire.text_moved h _ _
  | align =>
    simp only [wire,zeroPadding_length]
    omega
  | check =>
    simp only [wire,Wire.check]
    split
    · simp only [List.length_append,zeroPadding_length,bitsOf_length]
      omega
    · simp only [List.length_nil]
      omega
  | _ =>
    simp only [wire]
    omega

/-- Some bits were taken for a value, and not many more are sent of it again. -/
def Passage.again (checks : Bool) : Passage := fun scope kind value c d =>
  kind.Fits scope value ∧ ∃ taken, c.Sees taken ∧ d = c.skip taken.length ∧
    ∀ q ≤ 256*c.position, q + (kind.wire checks scope q value).length ≤ 256*d.position

theorem Passage.again_seesParams (checks : Bool) : (again checks).SeesParams := by
  intro scope scope' kind same
  funext value c d
  simp only [again,Leaf.fits_congr same,Leaf.wire_congr checks same]

namespace Cursor
variable {c : Cursor} (checks : Bool)

theorem store_only {α : Type} (kept : α) {answer : Outcome α}
    (success : (Directive.store (stream checks) kept c answer).result = .ok ()) :
    answer = .ok (Directive.store (stream checks) kept c answer).value ∧
      (Directive.store (stream checks) kept c answer).state = c := by
  cases answer with
  | ok found => exact ⟨rfl,rfl⟩
  | error failure => cases success

/-- Both forms of an acknowledgement are taken. -/
theorem ackRelative_took (sequence kept : UInt16) (small : c.position < 2^64)
    (success : (Directive.ackRelative (stream checks) sequence kept c).result = .ok ()) :
    ∃ taken, 7 ≤ taken.length ∧ c.Sees taken ∧
      (Directive.ackRelative (stream checks) sequence kept c).state = c.skip taken.length := by
  rw [ackRelative_eq] at success ⊢
  have flag := Step.ok_of_andThen success
  obtain ⟨-,front,state⟩ := (bool_reads checks false).only small flag
  rw [Step.andThen_of_ok flag,state] at success ⊢
  have join : ∀ {back : List Bool} {d : Cursor}, 6 ≤ back.length →
      (c.skip [true].length).Sees back → d = (c.skip [true].length).skip back.length →
      ∃ taken, 7 ≤ taken.length ∧ c.Sees taken ∧ d = c.skip taken.length := by
    intro back d some sees state
    refine ⟨_ ++ back,?_,Cursor.sees_append.mpr ⟨front,sees⟩,?_⟩
    · rw [List.length_append,List.length_singleton]
      omega
    · rw [state,Cursor.skip_skip,List.length_append]
      rfl
  split at success
  · next near =>
    rw [if_pos near]
    have delta := Step.ok_of_andThen success
    obtain ⟨-,sees,state⟩ := (int_reads checks 1 Relative.maxAckDelta 0).only front.reached delta
    rw [Step.andThen_of_ok delta,state]
    refine join ?_ sees rfl
    rw [Wire.integer_length]
    decide
  · next far =>
    rw [if_neg far]
    obtain ⟨-,sees,state⟩ := (bitRun_reads checks 16 kept).only front.reached success
    refine join ?_ sees state
    rw [bitsOf_length]
    decide

/-- Any text of an address is taken. -/
theorem address_took {α : Type} (F : AddressFormat α) (kept : α) (small : c.position < 2^64)
    (success : (Directive.address (stream checks) F kept c).result = .ok ()) :
    ∃ text, F.accept text = .ok (Directive.address (stream checks) F kept c).value ∧
      c.Sees (Wire.text AddressFormat.bufferSize c.position text) ∧
      (Directive.address (stream checks) F kept c).state =
        c.skip (Wire.text AddressFormat.bufferSize c.position text).length := by
  rw [address_eq] at success ⊢
  have first := Step.ok_of_andThen success
  obtain ⟨-,sees,state⟩ := (text_reads checks AddressFormat.bufferSize "").only small first
  rw [Step.andThen_of_ok first,state] at success ⊢
  obtain ⟨accepted,state⟩ := store_only checks kept success
  exact ⟨_,accepted,sees,state⟩

end Cursor

theorem Wire.ackRelative_length (sequence ack : UInt16) :
    (Wire.ackRelative sequence ack).length ≤ 17 := by
  have short : bitsRequired 1 Relative.maxAckDelta = 6 := by decide
  unfold ackRelative
  split
  · rw [List.length_cons,integer_length,short]
    decide
  · rw [List.length_cons,bitsOf_length]

/-- The length of an address text is sent in a byte. -/
theorem AddressFormat.length_bits : bitsRequired 0 (Int32.ofNat (bufferSize - 1)) = 8 := by decide

theorem Wire.address_length (position : Nat) (text : String) :
    (Wire.text AddressFormat.bufferSize position text).length =
      8 + (padding (position + 8) + 8*text.utf8ByteSize) := by
  have data : text.toUTF8.data.toList.length = text.utf8ByteSize := rfl
  simp only [Wire.text,List.length_append,integer_length,bytes_length,AddressFormat.length_bits,
    data]

namespace Leaf
variable (checks : Bool) (tag : Tag)

theorem ackRelative_again (sequence : Param) :
    (Field.leaf tag (.ackRelative sequence)).Passes checks (Passage.again checks) := by
  intro scope kept c small success
  obtain ⟨taken,some,sees,state⟩ := Cursor.ackRelative_took checks _ kept small success
  have reached : ((ackRelative sequence).run (Cursor.stream checks) scope kept c).state =
    c.skip taken.length := state
  rw [reached]
  refine ⟨⟨⟨trivial,trivial⟩,taken,sees,rfl,fun q moved => ?_⟩,sees.reached⟩
  have short := Wire.ackRelative_length (UInt16.ofInt (sequence scope))
    ((ackRelative sequence).run (Cursor.stream checks) scope kept c).value
  rw [Cursor.skip_position]
  simp only [wire]
  omega

theorem address_again (type : AddressType) :
    (Field.leaf tag (.address type)).Passes checks (Passage.again checks) := by
  intro scope kept c small success
  obtain ⟨text,accepted,sees,state⟩ := Cursor.address_took checks type.format kept small success
  have reached : ((address type).run (Cursor.stream checks) scope kept c).state =
    c.skip (Wire.text AddressFormat.bufferSize c.position text).length := state
  rw [reached]
  refine ⟨⟨fits_of_accept accepted scope,_,sees,rfl,fun q moved => ?_⟩,sees.reached⟩
  have short := type.write_size ((address type).run (Cursor.stream checks) scope kept c).value
  simp only [Cursor.skip_position,wire,Wire.address_length]
  unfold padding
  omega

/-- Every leaf that was taken may be sent. -/
theorem passes_again (kind : Leaf) :
    (Field.leaf tag kind).Passes checks (Passage.again checks) := by
  by_cases strict : kind.IsStrict
  · intro scope kept c small success
    obtain ⟨fits,sees,state⟩ := (kind.run_reads checks scope strict kept).only small success
    rw [state]
    refine ⟨⟨fits,_,sees,rfl,fun q moved => ?_⟩,sees.reached⟩
    exact kind.wire_moved checks scope _ moved
  · cases kind with
    | ackRelative sequence => exact ackRelative_again checks tag sequence
    | address type => exact address_again checks tag type
    | _ => exact absurd trivial strict

end Leaf

variable {checks : Bool}

mutual
theorem Field.Value.Took.again {scope : Scope} : {field : Field} → {value : field.Value} →
    {c d : Cursor} → value.Took (Passage.again checks) scope c d → c.position < 2^64 →
    ∃ taken, c.Sees taken ∧ d = c.skip taken.length ∧ ∀ q ≤ 256*c.position,
      q + (value.wire checks scope q).length ≤ 256*d.position
  | .leaf .., .leaf _, _, _, took, _ => took.2
  | .object .., .object _, _, _, took, small => Record.Took.again took small
/-- A whole record is sent again in not many more bits than were taken for it. -/
theorem Record.Took.again {finished : Scope} : {fields : List Field} → {record : Record fields} →
    {c d : Cursor} → record.Took (Passage.again checks) finished c d → c.position < 2^64 →
    ∃ taken, c.Sees taken ∧ d = c.skip taken.length ∧ ∀ q ≤ 256*c.position,
      q + (record.wire checks finished q).length ≤ 256*d.position
  | [], .nil, _, _, rfl, small => ⟨[],⟨List.nil_prefix,small⟩,rfl,fun _ moved => moved⟩
  | field::_, .cons value rest, c, d, took, small => by
      obtain ⟨m,head,tail⟩ := took
      have first : ∃ taken, c.Sees taken ∧ m = c.skip taken.length ∧ ∀ q ≤ 256*c.position,
          q + (if field.isSent (finished.orElse (Record.cons value rest).scope) then
            value.wire checks (finished.orElse (Record.cons value rest).scope) q
              else []).length ≤ 256*m.position := by
        split at head
        · next sent =>
          simp only [if_pos sent]
          exact Field.Value.Took.again head small
        · next skipped =>
          simp only [if_neg skipped,head]
          exact ⟨[],⟨List.nil_prefix,small⟩,rfl,fun _ moved => moved⟩
      obtain ⟨front,sees,rfl,moved⟩ := first
      obtain ⟨back,more,rfl,moved'⟩ := Record.Took.again tail sees.reached
      refine ⟨front ++ back,Cursor.sees_append.mpr ⟨sees,more⟩,?_,fun q less => ?_⟩
      · rw [Cursor.skip_skip,← List.length_append]
      · rw [Record.wire,List.length_append,← Nat.add_assoc]
        exact moved' _ (moved q less)
end

namespace Record
variable {fields : List Field}

/-- Whatever is decoded may be sent again, every field of it, and is decoded again with the same
values, whatever the target held. The new message is perhaps another, but not much longer, so only
an absurd length of the old one leaves a reader unable to count the bits of the new. -/
theorem decode_resend (checks : Bool) (free : Throughout Field.IsModeFree fields)
    (causal : Causal fields) (target received : Record fields) (bytes : List UInt8)
    (decoded : target.decode checks bytes = .ok received) :
    received.Meets Leaf.Permits .empty ∧
      ∃ bytes', received.encode checks = .ok bytes' ∧ bytes'.length ≤ 256*bytes.length ∧
        (8*bytes'.length < 2^64 → ∀ target' : Record fields, ∃ received',
          target'.decode checks bytes' = .ok received' ∧ received.Same .empty received') := by
  obtain ⟨result,-,rfl⟩ := decode_eq_ok.mp decoded
  have passes : Throughout (Field.Passes checks (Passage.again checks)) fields := by
    refine throughout_all (fun field => ?_) fields
    cases field with
    | leaf tag kind => exact Leaf.passes_again checks tag kind
    | object => trivial
  obtain ⟨took,-⟩ := target.run_took (Passage.again_seesParams checks) free passes causal
    (Nat.two_pow_pos 64) result
  have meets := took.meets fun _ _ _ _ _ took => took.1
  obtain ⟨bytes',encoded,bits⟩ := encode_sent checks free meets.permits
  obtain ⟨taken,sees,state,moved⟩ := took.again (Nat.two_pow_pos 64)
  refine ⟨meets.permits,bytes',encoded,?_,fun room target' => ?_⟩
  · have front := sees.ahead.length_le
    have size := congrArg List.length bits
    have again := moved 0 (Nat.zero_le _)
    change taken.length ≤ (bitsOfBytes bytes).length at front
    rw [state,Cursor.skip_position] at again
    change 0 + _ ≤ 256*(0 + taken.length) at again
    rw [bitsOfBytes_length] at front
    rw [bitsOfBytes_length,List.length_append,zeroPadding_length,padding] at size
    omega
  · refine decode_sent free causal meets bits ?_ target'
    rwa [bytesFor_eq,← zeroPadding_length,← List.length_append,← bits,bitsOfBytes_length]

/-- The number 99 in full, though it is near, and the text `::ffff:102:304`. -/
theorem decode_resend_notice :
    let received : Record noticeFields :=
      .cons (.leaf (99 : UInt16)) (.cons (.leaf (Ip.v6 ⟨[0,0,0,0,0,65535,0x102,0x304],rfl⟩)) .nil)
    let bytes : List UInt8 := [198,0,28,0,58,58,102,102,102,102,58,49,48,50,58,51,48,52]
    received.Meets Leaf.Permits .empty ∧
      ∃ bytes', received.encode true = .ok bytes' ∧ bytes'.length ≤ 256*bytes.length ∧
        (8*bytes'.length < 2^64 → ∀ target' : Record noticeFields, ∃ received',
          target'.decode true bytes' = .ok received' ∧ received.Same .empty received') :=
  decode_resend true noticeFields_free noticeFields_causal (Record.initial noticeFields) _
    [198,0,28,0,58,58,102,102,102,102,58,49,48,50,58,51,48,52] rfl

/-- It comes back in the form that a writer chooses. -/
example :
    let received : Record noticeFields :=
      .cons (.leaf (99 : UInt16)) (.cons (.leaf (Ip.v6 ⟨[0,0,0,0,0,65535,0x102,0x304],rfl⟩)) .nil)
    received.encode true =
      .ok [1,7,58,58,102,102,102,102,58,49,46,50,46,51,46,52] := by decide +kernel

end Record
end Bitwire
