import Bitwire.Proofs.Patterns

/-! The code of bounded integers. The width of a range is the least that holds its offsets, a writer
sends the offset of a value in that width, and a reader makes of every pattern of it what plain
integers make of the sum. -/
namespace Bitwire

namespace Range

/-- The 64-bit arithmetic of a range, and the words that it is stored in, lose nothing. -/
structure IsExact (r : Range) : Prop where
  distance : ∀ value : Int32, r.contains value.toInt →
    (value.toInt64 - r.min.toInt64).toInt = value.toInt - r.min.toInt ∧
      ((r.offset value).toNat : Int) = value.toInt - r.min.toInt
  sum : ∀ offset : UInt32,
    (r.min.toInt64 + Int64.ofNat offset.toNat).toInt = r.min.toInt + offset.toNat
  /-- A writer narrows the value that it was given. -/
  sent : ∀ (value : Int) (sent : Int32), r.permit value = .ok sent → sent.toInt = value
  /-- A reader narrows the sum. -/
  found : ∀ (offset : UInt32) (value : Int32), r.ofOffset offset = .ok value ↔
    value.toInt = r.min.toInt + offset.toNat ∧ value.toInt ≤ r.max.toInt

theorem isExact (r : Range) : r.IsExact where
  distance value inside := by
    have place := (r.contains_iff _).mp inside
    refine ⟨toInt_sub_toInt64 value r.min,?_⟩
    rw [offset_toNat]
    omega
  sum := toInt_add_toInt64 r.min
  sent value sent permitted := by
    have low := r.min.le_toInt
    have high := r.max.toInt_lt
    unfold permit at permitted
    split at permitted
    · next inside =>
      have place := (r.contains_iff _).mp inside
      obtain rfl := Except.ok.inj permitted
      exact Int32.toInt_ofInt_of_le (by omega) (by omega)
    · cases permitted
  found offset value := by
    constructor
    · intro taken
      obtain ⟨inside,same⟩ := ofOffset_ok taken
      have place := (r.contains_iff _).mp inside
      have distance := offset_toNat r value
      rw [same] at distance
      exact ⟨by omega,place.2⟩
    · rintro ⟨sum,within⟩
      rw [ofOffset_eq,← sum,if_neg (Int.not_lt.mpr within),Int32.ofInt_toInt]

/-- What the range or the target does not hold is reported as it was found. -/
theorem accept_of_not_holds {α : Type} [IntTarget α] {r : Range} {found : Int}
    (outside : r.contains found = true → ∀ value : α, IntTarget.toInt value ≠ found) :
    (r.accept found : Outcome α) = reject (r.exceeded found) := by
  unfold accept
  split
  · next inside =>
    cases target : (IntTarget.ofInt? found : Option α) with
    | none => rfl
    | some value => exact absurd (IntTarget.ofInt?_eq_some.mp target) (outside inside value)
  · rfl

/-- What is seen of a read whose pattern stands for a number from the minimum on: the number, if
the range and the target hold it, and else an error that names it. -/
structure Decodes {α : Type} [IntTarget α] (min max : Int32) (kept : α) (offset stop : Nat)
    (seen : Seen α) : Prop where
  holds : ∀ value : α, IntTarget.toInt value = min.toInt + offset →
    min.toInt + offset ≤ max.toInt → seen = ⟨value,.ok (),stop⟩
  exceeds : max.toInt < min.toInt + offset ∨
      (∀ value : α, IntTarget.toInt value ≠ min.toInt + offset) →
    seen = ⟨kept,reject (.outOfRange (min.toInt + offset) min.toInt max.toInt),stop⟩

end Range

namespace Cursor
variable {α : Type} [IntTarget α] {min max : Int32} {c : Cursor}

theorem int_decodes (checks : Bool) (proper : min < max)
    (enough : bitsRequired min max ≤ c.rest.length)
    (room : c.position + bitsRequired min max < 2^64) (kept : α) :
    Range.Decodes min max kept (ofBits (c.rest.take (bitsRequired min max)))
      (c.position + bitsRequired min max)
      ((stream checks).seen (Directive.int (stream checks) min max kept c)) := by
  obtain ⟨offset,small,front⟩ := exists_pattern enough
  have pattern : c.rest.take (bitsRequired min max) = bitsOf (bitsRequired min max) offset := by
    simpa using (List.prefix_iff_eq_take.mp front).symm
  have run := int_pattern checks proper small
    ⟨front,by rw [bitsOf_length]; exact room⟩ kept
  rw [pattern,ofBits_bitsOf,Nat.mod_eq_of_lt small,run]
  constructor
  case holds =>
    intro value same within
    have above : min.toInt ≤ min.toInt + offset := by omega
    have inside : (Range.mk min max proper).contains (IntTarget.toInt value) = true := by
      rw [Range.contains_iff,same]
      exact ⟨above,within⟩
    rw [← same,Range.accept_eq_ok.mpr ⟨inside,rfl⟩]
    rfl
  case exceeds =>
    intro outside
    rw [Range.accept_of_not_holds]
    · rfl
    intro inside value same
    rcases outside with above | none
    · exact absurd ((Range.contains_iff _ _).mp inside).2 (Int.not_le.mpr above)
    · exact none value same

end Cursor

/-- The arithmetic of a range is exact, and its width is the least that holds every offset. A writer
at any position appends the offset of a value in that width, whatever the target. A reader at any
position with that many bits left takes them all: it finds the number that they stand for, or
reports just this number and leaves the variable as it was. -/
theorem integer_coded (checks : Bool) (min max : Int32) (proper : min < max) :
    (Range.mk min max proper).IsExact ∧
    let b := bitsRequired min max
    (1 ≤ b ∧ b ≤ 32 ∧ (2 : Int)^(b - 1) ≤ max.toInt - min.toInt ∧
      max.toInt - min.toInt < (2 : Int)^b) ∧
    (∀ p, Packer.Reached checks p → ∀ (type : IntType) (value : type.Carrier),
      min.toInt ≤ IntTarget.toInt value → IntTarget.toInt value ≤ max.toInt →
      p.Appends value (bitsOf b (IntTarget.toInt value - min.toInt).toNat)
        (Directive.int (Packer.stream checks) min max value p)) ∧
    (∀ bytes r, 8*bytes.length < 2^64 → Reader.Reached checks bytes r →
      let ahead := (bitsOfBytes bytes).drop r.input.position
      b ≤ ahead.length → ∀ (type : IntType) (kept : type.Carrier),
      Range.Decodes min max kept (ofBits (ahead.take b)) (r.input.position + b)
        ((Reader.stream checks).seen (Directive.int (Reader.stream checks) min max kept r))) := by
  let range : Range := ⟨min,max,proper⟩
  refine ⟨range.isExact,?_⟩
  intro b
  have pos : 1 ≤ b := range.bits_pos
  obtain ⟨least,enough⟩ : 2^(b - 1) ≤ (max.toInt - min.toInt).toNat ∧
    (max.toInt - min.toInt).toNat < 2^b := range.bits_least
  have ordered : min.toInt < max.toInt := range.min_lt_max_toInt
  have span : ((max.toInt - min.toInt).toNat : Int) = max.toInt - min.toInt := by omega
  refine ⟨⟨pos,range.bits_le,?_,?_⟩,?_,?_⟩
  · rw [← span]
    exact_mod_cast least
  · rw [← span]
    exact_mod_cast enough
  · intro p reached type value low high
    obtain ⟨t,holds⟩ := reached.holds
    have alike := ((Packer.stream_holds checks).follows.int holds min max value).toAlike
    exact holds.appends (Tape.int_sends checks t min max value) alike ⟨proper,low,high⟩
  · intro bytes r countable reached ahead enough type kept
    have alike := ((Reader.stream_at checks).follows.int reached.at min max kept).toAlike
    rw [(Reader.stream_at checks).seen_eq alike]
    let c : Cursor := ⟨bitsOfBytes bytes,r.input.position⟩
    refine Cursor.int_decodes checks proper (c := c) enough ?_ kept
    have length := bitsOfBytes_length bytes
    simp only [ahead,List.length_drop] at enough
    change r.input.position + b < 2^64
    omega

/-- Numbers from -5 to 300 take nine bits. The value 250 is sent as the offset 255, here off a byte
boundary. An offset of 3 stands for -2, which no byte holds, and one of 400 for 395. -/
theorem integer_coded_narrow :
    (-5 : Int32) < 300 ∧
    (Packer.empty.push 5 3).Appends (250 : UInt8) (List.replicate 8 true ++ [false])
      (Directive.int (Packer.stream true) (-5) 300 250 (Packer.empty.push 5 3)) ∧
    (Reader.stream true).seen
        (Directive.int (Reader.stream true) (-5) 300 (7 : UInt8) (.ofBytes [0xff,0x00])) =
      ⟨250,.ok (),9⟩ ∧
    (Reader.stream true).seen
        (Directive.int (Reader.stream true) (-5) 300 (7 : UInt8) (.ofBytes [0x03,0x00])) =
      ⟨7,reject (.outOfRange (-2) (-5) 300),9⟩ ∧
    (Reader.stream true).seen
        (Directive.int (Reader.stream true) (-5) 300 (7 : UInt8) (.ofBytes [0x90,0x01])) =
      ⟨7,reject (.outOfRange 395 (-5) 300),9⟩ := by
  obtain ⟨-,-,writes,reads⟩ := integer_coded true (-5) 300 (by decide)
  have reached : Packer.Reached true ((Leaf.rawBits fun _ => 3).run (Packer.stream true) .empty
    (5 : UInt32) .empty).state := .call .empty _ .start
  have read := fun bytes length few => reads bytes (.ofBytes bytes) length .start few .u8 7
  refine ⟨by decide,writes _ reached .u8 250 (by decide) (by decide),?_,?_,?_⟩
  · exact (read [0xff,0x00] (by decide) (by decide)).holds 250 (by decide) (by decide)
  · refine (read [0x03,0x00] (by decide) (by decide)).exceeds (.inr fun value same => ?_)
    change (value.toNat : Int) = -2 at same
    omega
  · exact (read [0x90,0x01] (by decide) (by decide)).exceeds (.inl (by decide))

end Bitwire
