import Bitwire.Proofs.Range
import Bitwire.Proofs.Relative
import Bitwire.Proofs.Tape

/-! The bits that each kind of leaf puts on the wire, said without a stream, and the values it
may be asked to send. A tape receives just these bits, or it is left as it was. -/
namespace Bitwire

/-- A proper range that holds a number. -/
def Between (min max : Int32) (value : Int) : Prop :=
  min < max ∧ min.toInt ≤ value ∧ value ≤ max.toInt

instance (min max : Int32) (value : Int) : Decidable (Between min max value) :=
  inferInstanceAs (Decidable (_ ∧ _))

/-- Numbers in a range of 32 bits are kept by such a number. -/
theorem Between.ofInt_toInt {min max : Int32} {value : Int} (h : Between min max value) :
    (Int32.ofInt value).toInt = value := by
  have := min.le_toInt
  have := max.toInt_lt
  exact Int32.toInt_ofInt_of_le (by have := h.2; omega) (by have := h.2; omega)

/-- A difference that no bucket before reaches lies in the first one that does. -/
theorem Bucket.between {b : Bucket} {low : Nat} {difference : UInt32} (proper : b.min < b.max)
    (start : b.min.toInt = low) (above : low ≤ difference.toNat)
    (inside : difference.toNat ≤ b.max.toNatClampNeg) :
    Between b.min b.max (IntTarget.toInt difference) := by
  have place : IntTarget.toInt difference = difference.toNat := rfl
  have top : b.max.toNatClampNeg = b.max.toInt.toNat := rfl
  have ordered := Int32.lt_iff_toInt_lt.mp proper
  exact ⟨proper,by omega,by omega⟩

/-- How far an acknowledgement lies behind is sent up to 64. -/
theorem Relative.behind_between {sequence ack : UInt16} (near : behind sequence ack ≤ 64) :
    IntTarget.toInt (Int32.ofNat (behind sequence ack)) = behind sequence ack ∧
      Between 1 maxAckDelta (IntTarget.toInt (Int32.ofNat (behind sequence ack))) := by
  have some := (behind_bounds sequence ack).1
  have delta : IntTarget.toInt (Int32.ofNat (behind sequence ack)) = behind sequence ack :=
    Int32.toInt_ofNat_of_lt (by omega)
  have top : maxAckDelta.toInt = 64 := rfl
  have bottom : Int32.toInt 1 = 1 := rfl
  exact ⟨delta,by decide,by omega,by omega⟩

namespace Wire

/-- The offset from the minimum. -/
def integer (min max : Int32) (value : Int) : List Bool :=
  bitsOf (bitsRequired min max) (value - min.toInt).toNat

/-- Bytes from the next byte boundary on. -/
def bytes (position : Nat) (data : List UInt8) : List Bool :=
  zeroPadding position ++ bitsOfBytes data

def check (position : Nat) : List Bool := zeroPadding position ++ bitsOf 32 checkWord.toNat

/-- The length in bytes, then the bytes. -/
def text (size position : Nat) (value : String) : List Bool :=
  let length := integer 0 (Int32.ofNat (size - 1)) value.utf8ByteSize
  length ++ bytes (position + length.length) value.toUTF8.data.toList

/-- A flag for each bucket up to the one that holds the difference, then the place in it. -/
def bucketed (current difference : UInt32) : List Bucket → List Bool
  | [] => bitsOf 32 current.toNat
  | b::rest =>
      if difference.toNat ≤ b.max.toNatClampNeg
        then true::integer b.min b.max difference.toNat
        else false::bucketed current difference rest

def relative (previous current : UInt32) : List Bool :=
  if current - previous = 1 then [true]
  else false::bucketed current (current - previous) Relative.buckets

def ackRelative (sequence ack : UInt16) : List Bool :=
  if Relative.behind sequence ack ≤ 64
    then true::integer 1 Relative.maxAckDelta (Relative.behind sequence ack)
    else false::bitsOf 16 ack.toNat

def sequenceRelative (first second : UInt16) : List Bool :=
  relative first.toUInt32 (Relative.unwrap first second)

theorem integer_length (min max : Int32) (value : Int) :
    (integer min max value).length = bitsRequired min max := bitsOf_length _ _

theorem bytes_length (position : Nat) (data : List UInt8) :
    (bytes position data).length = padding position + 8*data.length := by
  rw [bytes,List.length_append,zeroPadding_length,bitsOfBytes_length]

end Wire

namespace Leaf

/-- The bits of a value sent from a position. -/
def wire (checks : Bool) (scope : Scope) (position : Nat) : (kind : Leaf) → kind.Value → List Bool
  | int _ min max, value =>
      Wire.integer (Int32.ofInt (min scope)) (Int32.ofInt (max scope)) (IntTarget.toInt value)
  | rawInt min max, value =>
      Wire.integer (Int32.ofInt (min scope)) (Int32.ofInt (max scope)) (Int32.toInt value)
  | bits _ count, value => bitsOf (count scope).toNat (BitsTarget.toWord value).toNat
  | rawBits count, value => bitsOf (count scope).toNat (UInt32.toNat value)
  | bool, value => [value]
  | u32, value | float, value => bitsOf 32 (UInt32.toNat value)
  | u64, value | double, value => bitsOf 64 (UInt64.toNat value)
  | bytes _, value => Wire.bytes position (Vector.toList value)
  | text size, value => Wire.text (size scope).toNat position value
  | align, _ => zeroPadding position
  | check, _ => if checks then Wire.check position else []
  | address type, value => Wire.text AddressFormat.bufferSize position (type.format.write value)
  | relative previous, value => Wire.relative (UInt32.ofInt (previous scope)) value
  | ackRelative sequence, value => Wire.ackRelative (UInt16.ofInt (sequence scope)) value
  | sequenceRelative first, value => Wire.sequenceRelative (UInt16.ofInt (first scope)) value

/-- What a writer demands of a value and its parameters. -/
def Permits (scope : Scope) : (kind : Leaf) → kind.Value → Prop
  | int _ min max, value =>
      Between (Int32.ofInt (min scope)) (Int32.ofInt (max scope)) (IntTarget.toInt value)
  | rawInt min max, value =>
      Between (Int32.ofInt (min scope)) (Int32.ofInt (max scope)) (Int32.toInt value)
  | bits _ count, _ | rawBits count, _ => 1 ≤ (count scope).toNat ∧ (count scope).toNat ≤ 32
  | text size, value =>
      (2 ≤ (size scope).toNat ∧ (size scope).toNat ≤ 2^31) ∧
        String.utf8ByteSize value ≤ (size scope).toNat - 1
  | address type, value =>
      type.format.isValid value ∧ (type.format.write value).utf8ByteSize ≤ 255
  | relative previous, value => UInt32.ofInt (previous scope) < value
  | sequenceRelative first, value => UInt16.ofInt (first scope) ≠ value
  | bool, _ | u32, _ | u64, _ | float, _ | double, _ | bytes _, _ | align, _ | check, _
  | ackRelative _, _ => True

instance (scope : Scope) : (kind : Leaf) → (value : kind.Value) →
    Decidable (kind.Permits scope value)
  | int .., _ | rawInt .., _ => inferInstanceAs (Decidable (Between _ _ _))
  | bits .., _ | rawBits _, _ | text _, _ | address _, _ => inferInstanceAs (Decidable (_ ∧ _))
  | relative _, value => inferInstanceAs (Decidable (_ < (value : UInt32)))
  | sequenceRelative _, value => inferInstanceAs (Decidable (_ ≠ (value : UInt16)))
  | bool, _ | u32, _ | u64, _ | float, _ | double, _ | bytes _, _ | align, _ | check, _
  | ackRelative _, _ => inferInstanceAs (Decidable True)

end Leaf

namespace Text
variable {size : Nat}

theorem maxLength_of_proper (h : 2 ≤ size ∧ size ≤ 2^31) :
    maxLength size = .ok (Int32.ofNat (size - 1)) := if_pos h

theorem maxLength_of_not_proper (h : ¬(2 ≤ size ∧ size ≤ 2^31)) :
    maxLength size = reject (.contractViolation .textCapacity) := if_neg h

theorem permitLength_of_le {value : String} (proper : size ≤ 2^31)
    (fits : value.utf8ByteSize ≤ size - 1) :
    permitLength (Int32.ofNat (size - 1)) value = .ok (Int32.ofNat value.utf8ByteSize) := by
  rw [permitLength,Int32.toNatClampNeg_ofNat_of_lt (by omega),if_pos fits]

theorem permitLength_of_not_le {value : String} (proper : size ≤ 2^31)
    (long : ¬value.utf8ByteSize ≤ size - 1) :
    permitLength (Int32.ofNat (size - 1)) value = reject (.contractViolation .textTooLong) := by
  rw [permitLength,Int32.toNatClampNeg_ofNat_of_lt (by omega),if_neg long]

/-- The length of a text that fits lies in the range that it is sent in. -/
theorem length_between {value : String} (proper : 2 ≤ size ∧ size ≤ 2^31)
    (fits : value.utf8ByteSize ≤ size - 1) :
    IntTarget.toInt (Int32.ofNat value.utf8ByteSize) = value.utf8ByteSize ∧
      Between 0 (Int32.ofNat (size - 1)) (IntTarget.toInt (Int32.ofNat value.utf8ByteSize)) := by
  have length : IntTarget.toInt (Int32.ofNat value.utf8ByteSize) = value.utf8ByteSize :=
    Int32.toInt_ofNat_of_lt (by omega)
  have max : (Int32.ofNat (size - 1)).toInt = (size - 1 : Nat) :=
    Int32.toInt_ofNat_of_lt (by omega)
  refine ⟨length,Int32.lt_iff_toInt_lt.mpr ?_,?_,?_⟩
  · rw [max,Int32.toInt_zero]
    omega
  · rw [length,Int32.toInt_zero]
    omega
  · rw [max,length]
    omega

theorem ofUtf8?_eq_some {bytes : Array UInt8} {text : String} :
    ofUtf8? bytes = some text ↔ text.toUTF8.data = bytes := by
  unfold ofUtf8? String.fromUTF8?
  constructor
  · intro h
    split at h
    · rw [← Option.some.inj h]; rfl
    · cases h
  · rintro rfl
    exact dif_pos text.isValidUTF8

end Text

/-- A call that appends bits to a tape if its precondition holds, and else changes nothing. -/
structure Tape.Sends {α : Type} (t : Tape) (permits : Prop) (value : α) (bits : List Bool)
    (step : Step Tape α) : Prop where
  sent : permits → step = .done value (t ++ bits)
  refused : ¬permits → ∃ breach, step = .fail value t (.error (.contractViolation breach))

theorem halves_bits (value : UInt64) :
    bitsOf 32 value.toUInt32.toNat ++ bitsOf 32 (value >>> 32).toUInt32.toNat =
      bitsOf 64 value.toNat := by
  have low : value.toUInt32.toNat = value.toNat%2^32 := value.toNat_toUInt32
  have high : (value >>> 32).toUInt32.toNat = value.toNat/2^32%2^32 := by
    rw [UInt64.toNat_toUInt32,UInt64.toNat_shiftRight,Nat.shiftRight_eq_div_pow]
    rfl
  rw [low,high,bitsOf_mod,bitsOf_mod,← bitsOf_append]

namespace Tape
variable {α β : Type} {checks : Bool} {t : Tape}

theorem Sends.always {value : α} {bits : List Bool} {step : Step Tape α}
    (h : step = .done value (t ++ bits)) : t.Sends True value bits step :=
  ⟨fun _ => h,fun no => absurd trivial no⟩

/-- The variable of the caller takes no part in writing. -/
theorem Sends.keep {permits : Prop} {value : α} {kept : β} {bits : List Bool} {step : Step Tape α}
    (h : t.Sends permits value bits step) (checks : Bool) (decoded : α → Outcome β) :
    t.Sends permits kept bits (step.andThen kept fun found s =>
      Directive.store (stream checks) kept s (decoded found)) where
  sent yes := by rw [h.sent yes]; rfl
  refused no := by
    obtain ⟨breach,run⟩ := h.refused no
    exact ⟨breach,by rw [run]; rfl⟩

variable (checks) (t)

theorem integer_sends (min max value : Int32) :
    t.Sends (Between min max value.toInt) value (Wire.integer min max value.toInt)
      ((stream checks).integer min max value t) where
  sent h := by
    have inside := (Range.contains_iff ⟨min,max,h.1⟩ value.toInt).mpr h.2
    simp only [stream,Range.ofBounds_of_lt h.1,Range.permit_of_contains inside,Step.given_ok]
    rw [Range.offset_toNat]
    rfl
  refused h := by
    by_cases proper : min < max
    · have outside : ¬(Range.mk min max proper).contains value.toInt = true := by
        rw [Range.contains_iff]
        exact fun inside => h ⟨proper,inside⟩
      refine ⟨.outsideRange,?_⟩
      simp only [stream,Range.ofBounds_of_lt proper,Step.given_ok,Range.permit,if_neg outside]
      rfl
    · refine ⟨.emptyRange,?_⟩
      simp only [stream,Range.ofBounds_of_not_lt proper]
      rfl

theorem bits_sends (count : Nat) (value : UInt32) :
    t.Sends (1 ≤ count ∧ count ≤ 32) value (bitsOf count value.toNat)
      ((stream checks).bits count value t) where
  sent h := by
    simp only [stream,permitCount,if_pos h]
    rfl
  refused h := ⟨.bitCount,by simp only [stream,permitCount,if_neg h]; rfl⟩

theorem int_eq [IntTarget α] (min max : Int32) (value : α) :
    Directive.int (stream checks) min max value t =
      Step.given (Range.ofBounds min max) value t fun range =>
      Step.given (range.permit (IntTarget.toInt value)) value t fun sent =>
      ((stream checks).integer min max sent t).andThen value fun _ s => .done value s := rfl

theorem int_sends [IntTarget α] (min max : Int32) (value : α) :
    t.Sends (Between min max (IntTarget.toInt value)) value
      (Wire.integer min max (IntTarget.toInt value))
      (Directive.int (stream checks) min max value t) where
  sent h := by
    have inside := (Range.contains_iff ⟨min,max,h.1⟩ (IntTarget.toInt value)).mpr h.2
    have exact := h.ofInt_toInt
    have sent := (integer_sends checks t min max
      (Int32.ofInt (IntTarget.toInt value))).sent (by rw [exact]; exact h)
    rw [int_eq,Range.ofBounds_of_lt h.1,Step.given_ok,Range.permit,if_pos inside,Step.given_ok,
      sent,exact]
    rfl
  refused h := by
    rw [int_eq]
    by_cases proper : min < max
    · have outside : ¬(Range.mk min max proper).contains (IntTarget.toInt value) = true := by
        rw [Range.contains_iff]
        exact fun inside => h ⟨proper,inside⟩
      rw [Range.ofBounds_of_lt proper,Step.given_ok,Range.permit,if_neg outside]
      exact ⟨.outsideRange,rfl⟩
    · rw [Range.ofBounds_of_not_lt proper]
      exact ⟨.emptyRange,rfl⟩

theorem bitRun_sends [BitsTarget α] (count : Nat) (value : α) :
    t.Sends (1 ≤ count ∧ count ≤ 32) value (bitsOf count (BitsTarget.toWord value).toNat)
      (Directive.bits (stream checks) count value t) where
  sent h := by
    have low : bitsOf count (lowBits count (BitsTarget.toWord value)).toNat =
        bitsOf count (BitsTarget.toWord value).toNat := by
      rw [lowBits,UInt32.toNat_ofNat_of_lt',Nat.one_shiftLeft,bitsOf_mod]
      exact Nat.lt_of_le_of_lt (Nat.mod_le _ _) (BitsTarget.toWord value).toNat_lt
    have sent := (bits_sends checks t count
      (lowBits count (BitsTarget.toWord value))).sent h
    rw [low] at sent
    change Step.given (permitCount count) value t (fun _ =>
      ((stream checks).bits count (lowBits count (BitsTarget.toWord value)) t).andThen value
        fun found s => Directive.store (stream checks) value s (acceptWord found)) = _
    rw [permitCount,if_pos h,Step.given_ok,sent]
    rfl
  refused h := by
    rw [Directive.bits,permitCount,if_neg h]
    exact ⟨.bitCount,rfl⟩

theorem bool_sends (value : Bool) :
    t.Sends True value [value] (Directive.bool (stream checks) value t) :=
  .always (by cases value <;> rfl)

theorem u32_sends (value : UInt32) :
    t.Sends True value (bitsOf 32 value.toNat) (Directive.u32 (stream checks) value t) :=
  .always rfl

theorem u64_sends (value : UInt64) :
    t.Sends True value (bitsOf 64 value.toNat) (Directive.u64 (stream checks) value t) := by
  refine .always ?_
  rw [← halves_bits,← List.append_assoc]
  rfl

theorem bytes_sends {n : Nat} (data : Vector UInt8 n) :
    t.Sends True data (Wire.bytes t.length data.toList) ((stream checks).bytes data t) :=
  .always (by rw [Wire.bytes,← List.append_assoc]; rfl)

theorem check_sends :
    t.Sends True () (if checks then Wire.check t.length else []) ((stream checks).check t) := by
  refine .always ?_
  cases checks with
  | false => rw [if_neg Bool.false_ne_true,List.append_nil]; rfl
  | true => rw [if_pos rfl,Wire.check,← List.append_assoc]; rfl

theorem text_eq (size : Nat) (value : String) :
    Directive.text (stream checks) size value t =
      Step.given (Text.maxLength size) value t fun max =>
      Step.given (Text.permitLength max value) value t fun length =>
      (Directive.int (stream checks) 0 max length t).andThen value fun _ s =>
      let step := (stream checks).bytes (Text.utf8 value) s
      match Text.ofUtf8? step.value.toArray with
      | some kept => ⟨kept,step.state,step.result⟩
      | none => .fail "" step.state (.error .invalidUtf8) := rfl

theorem text_sends (size : Nat) (value : String) :
    t.Sends ((2 ≤ size ∧ size ≤ 2^31) ∧ value.utf8ByteSize ≤ size - 1) value
      (Wire.text size t.length value) (Directive.text (stream checks) size value t) where
  sent h := by
    obtain ⟨length,inside⟩ := Text.length_between h.1 h.2
    have sent := (int_sends checks t 0 (Int32.ofNat (size - 1))
      (Int32.ofNat value.utf8ByteSize)).sent inside
    rw [text_eq,Text.maxLength_of_proper h.1,Step.given_ok,Text.permitLength_of_le h.1.2 h.2,
      Step.given_ok,sent,Step.andThen_done]
    have kept : Text.ofUtf8? (Text.utf8 value).toArray = some value :=
      Text.ofUtf8?_eq_some.mpr rfl
    simp only [(bytes_sends checks _ (Text.utf8 value)).sent trivial,Step.done,kept]
    rw [length,Wire.text,List.length_append,List.append_assoc]
    rfl
  refused h := by
    rw [text_eq]
    by_cases proper : 2 ≤ size ∧ size ≤ 2^31
    · have long : ¬value.utf8ByteSize ≤ size - 1 := fun fits => h ⟨proper,fits⟩
      rw [Text.maxLength_of_proper proper,Step.given_ok,Text.permitLength_of_not_le proper.2 long]
      exact ⟨.textTooLong,rfl⟩
    · rw [Text.maxLength_of_not_proper proper]
      exact ⟨.textCapacity,rfl⟩

theorem address_sends (F : AddressFormat α) (value : α) :
    t.Sends (F.isValid value ∧ (F.write value).utf8ByteSize ≤ 255) value
      (Wire.text AddressFormat.bufferSize t.length (F.write value))
      (Directive.address (stream checks) F value t) where
  sent h := by
    have sent := (text_sends checks t AddressFormat.bufferSize
      (F.write value)).sent ⟨by decide,h.2⟩
    change Step.given (F.permit value) value t (fun sent =>
      (Directive.text (stream checks) AddressFormat.bufferSize sent t).andThen value
        fun found s => Directive.store (stream checks) value s (F.accept found)) = _
    rw [AddressFormat.permit,if_pos h.1,Step.given_ok,sent]
    rfl
  refused h := by
    change ∃ breach, Step.given (F.permit value) value t (fun sent =>
      (Directive.text (stream checks) AddressFormat.bufferSize sent t).andThen value
        fun found s => Directive.store (stream checks) value s (F.accept found)) = _
    by_cases valid : F.isValid value = true
    · obtain ⟨breach,run⟩ := (text_sends checks t AddressFormat.bufferSize
        (F.write value)).refused fun fits => h ⟨valid,fits.2⟩
      rw [AddressFormat.permit,if_pos valid,Step.given_ok,run]
      exact ⟨breach,rfl⟩
    · rw [AddressFormat.permit,if_neg valid]
      exact ⟨.unsendableAddress,rfl⟩

end Tape

namespace Tape
variable {α : Type} (checks : Bool) (t : Tape)

/-- With the buckets before ruled out, the first that reaches the difference holds it. -/
theorem bucketed_sends (previous current difference : UInt32) {low : Nat} {buckets : List Bucket}
    (contiguous : Bucket.Contiguous low buckets) (above : low ≤ difference.toNat) :
    t.Sends True current (Wire.bucketed current difference buckets)
      (Directive.bucketed (stream checks) previous current difference buckets t) := by
  induction buckets generalizing low t with
  | nil => exact (u32_sends checks t current).keep checks _
  | cons b rest ih =>
    obtain ⟨proper,start,contiguous⟩ := contiguous
    refine .always ?_
    rw [Directive.bucketed,(bool_sends checks t _).sent trivial,Step.andThen_done,Wire.bucketed]
    by_cases inside : difference.toNat ≤ b.max.toNatClampNeg
    · have sent := (int_sends checks (t ++ [true]) b.min b.max difference).sent
        (Bucket.between proper start above inside)
      rw [if_pos (decide_eq_true inside),if_pos inside,decide_eq_true inside,sent,
        List.append_cons t true (Wire.integer _ _ _)]
      rfl
    · rw [if_neg (by simpa using inside),if_neg inside,decide_eq_false inside,
        List.append_cons t false (Wire.bucketed _ _ _)]
      exact (ih _ contiguous (by omega)).sent trivial

theorem relative_sends (previous current : UInt32) :
    t.Sends (previous < current) current (Wire.relative previous current)
      (Directive.relative (stream checks) previous current t) where
  sent h := by
    have apart : (current - previous).toNat = current.toNat - previous.toNat :=
      UInt32.toNat_sub_of_le _ _ (UInt32.le_of_lt h)
    have more := UInt32.lt_iff_toNat_lt.mp h
    change Step.given (if previous < current then .ok (current - previous) else _) current t _ = _
    rw [if_pos h,Step.given_ok,(bool_sends checks t _).sent trivial,Step.andThen_done,Wire.relative]
    by_cases one : current - previous = 1
    · rw [one]
      rfl
    · have above : 2 ≤ (current - previous).toNat := by
        have : (current - previous).toNat ≠ 1 := fun same => one (UInt32.toNat_inj.mp same)
        omega
      rw [if_neg (by simpa using one),if_neg one,beq_false_of_ne one,
        List.append_cons t false (Wire.bucketed _ _ _)]
      exact (bucketed_sends checks _ previous current _ Relative.buckets_contiguous above).sent
        trivial
  refused h := by
    change ∃ breach, Step.given (if previous < current then .ok (current - previous) else _)
      current t _ = _
    rw [if_neg h]
    exact ⟨.notIncreasing,rfl⟩

theorem ackRelative_eq (sequence ack : UInt16) :
    Directive.ackRelative (stream checks) sequence ack t =
      (Directive.bool (stream checks)
        (decide (Int32.ofNat (Relative.behind sequence ack) ≤ Relative.maxAckDelta)) t).andThen ack
        fun near s =>
      if near then
        (Directive.int (stream checks) 1 Relative.maxAckDelta
          (Int32.ofNat (Relative.behind sequence ack)) s).andThen ack fun _ s => .done ack s
      else Directive.bits (stream checks) 16 ack s := rfl

theorem ackRelative_sends (sequence ack : UInt16) :
    t.Sends True ack (Wire.ackRelative sequence ack)
      (Directive.ackRelative (stream checks) sequence ack t) := by
  have far := (Relative.behind_bounds sequence ack).2
  have delta : IntTarget.toInt (Int32.ofNat (Relative.behind sequence ack)) =
      Relative.behind sequence ack := Int32.toInt_ofNat_of_lt (by omega)
  have near : Int32.ofNat (Relative.behind sequence ack) ≤ Relative.maxAckDelta ↔
      Relative.behind sequence ack ≤ 64 := by
    rw [Int32.le_iff_toInt_le,show (Int32.ofNat _).toInt = _ from delta]
    exact Int.ofNat_le
  refine .always ?_
  rw [ackRelative_eq,(bool_sends checks t _).sent trivial,Step.andThen_done,Wire.ackRelative]
  by_cases h : Relative.behind sequence ack ≤ 64
  · have between := (Relative.behind_between h).2
    rw [if_pos (decide_eq_true (near.mpr h)),if_pos h,decide_eq_true (near.mpr h),
      (int_sends checks _ _ _ _).sent between,List.append_cons t true (Wire.integer _ _ _),delta]
    rfl
  · have no : ¬Int32.ofNat (Relative.behind sequence ack) ≤ Relative.maxAckDelta :=
      fun yes => h (near.mp yes)
    rw [if_neg (by simpa using no),if_neg h,decide_eq_false no,
      (bitRun_sends checks _ 16 ack).sent (by decide),List.append_cons t false (bitsOf _ _)]
    rfl

theorem sequenceRelative_sends (first second : UInt16) :
    t.Sends (first ≠ second) second (Wire.sequenceRelative first second)
      (Directive.sequenceRelative (stream checks) first second t) := by
  rw [← Relative.lt_unwrap]
  exact (relative_sends checks t _ _).keep checks _

end Tape

/-- A leaf appends its wire form if its value may be sent, and else changes nothing. -/
theorem Leaf.run_sends (checks : Bool) (scope : Scope) (t : Tape) (kind : Leaf)
    (value : kind.Value) :
    t.Sends (kind.Permits scope value) value (kind.wire checks scope t.length value)
      (kind.run (Tape.stream checks) scope value t) := by
  cases kind with
  | int type min max => exact Tape.int_sends checks t (α := type.Carrier) _ _ value
  | bits type count => exact Tape.bitRun_sends checks t (α := type.Carrier) _ value
  | rawInt min max => exact Tape.integer_sends checks t _ _ value
  | rawBits count => exact Tape.bits_sends checks t _ value
  | bool => exact Tape.bool_sends checks t value
  | u32 => exact Tape.u32_sends checks t value
  | u64 => exact Tape.u64_sends checks t value
  | float => exact (Tape.u32_sends checks t value).keep checks .ok
  | double => exact (Tape.u64_sends checks t value).keep checks .ok
  | bytes length => exact Tape.bytes_sends checks t value
  | text size => exact Tape.text_sends checks t _ value
  | align => exact .always rfl
  | check => exact Tape.check_sends checks t
  | address type => exact Tape.address_sends checks t _ value
  | relative previous => exact Tape.relative_sends checks t _ value
  | ackRelative sequence => exact Tape.ackRelative_sends checks t _ value
  | sequenceRelative first => exact Tape.sequenceRelative_sends checks t _ value

end Bitwire
