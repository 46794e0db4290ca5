import Bitwire.Step

/-! Inclusive ranges of 32-bit integers, and the types that what is decoded is stored in. A value
travels as its offset from the minimum, in the fewest bits that hold every offset. -/
namespace Bitwire

/-- Distance between two bounds, computed without wrapping in 64 bits. -/
def span (min max : Int32) : UInt32 := UInt32.ofNat (max.toInt64 - min.toInt64).toNatClampNeg

def bitsRequired (min max : Int32) : Nat :=
  if max ≤ min then 0 else (span min max).toNat.log2 + 1

structure Range where
  min : Int32
  max : Int32
  min_lt_max : min < max
  deriving DecidableEq, Repr

namespace Range

def ofBounds (min max : Int32) : Outcome Range :=
  if h : min < max then .ok ⟨min,max,h⟩ else reject (.contractViolation .emptyRange)

def contains (r : Range) (value : Int) : Bool := r.min.toInt ≤ value && value ≤ r.max.toInt

def bits (r : Range) : Nat := bitsRequired r.min r.max

def offset (r : Range) (value : Int32) : UInt32 := span r.min value

/-- The error of a value above the maximum or outside its target. -/
def exceeded (r : Range) (value : Int) : Error :=
  .outOfRange value r.min.toInt r.max.toInt

/-- The value at an offset; offsets between the maximum and the last bit pattern have none. -/
def ofOffset (r : Range) (offset : UInt32) : Outcome Int32 :=
  let value := r.min.toInt64 + Int64.ofNat offset.toNat
  if r.max.toInt64 < value then reject (r.exceeded value.toInt) else .ok value.toInt32

/-- Accepts a value that a writer may send. -/
def permit (r : Range) (value : Int) : Outcome Int32 :=
  if r.contains value then .ok (Int32.ofInt value)
  else reject (.contractViolation .outsideRange)

end Range

/-! Types that a decoded number can be stored in. A target holds a number exactly or not
at all. -/

/-- Targets of a bounded integer. -/
class IntTarget (α : Type) where
  toInt : α → Int
  ofInt? : Int → Option α
  ofInt?_eq_some : ∀ {x : Int} {a : α}, ofInt? x = some a ↔ toInt a = x

/-- Targets of a bit run. -/
class BitsTarget (α : Type) where
  toWord : α → UInt32
  ofWord? : UInt32 → Option α
  ofWord?_eq_some : ∀ {w : UInt32} {a : α}, ofWord? w = some a ↔ toWord a = w

namespace IntTarget

theorem toInt_inj {α : Type} [IntTarget α] {a b : α} (same : toInt a = toInt b) : a = b := by
  have first : ofInt? (toInt b) = some a := ofInt?_eq_some.mpr same
  exact Option.some.inj (first.symm.trans (ofInt?_eq_some.mpr rfl))

/-- A target that holds the integers between two bounds. -/
@[reducible] def ofBounds {α : Type} (low high : Int) (toInt : α → Int) (convert : Int → α)
    (bounds : ∀ a, low ≤ toInt a ∧ toInt a ≤ high) (back : ∀ a, convert (toInt a) = a)
    (exact : ∀ x, low ≤ x → x ≤ high → toInt (convert x) = x) : IntTarget α where
  toInt := toInt
  ofInt? x := if low ≤ x ∧ x ≤ high then some (convert x) else none
  ofInt?_eq_some {x a} := by
    constructor
    · intro h
      split at h
      · next hx => rw [← Option.some.inj h,exact x hx.1 hx.2]
      · cases h
    · rintro rfl
      rw [if_pos (bounds a),back a]

instance : IntTarget UInt8 :=
  .ofBounds 0 255 (fun a => a.toNat) (fun x => UInt8.ofNat x.toNat)
    (fun a => by have := a.toNat_lt; omega) (fun a => by simp)
    (fun x h k => by rw [UInt8.toNat_ofNat_of_lt' (by simp [UInt8.size]; omega)]; omega)

instance : IntTarget UInt16 :=
  .ofBounds 0 65535 (fun a => a.toNat) (fun x => UInt16.ofNat x.toNat)
    (fun a => by have := a.toNat_lt; omega) (fun a => by simp)
    (fun x h k => by rw [UInt16.toNat_ofNat_of_lt' (by simp [UInt16.size]; omega)]; omega)

instance : IntTarget UInt32 :=
  .ofBounds 0 4294967295 (fun a => a.toNat) (fun x => UInt32.ofNat x.toNat)
    (fun a => by have := a.toNat_lt; omega) (fun a => by simp)
    (fun x h k => by rw [UInt32.toNat_ofNat_of_lt' (by simp [UInt32.size]; omega)]; omega)

instance : IntTarget Int8 :=
  .ofBounds (-128) 127 Int8.toInt Int8.ofInt
    (fun a => by have := a.toInt_lt; have := a.le_toInt; omega) Int8.ofInt_toInt
    (fun x h k => Int8.toInt_ofInt_of_le (by omega) (by omega))

instance : IntTarget Int16 :=
  .ofBounds (-32768) 32767 Int16.toInt Int16.ofInt
    (fun a => by have := a.toInt_lt; have := a.le_toInt; omega) Int16.ofInt_toInt
    (fun x h k => Int16.toInt_ofInt_of_le (by omega) (by omega))

instance : IntTarget Int32 :=
  .ofBounds (-2147483648) 2147483647 Int32.toInt Int32.ofInt
    (fun a => by have := a.toInt_lt; have := a.le_toInt; omega) Int32.ofInt_toInt
    (fun x h k => Int32.toInt_ofInt_of_le (by omega) (by omega))

instance : IntTarget Int64 :=
  .ofBounds (-9223372036854775808) 9223372036854775807 Int64.toInt Int64.ofInt
    (fun a => by have := a.toInt_lt; have := a.le_toInt; omega) Int64.ofInt_toInt
    (fun x h k => Int64.toInt_ofInt_of_le (by omega) (by omega))

end IntTarget

namespace BitsTarget

theorem toWord_inj {α : Type} [BitsTarget α] {a b : α} (same : toWord a = toWord b) : a = b := by
  have first : ofWord? (toWord b) = some a := ofWord?_eq_some.mpr same
  exact Option.some.inj (first.symm.trans (ofWord?_eq_some.mpr rfl))

@[reducible] def ofBound {α : Type} (bound : Nat) (toWord : α → UInt32) (convert : UInt32 → α)
    (bounds : ∀ a, (toWord a).toNat < bound) (back : ∀ a, convert (toWord a) = a)
    (exact : ∀ w, w.toNat < bound → toWord (convert w) = w) : BitsTarget α where
  toWord := toWord
  ofWord? w := if w.toNat < bound then some (convert w) else none
  ofWord?_eq_some {w a} := by
    constructor
    · intro h
      split at h
      · next hw => rw [← Option.some.inj h,exact w hw]
      · cases h
    · rintro rfl
      rw [if_pos (bounds a),back a]

instance : BitsTarget UInt8 :=
  .ofBound 256 UInt8.toUInt32 UInt32.toUInt8 (fun a => a.toNat_lt) (fun a => by simp)
    (fun w h => UInt32.toNat.inj (by simp; omega))

instance : BitsTarget UInt16 :=
  .ofBound 65536 UInt16.toUInt32 UInt32.toUInt16 (fun a => a.toNat_lt) (fun a => by simp)
    (fun w h => UInt32.toNat.inj (by simp; omega))

instance : BitsTarget UInt32 :=
  .ofBound 4294967296 id id (fun a => a.toNat_lt) (fun _ => rfl) (fun _ _ => rfl)

/-- A character is stored as its code point; surrogates and numbers above 0x10ffff are none. -/
instance : BitsTarget Char where
  toWord c := c.val
  ofWord? w := if h : w.isValidChar then some ⟨w,h⟩ else none
  ofWord?_eq_some {w c} := by
    constructor
    · intro h
      split at h
      · rw [← Option.some.inj h]
      · cases h
    · rintro rfl
      rw [dif_pos c.valid]

end BitsTarget

end Bitwire
