import Mathlib
import Bitwire.Range

/-! Offsets are exact. No step of the 64-bit arithmetic wraps, the width of a range is the least
that holds its greatest offset, and offsets up to that one name the values of the range. -/
namespace Bitwire

theorem toInt_sub_toInt64 (a b : Int32) : (a.toInt64 - b.toInt64).toInt = a.toInt - b.toInt := by
  have := a.toInt_lt
  have := a.le_toInt
  have := b.toInt_lt
  have := b.le_toInt
  rw [Int64.toInt_sub,Int32.toInt_toInt64,Int32.toInt_toInt64]
  exact Int.bmod_eq_of_le (by omega) (by omega)

theorem toInt_add_toInt64 (min : Int32) (offset : UInt32) :
    (min.toInt64 + Int64.ofNat offset.toNat).toInt = min.toInt + offset.toNat := by
  have := min.toInt_lt
  have := min.le_toInt
  have := offset.toNat_lt
  rw [Int64.toInt_add,Int32.toInt_toInt64,Int64.toInt_ofNat_of_lt (by omega)]
  exact Int.bmod_eq_of_le (by omega) (by omega)

theorem span_toNat (min value : Int32) :
    (span min value).toNat = (value.toInt - min.toInt).toNat := by
  have := value.toInt_lt
  have := min.le_toInt
  rw [span,← Int64.toNat_toInt,toInt_sub_toInt64]
  exact UInt32.toNat_ofNat_of_lt' (by simp only [UInt32.size]; omega)

namespace Range

theorem ofBounds_of_lt {min max : Int32} (h : min < max) : ofBounds min max = .ok ⟨min,max,h⟩ :=
  dif_pos h

theorem ofBounds_of_not_lt {min max : Int32} (h : ¬min < max) :
    ofBounds min max = reject (.contractViolation .emptyRange) := dif_neg h

variable (r : Range)

theorem min_lt_max_toInt : r.min.toInt < r.max.toInt := Int32.lt_iff_toInt_lt.mp r.min_lt_max

@[simp] theorem contains_iff (value : Int) :
    r.contains value = true ↔ r.min.toInt ≤ value ∧ value ≤ r.max.toInt := by
  simp [contains]

theorem bits_eq : r.bits = (r.max.toInt - r.min.toInt).toNat.log2 + 1 := by
  have ordered := r.min_lt_max_toInt
  have proper : ¬r.max ≤ r.min := by rw [Int32.le_iff_toInt_le]; omega
  rw [bits,bitsRequired,if_neg proper,span_toNat]

/-- The width holds the greatest offset, and no smaller width does. -/
theorem bits_least :
    2^(r.bits - 1) ≤ (r.max.toInt - r.min.toInt).toNat ∧
      (r.max.toInt - r.min.toInt).toNat < 2^r.bits := by
  have ordered := r.min_lt_max_toInt
  rw [bits_eq]
  exact ⟨Nat.log2_self_le (by omega),Nat.lt_log2_self⟩

theorem bits_pos : 1 ≤ r.bits := by
  rw [bits_eq]
  omega

theorem bits_le : r.bits ≤ 32 := by
  have ordered := r.min_lt_max_toInt
  have := r.max.toInt_lt
  have := r.min.le_toInt
  rw [bits_eq,Nat.succ_le_iff,Nat.log2_lt (by omega)]
  omega

variable {r} {value : Int32}

theorem offset_toNat (r : Range) (value : Int32) :
    (r.offset value).toNat = (value.toInt - r.min.toInt).toNat := span_toNat _ _

theorem offset_lt (h : r.contains value.toInt) : (r.offset value).toNat < 2^r.bits := by
  have inside := (r.contains_iff _).mp h
  have widest := r.bits_least.2
  rw [offset_toNat]
  omega

theorem permit_of_contains (h : r.contains value.toInt) : r.permit value.toInt = .ok value := by
  rw [permit,if_pos h,Int32.ofInt_toInt]

theorem ofOffset_eq (r : Range) (offset : UInt32) :
    r.ofOffset offset = if r.max.toInt < r.min.toInt + offset.toNat
      then reject (r.exceeded (r.min.toInt + offset.toNat))
      else .ok (Int32.ofInt (r.min.toInt + offset.toNat)) := by
  have exact := toInt_add_toInt64 r.min offset
  have back : (r.min.toInt64 + Int64.ofNat offset.toNat).toInt32 =
      Int32.ofInt (r.min.toInt + offset.toNat) := by
    apply Int32.toInt_inj.mp
    rw [Int64.toInt_toInt32,exact,Int32.toInt_ofInt]
  rw [ofOffset,exact,back]
  simp only [Int64.lt_iff_toInt_lt,exact,Int32.toInt_toInt64]

theorem ofOffset_offset (h : r.contains value.toInt) : r.ofOffset (r.offset value) = .ok value := by
  have inside := (r.contains_iff _).mp h
  have back : r.min.toInt + ((value.toInt - r.min.toInt).toNat : Int) = value.toInt := by omega
  rw [ofOffset_eq,offset_toNat,back,if_neg (by omega),Int32.ofInt_toInt]

/-- Every offset that has a value is the offset of that value. -/
theorem ofOffset_ok {offset : UInt32} (h : r.ofOffset offset = .ok value) :
    r.contains value.toInt ∧ r.offset value = offset := by
  have := r.max.toInt_lt
  have := r.min.le_toInt
  rw [ofOffset_eq] at h
  split at h
  · cases h
  · obtain rfl := Except.ok.inj h
    have exact : (Int32.ofInt (r.min.toInt + offset.toNat)).toInt = r.min.toInt + offset.toNat :=
      Int32.toInt_ofInt_of_le (by omega) (by omega)
    refine ⟨(r.contains_iff _).mpr (by omega),?_⟩
    rw [← UInt32.toNat_inj,offset_toNat,exact]
    omega

end Range
end Bitwire
