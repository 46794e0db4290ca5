import Mathlib
import Bitwire.Directive

/-! The arithmetic behind relative numbers: how far two numbers are apart, which bucket holds the
difference, and how a distance is taken back modulo 2^16. -/
namespace Bitwire

/-- Each bucket starts where the one before it ends, and the last ends at the greatest
difference. -/
def Bucket.Contiguous : Nat → List Bucket → Prop
  | low, [] => low = Relative.maxDifference + 1
  | low, b::rest =>
      b.min < b.max ∧ b.min.toInt = low ∧ Contiguous (b.max.toNatClampNeg + 1) rest

namespace Relative

/-- A full lap at most. -/
theorem behind_bounds (sequence ack : UInt16) :
    1 ≤ behind sequence ack ∧ behind sequence ack ≤ 65536 := by
  have := sequence.toNat_lt
  have := ack.toNat_lt
  unfold behind
  split
  · next h => have := UInt16.lt_iff_toNat_lt.mp h; omega
  · next h => have := UInt16.le_iff_toNat_le.mp (UInt16.not_lt.mp h); omega

theorem unwrap_toNat (first second : UInt16) :
    (unwrap first second).toNat =
      if second < first then second.toNat + 65536 else second.toNat := by
  have := second.toNat_lt
  unfold unwrap
  split
  · rw [UInt32.toNat_add,UInt16.toNat_toUInt32]
    exact Nat.mod_eq_of_lt (by simp; omega)
  · rfl

/-- Only a number itself is not above itself. -/
theorem lt_unwrap {first second : UInt16} :
    first.toUInt32 < unwrap first second ↔ first ≠ second := by
  rw [UInt32.lt_iff_toNat_lt,unwrap_toNat,UInt16.toNat_toUInt32,ne_eq,← UInt16.toNat_inj]
  have := first.toNat_lt
  split
  · next h => have := UInt16.lt_iff_toNat_lt.mp h; omega
  · next h => have := UInt16.le_iff_toNat_le.mp (UInt16.not_lt.mp h); omega

theorem buckets_contiguous : Bucket.Contiguous 2 buckets := by
  simp only [Bucket.Contiguous,buckets]
  decide

variable {previous found difference : UInt32}

theorem advance_eq_ok :
    advance previous difference = .ok found ↔ found.toNat = previous.toNat + difference.toNat := by
  unfold advance
  by_cases fits : previous.toNat + difference.toNat < UInt32.size
  · have exact : (previous + difference).toNat = previous.toNat + difference.toNat := by
      rw [UInt32.toNat_add]
      exact Nat.mod_eq_of_lt fits
    rw [if_pos fits,← exact,UInt32.toNat_inj]
    exact ⟨fun h => (Except.ok.inj h).symm,fun h => congrArg _ h.symm⟩
  · rw [if_neg fits]
    exact ⟨fun h => (by cases h),fun h => absurd (h ▸ found.toNat_lt) fits⟩

theorem acceptFull_eq_ok {value : UInt32} :
    acceptFull previous found = .ok value ↔
      previous.toNat + maxDifference < found.toNat ∧ found = value := by
  unfold acceptFull
  split
  · next far => exact ⟨fun h => ⟨far,Except.ok.inj h⟩,fun h => congrArg _ h.2⟩
  · next near => exact ⟨fun h => (by cases h),fun h => absurd h.1 near⟩

theorem sub_toNat (h : previous.toNat ≤ found.toNat) :
    (found - previous).toNat = found.toNat - previous.toNat :=
  UInt32.toNat_sub_of_le _ _ (UInt32.le_iff_toNat_le.mpr h)

/-- Modulo 2^16, where a full lap is none. -/
theorem sub_behind (sequence ack : UInt16) :
    sequence - UInt16.ofInt (behind sequence ack) = ack := by
  have := sequence.toNat_lt
  have := ack.toNat_lt
  have distance : (UInt16.ofInt (behind sequence ack)).toNat = behind sequence ack%65536 := by
    simp [UInt16.ofInt]
    omega
  apply UInt16.toNat.inj
  rw [UInt16.toNat_sub,distance,behind]
  simp only [UInt16.lt_iff_toNat_lt]
  split <;> omega

theorem sub_eq_one (h : previous < found) :
    found - previous = 1 ↔ found.toNat = previous.toNat + 1 := by
  have above := UInt32.lt_iff_toNat_lt.mp h
  rw [← UInt32.toNat_inj,sub_toNat (by omega)]
  change _ = 1 ↔ _
  omega

/-- Less than a full lap is folded back just as it was unwrapped. -/
theorem fold_eq_ok {first second : UInt16} (above : first.toUInt32 < found) :
    fold first found = .ok second ↔ unwrap first second = found := by
  have more := UInt32.lt_iff_toNat_lt.mp above
  rw [UInt16.toNat_toUInt32] at more
  have apart : (found - first.toUInt32).toNat = found.toNat - first.toNat := by
    rw [sub_toNat (by rw [UInt16.toNat_toUInt32]; omega),UInt16.toNat_toUInt32]
  have lap : (65535 : UInt32).toNat = 65535 := rfl
  have := first.toNat_lt
  have := second.toNat_lt
  rw [fold,if_neg (by rw [UInt32.not_lt,UInt32.le_iff_toNat_le,UInt16.toNat_toUInt32]; omega),
    ← UInt32.toNat_inj,unwrap_toNat]
  simp only [UInt16.lt_iff_toNat_lt]
  by_cases far : 65535 < found - first.toUInt32
  · rw [if_pos far]
    rw [UInt32.lt_iff_toNat_lt,apart,lap] at far
    refine ⟨fun h => (by cases h),fun h => ?_⟩
    split at h <;> omega
  · rw [if_neg far]
    rw [UInt32.lt_iff_toNat_lt,apart,lap] at far
    have folded : (Except.ok found.toUInt16 : Outcome UInt16) = .ok second ↔
        found.toNat%65536 = second.toNat := by
      rw [Except.ok.injEq,← UInt16.toNat_inj,UInt32.toNat_toUInt16]
    rw [folded]
    split <;> omega

end Relative
end Bitwire
