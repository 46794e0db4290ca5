import Bitwire.Message.Run

/-! Directives on a reader, whichever it is. Nothing is sent, so each comes down to the calls that
it makes and to what it makes of the answers. -/
namespace Bitwire
variable {σ α : Type}

/-- What a directive finds wrong by itself, whatever its stream. -/
def Failure.IsJudgement : Failure → Prop
  | .error (.contractViolation _) | .error .invalidUtf8 | .error (.invalidAddress _)
  | .error (.invalidData _) => True
  | _ => False

/-- The answer is a value or a judgement. -/
def Outcome.IsJudged (answer : Outcome α) : Prop :=
  ∀ failure, answer = .error failure → failure.IsJudgement

/-- A test gives a value or the one judgement that belongs to it. -/
theorem Outcome.judged_test {p : Prop} [Decidable p] (value : α) {error : Error}
    (h : (Failure.error error).IsJudgement) :
    Outcome.IsJudged (if p then .ok value else reject error) := by
  intro failure same
  split at same
  · cases same
  · exact Except.error.inj same ▸ h

theorem Range.ofBounds_judged (min max : Int32) : (ofBounds min max).IsJudged := by
  unfold ofBounds
  split
  · exact nofun
  · exact fun _ same => Except.error.inj same ▸ trivial

theorem permitCount_judged (count : Nat) : (permitCount count).IsJudged :=
  Outcome.judged_test () trivial

theorem acceptWord_judged [BitsTarget α] (found : UInt32) :
    (acceptWord (α := α) found).IsJudged := by
  unfold acceptWord
  split
  · exact nofun
  · exact fun _ same => Except.error.inj same ▸ trivial

theorem Text.maxLength_judged (size : Nat) : (maxLength size).IsJudged :=
  Outcome.judged_test _ trivial

theorem Text.decode_judged (bytes : Array UInt8) : (decode bytes).IsJudged := by
  unfold decode
  split
  · exact nofun
  · exact fun _ same => Except.error.inj same ▸ trivial

theorem AddressFormat.accept_judged (F : AddressFormat α) (text : String) :
    (F.accept text).IsJudged := by
  unfold accept
  split
  · exact fun _ same => Except.error.inj same ▸ trivial
  · exact Outcome.judged_test _ trivial

theorem Relative.advance_judged (previous difference : UInt32) :
    (advance previous difference).IsJudged := Outcome.judged_test _ trivial

theorem Relative.acceptFull_judged (previous found : UInt32) :
    (acceptFull previous found).IsJudged := Outcome.judged_test _ trivial

/-- The distance is not taken from a number below the first. -/
theorem Relative.fold_judged {first : UInt16} {found : UInt32} (above : ¬found < first.toUInt32) :
    (fold first found).IsJudged := by
  rw [fold,if_neg above]
  split
  · exact fun _ same => Except.error.inj same ▸ trivial
  · exact nofun

namespace Directive
variable {S : Stream σ} (reading : S.mode.isReading = true)
include reading

theorem store_reading (kept : α) (s : σ) (decoded : Outcome α) :
    store S kept s decoded = Step.given decoded kept s fun found => .done found s := by
  rw [store,if_pos reading]

theorem int_reading [IntTarget α] (min max : Int32) (kept : α) (s : σ) :
    int S min max kept s =
      Step.given (Range.ofBounds min max) kept s fun range =>
      (S.integer min max 0 s).andThen kept fun found s =>
      Step.given (range.accept found.toInt) kept s fun found => .done found s := by
  simp only [int,store_reading reading,reading,if_true,Step.given_ok]

theorem bits_reading [BitsTarget α] (count : Nat) (kept : α) (s : σ) :
    bits S count kept s =
      Step.given (permitCount count) kept s fun _ =>
      (S.bits count 0 s).andThen kept fun found s =>
      Step.given (acceptWord found) kept s fun found => .done found s := by
  simp only [bits,store_reading reading,reading,if_true]

theorem bool_reading (kept : Bool) (s : σ) :
    bool S kept s =
      (S.bits 1 (if kept then 1 else 0) s).andThen kept fun found s => .done (found != 0) s := by
  simp only [bool,store_reading reading,Step.given_ok]

theorem u64_reading (kept : UInt64) (s : σ) :
    u64 S kept s =
      (S.bits 32 kept.toUInt32 s).andThen kept fun low s =>
      (S.bits 32 (kept >>> 32).toUInt32 s).andThen kept fun high s =>
      .done ((high.toUInt64 <<< 32) ||| low.toUInt64) s := by
  simp only [u64,store_reading reading,Step.given_ok]

theorem float_reading (kept : UInt32) (s : σ) :
    float S kept s = (S.bits 32 kept s).andThen kept fun found s => .done found s := by
  simp only [float,u32,store_reading reading,Step.given_ok]

theorem double_reading (kept : UInt64) (s : σ) :
    double S kept s = (u64 S kept s).andThen kept fun found s => .done found s := by
  simp only [double,store_reading reading,Step.given_ok]

theorem text_reading (size : Nat) (kept : String) (s : σ) :
    text S size kept s =
      Step.given (Text.maxLength size) kept s fun max =>
      (int S 0 max (0 : Int32) s).andThen kept fun length s =>
      (textBytes S length.toNatClampNeg s).andThen kept fun bytes s =>
      Step.given (Text.decode bytes) kept s fun found => .done found s := by
  simp only [text,reading,if_true,Step.given_ok]

theorem bucketed_nil_reading (previous kept difference : UInt32) (s : σ) :
    bucketed S previous kept difference [] s =
      (S.bits 32 kept s).andThen kept fun found s =>
      Step.given (Relative.acceptFull previous found) kept s fun found => .done found s := by
  simp only [bucketed,u32,store_reading reading]

theorem bucketed_cons_reading (previous kept difference : UInt32) (b : Bucket) (rest : List Bucket)
    (s : σ) :
    bucketed S previous kept difference (b::rest) s =
      (bool S (difference.toNat ≤ b.max.toNatClampNeg) s).andThen kept fun inside s =>
      if inside then
        (int S b.min b.max difference s).andThen kept fun found s =>
        Step.given (Relative.advance previous found) kept s fun found => .done found s
      else bucketed S previous kept difference rest s := by
  simp only [bucketed,store_reading reading]

theorem relative_reading (previous kept : UInt32) (s : σ) :
    relative S previous kept s =
      (bool S false s).andThen kept fun one s =>
      if one then Step.given (Relative.advance previous 1) kept s fun found => .done found s
      else bucketed S previous kept 0 Relative.buckets s := by
  simp only [relative,Relative.difference,store_reading reading,reading,if_true,Step.given_ok]
  rfl

theorem ackRelative_reading (sequence kept : UInt16) (s : σ) :
    ackRelative S sequence kept s =
      (bool S false s).andThen kept fun near s =>
      if near then
        (int S 1 Relative.maxAckDelta (0 : Int32) s).andThen kept fun delta s =>
        .done (sequence - UInt16.ofInt delta.toInt) s
      else bits S 16 kept s := by
  simp only [ackRelative,store_reading reading,reading,if_true,Step.given_ok,Bool.not_true,
    Bool.false_and]

theorem sequenceRelative_reading (first kept : UInt16) (s : σ) :
    sequenceRelative S first kept s =
      (relative S first.toUInt32 0 s).andThen kept fun found s =>
      Step.given (Relative.fold first found) kept s fun found => .done found s := by
  simp only [sequenceRelative,store_reading reading,reading,if_true]

theorem address_reading (F : AddressFormat α) (kept : α) (s : σ) :
    address S F kept s =
      (text S AddressFormat.bufferSize "" s).andThen kept fun found s =>
      Step.given (F.accept found) kept s fun found => .done found s := by
  simp only [address,store_reading reading,reading,if_true,Step.given_ok]

end Directive
end Bitwire
