import Bitwire.Proofs.Readers
import Bitwire.Proofs.Resending

/-! Directives do not trust their stream. A reader may hand back whatever it likes: what a directive
stores was vetted, and what it does not store leaves the variable as it was. -/
namespace Bitwire

variable {σ α β : Type}

/-- The length that a reader claims for a text in a buffer. -/
def Stream.claim (S : Stream σ) (size : Nat) (s : σ) : Step σ Int32 :=
  S.integer 0 (Int32.ofNat (size - 1)) 0 s

/-- The bytes that a reader supplies behind the length. -/
def Stream.supply (S : Stream σ) (size : Nat) (s : σ) : Array UInt8 :=
  (Directive.textBytes S (S.claim size s).value.toNatClampNeg (S.claim size s).state).value

/-- A call stores nothing but what it vetted, and nothing at all if it fails. -/
structure Step.Vetted (kept : α) (good : α → Prop) (step : Step σ α) : Prop where
  good : step.result = .ok () → good step.value
  kept : ∀ failure, step.result = .error failure → step.value = kept

namespace Step
variable {s : σ} {kept : α} {good : α → Prop}

theorem vetted_done {value : α} (yes : good value) : (done value s).Vetted kept good :=
  ⟨fun _ => yes,nofun⟩

/-- Whatever the first call left, it is not what the variable keeps. -/
theorem vetted_andThen {step : Step σ β} {next : β → σ → Step σ α}
    (go : step.result = .ok () → (next step.value step.state).Vetted kept good) :
    (step.andThen kept next).Vetted kept good := by
  unfold Step.andThen
  cases result : step.result with
  | ok => exact go result
  | error failure => exact ⟨nofun,fun _ _ => rfl⟩

theorem vetted_given {answer : Outcome β} {next : β → Step σ α}
    (go : ∀ found, answer = .ok found → (next found).Vetted kept good) :
    (Step.given answer kept s next).Vetted kept good := by
  cases same : answer with
  | ok found => exact go found same
  | error failure => exact ⟨nofun,fun _ _ => rfl⟩

theorem Vetted.mono {good' : α → Prop} {step : Step σ α} (h : step.Vetted kept good)
    (imp : ∀ value, good value → good' value) : step.Vetted kept good' :=
  ⟨fun ok => imp _ (h.good ok),h.kept⟩

end Step

theorem Range.bounds_of_ok {min max : Int32} {range : Range} (h : ofBounds min max = .ok range) :
    range.min = min ∧ range.max = max := by
  unfold ofBounds at h
  split at h
  · cases h; exact ⟨rfl,rfl⟩
  · cases h

namespace Relative

/-- A delta taken from a number is how far the result lies behind it. -/
theorem sub_near (sequence : UInt16) {delta : Int} (low : 1 ≤ delta) (high : delta ≤ 64) :
    1 ≤ (sequence - (sequence - UInt16.ofInt delta)).toNat ∧
      (sequence - (sequence - UInt16.ofInt delta)).toNat ≤ 64 := by
  obtain ⟨n,rfl⟩ : ∃ n : Nat, delta = n := ⟨delta.toNat,by omega⟩
  have number : (UInt16.ofInt n).toNat = n := by
    simp [UInt16.ofInt]
    omega
  rw [sub_sub_cancel,number]
  omega

end Relative

namespace Directive
variable {S : Stream σ} (reading : S.mode.isReading = true) (s : σ)
include reading

theorem int_vetted [IntTarget α] (min max : Int32) (kept : α) :
    (int S min max kept s).Vetted kept fun found =>
      min.toInt ≤ IntTarget.toInt found ∧ IntTarget.toInt found ≤ max.toInt ∧
        IntTarget.toInt found = (S.integer min max 0 s).value.toInt := by
  rw [int_reading reading]
  refine Step.vetted_given fun range proper => ?_
  obtain ⟨rfl,rfl⟩ := Range.bounds_of_ok proper
  refine Step.vetted_andThen fun _ => ?_
  refine Step.vetted_given fun found accepted => Step.vetted_done ?_
  obtain ⟨inside,same⟩ := Range.accept_eq_ok.mp accepted
  obtain ⟨low,high⟩ := (range.contains_iff _).mp inside
  rw [same]
  exact ⟨low,high,rfl⟩

theorem bits_vetted [BitsTarget α] (count : Nat) (kept : α) :
    (bits S count kept s).Vetted kept fun found =>
      BitsTarget.toWord found = (S.bits count 0 s).value := by
  rw [bits_reading reading]
  refine Step.vetted_given fun _ _ => ?_
  refine Step.vetted_andThen fun _ => ?_
  refine Step.vetted_given fun found accepted => Step.vetted_done ?_
  exact acceptWord_eq_ok.mp accepted

theorem bool_vetted (kept : Bool) :
    (bool S kept s).Vetted kept fun found =>
      found = ((S.bits 1 (if kept then 1 else 0) s).value != 0) := by
  rw [bool_reading reading]
  exact Step.vetted_andThen fun _ => Step.vetted_done rfl

theorem u64_vetted (kept : UInt64) : (u64 S kept s).Vetted kept fun _ => True := by
  rw [u64_reading reading]
  refine Step.vetted_andThen fun _ => ?_
  exact Step.vetted_andThen fun _ => Step.vetted_done trivial

theorem float_vetted (kept : UInt32) : (float S kept s).Vetted kept fun _ => True := by
  rw [float_reading reading]
  exact Step.vetted_andThen fun _ => Step.vetted_done trivial

theorem double_vetted (kept : UInt64) : (double S kept s).Vetted kept fun _ => True := by
  rw [double_reading reading]
  exact Step.vetted_andThen fun _ => Step.vetted_done trivial

omit reading in
/-- The runs of a text have the length that was claimed, whatever the stream puts into them. -/
theorem gather_size {last : Nat} (few : last ≤ Text.runLength) (full : Nat)
    (buffer : Vector UInt8 Text.runLength) (gathered : Array UInt8)
    (ok : (gather S last full buffer gathered s).result = .ok ()) :
    (gather S last full buffer gathered s).value.size =
      gathered.size + Text.runLength*full + last := by
  induction full generalizing s buffer gathered with
  | zero =>
    have size : min last Text.runLength = last := Nat.min_eq_left few
    simp [gather,Step.map,size]
  | succ full ih =>
    unfold gather at ok ⊢
    have first := Step.ok_of_andThen ok
    rw [Step.andThen_of_ok first] at ok ⊢
    rw [ih _ _ _ ok,Array.size_append,Vector.size_toArray,Nat.mul_succ]
    omega

omit reading in
theorem textBytes_size {length : Nat} (ok : (textBytes S length s).result = .ok ()) :
    (textBytes S length s).value.size = length := by
  rw [textBytes,gather_size s (Text.lastRun_le length) _ _ _ ok,Array.size_empty,Nat.zero_add,
    Text.fullRuns_lastRun]

theorem int_state [IntTarget α] {min max : Int32} {kept : α}
    (ok : (int S min max kept s).result = .ok ()) :
    (int S min max kept s).state = (S.integer min max 0 s).state := by
  rw [int_reading reading] at ok ⊢
  by_cases proper : min < max
  · rw [Range.ofBounds_of_lt proper,Step.given_ok] at ok ⊢
    have called := Step.ok_of_andThen ok
    rw [Step.andThen_of_ok called] at ok ⊢
    let range : Range := ⟨min,max,proper⟩
    cases accepted : range.accept (α := α) (S.integer min max 0 s).value.toInt with
    | ok found => rfl
    | error failure => rw [accepted] at ok; cases ok
  · rw [Range.ofBounds_of_not_lt proper] at ok
    cases ok

/-- The text is made of the bytes supplied, as many as were claimed, and it fits. -/
theorem text_vetted (size : Nat) (kept : String) :
    (text S size kept s).Vetted kept fun found =>
      found.toUTF8.data = S.supply size s ∧ found.utf8ByteSize = (S.claim size s).value.toInt ∧
        found.utf8ByteSize ≤ size - 1 := by
  rw [text_reading reading]
  refine Step.vetted_given fun max proper => ?_
  by_cases sized : 2 ≤ size ∧ size ≤ 2^31
  · obtain rfl := Except.ok.inj ((Text.maxLength_of_proper sized).symm.trans proper)
    have top : (Int32.ofNat (size - 1)).toInt = (size - 1 : Nat) :=
      Int32.toInt_ofNat_of_lt (by omega)
    have claimed := int_vetted reading s 0 (Int32.ofNat (size - 1)) (0 : Int32)
    refine Step.vetted_andThen fun ok => ?_
    obtain ⟨low,high,same⟩ := claimed.good ok
    obtain same := Int32.toInt_inj.mp same
    change ((int S 0 (Int32.ofNat (size - 1)) (0 : Int32) s).value : Int32) =
      (S.claim size s).value at same
    have state : (int S 0 (Int32.ofNat (size - 1)) (0 : Int32) s).state = (S.claim size s).state :=
      int_state reading s ok
    rw [state,same]
    rw [same] at low high
    refine Step.vetted_andThen fun filled => ?_
    refine Step.vetted_given fun found decoded => Step.vetted_done ?_
    have bytes := Text.decode_eq_ok.mp decoded
    have count : found.utf8ByteSize = _ :=
      (congrArg Array.size bytes).trans (textBytes_size _ filled)
    have natural : (S.claim size s).value.toNatClampNeg = (S.claim size s).value.toInt.toNat := rfl
    change (0 : Int) ≤ (S.claim size s).value.toInt at low
    change (S.claim size s).value.toInt ≤ (Int32.ofNat (size - 1)).toInt at high
    refine ⟨bytes,?_,?_⟩ <;> omega
  · rw [Text.maxLength_of_not_proper sized] at proper
    cases proper

theorem address_vetted (F : AddressFormat α) (kept : α) :
    (address S F kept s).Vetted kept fun found =>
      F.isValid found ∧ ∃ sent : String, sent.toUTF8.data = S.supply AddressFormat.bufferSize s ∧
        F.read? sent = some found := by
  rw [address_reading reading]
  have received := text_vetted reading s AddressFormat.bufferSize ""
  refine Step.vetted_andThen fun ok => ?_
  refine Step.vetted_given fun found accepted => Step.vetted_done ?_
  obtain ⟨parsed,valid⟩ := AddressFormat.accept_eq_ok.mp accepted
  exact ⟨valid,_,(received.good ok).1,parsed⟩

/-- A difference of a bucket is not zero, so what it leads to lies above. -/
theorem bucketed_vetted (previous kept difference : UInt32) {low : Nat} (some : 0 < low)
    {buckets : List Bucket} (contiguous : Bucket.Contiguous low buckets) :
    (bucketed S previous kept difference buckets s).Vetted kept fun found => previous < found := by
  induction buckets generalizing s low with
  | nil =>
    rw [bucketed_nil_reading reading]
    refine Step.vetted_andThen fun _ => ?_
    refine Step.vetted_given fun found accepted => ?_
    obtain ⟨far,rfl⟩ := Relative.acceptFull_eq_ok.mp accepted
    exact Step.vetted_done (UInt32.lt_iff_toNat_lt.mpr (by omega))
  | cons b rest ih =>
    obtain ⟨-,start,contiguous⟩ := contiguous
    rw [bucketed_cons_reading reading]
    refine Step.vetted_andThen fun _ => ?_
    split
    · have difference := int_vetted reading
        (bool S (difference.toNat ≤ b.max.toNatClampNeg) s).state b.min b.max difference
      refine Step.vetted_andThen fun ok => ?_
      obtain ⟨above,-,-⟩ := difference.good ok
      refine Step.vetted_given fun found accepted => ?_
      have sum := Relative.advance_eq_ok.mp accepted
      have place : ∀ x : UInt32, IntTarget.toInt x = x.toNat := fun _ => rfl
      rw [start,place] at above
      exact Step.vetted_done (UInt32.lt_iff_toNat_lt.mpr (by omega))
    · exact ih _ (Nat.succ_pos _) contiguous

theorem relative_vetted (previous kept : UInt32) :
    (relative S previous kept s).Vetted kept fun found => previous < found := by
  rw [relative_reading reading]
  refine Step.vetted_andThen fun _ => ?_
  split
  · refine Step.vetted_given fun found accepted => ?_
    have sum := Relative.advance_eq_ok.mp accepted
    have one : (1 : UInt32).toNat = 1 := rfl
    exact Step.vetted_done (UInt32.lt_iff_toNat_lt.mpr (by omega))
  · exact bucketed_vetted reading _ previous kept 0 (by decide) Relative.buckets_contiguous

/-- What the relative number is folded from lies above the first, so it is never equal to it. -/
theorem sequenceRelative_vetted (first kept : UInt16) :
    (sequenceRelative S first kept s).Vetted kept fun found => found ≠ first := by
  rw [sequenceRelative_reading reading]
  have number := relative_vetted reading s first.toUInt32 0
  refine Step.vetted_andThen fun ok => ?_
  have above := number.good ok
  have ahead := UInt32.not_lt.mpr (UInt32.le_of_lt above)
  refine Step.vetted_given fun found accepted => ?_
  have unwrapped := (Relative.fold_eq_ok above).mp accepted
  rw [← unwrapped] at above
  exact Step.vetted_done (Relative.lt_unwrap.mp above).symm

theorem ackRelative_vetted (sequence kept : UInt16) :
    (ackRelative S sequence kept s).Vetted kept fun found => (S.bits 1 0 s).value ≠ 0 →
      1 ≤ (sequence - found).toNat ∧ (sequence - found).toNat ≤ 64 := by
  rw [ackRelative_reading reading]
  have flag := bool_vetted reading s false
  refine Step.vetted_andThen fun ok => ?_
  have near := flag.good ok
  split
  · have delta := int_vetted reading (bool S false s).state 1 Relative.maxAckDelta (0 : Int32)
    refine Step.vetted_andThen fun ok => Step.vetted_done fun _ => ?_
    obtain ⟨low,high,-⟩ := delta.good ok
    exact Relative.sub_near sequence low high
  · next far =>
    refine (bits_vetted reading _ 16 kept).mono fun found _ set => ?_
    rw [near] at far
    simp at far
    exact absurd far set

end Directive
end Bitwire
