import Bitwire.Proofs.Decoding

/-! Reading with care. Whatever the input, a call with proper parameters moves forward inside the
input and answers or rejects, so it never faults. -/
namespace Bitwire

/-- The call rejects what it read; nothing else went wrong. -/
def Failure.IsRejection : Failure → Prop
  | .error cause => cause.isDecodeFailure = true
  | .fault _ => False

namespace Cursor

/-- The place lies inside the input, whose bits can be counted twice over. -/
structure Inside (c : Cursor) : Prop where
  within : c.position ≤ c.bits.length
  counted : c.bits.length < 2^63

/-- Another place inside the same input, no earlier. -/
structure Reaches (c d : Cursor) : Prop where
  bits : d.bits = c.bits
  forward : c.position ≤ d.position
  within : d.position ≤ d.bits.length

/-- A call that moves forward and, if it fails, rejects its input. -/
structure Safe {α : Type} (c : Cursor) (step : Step Cursor α) : Prop where
  reaches : c.Reaches step.state
  rejects : ∀ failure, step.result = .error failure → failure.IsRejection

variable {α β : Type} {c d : Cursor}

theorem Inside.reaches (inside : c.Inside) : c.Reaches c := ⟨rfl,Nat.le_refl _,inside.within⟩

theorem Reaches.inside (h : c.Reaches d) (inside : c.Inside) : d.Inside :=
  ⟨h.within,h.bits ▸ inside.counted⟩

theorem Reaches.trans {e : Cursor} (h : c.Reaches d) (h' : d.Reaches e) : c.Reaches e :=
  ⟨h'.bits.trans h.bits,Nat.le_trans h.forward h'.forward,h'.within⟩

theorem Reaches.safe {step : Step Cursor α} (h : c.Reaches d) (safe : d.Safe step) : c.Safe step :=
  ⟨h.trans safe.reaches,safe.rejects⟩

theorem safe_done (h : c.Reaches d) (value : α) : c.Safe (.done value d) :=
  ⟨h,fun _ failed => by cases failed⟩

theorem safe_fail (h : c.Reaches d) (value : α) {failure : Failure} (reject : failure.IsRejection) :
    c.Safe (.fail value d failure) := ⟨h,fun _ failed => Except.error.inj failed ▸ reject⟩

theorem Safe.andThen {step : Step Cursor β} (h : c.Safe step) (kept : α)
    {go : β → Cursor → Step Cursor α}
    (next : step.result = .ok () → step.state.Safe (go step.value step.state)) :
    c.Safe (step.andThen kept go) := by
  unfold Step.andThen
  cases result : step.result with
  | ok => exact h.reaches.safe (next result)
  | error failure => exact safe_fail h.reaches _ (h.rejects _ result)

theorem Safe.map {step : Step Cursor β} (h : c.Safe step) (f : β → α) : c.Safe (step.map f) :=
  ⟨h.reaches,h.rejects⟩

theorem safe_given (h : c.Reaches d) {answer : Outcome β} (kept : α) {next : β → Step Cursor α}
    (rejects : ∀ failure, answer = .error failure → failure.IsRejection)
    (go : ∀ found, answer = .ok found → c.Safe (next found)) :
    c.Safe (Step.given answer kept d next) := by
  cases found : answer with
  | error failure => exact safe_fail h kept (rejects _ found)
  | ok value => exact go value found

theorem safe_store (inside : c.Inside) (checks : Bool) (kept : α) {decoded : Outcome α}
    (rejects : ∀ failure, decoded = .error failure → failure.IsRejection) :
    c.Safe (Directive.store (stream checks) kept c decoded) :=
  safe_given inside.reaches kept rejects fun found _ => safe_done inside.reaches found

/-- Running out of input is an answer too. -/
theorem safe_take (inside : c.Inside) {n : Nat} (few : n < 2^63) (kept : α)
    {next : List Bool × Cursor → Step Cursor α}
    (go : ∀ bits d, c.Reaches d → c.Safe (next (bits,d))) :
    c.Safe (Step.given (c.take n) kept c next) := by
  have := inside.within
  have := inside.counted
  unfold take
  rw [if_neg (by omega)]
  split
  · exact safe_fail inside.reaches kept rfl
  · next enough =>
    rw [rest,List.length_drop] at enough
    have position : (c.skip n).position = c.position + n := rfl
    have length : (c.skip n).bits.length = c.bits.length := rfl
    exact go _ _ ⟨rfl,by omega,by omega⟩

theorem skipPadding_safe (inside : c.Inside) : c.Safe c.skipPadding := by
  have few := padding_lt c.position
  apply safe_take inside (by omega) ()
  intro bits d reaches
  dsimp only
  split
  · exact safe_fail reaches () rfl
  · exact safe_done reaches ()

theorem fill_safe (inside : c.Inside) {n : Nat} (few : n < 2^60) (out : Vector UInt8 n) :
    c.Safe (c.fill out) :=
  safe_take inside (by omega) out fun _ _ reaches => safe_done reaches _

variable (checks : Bool)

theorem bits_safe (inside : c.Inside) {count : Nat} (proper : 1 ≤ count ∧ count ≤ 32)
    (kept : UInt32) : c.Safe ((stream checks).bits count kept c) := by
  simp only [stream,permitCount,if_pos proper,Step.given_ok]
  exact safe_take inside (by omega) kept fun _ _ reaches => safe_done reaches _

theorem integer_safe (inside : c.Inside) {min max : Int32} (proper : min < max) (kept : Int32) :
    c.Safe ((stream checks).integer min max kept c) := by
  have few := Nat.lt_of_le_of_lt (Range.mk min max proper).bits_le (show 32 < 2^63 by decide)
  simp only [stream,Range.ofBounds_of_lt proper,Step.given_ok]
  apply safe_take inside few kept
  intro bits d reaches
  refine safe_given reaches kept (fun failure failed => ?_) fun _ _ => safe_done reaches _
  rw [Range.ofOffset_eq] at failed
  split at failed
  · cases failed; rfl
  · cases failed

theorem bytes_safe (inside : c.Inside) {n : Nat} (few : n < 2^60) (kept : Vector UInt8 n) :
    c.Safe ((stream checks).bytes kept c) := by
  have skipped := skipPadding_safe inside
  change c.Safe (c.skipPadding.andThen kept fun _ c => c.fill kept)
  exact skipped.andThen kept fun _ => fill_safe (skipped.reaches.inside inside) few kept

theorem check_safe (inside : c.Inside) : c.Safe ((stream checks).check c) := by
  simp only [stream]
  split
  · have skipped := skipPadding_safe inside
    apply skipped.andThen ()
    intro _
    apply safe_take (skipped.reaches.inside inside) (by omega) ()
    intro bits d reaches
    dsimp only
    split
    · exact safe_done reaches ()
    · exact safe_fail reaches () rfl
  · exact safe_done inside.reaches ()

theorem finish_safe (inside : c.Inside) : c.Safe c.finish := by
  have skipped := skipPadding_safe inside
  have place := (skipped.reaches.inside inside).reaches
  apply skipped.andThen ()
  intro _
  split
  · exact safe_done place ()
  · exact safe_fail place () rfl

theorem int_safe [IntTarget α] (inside : c.Inside) {min max : Int32} (proper : min < max)
    (kept : α) : c.Safe (Directive.int (stream checks) min max kept c) := by
  have read := integer_safe checks inside proper 0
  rw [int_eq,Range.ofBounds_of_lt proper,Step.given_ok]
  apply read.andThen kept
  intro _
  apply safe_store (read.reaches.inside inside) checks kept
  intro failure failed
  unfold Range.accept at failed
  split at failed
  · split at failed <;> cases failed
    rfl
  · cases failed; rfl

theorem bitRun_safe [BitsTarget α] (inside : c.Inside) {count : Nat}
    (proper : 1 ≤ count ∧ count ≤ 32) (kept : α) :
    c.Safe (Directive.bits (stream checks) count kept c) := by
  have read := bits_safe checks inside proper 0
  rw [bitRun_eq,permitCount,if_pos proper,Step.given_ok]
  apply read.andThen kept
  intro _
  apply safe_store (read.reaches.inside inside) checks kept
  intro failure failed
  unfold acceptWord at failed
  split at failed <;> cases failed
  rfl

/-- What needs no check is stored as it is. -/
theorem keep_safe (inside : c.Inside) {step : Step Cursor β} (h : c.Safe step) (kept : α)
    (convert : β → α) :
    c.Safe (step.andThen kept fun found s =>
      Directive.store (stream checks) kept s (.ok (convert found))) := by
  apply h.andThen kept
  intro _
  exact safe_store (h.reaches.inside inside) checks kept fun _ failed => by cases failed

theorem bool_safe (inside : c.Inside) (kept : Bool) :
    c.Safe (Directive.bool (stream checks) kept c) :=
  keep_safe checks inside (bits_safe checks inside (by decide) _) kept (· != 0)

theorem u32_safe (inside : c.Inside) (kept : UInt32) :
    c.Safe (Directive.u32 (stream checks) kept c) := bits_safe checks inside (by decide) kept

theorem u64_safe (inside : c.Inside) (kept : UInt64) :
    c.Safe (Directive.u64 (stream checks) kept c) := by
  have low := u32_safe checks inside kept.toUInt32
  apply low.andThen kept
  intro _
  have place := low.reaches.inside inside
  exact keep_safe checks place (u32_safe checks place _) kept fun high : UInt32 =>
    (high.toUInt64 <<< 32) ||| (Directive.u32 (stream checks) kept.toUInt32 c).value.toUInt64

/-- A run of a text is never longer than the buffer it is read into. -/
theorem gather_safe (inside : c.Inside) (last full : Nat) (buffer : Vector UInt8 Text.runLength)
    (gathered : Array UInt8) :
    c.Safe (Directive.gather (stream checks) last full buffer gathered c) := by
  induction full generalizing c buffer gathered with
  | zero =>
    have few : min last Text.runLength < 2^60 :=
      Nat.lt_of_le_of_lt (Nat.min_le_right _ _) (by decide)
    exact (bytes_safe checks inside few _).map _
  | succ full ih =>
    have run := bytes_safe checks inside (by decide) buffer
    exact run.andThen gathered fun _ => ih (run.reaches.inside inside) _ _

theorem textBytes_safe (inside : c.Inside) (length : Nat) :
    c.Safe (Directive.textBytes (stream checks) length c) :=
  gather_safe checks inside _ _ _ _

theorem text_safe (inside : c.Inside) {size : Nat} (proper : 2 ≤ size ∧ size ≤ 2^31)
    (kept : String) : c.Safe (Directive.text (stream checks) size kept c) := by
  have positive : (0 : Int32) < Int32.ofNat (size - 1) := by
    have max : (Int32.ofNat (size - 1)).toInt = (size - 1 : Nat) :=
      Int32.toInt_ofNat_of_lt (by omega)
    rw [Int32.lt_iff_toInt_lt,max,Int32.toInt_zero]
    omega
  rw [text_eq,Text.maxLength_of_proper proper,Step.given_ok]
  have length := int_safe checks inside positive (0 : Int32)
  apply length.andThen kept
  intro _
  have place := length.reaches.inside inside
  have bytes := textBytes_safe checks place
  apply (bytes _).andThen kept
  intro _
  apply safe_store ((bytes _).reaches.inside place) checks kept
  intro failure failed
  unfold Text.decode at failed
  split at failed <;> cases failed
  rfl

theorem advance_rejects {previous difference : UInt32} {failure : Failure}
    (failed : Relative.advance previous difference = .error failure) : failure.IsRejection := by
  unfold Relative.advance at failed
  split at failed <;> cases failed
  rfl

theorem bucketed_safe (inside : c.Inside) (previous kept difference : UInt32) {low : Nat}
    {buckets : List Bucket} (contiguous : Bucket.Contiguous low buckets) :
    c.Safe (Directive.bucketed (stream checks) previous kept difference buckets c) := by
  induction buckets generalizing c low with
  | nil =>
    have read := u32_safe checks inside kept
    apply read.andThen kept
    intro _
    apply safe_store (read.reaches.inside inside) checks kept
    intro failure failed
    unfold Relative.acceptFull at failed
    split at failed <;> cases failed
    rfl
  | cons b rest ih =>
    obtain ⟨proper,-,contiguous⟩ := contiguous
    have flag := bool_safe checks inside (decide (difference.toNat ≤ b.max.toNatClampNeg))
    apply flag.andThen kept
    intro _
    have place := flag.reaches.inside inside
    split
    · have read := int_safe checks place proper difference
      apply read.andThen kept
      intro _
      exact safe_store (read.reaches.inside place) checks kept fun _ => advance_rejects
    · exact ih place contiguous

theorem relative_safe (inside : c.Inside) (previous kept : UInt32) :
    c.Safe (Directive.relative (stream checks) previous kept c) := by
  have flag := bool_safe checks inside false
  rw [relative_eq]
  apply flag.andThen kept
  intro _
  have place := flag.reaches.inside inside
  split
  · exact safe_store place checks kept fun _ => advance_rejects
  · exact bucketed_safe checks place previous kept 0 Relative.buckets_contiguous

/-- The distance is taken only from a number above the first, which the relative codec sees to. -/
theorem sequenceRelative_safe (inside : c.Inside) (first kept : UInt16) :
    c.Safe (Directive.sequenceRelative (stream checks) first kept c) := by
  have read := relative_safe checks inside first.toUInt32 0
  rw [sequenceRelative_eq]
  apply read.andThen kept
  intro success
  have counted : c.position < 2^64 := by
    have := inside.within
    have := inside.counted
    omega
  have above := ((relative_reads checks first.toUInt32 0).only counted success).1
  apply safe_store (read.reaches.inside inside) checks kept
  intro failure failed
  rw [Relative.fold,if_neg (UInt32.not_lt.mpr (UInt32.le_of_lt above))] at failed
  split at failed <;> cases failed
  rfl

theorem ackRelative_safe (inside : c.Inside) (sequence kept : UInt16) :
    c.Safe (Directive.ackRelative (stream checks) sequence kept c) := by
  have flag := bool_safe checks inside false
  rw [ackRelative_eq]
  apply flag.andThen kept
  intro _
  have place := flag.reaches.inside inside
  split
  · exact keep_safe checks place (int_safe checks place (by decide) (0 : Int32)) kept _
  · exact bitRun_safe checks place (by decide) kept

theorem address_safe (inside : c.Inside) (F : AddressFormat α) (kept : α) :
    c.Safe (Directive.address (stream checks) F kept c) := by
  have read := text_safe checks inside (show 2 ≤ AddressFormat.bufferSize ∧ _ by decide) ""
  rw [address_eq]
  apply read.andThen kept
  intro _
  apply safe_store (read.reaches.inside inside) checks kept
  intro failure failed
  unfold AddressFormat.accept at failed
  split at failed
  · cases failed; rfl
  · split at failed <;> cases failed
    rfl

end Cursor
end Bitwire
