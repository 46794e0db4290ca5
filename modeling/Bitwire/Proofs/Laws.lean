import Bitwire.Proofs.Vetting

/-! Laws of reading. What is true of each call of a reader, and stays true when calls are put
together, is true of every directive, since a directive has no other access to its stream, and of
every record. -/
namespace Bitwire

variable {σ α β : Type}

/-- A law for what is done from a state on. `Own` are the failures that may be added to those of
the stream. -/
structure Law (σ : Type) where
  Holds : {α : Type} → σ → (σ → Step σ α) → Prop
  Own : Failure → Prop
  done : ∀ {α : Type} (value : α) s, Holds s (Step.done value)
  fail : ∀ {α : Type} (value : α) s {failure}, Own failure → Holds s (Step.fail value · failure)
  chain : ∀ {α β : Type} {s} {call : σ → Step σ α} (place : α → β) {next : α → σ → Step σ β},
    Holds s call → ((call s).result = .ok () → Holds (call s).state (next (call s).value)) →
    Holds s fun s => (call s).chain place next

namespace Law
variable {L : Law σ} {s : σ} {call : σ → Step σ α}

theorem andThen_of_ok (h : L.Holds s call) (kept : β) {next : α → σ → Step σ β}
    (go : (call s).result = .ok () → L.Holds (call s).state (next (call s).value)) :
    L.Holds s fun s => (call s).andThen kept next := L.chain (fun _ => kept) h go

theorem andThen (h : L.Holds s call) (kept : β) {next : α → σ → Step σ β}
    (go : ∀ value s, L.Holds s (next value)) : L.Holds s fun s => (call s).andThen kept next :=
  andThen_of_ok h kept fun _ => go _ _

theorem map (h : L.Holds s call) (f : α → β) : L.Holds s fun s => (call s).map f := by
  have same : (fun s => (call s).map f) = fun s =>
      (call s).chain f fun value => .done (f value) := by
    funext s
    unfold Step.map Step.chain Step.done
    cases result : (call s).result with
    | ok => rfl
    | error failure => rfl
  rw [same]
  exact L.chain f h fun _ => L.done _ _

theorem given {answer : Outcome α} (own : ∀ failure, answer = .error failure → L.Own failure)
    (kept : β) {next : α → σ → Step σ β}
    (go : ∀ found, answer = .ok found → L.Holds s (next found)) :
    L.Holds s fun s => Step.given answer kept s fun found => next found s := by
  cases same : answer with
  | ok found => exact go found same
  | error failure => exact L.fail kept s (own failure same)

end Law

/-- Each call of a reader obeys a law, and the law puts up with what directives add. -/
structure Stream.Obeys (S : Stream σ) (L : Law σ) : Prop where
  reading : S.mode.isReading = true
  integer : ∀ min max value s, L.Holds s (S.integer min max value)
  bits : ∀ count value s, L.Holds s (S.bits count value)
  bytes : ∀ {n} (data : Vector UInt8 n) s, L.Holds s (S.bytes data)
  align : ∀ s, L.Holds s S.align
  check : ∀ s, L.Holds s S.check
  object : ∀ {α : Type} {visit : σ → Step σ α} (value : α) s, (∀ s, L.Holds s visit) →
    L.Holds s (S.object visit value)
  judged : ∀ {failure : Failure}, failure.IsJudgement → L.Own failure
  /-- The stream handed out a number that the target does not hold. -/
  exceeded : ∀ (range : Range) value s,
    (S.integer range.min range.max value s).result = .ok () →
    L.Own (.error (range.exceeded (S.integer range.min range.max value s).value.toInt))

namespace Stream.Obeys
variable {S : Stream σ} {L : Law σ} (h : S.Obeys L)
include h

theorem judge {answer : Outcome α} (judged : answer.IsJudged) (kept : β) {next : α → σ → Step σ β}
    {s : σ} (go : ∀ found, answer = .ok found → L.Holds s (next found)) :
    L.Holds s fun s => Step.given answer kept s fun found => next found s :=
  Law.given (fun failure same => h.judged (judged failure same)) kept go

/-- The last thing a directive does. -/
theorem conclude {answer : Outcome α} (judged : answer.IsJudged) (kept : α) (s : σ) :
    L.Holds s fun s => Step.given answer kept s fun found => .done found s :=
  h.judge judged kept fun found _ => L.done found s

theorem int [IntTarget α] (min max : Int32) (kept : α) (s : σ) :
    L.Holds s (Directive.int S min max kept) := by
  rw [funext (Directive.int_reading h.reading min max kept)]
  refine h.judge (Range.ofBounds_judged min max) kept fun range proper => ?_
  obtain ⟨rfl,rfl⟩ := Range.bounds_of_ok proper
  refine Law.andThen_of_ok (h.integer _ _ 0 s) kept fun ok => ?_
  refine Law.given (fun failure same => ?_) kept fun found _ => L.done found _
  have exceeded := h.exceeded range 0 s ok
  unfold Range.accept at same
  split at same
  · split at same
    · cases same
    · exact Except.error.inj same ▸ exceeded
  · exact Except.error.inj same ▸ exceeded

theorem bitRun [BitsTarget α] (count : Nat) (kept : α) (s : σ) :
    L.Holds s (Directive.bits S count kept) := by
  rw [funext (Directive.bits_reading h.reading count kept)]
  refine h.judge (permitCount_judged count) kept fun _ _ => ?_
  exact Law.andThen (h.bits count 0 s) kept fun found s =>
    h.conclude (acceptWord_judged found) kept s

theorem bool (kept : Bool) (s : σ) : L.Holds s (Directive.bool S kept) := by
  rw [funext (Directive.bool_reading h.reading kept)]
  exact Law.andThen (h.bits 1 _ s) kept fun found s => L.done _ s

theorem u64 (kept : UInt64) (s : σ) : L.Holds s (Directive.u64 S kept) := by
  rw [funext (Directive.u64_reading h.reading kept)]
  refine Law.andThen (h.bits 32 _ s) kept fun low s => ?_
  exact Law.andThen (h.bits 32 _ s) kept fun high s => L.done _ s

theorem float (kept : UInt32) (s : σ) : L.Holds s (Directive.float S kept) := by
  rw [funext (Directive.float_reading h.reading kept)]
  exact Law.andThen (h.bits 32 kept s) kept fun found s => L.done _ s

theorem double (kept : UInt64) (s : σ) : L.Holds s (Directive.double S kept) := by
  rw [funext (Directive.double_reading h.reading kept)]
  exact Law.andThen (h.u64 kept s) kept fun found s => L.done _ s

theorem gather (last full : Nat) (buffer : Vector UInt8 Text.runLength) (gathered : Array UInt8)
    (s : σ) : L.Holds s (Directive.gather S last full buffer gathered) := by
  induction full generalizing buffer gathered s with
  | zero => exact Law.map (h.bytes _ s) (gathered ++ ·.toArray)
  | succ full ih => exact Law.andThen (h.bytes buffer s) gathered fun run s => ih run _ s

theorem text (size : Nat) (kept : String) (s : σ) : L.Holds s (Directive.text S size kept) := by
  rw [funext (Directive.text_reading h.reading size kept)]
  refine h.judge (Text.maxLength_judged size) kept fun max _ => ?_
  refine Law.andThen (h.int 0 max 0 s) kept fun length s => ?_
  refine Law.andThen (h.gather _ _ _ _ s) kept fun bytes s => ?_
  exact h.conclude (Text.decode_judged bytes) kept s

theorem address (F : AddressFormat α) (kept : α) (s : σ) :
    L.Holds s (Directive.address S F kept) := by
  rw [funext (Directive.address_reading h.reading F kept)]
  refine Law.andThen (h.text _ "" s) kept fun found s => ?_
  exact h.conclude (F.accept_judged found) kept s

theorem bucketed (previous kept difference : UInt32) (buckets : List Bucket) (s : σ) :
    L.Holds s (Directive.bucketed S previous kept difference buckets) := by
  induction buckets generalizing s with
  | nil =>
    rw [funext (Directive.bucketed_nil_reading h.reading previous kept difference)]
    refine Law.andThen (h.bits 32 kept s) kept fun found s => ?_
    exact h.conclude (Relative.acceptFull_judged previous found) kept s
  | cons b rest ih =>
    rw [funext (Directive.bucketed_cons_reading h.reading previous kept difference b rest)]
    refine Law.andThen (h.bool _ s) kept fun inside s => ?_
    cases inside with
    | false => exact ih s
    | true =>
      simp only [if_true]
      refine Law.andThen (h.int b.min b.max difference s) kept fun found s => ?_
      exact h.conclude (Relative.advance_judged previous found) kept s

theorem relative (previous kept : UInt32) (s : σ) :
    L.Holds s (Directive.relative S previous kept) := by
  rw [funext (Directive.relative_reading h.reading previous kept)]
  refine Law.andThen (h.bool false s) kept fun one s => ?_
  cases one with
  | false => exact h.bucketed previous kept 0 _ s
  | true => exact h.conclude (Relative.advance_judged previous 1) kept s

theorem ackRelative (sequence kept : UInt16) (s : σ) :
    L.Holds s (Directive.ackRelative S sequence kept) := by
  rw [funext (Directive.ackRelative_reading h.reading sequence kept)]
  refine Law.andThen (h.bool false s) kept fun near s => ?_
  cases near with
  | false => exact h.bitRun 16 kept s
  | true =>
    simp only [if_true]
    exact Law.andThen (h.int 1 _ (0 : Int32) s) kept fun delta s => L.done _ s

/-- What is folded lies above the first, so no distance is taken from a number below. -/
theorem sequenceRelative (first kept : UInt16) (s : σ) :
    L.Holds s (Directive.sequenceRelative S first kept) := by
  rw [funext (Directive.sequenceRelative_reading h.reading first kept)]
  refine Law.andThen_of_ok (h.relative first.toUInt32 0 s) kept fun ok => ?_
  have above := (Directive.relative_vetted h.reading s first.toUInt32 0).good ok
  have ahead := UInt32.not_lt.mpr (UInt32.le_of_lt above)
  exact h.conclude (Relative.fold_judged ahead) kept _

theorem leaf (scope : Scope) (kind : Leaf) (kept : kind.Value) (s : σ) :
    L.Holds s (kind.run S scope kept) := by
  cases kind with
  | int type min max => exact h.int (α := type.Carrier) _ _ kept s
  | bits type count => exact h.bitRun (α := type.Carrier) _ kept s
  | rawInt min max => exact h.integer _ _ kept s
  | rawBits count => exact h.bits _ kept s
  | bool => exact h.bool kept s
  | u32 => exact h.bits 32 kept s
  | u64 => exact h.u64 kept s
  | float => exact h.float kept s
  | double => exact h.double kept s
  | bytes length => exact h.bytes kept s
  | text size => exact h.text _ kept s
  | align => exact h.align s
  | check => exact h.check s
  | address type => exact h.address type.format kept s
  | relative previous => exact h.relative _ kept s
  | ackRelative sequence => exact h.ackRelative _ kept s
  | sequenceRelative first => exact h.sequenceRelative _ kept s

omit h

theorem guarded (tag : Tag) (scope : Scope) {routine : Routine σ α} (value : α) (s : σ)
    (holds : L.Holds s (routine value)) : L.Holds s (tag.guarded S scope routine value) := by
  by_cases admitted : tag.guard.admits S.mode scope = true
  · rw [show tag.guarded S scope routine value = routine value from funext fun _ => if_pos admitted]
    exact holds
  · rw [show tag.guarded S scope routine value = Step.done value from
      funext fun _ => if_neg admitted]
    exact L.done value s

mutual
theorem pass (h : S.Obeys L) (scope : Scope) : {field : Field} → (value : field.Value) → (s : σ) →
    L.Holds s (value.pass S scope)
  | .leaf _ kind, .leaf value, s => by
      rw [funext (Field.Value.pass_leaf S scope value)]
      exact Law.map (h.leaf scope kind value s) _
  | .object _ .static _, .object inner, s => by
      rw [funext (Field.Value.pass_static S scope inner)]
      exact Law.map (h.record .empty inner s) _
  | .object _ .dynamic _, .object inner, s => by
      rw [funext (Field.Value.pass_dynamic S scope inner)]
      exact Law.map (h.object inner s fun s => h.record .empty inner s) _
/-- A whole run obeys the law, whatever its conditions and parameters depend on. -/
theorem record (h : S.Obeys L) (finished : Scope) : {fields : List Field} →
    (record : Record fields) → (s : σ) → L.Holds s (record.run S finished)
  | [], .nil, s => by
      rw [funext (Record.run_nil S finished)]
      exact L.done _ s
  | field::_, .cons value rest, s => by
      rw [funext (Record.run_cons S finished value rest)]
      refine L.chain (Record.cons · rest) ?_ fun _ => ?_
      · exact guarded field.tag _ value s (h.pass _ value s)
      · exact Law.map (h.record _ rest _) _
end

/-- A field that is a step of its own obeys it too, also one that reads into a fresh variable. -/
theorem passAlone (h : S.Obeys L) (scope : Scope) {field : Field} (value : field.Value) (s : σ) :
    L.Holds s (value.passAlone S scope) := by
  cases value with
  | object record => exact h.pass scope (.object record) s
  | @leaf tag kind value =>
    rw [funext (Field.Value.passAlone_leaf S scope value)]
    refine Law.map ?_ _
    by_cases shortcut : tag.isShortcut = true
    · rw [if_pos shortcut,if_pos h.reading]
      exact Law.andThen (h.leaf scope kind kind.initial s) value fun found s => L.done found s
    · rw [if_neg shortcut]
      exact h.leaf scope kind value s

theorem step (h : S.Obeys L) (scope : Scope) {field : Field} (value : field.Value) (s : σ) :
    L.Holds s (value.step S scope) := guarded field.tag scope value s (h.passAlone scope value s)

end Stream.Obeys
end Bitwire
