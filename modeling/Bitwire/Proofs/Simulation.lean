import Bitwire.Message.Run

/-! When two streams cannot be told apart. If every call of the contract ends alike on both,
so does every directive, since a directive has no other access to its stream. A second stream that
may give up early shows in nothing but the failure that it gives up with. -/
namespace Bitwire

variable {σ τ α β : Type} {R : σ → τ → Prop} {excuse : Failure → Prop}

/-- Two calls leave the same value, end the same way and keep their states related. -/
structure Step.Alike (R : σ → τ → Prop) (a : Step σ α) (b : Step τ α) : Prop where
  value : a.value = b.value
  result : a.result = b.result
  state : R a.state b.state

/-- Two calls end alike, unless the second gives up with an excuse. -/
inductive Step.Follows (R : σ → τ → Prop) (excuse : Failure → Prop) (a : Step σ α)
    (b : Step τ α) : Prop
  | alike (same : a.Alike R b)
  | gaveUp (failure : Failure) (failed : b.result = .error failure) (excused : excuse failure)

namespace Step.Follows
variable {s : σ} {t : τ} {a : Step σ α} {b : Step τ α}

theorem done (value : α) (r : R s t) : Follows R excuse (Step.done value s) (Step.done value t) :=
  .alike ⟨rfl,rfl,r⟩

theorem fail (value : α) (failure : Failure) (r : R s t) :
    Follows R excuse (Step.fail value s failure) (Step.fail value t failure) := .alike ⟨rfl,rfl,r⟩

theorem andThen (h : a.Follows R excuse b) (kept : β) {next : α → σ → Step σ β}
    {next' : α → τ → Step τ β}
    (go : ∀ value s t, R s t → (next value s).Follows R excuse (next' value t)) :
    (a.andThen kept next).Follows R excuse (b.andThen kept next') := by
  unfold Step.andThen
  cases h with
  | alike same =>
    simp only [same.result,same.value]
    cases b.result with
    | ok => exact go _ _ _ same.state
    | error failure => exact fail kept failure same.state
  | gaveUp failure failed excused =>
    simp only [failed]
    exact .gaveUp failure rfl excused

theorem chain (h : a.Follows R excuse b) (place : α → β) {next : α → σ → Step σ β}
    {next' : α → τ → Step τ β}
    (go : ∀ value s t, R s t → (next value s).Follows R excuse (next' value t)) :
    (a.chain place next).Follows R excuse (b.chain place next') := by
  unfold Step.chain
  cases h with
  | alike same =>
    simp only [same.result,same.value]
    cases b.result with
    | ok => exact go _ _ _ same.state
    | error failure => exact fail _ failure same.state
  | gaveUp failure failed excused =>
    simp only [failed]
    exact .gaveUp failure rfl excused

theorem given (answer : Outcome α) (kept : β) (r : R s t) {next : α → Step σ β}
    {next' : α → Step τ β} (go : ∀ a, (next a).Follows R excuse (next' a)) :
    (Step.given answer kept s next).Follows R excuse (Step.given answer kept t next') := by
  cases answer with
  | ok a => exact go a
  | error failure => exact fail kept failure r

theorem map (h : a.Follows R excuse b) (f : α → β) : (a.map f).Follows R excuse (b.map f) := by
  cases h with
  | alike same => exact .alike ⟨congrArg f same.value,same.result,same.state⟩
  | gaveUp failure failed excused => exact .gaveUp failure failed excused

/-- Without excuses the calls end alike. -/
theorem toAlike (h : a.Follows R (fun _ => False) b) : a.Alike R b := by
  cases h with
  | alike same => exact same
  | gaveUp _ _ excused => exact excused.elim

end Step.Follows

namespace Step.Alike
variable {s : σ} {t : τ} {a : Step σ α} {b : Step τ α}

theorem done (value : α) (r : R s t) : Alike R (Step.done value s) (Step.done value t) :=
  ⟨rfl,rfl,r⟩

theorem fail (value : α) (failure : Failure) (r : R s t) :
    Alike R (Step.fail value s failure) (Step.fail value t failure) := ⟨rfl,rfl,r⟩

theorem andThen (h : a.Alike R b) (kept : β) {next : α → σ → Step σ β} {next' : α → τ → Step τ β}
    (go : ∀ value s t, R s t → (next value s).Alike R (next' value t)) :
    (a.andThen kept next).Alike R (b.andThen kept next') :=
  ((Step.Follows.alike h).andThen kept fun value s t r => .alike (go value s t r)).toAlike

theorem given (answer : Outcome α) (kept : β) (r : R s t) {next : α → Step σ β}
    {next' : α → Step τ β} (go : ∀ a, (next a).Alike R (next' a)) :
    (Step.given answer kept s next).Alike R (Step.given answer kept t next') :=
  (Step.Follows.given answer kept r fun a => .alike (go a)).toAlike

end Step.Alike

/-- Related states stay related under every call, and no answer tells the streams apart. -/
structure Stream.Simulates (S : Stream σ) (T : Stream τ) (R : σ → τ → Prop) : Prop where
  reading : S.mode.isReading = T.mode.isReading
  position : ∀ {s t}, R s t → S.position s = T.position t
  integer : ∀ (min max value) {s t}, R s t →
    (S.integer min max value s).Alike R (T.integer min max value t)
  bits : ∀ (count value) {s t}, R s t → (S.bits count value s).Alike R (T.bits count value t)
  bytes : ∀ {n} (data : Vector UInt8 n) {s t}, R s t → (S.bytes data s).Alike R (T.bytes data t)
  align : ∀ {s t}, R s t → (S.align s).Alike R (T.align t)
  check : ∀ {s t}, R s t → (S.check s).Alike R (T.check t)
  object : ∀ {α : Type} {visit : σ → Step σ α} {visit' : τ → Step τ α} (value : α),
    (∀ s t, R s t → (visit s).Alike R (visit' t)) → ∀ {s t}, R s t →
    (S.object visit value s).Alike R (T.object visit' value t)

/-- The same, but for a reader that may give up with an excuse where the first stream goes on. -/
structure Stream.Follows (S : Stream σ) (T : Stream τ) (R : σ → τ → Prop)
    (excuse : Failure → Prop) : Prop where
  reading : S.mode.isReading = T.mode.isReading
  reader : ∀ failure, excuse failure → T.mode.isReading = true
  integer : ∀ (min max value) {s t}, R s t →
    (S.integer min max value s).Follows R excuse (T.integer min max value t)
  bits : ∀ (count value) {s t}, R s t →
    (S.bits count value s).Follows R excuse (T.bits count value t)
  bytes : ∀ {n} (data : Vector UInt8 n) {s t}, R s t →
    (S.bytes data s).Follows R excuse (T.bytes data t)
  align : ∀ {s t}, R s t → (S.align s).Follows R excuse (T.align t)
  check : ∀ {s t}, R s t → (S.check s).Follows R excuse (T.check t)
  object : ∀ {α : Type} {visit : σ → Step σ α} {visit' : τ → Step τ α} (value : α),
    (∀ s t, R s t → (visit s).Follows R excuse (visit' t)) → ∀ {s t}, R s t →
    (S.object visit value s).Follows R excuse (T.object visit' value t)

theorem Stream.Simulates.follows {S : Stream σ} {T : Stream τ} (h : S.Simulates T R) :
    S.Follows T R fun _ => False where
  reading := h.reading
  reader _ excused := excused.elim
  integer min max value _ _ r := .alike (h.integer min max value r)
  bits count value _ _ r := .alike (h.bits count value r)
  bytes data _ _ r := .alike (h.bytes data r)
  align r := .alike (h.align r)
  check r := .alike (h.check r)
  object value go _ _ r := .alike (h.object value (fun s t r => (go s t r).toAlike) r)

namespace Stream.Follows
variable {S : Stream σ} {T : Stream τ} {s : σ} {t : τ}

theorem store (h : S.Follows T R excuse) (r : R s t) (value : α) (decoded : Outcome α) :
    (Directive.store S value s decoded).Follows R excuse (Directive.store T value t decoded) := by
  unfold Directive.store
  rw [h.reading]
  split
  · exact .given _ _ r fun found => .done found r
  · exact .done value r

theorem int [IntTarget α] (h : S.Follows T R excuse) (r : R s t) (min max : Int32) (value : α) :
    (Directive.int S min max value s).Follows R excuse (Directive.int T min max value t) := by
  unfold Directive.int
  rw [h.reading]
  refine .given _ _ r fun range => .given _ _ r fun sent => ?_
  exact (h.integer min max sent r).andThen value fun _ _ _ r => h.store r value _

theorem bitRun [BitsTarget α] (h : S.Follows T R excuse) (r : R s t) (count : Nat) (value : α) :
    (Directive.bits S count value s).Follows R excuse (Directive.bits T count value t) := by
  unfold Directive.bits
  rw [h.reading]
  apply Step.Follows.given _ _ r
  intro _
  exact (h.bits count _ r).andThen value fun _ _ _ r => h.store r value _

theorem bool (h : S.Follows T R excuse) (r : R s t) (value : Bool) :
    (Directive.bool S value s).Follows R excuse (Directive.bool T value t) :=
  (h.bits 1 _ r).andThen value fun _ _ _ r => h.store r value _

theorem u32 (h : S.Follows T R excuse) (r : R s t) (value : UInt32) :
    (Directive.u32 S value s).Follows R excuse (Directive.u32 T value t) := h.bits 32 value r

theorem u64 (h : S.Follows T R excuse) (r : R s t) (value : UInt64) :
    (Directive.u64 S value s).Follows R excuse (Directive.u64 T value t) := by
  apply (h.bits 32 _ r).andThen value
  intro _ _ _ r
  exact (h.bits 32 _ r).andThen value fun _ _ _ r => h.store r value _

theorem float (h : S.Follows T R excuse) (r : R s t) (pattern : UInt32) :
    (Directive.float S pattern s).Follows R excuse (Directive.float T pattern t) :=
  (h.u32 r pattern).andThen pattern fun _ _ _ r => h.store r pattern _

theorem double (h : S.Follows T R excuse) (r : R s t) (pattern : UInt64) :
    (Directive.double S pattern s).Follows R excuse (Directive.double T pattern t) :=
  (h.u64 r pattern).andThen pattern fun _ _ _ r => h.store r pattern _

theorem gather (h : S.Follows T R excuse) (last full : Nat) (buffer : Vector UInt8 Text.runLength)
    (gathered : Array UInt8) (r : R s t) :
    (Directive.gather S last full buffer gathered s).Follows R excuse
      (Directive.gather T last full buffer gathered t) := by
  induction full generalizing buffer gathered s t with
  | zero => exact (h.bytes _ r).map _
  | succ full ih =>
    exact (h.bytes buffer r).andThen gathered fun run _ _ r => ih run (gathered ++ run.toArray) r

theorem text (h : S.Follows T R excuse) (r : R s t) (size : Nat) (value : String) :
    (Directive.text S size value s).Follows R excuse (Directive.text T size value t) := by
  unfold Directive.text
  rw [h.reading]
  refine .given _ _ r fun max => .given _ _ r fun length => ?_
  apply (h.int r 0 max length).andThen value
  intro length _ _ r
  split
  · apply (h.gather _ _ _ _ r).andThen value
    intro _ _ _ r
    exact .given _ _ r fun found => .done found r
  · next writing =>
    cases h.bytes (Text.utf8 value) r with
    | alike sent =>
      simp only [sent.value]
      split
      · exact .alike ⟨rfl,sent.result,sent.state⟩
      · exact .fail _ _ sent.state
    | gaveUp failure _ excused => exact absurd (h.reader failure excused) writing

theorem bucketed (h : S.Follows T R excuse) (previous current difference : UInt32)
    (buckets : List Bucket) (r : R s t) :
    (Directive.bucketed S previous current difference buckets s).Follows R excuse
      (Directive.bucketed T previous current difference buckets t) := by
  induction buckets generalizing s t with
  | nil => exact (h.u32 r current).andThen current fun _ _ _ r => h.store r current _
  | cons b rest ih =>
    apply (h.bool r _).andThen current
    intro inside _ _ r
    cases inside with
    | false => exact ih r
    | true =>
      simp only [if_true]
      exact (h.int r b.min b.max difference).andThen current fun _ _ _ r => h.store r current _

theorem difference (h : S.Follows T R excuse) (previous current : UInt32) :
    Relative.difference S.mode previous current = Relative.difference T.mode previous current := by
  rw [Relative.difference,Relative.difference,h.reading]

theorem relative (h : S.Follows T R excuse) (r : R s t) (previous current : UInt32) :
    (Directive.relative S previous current s).Follows R excuse
      (Directive.relative T previous current t) := by
  unfold Directive.relative
  rw [h.difference]
  refine .given _ _ r fun difference => (h.bool r _).andThen current fun one _ _ r => ?_
  cases one with
  | false => exact h.bucketed previous current difference _ r
  | true => exact h.store r current _

theorem ackRelative (h : S.Follows T R excuse) (r : R s t) (sequence ack : UInt16) :
    (Directive.ackRelative S sequence ack s).Follows R excuse
      (Directive.ackRelative T sequence ack t) := by
  unfold Directive.ackRelative
  rw [h.reading]
  apply (h.bool r _).andThen ack
  intro near _ _ r
  cases near with
  | false => exact h.bitRun r 16 ack
  | true =>
    simp only [if_true]
    exact (h.int r 1 _ _).andThen ack fun _ _ _ r => h.store r ack _

theorem sequenceRelative (h : S.Follows T R excuse) (r : R s t) (first second : UInt16) :
    (Directive.sequenceRelative S first second s).Follows R excuse
      (Directive.sequenceRelative T first second t) := by
  unfold Directive.sequenceRelative
  rw [h.reading]
  exact (h.relative r _ _).andThen second fun _ _ _ r => h.store r second _

theorem address (h : S.Follows T R excuse) (r : R s t) (F : AddressFormat α) (value : α) :
    (Directive.address S F value s).Follows R excuse (Directive.address T F value t) := by
  unfold Directive.address
  rw [h.reading]
  apply Step.Follows.given _ _ r
  intro sent
  exact (h.text r _ sent).andThen value fun _ _ _ r => h.store r value _

theorem leaf (h : S.Follows T R excuse) (r : R s t) (scope : Scope) (kind : Leaf)
    (value : kind.Value) :
    (kind.run S scope value s).Follows R excuse (kind.run T scope value t) := by
  cases kind with
  | int type min max => exact h.int (α := type.Carrier) r _ _ value
  | bits type count => exact h.bitRun (α := type.Carrier) r _ value
  | rawInt min max => exact h.integer _ _ value r
  | rawBits count => exact h.bits _ value r
  | bool => exact h.bool r value
  | u32 => exact h.u32 r value
  | u64 => exact h.u64 r value
  | float => exact h.float r value
  | double => exact h.double r value
  | bytes length => exact h.bytes value r
  | text size => exact h.text r _ value
  | align => exact h.align r
  | check => exact h.check r
  | address type => exact h.address r _ value
  | relative previous => exact h.relative r _ value
  | ackRelative sequence => exact h.ackRelative r _ value
  | sequenceRelative first => exact h.sequenceRelative r _ value

end Stream.Follows
end Bitwire
