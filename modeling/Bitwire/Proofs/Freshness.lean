import Bitwire.Proofs.Receiving
import Bitwire.Proofs.Updates
import Bitwire.Proofs.Vetting

/-! Stale contents never leak into a decode. What a variable held before shows in nothing that is
read into it or behind it; it stays there if nothing is stored. -/
namespace Bitwire

variable {σ τ α β : Type}

/-- Two calls do the same but for what stays in the variable if they fail. -/
structure Step.Fresh (a b : Step σ α) : Prop where
  state : a.state = b.state
  result : a.result = b.result
  value : a.result = .ok () → a.value = b.value

namespace Step.Fresh
variable {a b : Step σ α} {s : σ}

theorem refl (a : Step σ α) : a.Fresh a := ⟨rfl,rfl,fun _ => rfl⟩

theorem fail (kept other : α) (s : σ) (failure : Failure) :
    (Step.fail kept s failure).Fresh (Step.fail other s failure) := ⟨rfl,rfl,nofun⟩

theorem andThen (h : a.Fresh b) (kept other : β) {next next' : α → σ → Step σ β}
    (go : ∀ value s, (next value s).Fresh (next' value s)) :
    (a.andThen kept next).Fresh (b.andThen other next') := by
  unfold Step.andThen
  rw [← h.result,← h.state]
  cases ended : a.result with
  | ok => rw [← h.value ended]; exact go _ _
  | error failure => exact fail kept other _ failure

theorem given (answer : Outcome α) (kept other : β) {next next' : α → Step σ β}
    (go : ∀ found, (next found).Fresh (next' found)) :
    (Step.given answer kept s next).Fresh (Step.given answer other s next') := by
  cases answer with
  | ok found => exact go found
  | error failure => exact fail kept other s failure

/-- The last thing a directive does. -/
theorem conclude (answer : Outcome α) (kept other : α) (s : σ) :
    (Step.given answer kept s fun found => .done found s).Fresh
      (Step.given answer other s fun found => .done found s) :=
  given answer kept other fun _ => refl _

end Step.Fresh

/-- A reader that overwrites its variables without looking at them. -/
structure Stream.Overwrites (S : Stream σ) : Prop where
  reading : S.mode.isReading = true
  integer : ∀ min max kept other s, (S.integer min max kept s).Fresh (S.integer min max other s)
  bits : ∀ count kept other s, (S.bits count kept s).Fresh (S.bits count other s)
  bytes : ∀ {n} (kept other : Vector UInt8 n) s, (S.bytes kept s).Fresh (S.bytes other s)

namespace Stream.Overwrites
variable {S : Stream σ} (h : S.Overwrites)
include h

theorem int [IntTarget α] (min max : Int32) (kept other : α) (s : σ) :
    (Directive.int S min max kept s).Fresh (Directive.int S min max other s) := by
  rw [Directive.int_reading h.reading,Directive.int_reading h.reading]
  refine .given _ _ _ fun range => .andThen (.refl _) _ _ fun found s => ?_
  exact .conclude _ kept other s

theorem bitRun [BitsTarget α] (count : Nat) (kept other : α) (s : σ) :
    (Directive.bits S count kept s).Fresh (Directive.bits S count other s) := by
  rw [Directive.bits_reading h.reading,Directive.bits_reading h.reading]
  refine .given _ _ _ fun _ => .andThen (.refl _) _ _ fun found s => ?_
  exact .conclude _ kept other s

theorem bool (kept other : Bool) (s : σ) :
    (Directive.bool S kept s).Fresh (Directive.bool S other s) := by
  rw [Directive.bool_reading h.reading,Directive.bool_reading h.reading]
  exact (h.bits 1 _ _ s).andThen kept other fun _ _ => .refl _

theorem u64 (kept other : UInt64) (s : σ) :
    (Directive.u64 S kept s).Fresh (Directive.u64 S other s) := by
  rw [Directive.u64_reading h.reading,Directive.u64_reading h.reading]
  refine (h.bits 32 _ _ s).andThen kept other fun low s => ?_
  exact (h.bits 32 _ _ s).andThen kept other fun _ _ => .refl _

theorem float (kept other : UInt32) (s : σ) :
    (Directive.float S kept s).Fresh (Directive.float S other s) := by
  rw [Directive.float_reading h.reading,Directive.float_reading h.reading]
  exact (h.bits 32 kept other s).andThen kept other fun _ _ => .refl _

theorem double (kept other : UInt64) (s : σ) :
    (Directive.double S kept s).Fresh (Directive.double S other s) := by
  rw [Directive.double_reading h.reading,Directive.double_reading h.reading]
  exact (h.u64 kept other s).andThen kept other fun _ _ => .refl _

/-- The runs of a text are gathered in buffers of their own. -/
theorem text (size : Nat) (kept other : String) (s : σ) :
    (Directive.text S size kept s).Fresh (Directive.text S size other s) := by
  rw [Directive.text_reading h.reading,Directive.text_reading h.reading]
  refine .given _ _ _ fun max => .andThen (.refl _) _ _ fun length s => ?_
  exact .andThen (.refl _) _ _ fun bytes s => .conclude _ kept other s

theorem address (F : AddressFormat α) (kept other : α) (s : σ) :
    (Directive.address S F kept s).Fresh (Directive.address S F other s) := by
  rw [Directive.address_reading h.reading,Directive.address_reading h.reading]
  exact .andThen (.refl _) _ _ fun found s => .conclude _ kept other s

theorem bucketed (previous kept other difference : UInt32) (buckets : List Bucket) (s : σ) :
    (Directive.bucketed S previous kept difference buckets s).Fresh
      (Directive.bucketed S previous other difference buckets s) := by
  induction buckets generalizing s with
  | nil =>
    rw [Directive.bucketed_nil_reading h.reading,Directive.bucketed_nil_reading h.reading]
    exact (h.bits 32 kept other s).andThen kept other fun found s => .conclude _ kept other s
  | cons b rest ih =>
    rw [Directive.bucketed_cons_reading h.reading,Directive.bucketed_cons_reading h.reading]
    refine .andThen (.refl _) _ _ fun inside s => ?_
    split
    · exact .andThen (.refl _) _ _ fun found s => .conclude _ kept other s
    · exact ih s

theorem relative (previous kept other : UInt32) (s : σ) :
    (Directive.relative S previous kept s).Fresh (Directive.relative S previous other s) := by
  rw [Directive.relative_reading h.reading,Directive.relative_reading h.reading]
  refine .andThen (.refl _) _ _ fun one s => ?_
  split
  · exact .conclude _ kept other s
  · exact h.bucketed previous kept other 0 _ s

theorem ackRelative (sequence kept other : UInt16) (s : σ) :
    (Directive.ackRelative S sequence kept s).Fresh (Directive.ackRelative S sequence other s) := by
  rw [Directive.ackRelative_reading h.reading,Directive.ackRelative_reading h.reading]
  refine .andThen (.refl _) _ _ fun near s => ?_
  split
  · exact .andThen (.refl _) _ _ fun _ _ => .refl _
  · exact h.bitRun 16 kept other s

theorem sequenceRelative (first kept other : UInt16) (s : σ) :
    (Directive.sequenceRelative S first kept s).Fresh
      (Directive.sequenceRelative S first other s) := by
  rw [Directive.sequenceRelative_reading h.reading,Directive.sequenceRelative_reading h.reading]
  exact .andThen (.refl _) _ _ fun found s => .conclude _ kept other s

theorem leaf (scope : Scope) (kind : Leaf) (kept other : kind.Value) (s : σ) :
    (kind.run S scope kept s).Fresh (kind.run S scope other s) := by
  cases kind with
  | int type min max => exact h.int (α := type.Carrier) _ _ kept other s
  | bits type count => exact h.bitRun (α := type.Carrier) _ kept other s
  | rawInt min max => exact h.integer _ _ kept other s
  | rawBits count => exact h.bits _ kept other s
  | bool => exact h.bool kept other s
  | u32 => exact h.bits 32 kept other s
  | u64 => exact h.u64 kept other s
  | float => exact h.float kept other s
  | double => exact h.double kept other s
  | bytes length => exact h.bytes kept other s
  | text size => exact h.text _ kept other s
  | align => exact .refl _
  | check => exact .refl _
  | address type => exact h.address type.format kept other s
  | relative previous => exact h.relative _ kept other s
  | ackRelative sequence => exact h.ackRelative _ kept other s
  | sequenceRelative first => exact h.sequenceRelative _ kept other s

end Stream.Overwrites

namespace Cursor

theorem stream_overwrites (checks : Bool) : (stream checks).Overwrites where
  reading := rfl
  integer _ _ kept other _ :=
    .given _ _ _ fun _ => .given _ _ _ fun (_,c) => .conclude _ kept other c
  bits _ _ _ _ := .given _ _ _ fun _ => .given _ _ _ fun _ => .refl _
  bytes _ _ _ := .andThen (.refl _) _ _ fun _ _ => .given _ _ _ fun _ => .refl _

/-- A leaf that fails leaves its variable alone. -/
theorem leaf_kept (checks : Bool) (scope : Scope) (kind : Leaf) (kept : kind.Value) (c : Cursor) :
    (kind.run (stream checks) scope kept c).Vetted kept fun _ => True := by
  have bits : ∀ count (kept : UInt32),
      ((stream checks).bits count kept c).Vetted kept fun _ => True := fun count kept =>
    Step.vetted_given fun _ _ => Step.vetted_given fun _ _ => Step.vetted_done trivial
  cases kind with
  | int type min max =>
    exact (Directive.int_vetted (α := type.Carrier) rfl c _ _ kept).mono fun _ _ => trivial
  | bits type count =>
    exact (Directive.bits_vetted (α := type.Carrier) rfl c _ kept).mono fun _ _ => trivial
  | rawInt min max =>
    exact Step.vetted_given fun _ _ => Step.vetted_given fun _ _ => Step.vetted_given fun _ _ =>
      Step.vetted_done trivial
  | rawBits count => exact bits _ kept
  | bool => exact (Directive.bool_vetted rfl c kept).mono fun _ _ => trivial
  | u32 => exact bits 32 kept
  | u64 => exact Directive.u64_vetted rfl c kept
  | float => exact Directive.float_vetted rfl c kept
  | double => exact Directive.double_vetted rfl c kept
  | bytes length =>
    change (c.skipPadding.andThen kept fun _ c => c.fill kept).Vetted kept _
    exact Step.vetted_andThen fun _ => Step.vetted_given fun _ _ => Step.vetted_done trivial
  | text size => exact (Directive.text_vetted rfl c _ kept).mono fun _ _ => trivial
  | align => exact ⟨fun _ => trivial,fun _ _ => rfl⟩
  | check => exact ⟨fun _ => trivial,fun _ _ => rfl⟩
  | address type => exact (Directive.address_vetted rfl c type.format kept).mono fun _ _ => trivial
  | relative previous => exact (Directive.relative_vetted rfl c _ kept).mono fun _ _ => trivial
  | ackRelative sequence =>
    exact (Directive.ackRelative_vetted rfl c _ kept).mono fun _ _ => trivial
  | sequenceRelative first =>
    exact (Directive.sequenceRelative_vetted rfl c _ kept).mono fun _ _ => trivial

end Cursor

/-- A leaf and what it holds. -/
structure Slot where
  kind : Leaf
  value : kind.Value

mutual
/-- The leaves inside a field. -/
def Field.Value.leaves : {field : Field} → field.Value → List Slot
  | .leaf _ kind, .leaf value => [⟨kind,value⟩]
  | .object .., .object record => record.leaves
/-- All leaves of a record in their order, those of nested objects among them. -/
def Record.leaves : {fields : List Field} → Record fields → List Slot
  | [], .nil => []
  | _::_, .cons value rest => value.leaves ++ rest.leaves
end

/-- The value that a leaf's call ended well with. -/
def Leaf.found (S : Stream σ) (scope : Scope) (kind : Leaf) (value : kind.Value) (s : σ) :
    Option Slot :=
  match (kind.run S scope value s).result with
  | .ok () => some ⟨kind,(kind.run S scope value s).value⟩
  | .error _ => none

mutual
/-- What a field that takes part finds for its leaves. -/
def Field.Value.found (S : Stream σ) (scope : Scope) :
    {field : Field} → field.Value → σ → List (Option Slot)
  | .leaf _ kind, .leaf value, s => [kind.found S scope value s]
  | .object .., .object record, s => record.found S .empty s
/-- What a run finds for each leaf, which is nothing where the leaf was skipped, failed, or was not
reached any more. -/
def Record.found (S : Stream σ) (finished : Scope) :
    {fields : List Field} → Record fields → σ → List (Option Slot)
  | [], .nil, _ => []
  | field::_, .cons value rest, s =>
      let scope := finished.orElse (Record.cons value rest).scope
      let step := value.run S scope s
      (if field.tag.guard.admits S.mode scope then value.found S scope s
        else List.replicate value.leaves.length none) ++
        match step.result with
        | .ok () => rest.found S (finished.orElse step.value.scope) step.state
        | .error _ => List.replicate rest.leaves.length none
end

/-- Puts what was found in its place and keeps the rest. -/
def overlay (own : List Slot) (found : List (Option Slot)) : List Slot :=
  List.zipWith (fun own found => found.getD own) own found

theorem overlay_none (own : List Slot) : overlay own (List.replicate own.length none) = own := by
  induction own with
  | nil => rfl
  | cons slot own ih => exact congrArg (slot::·) ih

theorem overlay_append {own own' : List Slot} {found found' : List (Option Slot)}
    (same : found.length = own.length) :
    overlay (own ++ own') (found ++ found') = overlay own found ++ overlay own' found' :=
  List.zipWith_append same.symm

mutual
theorem Field.Value.leaves_length : {field : Field} → (value other : field.Value) →
    value.leaves.length = other.leaves.length
  | .leaf .., .leaf _, .leaf _ => rfl
  | .object .., .object record, .object other => record.leaves_length other
/-- Objects of one shape have the same leaves. -/
theorem Record.leaves_length : {fields : List Field} → (record other : Record fields) →
    record.leaves.length = other.leaves.length
  | [], .nil, .nil => rfl
  | _::_, .cons value rest, .cons other others => by
      simp only [Record.leaves,List.length_append,value.leaves_length other,
        rest.leaves_length others]
end

mutual
theorem Field.Value.found_length (S : Stream σ) (scope : Scope) : {field : Field} →
    (value : field.Value) → (s : σ) → (value.found S scope s).length = value.leaves.length
  | .leaf .., .leaf _, _ => rfl
  | .object .., .object record, s => record.found_length S .empty s
theorem Record.found_length (S : Stream σ) (finished : Scope) : {fields : List Field} →
    (record : Record fields) → (s : σ) →
    (record.found S finished s).length = record.leaves.length
  | [], .nil, _ => rfl
  | _::_, .cons value rest, s => by
      rw [Record.found,Record.leaves,List.length_append,List.length_append]
      refine congrArg₂ _ ?_ ?_
      · split
        · exact value.found_length S _ s
        · exact List.length_replicate
      · split
        · exact rest.found_length S _ _
        · exact List.length_replicate
end

theorem Field.Value.front_length (S : Stream σ) (scope : Scope) {field : Field}
    (value : field.Value) (s : σ) :
    (if field.tag.guard.admits S.mode scope then value.found S scope s
      else List.replicate value.leaves.length none).length = value.leaves.length := by
  split
  · exact value.found_length S scope s
  · exact List.length_replicate

theorem Field.Value.run_leaves {checks : Bool} {scope : Scope} {c : Cursor} {field : Field}
    {value : field.Value} (pass : (value.pass (Cursor.stream checks) scope c).value.leaves =
      overlay value.leaves (value.found (Cursor.stream checks) scope c)) :
    (value.run (Cursor.stream checks) scope c).value.leaves = overlay value.leaves
      (if field.tag.guard.admits (Cursor.stream checks).mode scope
        then value.found (Cursor.stream checks) scope c
        else List.replicate value.leaves.length none) := by
  unfold Field.Value.run Tag.guarded
  split
  · exact pass
  · exact (overlay_none _).symm

mutual
theorem Field.Value.pass_leaves (checks : Bool) (scope : Scope) (c : Cursor) : {field : Field} →
    (value : field.Value) → (value.pass (Cursor.stream checks) scope c).value.leaves =
      overlay value.leaves (value.found (Cursor.stream checks) scope c)
  | .leaf _ kind, .leaf value => by
      have kept := (Cursor.leaf_kept checks scope kind value c).kept
      change [Slot.mk kind (kind.run (Cursor.stream checks) scope value c).value] =
        overlay [⟨kind,value⟩] [kind.found (Cursor.stream checks) scope value c]
      unfold Leaf.found
      split
      · rfl
      · next failure failed => rw [kept failure failed]; rfl
  | .object _ .static _, .object record => record.run_leaves checks .empty c
  | .object _ .dynamic _, .object record => record.run_leaves checks .empty c
/-- A run leaves what it found in the leaves that it found something for, and nothing else
changes. -/
theorem Record.run_leaves (checks : Bool) (finished : Scope) (c : Cursor) : {fields : List Field} →
    (record : Record fields) → (record.run (Cursor.stream checks) finished c).value.leaves =
      overlay record.leaves (record.found (Cursor.stream checks) finished c)
  | [], .nil => rfl
  | field::_, .cons value rest => by
      rw [Record.run_cons,Record.found,Record.leaves,
        overlay_append (value.front_length (Cursor.stream checks) _ c),
        ← Field.Value.run_leaves (value.pass_leaves checks _ c)]
      generalize value.run (Cursor.stream checks) _ c = step
      unfold Step.chain
      cases step.result with
      | ok => exact congrArg (step.value.leaves ++ ·) (rest.run_leaves checks _ _)
      | error failure => exact congrArg (step.value.leaves ++ ·) (overlay_none _).symm
end

/-- Behind finished fields in two objects, parameters depend only on fields sent since. -/
def Concordant (finished finished' : Scope) (fields : List Field) : Prop :=
  ∀ record other : Record fields, record.Coherent finished finished' other

/-- What a field depends on agrees in two scopes. A nested object depends on neither. -/
def Field.Settles (scope scope' : Scope) : Field → Prop
  | .leaf _ kind => kind.params scope = kind.params scope'
  | .object _ _ fields => Causal fields

namespace Concordant
variable {finished finished' : Scope} {field : Field} {fields : List Field}
  (h : Concordant finished finished' (field::fields))
include h

theorem choice (value other : field.Value) (rest others : Record fields) :
    field.isSent (finished.orElse (Record.cons value rest).scope) =
      field.isSent (finished'.orElse (Record.cons other others).scope) :=
  (Record.coherent_cons (h _ _)).1

theorem settles {value other : field.Value} {rest others : Record fields}
    (sent : field.isSent (finished.orElse (Record.cons value rest).scope)) :
    field.Settles (finished.orElse (Record.cons value rest).scope)
      (finished'.orElse (Record.cons other others).scope) := by
  cases field with
  | leaf tag kind =>
    obtain ⟨value⟩ := value
    obtain ⟨other⟩ := other
    have coherent := h (.cons (.leaf value) rest) (.cons (.leaf other) others)
    exact (Record.coherent_cons coherent).2.1 sent
  | object tag dispatch inside =>
    intro record inner
    have choice := (h.choice (.object record) other rest others).trans
      (h.choice value other rest others).symm
    exact (Record.coherent_cons (h (.cons (.object record) rest) (.cons (.object inner) rest))).2.1
      (choice.trans sent)

/-- The head is read. What it was before takes no part in the rest. -/
theorem tail {value received received' : field.Value} {rest : Record fields}
    (same : field.isSent (finished.orElse (Record.cons value rest).scope) →
      received.Same received') :
    Concordant (finished.orElse received.scope) (finished'.orElse received'.scope) fields := by
  intro record other
  refine (Record.coherent_cons (h (.cons received record) (.cons received' other))).2.2
    fun sent => same ?_
  have choice := h.choice received received' record other
  exact (h.choice value received' rest other).trans (choice.symm.trans sent)

end Concordant

/-- Two calls end alike, with values that are the same if they end well. -/
structure Step.Twin (same : α → α → Prop) (a b : Step σ α) : Prop where
  state : a.state = b.state
  result : a.result = b.result
  value : a.result = .ok () → same a.value b.value

theorem Step.Twin.map {same : α → α → Prop} {same' : β → β → Prop} {a b : Step σ α}
    (h : a.Twin same b) {f : α → β} (imp : ∀ x y, same x y → same' (f x) (f y)) :
    (a.map f).Twin same' (b.map f) := ⟨h.state,h.result,fun ok => imp _ _ (h.value ok)⟩

theorem Leaf.run_twin (checks : Bool) {scope scope' : Scope} (kind : Leaf)
    (same : kind.params scope = kind.params scope') (value other : kind.Value) (c : Cursor) :
    (kind.run (Cursor.stream checks) scope value c).Fresh
        (kind.run (Cursor.stream checks) scope' other c) ∧
      kind.found (Cursor.stream checks) scope value c =
        kind.found (Cursor.stream checks) scope' other c := by
  have fresh := (Cursor.stream_overwrites checks).leaf scope kind value other c
  rw [Leaf.run_congr _ same] at fresh
  refine ⟨by rw [Leaf.run_congr _ same]; exact fresh,?_⟩
  unfold Leaf.found
  rw [Leaf.run_congr _ same,← fresh.result]
  cases ended : (kind.run (Cursor.stream checks) scope' value c).result with
  | ok => rw [fresh.value ended]
  | error failure => rfl

theorem Field.Value.run_twin (checks : Bool) {scope scope' : Scope} {c : Cursor} {field : Field}
    (free : field.IsModeFree) {value other : field.Value}
    (choice : field.isSent scope = field.isSent scope')
    (pass : field.isSent scope →
      (value.pass (Cursor.stream checks) scope c).Twin Field.Value.Same
          (other.pass (Cursor.stream checks) scope' c) ∧
        value.found (Cursor.stream checks) scope c = other.found (Cursor.stream checks) scope' c) :
    (value.run (Cursor.stream checks) scope c).Twin
        (fun received received' => field.isSent scope → received.Same received')
        (other.run (Cursor.stream checks) scope' c) ∧
      (if field.tag.guard.admits (Cursor.stream checks).mode scope
        then value.found (Cursor.stream checks) scope c
        else List.replicate value.leaves.length none) =
      if field.tag.guard.admits (Cursor.stream checks).mode scope'
        then other.found (Cursor.stream checks) scope' c
        else List.replicate other.leaves.length none := by
  unfold Field.Value.run Tag.guarded
  rw [free,free,← choice]
  by_cases sent : field.isSent scope = true
  · obtain ⟨twin,found⟩ := pass sent
    simp only [if_pos sent]
    exact ⟨⟨twin.state,twin.result,fun ok _ => twin.value ok⟩,found⟩
  · simp only [if_neg sent]
    exact ⟨⟨rfl,rfl,fun _ yes => absurd yes sent⟩,by rw [value.leaves_length other]⟩

mutual
theorem Field.Value.pass_twin (checks : Bool) {scope scope' : Scope} (c : Cursor) :
    {field : Field} → field.Throughout Field.IsModeFree → field.Settles scope scope' →
    (value other : field.Value) →
    (value.pass (Cursor.stream checks) scope c).Twin Field.Value.Same
        (other.pass (Cursor.stream checks) scope' c) ∧
      value.found (Cursor.stream checks) scope c = other.found (Cursor.stream checks) scope' c
  | .leaf _ kind, _, settles, .leaf value, .leaf other => by
      obtain ⟨fresh,found⟩ := kind.run_twin checks settles value other c
      exact ⟨⟨fresh.state,fresh.result,fun ok => fresh.value ok⟩,congrArg ([·]) found⟩
  | .object _ .static _, free, causal, .object record, .object other => by
      obtain ⟨twin,found⟩ := Record.run_twin checks c free.2 causal record other
      exact ⟨twin.map fun _ _ same => same,found⟩
  | .object _ .dynamic _, free, causal, .object record, .object other => by
      obtain ⟨twin,found⟩ := Record.run_twin checks c free.2 causal record other
      exact ⟨twin.map fun _ _ same => same,found⟩
/-- Whatever two objects hold, the same is found for them. -/
theorem Record.run_twin (checks : Bool) {finished finished' : Scope} (c : Cursor) :
    {fields : List Field} → Throughout Field.IsModeFree fields →
    Concordant finished finished' fields → (record other : Record fields) →
    (record.run (Cursor.stream checks) finished c).Twin (Record.Same finished)
        (other.run (Cursor.stream checks) finished' c) ∧
      record.found (Cursor.stream checks) finished c =
        other.found (Cursor.stream checks) finished' c
  | [], _, _, .nil, .nil => ⟨⟨rfl,rfl,fun _ => trivial⟩,rfl⟩
  | field::_, free, concordant, .cons value rest, .cons other others => by
      obtain ⟨head,front⟩ := Field.Value.run_twin checks free.1.here
        (concordant.choice value other rest others)
        fun sent => Field.Value.pass_twin checks c free.1 (concordant.settles sent) value other
      have later := fun ok d =>
        Record.run_twin checks d free.2 (concordant.tail (head.value ok)) rest others
      have sent := concordant.choice value other rest others
      rw [Record.run_cons,Record.run_cons,Record.found,Record.found,front]
      generalize value.run (Cursor.stream checks) _ c = step at *
      generalize other.run (Cursor.stream checks) _ c = step' at *
      obtain ⟨value',state,result⟩ := step
      obtain ⟨other',state',result'⟩ := step'
      obtain ⟨rfl,rfl,same⟩ := head
      cases result with
      | error failure => exact ⟨⟨rfl,rfl,nofun⟩,by rw [rest.leaves_length others]⟩
      | ok =>
        obtain ⟨twin,found⟩ := later rfl state
        refine ⟨⟨twin.state,twin.result,fun ok => ⟨fun yes => same rfl ?_,twin.value ok⟩⟩,
          congrArg _ found⟩
        exact sent.trans ((concordant.choice value' other _ others).symm.trans yes)
end

namespace Stream.Simulates
variable {S : Stream σ} {T : Stream τ} {R : σ → τ → Prop}

mutual
theorem fieldFound (h : S.Simulates T R) (scope : Scope) :
    {field : Field} → field.Throughout (Field.SameChoice S.mode T.mode) → (value : field.Value) →
    {s : σ} → {t : τ} → R s t → value.found S scope s = value.found T scope t
  | .leaf _ kind, _, .leaf value, _, _, r => by
      have alike := h.leaf r scope kind value
      simp only [Field.Value.found,Leaf.found,alike.result,alike.value]
  | .object _ _ _, same, .object inner, _, _, r => h.found .empty same.2 inner r
/-- Runs that nothing tells apart find the same. -/
theorem found (h : S.Simulates T R) (finished : Scope) :
    {fields : List Field} → Throughout (Field.SameChoice S.mode T.mode) fields →
    (record : Record fields) → {s : σ} → {t : τ} → R s t →
    record.found S finished s = record.found T finished t
  | [], _, .nil, _, _, _ => rfl
  | _::_, same, .cons value rest, s, t, r => by
      have step := h.field (finished.orElse (Record.cons value rest).scope) same.1 value r
      simp only [Record.found,same.1.here _,step.result,step.value]
      refine congrArg₂ _ ?_ ?_
      · split
        · exact h.fieldFound _ same.1 value r
        · rfl
      · split
        · exact h.found _ same.2 rest step.state
        · rfl
end

end Stream.Simulates

namespace Record
variable {fields : List Field}

/-- Two objects are read from the same bytes. Whatever they held, the runs end alike and at the same
place, and find the same for each leaf; a leaf that nothing was found for keeps, in either
object, what it held. -/
theorem reading_fresh (checks : Bool) (free : Throughout Field.IsModeFree fields)
    (causal : Causal fields) (bytes : List UInt8) (first second : Record fields) :
    let a := first.run (Reader.stream checks) .empty (.ofBytes bytes)
    let b := second.run (Reader.stream checks) .empty (.ofBytes bytes)
    let found := first.found (Reader.stream checks) .empty (.ofBytes bytes)
    let found' := second.found (Reader.stream checks) .empty (.ofBytes bytes)
    a.result = b.result ∧ a.state.input.position = b.state.input.position ∧ found = found' ∧
      a.value.leaves = overlay first.leaves found ∧
      b.value.leaves = overlay second.leaves found' := by
  intro a b found found'
  have start := Reader.ofBytes_at bytes
  have here := first.run_reader checks .empty start
  have there := second.run_reader checks .empty start
  have everywhere : Throughout (Field.SameChoice (Reader.stream checks).mode
    (Cursor.stream checks).mode) fields := throughout_all (fun _ _ => rfl) fields
  have onCursor := (Reader.stream_at checks).found .empty everywhere first start
  have onCursor' := (Reader.stream_at checks).found .empty everywhere second start
  obtain ⟨twin,same⟩ :=
    Record.run_twin checks (.start (bitsOfBytes bytes)) free causal first second
  refine ⟨?_,?_,onCursor.trans (same.trans onCursor'.symm),?_,?_⟩
  · exact here.result.trans (twin.result.trans there.result.symm)
  · have position := congrArg Cursor.position twin.state
    exact here.state.position.trans (position.trans (Unpacker.At.position there.state).symm)
  · have leaves := first.run_leaves checks .empty (.start (bitsOfBytes bytes))
    rwa [← here.value,← onCursor] at leaves
  · have leaves := second.run_leaves checks .empty (.start (bitsOfBytes bytes))
    rwa [← there.value,← onCursor'] at leaves

/-- A width of 5 is read into both, and behind it too few bits are left. -/
theorem reading_fresh_sized :
    let first : Record sizedFields :=
      .cons (.leaf (1 : UInt8)) (.cons (.leaf (7 : UInt32)) (.cons (.leaf true) .nil))
    let second : Record sizedFields :=
      .cons (.leaf (9 : UInt8)) (.cons (.leaf (0 : UInt32)) (.cons (.leaf false) .nil))
    let a := first.run (Reader.stream true) .empty (.ofBytes [0x24])
    let b := second.run (Reader.stream true) .empty (.ofBytes [0x24])
    let found := [some ⟨.int .u8 (fun _ => 1) (fun _ => 32),(5 : UInt8)⟩,none,none]
    a.result = reject .endOfBuffer ∧ a.result = b.result ∧
      a.state.input.position = b.state.input.position ∧
      a.value.leaves = overlay first.leaves found ∧
      b.value.leaves = overlay second.leaves found := by
  intro first second a b found
  obtain ⟨result,position,same,leaves,leaves'⟩ :=
    reading_fresh true sizedFields_free sizedFields_causal [0x24] first second
  have found_eq : first.found (Reader.stream true) .empty (.ofBytes [0x24]) = found := rfl
  exact ⟨rfl,result,position,found_eq ▸ leaves,found_eq ▸ same ▸ leaves'⟩

end Record
end Bitwire
