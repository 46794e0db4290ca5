import Mathlib.Data.List.Forall2
import Bitwire.Proofs.Simulation

/-! What a run does, leaf by leaf: nested objects are entered, and skipped fields leave no trace. -/
namespace Bitwire

mutual
/-- A property of a field and of all fields inside it. -/
def Field.Throughout (P : Field → Prop) : Field → Prop
  | .leaf tag kind => P (.leaf tag kind)
  | .object tag dispatch fields => P (.object tag dispatch fields) ∧ Throughout P fields
def Throughout (P : Field → Prop) : List Field → Prop
  | [] => True
  | field::fields => field.Throughout P ∧ Throughout P fields
end

/-- One leaf of a run: its parameters, where it started and what it did. -/
structure Visit (σ : Type) where
  kind : Leaf
  scope : Scope
  start : σ
  step : Step σ kind.Value

variable {σ τ : Type} {R : σ → τ → Prop} {excuse : Failure → Prop}

mutual
/-- The leaves inside a field that takes part. -/
def Field.Value.visits (S : Stream σ) (scope : Scope) :
    {field : Field} → field.Value → σ → List (Visit σ)
  | .leaf _ kind, .leaf value, s => [⟨kind,scope,s,kind.run S scope value s⟩]
  | .object .., .object record, s => record.visits S .empty s
/-- The leaves of a run in their order, up to the first that fails. -/
def Record.visits (S : Stream σ) (finished : Scope) :
    {fields : List Field} → Record fields → σ → List (Visit σ)
  | [], .nil, _ => []
  | field::_, .cons value rest, s =>
      let scope := finished.orElse (Record.cons value rest).scope
      let step := value.run S scope s
      (if field.tag.guard.admits S.mode scope then value.visits S scope s else []) ++
        match step.result with
        | .ok () => rest.visits S (finished.orElse step.value.scope) step.state
        | .error _ => []
end

inductive Visit.Alike (R : σ → τ → Prop) : Visit σ → Visit τ → Prop
  | intro {kind : Leaf} {scope : Scope} {s : σ} {t : τ} {a : Step σ kind.Value}
      {b : Step τ kind.Value} : R s t → a.Alike R b → Alike R ⟨kind,scope,s,a⟩ ⟨kind,scope,t,b⟩

/-- What is seen of a visit from outside: the value left in the leaf, how the call ended and the
position behind it. -/
structure Mark where
  kind : Leaf
  value : kind.Value
  result : Outcome Unit
  position : Nat

def Visit.mark (S : Stream σ) (visit : Visit σ) : Mark :=
  ⟨visit.kind,visit.step.value,visit.step.result,S.position visit.step.state⟩

/-- The conditions of a field choose alike in two modes. -/
def Field.SameChoice (m n : Mode) (field : Field) : Prop :=
  ∀ scope, field.tag.guard.admits m scope = field.tag.guard.admits n scope

theorem Step.Follows.guarded {α : Type} {S : Stream σ} {T : Stream τ} {s : σ} {t : τ} {tag : Tag}
    {scope : Scope} {routine : Routine σ α} {routine' : Routine τ α}
    (same : tag.guard.admits S.mode scope = tag.guard.admits T.mode scope) (r : R s t) (value : α)
    (go : (routine value s).Follows R excuse (routine' value t)) :
    (tag.guarded S scope routine value s).Follows R excuse
      (tag.guarded T scope routine' value t) := by
  unfold Tag.guarded
  rw [same]
  split
  · exact go
  · exact .done value r

theorem Field.Throughout.here {P : Field → Prop} {field : Field} (h : field.Throughout P) :
    P field := by
  cases field with
  | leaf => exact h
  | object => exact h.1

namespace Stream.Follows
variable {S : Stream σ} {T : Stream τ}

mutual
theorem pass (h : S.Follows T R excuse) (scope : Scope) :
    {field : Field} → field.Throughout (Field.SameChoice S.mode T.mode) → (value : field.Value) →
    {s : σ} → {t : τ} → R s t → (value.pass S scope s).Follows R excuse (value.pass T scope t)
  | .leaf _ kind, _, .leaf value, _, _, r => (h.leaf r scope kind value).map _
  | .object _ .static _, same, .object inner, _, _, r => (h.record .empty same.2 inner r).map _
  | .object _ .dynamic _, same, .object inner, _, _, r =>
      (h.object inner (fun _ _ r => h.record .empty same.2 inner r) r).map _
/-- A whole run cannot tell the streams apart, unless the second gives up. -/
theorem record (h : S.Follows T R excuse) (finished : Scope) :
    {fields : List Field} → Throughout (Field.SameChoice S.mode T.mode) fields →
    (record : Record fields) → {s : σ} → {t : τ} → R s t →
    (record.run S finished s).Follows R excuse (record.run T finished t)
  | [], _, .nil, _, _, r => .done _ r
  | _::_, same, .cons value rest, _, _, r => by
      rw [Record.run_cons,Record.run_cons]
      refine (Step.Follows.guarded (same.1.here _) r value (h.pass _ same.1 value r)).chain _
        fun value _ _ r => ?_
      exact (h.record _ same.2 rest r).map _
end

end Stream.Follows

namespace Stream.Simulates
variable {S : Stream σ} {T : Stream τ}

theorem leaf (h : S.Simulates T R) {s : σ} {t : τ} (r : R s t) (scope : Scope) (kind : Leaf)
    (value : kind.Value) : (kind.run S scope value s).Alike R (kind.run T scope value t) :=
  (h.follows.leaf r scope kind value).toAlike

theorem record (h : S.Simulates T R) (finished : Scope) {fields : List Field}
    (same : Throughout (Field.SameChoice S.mode T.mode) fields) (record : Record fields) {s : σ}
    {t : τ} (r : R s t) : (record.run S finished s).Alike R (record.run T finished t) :=
  (h.follows.record finished same record r).toAlike

theorem field (h : S.Simulates T R) (scope : Scope) {field : Field}
    (same : field.Throughout (Field.SameChoice S.mode T.mode)) (value : field.Value) {s : σ} {t : τ}
    (r : R s t) : (value.run S scope s).Alike R (value.run T scope t) :=
  (Step.Follows.guarded (same.here scope) r value (h.follows.pass scope same value r)).toAlike

mutual
theorem fieldVisits (h : S.Simulates T R) (scope : Scope) :
    {field : Field} → field.Throughout (Field.SameChoice S.mode T.mode) → (value : field.Value) →
    {s : σ} → {t : τ} → R s t →
    List.Forall₂ (Visit.Alike R) (value.visits S scope s) (value.visits T scope t)
  | .leaf _ kind, _, .leaf value, _, _, r => .cons (.intro r (h.leaf r scope kind value)) .nil
  | .object _ _ _, same, .object inner, _, _, r => h.visits .empty same.2 inner r
/-- The leaves that two runs visit agree, one by one. -/
theorem visits (h : S.Simulates T R) (finished : Scope) :
    {fields : List Field} → Throughout (Field.SameChoice S.mode T.mode) fields →
    (record : Record fields) → {s : σ} → {t : τ} → R s t →
    List.Forall₂ (Visit.Alike R) (record.visits S finished s) (record.visits T finished t)
  | [], _, .nil, _, _, _ => .nil
  | _::_, same, .cons value rest, s, t, r => by
      have step := h.field (finished.orElse (Record.cons value rest).scope) same.1 value r
      simp only [Record.visits,same.1.here _,step.result,step.value]
      refine List.rel_append (R := Visit.Alike R) ?_ ?_
      · split
        · exact h.fieldVisits _ same.1 value r
        · exact .nil
      · split
        · exact h.visits _ same.2 rest step.state
        · exact .nil
end

theorem marks (h : S.Simulates T R) {visits : List (Visit σ)} {visits' : List (Visit τ)}
    (alike : List.Forall₂ (Visit.Alike R) visits visits') :
    visits.map (Visit.mark S) = visits'.map (Visit.mark T) := by
  induction alike with
  | nil => rfl
  | cons here _ ih =>
    obtain ⟨_,step⟩ := here
    have same := h.position step.state
    simp only [List.map_cons,Visit.mark,step.value,step.result,same,ih]

end Stream.Simulates
end Bitwire
