import Bitwire.Proofs.Decoding
import Bitwire.Proofs.Visits

/-! Routines that both sides follow alike. Such a routine asks no stream for its mode, and its
parameters and conditions follow from the values already sent: where two records hold the same
values in the fields sent so far, the next field has the same parameters in both. -/
namespace Bitwire

/-- Whether a writer sends the field. -/
def Field.isSent (field : Field) (scope : Scope) : Bool := field.tag.guard.admits .write scope

/-- The field takes part in one mode just when it does in any other. -/
def Field.IsModeFree (field : Field) : Prop :=
  ∀ mode scope, field.tag.guard.admits mode scope = field.isSent scope

theorem Field.IsModeFree.sameChoice {field : Field} (free : field.IsModeFree) (m n : Mode) :
    field.SameChoice m n := fun scope => (free m scope).trans (free n scope).symm

/-- The parameters of a leaf. -/
def Leaf.params (scope : Scope) : Leaf → List Int
  | int _ min max => [min scope,max scope]
  | rawInt min max => [min scope,max scope]
  | bits _ count => [count scope]
  | rawBits count => [count scope]
  | text size => [size scope]
  | relative previous => [previous scope]
  | ackRelative sequence => [sequence scope]
  | sequenceRelative first => [first scope]
  | bool | u32 | u64 | float | double | bytes _ | align | check | address _ => []

mutual
/-- The same values in every field that is sent, whatever the others hold. -/
def Field.Value.Same : {field : Field} → field.Value → field.Value → Prop
  | .leaf .., .leaf value, .leaf other => value = other
  | .object .., .object record, .object other => record.Same .empty other
def Record.Same (finished : Scope) : {fields : List Field} → Record fields → Record fields → Prop
  | [], .nil, .nil => True
  | field::_, .cons value rest, .cons other others =>
      (field.isSent (finished.orElse (Record.cons value rest).scope) → value.Same other) ∧
        rest.Same (finished.orElse value.scope) others
end

mutual
/-- Parameters agree as long as the values sent before them do. -/
def Field.Value.Coherent (scope scope' : Scope) : {field : Field} → field.Value → field.Value → Prop
  | .leaf _ kind, .leaf _, .leaf _ => kind.params scope = kind.params scope'
  | .object .., .object record, .object other => record.Coherent .empty .empty other
def Record.Coherent (finished finished' : Scope) :
    {fields : List Field} → Record fields → Record fields → Prop
  | [], .nil, .nil => True
  | field::_, .cons value rest, .cons other others =>
      let scope := finished.orElse (Record.cons value rest).scope
      let scope' := finished'.orElse (Record.cons other others).scope
      field.isSent scope = field.isSent scope' ∧
        (field.isSent scope → value.Coherent scope scope' other) ∧
        ((field.isSent scope → value.Same other) →
          rest.Coherent (finished.orElse value.scope) (finished'.orElse other.scope) others)
end

/-- Parameters and conditions depend only on fields sent before them. -/
def Causal (fields : List Field) : Prop :=
  ∀ record other : Record fields, record.Coherent .empty .empty other

mutual
/-- A demand on each leaf that is sent. -/
def Field.Value.Meets (P : Scope → (kind : Leaf) → kind.Value → Prop) (scope : Scope) :
    {field : Field} → field.Value → Prop
  | .leaf _ kind, .leaf value => P scope kind value
  | .object .., .object record => record.Meets P .empty
def Record.Meets (P : Scope → (kind : Leaf) → kind.Value → Prop) (finished : Scope) :
    {fields : List Field} → Record fields → Prop
  | [], .nil => True
  | field::_, .cons value rest =>
      let scope := finished.orElse (Record.cons value rest).scope
      (field.isSent scope → value.Meets P scope) ∧ rest.Meets P (finished.orElse value.scope)
end

mutual
/-- The bits of a field sent from a position. -/
def Field.Value.wire (checks : Bool) (scope : Scope) (position : Nat) :
    {field : Field} → field.Value → List Bool
  | .leaf _ kind, .leaf value => kind.wire checks scope position value
  | .object .., .object record => record.wire checks .empty position
/-- The bits of a record sent from a position. -/
def Record.wire (checks : Bool) (finished : Scope) (position : Nat) :
    {fields : List Field} → Record fields → List Bool
  | [], .nil => []
  | field::_, .cons value rest =>
      let scope := finished.orElse (Record.cons value rest).scope
      let bits := if field.isSent scope then value.wire checks scope position else []
      bits ++ rest.wire checks (finished.orElse value.scope) (position + bits.length)
end

mutual
/-- What is seen of a field sent from a position. -/
def Field.Value.marks (checks : Bool) (scope : Scope) (position : Nat) :
    {field : Field} → field.Value → List Mark
  | .leaf _ kind, .leaf value =>
      [⟨kind,value,.ok (),position + (kind.wire checks scope position value).length⟩]
  | .object .., .object record => record.marks checks .empty position
/-- What is seen of a record sent from a position. -/
def Record.marks (checks : Bool) (finished : Scope) (position : Nat) :
    {fields : List Field} → Record fields → List Mark
  | [], .nil => []
  | field::_, .cons value rest =>
      let scope := finished.orElse (Record.cons value rest).scope
      let bits := if field.isSent scope then value.wire checks scope position else []
      (if field.isSent scope then value.marks checks scope position else []) ++
        rest.marks checks (finished.orElse value.scope) (position + bits.length)
end

mutual
theorem Field.Value.Same.refl : {field : Field} → (value : field.Value) → value.Same value
  | .leaf .., .leaf _ => rfl
  | .object .., .object record => Record.Same.refl .empty record
theorem Record.Same.refl (finished : Scope) : {fields : List Field} → (record : Record fields) →
    record.Same finished record
  | [], .nil => trivial
  | _::_, .cons value rest => ⟨fun _ => Field.Value.Same.refl value,Record.Same.refl _ rest⟩
end

mutual
theorem Field.Throughout.imp {P Q : Field → Prop} (h : ∀ field, P field → Q field) :
    {field : Field} → field.Throughout P → field.Throughout Q
  | .leaf .., here => h _ here
  | .object .., ⟨here,inside⟩ => ⟨h _ here,Throughout.imp h inside⟩
theorem Throughout.imp {P Q : Field → Prop} (h : ∀ field, P field → Q field) :
    {fields : List Field} → Throughout P fields → Throughout Q fields
  | [], _ => trivial
  | _::_, ⟨here,others⟩ => ⟨Field.Throughout.imp h here,Throughout.imp h others⟩
end

mutual
theorem Field.throughout_all {P : Field → Prop} (h : ∀ field, P field) :
    (field : Field) → field.Throughout P
  | .leaf .. => h _
  | .object _ _ fields => ⟨h _,throughout_all h fields⟩
theorem throughout_all {P : Field → Prop} (h : ∀ field, P field) :
    (fields : List Field) → Throughout P fields
  | [] => trivial
  | field::fields => ⟨Field.throughout_all h field,throughout_all h fields⟩
end

mutual
theorem Field.Value.Meets.imp {P Q : Scope → (kind : Leaf) → kind.Value → Prop}
    (h : ∀ scope kind value, P scope kind value → Q scope kind value) {scope : Scope} :
    {field : Field} → {value : field.Value} → value.Meets P scope → value.Meets Q scope
  | .leaf .., .leaf _, here => h _ _ _ here
  | .object .., .object _, inside => Record.Meets.imp h inside
theorem Record.Meets.imp {P Q : Scope → (kind : Leaf) → kind.Value → Prop}
    (h : ∀ scope kind value, P scope kind value → Q scope kind value) {finished : Scope} :
    {fields : List Field} → {record : Record fields} → record.Meets P finished →
    record.Meets Q finished
  | [], .nil, _ => trivial
  | _::_, .cons _ _, meets =>
      ⟨fun sent => Field.Value.Meets.imp h (meets.1 sent),Record.Meets.imp h meets.2⟩
end

theorem Record.Meets.permits {finished : Scope} {fields : List Field} {record : Record fields}
    (meets : record.Meets Leaf.Fits finished) : record.Meets Leaf.Permits finished :=
  meets.imp fun _ _ _ fits => fits.1

theorem Record.coherent_cons {finished finished' : Scope} {field : Field} {fields : List Field}
    {value other : field.Value} {rest others : Record fields}
    (h : (Record.cons value rest).Coherent finished finished' (.cons other others)) :
    field.isSent (finished.orElse (Record.cons value rest).scope) =
        field.isSent (finished'.orElse (Record.cons other others).scope) ∧
      (field.isSent (finished.orElse (Record.cons value rest).scope) →
        value.Coherent (finished.orElse (Record.cons value rest).scope)
          (finished'.orElse (Record.cons other others).scope) other) ∧
      ((field.isSent (finished.orElse (Record.cons value rest).scope) → value.Same other) →
        rest.Coherent (finished.orElse value.scope) (finished'.orElse other.scope) others) := h

/-- A leaf that always takes part, before fields that are coherent behind it. -/
theorem Record.coherent_leaf {finished finished' : Scope} {tag : Tag} {kind : Leaf}
    {fields : List Field} {value other : (Field.leaf tag kind).Value} {rest others : Record fields}
    (always : tag.guard = .always)
    (params : kind.params (finished.orElse (Record.cons value rest).scope) =
      kind.params (finished'.orElse (Record.cons other others).scope))
    (later : value = other →
      rest.Coherent (finished.orElse value.scope) (finished'.orElse other.scope) others) :
    (Record.cons value rest).Coherent finished finished' (.cons other others) := by
  have sent : ∀ scope, (Field.leaf tag kind).isSent scope = true := by
    intro scope
    simp [Field.isSent,Field.tag,always,Guard.admits,Guard.always]
  obtain ⟨value⟩ := value
  obtain ⟨other⟩ := other
  refine ⟨(sent _).trans (sent _).symm,fun _ => params,fun same => later ?_⟩
  exact congrArg Field.Value.leaf (same (sent _))

/-- Parameters that no field takes part in are the same everywhere. -/
theorem Record.coherent_fixed {finished finished' : Scope} {tag : Tag} {kind : Leaf}
    {fields : List Field} {value other : (Field.leaf tag kind).Value} {rest others : Record fields}
    (always : tag.guard = .always) (fixed : ∀ scope scope', kind.params scope = kind.params scope')
    (later : value = other →
      rest.Coherent (finished.orElse value.scope) (finished'.orElse other.scope) others) :
    (Record.cons value rest).Coherent finished finished' (.cons other others) :=
  Record.coherent_leaf always (fixed _ _) later

namespace Leaf
variable {scope scope' : Scope} {kind : Leaf}

/-- A leaf sees nothing of the scope but its parameters. -/
theorem run_congr {σ : Type} (S : Stream σ) (same : kind.params scope = kind.params scope') :
    kind.run S scope = kind.run S scope' := by
  cases kind <;> simp_all [params,run]

theorem wire_congr (checks : Bool) (same : kind.params scope = kind.params scope') (position : Nat)
    (value : kind.Value) :
    kind.wire checks scope position value = kind.wire checks scope' position value := by
  cases kind <;> simp_all [params,wire]

theorem permits_congr (same : kind.params scope = kind.params scope') (value : kind.Value) :
    kind.Permits scope value ↔ kind.Permits scope' value := by
  cases kind <;> simp_all [params,Permits]

theorem fits_congr (same : kind.params scope = kind.params scope') :
    kind.Fits scope = kind.Fits scope' := by
  funext value
  simp only [Fits,permits_congr same]
  cases kind with
  | address type => cases type <;> rfl
  | _ => simp_all [params,Exact]

end Leaf

/-- Behind finished fields, parameters depend only on those and on fields sent since. -/
def Consistent (finished : Scope) (fields : List Field) : Prop :=
  ∀ record other : Record fields, record.Coherent finished finished other

/-- The routine of a nested object is causal. -/
def Field.IsCausal : Field → Prop
  | .leaf .. => True
  | .object _ _ fields => Causal fields

namespace Consistent
variable {finished : Scope} {field : Field} {fields : List Field}

theorem tail (h : Consistent finished (field::fields)) (value : field.Value) :
    Consistent (finished.orElse value.scope) fields := fun record other =>
  (Record.coherent_cons (h (.cons value record) (.cons value other))).2.2 fun _ =>
    Field.Value.Same.refl value

/-- A nested object that is ever sent depends on nothing around it. -/
theorem inside (h : Consistent finished (field::fields)) {value : field.Value}
    {rest : Record fields} (sent : field.isSent (finished.orElse (Record.cons value rest).scope)) :
    field.IsCausal := by
  cases field with
  | leaf => exact trivial
  | object tag dispatch fields =>
    intro record other
    have choice := (Record.coherent_cons (h (.cons (.object record) rest) (.cons value rest))).1
    exact (Record.coherent_cons (h (.cons (.object record) rest) (.cons (.object other) rest))).2.1
      (choice.trans sent)

end Consistent
end Bitwire
