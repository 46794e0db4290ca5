import Bitwire.Message.Basic
import Bitwire.Stream.Basic

/-! Running a record through a stream: as one object, which ends at the first failure, or
field by field, where each step is tried whatever became of the one before. -/
namespace Bitwire

namespace Routine
variable {σ α : Type}

/-- Reads into a fresh variable; the caller's one is replaced only on success. -/
def fresh (routine : Routine σ α) (initial : α) : Routine σ α := fun value s =>
  (routine initial s).andThen value fun found s => .done found s

/-- Sends a copy of the caller's variable. -/
def copied (routine : Routine σ α) : Routine σ α := fun value s =>
  let step := routine value s
  ⟨value,step.state,step.result⟩

end Routine

variable {σ : Type}

/-- Runs a field that takes part and skips any other. -/
def Tag.guarded {α : Type} (tag : Tag) (S : Stream σ) (scope : Scope) (routine : Routine σ α) :
    Routine σ α := fun value s =>
  if tag.guard.admits S.mode scope then routine value s else .done value s

mutual
/-- Passes a field that takes part through a stream. -/
def Field.Value.pass (S : Stream σ) (scope : Scope) :
    {field : Field} → field.Value → σ → Step σ field.Value
  | .leaf _ kind, .leaf value, s => (kind.run S scope value s).map .leaf
  | .object _ .static _, .object record, s => (record.run S .empty s).map .object
  | .object _ .dynamic _, .object record, s =>
      (S.object (fun s => record.run S .empty s) record s).map .object
/-- Runs the fields in order up to the first failure. Parameters see the values of the fields
that are done, given as a scope, and then those of the others. -/
def Record.run (S : Stream σ) (finished : Scope) :
    {fields : List Field} → Record fields → σ → Step σ (Record fields)
  | [], .nil, s => .done .nil s
  | field::_, .cons value rest, s =>
      let scope := finished.orElse (Record.cons value rest).scope
      (field.tag.guarded S scope (fun _ s => value.pass S scope s) value s).chain (.cons · rest)
        fun value s => (rest.run S (finished.orElse value.scope) s).map (.cons value)
end

/-- Runs one field, or skips it if it takes no part. -/
def Field.Value.run (S : Stream σ) (scope : Scope) {field : Field} : Routine σ field.Value :=
  field.tag.guarded S scope fun value s => value.pass S scope s

@[simp] theorem Record.run_nil (S : Stream σ) (finished : Scope) (s : σ) :
    Record.nil.run S finished s = .done .nil s := rfl

theorem Record.run_cons (S : Stream σ) (finished : Scope) {field : Field} {fields : List Field}
    (value : field.Value) (rest : Record fields) (s : σ) :
    (Record.cons value rest).run S finished s =
      (value.run S (finished.orElse (Record.cons value rest).scope) s).chain (.cons · rest)
        fun value s => (rest.run S (finished.orElse value.scope) s).map (.cons value) := rfl

@[simp] theorem Field.Value.pass_leaf (S : Stream σ) (scope : Scope) {tag : Tag} {kind : Leaf}
    (value : kind.Value) (s : σ) :
    (Field.Value.leaf value : (Field.leaf tag kind).Value).pass S scope s =
      (kind.run S scope value s).map .leaf := rfl

@[simp] theorem Field.Value.pass_static (S : Stream σ) (scope : Scope) {tag : Tag}
    {fields : List Field} (record : Record fields) (s : σ) :
    (Field.Value.object record : (Field.object tag .static fields).Value).pass S scope s =
      (record.run S .empty s).map .object := rfl

@[simp] theorem Field.Value.pass_dynamic (S : Stream σ) (scope : Scope) {tag : Tag}
    {fields : List Field} (record : Record fields) (s : σ) :
    (Field.Value.object record : (Field.object tag .dynamic fields).Value).pass S scope s =
      (S.object (fun s => record.run S .empty s) record s).map .object := rfl

/-- Passes a field that is a step of its own. A shortcut stands for a leaf's own routine. -/
def Field.Value.passAlone (S : Stream σ) (scope : Scope) :
    {field : Field} → field.Value → σ → Step σ field.Value
  | .leaf tag kind, .leaf value, s =>
      let routine := kind.run S scope
      let chosen :=
        if tag.isShortcut then
          if S.mode.isReading then routine.fresh kind.initial else routine.copied
        else routine
      (chosen value s).map .leaf
  | .object .., value, s => value.pass S scope s

theorem Field.Value.passAlone_leaf (S : Stream σ) (scope : Scope) {tag : Tag} {kind : Leaf}
    (value : kind.Value) (s : σ) :
    (Field.Value.leaf value : (Field.leaf tag kind).Value).passAlone S scope s =
      ((if tag.isShortcut then
          if S.mode.isReading then (kind.run S scope).fresh kind.initial
          else (kind.run S scope).copied
        else kind.run S scope) value s).map .leaf := rfl

/-- Runs one field as a step of its own. -/
def Field.Value.step (S : Stream σ) (scope : Scope) {field : Field} : Routine σ field.Value :=
  field.tag.guarded S scope fun value s => value.passAlone S scope s

/-- What one step did to its field. -/
structure Report (σ : Type) where
  field : Field
  step : Step σ field.Value

def Report.isFault (report : Report σ) : Bool :=
  match report.step.result with
  | .error (.fault _) => true
  | _ => false

/-- Runs every field as a step of its own. Only a fault ends the list. -/
def Record.steps (S : Stream σ) (finished : Scope) :
    {fields : List Field} → Record fields → σ → List (Report σ)
  | [], .nil, _ => []
  | field::_, .cons value rest, s =>
      let step := value.step S (finished.orElse (Record.cons value rest).scope) s
      let report : Report σ := ⟨field,step⟩
      if report.isFault then [report]
      else report::rest.steps S (finished.orElse step.value.scope) step.state

/-- The state after a list of steps. -/
def Report.last (s : σ) (reports : List (Report σ)) : σ :=
  (reports.getLast?.map (·.step.state)).getD s

theorem Report.last_cons (s : σ) (report : Report σ) (reports : List (Report σ)) :
    Report.last s (report::reports) = Report.last report.step.state reports := by
  unfold Report.last
  cases reports with
  | nil => rfl
  | cons next reports =>
    rw [List.getLast?_cons_cons]
    cases last : (next::reports).getLast? with
    | none => cases List.getLast?_eq_none_iff.mp last
    | some _ => rfl

theorem Report.not_isFault {report : Report σ}
    (sound : ∀ cause, report.step.result ≠ halt cause) : report.isFault = false := by
  unfold isFault
  split
  · next cause failed => exact absurd failed (sound cause)
  · rfl

/-! Whole messages. Without `checks`, integrity checks take no part in any of these. -/

namespace Record
variable {fields : List Field}

/-- The bits that encoding would write before the last byte is padded. -/
def measure (checks : Bool) (record : Record fields) : Outcome Nat := do
  let measured := record.run (Meter.stream checks) .empty .zero
  measured.result
  return measured.state.position

/-- The bytes of a message. Writing another number of bits than measured is a fault. -/
def encode (checks : Bool) (record : Record fields) : Outcome (List UInt8) := do
  let measured := record.run (Meter.stream checks) .empty .zero
  measured.result
  let written := measured.value.run (Packer.stream checks) .empty .empty
  written.result
  if written.state.position = measured.state.position then return written.state.finish
  else halt (.sizeMismatch written.state.position measured.state.position)

/-- Overwrites a record from the bytes of a message, all of which must be used. -/
def decode (checks : Bool) (record : Record fields) (bytes : List UInt8) :
    Outcome (Record fields) := do
  let read := record.run (Reader.stream checks) .empty (.ofBytes bytes)
  read.result
  read.state.finish.result
  return read.value

end Record

end Bitwire
