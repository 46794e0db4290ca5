import Bitwire.Proofs.Causal

/-! Sending a record. A run appends the bits of the record if each leaf that is sent may be, and
else it ends in a broken precondition. It never changes the record. -/
namespace Bitwire

/-- A run appends bits if its precondition holds, and else fails on the caller's account. -/
structure Tape.Writes {α : Type} (t : Tape) (permits : Prop) (value : α) (bits : List Bool)
    (step : Step Tape α) : Prop where
  sent : permits → step = .done value (t ++ bits)
  refused : ¬permits → ∃ breach t', step = .fail value t' (.error (.contractViolation breach))

namespace Tape
variable {α β : Type} {t : Tape} {permits permits' : Prop} {value : α} {bits bits' : List Bool}
  {step : Step Tape α}

theorem Sends.writes (h : t.Sends permits value bits step) : t.Writes permits value bits step where
  sent := h.sent
  refused no := by
    obtain ⟨breach,run⟩ := h.refused no
    exact ⟨breach,t,run⟩

theorem Writes.map (h : t.Writes permits value bits step) (f : α → β) :
    t.Writes permits (f value) bits (step.map f) where
  sent yes := by rw [h.sent yes]; rfl
  refused no := by
    obtain ⟨breach,t',run⟩ := h.refused no
    exact ⟨breach,t',by rw [run]; rfl⟩

theorem Writes.chain (place : α → β) (go : α → Tape → Step Tape β)
    (h : t.Writes permits value bits step)
    (next : (t ++ bits).Writes permits' (place value) bits' (go value (t ++ bits))) :
    t.Writes (permits ∧ permits') (place value) (bits ++ bits') (step.chain place go) where
  sent yes := by rw [h.sent yes.1,Step.chain_done,next.sent yes.2,List.append_assoc]
  refused no := by
    by_cases yes : permits
    · rw [h.sent yes,Step.chain_done]
      exact next.refused fun yes' => no ⟨yes,yes'⟩
    · obtain ⟨breach,t',run⟩ := h.refused yes
      exact ⟨breach,t',by rw [run]; rfl⟩

theorem Writes.guarded {field : Field} (free : field.IsModeFree) (checks : Bool) (scope : Scope)
    {routine : Routine Tape α} (h : t.Writes permits value bits (routine value t)) :
    t.Writes (field.isSent scope → permits) value (if field.isSent scope then bits else [])
      (field.tag.guarded (stream checks) scope routine value t) := by
  unfold Tag.guarded
  rw [free]
  by_cases sent : field.isSent scope = true
  · rw [if_pos sent,if_pos sent]
    exact ⟨fun yes => h.sent (yes sent),fun no => h.refused fun yes => no fun _ => yes⟩
  · rw [if_neg sent,if_neg sent]
    exact ⟨fun _ => by rw [List.append_nil],fun no => absurd (fun yes => absurd yes sent) no⟩

end Tape

mutual
theorem Field.Value.pass_writes (checks : Bool) (scope : Scope) (t : Tape) :
    {field : Field} → field.Throughout Field.IsModeFree → (value : field.Value) →
    t.Writes (value.Meets Leaf.Permits scope) value (value.wire checks scope t.length)
      (value.pass (Tape.stream checks) scope t)
  | .leaf _ kind, _, .leaf value => (kind.run_sends checks scope t value).writes.map _
  | .object _ .static _, free, .object record => (record.run_writes checks .empty t free.2).map _
  | .object _ .dynamic _, free, .object record => (record.run_writes checks .empty t free.2).map _
theorem Record.run_writes (checks : Bool) (finished : Scope) (t : Tape) :
    {fields : List Field} → Throughout Field.IsModeFree fields → (record : Record fields) →
    t.Writes (record.Meets Leaf.Permits finished) record (record.wire checks finished t.length)
      (record.run (Tape.stream checks) finished t)
  | [], _, .nil => ⟨fun _ => by rw [Record.wire,List.append_nil]; rfl,fun no => absurd trivial no⟩
  | field::_, free, .cons value rest => by
      let scope := finished.orElse (Record.cons value rest).scope
      have head := (value.pass_writes checks scope t free.1).guarded free.1.here checks scope
      have tail := rest.run_writes checks (finished.orElse value.scope)
        (t ++ if field.isSent scope then value.wire checks scope t.length else []) free.2
      rw [List.length_append] at tail
      rw [Record.run_cons]
      exact head.chain (Record.cons · rest) (fun value s => (rest.run (Tape.stream checks)
        (finished.orElse value.scope) s).map (Record.cons value)) (tail.map _)
end

theorem Field.Value.run_writes (checks : Bool) (scope : Scope) (t : Tape) {field : Field}
    (free : field.Throughout Field.IsModeFree) (value : field.Value) :
    t.Writes (field.isSent scope → value.Meets Leaf.Permits scope) value
      (if field.isSent scope then value.wire checks scope t.length else [])
      (value.run (Tape.stream checks) scope t) :=
  (value.pass_writes checks scope t free).guarded free.here checks scope

mutual
theorem Field.Value.visits_sent (checks : Bool) (scope : Scope) (t : Tape) :
    {field : Field} → field.Throughout Field.IsModeFree → (value : field.Value) →
    value.Meets Leaf.Permits scope → (value.visits (Tape.stream checks) scope t).map
      (Visit.mark (Tape.stream checks)) = value.marks checks scope t.length
  | .leaf _ kind, _, .leaf value, meets => by
      have run := (kind.run_sends checks scope t value).sent meets
      simp only [Field.Value.visits,List.map_cons,List.map_nil,Visit.mark,run]
      rw [Field.Value.marks,← List.length_append]
      rfl
  | .object .., free, .object record, meets => record.visits_sent checks .empty t free.2 meets
/-- Each leaf that is sent is visited in its turn, behind the bits of the leaves before it. -/
theorem Record.visits_sent (checks : Bool) (finished : Scope) (t : Tape) :
    {fields : List Field} → Throughout Field.IsModeFree fields → (record : Record fields) →
    record.Meets Leaf.Permits finished → (record.visits (Tape.stream checks) finished t).map
      (Visit.mark (Tape.stream checks)) = record.marks checks finished t.length
  | [], _, .nil, _ => rfl
  | field::_, free, .cons value rest, meets => by
      let scope := finished.orElse (Record.cons value rest).scope
      have run := (value.run_writes checks scope t free.1).sent meets.1
      have later := rest.visits_sent checks (finished.orElse value.scope)
        (t ++ if field.isSent scope then value.wire checks scope t.length else []) free.2 meets.2
      rw [Record.visits,run,List.map_append,free.1.here,Record.marks]
      rw [List.length_append] at later
      refine congrArg₂ _ ?_ later
      split
      · next sent => exact value.visits_sent checks scope t free.1 (meets.1 sent)
      · rfl
end

/-- The bits of whole bytes, the padding of the last one included. -/
theorem bytesFor_eq (size : Nat) : 8*bytesFor size = size + padding size := by
  simp only [bytesFor,padding]
  omega

namespace Record
variable (checks : Bool) {fields : List Field} {record : Record fields}

theorem run_packer (free : Throughout Field.IsModeFree fields) (record : Record fields)
    (finished : Scope) {p : Packer} {t : Tape} (h : p.Holds t) :
    (record.run (Packer.stream checks) finished p).Alike Packer.Holds
      (record.run (Tape.stream checks) finished t) :=
  (Packer.stream_holds checks).record finished (free.imp fun _ h => h.sameChoice _ _) record h

theorem run_meter (free : Throughout Field.IsModeFree fields) (record : Record fields)
    (finished : Scope) {m : Meter} {t : Tape} (h : m.Level t) :
    (record.run (Meter.stream checks) finished m).Alike Meter.Level
      (record.run (Tape.stream checks) finished t) :=
  (Meter.stream_level checks).record finished (free.imp fun _ h => h.sameChoice _ _) record h

theorem empty_meter (free : Throughout Field.IsModeFree fields) (record : Record fields) :
    (record.run (Meter.stream checks) .empty .zero).Alike Meter.Level
      (record.run (Tape.stream checks) .empty []) := record.run_meter checks free .empty ⟨rfl⟩

theorem empty_packer (free : Throughout Field.IsModeFree fields) (record : Record fields) :
    (record.run (Packer.stream checks) .empty .empty).Alike Packer.Holds
      (record.run (Tape.stream checks) .empty []) :=
  record.run_packer checks free .empty Packer.empty_holds

theorem measure_sent (free : Throughout Field.IsModeFree fields)
    (meets : record.Meets Leaf.Permits .empty) :
    record.measure checks = .ok (record.wire checks .empty 0).length := by
  have measured := record.empty_meter checks free
  rw [(record.run_writes checks .empty [] free).sent meets] at measured
  have position := measured.state.position
  simp only [measure,measured.result,Step.done,position]
  rfl

/-- The bytes hold the bits of the record, padded with zeros. -/
theorem encode_sent (free : Throughout Field.IsModeFree fields)
    (meets : record.Meets Leaf.Permits .empty) :
    ∃ bytes, record.encode checks = .ok bytes ∧
      bitsOfBytes bytes = record.wire checks .empty 0 ++
        zeroPadding (record.wire checks .empty 0).length := by
  have sent := (record.run_writes checks .empty [] free).sent meets
  have measured := record.empty_meter checks free
  have written := record.empty_packer checks free
  rw [sent] at measured written
  have size := written.state.position.trans measured.state.position.symm
  have value : (record.run (Meter.stream checks) .empty .zero).value = record := measured.value
  have encoded : record.encode checks =
      .ok (record.run (Packer.stream checks) .empty .empty).state.finish := by
    simp only [encode,measured.result,written.result,value,Step.done,bind,Except.bind,pure,
      Except.pure,if_pos size]
  refine ⟨_,encoded,?_⟩
  rw [Packer.finish_bits written.state.sound,written.state.view,written.state.position]
  rfl

/-- What a broken precondition ends, it ends before anything is written out. -/
theorem encode_refused (free : Throughout Field.IsModeFree fields)
    (broken : ¬record.Meets Leaf.Permits .empty) :
    ∃ breach, record.measure checks = reject (.contractViolation breach) ∧
      record.encode checks = reject (.contractViolation breach) := by
  obtain ⟨breach,t,refused⟩ := (record.run_writes checks .empty [] free).refused broken
  have measured := record.empty_meter checks free
  rw [refused] at measured
  exact ⟨breach,by rw [measure,measured.result]; rfl,by rw [encode,measured.result]; rfl⟩

end Record
end Bitwire
