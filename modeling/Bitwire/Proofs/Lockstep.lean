import Bitwire.Proofs.Sending
import Bitwire.Proofs.Updates

/-! Measuring and writing keep step. A meter moves as a packer at the same position does, so a
message is measured just when it can be written, and never to another size. -/
namespace Bitwire

namespace Packer

theorem append_position (p : Packer) (bytes : List UInt8) :
    (p.append bytes).position = p.position + 8*bytes.length := by
  have pushed : ∀ (bytes : List UInt8) (p : Packer),
      (bytes.foldl (fun p b => p.push b.toUInt32 8) p).position = p.position + 8*bytes.length := by
    intro bytes
    induction bytes with
    | nil => intro p; rfl
    | cons b bytes ih =>
      intro p
      rw [List.foldl_cons,ih,List.length_cons]
      simp only [push]
      omega
  unfold append
  split
  · rfl
  · exact pushed bytes p

end Packer

namespace Meter

/-- Both have counted the same bits. -/
def Abreast (m : Meter) (p : Packer) : Prop := m.position = p.position

variable {m : Meter} {p : Packer}

theorem Abreast.push (h : m.Abreast p) (value : UInt32) (n : Nat) :
    (m.add n).Abreast (p.push value n) := congrArg (· + n) h

theorem Abreast.pad (h : m.Abreast p) : m.pad.Abreast p.pad := by
  change m.position + padding m.position = _
  rw [Packer.pad_position,show m.position = p.position from h]

theorem Abreast.append (h : m.Abreast p) (bytes : List UInt8) :
    (m.add (8*bytes.length)).Abreast (p.append bytes) := by
  change m.position + _ = _
  rw [Packer.append_position,show m.position = p.position from h]

theorem stream_abreast (checks : Bool) :
    (stream checks).Simulates (Packer.stream checks) Abreast where
  reading := rfl
  position h := h
  integer min max value _ _ h := .given _ _ h fun range => .given _ _ h fun _ =>
    .done value (h.push _ _)
  bits count value _ _ h := .given _ _ h fun _ => .done value (h.push _ _)
  bytes {n} data m p h := by
    have moved := h.pad.append data.toList
    rw [Vector.length_toList] at moved
    exact .done data moved
  align h := .done () h.pad
  check h := .done () (by split; exacts [h.pad.push _ _,h])
  object _ go _ _ h := go _ _ h

end Meter

namespace Record
variable (checks : Bool) {fields : List Field}

/-- A run of the meter leaves the record as it was and blames no one but the caller. -/
theorem run_meter_keeps (free : Throughout Field.IsModeFree fields) (record : Record fields)
    (finished : Scope) (m : Meter) :
    let measured := record.run (Meter.stream checks) finished m
    measured.value = record ∧
      (measured.result = .ok () ∨
        ∃ breach, measured.result = reject (.contractViolation breach)) := by
  obtain ⟨t,level⟩ := m.exists_level
  have alike := record.run_meter checks free finished level
  have writes := record.run_writes checks finished t free
  by_cases meets : record.Meets Leaf.Permits finished
  · rw [writes.sent meets] at alike
    exact ⟨alike.value,.inl alike.result⟩
  · obtain ⟨breach,_,run⟩ := writes.refused meets
    rw [run] at alike
    exact ⟨alike.value,.inr ⟨breach,alike.result⟩⟩

theorem encode_of_measure (free : Throughout Field.IsModeFree fields) {record : Record fields}
    {size : Nat} (measured : record.measure checks = .ok size) :
    ∃ bytes, record.encode checks = .ok bytes ∧ bytes.length = bytesFor size := by
  by_cases meets : record.Meets Leaf.Permits .empty
  · obtain ⟨bytes,encoded,bits⟩ := encode_sent checks free meets
    have length := congrArg List.length bits
    have counted := bytesFor_eq size
    rw [measure_sent checks free meets] at measured
    rw [bitsOfBytes_length,List.length_append,zeroPadding_length,Except.ok.inj measured] at length
    exact ⟨bytes,encoded,by omega⟩
  · obtain ⟨breach,refused,-⟩ := encode_refused checks free meets
    cases refused.symm.trans measured

theorem encode_of_measure_error (free : Throughout Field.IsModeFree fields)
    {record : Record fields} {failure : Failure}
    (measured : record.measure checks = .error failure) :
    record.encode checks = .error failure ∧
      ∃ breach, failure = .error (.contractViolation breach) := by
  by_cases meets : record.Meets Leaf.Permits .empty
  · cases (measure_sent checks free meets).symm.trans measured
  · obtain ⟨breach,refused,encoded⟩ := encode_refused checks free meets
    obtain rfl := Except.error.inj (refused.symm.trans measured)
    exact ⟨encoded,breach,rfl⟩

/-- From any meter and packer at the same position, valid values or not, both runs end alike and
keep every value. They visit the same leaves with the same outcomes, and after each leaf, the one
that fails included, both stand at the same position. So encoding fails just when measuring does,
and else the bytes have the measured size. -/
theorem measure_write_lockstep (free : Throughout Field.IsModeFree fields)
    (record : Record fields) :
    (∀ (finished : Scope) (m : Meter) (p : Packer), m.position = p.position →
      let measured := record.run (Meter.stream checks) finished m
      let written := record.run (Packer.stream checks) finished p
      measured.result = written.result ∧
      (written.result = .ok () ∨
        ∃ breach, written.result = reject (.contractViolation breach)) ∧
      measured.value = record ∧ written.value = record ∧
      measured.state.position = written.state.position ∧
      List.Forall₂ (Visit.Alike fun m p => m.position = p.position)
        (record.visits (Meter.stream checks) finished m)
        (record.visits (Packer.stream checks) finished p)) ∧
    (∀ size, record.measure checks = .ok size →
      ∃ bytes, record.encode checks = .ok bytes ∧ bytes.length = bytesFor size) ∧
    (∀ failure, record.measure checks = .error failure →
      record.encode checks = .error failure ∧
        ∃ breach, failure = .error (.contractViolation breach)) := by
  refine ⟨fun finished m p level => ?_,fun _ => encode_of_measure checks free,
    fun _ => encode_of_measure_error checks free⟩
  have same := free.imp fun _ h => h.sameChoice .measure .write
  have run := (Meter.stream_abreast checks).record finished same record level
  have keeps := record.run_meter_keeps checks free finished m
  refine ⟨run.result,run.result ▸ keeps.2,keeps.1,run.value.symm.trans keeps.1,run.state,?_⟩
  exact (Meter.stream_abreast checks).visits finished same record level

/-- A health of 101 is refused by both, also off a byte boundary. -/
theorem measure_write_lockstep_update :
    let record := (Update.mk 7 3 101 true 0x40490fdb "Ada").toRecord
    record.encode true = reject (.contractViolation .outsideRange) ∧
      (record.run (Packer.stream true) .empty (Packer.empty.push 5 3)).state.position = 26 := by
  intro record
  have lockstep := measure_write_lockstep true Update.fields_free record
  obtain ⟨-,-,-,-,position,-⟩ := lockstep.1 .empty ⟨3⟩ (Packer.empty.push 5 3) rfl
  exact ⟨(lockstep.2.2 _ rfl).1,position.symm.trans rfl⟩

end Record
end Bitwire
