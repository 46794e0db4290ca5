import Bitwire.Proofs.Careful
import Bitwire.Proofs.Updates

/-! Reading untrusted input is safe. Whatever the routine and the input, the run goes from leaf to
leaf without a fault, also when the routine goes on after a failure. -/
namespace Bitwire

/-- Parameters that the caller may not pass, whatever the value. -/
def Leaf.IsImproper (scope : Scope) : Leaf → Prop
  | int _ min max => ¬Int32.ofInt (min scope) < Int32.ofInt (max scope)
  | rawInt min max => ¬Int32.ofInt (min scope) < Int32.ofInt (max scope)
  | bits _ count => ¬(1 ≤ (count scope).toNat ∧ (count scope).toNat ≤ 32)
  | rawBits count => ¬(1 ≤ (count scope).toNat ∧ (count scope).toNat ≤ 32)
  | text size => ¬(2 ≤ (size scope).toNat ∧ (size scope).toNat ≤ 2^31)
  | bool | u32 | u64 | float | double | bytes _ | align | check | address _ | relative _
  | ackRelative _ | sequenceRelative _ => False

/-- A byte run whose bits can be counted. -/
def Leaf.IsShort : Leaf → Prop
  | bytes length => length < 2^60
  | _ => True

def Field.IsShort : Field → Prop
  | .leaf _ kind => kind.IsShort
  | .object .. => True

namespace Leaf
variable {scope : Scope} {kind : Leaf}

theorem run_safe (checks : Bool) {c : Cursor} (inside : c.Inside) (short : kind.IsShort)
    (proper : ¬kind.IsImproper scope) (kept : kind.Value) :
    c.Safe (kind.run (Cursor.stream checks) scope kept c) := by
  cases kind with
  | int type min max =>
      exact Cursor.int_safe checks (α := type.Carrier) inside (not_not.mp proper) kept
  | bits type count =>
      exact Cursor.bitRun_safe checks (α := type.Carrier) inside (not_not.mp proper) kept
  | rawInt min max => exact Cursor.integer_safe checks inside (not_not.mp proper) kept
  | rawBits count => exact Cursor.bits_safe checks inside (not_not.mp proper) kept
  | bool => exact Cursor.bool_safe checks inside kept
  | u32 => exact Cursor.u32_safe checks inside kept
  | u64 => exact Cursor.u64_safe checks inside kept
  | float => exact Cursor.keep_safe checks inside (Cursor.u32_safe checks inside kept) kept id
  | double => exact Cursor.keep_safe checks inside (Cursor.u64_safe checks inside kept) kept id
  | bytes length => exact Cursor.bytes_safe checks inside short kept
  | text size => exact Cursor.text_safe checks inside (not_not.mp proper) kept
  | align => exact Cursor.skipPadding_safe inside
  | check => exact Cursor.check_safe checks inside
  | address type => exact Cursor.address_safe checks inside type.format kept
  | relative previous => exact Cursor.relative_safe checks inside _ kept
  | ackRelative sequence => exact Cursor.ackRelative_safe checks inside _ kept
  | sequenceRelative first => exact Cursor.sequenceRelative_safe checks inside _ kept

/-- Improper parameters are turned down before anything is read. -/
theorem run_improper (checks : Bool) (improper : kind.IsImproper scope) (kept : kind.Value)
    (r : Reader) : ∃ breach, kind.run (Reader.stream checks) scope kept r =
      .fail kept r (.error (.contractViolation breach)) := by
  cases kind with
  | int type min max =>
    refine ⟨.emptyRange,?_⟩
    rw [run,Directive.int,Range.ofBounds_of_not_lt improper]
    rfl
  | bits type count =>
    refine ⟨.bitCount,?_⟩
    rw [run,Directive.bits,permitCount,if_neg improper]
    rfl
  | rawInt min max =>
    refine ⟨.emptyRange,?_⟩
    simp only [run,Reader.stream,Range.ofBounds_of_not_lt improper]
    rfl
  | rawBits count =>
    refine ⟨.bitCount,?_⟩
    simp only [run,Reader.stream,permitCount,if_neg improper]
    rfl
  | text size =>
    refine ⟨.textCapacity,?_⟩
    rw [run,Directive.text,Text.maxLength_of_not_proper improper]
    rfl
  | _ => exact improper.elim

end Leaf

namespace Reader

/-- Bits read and bits left are those of the input, and to finish here is safe. -/
structure Sane (bytes : List UInt8) (r : Reader) : Prop where
  balance : ∃ left, r.input.remaining = .ok left ∧ r.input.position + left = 8*bytes.length
  finish : ∀ failure, r.finish.result = .error failure → failure.IsRejection
  finishForward : r.input.position ≤ r.finish.state.input.position

/-- The reader stands at a place inside its input. -/
def Within (bytes : List UInt8) (r : Reader) : Prop :=
  ∃ c : Cursor, r.At c ∧ c.Inside ∧ c.bits = bitsOfBytes bytes

variable {bytes : List UInt8} {r : Reader}

theorem ofBytes_within (few : bytes.length < 2^60) : (ofBytes bytes).Within bytes := by
  refine ⟨_,ofBytes_at bytes,⟨Nat.zero_le _,?_⟩,rfl⟩
  change (bitsOfBytes bytes).length < _
  rw [bitsOfBytes_length]
  omega

theorem Within.sane (h : r.Within bytes) : r.Sane bytes := by
  obtain ⟨c,place,inside,bits⟩ := h
  have finish := Reader.finish_at place
  have safe := Cursor.finish_safe inside
  refine ⟨⟨c.rest.length,Reader.At.remaining place,?_⟩,fun failure failed => ?_,?_⟩
  · have within := inside.within
    have position : r.input.position = c.position := place.position
    rw [bits,bitsOfBytes_length] at within
    rw [Cursor.rest,List.length_drop,bits,bitsOfBytes_length,position]
    omega
  · exact safe.rejects failure (finish.result.symm.trans failed)
  · rw [place.position,finish.state.position]
    exact safe.reaches.forward

end Reader

/-- A leaf read with care. With proper parameters it answers or rejects its input; with improper
ones it blames the caller and takes nothing. -/
structure Visit.Safe (bytes : List UInt8) (visit : Visit Reader) : Prop where
  start : visit.start.Sane bytes
  stop : visit.step.state.Sane bytes
  forward : visit.start.input.position ≤ visit.step.state.input.position
  proper : ¬visit.kind.IsImproper visit.scope →
    ∀ failure, visit.step.result = .error failure → failure.IsRejection
  improper : visit.kind.IsImproper visit.scope →
    (∃ breach, visit.step.result = reject (.contractViolation breach)) ∧
      visit.step.state = visit.start

/-- The visits lead from one state to another, each on from where the one before it stopped. -/
def Visit.Path {σ : Type} (s : σ) : List (Visit σ) → σ → Prop
  | [], last => s = last
  | visit::visits, last => visit.start = s ∧ Path visit.step.state visits last

theorem Visit.Path.append {σ : Type} {s t u : σ} {visits more : List (Visit σ)}
    (h : Path s visits t) (h' : Path t more u) : Path s (visits ++ more) u := by
  induction visits generalizing s with
  | nil => exact h ▸ h'
  | cons visit visits ih => exact ⟨h.1,ih h.2⟩

theorem Leaf.visit_safe {checks : Bool} (scope : Scope) {kind : Leaf} {bytes : List UInt8}
    {r : Reader} (h : r.Within bytes) (short : kind.IsShort) (kept : kind.Value)
    {step : Step Reader kind.Value}
    (state : step.state = (kind.run (Reader.stream checks) scope kept r).state)
    (result : step.result = (kind.run (Reader.stream checks) scope kept r).result) :
    Visit.Safe bytes ⟨kind,scope,r,step⟩ ∧ step.state.Within bytes := by
  obtain ⟨c,place,inside,bits⟩ := h
  by_cases improper : kind.IsImproper scope
  · obtain ⟨breach,run⟩ := kind.run_improper checks improper kept r
    rw [run] at state result
    have same : step.state = r := state
    have within : r.Within bytes := ⟨c,place,inside,bits⟩
    refine ⟨⟨within.sane,same ▸ within.sane,same ▸ Nat.le_refl _,
      fun proper => absurd improper proper,fun _ => ⟨⟨breach,result⟩,same⟩⟩,same ▸ within⟩
  · have alike := (Reader.stream_at checks).leaf place scope kind kept
    have safe := kind.run_safe checks inside short improper kept
    have within : step.state.Within bytes :=
      ⟨_,state ▸ alike.state,safe.reaches.inside inside,safe.reaches.bits.trans bits⟩
    refine ⟨⟨Reader.Within.sane ⟨c,place,inside,bits⟩,within.sane,?_,fun _ failure failed => ?_,
      fun bad => absurd bad improper⟩,within⟩
    · change r.input.position ≤ step.state.input.position
      rw [place.position,state,alike.state.position]
      exact safe.reaches.forward
    · exact safe.rejects failure (alike.result.symm.trans (result.symm.trans failed))

/-- The visits of a run that started inside the input, and where it led. -/
structure Reader.Tours {α : Type} (bytes : List UInt8) (r : Reader) (visits : List (Visit Reader))
    (step : Step Reader α) : Prop where
  path : Visit.Path r visits step.state
  safe : ∀ visit ∈ visits, visit.Safe bytes
  within : step.state.Within bytes
  /-- A failure of the run is that of a leaf. -/
  blamed : ∀ failure, step.result = .error failure →
    ∃ visit ∈ visits, visit.step.result = .error failure

namespace Reader.Tours
variable {α β : Type} {bytes : List UInt8} {r : Reader} {visits more : List (Visit Reader)}
  {step : Step Reader α}

theorem map (h : r.Tours bytes visits step) (f : α → β) : r.Tours bytes visits (step.map f) :=
  ⟨h.path,h.safe,h.within,h.blamed⟩

theorem single {visit : Visit Reader} (safe : visit.Safe bytes)
    (within : visit.step.state.Within bytes) (state : step.state = visit.step.state)
    (result : step.result = visit.step.result) : visit.start.Tours bytes [visit] step where
  path := ⟨rfl,state.symm⟩
  safe _ member := List.mem_singleton.mp member ▸ safe
  within := state ▸ within
  blamed _ failed := ⟨visit,List.mem_singleton_self _,result.symm.trans failed⟩

theorem skipped (h : r.Within bytes) (value : α) : r.Tours bytes [] (.done value r) :=
  ⟨rfl,fun _ member => absurd member List.not_mem_nil,h,fun _ failed => by cases failed⟩

theorem guarded (checks : Bool) (scope : Scope) (tag : Tag) {routine : Routine Reader α}
    (within : r.Within bytes) (value : α) (go : r.Tours bytes visits (routine value r)) :
    r.Tours bytes (if tag.guard.admits (Reader.stream checks).mode scope then visits else [])
      (tag.guarded (Reader.stream checks) scope routine value r) := by
  unfold Tag.guarded
  split
  · exact go
  · exact .skipped within value

theorem chain (h : r.Tours bytes visits step) (place : α → β) (go : α → Reader → Step Reader β)
    (next : step.result = .ok () → step.state.Tours bytes more (go step.value step.state)) :
    r.Tours bytes (visits ++ match step.result with
      | .ok () => more
      | .error _ => []) (step.chain place go) := by
  unfold Step.chain
  cases result : step.result with
  | ok =>
    have next := next result
    refine ⟨h.path.append next.path,fun visit member => ?_,next.within,fun failure failed => ?_⟩
    · rcases List.mem_append.mp member with member | member
      · exact h.safe visit member
      · exact next.safe visit member
    · obtain ⟨visit,member,failed⟩ := next.blamed failure failed
      exact ⟨visit,List.mem_append_right _ member,failed⟩
  | error failure =>
    rw [List.append_nil]
    exact ⟨h.path,h.safe,h.within,fun failure' failed => h.blamed failure' (result.trans failed)⟩

end Reader.Tours

mutual
theorem Field.Value.pass_tours (checks : Bool) {bytes : List UInt8} (scope : Scope) :
    {field : Field} → field.Throughout Field.IsShort → (value : field.Value) → {r : Reader} →
    r.Within bytes → r.Tours bytes (value.visits (Reader.stream checks) scope r)
      (value.pass (Reader.stream checks) scope r)
  | .leaf _ kind, short, .leaf value, r, within => by
      obtain ⟨safe,stop⟩ := Leaf.visit_safe scope within short value rfl rfl
      exact .single safe stop rfl rfl
  | .object _ .static _, short, .object record, _, within =>
      (record.run_tours checks .empty short.2 within).map _
  | .object _ .dynamic _, short, .object record, _, within =>
      (record.run_tours checks .empty short.2 within).map _
/-- A run goes from leaf to leaf, each of them safe. -/
theorem Record.run_tours (checks : Bool) {bytes : List UInt8} (finished : Scope) :
    {fields : List Field} → Throughout Field.IsShort fields → (record : Record fields) →
    {r : Reader} → r.Within bytes →
    r.Tours bytes (record.visits (Reader.stream checks) finished r)
      (record.run (Reader.stream checks) finished r)
  | [], _, .nil, _, within => .skipped within _
  | field::_, short, .cons value rest, r, within => by
      let scope := finished.orElse (Record.cons value rest).scope
      have head := Reader.Tours.guarded checks scope field.tag within value
        (value.pass_tours checks scope short.1 within)
      rw [Record.run_cons]
      exact head.chain _ _ fun _ => (rest.run_tours checks _ short.2 head.within).map _
end

/-- The value in a field that is no object. -/
def Field.Value.ofLeaf {tag : Tag} {kind : Leaf} : (Field.leaf tag kind).Value → kind.Value
  | .leaf value => value

/-- The leaves of a field that is a step of its own. -/
def Field.Value.stepVisits {σ : Type} (S : Stream σ) (scope : Scope) :
    {field : Field} → field.Value → σ → List (Visit σ)
  | .leaf _ kind, value, s => [⟨kind,scope,s,(value.passAlone S scope s).map Field.Value.ofLeaf⟩]
  | .object .., value, s => value.visits S scope s

/-- The leaves of a list of steps, also of those behind a failure. -/
def Record.stepVisits {σ : Type} (S : Stream σ) (finished : Scope) :
    {fields : List Field} → Record fields → σ → List (Visit σ)
  | [], .nil, _ => []
  | field::_, .cons value rest, s =>
      let scope := finished.orElse (Record.cons value rest).scope
      let step := value.step S scope s
      (if field.tag.guard.admits S.mode scope then value.stepVisits S scope s else []) ++
        if (⟨field,step⟩ : Report σ).isFault then []
        else rest.stepVisits S (finished.orElse step.value.scope) step.state

theorem Routine.fresh_alike {σ α : Type} (routine : Routine σ α) (initial value : α) (s : σ) :
    (routine.fresh initial value s).state = (routine initial s).state ∧
      (routine.fresh initial value s).result = (routine initial s).result := by
  unfold Routine.fresh Step.andThen
  cases result : (routine initial s).result with
  | ok => exact ⟨rfl,rfl⟩
  | error failure => exact ⟨rfl,rfl⟩

/-- A fresh variable changes what is kept, but neither the state nor the result. -/
theorem Field.Value.passAlone_alike (checks : Bool) (scope : Scope) {tag : Tag} {kind : Leaf}
    (value : (Field.leaf tag kind).Value) (r : Reader) :
    ∃ kept, (value.passAlone (Reader.stream checks) scope r).state =
        (kind.run (Reader.stream checks) scope kept r).state ∧
      (value.passAlone (Reader.stream checks) scope r).result =
        (kind.run (Reader.stream checks) scope kept r).result := by
  obtain ⟨value⟩ := value
  rw [passAlone_leaf]
  by_cases shortcut : tag.isShortcut
  · rw [if_pos shortcut,if_pos (show (Reader.stream checks).mode.isReading from rfl)]
    exact ⟨kind.initial,(kind.run (Reader.stream checks) scope).fresh_alike kind.initial value r⟩
  · rw [if_neg shortcut]
    exact ⟨value,rfl,rfl⟩

theorem Field.Value.passAlone_tours (checks : Bool) {bytes : List UInt8} (scope : Scope)
    {field : Field} (short : field.Throughout Field.IsShort) (value : field.Value) {r : Reader}
    (within : r.Within bytes) :
    r.Tours bytes (value.stepVisits (Reader.stream checks) scope r)
      (value.passAlone (Reader.stream checks) scope r) := by
  cases field with
  | object tag dispatch fields =>
    cases value
    exact Field.Value.pass_tours checks scope short _ within
  | leaf tag kind =>
    obtain ⟨kept,state,result⟩ := value.passAlone_alike checks scope r
    let step := (value.passAlone (Reader.stream checks) scope r).map Field.Value.ofLeaf
    obtain ⟨safe,stop⟩ : Visit.Safe bytes ⟨kind,scope,r,step⟩ ∧ step.state.Within bytes :=
      Leaf.visit_safe scope within short kept state result
    exact .single safe stop rfl rfl

theorem Visit.Safe.not_fault {bytes : List UInt8} {visit : Visit Reader} (h : visit.Safe bytes)
    (cause : Fault) : visit.step.result ≠ halt cause := by
  intro failed
  by_cases improper : visit.kind.IsImproper visit.scope
  · obtain ⟨breach,refused⟩ := (h.improper improper).1
    cases refused.symm.trans failed
  · exact h.proper improper _ failed

/-- The visits of a list of steps that started inside the input. Each field was tried. -/
structure Reader.Tries (bytes : List UInt8) (r : Reader) (fields : List Field)
    (visits : List (Visit Reader)) (reports : List (Report Reader)) : Prop where
  all : reports.map (·.field) = fields
  path : Visit.Path r visits (Report.last r reports)
  stop : (Report.last r reports).Sane bytes
  safe : ∀ visit ∈ visits, visit.Safe bytes
  /-- The failure of a step is that of a leaf. -/
  blamed : ∀ report ∈ reports, ∀ failure, report.step.result = .error failure →
    ∃ visit ∈ visits, visit.step.result = .error failure

/-- A list of steps goes through all fields, whatever became of those before. -/
theorem Record.steps_tries (checks : Bool) {bytes : List UInt8} (finished : Scope)
    {fields : List Field} (short : Throughout Field.IsShort fields) (record : Record fields)
    {r : Reader} (within : r.Within bytes) :
    r.Tries bytes fields (record.stepVisits (Reader.stream checks) finished r)
      (record.steps (Reader.stream checks) finished r) := by
  induction fields generalizing finished r with
  | nil =>
    cases record
    exact ⟨rfl,rfl,within.sane,fun _ member => absurd member List.not_mem_nil,
      fun _ member => absurd member List.not_mem_nil⟩
  | cons field fields ih =>
    cases record with | cons value rest =>
    let scope := finished.orElse (Record.cons value rest).scope
    have head := Reader.Tours.guarded checks scope field.tag within value
      (value.passAlone_tours checks scope short.1 within)
    have sound : Report.isFault ⟨field,value.step (Reader.stream checks) scope r⟩ = false := by
      apply Report.not_isFault
      intro cause failed
      obtain ⟨visit,member,failed⟩ := head.blamed _ failed
      exact (head.safe visit member).not_fault cause failed
    have tail := ih (finished.orElse (value.step (Reader.stream checks) scope r).value.scope)
      short.2 rest head.within
    simp only [Record.steps,Record.stepVisits,scope,sound,Bool.false_eq_true,if_false]
    refine ⟨congrArg _ tail.all,?_,?_,fun visit member => ?_,fun report member failure failed => ?_⟩
    · rw [Report.last_cons]
      exact head.path.append tail.path
    · rw [Report.last_cons]
      exact tail.stop
    · rcases List.mem_append.mp member with member | member
      · exact head.safe visit member
      · exact tail.safe visit member
    · rcases List.mem_cons.mp member with rfl | member
      · obtain ⟨visit,member,failed⟩ := head.blamed failure failed
        exact ⟨visit,List.mem_append_left _ member,failed⟩
      · obtain ⟨visit,member,failed⟩ := tail.blamed report member failure failed
        exact ⟨visit,List.mem_append_right _ member,failed⟩

/-- What calls in any order lead to, each tried whatever became of those before. -/
inductive Reader.Reached (checks : Bool) (bytes : List UInt8) : Reader → Prop
  | start : Reached checks bytes (.ofBytes bytes)
  | call {r : Reader} {kind : Leaf} (scope : Scope) (kept : kind.Value) :
      Reached checks bytes r → kind.IsShort →
      Reached checks bytes (kind.run (Reader.stream checks) scope kept r).state

theorem Reader.Reached.within {checks : Bool} {bytes : List UInt8} {r : Reader}
    (reached : r.Reached checks bytes) (few : bytes.length < 2^60) : r.Within bytes := by
  induction reached with
  | start => exact ofBytes_within few
  | call scope kept _ short ih => exact (Leaf.visit_safe scope ih short kept rfl rfl).2

namespace Record
variable {fields : List Field} {bytes : List UInt8}

theorem decode_blamed (checks : Bool) (short : Throughout Field.IsShort fields)
    (record : Record fields) (few : bytes.length < 2^60) {failure : Failure}
    (failed : record.decode checks bytes = .error failure) :
    failure.IsRejection ∨
      ∃ visit ∈ record.visits (Reader.stream checks) .empty (.ofBytes bytes),
        visit.kind.IsImproper visit.scope ∧ visit.step.result = .error failure := by
  have tour := record.run_tours checks .empty short (Reader.ofBytes_within few)
  let read := record.run (Reader.stream checks) .empty (.ofBytes bytes)
  change (read.result >>= fun _ => read.state.finish.result >>= fun _ => .ok read.value) = _
    at failed
  cases result : read.result with
  | error cause =>
    rw [result] at failed
    obtain rfl := Except.error.inj failed
    obtain ⟨visit,member,refused⟩ := tour.blamed _ result
    by_cases improper : visit.kind.IsImproper visit.scope
    · exact .inr ⟨visit,member,improper,refused⟩
    · exact .inl ((tour.safe visit member).proper improper _ refused)
  | ok =>
    cases finish : read.state.finish.result with
    | error cause =>
      rw [result,finish] at failed
      obtain rfl := Except.error.inj failed
      exact .inl (tour.within.sane.finish _ finish)
    | ok => rw [result,finish] at failed; cases failed

/-- Whatever the input and the routine, reading is safe: after calls in any order each call is
safe, a whole run is a way of safe calls, and so is a list of steps, which tries every field.
Decoding fails by rejecting the input, unless the routine itself passed improper parameters. No
run of a text leaves the buffer it is read into. -/
theorem reading_safe (checks : Bool) (short : Throughout Field.IsShort fields)
    (record : Record fields) (bytes : List UInt8) (few : bytes.length < 2^60) :
    (∀ r, Reader.Reached checks bytes r → ∀ (kind : Leaf) (scope : Scope) (kept : kind.Value),
      kind.IsShort →
        Visit.Safe bytes ⟨kind,scope,r,kind.run (Reader.stream checks) scope kept r⟩) ∧
    (Reader.ofBytes bytes).Tours bytes
      (record.visits (Reader.stream checks) .empty (.ofBytes bytes))
      (record.run (Reader.stream checks) .empty (.ofBytes bytes)) ∧
    (Reader.ofBytes bytes).Tries bytes fields
      (record.stepVisits (Reader.stream checks) .empty (.ofBytes bytes))
      (record.steps (Reader.stream checks) .empty (.ofBytes bytes)) ∧
    (∀ failure, record.decode checks bytes = .error failure → failure.IsRejection ∨
      ∃ visit ∈ record.visits (Reader.stream checks) .empty (.ofBytes bytes),
        visit.kind.IsImproper visit.scope ∧ visit.step.result = .error failure) ∧
    ∀ length, Text.lastRun length ≤ Text.runLength := by
  have start := Reader.ofBytes_within few
  refine ⟨fun r reached kind scope kept short => ?_,record.run_tours checks .empty short start,
    record.steps_tries checks .empty short start,fun _ => record.decode_blamed checks short few,
    Text.lastRun_le⟩
  exact (Leaf.visit_safe scope (reached.within few) short kept rfl rfl).1

/-- A width of 5 is read, too few bits are left for as many, and the bit behind them is read. -/
theorem reading_safe_sized :
    let record := Record.initial sizedFields
    let reports := record.steps (Reader.stream true) .empty (.ofBytes [0x24])
    reports.map (·.step.result) = [.ok (),reject .endOfBuffer,.ok ()] ∧
      (Reader.ofBytes [0x24]).Tries [0x24] sizedFields
        (record.stepVisits (Reader.stream true) .empty (.ofBytes [0x24])) reports :=
  have short : Throughout Field.IsShort sizedFields := ⟨trivial,trivial,trivial,trivial⟩
  ⟨rfl,(reading_safe true short (Record.initial sizedFields) [0x24] (by decide)).2.2.1⟩

end Record
end Bitwire
