import Bitwire.Proofs.Sending

/-! Calls that fail leave no trace. A writer or a meter refuses a call just when its precondition is
broken, and before anything was sent. So in a list of steps the refused ones might as well be left
out. -/
namespace Bitwire

variable {σ α : Type}

/-- A call that succeeds just when its precondition holds. It keeps the caller's variable, and where
it fails, on the caller's account, the state too. -/
structure Step.Atomic (step : Step σ α) (s : σ) (permits : Prop) (value : α) : Prop where
  succeeds : step.result = .ok () ↔ permits
  keeps : step.value = value
  refused : ¬permits → step.state = s ∧ ∃ breach, step.result = reject (.contractViolation breach)

/-- A state that shows in a tape inherits this from the tape. -/
theorem Tape.Sends.atomic {R : σ → Tape → Prop} {s : σ} {t : Tape} {permits : Prop} {value : α}
    {bits : List Bool} {step : Step σ α} {onTape : Step Tape α}
    (sends : t.Sends permits value bits onTape) (alike : step.Alike R onTape)
    (only : ∀ s', R s' t → s' = s) : step.Atomic s permits value := by
  by_cases yes : permits
  · rw [sends.sent yes] at alike
    exact ⟨⟨fun _ => yes,fun _ => alike.result⟩,alike.value,fun no => absurd yes no⟩
  · obtain ⟨breach,run⟩ := sends.refused yes
    rw [run] at alike
    refine ⟨⟨fun done => ?_,fun no => absurd no yes⟩,alike.value,fun _ => ?_⟩
    · cases alike.result.symm.trans done
    · exact ⟨only _ alike.state,breach,alike.result⟩

namespace Packer
variable {p q : Packer}

/-- A packer is nothing but the bits it has taken. -/
theorem Sound.eq_of_view (h : p.Sound) (h' : q.Sound) (same : p.view = q.view) : p = q := by
  have position : p.position = q.position := by rw [← h.view_length,← h'.view_length,same]
  have few := h.few
  have few' := h'.few
  have counted := h.counted
  have counted' := h'.counted
  have heldBits : p.heldBits = q.heldBits := by omega
  have size : (bitsOfBytes p.output.toList).length = (bitsOfBytes q.output.toList).length := by
    simp only [bitsOfBytes_length,Array.length_toList]
    omega
  obtain ⟨output,held⟩ := List.append_inj same size
  have number := congrArg ofBits held
  rw [ofBits_bitsOf,ofBits_bitsOf,Nat.mod_eq_of_lt h.clean,Nat.mod_eq_of_lt h'.clean] at number
  have bytes := Array.toList_inj.mp (bitsOfBytes_inj output)
  cases p
  cases q
  simp_all

/-- What calls and runs of whole objects lead to, each made whatever became of those before. -/
inductive Reached (checks : Bool) : Packer → Prop
  | start : Reached checks .empty
  | call {p : Packer} {kind : Leaf} (scope : Scope) (value : kind.Value) :
      Reached checks p → Reached checks (kind.run (Packer.stream checks) scope value p).state
  | object {p : Packer} {fields : List Field} (finished : Scope) (record : Record fields) :
      Reached checks p → Reached checks (record.run (Packer.stream checks) finished p).state

theorem Reached.holds {checks : Bool} (reached : p.Reached checks) : ∃ t, p.Holds t := by
  induction reached with
  | start => exact ⟨[],empty_holds⟩
  | call scope value _ ih =>
    obtain ⟨t,holds⟩ := ih
    exact ⟨_,((stream_holds checks).leaf holds scope _ value).state⟩
  | object finished record _ ih =>
    obtain ⟨t,holds⟩ := ih
    exact ⟨_,((stream_holds checks).record finished (throughout_all (fun _ _ => rfl) _) record
      holds).state⟩

theorem Holds.atomic {t : Tape} {permits : Prop} {value : α} {bits : List Bool}
    {step : Step Packer α} {onTape : Step Tape α} (holds : p.Holds t)
    (sends : t.Sends permits value bits onTape) (alike : step.Alike Holds onTape) :
    step.Atomic p permits value :=
  sends.atomic alike fun _ holds' =>
    holds'.sound.eq_of_view holds.sound (holds'.view.trans holds.view.symm)

variable {checks : Bool}

theorem Reached.atomic (reached : p.Reached checks) (kind : Leaf) (scope : Scope)
    (value : kind.Value) :
    (kind.run (stream checks) scope value p).Atomic p (kind.Permits scope value) value := by
  obtain ⟨t,holds⟩ := reached.holds
  exact holds.atomic (kind.run_sends checks scope t value)
    ((stream_holds checks).leaf holds scope kind value)

theorem Reached.address_atomic (reached : p.Reached checks) (F : AddressFormat α) (value : α) :
    (Directive.address (stream checks) F value p).Atomic p
      (F.isValid value ∧ (F.write value).utf8ByteSize ≤ 255) value := by
  obtain ⟨t,holds⟩ := reached.holds
  exact holds.atomic (Tape.address_sends checks t F value)
    ((stream_holds checks).follows.address holds F value).toAlike

end Packer

namespace Meter
variable {m : Meter}

theorem Level.atomic {t : Tape} {permits : Prop} {value : α} {bits : List Bool}
    {step : Step Meter α} {onTape : Step Tape α} (level : m.Level t)
    (sends : t.Sends permits value bits onTape) (alike : step.Alike Level onTape) :
    step.Atomic m permits value := by
  refine sends.atomic alike fun n level' => ?_
  have position := level'.position.trans level.position.symm
  cases m
  cases n
  simp_all

theorem atomic (checks : Bool) (m : Meter) (kind : Leaf) (scope : Scope) (value : kind.Value) :
    (kind.run (stream checks) scope value m).Atomic m (kind.Permits scope value) value := by
  obtain ⟨t,level⟩ := m.exists_level
  exact level.atomic (kind.run_sends checks scope t value)
    ((stream_level checks).leaf level scope kind value)

theorem address_atomic (checks : Bool) (m : Meter) (F : AddressFormat α) (value : α) :
    (Directive.address (stream checks) F value m).Atomic m
      (F.isValid value ∧ (F.write value).utf8ByteSize ≤ 255) value := by
  obtain ⟨t,level⟩ := m.exists_level
  exact level.atomic (Tape.address_sends checks t F value)
    ((stream_level checks).follows.address level F value).toAlike

end Meter

/-- A step with a value of its own. -/
structure Entry where
  tag : Tag
  kind : Leaf
  value : kind.Value

namespace Entry

def field (e : Entry) : Field := .leaf e.tag e.kind

/-- The step is always made, and its parameters are given with it. -/
def IsGiven (e : Entry) : Prop :=
  e.tag.guard = .always ∧ ∀ scope scope', e.kind.params scope = e.kind.params scope'

def permits (e : Entry) : Bool := decide (e.kind.Permits .empty e.value)

/-- The list of steps as a record. -/
def record : (entries : List Entry) → Record (entries.map field)
  | [] => .nil
  | e::rest => .cons (.leaf e.value) (record rest)

/-- The entry as a step of its own. -/
def step (S : Stream σ) (scope : Scope) (e : Entry) (s : σ) : Step σ e.field.Value :=
  (Field.Value.leaf e.value : (Field.leaf e.tag e.kind).Value).step S scope s

/-- The state that a call of the step leaves behind. -/
def after (S : Stream σ) (s : σ) (e : Entry) : σ := (e.kind.run S .empty e.value s).state

theorem steps_cons (S : Stream σ) (finished : Scope) (e : Entry) (rest : List Entry) (s : σ)
    (sound : ∀ scope cause, (e.step S scope s).result ≠ halt cause) :
    (record (e::rest)).steps S finished s =
      let step := e.step S (finished.orElse (record (e::rest)).scope) s
      ⟨e.field,step⟩::(record rest).steps S (finished.orElse step.value.scope) step.state := by
  have fine : (⟨e.field,e.step S (finished.orElse (record (e::rest)).scope) s⟩ : Report σ).isFault =
    false := Report.not_isFault (sound _)
  exact if_neg fun fault => Bool.false_ne_true (fine.symm.trans fault)

end Entry

/-- Each step of a list that may succeed does, and leaving out the others changes nothing. -/
structure Stream.LeavesOut (S : Stream σ) (s : σ) (entries : List Entry) : Prop where
  succeeds : ((Entry.record entries).steps S .empty s).map (·.step.result.isOk) =
    entries.map Entry.permits
  last : Report.last s ((Entry.record entries).steps S .empty s) =
    Report.last s ((Entry.record (entries.filter Entry.permits)).steps S .empty s)

/-- A stream whose calls are atomic, in states that are not left. -/
structure Stream.IsAtomic (S : Stream σ) (I : σ → Prop) : Prop where
  writing : S.mode.isReading = false
  stays : ∀ s, I s → ∀ (kind : Leaf) (scope : Scope) (value : kind.Value),
    I (kind.run S scope value s).state
  atomic : ∀ s, I s → ∀ (kind : Leaf) (scope : Scope) (value : kind.Value),
    (kind.run S scope value s).Atomic s (kind.Permits scope value) value

namespace Stream.IsAtomic
variable {S : Stream σ} {I : σ → Prop} {s : σ}

/-- A step does what its call does, also where it sends a copy. -/
theorem step_eq (h : S.IsAtomic I) {e : Entry} (given : e.IsGiven) (scope : Scope) (s : σ) :
    (e.step S scope s).state = e.after S s ∧
      (e.step S scope s).result = (e.kind.run S .empty e.value s).result := by
  obtain ⟨always,params⟩ := given
  have admits : (Field.leaf e.tag e.kind).tag.guard.admits S.mode scope = true := by
    simp [Field.tag,always,Guard.admits,Guard.always]
  rw [Entry.step,Field.Value.step,Tag.guarded,if_pos admits,Entry.after,
    ← Leaf.run_congr S (params scope .empty),Field.Value.passAlone_leaf,h.writing]
  by_cases shortcut : e.tag.isShortcut = true
  · rw [if_pos shortcut]
    exact ⟨rfl,rfl⟩
  · rw [if_neg shortcut]
    exact ⟨rfl,rfl⟩

/-- A call never ends in a fault, and it succeeds if it may. -/
theorem isOk_eq (h : S.IsAtomic I) (here : I s) (e : Entry) :
    (e.kind.run S .empty e.value s).result.isOk = e.permits ∧
      ∀ cause, (e.kind.run S .empty e.value s).result ≠ halt cause := by
  have call := h.atomic s here e.kind .empty e.value
  by_cases permits : e.kind.Permits .empty e.value
  · rw [call.succeeds.mpr permits,Entry.permits,decide_eq_true permits]
    exact ⟨rfl,fun _ => nofun⟩
  · obtain ⟨-,breach,refused⟩ := call.refused permits
    rw [refused,Entry.permits,decide_eq_false permits]
    exact ⟨rfl,fun _ => nofun⟩

/-- A list of steps makes all its calls, one behind the other. -/
theorem steps_eq (h : S.IsAtomic I) {entries : List Entry} (given : ∀ e ∈ entries, e.IsGiven)
    (finished : Scope) (here : I s) :
    ((Entry.record entries).steps S finished s).map (·.step.result.isOk) =
        entries.map Entry.permits ∧
      Report.last s ((Entry.record entries).steps S finished s) =
        entries.foldl (Entry.after S) s := by
  induction entries generalizing finished s with
  | nil => exact ⟨rfl,rfl⟩
  | cons e rest ih =>
    obtain ⟨first,others⟩ := List.forall_mem_cons.mp given
    obtain ⟨ok,sound⟩ := h.isOk_eq here e
    have made := h.step_eq first
    rw [Entry.steps_cons S finished e rest s fun scope => (made scope s).2 ▸ sound]
    obtain ⟨state,result⟩ := made (finished.orElse (Entry.record (e::rest)).scope) s
    obtain ⟨oks,last⟩ := ih others (finished.orElse
      (e.step S (finished.orElse (Entry.record (e::rest)).scope) s).value.scope)
      (h.stays s here e.kind .empty e.value)
    dsimp only
    rw [Report.last_cons,state]
    exact ⟨congrArg₂ List.cons ((congrArg Except.isOk result).trans ok) oks,last⟩

/-- A refused call leaves its state to the next. -/
theorem foldl_permits (h : S.IsAtomic I) (entries : List Entry) (here : I s) :
    (entries.filter Entry.permits).foldl (Entry.after S) s = entries.foldl (Entry.after S) s := by
  induction entries generalizing s with
  | nil => rfl
  | cons e rest ih =>
    have next := ih (h.stays s here e.kind .empty e.value)
    rw [List.foldl_cons]
    by_cases permits : e.kind.Permits .empty e.value
    · have yes : e.permits = true := decide_eq_true permits
      rw [List.filter_cons_of_pos yes,List.foldl_cons]
      exact next
    · have same : e.after S s = s := ((h.atomic s here e.kind .empty e.value).refused permits).1
      rw [List.filter_cons_of_neg (by simpa [Entry.permits] using permits),same]
      exact ih here

theorem leavesOut (h : S.IsAtomic I) {entries : List Entry} (given : ∀ e ∈ entries, e.IsGiven)
    (here : I s) : S.LeavesOut s entries := by
  have all := h.steps_eq given .empty here
  have kept : ∀ e ∈ entries.filter Entry.permits, e.IsGiven := fun e member =>
    given e (List.mem_of_mem_filter member)
  have some := h.steps_eq kept .empty here
  refine ⟨all.1,?_⟩
  rw [all.2,some.2,h.foldl_permits entries here]

end Stream.IsAtomic

/-- Whatever was sent before, whatever its value and its parameters, a call to a writer or a meter
fails just when its precondition is broken, and then it changes nothing. This is so of addresses of
any kind, also of one whose text is too long to be sent. So a list of steps sends what is sent
without those that fail. -/
theorem writing_atomic (checks : Bool) :
    (∀ p, Packer.Reached checks p → ∀ (kind : Leaf) (scope : Scope) (value : kind.Value),
      (kind.run (Packer.stream checks) scope value p).Atomic p (kind.Permits scope value) value) ∧
    (∀ (m : Meter) (kind : Leaf) (scope : Scope) (value : kind.Value),
      (kind.run (Meter.stream checks) scope value m).Atomic m (kind.Permits scope value) value) ∧
    (∀ (α : Type) (F : AddressFormat α) (value : α),
      (∀ p, Packer.Reached checks p → (Directive.address (Packer.stream checks) F value p).Atomic p
        (F.isValid value ∧ (F.write value).utf8ByteSize ≤ 255) value) ∧
      ∀ m : Meter, (Directive.address (Meter.stream checks) F value m).Atomic m
        (F.isValid value ∧ (F.write value).utf8ByteSize ≤ 255) value) ∧
    ∀ entries : List Entry, (∀ e ∈ entries, e.IsGiven) →
      (∀ p, Packer.Reached checks p → (Packer.stream checks).LeavesOut p entries) ∧
      ∀ m : Meter, (Meter.stream checks).LeavesOut m entries := by
  have packer : (Packer.stream checks).IsAtomic (Packer.Reached checks) :=
    ⟨rfl,fun p reached kind scope value => .call scope value reached,
      fun p reached => reached.atomic⟩
  have meter : (Meter.stream checks).IsAtomic fun _ => True :=
    ⟨rfl,fun _ _ _ _ _ => trivial,fun m _ => m.atomic checks⟩
  refine ⟨fun p reached => reached.atomic,Meter.atomic checks,fun α F value => ?_,
    fun entries given => ?_⟩
  · exact ⟨fun p reached => reached.address_atomic F value,
      fun m => m.address_atomic checks F value⟩
  · exact ⟨fun p reached => packer.leavesOut given reached,
      fun m => meter.leavesOut given trivial⟩

/-- Three bits were sent before. Of five steps the first is out of range, the text is too long for
its buffer, and the sequence numbers are equal. The name of a host is no address that can be sent
if it has 256 characters. -/
theorem writing_atomic_mixed :
    let tag : Tag := ⟨none,.always,false⟩
    let entries : List Entry :=
      [⟨tag,.rawInt (fun _ => 1) (fun _ => 5),(7 : Int32)⟩,⟨tag,.bits .u8 (fun _ => 3),(5 : UInt8)⟩,
        ⟨tag,.text (fun _ => 4),"long"⟩,⟨tag,.sequenceRelative (fun _ => 9),(9 : UInt16)⟩,
        ⟨tag,.ackRelative (fun _ => 9),(9 : UInt16)⟩]
    let host : AddressFormat String := ⟨id,some,fun name => name != ""⟩
    let name := String.ofList (List.replicate 256 'a')
    entries.map Entry.permits = [false,true,false,false,true] ∧
      (Packer.stream true).LeavesOut (Packer.empty.push 5 3) entries ∧
      (Meter.stream true).LeavesOut ⟨3⟩ entries ∧
      (Directive.address (Packer.stream true) host name (Packer.empty.push 5 3)).state =
        Packer.empty.push 5 3 ∧
      (Directive.address (Meter.stream true) host name ⟨3⟩).state = ⟨3⟩ := by
  intro tag entries host name
  have given : ∀ e ∈ entries, e.IsGiven := by simp [entries,tag,Entry.IsGiven,Leaf.params]
  have reached : Packer.Reached true ((Leaf.rawBits fun _ => 3).run (Packer.stream true) .empty
    (5 : UInt32) .empty).state := .call .empty _ .start
  have long : ¬(host.isValid name ∧ (host.write name).utf8ByteSize ≤ 255) := by decide +kernel
  obtain ⟨-,-,addresses,steps⟩ := writing_atomic true
  obtain ⟨packer,meter⟩ := steps entries given
  obtain ⟨packed,measured⟩ := addresses String host name
  exact ⟨by decide +kernel,packer _ reached,meter ⟨3⟩,((packed _ reached).refused long).1,
    ((measured ⟨3⟩).refused long).1⟩

end Bitwire
