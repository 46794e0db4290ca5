import Bitwire.Bits.UnpackerView
import Bitwire.Proofs.Laws

/-! What a reader notes. A step of however many calls that ends in a rejection by the stream leaves
one event, and any other step leaves none: a directive that rejects what the stream accepted notes
nothing, and after a rejection nothing more is asked of the stream. -/
namespace Bitwire

/-- Errors that a stream finds in the course of a call. A number above its range is one of them, a
number in the range that the target does not hold is none. -/
def Error.isNoted : Error → Bool
  | endOfBuffer | invalidPadding | checkFailed .. => true
  | outOfRange found _ max => max < found
  | extraData _ | invalidUtf8 | invalidAddress _ | invalidData _ | contractViolation _ => false

/-- The events of a call on some bytes, if errors of these kinds are noted: one or none. -/
def Step.noted {α : Type} (bytes : List UInt8) (kinds : Error → Bool) (step : Step Reader α) :
    List Event :=
  match step.result with
  | .error (.error cause) =>
      if kinds cause then
        [⟨cause,step.state.input.position,8*bytes.length - step.state.input.position⟩]
      else []
  | _ => []

/-- What a directive finds wrong by itself is not noted. -/
theorem Failure.IsJudgement.not_noted {failure : Failure} (judged : failure.IsJudgement)
    (cause : Error) (same : failure = .error cause) :
    cause.isNoted = false ∧ ∀ n, cause ≠ .extraData n := by
  subst same
  cases cause with
  | contractViolation | invalidUtf8 | invalidAddress | invalidData =>
    exact ⟨rfl,fun _ same => by cases same⟩
  | _ => exact judged.elim

variable {α β : Type}

namespace Unpacker
variable {u v : Unpacker} {n : Nat}

/-- A call that keeps to its input, and rejects nothing but what a stream notes. -/
structure Finds (u : Unpacker) (step : Step Unpacker α) : Prop where
  sound : step.state.Sound
  total : step.state.total = u.total
  noted : ∀ cause, step.result = reject cause → cause.isNoted = true

theorem Sound.finds_done (h : u.Sound) (value : α) : u.Finds (.done value u) :=
  ⟨h,rfl,fun _ failed => by cases failed⟩

theorem Sound.finds_fail (h : u.Sound) (value : α) {failure : Failure}
    (noted : ∀ cause, failure = .error cause → cause.isNoted = true) :
    u.Finds (.fail value u failure) :=
  ⟨h,rfl,fun cause failed => noted cause (Except.error.inj failed)⟩

theorem Sound.finds_fault (h : u.Sound) (value : α) (cause : Fault) :
    u.Finds (.fail value u (.fault cause)) := h.finds_fail value fun _ same => by cases same

theorem Finds.trans {step : Step Unpacker α} (total : v.total = u.total) (h : v.Finds step) :
    u.Finds step := ⟨h.sound,h.total.trans total,h.noted⟩

theorem Finds.andThen {step : Step Unpacker β} (h : u.Finds step) (kept : α)
    {next : β → Unpacker → Step Unpacker α}
    (go : ∀ value v, v.Sound → Unpacker.Finds v (next value v)) :
    u.Finds (step.andThen kept next) := by
  unfold Step.andThen
  cases result : step.result with
  | ok => exact .trans h.total (go _ _ h.sound)
  | error failure => exact ⟨h.sound,h.total,fun cause failed => h.noted cause (result.trans failed)⟩

theorem Sound.finds_take (h : u.Sound) (few : n ≤ 32) (kept : α)
    {next : UInt32 × Unpacker → Step Unpacker α}
    (go : ∀ bits v, v.Sound → Unpacker.Finds v (next (bits,v))) :
    u.Finds (Step.given (u.take n) kept u next) := by
  by_cases full : 2^64 ≤ u.position + n
  · rw [take_full full]
    exact h.finds_fault kept _
  · by_cases short : u.view.length < n
    · rw [h.take_short (by omega) short]
      exact h.finds_fail kept fun cause same => Failure.error.inj same ▸ rfl
    · obtain ⟨v,run,sound,-,-,total⟩ := h.take few (by omega) (by omega)
      rw [run]
      exact .trans total (go _ v sound)

theorem Sound.finds_padding (h : u.Sound) : u.Finds u.skipPadding := by
  by_cases full : 2^64 ≤ u.position + padding u.position
  · have some : padding u.position ≠ 0 := by have := h.reached; omega
    rw [Unpacker.skipPadding,if_neg some,take_full full]
    exact h.finds_fault () _
  · obtain ⟨v,after,run⟩ := h.skipPadding (by omega)
    rw [run]
    split
    · exact .trans after.total (after.sound.finds_fail () fun cause same =>
        Failure.error.inj same ▸ rfl)
    · exact .trans after.total (after.sound.finds_done ())

theorem Sound.finds_fill (h : u.Sound) (out : Vector UInt8 n) : u.Finds (u.fill out) := by
  by_cases full : 2^64 ≤ u.position + 8*n
  · rw [fill_full out full]
    exact h.finds_fault out _
  · by_cases short : u.view.length < 8*n
    · rw [h.fill_short out (by omega) short]
      exact h.finds_fail out fun cause same => Failure.error.inj same ▸ rfl
    · obtain ⟨bytes,v,run,after,-⟩ := h.fill out (by omega) (by omega)
      rw [run]
      exact .trans after.total (after.sound.finds_done bytes)

/-- The unpacker stands somewhere in some bytes. -/
structure On (bytes : List UInt8) (u : Unpacker) : Prop where
  sound : u.Sound
  total : u.total = 8*bytes.length

theorem On.remaining {bytes : List UInt8} (h : u.On bytes) :
    u.remaining = .ok (8*bytes.length - u.position) := by
  have counted := h.sound.counted
  rw [h.sound.remaining,← h.total]
  congr 1
  omega

end Unpacker

namespace Reader
variable {bytes : List UInt8} {r : Reader}

/-- A call that notes what the stream finds, in one event, and nothing else. -/
structure Notes (bytes : List UInt8) (r : Reader) (step : Step Reader α) : Prop where
  on : step.state.input.On bytes
  events : step.state.events.toList = r.events.toList ++ step.noted bytes Error.isNoted
  /-- Bytes behind a message are found at its end only. -/
  within : ∀ n, step.result ≠ reject (.extraData n)

theorem refuse_on (on : r.input.On bytes) (value : α) (cause : Error) :
    r.refuse value (.error cause) =
      ⟨value,⟨r.input,r.events.push
        ⟨cause,r.input.position,8*bytes.length - r.input.position⟩⟩,reject cause⟩ := by
  rw [Reader.refuse,on.remaining]
  rfl

/-- A rejection by the stream is noted, with the place behind the call. -/
theorem settle_notes (on : r.input.On bytes) {step : Step Unpacker α} (finds : r.input.Finds step) :
    r.Notes bytes (r.settle step) := by
  have after : step.state.On bytes := ⟨finds.sound,finds.total.trans on.total⟩
  unfold Reader.settle
  cases result : step.result with
  | ok => exact ⟨after,(List.append_nil _).symm,fun _ failed => by cases failed⟩
  | error failure =>
    cases failure with
    | fault cause => exact ⟨after,(List.append_nil _).symm,fun _ failed => by cases failed⟩
    | error cause =>
      have noted := finds.noted cause result
      dsimp only
      rw [refuse_on after]
      refine ⟨after,?_,fun n failed => ?_⟩
      · simp only [Step.noted,reject,noted,if_true,Array.toList_push]
      · cases Failure.error.inj (Except.error.inj failed)
        cases noted

/-- Noting just what the stream finds. A directive may add errors of other kinds. -/
def tracing (bytes : List UInt8) : Law Reader where
  Holds r call := r.input.On bytes → r.Notes bytes (call r)
  Own failure := ∀ cause, failure = .error cause →
    cause.isNoted = false ∧ ∀ n, cause ≠ .extraData n
  done value r on := ⟨on,(List.append_nil _).symm,fun _ failed => by cases failed⟩
  fail value r failure own on := by
    refine ⟨on,?_,fun n failed => (own _ (Except.error.inj failed)).2 n rfl⟩
    cases failure with
    | fault cause => exact (List.append_nil _).symm
    | error cause => simp [Step.noted,Step.fail,own cause rfl]
  chain {_ _ r call} place next h go on := by
    have first := h on
    dsimp only [Step.chain]
    cases result : (call r).result with
    | ok =>
      have later := go result first.on
      have none : (call r).noted bytes Error.isNoted = [] := by rw [Step.noted,result]
      refine ⟨later.on,?_,later.within⟩
      rw [later.events,first.events,none,List.append_nil]
    | error failure =>
      -- The second call is not made, so that its event cannot come on top of the first one's.
      have same : (Step.fail (place (call r).value) (call r).state failure).noted bytes
          Error.isNoted = (call r).noted bytes Error.isNoted := by
        rw [Step.noted,Step.noted,result]
        rfl
      refine ⟨first.on,?_,fun n failed => first.within n (result.trans failed)⟩
      rw [same]
      exact first.events

/-- A failed call stays one. -/
theorem settle_ok {step : Step Unpacker α} (ok : (r.settle step).result = .ok ()) :
    step.result = .ok () ∧ (r.settle step).value = step.value := by
  unfold Reader.settle at ok ⊢
  cases result : step.result with
  | ok => exact ⟨rfl,rfl⟩
  | error failure =>
    rw [result] at ok
    cases failure with
    | fault cause => cases ok
    | error cause =>
      dsimp only [Reader.refuse] at ok
      cases left : step.state.remaining with
      | ok => rw [left] at ok; cases ok
      | error failure => rw [left] at ok; cases ok

/-- The stream hands out no number above its range. -/
theorem integer_le (checks : Bool) (range : Range) (value : Int32) (r : Reader)
    (ok : ((stream checks).integer range.min range.max value r).result = .ok ()) :
    ((stream checks).integer range.min range.max value r).value.toInt ≤ range.max.toInt := by
  simp only [stream,Range.ofBounds_of_lt range.min_lt_max,Step.given_ok] at ok ⊢
  obtain ⟨found,same⟩ := settle_ok ok
  rw [same]
  cases taken : r.input.take range.bits with
  | error failure => rw [taken] at found; cases found
  | ok answer =>
    rw [taken] at found
    dsimp only [Step.given_ok] at found ⊢
    cases value : range.ofOffset answer.1 with
    | error failure => rw [value] at found; cases found
    | ok number => exact ((range.contains_iff _).mp (Range.ofOffset_ok value).1).2

theorem stream_obeys (checks : Bool) (bytes : List UInt8) :
    (stream checks).Obeys (tracing bytes) where
  reading := rfl
  integer min max value r := by
    refine Law.given (fun failure same =>
      (Range.ofBounds_judged min max failure same).not_noted) value fun range _ on => ?_
    refine settle_notes on (on.sound.finds_take range.bits_le value fun offset u sound => ?_)
    dsimp only
    rw [range.ofOffset_eq]
    split
    · next above =>
      refine sound.finds_fail value fun cause same => ?_
      obtain rfl := Failure.error.inj same
      exact decide_eq_true above
    · exact sound.finds_done _
  bits count value r := by
    by_cases proper : 1 ≤ count ∧ count ≤ 32
    · intro on
      simp only [stream,permitCount,if_pos proper,Step.given_ok]
      exact settle_notes on (on.sound.finds_take proper.2 value fun _ _ sound => sound.finds_done _)
    · simp only [stream,permitCount,if_neg proper]
      exact (tracing bytes).fail value r (Failure.IsJudgement.not_noted trivial)
  bytes data r on := settle_notes on (on.sound.finds_padding.andThen data fun _ _ sound =>
    sound.finds_fill data)
  align r on := settle_notes on on.sound.finds_padding
  check r on := by
    simp only [stream]
    split
    · refine settle_notes on (on.sound.finds_padding.andThen () fun _ _ sound => ?_)
      refine sound.finds_take (by decide) () fun found _ sound => ?_
      dsimp only
      split
      · exact sound.finds_done ()
      · exact sound.finds_fail () fun cause same => Failure.error.inj same ▸ rfl
    · exact (tracing bytes).done () r on
  object _ r visit := visit r
  judged judged := judged.not_noted
  exceeded range value r ok cause same := by
    have below := integer_le checks range value r ok
    obtain rfl := Failure.error.inj same
    exact ⟨decide_eq_false (by omega),fun _ same => by cases same⟩

/-- The end of reading, which notes whatever is wrong with it at the boundary behind the padding. -/
structure Closes (bytes : List UInt8) (r : Reader) (step : Step Reader Unit) : Prop where
  on : step.state.input.On bytes
  events : step.state.events.toList = r.events.toList ++ step.noted bytes fun _ => true
  boundary : ∀ cause, step.result = reject cause →
    step.state.input.position = r.input.position + padding r.input.position

theorem refuse_closes {u : Unpacker} (on : u.On bytes)
    (position : u.position = r.input.position + padding r.input.position) (cause : Error) :
    r.Closes bytes (Reader.refuse ⟨u,r.events⟩ () (.error cause)) := by
  rw [refuse_on (r := ⟨u,r.events⟩) on]
  exact ⟨on,Array.toList_push,fun _ _ => position⟩

theorem finish_closes (on : r.input.On bytes) : r.Closes bytes r.finish := by
  by_cases full : 2^64 ≤ r.input.position + padding r.input.position
  · have some : padding r.input.position ≠ 0 := by have := on.sound.reached; omega
    have stuck : r.finish = .fail () r (.fault .counterOverflow) := by
      rw [Reader.finish,Unpacker.skipPadding,if_neg some,Unpacker.take_full full]
      rfl
    rw [stuck]
    exact ⟨on,(List.append_nil _).symm,fun _ failed => by cases failed⟩
  · obtain ⟨u,after,run⟩ := on.sound.skipPadding (by omega)
    have there : u.On bytes := ⟨after.sound,after.total.trans on.total⟩
    rw [Reader.finish,run]
    split
    · change r.Closes bytes
        ((Reader.refuse ⟨u,r.events⟩ () (.error .invalidPadding)).andThen () _)
      rw [refuse_on (r := ⟨u,r.events⟩) there]
      exact ⟨there,Array.toList_push,fun _ _ => after.position⟩
    · change r.Closes bytes (Step.given u.remaining () ⟨u,r.events⟩ fun bits =>
        if bits/8 = 0 then .done () ⟨u,r.events⟩
        else Reader.refuse ⟨u,r.events⟩ () (.error (.extraData (bits/8))))
      rw [there.remaining,Step.given_ok]
      split
      · exact ⟨there,(List.append_nil _).symm,fun _ failed => by cases failed⟩
      · exact refuse_closes there after.position _

theorem ofBytes_on (bytes : List UInt8) : (ofBytes bytes).input.On bytes :=
  ⟨Unpacker.ofBytes_sound bytes,rfl⟩

end Reader

/-- The steps of a list note what the stream finds, each at its place, and go on. -/
theorem Record.steps_notes (checks : Bool) {bytes : List UInt8} (finished : Scope)
    {fields : List Field} (record : Record fields) {r : Reader} (on : r.input.On bytes) :
    let reports := record.steps (Reader.stream checks) finished r
    (Report.last r reports).input.On bytes ∧
      (Report.last r reports).events.toList =
        r.events.toList ++ reports.flatMap (·.step.noted bytes Error.isNoted) ∧
      ∀ report ∈ reports, report.step.state.input.On bytes ∧
        ∀ n, report.step.result ≠ reject (.extraData n) := by
  induction fields generalizing finished r with
  | nil =>
    cases record
    exact ⟨on,(List.append_nil _).symm,fun _ member => absurd member List.not_mem_nil⟩
  | cons field fields ih =>
    cases record with | cons value rest =>
    let scope := finished.orElse (Record.cons value rest).scope
    let step := value.step (Reader.stream checks) scope r
    have head : r.Notes bytes step := (Reader.stream_obeys checks bytes).step scope value r on
    obtain ⟨last,events,all⟩ := ih (finished.orElse step.value.scope) rest head.on
    rw [Record.steps]
    dsimp only
    split
    · refine ⟨head.on,?_,fun report member => ?_⟩
      · rw [List.flatMap_singleton]
        exact head.events
      · obtain rfl := List.mem_singleton.mp member
        exact ⟨head.on,head.within⟩
    · rw [Report.last_cons]
      refine ⟨last,?_,fun report member => ?_⟩
      · rw [List.flatMap_cons,← List.append_assoc]
        exact events.trans (congrArg (· ++ _) head.events)
      · rcases List.mem_cons.mp member with rfl | member
        · exact ⟨head.on,head.within⟩
        · exact all report member

/-- A list of steps is read from some bytes, each step tried whatever became of the one before, and
then the reader finishes. The events are, in order, one for each step that the stream rejected
and one for the end if that was rejected, each with the place behind the call; behind the
end that is the byte boundary. -/
theorem Record.reading_noted (checks : Bool) {fields : List Field} (record : Record fields)
    (bytes : List UInt8) :
    let reports := record.steps (Reader.stream checks) .empty (.ofBytes bytes)
    let last := Report.last (.ofBytes bytes) reports
    let finish := last.finish
    finish.state.events.toList = reports.flatMap (·.step.noted bytes Error.isNoted) ++
        finish.noted bytes (fun _ => true) ∧
      (∀ report ∈ reports, report.step.state.input.remaining =
          .ok (8*bytes.length - report.step.state.input.position) ∧
        ∀ n, report.step.result ≠ reject (.extraData n)) ∧
      finish.state.input.remaining = .ok (8*bytes.length - finish.state.input.position) ∧
      ∀ cause, finish.result = reject cause →
        finish.state.input.position = last.input.position + padding last.input.position := by
  intro reports last finish
  obtain ⟨on,events,all⟩ := record.steps_notes checks .empty (Reader.ofBytes_on bytes)
  have closes := Reader.finish_closes on
  refine ⟨?_,fun report member => ?_,closes.on.remaining,closes.boundary⟩
  · rw [closes.events,events]
    rfl
  · obtain ⟨on,within⟩ := all report member
    exact ⟨on.remaining,within⟩

/-- A number in its range that a byte does not hold is no event; one above its range is. -/
example :
    let fields : List Field := [.leaf ⟨none,.always,false⟩ (.int .u8 (fun _ => 0) fun _ => 300),
      .leaf ⟨none,.always,false⟩ (.rawInt (fun _ => 0) fun _ => 4)]
    let reports := (Record.initial fields).steps (Reader.stream true) .empty (.ofBytes [0x2b,0x0f])
    reports.map (·.step.result) = [reject (.outOfRange 299 0 300),reject (.outOfRange 7 0 4)] ∧
      (Report.last (.ofBytes [0x2b,0x0f]) reports).finish.state.events.toList =
        [⟨.outOfRange 7 0 4,12,4⟩] := ⟨rfl,rfl⟩

end Bitwire
