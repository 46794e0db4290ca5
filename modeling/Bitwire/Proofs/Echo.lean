import Bitwire.Proofs.Receiving
import Bitwire.Proofs.Replay
import Bitwire.Proofs.Safety

/-! A writer's calls played to a reader. The player holds the numbers and the bytes of the calls and
knows nothing of the message, so it is the reader's own requests that lead it through them. -/
namespace Bitwire

/-- What a call asks for, without its value. -/
inductive Request where
  | integer (min max : Int32)
  | bits (count : Nat)
  | bytes (length : Nat)
  | align | check | object
  deriving DecidableEq, Repr

namespace Call

def request : Call → Request
  | integer _ min max => .integer min max
  | bits _ count => .bits count
  | bytes data => .bytes data.length
  | byteRun length => .bytes length
  | align => .align
  | check => .check
  | object => .object

def number? : Call → Option Int
  | integer value _ _ => some value.toInt
  | bits value _ => some value.toNat
  | _ => none

def data : Call → List UInt8
  | bytes data => data
  | _ => []

/-- The calls that a routine without objects of unknown type makes of a writer. -/
def isWritten : Call → Bool
  | byteRun _ | object => false
  | _ => true

end Call

/-- A reader that hands out numbers and bytes in their order and notes what it is asked. -/
structure Player where
  asked : List Request
  numbers : List Int
  bytes : List UInt8
  deriving DecidableEq, Repr

namespace Player

def ofCalls (calls : List Call) : Player :=
  ⟨[],calls.filterMap Call.number?,calls.flatMap Call.data⟩

/-- Notes requests. -/
def asking (p : Player) (requests : List Request) : Player :=
  { p with asked := p.asked ++ requests }

def answer {α : Type} (p : Player) (value : α) (convert : Int → α) : Step Player α :=
  match p.numbers with
  | [] => .fail value p (.error .endOfBuffer)
  | number::numbers => .done (convert number) { p with numbers := numbers }

def stream : Stream Player where
  mode := .read
  integer min max value p := (p.asking [.integer min max]).answer value Int32.ofInt
  bits count value p := (p.asking [.bits count]).answer value UInt32.ofInt
  bytes {n} data p :=
    let p := p.asking [.bytes n]
    if h : n ≤ p.bytes.length then
      .done ⟨(p.bytes.take n).toArray,by simp [h]⟩ { p with bytes := p.bytes.drop n }
    else .fail data p (.error .endOfBuffer)
  align p := .done () (p.asking [.align])
  check p := .done () (p.asking [.check])
  object _ value p := .done value (p.asking [.object])
  position p := p.asked.length

/-- A player that answers some calls before those that it has left. -/
def expecting (p : Player) (calls : List Call) : Player :=
  ⟨p.asked,calls.filterMap Call.number? ++ p.numbers,calls.flatMap Call.data ++ p.bytes⟩

variable (p : Player)

@[simp] theorem expecting_nil : p.expecting [] = p := rfl

@[simp] theorem asking_nil : p.asking [] = p := by simp [asking]

theorem asking_asking (first second : List Request) :
    (p.asking first).asking second = p.asking (first ++ second) := by simp [asking]

theorem expecting_append (first second : List Call) :
    p.expecting (first ++ second) = (p.expecting second).expecting first := by simp [expecting]

theorem asking_expecting (calls : List Call) (requests : List Request) :
    (p.expecting calls).asking requests = (p.asking requests).expecting calls := rfl

theorem ofInt_word (word : UInt32) : UInt32.ofInt word.toNat = word := by
  have small := word.toNat_lt
  have same : ((word.toNat : Int)%2^32).toNat = word.toNat := by omega
  rw [UInt32.ofInt,same,UInt32.ofNat_toNat]

variable {p} in
theorem bytes_held {data rest : List UInt8} (held : p.bytes = data ++ rest)
    (kept : Vector UInt8 data.length) : stream.bytes kept p =
      .done ⟨data.toArray,by simp⟩ ⟨p.asked ++ [.bytes data.length],p.numbers,rest⟩ := by
  have enough : data.length ≤ p.bytes.length := by simp [held]
  have front : p.bytes.take data.length = data := by rw [held,List.take_left]
  have back : p.bytes.drop data.length = rest := by rw [held,List.drop_left]
  simp only [stream,asking,dif_pos enough,front,back]

theorem answer_call {call : Call} (written : call.isWritten) :
    stream.Answer call (p.expecting [call]) (p.asking [call.request]) := by
  cases call with
  | integer value min max =>
    intro kept
    change Step.done (Int32.ofInt value.toInt) _ = _
    rw [Int32.ofInt_toInt]
    rfl
  | bits value count =>
    intro kept
    change Step.done (UInt32.ofInt value.toNat) _ = _
    rw [ofInt_word]
    rfl
  | bytes data =>
    rintro n rfl kept
    have held : (p.expecting [.bytes data]).bytes = data ++ p.bytes := by
      simp [expecting,Call.data]
    exact bytes_held held kept
  | align => rfl
  | check => rfl
  | byteRun length => cases written
  | object => cases written

theorem answer_calls {calls : List Call} (written : ∀ call ∈ calls, call.isWritten) :
    stream.Answers calls (p.expecting calls) (p.asking (calls.map Call.request)) := by
  induction calls generalizing p with
  | nil => exact (asking_nil p).symm
  | cons call calls ih =>
    have first := (p.expecting calls).answer_call (written call (List.mem_cons_self ..))
    rw [← expecting_append,asking_expecting] at first
    have others := ih (p.asking [call.request]) fun call member =>
      written call (List.mem_cons_of_mem _ member)
    rw [asking_asking] at others
    exact ⟨_,first,others⟩

end Player

namespace Text

/-- Lengths of the runs that the bytes of a text are read in. -/
def runLengths (length : Nat) : List Nat :=
  List.replicate (fullRuns length) runLength ++ [lastRun length]

theorem runs_flatten (full : Nat) (data : List UInt8) : (runs full data).flatten = data := by
  induction full generalizing data with
  | zero => exact List.append_nil data
  | succ full ih => rw [runs,List.flatten_cons,ih,List.take_append_drop]

theorem runs_length {full : Nat} {data : List UInt8} (enough : runLength*full ≤ data.length) :
    (runs full data).map List.length =
      List.replicate full runLength ++ [data.length - runLength*full] := by
  induction full generalizing data with
  | zero => rfl
  | succ full ih =>
    rw [Nat.mul_succ] at enough
    have first : (data.take runLength).length = runLength := List.length_take_of_le (by omega)
    rw [runs,List.map_cons,first,ih (by rw [List.length_drop]; omega),List.length_drop,
      List.replicate_succ,List.cons_append,Nat.mul_succ,Nat.sub_sub,Nat.add_comm runLength]

/-- At least one run; all but the last are full, and together they have the length of the text. -/
theorem runLengths_spec (length : Nat) :
    (runLengths length).length = max 1 ((length + 255)/256) ∧
      (∀ n ∈ (runLengths length).dropLast, n = 256) ∧ (runLengths length).sum = length := by
  have whole := fullRuns_lastRun length
  have size : runLength = 256 := rfl
  refine ⟨?_,fun n member => ?_,?_⟩
  · rw [runLengths,List.length_append,List.length_replicate,List.length_singleton,fullRuns,size]
    omega
  · rw [runLengths,List.dropLast_concat] at member
    exact List.eq_of_mem_replicate member
  · rw [runLengths,List.sum_append,List.sum_replicate,List.sum_singleton,smul_eq_mul,
      Nat.mul_comm]
    exact whole

example : runLengths 600 = [256,256,88] := by decide

end Text

/-- What a reader asks where a writer made a call. -/
def Leaf.echo (kind : Leaf) : Call → List Request
  | .bytes data =>
      if kind.isText then (Text.runLengths data.length).map .bytes else [.bytes data.length]
  | call => [call.request]

namespace Call

theorem inRuns_number (call : Call) : call.inRuns.filterMap number? = [call].filterMap number? := by
  cases call with
  | bytes data =>
    have none : ∀ runs : List (List UInt8), (runs.map bytes).filterMap number? = [] := by
      intro runs
      induction runs with
      | nil => rfl
      | cons run runs ih => exact ih
    exact none _
  | _ => rfl

theorem inRuns_data (call : Call) : call.inRuns.flatMap data = call.data := by
  cases call with
  | bytes data =>
    rw [inRuns,List.flatMap_map]
    exact List.flatMap_id'.trans (Text.runs_flatten _ data)
  | _ => rfl

theorem inRuns_written {call : Call} (written : call.isWritten) :
    ∀ run ∈ call.inRuns, run.isWritten := by
  cases call with
  | bytes data =>
    intro run member
    obtain ⟨_,-,rfl⟩ := List.mem_map.mp member
    rfl
  | _ => exact fun run member => List.mem_singleton.mp member ▸ written

theorem inRuns_request {kind : Leaf} (text : kind.isText) (call : Call) :
    call.inRuns.map request = kind.echo call := by
  cases call with
  | bytes data =>
    have whole := Text.fullRuns_lastRun data.length
    rw [inRuns,Leaf.echo,if_pos text,Text.runLengths,Text.lastRun,← Text.runs_length (by omega),
      List.map_map,List.map_map]
    rfl
  | _ => rfl

end Call

namespace Leaf

theorem echo_request {kind : Leaf} (plain : ¬kind.isText) (call : Call) :
    kind.echo call = [call.request] := by
  cases call with
  | bytes data => exact if_neg plain
  | _ => rfl

variable (kind : Leaf) (calls : List Call)

theorem answers_number :
    (kind.answers calls).filterMap Call.number? = calls.filterMap Call.number? := by
  unfold answers
  split
  · induction calls with
    | nil => rfl
    | cons call calls ih =>
      rw [List.flatMap_cons,List.filterMap_append,ih,call.inRuns_number,← List.filterMap_append]
      rfl
  · rfl

theorem answers_data : (kind.answers calls).flatMap Call.data = calls.flatMap Call.data := by
  unfold answers
  split
  · rw [List.flatMap_assoc]
    exact congrArg (List.flatMap · calls) (funext Call.inRuns_data)
  · rfl

theorem answers_request : (kind.answers calls).map Call.request = calls.flatMap kind.echo := by
  unfold answers
  split
  · next text =>
    rw [List.map_flatMap]
    exact congrArg (List.flatMap · calls) (funext (Call.inRuns_request text))
  · next plain =>
    rw [show kind.echo = fun call => [call.request] from funext (echo_request plain),
      ← List.map_eq_flatMap]

theorem answers_written {calls : List Call} (written : ∀ call ∈ calls, call.isWritten) :
    ∀ call ∈ kind.answers calls, call.isWritten := by
  unfold answers
  split
  · intro run member
    obtain ⟨call,member,inside⟩ := List.mem_flatMap.mp member
    exact Call.inRuns_written (written call member) run inside
  · exact written

theorem calls_written (scope : Scope) (kind : Leaf) (value : kind.Value) :
    ∀ call ∈ kind.calls scope value, call.isWritten := by
  have bucketed : ∀ current difference buckets,
      (Calls.bucketed current difference buckets).all Call.isWritten = true := by
    intro current difference buckets
    induction buckets with
    | nil => rfl
    | cons b rest ih =>
      rw [Calls.bucketed]
      split
      · rfl
      · exact ih
  have relative : ∀ previous current,
      (Calls.relative previous current).all Call.isWritten = true := by
    intro previous current
    unfold Calls.relative
    split
    · rfl
    · exact bucketed _ _ _
  rw [← List.all_eq_true]
  cases kind with
  | relative previous => exact relative _ _
  | sequenceRelative first => exact relative _ _
  | ackRelative sequence =>
    change (Calls.ackRelative _ _).all Call.isWritten = true
    unfold Calls.ackRelative
    split <;> rfl
  | _ => rfl

/-- A player that holds the calls of a value reads it, and is asked as the writer was. -/
theorem run_player {scope : Scope} {kind : Leaf} {value : kind.Value}
    (fits : kind.Fits scope value) (kept : kind.Value) (p : Player) :
    kind.run Player.stream scope kept (p.expecting (kind.calls scope value)) =
      .done value (p.asking ((kind.calls scope value).flatMap kind.echo)) := by
  have answers := p.answer_calls (kind.answers_written (kind.calls_written scope value))
  rw [Player.expecting,answers_number,answers_data,answers_request] at answers
  exact Leaf.run_answered rfl scope fits kept answers

end Leaf

/-- A leaf is read as it was written: the writer was told of a value in some calls, and the reader
asks for them in its turn and receives that value. -/
inductive Visit.Echoes : Visit Recorder → Visit Player → Prop
  | intro {kind : Leaf} {scope scope' : Scope} {value : kind.Value} {l calls : List Call}
      {p q : Player} (asked : q.asked = p.asked ++ calls.flatMap kind.echo) :
      Echoes ⟨kind,scope,.log l,.done value (.log (l ++ calls))⟩ ⟨kind,scope',p,.done value q⟩

theorem Leaf.visit_echoes {scope scope' : Scope} {kind : Leaf}
    (settled : kind.params scope = kind.params scope') {value : kind.Value}
    (fits : kind.Fits scope value) (kept : kind.Value) (l : List Call) (p : Player) :
    Visit.Echoes ⟨kind,scope,.log l,kind.run (Recorder.stream .write) scope value (.log l)⟩
      ⟨kind,scope',p.expecting (kind.calls scope value),
        kind.run Player.stream scope' kept (p.expecting (kind.calls scope value))⟩ := by
  rw [Recorder.leaf_log l rfl scope fits.1,← Leaf.run_congr _ settled,run_player fits kept p]
  exact .intro rfl

/-- What a field finds in a player, if it takes part. -/
theorem Field.Value.run_player {scope scope' : Scope} {p : Player} {field : Field}
    (free : field.IsModeFree) {value : field.Value} (target : field.Value)
    (choice : field.isSent scope = field.isSent scope')
    (pass : field.isSent scope → ∃ received requests,
      target.pass Player.stream scope' (p.expecting (value.calls scope)) =
        .done received (p.asking requests) ∧ value.Same received) :
    ∃ received requests, target.run Player.stream scope'
        (p.expecting (if field.isSent scope then value.calls scope else [])) =
          .done received (p.asking requests) ∧
      (field.isSent scope → value.Same received) := by
  unfold Field.Value.run Tag.guarded
  rw [free,← choice]
  by_cases sent : field.isSent scope = true
  · obtain ⟨received,requests,run,same⟩ := pass sent
    rw [if_pos sent,if_pos sent]
    exact ⟨received,requests,run,fun _ => same⟩
  · rw [if_neg sent,if_neg sent]
    exact ⟨target,[],by rw [Player.asking_nil]; rfl,fun yes => absurd yes sent⟩

mutual
theorem Field.Value.pass_player {scope scope' : Scope} {p : Player} :
    {field : Field} → field.Throughout Field.IsModeFree → field.Throughout Field.IsStatic →
    (value : field.Value) → (target : field.Value) → value.Settled scope scope' →
    value.Meets Leaf.Fits scope → ∃ received requests,
      target.pass Player.stream scope' (p.expecting (value.calls scope)) =
        .done received (p.asking requests) ∧ value.Same received
  | .leaf _ kind, _, _, .leaf value, .leaf target, settled, fits => by
      have run := Leaf.run_player fits target p
      rw [Leaf.run_congr _ settled] at run
      exact ⟨.leaf value,_,by rw [Field.Value.pass_leaf,Field.Value.calls,run]; rfl,rfl⟩
  | .object _ .static _, free, static, .object record, .object target, settled, meets => by
      obtain ⟨received,requests,run,same⟩ :=
        record.run_player free.2 static.2 target settled meets
      refine ⟨.object received,requests,?_,same⟩
      rw [Field.Value.pass_static,Field.Value.calls,run]
      rfl
  | .object _ .dynamic _, _, static, _, _, _, _ => nomatch static.1
/-- A player that holds the calls of a record hands out the values that were sent. -/
theorem Record.run_player {finished finished' : Scope} {p : Player} :
    {fields : List Field} → Throughout Field.IsModeFree fields →
    Throughout Field.IsStatic fields → (record : Record fields) → (target : Record fields) →
    (∀ other, record.Coherent finished finished' other) → record.Meets Leaf.Fits finished →
    ∃ received requests,
      target.run Player.stream finished' (p.expecting (record.calls finished)) =
        .done received (p.asking requests) ∧ record.Same finished received
  | [], _, _, .nil, .nil, _, _ => ⟨.nil,[],by rw [Player.asking_nil]; rfl,trivial⟩
  | field::_, free, static, .cons value rest, .cons other others, coherent, meets => by
      have choice := (Record.coherent_cons (coherent (.cons other others))).1
      obtain ⟨received,requests,run,same⟩ := Field.Value.run_player free.1.here other choice
        fun sent => value.pass_player (p := p.expecting (rest.calls (finished.orElse value.scope)))
          free.1 static.1 other (Record.settled_value coherent sent other others) (meets.1 sent)
      have later := fun more => (Record.coherent_cons (coherent (.cons received more))).2.2 same
      obtain ⟨more,requests',run',same'⟩ :=
        rest.run_player (p := p.asking requests) free.2 static.2 others later meets.2
      refine ⟨.cons received more,requests ++ requests',?_,same,same'⟩
      rw [Record.run_cons,Record.calls,Player.expecting_append,run,Step.chain_done,
        Player.asking_expecting,run',Player.asking_asking]
      rfl
end

mutual
theorem Field.Value.visits_echo {scope scope' : Scope} (l : List Call) {p : Player} :
    {field : Field} → field.Throughout Field.IsModeFree → field.Throughout Field.IsStatic →
    (value : field.Value) → (target : field.Value) → value.Settled scope scope' →
    value.Meets Leaf.Fits scope → List.Forall₂ Visit.Echoes
      (value.visits (Recorder.stream .write) scope (.log l))
      (target.visits Player.stream scope' (p.expecting (value.calls scope)))
  | .leaf .., _, _, .leaf _, .leaf target, settled, fits =>
      .cons (Leaf.visit_echoes settled fits target l p) .nil
  | .object .., free, static, .object record, .object target, settled, meets =>
      record.visits_echo l free.2 static.2 target settled meets
/-- The reader goes from leaf to leaf as the writer went. -/
theorem Record.visits_echo {finished finished' : Scope} (l : List Call) {p : Player} :
    {fields : List Field} → Throughout Field.IsModeFree fields →
    Throughout Field.IsStatic fields → (record : Record fields) → (target : Record fields) →
    (∀ other, record.Coherent finished finished' other) → record.Meets Leaf.Fits finished →
    List.Forall₂ Visit.Echoes (record.visits (Recorder.stream .write) finished (.log l))
      (target.visits Player.stream finished' (p.expecting (record.calls finished)))
  | [], _, _, .nil, .nil, _, _ => .nil
  | field::_, free, static, .cons value rest, .cons other others, coherent, meets => by
      have choice := (Record.coherent_cons (coherent (.cons other others))).1
      have settled := fun sent => Record.settled_value coherent sent other others
      have written := Field.Value.run_log (l := l) free.1.here fun sent =>
        value.pass_log .write rfl l _ free.1 static.1
          ((meets.1 sent).imp fun _ _ _ fits => fits.1)
      obtain ⟨received,requests,run,same⟩ := Field.Value.run_player free.1.here other choice
        fun sent => value.pass_player (p := p.expecting (rest.calls (finished.orElse value.scope)))
          free.1 static.1 other (settled sent) (meets.1 sent)
      rw [Record.visits,Record.visits,written,Record.calls,Player.expecting_append,run,
        free.1.here,free.1.here,← choice]
      refine List.rel_append (R := Visit.Echoes) ?_ ?_
      · by_cases sent : field.isSent (finished.orElse (Record.cons value rest).scope) = true
        · rw [if_pos sent,if_pos sent,if_pos sent]
          exact value.visits_echo l free.1 static.1 other (settled sent) (meets.1 sent)
        · rw [if_neg sent,if_neg sent]
          exact .nil
      · have later := fun more => (Record.coherent_cons (coherent (.cons received more))).2.2 same
        exact rest.visits_echo
          (l ++ if field.isSent (finished.orElse (Record.cons value rest).scope)
            then value.calls (finished.orElse (Record.cons value rest).scope) else [])
          (p := p.asking requests) free.2 static.2 others later meets.2
end

mutual
theorem Field.Value.visits_path {σ : Type} (S : Stream σ) (scope : Scope) : {field : Field} →
    field.Throughout Field.IsStatic → (value : field.Value) → (s : σ) →
    Visit.Path s (value.visits S scope s) (value.pass S scope s).state
  | .leaf .., _, .leaf _, _ => ⟨rfl,rfl⟩
  | .object _ .static _, static, .object record, s => record.visits_path S .empty static.2 s
  | .object _ .dynamic _, static, _, _ => nomatch static.1
/-- Nothing happens in a run but in its visits. -/
theorem Record.visits_path {σ : Type} (S : Stream σ) (finished : Scope) : {fields : List Field} →
    Throughout Field.IsStatic fields → (record : Record fields) → (s : σ) →
    Visit.Path s (record.visits S finished s) (record.run S finished s).state
  | [], _, .nil, _ => rfl
  | field::_, static, .cons value rest, s => by
      have head : Visit.Path s (if field.tag.guard.admits S.mode
            (finished.orElse (Record.cons value rest).scope) then
          value.visits S (finished.orElse (Record.cons value rest).scope) s else [])
          (value.run S (finished.orElse (Record.cons value rest).scope) s).state := by
        unfold Field.Value.run Tag.guarded
        split
        · exact value.visits_path S _ static.1 s
        · rfl
      rw [Record.run_cons,Record.visits]
      refine head.append ?_
      generalize value.run S _ s = step
      obtain ⟨value,state,result⟩ := step
      cases result with
      | ok => exact rest.visits_path S _ static.2 state
      | error failure => rfl
end

namespace Record
variable {fields : List Field}

/-- What a writer tells its stream is what a measurer tells it, and a reader that is answered so is
asked for the same, leaf by leaf, and receives every value that was sent. Only the bytes of a text
are asked for in runs. -/
theorem read_recorded (free : Throughout Field.IsModeFree fields) (causal : Causal fields)
    (static : Throughout Field.IsStatic fields) {sent : Record fields}
    (meets : sent.Meets Leaf.Fits .empty) (target : Record fields) :
    let written := sent.run (Recorder.stream .write) .empty (.ofScript [])
    let measured := sent.run (Recorder.stream .measure) .empty (.ofScript [])
    let player := Player.ofCalls written.state.calls.toList
    let read := target.run Player.stream .empty player
    let writes := sent.visits (Recorder.stream .write) .empty (.ofScript [])
    let reads := target.visits Player.stream .empty player
    written.result = .ok () ∧ measured.result = .ok () ∧
      measured.state.calls = written.state.calls ∧
    read.result = .ok () ∧ sent.Same .empty read.value ∧
      read.state.numbers = [] ∧ read.state.bytes = [] ∧
    Visit.Path (.ofScript []) writes written.state ∧ Visit.Path player reads read.state ∧
      List.Forall₂ Visit.Echoes writes reads ∧
    ∀ length, (Text.runLengths length).length = max 1 ((length + 255)/256) ∧
      (∀ n ∈ (Text.runLengths length).dropLast, n = 256) ∧
      (Text.runLengths length).sum = length := by
  intro written measured player read writes reads
  have writing : written = .done sent (.log (sent.calls .empty)) :=
    sent.run_log .write rfl [] .empty free static meets.permits
  have measuring : measured = .done sent (.log (sent.calls .empty)) :=
    sent.run_log .measure rfl [] .empty free static meets.permits
  have held : player = Player.expecting ⟨[],[],[]⟩ (sent.calls .empty) := by
    simp [player,writing,Player.ofCalls,Player.expecting,Recorder.log,Step.done]
  obtain ⟨received,requests,run,same⟩ :=
    sent.run_player (p := ⟨[],[],[]⟩) free static target (causal sent) meets
  rw [← held] at run
  have reading : read = .done received (Player.asking ⟨[],[],[]⟩ requests) := run
  have echoes := sent.visits_echo [] (p := ⟨[],[],[]⟩) free static target (causal sent) meets
  rw [← held] at echoes
  rw [writing,measuring,reading]
  refine ⟨rfl,rfl,rfl,rfl,same,rfl,rfl,?_,?_,echoes,Text.runLengths_spec⟩
  · exact writing ▸ sent.visits_path (Recorder.stream .write) .empty static (.ofScript [])
  · exact reading ▸ target.visits_path Player.stream .empty static player

/-- An acknowledgement near its sequence number, and an integrity check, which holds no value. -/
theorem read_recorded_update :
    let sent := (Update.mk 1000 990 100 true 0x3f800000 "ada").toRecord
    let written := sent.run (Recorder.stream .write) .empty (.ofScript [])
    let player := Player.ofCalls written.state.calls.toList
    let read := Update.empty.toRecord.run Player.stream .empty player
    written.result = .ok () ∧ read.result = .ok () ∧ sent.Same .empty read.value ∧
      List.Forall₂ Visit.Echoes (sent.visits (Recorder.stream .write) .empty (.ofScript []))
        (Update.empty.toRecord.visits Player.stream .empty player) :=
  have static : Throughout Field.IsStatic Update.fields :=
    ⟨trivial,trivial,trivial,trivial,trivial,trivial,trivial,trivial⟩
  have recorded := read_recorded Update.fields_free Update.fields_causal static
    (Update.toRecord_fits (by decide) (by decide)) Update.empty.toRecord
  ⟨recorded.1,recorded.2.2.2.1,recorded.2.2.2.2.1,recorded.2.2.2.2.2.2.2.2.2.1⟩

end Record
end Bitwire
