import Bitwire.Proofs.Causal

/-! Receiving a record. A causal routine finds the parameters that the sender used, so it takes
just the bits sent, and what it takes is the form of the record it leaves. -/
namespace Bitwire
/-- The parameters of a field agree in two scopes, whatever its variable holds. -/
def Field.Value.Settled (scope scope' : Scope) : {field : Field} → field.Value → Prop
  | .leaf _ kind, .leaf _ => kind.params scope = kind.params scope'
  | .object .., .object record => ∀ other, record.Coherent .empty .empty other

/-- However the other record continues, its parameters agree with those of the first. -/
theorem Record.settled_value {finished finished' : Scope} {field : Field} {fields : List Field}
    {value : field.Value} {rest : Record fields}
    (h : ∀ other, (Record.cons value rest).Coherent finished finished' other)
    (sent : field.isSent (finished.orElse (Record.cons value rest).scope)) (other : field.Value)
    (others : Record fields) :
    value.Settled (finished.orElse (Record.cons value rest).scope)
      (finished'.orElse (Record.cons other others).scope) := by
  cases value with
  | leaf value =>
    cases other with
    | leaf other => exact (Record.coherent_cons (h (.cons (.leaf other) others))).2.1 sent
  | object record =>
    exact fun inner => (Record.coherent_cons (h (.cons (.object inner) others))).2.1 sent

/-- A value arrives if it is sent, and else the target keeps its own. -/
theorem Field.Value.run_received {checks : Bool} {scope scope' : Scope} {c : Cursor} {field : Field}
    (free : field.IsModeFree) {value : field.Value} (target : field.Value)
    (choice : field.isSent scope = field.isSent scope')
    (sees : c.Sees (if field.isSent scope then value.wire checks scope c.position else []))
    (pass : field.isSent scope → c.Sees (value.wire checks scope c.position) → ∃ received,
      target.pass (Cursor.stream checks) scope' c =
        .done received (c.skip (value.wire checks scope c.position).length) ∧
      value.Same received) :
    ∃ received, target.run (Cursor.stream checks) scope' c = .done received
        (c.skip (if field.isSent scope then value.wire checks scope c.position else []).length) ∧
      (field.isSent scope → value.Same received) := by
  unfold Field.Value.run Tag.guarded
  rw [free,← choice]
  by_cases sent : field.isSent scope = true
  · rw [if_pos sent] at sees
    obtain ⟨received,run,same⟩ := pass sent sees
    rw [if_pos sent,if_pos sent]
    exact ⟨received,run,fun _ => same⟩
  · exact ⟨target,by rw [if_neg sent,if_neg sent]; rfl,fun yes => absurd yes sent⟩

mutual
theorem Field.Value.pass_received {checks : Bool} {scope scope' : Scope} {c : Cursor} :
    {field : Field} → field.Throughout Field.IsModeFree →
    (value : field.Value) → (target : field.Value) → value.Settled scope scope' →
    value.Meets Leaf.Fits scope → c.Sees (value.wire checks scope c.position) →
    ∃ received, target.pass (Cursor.stream checks) scope' c =
      .done received (c.skip (value.wire checks scope c.position).length) ∧ value.Same received
  | .leaf _ kind, _, .leaf value, .leaf target, settled, meets, sees => by
      have run := kind.run_accepts checks scope target value meets sees
      rw [Leaf.run_congr _ settled] at run
      refine ⟨.leaf value,?_,rfl⟩
      rw [Field.Value.pass_leaf,run]
      rfl
  | .object _ .static _, free, .object record, .object target, settled, meets, sees => by
      obtain ⟨received,run,same⟩ := record.run_received free.2 target settled meets sees
      refine ⟨.object received,?_,same⟩
      rw [Field.Value.pass_static,run]
      rfl
  | .object _ .dynamic _, free, .object record, .object target, settled, meets, sees => by
      obtain ⟨received,run,same⟩ := record.run_received free.2 target settled meets sees
      refine ⟨.object received,?_,same⟩
      change (target.run (Cursor.stream checks) .empty c).map Field.Value.object = _
      rw [run]
      rfl
/-- Where the bits of a record lie ahead, every value sent arrives. -/
theorem Record.run_received {checks : Bool} {finished finished' : Scope} {c : Cursor} :
    {fields : List Field} → Throughout Field.IsModeFree fields →
    (record : Record fields) → (target : Record fields) →
    (∀ other, record.Coherent finished finished' other) →
    record.Meets Leaf.Fits finished → c.Sees (record.wire checks finished c.position) →
    ∃ received, target.run (Cursor.stream checks) finished' c =
      .done received (c.skip (record.wire checks finished c.position).length) ∧
      record.Same finished received
  | [], _, .nil, .nil, _, _, _ => ⟨.nil,rfl,trivial⟩
  | field::_, free, .cons value rest, .cons other others, coherent, meets, sees => by
      have choice := (Record.coherent_cons (coherent (.cons other others))).1
      rw [Record.wire,Cursor.sees_append] at sees
      have head := Field.Value.run_received free.1.here other choice sees.1 fun sent sees =>
        value.pass_received free.1 other (Record.settled_value coherent sent other others)
          (meets.1 sent) sees
      obtain ⟨received,run,same⟩ := head
      have later : ∀ more, rest.Coherent (finished.orElse value.scope)
          (finished'.orElse received.scope) more := fun more =>
        (Record.coherent_cons (coherent (.cons received more))).2.2 same
      obtain ⟨more,run',same'⟩ := rest.run_received free.2 others later meets.2 sees.2
      refine ⟨.cons received more,?_,same,same'⟩
      rw [Record.run_cons,run,Step.chain_done,run',Record.wire,Cursor.skip_skip,
        ← List.length_append]
      rfl
end

mutual
theorem Field.Value.visits_received {checks : Bool} {scope scope' : Scope} {c : Cursor} :
    {field : Field} → field.Throughout Field.IsModeFree →
    (value : field.Value) → (target : field.Value) → value.Settled scope scope' →
    value.Meets Leaf.Fits scope → c.Sees (value.wire checks scope c.position) →
    (target.visits (Cursor.stream checks) scope' c).map (Visit.mark (Cursor.stream checks)) =
      value.marks checks scope c.position
  | .leaf _ kind, _, .leaf value, .leaf target, settled, meets, sees => by
      have run := kind.run_accepts checks scope target value meets sees
      rw [Leaf.run_congr _ settled] at run
      simp only [Field.Value.visits,List.map_cons,List.map_nil,Visit.mark,run]
      rfl
  | .object .., free, .object record, .object target, settled, meets, sees =>
      record.visits_received free.2 target settled meets sees
/-- The reader visits what the writer visited, and stands where it stood. -/
theorem Record.visits_received {checks : Bool} {finished finished' : Scope} {c : Cursor} :
    {fields : List Field} → Throughout Field.IsModeFree fields →
    (record : Record fields) → (target : Record fields) →
    (∀ other, record.Coherent finished finished' other) →
    record.Meets Leaf.Fits finished → c.Sees (record.wire checks finished c.position) →
    (target.visits (Cursor.stream checks) finished' c).map (Visit.mark (Cursor.stream checks)) =
      record.marks checks finished c.position
  | [], _, .nil, .nil, _, _, _ => rfl
  | field::_, free, .cons value rest, .cons other others, coherent, meets, sees => by
      have choice := (Record.coherent_cons (coherent (.cons other others))).1
      rw [Record.wire,Cursor.sees_append] at sees
      have settled := fun sent => Record.settled_value coherent sent other others
      have head := Field.Value.run_received free.1.here other choice sees.1 fun sent sees =>
        value.pass_received free.1 other (settled sent) (meets.1 sent) sees
      obtain ⟨received,run,same⟩ := head
      have later := rest.visits_received free.2 others (fun more =>
        (Record.coherent_cons (coherent (.cons received more))).2.2 same) meets.2 sees.2
      rw [Record.visits,run,List.map_append,free.1.here,← choice,Record.marks]
      refine congrArg₂ _ ?_ later
      by_cases sent : field.isSent (finished.orElse (Record.cons value rest).scope) = true
      · rw [if_pos sent] at sees
        rw [if_pos sent,if_pos sent]
        exact value.visits_received free.1 other (settled sent) (meets.1 sent) sees.1
      · rw [if_neg sent,if_neg sent]
        rfl
end

/-- Each value of a leaf has one form on the wire. -/
def Field.IsStrict : Field → Prop
  | .leaf _ kind => kind.IsStrict
  | .object .. => True

/-- A leaf was passed with a value, from one place to another. -/
abbrev Passage := Scope → (kind : Leaf) → kind.Value → Cursor → Cursor → Prop

mutual
/-- Each leaf that is sent was passed as `P` says, one behind the other. -/
def Field.Value.Took (P : Passage) (scope : Scope) :
    {field : Field} → field.Value → Cursor → Cursor → Prop
  | .leaf _ kind, .leaf value, c, d => P scope kind value c d
  | .object .., .object record, c, d => record.Took P .empty c d
def Record.Took (P : Passage) (finished : Scope) :
    {fields : List Field} → Record fields → Cursor → Cursor → Prop
  | [], .nil, c, d => d = c
  | field::_, .cons value rest, c, d =>
      let scope := finished.orElse (Record.cons value rest).scope
      ∃ m, (if field.isSent scope then value.Took P scope c m else m = c) ∧
        rest.Took P (finished.orElse value.scope) m d
end

/-- Passages are told apart by nothing of the scope but the parameters. -/
def Passage.SeesParams (P : Passage) : Prop :=
  ∀ scope scope' kind, kind.params scope = kind.params scope' → P scope kind = P scope' kind

/-- Where a leaf takes anything, it passes as `P` says. -/
def Field.Passes (checks : Bool) (P : Passage) : Field → Prop
  | .leaf _ kind => ∀ scope kept (c : Cursor), c.position < 2^64 →
      (kind.run (Cursor.stream checks) scope kept c).result = .ok () →
      P scope kind (kind.run (Cursor.stream checks) scope kept c).value c
          (kind.run (Cursor.stream checks) scope kept c).state ∧
        (kind.run (Cursor.stream checks) scope kept c).state.position < 2^64
  | .object .. => True

variable {checks : Bool} {P : Passage}

theorem Field.Value.took_congr {scope scope' : Scope} {field : Field} {value other : field.Value}
    (sees : P.SeesParams) (h : value.Coherent scope scope' other) :
    value.Took P scope = value.Took P scope' := by
  cases value with
  | leaf value => cases other with
    | leaf other =>
      funext c d
      simp only [Field.Value.Took,sees scope scope' _ h]
  | object record => rfl

/-- The fields behind the head are not read yet when its parameters are computed. -/
theorem Record.took_cons (sees : P.SeesParams) {finished : Scope} {field : Field}
    {fields : List Field} {value other : field.Value} {rest others : Record fields} {c m d : Cursor}
    (agree : (Record.cons value rest).Coherent finished finished (.cons other others))
    (head : if field.isSent (finished.orElse (Record.cons other others).scope) then
        value.Took P (finished.orElse (Record.cons other others).scope) c m else m = c)
    (tail : rest.Took P (finished.orElse value.scope) m d) :
    (Record.cons value rest).Took P finished c d := by
  obtain ⟨choice,params,-⟩ := Record.coherent_cons agree
  refine ⟨m,?_,tail⟩
  by_cases sent : field.isSent (finished.orElse (Record.cons other others).scope) = true
  · rw [if_pos sent] at head
    rw [if_pos (choice.trans sent),Field.Value.took_congr sees (params (choice.trans sent))]
    exact head
  · rw [if_neg sent] at head
    rw [if_neg (choice ▸ sent)]
    exact head

/-- A skipped field takes nothing. -/
theorem Field.Value.run_took {scope : Scope} {c : Cursor} {field : Field} (free : field.IsModeFree)
    {target : field.Value} (small : c.position < 2^64)
    (pass : field.isSent scope → (target.pass (Cursor.stream checks) scope c).result = .ok () →
      (target.pass (Cursor.stream checks) scope c).value.Took P scope c
          (target.pass (Cursor.stream checks) scope c).state ∧
        (target.pass (Cursor.stream checks) scope c).state.position < 2^64)
    (success : (target.run (Cursor.stream checks) scope c).result = .ok ()) :
    (if field.isSent scope then
        (target.run (Cursor.stream checks) scope c).value.Took P scope c
          (target.run (Cursor.stream checks) scope c).state
      else (target.run (Cursor.stream checks) scope c).state = c) ∧
      (target.run (Cursor.stream checks) scope c).state.position < 2^64 := by
  unfold Field.Value.run Tag.guarded at success ⊢
  rw [free] at success ⊢
  by_cases sent : field.isSent scope = true
  · simp only [if_pos sent] at success ⊢
    exact pass sent success
  · simp only [if_neg sent]
    exact ⟨rfl,small⟩

mutual
theorem Field.Value.pass_took (sees : P.SeesParams) {scope : Scope} {c : Cursor} :
    {field : Field} → field.Throughout Field.IsModeFree → field.Throughout (Field.Passes checks P) →
    field.IsCausal → (target : field.Value) → c.position < 2^64 →
    (target.pass (Cursor.stream checks) scope c).result = .ok () →
    (target.pass (Cursor.stream checks) scope c).value.Took P scope c
        (target.pass (Cursor.stream checks) scope c).state ∧
      (target.pass (Cursor.stream checks) scope c).state.position < 2^64
  | .leaf _ _, _, passes, _, .leaf target, small, success => passes scope target c small success
  | .object _ .static _, free, passes, causal, .object target, small, success =>
      target.run_took sees free.2 passes.2 causal small success
  | .object _ .dynamic _, free, passes, causal, .object target, small, success =>
      target.run_took sees free.2 passes.2 causal small success
/-- A run that goes through passes each leaf of the record it leaves. -/
theorem Record.run_took (sees : P.SeesParams) {finished : Scope} {c : Cursor} :
    {fields : List Field} → Throughout Field.IsModeFree fields →
    Throughout (Field.Passes checks P) fields → Consistent finished fields →
    (target : Record fields) → c.position < 2^64 →
    (target.run (Cursor.stream checks) finished c).result = .ok () →
    (target.run (Cursor.stream checks) finished c).value.Took P finished c
        (target.run (Cursor.stream checks) finished c).state ∧
      (target.run (Cursor.stream checks) finished c).state.position < 2^64
  | [], _, _, _, .nil, small, _ => ⟨rfl,small⟩
  | field::fields, free, passes, consistent, .cons other others, small, success => by
      rw [Record.run_cons] at success ⊢
      have first := Step.ok_of_chain success
      rw [Step.chain_of_ok first] at success ⊢
      obtain ⟨head,reached⟩ := Field.Value.run_took (P := P) free.1.here small (fun sent =>
        other.pass_took sees free.1 passes.1 (consistent.inside sent) small) first
      obtain ⟨tail,last⟩ := others.run_took sees free.2 passes.2 (consistent.tail _) reached success
      exact ⟨Record.took_cons sees (consistent _ _) head tail,last⟩
end

/-- What a strict leaf takes is the form of its value. -/
def Passage.exact (checks : Bool) : Passage := fun scope kind value c d =>
  kind.Fits scope value ∧ c.Sees (kind.wire checks scope c.position value) ∧
    d = c.skip (kind.wire checks scope c.position value).length

theorem Passage.exact_seesParams (checks : Bool) : (exact checks).SeesParams := by
  intro scope scope' kind same
  funext value c d
  rw [exact,exact,Leaf.fits_congr same,Leaf.wire_congr checks same]

mutual
theorem Field.Value.Took.meets {Q : Scope → (kind : Leaf) → kind.Value → Prop}
    (h : ∀ scope kind value c d, P scope kind value c d → Q scope kind value) {scope : Scope} :
    {field : Field} → {value : field.Value} → {c d : Cursor} → value.Took P scope c d →
    value.Meets Q scope
  | .leaf .., .leaf _, _, _, took => h _ _ _ _ _ took
  | .object .., .object _, _, _, took => Record.Took.meets h took
theorem Record.Took.meets {Q : Scope → (kind : Leaf) → kind.Value → Prop}
    (h : ∀ scope kind value c d, P scope kind value c d → Q scope kind value) {finished : Scope} :
    {fields : List Field} → {record : Record fields} → {c d : Cursor} →
    record.Took P finished c d → record.Meets Q finished
  | [], .nil, _, _, _ => trivial
  | _::_, .cons _ _, _, _, took => by
      obtain ⟨m,head,tail⟩ := took
      refine ⟨fun sent => ?_,Record.Took.meets h tail⟩
      rw [if_pos sent] at head
      exact Field.Value.Took.meets h head
end

mutual
theorem Field.Value.Took.sees {scope : Scope} : {field : Field} → {value : field.Value} →
    {c d : Cursor} → value.Took (Passage.exact checks) scope c d → c.position < 2^64 →
    c.Sees (value.wire checks scope c.position) ∧
      d = c.skip (value.wire checks scope c.position).length
  | .leaf .., .leaf _, _, _, took, _ => took.2
  | .object .., .object _, _, _, took, small => Record.Took.sees took small
theorem Record.Took.sees {finished : Scope} : {fields : List Field} → {record : Record fields} →
    {c d : Cursor} → record.Took (Passage.exact checks) finished c d → c.position < 2^64 →
    c.Sees (record.wire checks finished c.position) ∧
      d = c.skip (record.wire checks finished c.position).length
  | [], .nil, _, _, rfl, small => ⟨⟨List.nil_prefix,small⟩,rfl⟩
  | field::_, .cons value rest, c, d, took, small => by
      obtain ⟨m,head,tail⟩ := took
      have first : c.Sees (if field.isSent (finished.orElse (Record.cons value rest).scope) then
            value.wire checks (finished.orElse (Record.cons value rest).scope) c.position else []) ∧
          m = c.skip (if field.isSent (finished.orElse (Record.cons value rest).scope) then
            value.wire checks (finished.orElse (Record.cons value rest).scope) c.position
              else []).length := by
        split at head
        · next sent =>
          simp only [if_pos sent]
          exact Field.Value.Took.sees head small
        · next skipped =>
          simp only [if_neg skipped,head]
          exact ⟨⟨List.nil_prefix,small⟩,rfl⟩
      obtain ⟨sees,rfl⟩ := first
      obtain ⟨more,rfl⟩ := Record.Took.sees tail sees.reached
      rw [Record.wire]
      refine ⟨Cursor.sees_append.mpr ⟨sees,more⟩,?_⟩
      rw [Cursor.skip_skip,← List.length_append]
      rfl
end

/-- What a strict routine takes is the form of the record it leaves, all of which may be sent. -/
theorem Record.run_only {finished : Scope} {c : Cursor} {fields : List Field}
    (free : Throughout Field.IsModeFree fields) (strict : Throughout Field.IsStrict fields)
    (consistent : Consistent finished fields) (target : Record fields) :
    c.Only (fun record : Record fields => record.Meets Leaf.Fits finished)
      (fun record => record.wire checks finished c.position)
      (target.run (Cursor.stream checks) finished c) := by
  intro small success
  have passes : Throughout (Field.Passes checks (Passage.exact checks)) fields := by
    refine strict.imp fun field strict => ?_
    cases field with
    | leaf tag kind =>
      intro scope kept c small success
      obtain ⟨fits,sees,state⟩ := (kind.run_reads checks scope strict kept).only small success
      exact ⟨⟨fits,sees,state⟩,state ▸ sees.reached⟩
    | object => trivial
  obtain ⟨took,-⟩ := target.run_took (Passage.exact_seesParams checks) free passes consistent small
    success
  exact ⟨took.meets fun _ _ _ _ _ took => took.1,took.sees small⟩

namespace Cursor
variable {c : Cursor}

/-- Reading ends well before the zeros of the last byte. -/
theorem finish_ok (h : c.Sees (zeroPadding c.position)) (last : c.rest = zeroPadding c.position) :
    c.finish.result = .ok () := by
  have skipped := reads_padding.accepts () trivial h
  have none : (c.skip (zeroPadding c.position).length).rest.length = 0 := by
    rw [skip_rest,last,List.drop_length]
    rfl
  rw [finish,skipped,Step.andThen_done,none]
  rfl

/-- Reading ends well nowhere else. -/
theorem rest_of_finish {bytes : List UInt8} (small : c.position < 2^64)
    (whole : c.bits = bitsOfBytes bytes) (done : c.finish.result = .ok ()) :
    c.rest = zeroPadding c.position := by
  unfold finish Step.andThen at done
  split at done
  · next skipped =>
    obtain ⟨-,sees,state⟩ := reads_padding.only small skipped
    simp only [state] at done sees
    split at done
    · next none =>
      obtain ⟨later,split⟩ := sees.ahead
      have aligned := padding_aligns c.position
      have length := congrArg List.length split
      rw [List.length_append,zeroPadding_length,rest,List.length_drop,whole,
        bitsOfBytes_length] at length
      rw [skip_rest,← split,List.drop_left] at none
      have empty : later.length = 0 := by omega
      rw [← split,List.eq_nil_of_length_eq_zero empty,List.append_nil]
    · cases done
  · cases done

end Cursor

namespace Record
variable {fields : List Field}

theorem run_reader (checks : Bool) (record : Record fields) (finished : Scope) {r : Reader}
    {c : Cursor} (h : r.At c) :
    (record.run (Reader.stream checks) finished r).Alike Reader.At
      (record.run (Cursor.stream checks) finished c) :=
  (Reader.stream_at checks).record finished (throughout_all (fun _ _ => rfl) fields) record h

/-- Decoding is a run of the cursor over the bits of the input. -/
theorem decode_eq (checks : Bool) (record : Record fields) (bytes : List UInt8) :
    record.decode checks bytes =
      let read := record.run (Cursor.stream checks) .empty (.start (bitsOfBytes bytes))
      read.result >>= fun _ => read.state.finish.result >>= fun _ => .ok read.value := by
  have run := record.run_reader checks .empty (Reader.ofBytes_at bytes)
  have finish := Reader.finish_at run.state
  simp only [decode,run.result,run.value,finish.result]
  rfl

theorem decode_eq_ok {checks : Bool} {record received : Record fields} {bytes : List UInt8} :
    let read := record.run (Cursor.stream checks) .empty (.start (bitsOfBytes bytes))
    record.decode checks bytes = .ok received ↔
      read.result = .ok () ∧ read.state.finish.result = .ok () ∧ read.value = received := by
  intro read
  rw [decode_eq]
  change (read.result >>= fun _ => read.state.finish.result >>= fun _ => .ok read.value) = _ ↔ _
  constructor
  · intro decoded
    cases result : read.result with
    | error failure => rw [result] at decoded; cases decoded
    | ok =>
      cases finish : read.state.finish.result with
      | error failure => rw [result,finish] at decoded; cases decoded
      | ok => rw [result,finish] at decoded; exact ⟨rfl,rfl,Except.ok.inj decoded⟩
  · rintro ⟨result,finish,value⟩
    rw [result,finish,value]
    rfl

/-- Decoding fails with the run, or with the end of it. -/
theorem decode_rejected {checks : Bool} {target : Record fields} {bytes : List UInt8}
    {error : Error}
    (failed : ((target.run (Cursor.stream checks) .empty (.start (bitsOfBytes bytes))).andThen ()
      fun _ c => c.finish).result = reject error) : target.decode checks bytes = reject error := by
  rw [decode_eq]
  unfold Step.andThen at failed
  split at failed
  · next ended =>
    simp only [ended,failed]
    rfl
  · next failure ended =>
    simp only [ended]
    cases failed
    rfl

end Record
end Bitwire
