import Bitwire.Proofs.Roles
import Bitwire.Proofs.Truncation

/-! Messages with changes in bits that carry no value. A reader follows the message up to the first
change, and there the role of the bit decides how it ends. -/
namespace Bitwire

/-- The first bit in which another input differs. -/
structure FirstChange (bits other : List Bool) (i : Nat) : Prop where
  follows : other.take i = bits.take i
  differs : other[i]? ≠ bits[i]?

/-- No bit of a value was changed. -/
def SparesPayload (roles : List Role) (bits other : List Bool) : Prop :=
  ∀ i : Nat, other[i]? ≠ bits[i]? → roles[i]? ≠ some .payload

namespace FirstChange
variable {bits other later : List Bool} {i : Nat}

theorem of_ne (changed : other ≠ bits) : ∃ i, FirstChange bits other i := by
  have some : ∃ i : Nat, other[i]? ≠ bits[i]? := by
    by_contra same
    push Not at same
    exact changed (List.ext_getElem? same)
  refine ⟨Nat.find some,List.ext_getElem? fun j => ?_,Nat.find_spec some⟩
  by_cases before : j < Nat.find some
  · have same := Nat.find_min some before
    rw [List.getElem?_take_of_lt before,List.getElem?_take_of_lt before]
    exact not_not.mp same
  · simp only [List.getElem?_take,if_neg before]

/-- Changes behind the first are no matter. -/
theorem congr (h : FirstChange bits other i) {n : Nat} (before : i < n)
    (same : later.take n = other.take n) : FirstChange bits later i where
  follows := by
    have part := congrArg (List.take i) same
    rw [List.take_take,List.take_take,Nat.min_eq_left before.le] at part
    rw [part,h.follows]
  differs := by
    have part := congrArg (·[i]?) same
    simp only [List.getElem?_take_of_lt before] at part
    rw [part]
    exact h.differs

end FirstChange

namespace Cursor
variable {α β : Type} {c : Cursor} {first second : List Bool} {i : Nat}

/-- Some bits were expected ahead, and as many lie there, but one of them differs. -/
structure Departs (c : Cursor) (wire : List Bool) (i : Nat) : Prop extends
    FirstChange wire c.rest i where
  inside : i < wire.length
  enough : wire.length ≤ c.rest.length
  counted : c.position + wire.length < 2^64

theorem Departs.front (h : c.Departs (first ++ second) i) (here : i < first.length) :
    c.Departs first i := by
  obtain ⟨⟨follows,differs⟩,-,enough,counted⟩ := h
  rw [List.length_append] at enough counted
  rw [List.take_append_of_le_length here.le] at follows
  rw [List.getElem?_append_left here] at differs
  exact ⟨⟨follows,differs⟩,here,by omega,by omega⟩

theorem Departs.back (h : c.Departs (first ++ second) i) (later : first.length ≤ i) :
    c.Sees first ∧ (c.skip first.length).Departs second (i - first.length) := by
  obtain ⟨⟨follows,differs⟩,inside,enough,counted⟩ := h
  rw [List.length_append] at inside enough counted
  have passed : c.rest.take first.length = first := by
    have part := congrArg (List.take first.length) follows
    rwa [List.take_take,List.take_take,Nat.min_eq_left later,List.take_left] at part
  have follows' := congrArg (List.drop first.length) follows
  rw [List.drop_take,List.drop_take,List.drop_left] at follows'
  have place : first.length + (i - first.length) = i := by omega
  rw [List.getElem?_append_right later] at differs
  refine ⟨⟨passed ▸ List.take_prefix _ _,by omega⟩,⟨?_,?_⟩,by omega,?_,?_⟩
  · rw [skip_rest,follows']
  · rwa [skip_rest,List.getElem?_drop,place]
  · rw [skip_rest,List.length_drop]
    omega
  · rw [skip_position]
    omega

/-- A reader that meets a changed bit ends as the role of the bit says. -/
def Objects (c : Cursor) (wire : List Bool) (roles : List Role) (step : Step Cursor α) : Prop :=
  ∀ i role error, c.Departs wire i → roles[i]? = some role →
    role.verdict c.bits (c.position + i) = some error → step.result = reject error

variable {roles roles' : List Role} {step : Step Cursor α}

/-- Where all is payload nothing is checked. -/
theorem objects_payload (wire : List Bool) (n : Nat) (step : Step Cursor α) :
    c.Objects wire (Roles.payload n) step := by
  intro i role error _ here decided
  obtain rfl : role = .payload := List.eq_of_mem_replicate (List.mem_of_getElem? here)
  cases decided

theorem Objects.andThen (h : c.Objects first roles step) (length : roles.length = first.length)
    {kept : β} {go : α → Cursor → Step Cursor β}
    (next : c.Sees first → ∃ value, step = .done value (c.skip first.length) ∧
      (c.skip first.length).Objects second roles' (go value (c.skip first.length))) :
    c.Objects (first ++ second) (roles ++ roles') (step.andThen kept go) := by
  intro i role error departs here decided
  by_cases early : i < first.length
  · rw [List.getElem?_append_left (by omega)] at here
    have ended := h i role error (departs.front early) here decided
    rw [Step.andThen,ended]
    rfl
  · obtain ⟨sees,departs⟩ := departs.back (by omega)
    obtain ⟨value,done,next⟩ := next sees
    rw [List.getElem?_append_right (by omega),length] at here
    have place : first.length + (i - first.length) = i := by omega
    rw [done,Step.andThen_done]
    apply next _ role error departs here
    rwa [skip_position,Nat.add_assoc,place]

/-- What is kept after a failure is no matter here. -/
theorem Objects.chain (h : c.Objects first roles step) (length : roles.length = first.length)
    {place : α → β} {go : α → Cursor → Step Cursor β}
    (next : c.Sees first → ∃ value, step = .done value (c.skip first.length) ∧
      (c.skip first.length).Objects second roles' (go value (c.skip first.length))) :
    c.Objects (first ++ second) (roles ++ roles') (step.chain place go) :=
  (show c.Objects _ _ (step.andThen (place step.value) go) from h.andThen length next)

/-- What follows is not reached. -/
theorem Objects.early {wire : List Bool} (h : c.Objects wire roles step) {kept : β}
    {go : α → Cursor → Step Cursor β} : c.Objects wire roles (step.andThen kept go) := by
  intro i role error departs here decided
  rw [Step.andThen,h i role error departs here decided]
  rfl

theorem Objects.extend (h : c.Objects first roles step) (length : roles.length = first.length)
    (n : Nat) : c.Objects (first ++ second) (roles ++ Roles.payload n) step := by
  intro i role error departs here decided
  by_cases early : i < first.length
  · rw [List.getElem?_append_left (by omega)] at here
    exact h i role error (departs.front early) here decided
  · rw [List.getElem?_append_right (by omega)] at here
    obtain rfl : role = .payload := List.eq_of_mem_replicate (List.mem_of_getElem? here)
    cases decided

/-- The changed bits are there to be taken. -/
theorem Departs.take {wire : List Bool} (h : c.Departs wire i) :
    c.take wire.length = .ok (c.rest.take wire.length,c.skip wire.length) := by
  have length := List.length_take_of_le h.enough
  exact take_of_sees length ⟨List.take_prefix _ _,length.symm ▸ h.counted⟩

theorem Departs.bit {wire : List Bool} (h : c.Departs wire i) {b : Bool} (was : wire[i]? = some b) :
    (c.rest.take wire.length)[i]? = some !b := by
  have inside := Nat.lt_of_lt_of_le h.inside h.enough
  have differs := h.differs
  rw [was,List.getElem?_eq_getElem inside,ne_eq,Option.some.injEq] at differs
  rw [List.getElem?_take_of_lt h.inside,List.getElem?_eq_getElem inside,Bool.eq_not.mpr differs]

theorem padding_objects :
    c.Objects (zeroPadding c.position) (Roles.padding c.position) c.skipPadding := by
  intro i role error departs here decided
  obtain rfl : role = .padding := List.eq_of_mem_replicate (List.mem_of_getElem? here)
  obtain rfl := Option.some.inj decided
  have zero : (zeroPadding c.position)[i]? = some false :=
    List.getElem?_replicate_of_lt (by simpa using departs.inside)
  have set := departs.bit zero
  have taken := departs.take
  rw [zeroPadding_length] at set taken
  have found : (c.rest.take (padding c.position)).any id = true :=
    List.any_eq_true.mpr ⟨true,List.mem_of_getElem? set,rfl⟩
  rw [skipPadding,taken,Step.given_ok]
  simp only [found]
  rfl

theorem finish_objects (c : Cursor) :
    c.Objects (zeroPadding c.position) (Roles.padding c.position) c.finish := padding_objects.early

theorem sentinel_objects :
    c.Objects (bitsOf 32 checkWord.toNat) Roles.sentinel
      (Step.given (c.take 32) () c fun (bits,c) =>
        if word bits = checkWord then .done () c
        else .fail () c (.error (.checkFailed checkWord (word bits)))) := by
  intro i role error departs here decided
  have taken := departs.take
  have inside := departs.inside
  have some := departs.bit (List.getElem?_eq_getElem inside)
  rw [bitsOf_length] at taken inside some
  have length : (c.rest.take 32).length = 32 :=
    List.length_take_of_le (by simpa using departs.enough)
  rw [Roles.sentinel,List.getElem?_ofFn,dif_pos inside] at here
  obtain rfl := Option.some.inj here
  simp only [Role.verdict,Nat.add_sub_cancel] at decided
  obtain rfl := Option.some.inj decided
  have other : word (c.rest.take 32) ≠ checkWord := by
    intro same
    have back := bitsOf_word length.le
    rw [same,length] at back
    rw [← back,List.getElem?_eq_getElem departs.inside] at some
    simp at some
  rw [taken,Step.given_ok]
  simp only [if_neg other]
  rfl

variable (checks : Bool)

theorem check_objects :
    c.Objects (if checks then Wire.check c.position else [])
      (if checks then Roles.check c.position else []) ((stream checks).check c) := by
  cases checks with
  | false => exact objects_payload [] 0 _
  | true =>
    simp only [stream,if_true]
    refine padding_objects.andThen (by simp) fun sees => ⟨(),?_,sentinel_objects⟩
    exact reads_padding.accepts () trivial sees

theorem bytes_objects (data : List UInt8) (length : Nat) {n : Nat} (kept : Vector UInt8 n) :
    c.Objects (Wire.bytes c.position data) (Roles.bytes c.position length)
      ((stream checks).bytes kept c) := by
  have start : c.Objects (zeroPadding c.position) (Roles.padding c.position)
    ((stream checks).bytes kept c) := padding_objects.early
  exact start.extend (by simp) _

/-- The padding is skipped by the first run. -/
theorem gather_objects (data : List UInt8) (length last full : Nat)
    (buffer : Vector UInt8 Text.runLength) (gathered : Array UInt8) :
    c.Objects (Wire.bytes c.position data) (Roles.bytes c.position length)
      (Directive.gather (stream checks) last full buffer gathered c) := by
  cases full with
  | zero => exact bytes_objects checks data length (buffer.take last)
  | succ full => exact (bytes_objects checks data length buffer).early

theorem text_objects {size : Nat} {value : String} (kept : String)
    (permitted : (2 ≤ size ∧ size ≤ 2^31) ∧ value.utf8ByteSize ≤ size - 1) :
    c.Objects (Wire.text size c.position value) (Roles.text size c.position value)
      (Directive.text (stream checks) size kept c) := by
  obtain ⟨exact,between⟩ := Text.length_between permitted.1 permitted.2
  simp only [Roles.text,← Wire.integer_length 0 (Int32.ofNat (size - 1)) value.utf8ByteSize]
  rw [text_eq,Text.maxLength_of_proper permitted.1,Step.given_ok]
  refine (objects_payload _ _ _).andThen (Roles.payload_length _) fun sees => ?_
  rw [← exact] at sees ⊢
  refine ⟨_,(int_reads checks 0 _ (0 : Int32)).accepts _ between sees,?_⟩
  exact (gather_objects checks _ _ _ _ _ _).early

theorem address_objects (F : AddressFormat α) (kept : α) {value : α}
    (short : (F.write value).utf8ByteSize ≤ 255) :
    c.Objects (Wire.text AddressFormat.bufferSize c.position (F.write value))
      (Roles.text AddressFormat.bufferSize c.position (F.write value))
      (Directive.address (stream checks) F kept c) := by
  rw [address_eq]
  exact (text_objects checks "" ⟨by decide,short⟩).early

end Cursor

/-- Every kind of leaf looks at all its bits that are no payload. -/
theorem Leaf.run_objects (checks : Bool) (scope : Scope) {c : Cursor} (kind : Leaf)
    (kept value : kind.Value) (permits : kind.Permits scope value) :
    c.Objects (kind.wire checks scope c.position value) (kind.roles checks scope c.position value)
      (kind.run (Cursor.stream checks) scope kept c) := by
  cases kind with
  | bytes length => exact Cursor.bytes_objects checks _ length kept
  | text size => exact Cursor.text_objects checks kept permits
  | align => exact Cursor.padding_objects
  | check => exact Cursor.check_objects checks
  | address type => exact Cursor.address_objects checks type.format kept permits.2
  | _ => exact Cursor.objects_payload _ _ _

/-- A skipped field has no bits. -/
theorem Field.Value.run_objects {checks : Bool} {scope scope' : Scope} {c : Cursor} {field : Field}
    (free : field.IsModeFree) {value target : field.Value}
    (choice : field.isSent scope = field.isSent scope')
    (pass : field.isSent scope → c.Objects (value.wire checks scope c.position)
      (value.roles checks scope c.position) (target.pass (Cursor.stream checks) scope' c)) :
    c.Objects (if field.isSent scope then value.wire checks scope c.position else [])
      (if field.isSent scope then value.roles checks scope c.position else [])
      (target.run (Cursor.stream checks) scope' c) := by
  unfold Field.Value.run Tag.guarded
  rw [free,← choice]
  by_cases sent : field.isSent scope = true
  · simp only [if_pos sent]
    exact pass sent
  · simp only [if_neg sent]
    exact Cursor.objects_payload [] 0 _

mutual
theorem Field.Value.pass_objects {checks : Bool} {scope scope' : Scope} {c : Cursor} :
    {field : Field} → field.Throughout Field.IsModeFree →
    (value : field.Value) → (target : field.Value) → value.Settled scope scope' →
    value.Meets Leaf.Fits scope →
    c.Objects (value.wire checks scope c.position) (value.roles checks scope c.position)
      (target.pass (Cursor.stream checks) scope' c)
  | .leaf _ kind, _, .leaf value, .leaf target, settled, meets => by
      have leaf := kind.run_objects checks scope (c := c) target value meets.1
      rwa [Leaf.run_congr _ settled] at leaf
  | .object _ .static _, free, .object record, .object target, settled, meets =>
      record.run_objects free.2 target settled meets
  | .object _ .dynamic _, free, .object record, .object target, settled, meets =>
      record.run_objects free.2 target settled meets
/-- A whole run ends at the first changed bit that is no payload, since the fields before it
arrive as they were sent. -/
theorem Record.run_objects {checks : Bool} {finished finished' : Scope} {c : Cursor} :
    {fields : List Field} → Throughout Field.IsModeFree fields →
    (record : Record fields) → (target : Record fields) →
    (∀ other, record.Coherent finished finished' other) → record.Meets Leaf.Fits finished →
    c.Objects (record.wire checks finished c.position) (record.roles checks finished c.position)
      (target.run (Cursor.stream checks) finished' c)
  | [], _, .nil, .nil, _, _ => Cursor.objects_payload [] 0 _
  | field::_, free, .cons value rest, .cons other others, coherent, meets => by
      have choice := (Record.coherent_cons (coherent (.cons other others))).1
      have settled := fun sent => Record.settled_value coherent sent other others
      rw [Record.run_cons,Record.wire,Record.roles]
      apply (Field.Value.run_objects free.1.here choice fun sent =>
        value.pass_objects free.1 other (settled sent) (meets.1 sent)).chain
      · split
        · exact value.roles_length checks _ _
        · rfl
      intro sees
      obtain ⟨received,run,same⟩ := Field.Value.run_received free.1.here other choice sees
        fun sent sees => value.pass_received free.1 other (settled sent) (meets.1 sent) sees
      refine ⟨received,run,?_⟩
      exact rest.run_objects free.2 others (fun more =>
        (Record.coherent_cons (coherent (.cons received more))).2.2 same) meets.2
end

namespace Record
variable {checks : Bool} {fields : List Field} {sent : Record fields} {bytes : List UInt8}

theorem messageRoles_length (checks : Bool) (record : Record fields) :
    (record.messageRoles checks).length =
      8*bytesFor (record.wire checks .empty 0).length := by
  rw [messageRoles,List.length_append,record.roles_length,Roles.padding_length,bytesFor_eq]

theorem message_objects (free : Throughout Field.IsModeFree fields) (causal : Causal fields)
    (meets : sent.Meets Leaf.Fits .empty) (target : Record fields) (bits : List Bool) :
    (Cursor.start bits).Objects
      (sent.wire checks .empty 0 ++ zeroPadding (sent.wire checks .empty 0).length)
      (sent.messageRoles checks)
      ((target.run (Cursor.stream checks) .empty (.start bits)).andThen () fun _ c =>
        c.finish) := by
  have fields : (Cursor.start bits).Objects (sent.wire checks .empty 0)
      (sent.roles checks .empty 0) (target.run (Cursor.stream checks) .empty (.start bits)) :=
    sent.run_objects free target (causal sent) meets
  refine fields.andThen (sent.roles_length _ _ _) fun sees => ?_
  obtain ⟨received,run,-⟩ := sent.run_received free target (causal sent) meets sees
  have finish := ((Cursor.start bits).skip (sent.wire checks .empty 0).length).finish_objects
  rw [show ((Cursor.start bits).skip (sent.wire checks .empty 0).length).position = _ from
    Nat.zero_add _] at finish
  exact ⟨received,run,finish⟩

theorem decode_changed (free : Throughout Field.IsModeFree fields) (causal : Causal fields)
    (meets : sent.Meets Leaf.Fits .empty)
    (bits : bitsOfBytes bytes = sent.wire checks .empty 0 ++
      zeroPadding (sent.wire checks .empty 0).length)
    (room : 8*bytesFor (sent.wire checks .empty 0).length < 2^64) {other : List UInt8}
    (length : other.length = bytes.length) {i : Nat} {role : Role} {error : Error}
    (first : FirstChange (bitsOfBytes bytes) (bitsOfBytes other) i)
    (here : (sent.messageRoles checks)[i]? = some role)
    (decided : role.verdict (bitsOfBytes other) i = some error) (target : Record fields) :
    target.decode checks other = reject error := by
  have inside := (List.getElem?_eq_some_iff.mp here).1
  have size := congrArg List.length bits
  rw [messageRoles_length] at inside
  rw [List.length_append,zeroPadding_length,← bytesFor_eq] at size
  have ahead : (Cursor.start (bitsOfBytes other)).rest.length = 8*bytes.length := by
    rw [← length]
    exact bitsOfBytes_length other
  rw [bitsOfBytes_length] at size
  rw [bits] at first
  refine decode_rejected (message_objects free causal meets target _ i role error ?_ here ?_)
  · refine ⟨first,?_,?_,?_⟩
    · rwa [List.length_append,zeroPadding_length,← bytesFor_eq]
    · rw [List.length_append,zeroPadding_length,← bytesFor_eq,ahead,size]
    · rw [List.length_append,zeroPadding_length,← bytesFor_eq]
      exact (Nat.zero_add _).symm ▸ room
  · rwa [Cursor.start,Nat.zero_add]

/-- A message without flow labels, changed in bits that are no payload, is never taken for a
message. The first region that was changed decides how the reader ends, whatever else is changed
behind it. -/
theorem decode_altered (checks : Bool) (free : Throughout Field.IsModeFree fields)
    (causal : Causal fields) (sent : Record fields) (meets : sent.Meets Leaf.Fits .empty)
    (counted : ∀ size, sent.measure checks = .ok size → 8*bytesFor size < 2^64) :
    ∃ bytes, sent.encode checks = .ok bytes ∧
      (sent.messageRoles checks).length = 8*bytes.length ∧
      ∀ other : List UInt8, other.length = bytes.length → other ≠ bytes →
        SparesPayload (sent.messageRoles checks) (bitsOfBytes bytes) (bitsOfBytes other) →
        ∃ i role error, FirstChange (bitsOfBytes bytes) (bitsOfBytes other) i ∧
          (sent.messageRoles checks)[i]? = some role ∧
          role.verdict (bitsOfBytes other) i = some error ∧
          (∀ target : Record fields, target.decode checks other = reject error) ∧
          ∀ later : List UInt8, later.length = bytes.length →
            (bitsOfBytes later).take (role.reach i) = (bitsOfBytes other).take (role.reach i) →
            ∀ target : Record fields, target.decode checks later = reject error := by
  obtain ⟨bytes,encoded,bits⟩ := encode_sent checks free meets.permits
  have room := counted _ (measure_sent checks free meets.permits)
  have length : (sent.messageRoles checks).length = 8*bytes.length := by
    rw [messageRoles_length,bytesFor_eq,← bitsOfBytes_length,bits,List.length_append,
      zeroPadding_length]
  refine ⟨bytes,encoded,length,fun other same changed spared => ?_⟩
  obtain ⟨i,first⟩ := FirstChange.of_ne fun same => changed (bitsOfBytes_inj same)
  have inside : i < (sent.messageRoles checks).length := by
    by_contra beyond
    apply first.differs
    rw [List.getElem?_eq_none,List.getElem?_eq_none] <;> rw [bitsOfBytes_length] <;> omega
  obtain ⟨role,here⟩ : ∃ role, (sent.messageRoles checks)[i]? = some role :=
    ⟨_,List.getElem?_eq_getElem inside⟩
  obtain ⟨error,decided⟩ : ∃ error, role.verdict (bitsOfBytes other) i = some error := by
    cases role with
    | payload => exact absurd here (spared i first.differs)
    | padding => exact ⟨_,rfl⟩
    | sentinel place => exact ⟨_,rfl⟩
  refine ⟨i,role,error,first,here,decided,?_,fun later same' alike => ?_⟩
  · exact decode_changed free causal meets bits room same first here decided
  · have first' := first.congr (role.lt_reach i) alike
    apply decode_changed free causal meets bits room same' first' here
    rwa [Role.verdict_congr alike]

theorem decode_altered_update :
    let sent := (Update.mk 65535 2 100 true 0x40490fdb "Ada").toRecord
    ∃ bytes, sent.encode true = .ok bytes ∧
      (sent.messageRoles true).length = 8*bytes.length ∧
      ∀ other : List UInt8, other.length = bytes.length → other ≠ bytes →
        SparesPayload (sent.messageRoles true) (bitsOfBytes bytes) (bitsOfBytes other) →
        ∃ i role error, FirstChange (bitsOfBytes bytes) (bitsOfBytes other) i ∧
          (sent.messageRoles true)[i]? = some role ∧
          role.verdict (bitsOfBytes other) i = some error ∧
          (∀ target : Record Update.fields, target.decode true other = reject error) ∧
          ∀ later : List UInt8, later.length = bytes.length →
            (bitsOfBytes later).take (role.reach i) = (bitsOfBytes other).take (role.reach i) →
            ∀ target : Record Update.fields, target.decode true later = reject error := by
  intro sent
  have size : sent.measure true = .ok 136 := by decide +kernel
  have meets : sent.Meets Leaf.Fits .empty := Update.toRecord_fits (by decide) (by decide)
  refine decode_altered true Update.fields_free Update.fields_causal sent meets
    fun found measured => ?_
  rw [← Except.ok.inj (size.symm.trans measured)]
  decide

/-- In the message above, a set bit before the name and another one in the check word. -/
example : Update.decode true
    [255,255,4,0,200,183,31,146,128,70,65,100,97,121,86,52,18] = reject .invalidPadding := by
  decide +kernel

example : Update.decode true
    [255,255,4,0,200,183,31,146,128,6,65,100,97,121,86,52,255] =
      reject (.checkFailed checkWord 0xff345679) := by
  decide +kernel

/-- Behind an address with a flow label the writer sends a check that a reader, who finds no label,
does not make. A changed bit of its word does not show, only that there are bytes left. -/
theorem decode_altered_labelled :
    let sent := labelled .check ()
    let bytes : List UInt8 := [7,0x5b,0x3a,0x3a,0x31,0x5d,0x3a,0x31,0x78,0x56,0x34,0x12]
    let other : List UInt8 := [7,0x5b,0x3a,0x3a,0x31,0x5d,0x3a,0x31,0x79,0x56,0x34,0x12]
    let target := Record.initial (labelledFields .check)
    Throughout Field.IsModeFree (labelledFields .check) ∧ Causal (labelledFields .check) ∧
      sent.Meets Leaf.Permits .empty ∧ sent.encode true = .ok bytes ∧
      SparesPayload (sent.messageRoles true) (bitsOfBytes bytes) (bitsOfBytes other) ∧
      FirstChange (bitsOfBytes bytes) (bitsOfBytes other) 64 ∧
      (sent.messageRoles true)[64]? = some (.sentinel 0) ∧
      (Role.sentinel 0).verdict (bitsOfBytes other) 64 = some (.checkFailed checkWord 0x12345679) ∧
      target.decode true other = reject (.extraData 4) := by
  refine ⟨labelledFields_free .check,labelledFields_causal fun _ _ => rfl,?_,?_,?_,?_,?_,?_,?_⟩
  · exact labelled_permits fun _ => trivial
  · decide +kernel
  · intro i differs
    by_cases inside : i < 96
    · revert differs
      revert i
      decide +kernel
    · rw [List.getElem?_eq_none]
      · nofun
      · refine Nat.le_trans ?_ (Nat.not_lt.mp inside)
        decide +kernel
  · exact ⟨by decide,by decide⟩
  · decide +kernel
  · decide +kernel
  · rfl

end Record
end Bitwire
