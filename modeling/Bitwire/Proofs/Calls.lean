import Bitwire.Proofs.Causal
import Bitwire.Stream.Recording

/-! The calls that writing makes, said without a stream. A recorder that accepts every call is left
with just these, whether it writes or measures. -/
namespace Bitwire

namespace Calls

def flag (set : Bool) : Call := .bits (if set then 1 else 0) 1

/-- The length in bytes, then the bytes. -/
def text (size : Nat) (value : String) : List Call :=
  [.integer (Int32.ofNat value.utf8ByteSize) 0 (Int32.ofNat (size - 1)),
    .bytes value.toUTF8.data.toList]

/-- A flag for each bucket up to the one that holds the difference, then the difference. -/
def bucketed (current difference : UInt32) : List Bucket → List Call
  | [] => [.bits current 32]
  | b::rest =>
      if difference.toNat ≤ b.max.toNatClampNeg
        then [flag true,.integer (Int32.ofInt difference.toNat) b.min b.max]
        else flag false::bucketed current difference rest

def relative (previous current : UInt32) : List Call :=
  if current - previous = 1 then [flag true]
  else flag false::bucketed current (current - previous) Relative.buckets

def ackRelative (sequence ack : UInt16) : List Call :=
  if Relative.behind sequence ack ≤ 64
    then [flag true,.integer (Int32.ofNat (Relative.behind sequence ack)) 1 Relative.maxAckDelta]
    else [flag false,.bits (lowBits 16 ack.toUInt32) 16]

def sequenceRelative (first second : UInt16) : List Call :=
  relative first.toUInt32 (Relative.unwrap first second)

end Calls

/-- The calls that a value makes of a writer. -/
def Leaf.calls (scope : Scope) : (kind : Leaf) → kind.Value → List Call
  | int _ min max, value =>
      [.integer (Int32.ofInt (IntTarget.toInt value)) (Int32.ofInt (min scope))
        (Int32.ofInt (max scope))]
  | rawInt min max, value => [.integer value (Int32.ofInt (min scope)) (Int32.ofInt (max scope))]
  | bits _ count, value =>
      [.bits (lowBits (count scope).toNat (BitsTarget.toWord value)) (count scope).toNat]
  | rawBits count, value => [.bits value (count scope).toNat]
  | bool, value => [Calls.flag value]
  | u32, value | float, value => [.bits value 32]
  | u64, value | double, value =>
      [.bits (UInt64.toUInt32 value) 32,.bits (UInt64.toUInt32 (value >>> (32 : UInt64))) 32]
  | bytes _, value => [.bytes (Vector.toList value)]
  | text size, value => Calls.text (size scope).toNat value
  | align, _ => [.align]
  | check, _ => [.check]
  | address type, value => Calls.text AddressFormat.bufferSize (type.format.write value)
  | relative previous, value => Calls.relative (UInt32.ofInt (previous scope)) value
  | ackRelative sequence, value => Calls.ackRelative (UInt16.ofInt (sequence scope)) value
  | sequenceRelative first, value => Calls.sequenceRelative (UInt16.ofInt (first scope)) value

mutual
/-- The calls of a field sent in a scope. -/
def Field.Value.calls (scope : Scope) : {field : Field} → field.Value → List Call
  | .leaf _ kind, .leaf value => kind.calls scope value
  | .object .., .object record => record.calls .empty
/-- The calls of all fields that are sent. -/
def Record.calls (finished : Scope) : {fields : List Field} → Record fields → List Call
  | [], .nil => []
  | field::_, .cons value rest =>
      let scope := finished.orElse (Record.cons value rest).scope
      (if field.isSent scope then value.calls scope else []) ++
        rest.calls (finished.orElse value.scope)
end

/-- No part of the object is of a type that only the stream knows. -/
def Field.IsStatic : Field → Prop
  | .leaf .. => True
  | .object _ dispatch _ => dispatch = .static

namespace Recorder

/-- What has recorded some calls and accepts any more. -/
def log (calls : List Call) : Recorder := ⟨calls.toArray,[]⟩

variable {α : Type} (mode : Mode) (l : List Call)

theorem reply_log (call : Call) (value : α) (change : Answer → α) :
    (log l).reply call value change = .done (change .accept) (log (l ++ [call])) := by
  simp only [log,← List.push_toArray]
  rfl

theorem integer_log (min max value : Int32) : (stream mode).integer min max value (log l) =
    .done value (log (l ++ [.integer value min max])) := by
  simp only [stream,reply_log]

theorem bits_log (count : Nat) (value : UInt32) : (stream mode).bits count value (log l) =
    .done value (log (l ++ [.bits value count])) := by
  simp only [stream,reply_log]

theorem align_log : (stream mode).align (log l) = .done () (log (l ++ [.align])) := by
  simp only [stream,reply_log]

theorem check_log : (stream mode).check (log l) = .done () (log (l ++ [.check])) := by
  simp only [stream,reply_log]

variable {mode} (writing : mode.isReading = false)
include writing

theorem bytes_log {n : Nat} (data : Vector UInt8 n) : (stream mode).bytes data (log l) =
    .done data (log (l ++ [.bytes data.toList])) := by
  simp only [stream,reply_log,writing,Bool.false_eq_true,if_false]

theorem store_log (kept : α) (s : Recorder) (decoded : Outcome α) :
    Directive.store (stream mode) kept s decoded = .done kept s := by
  rw [Directive.store,show (stream mode).mode.isReading = false from writing]
  rfl

theorem int_log [IntTarget α] {min max : Int32} {value : α}
    (h : Between min max (IntTarget.toInt value)) :
    Directive.int (stream mode) min max value (log l) =
      .done value (log (l ++ [.integer (Int32.ofInt (IntTarget.toInt value)) min max])) := by
  have inside := (Range.contains_iff ⟨min,max,h.1⟩ (IntTarget.toInt value)).mpr h.2
  rw [Directive.int,Range.ofBounds_of_lt h.1,Step.given_ok,
    show (stream mode).mode.isReading = false from writing,if_neg Bool.false_ne_true,Range.permit,
    if_pos inside,Step.given_ok,integer_log,Step.andThen_done,store_log writing]

theorem bitRun_log [BitsTarget α] {count : Nat} (h : 1 ≤ count ∧ count ≤ 32) (value : α) :
    Directive.bits (stream mode) count value (log l) =
      .done value (log (l ++ [.bits (lowBits count (BitsTarget.toWord value)) count])) := by
  rw [Directive.bits,permitCount,if_pos h,Step.given_ok]
  simp only [show (stream mode).mode.isReading = false from writing,Bool.false_eq_true,if_false,
    bits_log,Step.andThen_done,store_log writing]

theorem bool_log (value : Bool) : Directive.bool (stream mode) value (log l) =
    .done value (log (l ++ [Calls.flag value])) := by
  rw [Directive.bool,bits_log,Step.andThen_done,store_log writing]
  rfl

theorem u64_log (value : UInt64) : Directive.u64 (stream mode) value (log l) =
    .done value (log (l ++ [.bits value.toUInt32 32,.bits (value >>> 32).toUInt32 32])) := by
  rw [Directive.u64,bits_log,Step.andThen_done,bits_log,Step.andThen_done,store_log writing,
    List.append_assoc]
  rfl

theorem text_log {size : Nat} {value : String} (proper : 2 ≤ size ∧ size ≤ 2^31)
    (fits : value.utf8ByteSize ≤ size - 1) : Directive.text (stream mode) size value (log l) =
      .done value (log (l ++ Calls.text size value)) := by
  obtain ⟨length,inside⟩ := Text.length_between proper fits
  have same : Int32.ofInt (IntTarget.toInt (Int32.ofNat value.utf8ByteSize)) =
      Int32.ofNat value.utf8ByteSize := Int32.ofInt_toInt _
  have kept : Text.ofUtf8? (Text.utf8 value).toArray = some value :=
    Text.ofUtf8?_eq_some.mpr rfl
  rw [Directive.text,Text.maxLength_of_proper proper,Step.given_ok,
    show (stream mode).mode.isReading = false from writing,if_neg Bool.false_ne_true,
    Text.permitLength_of_le proper.2 fits,Step.given_ok,int_log l writing inside,Step.andThen_done,
    if_neg Bool.false_ne_true,bytes_log _ writing,same,List.append_assoc]
  simp only [Step.done,kept]
  rfl

theorem address_log {F : AddressFormat α} {value : α} (valid : F.isValid value = true)
    (fits : (F.write value).utf8ByteSize ≤ 255) :
    Directive.address (stream mode) F value (log l) =
      .done value (log (l ++ Calls.text AddressFormat.bufferSize (F.write value))) := by
  rw [Directive.address,show (stream mode).mode.isReading = false from writing,
    if_neg Bool.false_ne_true,AddressFormat.permit,if_pos valid,Step.given_ok,
    text_log l writing (by decide) fits,Step.andThen_done,store_log writing]

/-- With the buckets before ruled out, the first that reaches the difference holds it. -/
theorem bucketed_log (previous current difference : UInt32) {low : Nat} {buckets : List Bucket}
    (contiguous : Bucket.Contiguous low buckets) (above : low ≤ difference.toNat) :
    Directive.bucketed (stream mode) previous current difference buckets (log l) =
      .done current (log (l ++ Calls.bucketed current difference buckets)) := by
  induction buckets generalizing low l with
  | nil => rw [Directive.bucketed,Directive.u32,bits_log,Step.andThen_done,store_log writing]; rfl
  | cons b rest ih =>
    obtain ⟨proper,start,contiguous⟩ := contiguous
    rw [Directive.bucketed,bool_log l writing,Step.andThen_done,Calls.bucketed]
    by_cases inside : difference.toNat ≤ b.max.toNatClampNeg
    · rw [if_pos (decide_eq_true inside),if_pos inside,decide_eq_true inside,
        int_log _ writing (Bucket.between proper start above inside),Step.andThen_done,
        store_log writing,List.append_assoc]
      rfl
    · rw [if_neg (by simpa using inside),if_neg inside,decide_eq_false inside,
        ih _ contiguous (by omega),List.append_assoc]
      rfl

theorem relative_log {previous current : UInt32} (h : previous < current) :
    Directive.relative (stream mode) previous current (log l) =
      .done current (log (l ++ Calls.relative previous current)) := by
  have apart := Relative.sub_toNat (UInt32.le_iff_toNat_le.mp (UInt32.le_of_lt h))
  have more := UInt32.lt_iff_toNat_lt.mp h
  rw [Directive.relative,Relative.difference,show (stream mode).mode.isReading = false from writing,
    if_neg Bool.false_ne_true,if_pos h,Step.given_ok,bool_log l writing,Step.andThen_done,
    Calls.relative]
  by_cases one : current - previous = 1
  · rw [one,store_log writing]
    rfl
  · have above : 2 ≤ (current - previous).toNat := by
      have : (current - previous).toNat ≠ 1 := fun same => one (UInt32.toNat_inj.mp same)
      omega
    rw [if_neg (by simpa using one),if_neg one,beq_false_of_ne one,
      bucketed_log _ writing previous current _ Relative.buckets_contiguous above,
      List.append_assoc]
    rfl

theorem ackRelative_log (sequence ack : UInt16) :
    Directive.ackRelative (stream mode) sequence ack (log l) =
      .done ack (log (l ++ Calls.ackRelative sequence ack)) := by
  have far := (Relative.behind_bounds sequence ack).2
  have delta : (Int32.ofNat (Relative.behind sequence ack)).toInt =
      Relative.behind sequence ack := Int32.toInt_ofNat_of_lt (by omega)
  have near : decide (Int32.ofNat (Relative.behind sequence ack) ≤ Relative.maxAckDelta) =
      decide (Relative.behind sequence ack ≤ 64) := by
    rw [decide_eq_decide,Int32.le_iff_toInt_le,delta]
    exact Int.ofNat_le
  simp only [Directive.ackRelative,show (stream mode).mode.isReading = false from writing,
    Bool.not_false,Bool.true_and,Bool.false_eq_true,if_false,near,bool_log l writing,
    Step.andThen_done,Calls.ackRelative]
  by_cases h : Relative.behind sequence ack ≤ 64
  · obtain ⟨-,between⟩ := Relative.behind_between h
    have same : Int32.ofInt (IntTarget.toInt (Int32.ofNat (Relative.behind sequence ack))) =
      Int32.ofNat (Relative.behind sequence ack) := Int32.ofInt_toInt _
    rw [decide_eq_true h,if_pos rfl,if_pos h,int_log _ writing between,Step.andThen_done,
      store_log writing,same,List.append_assoc]
    rfl
  · rw [decide_eq_false h,if_neg Bool.false_ne_true,if_neg h,bitRun_log _ writing (by decide),
      List.append_assoc]
    rfl

theorem sequenceRelative_log {first second : UInt16} (apart : first ≠ second) :
    Directive.sequenceRelative (stream mode) first second (log l) =
      .done second (log (l ++ Calls.sequenceRelative first second)) := by
  simp only [Directive.sequenceRelative,show (stream mode).mode.isReading = false from writing,
    Bool.false_eq_true,if_false,relative_log l writing (Relative.lt_unwrap.mpr apart),
    Step.andThen_done,store_log writing]
  rfl

/-- A value that may be sent makes its calls and stays as it is. -/
theorem leaf_log (scope : Scope) {kind : Leaf} {value : kind.Value}
    (permits : kind.Permits scope value) : kind.run (stream mode) scope value (log l) =
      .done value (log (l ++ kind.calls scope value)) := by
  cases kind with
  | int type min max => exact int_log (α := type.Carrier) l writing permits
  | bits type count => exact bitRun_log (α := type.Carrier) l writing permits value
  | rawInt min max => exact integer_log mode l _ _ value
  | rawBits count => exact bits_log mode l _ value
  | bool => exact bool_log l writing value
  | u32 => exact bits_log mode l 32 value
  | u64 => exact u64_log l writing value
  | float =>
    change Directive.float (stream mode) value (log l) = _
    rw [Directive.float,Directive.u32,bits_log,Step.andThen_done,store_log writing]
    rfl
  | double =>
    change Directive.double (stream mode) value (log l) = _
    rw [Directive.double,u64_log l writing,Step.andThen_done,store_log writing]
    rfl
  | bytes length => exact bytes_log l writing value
  | text size => exact text_log l writing permits.1 permits.2
  | align => exact align_log mode l
  | check => exact check_log mode l
  | address type => exact address_log l writing permits.1 permits.2
  | relative previous => exact relative_log l writing permits
  | ackRelative sequence => exact ackRelative_log l writing _ value
  | sequenceRelative first => exact sequenceRelative_log l writing permits

end Recorder

theorem Field.Value.run_log {mode : Mode} {l : List Call} {scope : Scope} {field : Field}
    (free : field.IsModeFree) {value : field.Value}
    (pass : field.isSent scope → value.pass (Recorder.stream mode) scope (.log l) =
      .done value (.log (l ++ value.calls scope))) :
    value.run (Recorder.stream mode) scope (.log l) =
      .done value (.log (l ++ if field.isSent scope then value.calls scope else [])) := by
  unfold Field.Value.run Tag.guarded
  rw [free]
  by_cases sent : field.isSent scope = true
  · rw [if_pos sent,if_pos sent]
    exact pass sent
  · rw [if_neg sent,if_neg sent,List.append_nil]

mutual
theorem Field.Value.pass_log (mode : Mode) (writing : mode.isReading = false) (l : List Call)
    (scope : Scope) : {field : Field} → field.Throughout Field.IsModeFree →
    field.Throughout Field.IsStatic → (value : field.Value) → value.Meets Leaf.Permits scope →
    value.pass (Recorder.stream mode) scope (.log l) =
      .done value (.log (l ++ value.calls scope))
  | .leaf .., _, _, .leaf value, permits => by
      rw [Field.Value.pass_leaf,Recorder.leaf_log l writing scope permits]
      rfl
  | .object _ .static _, free, static, .object record, meets => by
      rw [Field.Value.pass_static,record.run_log mode writing l .empty free.2 static.2 meets]
      rfl
  | .object _ .dynamic _, _, static, _, _ => nomatch static.1
/-- A record that may be sent makes the calls of its leaves, in a measuring stream as well. -/
theorem Record.run_log (mode : Mode) (writing : mode.isReading = false) (l : List Call)
    (finished : Scope) : {fields : List Field} → Throughout Field.IsModeFree fields →
    Throughout Field.IsStatic fields → (record : Record fields) →
    record.Meets Leaf.Permits finished →
    record.run (Recorder.stream mode) finished (.log l) =
      .done record (.log (l ++ record.calls finished))
  | [], _, _, .nil, _ => by rw [Record.calls,List.append_nil]; rfl
  | field::_, free, static, .cons value rest, meets => by
      have head := Field.Value.run_log free.1.here fun sent =>
        value.pass_log mode writing l _ free.1 static.1 (meets.1 sent)
      rw [Record.run_cons,head,Step.chain_done,
        rest.run_log mode writing _ _ free.2 static.2 meets.2,List.append_assoc]
      rfl
end
end Bitwire
