import Bitwire.Address
import Bitwire.Range
import Bitwire.Stream.Basic

/-! Directives: what a routine calls for each value. A reader checks what the stream hands back
before it stores anything.

First those for integers, bit runs, booleans and floating-point patterns. -/
namespace Bitwire

/-- The low bits of a word. -/
def lowBits (count : Nat) (word : UInt32) : UInt32 := UInt32.ofNat (word.toNat%(1 <<< count))

/-- The target's value of a decoded integer, if the range and the target both hold it. -/
def Range.accept {α : Type} [IntTarget α] (r : Range) (found : Int) : Outcome α :=
  if r.contains found then
    match IntTarget.ofInt? found with
    | some value => .ok value
    | none => reject (r.exceeded found)
  else reject (r.exceeded found)

def acceptWord {α : Type} [BitsTarget α] (found : UInt32) : Outcome α :=
  match BitsTarget.ofWord? found with
  | some value => .ok value
  | none => reject (.invalidData .wideBits)

namespace Directive
variable {σ α : Type} (S : Stream σ)

/-- Ends a directive: a reader stores what it decoded, other streams keep the variable. -/
def store (value : α) (s : σ) (decoded : Outcome α) : Step σ α :=
  if S.mode.isReading then Step.given decoded value s fun found => .done found s
  else .done value s

/-- An integer between `min` and `max`. -/
def int [IntTarget α] (min max : Int32) : Routine σ α := fun value s =>
  Step.given (Range.ofBounds min max) value s fun range =>
  Step.given (if S.mode.isReading then .ok 0 else range.permit (IntTarget.toInt value))
    value s fun sent =>
  (S.integer min max sent s).andThen value fun found s =>
  store S value s (range.accept found.toInt)

/-- The low `count` bits of an unsigned value. -/
def bits [BitsTarget α] (count : Nat) : Routine σ α := fun value s =>
  Step.given (permitCount count) value s fun _ =>
  let sent := if S.mode.isReading then 0 else lowBits count (BitsTarget.toWord value)
  (S.bits count sent s).andThen value fun found s => store S value s (acceptWord found)

/-- A single bit. -/
def bool : Routine σ Bool := fun value s =>
  (S.bits 1 (if value then 1 else 0) s).andThen value fun found s =>
  store S value s (.ok (found != 0))

/-- A word handed to the stream as it is. -/
def u32 : Routine σ UInt32 := S.bits 32

/-- The low half, then the high half. -/
def u64 : Routine σ UInt64 := fun value s =>
  (S.bits 32 value.toUInt32 s).andThen value fun low s =>
  (S.bits 32 (value >>> 32).toUInt32 s).andThen value fun high s =>
  store S value s (.ok ((high.toUInt64 <<< 32) ||| low.toUInt64))

/-- The bit pattern of a 32-bit float. -/
def float : Routine σ UInt32 := fun pattern s =>
  (u32 S pattern s).andThen pattern fun found s => store S pattern s (.ok found)

/-- The bit pattern of a 64-bit float. -/
def double : Routine σ UInt64 := fun pattern s =>
  (u64 S pattern s).andThen pattern fun found s => store S pattern s (.ok found)

end Directive

/-! Numbers sent relative to one that the reader knows.

A difference of 1 is the flag 1. Larger ones are found in the first bucket that holds them:
a flag per bucket, 1 for the bucket taken, then the difference in the bucket's range.
When no flag is set the number itself follows in 32 bits. -/

/-- A range of differences with a flag of its own. -/
structure Bucket where
  min : Int32
  max : Int32
  deriving DecidableEq, Repr

namespace Relative

/-- The buckets after the difference 1, in the order they are tried. -/
def buckets : List Bucket := [⟨2,6⟩,⟨7,23⟩,⟨24,280⟩,⟨281,4377⟩,⟨4378,69914⟩]

/-- The greatest difference that has a bucket. -/
def maxDifference : Nat := 69914

theorem maxDifference_last :
    (buckets.map (·.max.toNatClampNeg)).getLast? = some maxDifference := rfl

/-- The greatest distance at which an acknowledgement is sent relative. -/
def maxAckDelta : Int32 := 64

/-- What a writer sends; a reader starts from no difference. -/
def difference (mode : Mode) (previous current : UInt32) : Outcome UInt32 :=
  if mode.isReading then .ok 0
  else if previous < current then .ok (current - previous)
  else reject (.contractViolation .notIncreasing)

def advance (previous difference : UInt32) : Outcome UInt32 :=
  if previous.toNat + difference.toNat < UInt32.size then .ok (previous + difference)
  else reject (.invalidData .relativeOverflow)

/-- A number sent in full is accepted only where no bucket could have sent it. -/
def acceptFull (previous found : UInt32) : Outcome UInt32 :=
  if previous.toNat + maxDifference < found.toNat then .ok found
  else reject (.invalidData .relativeOverlap)

/-- A number after `first`, modulo 2^16, as a number above it. -/
def unwrap (first second : UInt16) : UInt32 :=
  if second < first then second.toUInt32 + 65536 else second.toUInt32

/-- Folds a number above `first` back, unless it is a full lap or more away. -/
def fold (first : UInt16) (found : UInt32) : Outcome UInt16 :=
  if found < first.toUInt32 then halt .counterUnderflow
  else if 65535 < found - first.toUInt32 then reject (.invalidData .sequenceLap)
  else .ok found.toUInt16

/-- How far an acknowledgement lies behind, a full lap for the number itself. -/
def behind (sequence ack : UInt16) : Nat :=
  if ack < sequence then sequence.toNat - ack.toNat else sequence.toNat + 65536 - ack.toNat

end Relative

namespace Directive
variable {σ : Type} (S : Stream σ)

/-- Tries the buckets in turn. -/
def bucketed (previous current difference : UInt32) : List Bucket → σ → Step σ UInt32
  | [], s =>
      (u32 S current s).andThen current fun found s =>
      store S current s (Relative.acceptFull previous found)
  | b::rest, s =>
      (bool S (difference.toNat ≤ b.max.toNatClampNeg) s).andThen current fun inside s =>
      if inside then
        (int S b.min b.max difference s).andThen current fun found s =>
        store S current s (Relative.advance previous found)
      else bucketed previous current difference rest s

/-- A number above `previous`. -/
def relative (previous : UInt32) : Routine σ UInt32 := fun current s =>
  Step.given (Relative.difference S.mode previous current) current s fun difference =>
  (bool S (difference == 1) s).andThen current fun one s =>
  if one then store S current s (Relative.advance previous 1)
  else bucketed S previous current difference Relative.buckets s

/-- An acknowledgement at or behind `sequence`, modulo 2^16. -/
def ackRelative (sequence : UInt16) : Routine σ UInt16 := fun ack s =>
  let delta : Int32 := if S.mode.isReading then 0 else Int32.ofNat (Relative.behind sequence ack)
  let near := !S.mode.isReading && decide (delta ≤ Relative.maxAckDelta)
  (bool S near s).andThen ack fun near s =>
  if near then
    (int S 1 Relative.maxAckDelta delta s).andThen ack fun delta s =>
    store S ack s (.ok (sequence - UInt16.ofInt delta.toInt))
  else bits S 16 ack s

/-- A sequence number after `first`, modulo 2^16. -/
def sequenceRelative (first : UInt16) : Routine σ UInt16 := fun second s =>
  let sent := if S.mode.isReading then 0 else Relative.unwrap first second
  (relative S first.toUInt32 sent s).andThen second fun found s =>
  store S second s (Relative.fold first found)

end Directive

/-! Strings: the length in bytes, then the UTF-8 bytes from the next byte boundary. The size of
a buffer counts a terminator that is never sent. A claimed length is not trusted: bytes
are read in runs of at most 256, and the buffer of a run is used again for the next. -/

namespace Text

def utf8 (text : String) : Vector UInt8 text.toUTF8.data.size := ⟨text.toUTF8.data,rfl⟩

def ofUtf8? (bytes : Array UInt8) : Option String := String.fromUTF8? ⟨bytes⟩

def decode (bytes : Array UInt8) : Outcome String :=
  match ofUtf8? bytes with
  | some text => .ok text
  | none => reject .invalidUtf8

/-- The greatest length in a buffer. -/
def maxLength (size : Nat) : Outcome Int32 :=
  if 2 ≤ size ∧ size ≤ 1 <<< 31 then .ok (Int32.ofNat (size - 1))
  else reject (.contractViolation .textCapacity)

/-- The length of a text that fits. -/
def permitLength (max : Int32) (text : String) : Outcome Int32 :=
  if text.utf8ByteSize ≤ max.toNatClampNeg then .ok (Int32.ofNat text.utf8ByteSize)
  else reject (.contractViolation .textTooLong)

def runLength : Nat := 256

/-- Runs of full length before the last one. An empty text has a last run too. -/
def fullRuns (length : Nat) : Nat := (length - 1)/runLength

/-- Bytes of the last run. -/
def lastRun (length : Nat) : Nat := length - runLength*fullRuns length

end Text

namespace Directive
variable {σ : Type} (S : Stream σ)

/-- Reads `full` runs of full length and one of `last` bytes. -/
def gather (last : Nat) : Nat → Vector UInt8 Text.runLength → Array UInt8 → σ → Step σ (Array UInt8)
  | 0, buffer, gathered, s =>
      (S.bytes (buffer.take last) s).map fun run => gathered ++ run.toArray
  | full+1, buffer, gathered, s =>
      (S.bytes buffer s).andThen gathered fun run s =>
      gather last full run (gathered ++ run.toArray) s

/-- The bytes of a text whose length is known. -/
def textBytes (length : Nat) (s : σ) : Step σ (Array UInt8) :=
  gather S (Text.lastRun length) (Text.fullRuns length) (Vector.replicate _ 0) #[] s

/-- A text of fewer than `size` bytes. -/
def text (size : Nat) : Routine σ String := fun value s =>
  Step.given (Text.maxLength size) value s fun max =>
  Step.given (if S.mode.isReading then .ok 0 else Text.permitLength max value) value s fun length =>
  (int S 0 max length s).andThen value fun length s =>
  if S.mode.isReading then
    (textBytes S length.toNatClampNeg s).andThen value fun bytes s =>
    Step.given (Text.decode bytes) value s fun found => .done found s
  else
    let step := S.bytes (Text.utf8 value) s
    match Text.ofUtf8? step.value.toArray with
    | some kept => ⟨kept,step.state,step.result⟩
    | none => .fail "" step.state (.error .invalidUtf8)

end Directive

/-! Addresses are sent as text. A reader takes a text only if it denotes an address that a
writer may send. -/

/-- A kind of address with its text and the addresses that may be sent. -/
structure AddressFormat (α : Type) where
  write : α → String
  read? : String → Option α
  isValid : α → Bool

def Ip.format : AddressFormat Ip where
  write ip := String.ofList ip.write
  read? text := Phrase.whole Phrase.ip text.toList
  isValid _ := true

def Socket.format : AddressFormat Socket where
  write socket := String.ofList socket.write
  read? text := Phrase.whole Phrase.socket text.toList
  isValid _ := true

def Endpoint.format : AddressFormat Endpoint where
  write endpoint := Socket.format.write endpoint.socket
  read? text := (Socket.format.read? text).map Endpoint.mk
  isValid endpoint := endpoint.socket.port != 0

namespace AddressFormat
variable {α : Type} (F : AddressFormat α)

/-- Size of the buffer that the text of an address fits, on either side. -/
def bufferSize : Nat := 256

def permit (address : α) : Outcome String :=
  if F.isValid address then .ok (F.write address)
  else reject (.contractViolation .unsendableAddress)

def accept (text : String) : Outcome α :=
  match F.read? text with
  | none => reject (.invalidAddress text)
  | some address =>
      if F.isValid address then .ok address else reject (.invalidAddress text)

end AddressFormat

namespace Directive
variable {σ α : Type} (S : Stream σ)

def address (F : AddressFormat α) : Routine σ α := fun value s =>
  Step.given (if S.mode.isReading then .ok "" else F.permit value) value s fun sent =>
  (text S AddressFormat.bufferSize sent s).andThen value fun found s =>
  store S value s (F.accept found)

end Directive

end Bitwire
