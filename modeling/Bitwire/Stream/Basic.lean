import Bitwire.Bits.Basic
import Bitwire.Range

/-! The contract between directives and streams, and the three streams of the library. A directive
is written once against `Stream`; whether it writes, reads or measures is the stream's affair. -/
namespace Bitwire

inductive Mode where
  | write | read | measure
  deriving DecidableEq, Repr

namespace Mode

def isWriting : Mode → Bool
  | write => true
  | _ => false

def isReading : Mode → Bool
  | read => true
  | _ => false

end Mode

/-- The word that an integrity check sends. -/
def checkWord : UInt32 := 0x12345678

/-- Accepts the widths of a bit run. -/
def permitCount (count : Nat) : Outcome Unit :=
  if 1 ≤ count ∧ count ≤ 32 then .ok () else reject (.contractViolation .bitCount)

/-- Passes a variable through a stream with state `σ`. -/
abbrev Routine (σ α : Type) := α → σ → Step σ α

/-- What a stream does with each kind of call. Readers overwrite the variable they are
handed, writers and measurers look at it. A nested object of unknown type comes with
its own run, which the stream may use or not. -/
structure Stream (σ : Type) where
  mode : Mode
  integer (min max : Int32) : Routine σ Int32
  bits (count : Nat) : Routine σ UInt32
  bytes {n : Nat} : Routine σ (Vector UInt8 n)
  align : σ → Step σ Unit
  check : σ → Step σ Unit
  object {α : Type} (visit : σ → Step σ α) : Routine σ α
  position : σ → Nat

/-! Writing: every call appends its bits. Broken preconditions append nothing. -/

/-- The writing stream. Without `checks` an integrity check sends nothing. -/
def Packer.stream (checks : Bool) : Stream Packer where
  mode := .write
  integer min max value p :=
    Step.given (Range.ofBounds min max) value p fun range =>
    Step.given (range.permit value.toInt) value p fun _ =>
    .done value (p.push (range.offset value) range.bits)
  bits count value p :=
    Step.given (permitCount count) value p fun _ => .done value (p.push value count)
  bytes data p := .done data (p.pad.append data.toList)
  align p := .done () p.pad
  check p := .done () (if checks then p.pad.push checkWord 32 else p)
  object visit _ p := visit p
  position p := p.position

/-! Measuring: every call adds the bits that writing would append at the same position. -/

structure Meter where
  position : Nat
  deriving DecidableEq, Repr

namespace Meter

def zero : Meter := ⟨0⟩

def add (m : Meter) (bits : Nat) : Meter := ⟨m.position + bits⟩

def pad (m : Meter) : Meter := m.add (padding m.position)

def byteCount (m : Meter) : Nat := bytesFor m.position

def stream (checks : Bool) : Stream Meter where
  mode := .measure
  integer min max value m :=
    Step.given (Range.ofBounds min max) value m fun range =>
    Step.given (range.permit value.toInt) value m fun _ => .done value (m.add range.bits)
  bits count value m :=
    Step.given (permitCount count) value m fun _ => .done value (m.add count)
  bytes {n} data m := .done data (m.pad.add (8*n))
  align m := .done () m.pad
  check m := .done () (if checks then m.pad.add 32 else m)
  object visit _ m := visit m
  position m := m.position

end Meter

/-! Reading untrusted input. Each rejection made here, and only these, is noted as an event
with the position after the failed call. -/

structure Event where
  cause : Error
  position : Nat
  remaining : Nat
  deriving DecidableEq, Repr

def Event.message (_ : Event) : String := "rejected stream input"

structure Reader where
  input : Unpacker
  events : Array Event
  deriving DecidableEq, Repr

namespace Reader

def ofBytes (bytes : List UInt8) : Reader := ⟨.ofBytes bytes,#[]⟩

/-- Ends a call in a failure and notes the error. -/
def refuse {α : Type} (r : Reader) (value : α) : Failure → Step Reader α
  | .fault cause => .fail value r (.fault cause)
  | .error cause =>
      Step.given r.input.remaining value r fun remaining =>
      .fail value { r with events := r.events.push ⟨cause,r.input.position,remaining⟩ }
        (.error cause)

/-- Takes over what a call did to the input. -/
def settle {α : Type} (r : Reader) (step : Step Unpacker α) : Step Reader α :=
  let r := { r with input := step.state }
  match step.result with
  | .ok () => .done step.value r
  | .error failure => r.refuse step.value failure

/-- The reading stream. Without `checks` an integrity check takes nothing. -/
def stream (checks : Bool) : Stream Reader where
  mode := .read
  integer min max value r :=
    Step.given (Range.ofBounds min max) value r fun range =>
    r.settle (Step.given (r.input.take range.bits) value r.input fun (offset,u) =>
      Step.given (range.ofOffset offset) value u fun found => .done found u)
  bits count value r :=
    Step.given (permitCount count) value r fun _ =>
    r.settle (Step.given (r.input.take count) value r.input fun (found,u) => .done found u)
  bytes data r := r.settle (r.input.skipPadding.andThen data fun _ u => u.fill data)
  align r := r.settle r.input.skipPadding
  check r :=
    if checks then
      r.settle (r.input.skipPadding.andThen () fun _ u =>
        Step.given (u.take 32) () u fun (found,u) =>
        if found = checkWord then .done () u
        else .fail () u (.error (.checkFailed checkWord found)))
    else .done () r
  object visit _ r := visit r
  position r := r.input.position

/-- Demands that only zero bits of the last byte are left. -/
def finish (r : Reader) : Step Reader Unit :=
  (r.settle r.input.skipPadding).andThen () fun _ r =>
  Step.given r.input.remaining () r fun bits =>
  if bits/8 = 0 then .done () r else r.refuse () (.error (.extraData (bits/8)))

end Reader

end Bitwire
