import Bitwire.Numeral

/-! How a call on a stream ends. An `Error` is an answer to the caller; a `Fault` ends the program,
and the reading side is built so that none can arise. -/
namespace Bitwire

/-- A precondition that the caller broke. -/
inductive Breach where
  | emptyRange | outsideRange | bitCount | notIncreasing
  | textCapacity | textTooLong | unsendableAddress
  deriving DecidableEq, Repr

def Breach.message : Breach → String
  | .emptyRange => "range minimum must be less than maximum"
  | .outsideRange => "integer outside of range"
  | .bitCount => "bit count must be in [1, 32]"
  | .notIncreasing => "previous must be less than current"
  | .textCapacity => "string buffer size must be in [2, 2^31]"
  | .textTooLong => "string does not fit in buffer"
  | .unsendableAddress => "address must be valid"

/-- A decoded value that no writer sends. -/
inductive Anomaly where
  | wideBits | relativeOverflow | relativeOverlap | sequenceLap
  deriving DecidableEq, Repr

def Anomaly.context : Anomaly → String
  | .wideBits => "bits"
  | .relativeOverflow | .relativeOverlap => "relative integer"
  | .sequenceLap => "sequence number"

def Anomaly.message : Anomaly → String
  | .wideBits => "value does not fit target type"
  | .relativeOverflow => "value overflows"
  | .relativeOverlap => "raw value within relative range"
  | .sequenceLap => "value out of range"

inductive Error where
  | endOfBuffer
  | extraData (bytes : Nat)
  | outOfRange (found min max : Int)
  | checkFailed (expected found : UInt32)
  | invalidPadding
  | invalidUtf8
  | invalidAddress (text : String)
  | invalidData (anomaly : Anomaly)
  | contractViolation (breach : Breach)
  deriving DecidableEq, Repr

namespace Error

def word (n : UInt32) : String := "0x" ++ Hex.number 8 n.toNat

def message : Error → String
  | endOfBuffer => "unexpected end of buffer"
  | extraData bytes => "extra data found: " ++ toString bytes ++ " bytes"
  | outOfRange found min max =>
      "value " ++ toString found ++ " outside of range [" ++ toString min ++ ", " ++
        toString max ++ "]"
  | checkFailed expected found =>
      "integrity check failed: expected " ++ word expected ++ ", found " ++ word found
  | invalidPadding => "non-zero padding bits"
  | invalidUtf8 => "invalid utf-8 string"
  | invalidAddress text => "invalid address: " ++ text
  | invalidData anomaly => "invalid data in " ++ anomaly.context ++ ": " ++ anomaly.message
  | contractViolation breach => "contract violation: " ++ breach.message

/-- The cause without its details. -/
def kind : Error → String
  | endOfBuffer => "EndOfBuffer"
  | extraData _ => "ExtraData"
  | outOfRange .. => "OutOfRange"
  | checkFailed .. => "CheckFailed"
  | invalidPadding => "InvalidPadding"
  | invalidUtf8 => "InvalidUtf8"
  | invalidAddress _ => "InvalidAddress"
  | invalidData _ => "InvalidData"
  | contractViolation _ => "ContractViolation"

/-- The numbers that belong to a cause, in the order they are reported. -/
def details : Error → List Int
  | extraData bytes => [bytes]
  | outOfRange found min max => [found,min,max]
  | checkFailed expected found => [expected.toNat,found.toNat]
  | _ => []

/-- The cause with its numbers, as events record it. -/
def summary (e : Error) : String :=
  match e.details with
  | [] => e.kind
  | numbers => e.kind ++ "(" ++ ", ".intercalate (numbers.map toString) ++ ")"

/-- Holds of every failure that the decoded input can cause. -/
def isDecodeFailure : Error → Bool
  | contractViolation _ => false
  | _ => true

end Error

/-- A condition that ends the program. -/
inductive Fault where
  | counterOverflow
  | counterUnderflow
  | shiftWidth
  | inputExhausted
  | sizeMismatch (written measured : Nat)
  deriving DecidableEq, Repr

def Fault.message : Fault → String
  | .counterOverflow => "attempt to add with overflow"
  | .counterUnderflow => "attempt to subtract with overflow"
  | .shiftWidth => "attempt to shift left with overflow"
  | .inputExhausted => "byte taken past the end of the input"
  | .sizeMismatch written measured =>
      "assertion `left == right` failed: serialize() wrote a different number of bits " ++
        "than it measured\n  left: " ++ toString written ++ "\n right: " ++ toString measured

inductive Failure where
  | error (cause : Error)
  | fault (cause : Fault)
  deriving DecidableEq, Repr

abbrev Outcome (α : Type) := Except Failure α

def reject {α : Type} (cause : Error) : Outcome α := .error (.error cause)

def halt {α : Type} (cause : Fault) : Outcome α := .error (.fault cause)

/-! What a call leaves behind, also when it fails: the caller's variable, the state, and how the call
ended. -/

structure Step (σ α : Type) where
  value : α
  state : σ
  result : Outcome Unit

namespace Step
variable {σ α β : Type}

/-- A call that succeeds at once. -/
def done (value : α) (state : σ) : Step σ α := ⟨value,state,.ok ()⟩

def fail (value : α) (state : σ) (failure : Failure) : Step σ α := ⟨value,state,.error failure⟩

/-- Goes on after success; after a failure the caller's variable is `kept`. -/
def andThen (step : Step σ α) (kept : β) (next : α → σ → Step σ β) : Step σ β :=
  match step.result with
  | .ok () => next step.value step.state
  | .error failure => fail kept step.state failure

/-- Goes on after success; after a failure what the call left is put in place. -/
def chain (step : Step σ α) (place : α → β) (next : α → σ → Step σ β) : Step σ β :=
  match step.result with
  | .ok () => next step.value step.state
  | .error failure => fail (place step.value) step.state failure

/-- Goes on with an answer that needs no stream; without one the variable is `kept`. -/
def given (answer : Outcome α) (kept : β) (state : σ) (next : α → Step σ β) : Step σ β :=
  match answer with
  | .ok a => next a
  | .error failure => fail kept state failure

def map (f : α → β) (step : Step σ α) : Step σ β := ⟨f step.value,step.state,step.result⟩

@[simp] theorem andThen_done (a : α) (s : σ) (kept : β) (next : α → σ → Step σ β) :
    (done a s).andThen kept next = next a s := rfl

@[simp] theorem andThen_fail (a : α) (s : σ) (failure : Failure) (kept : β)
    (next : α → σ → Step σ β) :
    (fail a s failure).andThen kept next = fail kept s failure := rfl

@[simp] theorem chain_done (a : α) (s : σ) (place : α → β) (next : α → σ → Step σ β) :
    (done a s).chain place next = next a s := rfl

@[simp] theorem chain_fail (a : α) (s : σ) (failure : Failure) (place : α → β)
    (next : α → σ → Step σ β) :
    (fail a s failure).chain place next = fail (place a) s failure := rfl

variable {step : Step σ α}

theorem andThen_of_ok (ok : step.result = .ok ()) (kept : β) (next : α → σ → Step σ β) :
    step.andThen kept next = next step.value step.state := by
  rw [andThen,ok]

/-- What follows a failure cannot make good for it. -/
theorem ok_of_andThen {kept : β} {next : α → σ → Step σ β}
    (ok : (step.andThen kept next).result = .ok ()) : step.result = .ok () := by
  unfold andThen at ok
  split at ok
  · assumption
  · cases ok

theorem chain_of_ok (ok : step.result = .ok ()) (place : α → β) (next : α → σ → Step σ β) :
    step.chain place next = next step.value step.state := andThen_of_ok ok (place step.value) next

theorem ok_of_chain {place : α → β} {next : α → σ → Step σ β}
    (ok : (step.chain place next).result = .ok ()) : step.result = .ok () :=
  ok_of_andThen (show (step.andThen (place step.value) next).result = .ok () from ok)

@[simp] theorem given_ok (a : α) (kept : β) (s : σ) (next : α → Step σ β) :
    given (.ok a) kept s next = next a := rfl

@[simp] theorem given_error (failure : Failure) (kept : β) (s : σ) (next : α → Step σ β) :
    given (.error failure) kept s next = fail kept s failure := rfl

end Step

end Bitwire
