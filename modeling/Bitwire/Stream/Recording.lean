import Bitwire.Stream.Basic

/-! A stream of any mode that records the calls it receives and answers them from a script.
It checks nothing, so it shows what a directive asks for and what it makes of an answer. -/
namespace Bitwire

inductive Call where
  | integer (value min max : Int32)
  | bits (value : UInt32) (count : Nat)
  | bytes (data : List UInt8)
  | byteRun (length : Nat)
  | align | check | object
  deriving DecidableEq, Repr

/-- `set` concerns a number, `fill` the beginning of a byte run; elsewhere they accept. -/
inductive Answer where
  | accept
  | fail (cause : Error)
  | set (number : Int)
  | fill (bytes : Array UInt8)
  deriving DecidableEq, Repr

structure Recorder where
  calls : Array Call
  script : List Answer

namespace Recorder

def ofScript (script : List Answer) : Recorder := ⟨#[],script⟩

/-- Records a call. Past the end of the script every call is accepted. -/
def answer (r : Recorder) (call : Call) : Answer × Recorder :=
  match r.script with
  | [] => (.accept,{ r with calls := r.calls.push call })
  | a::script => (a,⟨r.calls.push call,script⟩)

/-- Records a call whose variable the answer may change. -/
def reply {α : Type} (r : Recorder) (call : Call) (value : α) (change : Answer → α) :
    Step Recorder α :=
  match r.answer call with
  | (.fail cause,r) => .fail value r (.error cause)
  | (a,r) => .done (change a) r

def stream (mode : Mode) : Stream Recorder where
  mode := mode
  integer min max value r := r.reply (.integer value min max) value fun
    | .set number => Int32.ofInt number
    | _ => value
  bits count value r := r.reply (.bits value count) value fun
    | .set number => UInt32.ofInt number
    | _ => value
  bytes {n} data r :=
    r.reply (if mode.isReading then .byteRun n else .bytes data.toList) data fun
    | .fill bytes => data.mapIdx fun i b => bytes[i]?.getD b
    | _ => data
  align r := r.reply .align () fun _ => ()
  check r := r.reply .check () fun _ => ()
  object _ value r := r.reply .object value fun _ => value
  position r := r.calls.size

end Recorder
end Bitwire
