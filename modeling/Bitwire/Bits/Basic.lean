import Bitwire.Step

/-! Bit runs in bytes, least significant bit first. A packer holds back fewer than eight bits until
a byte is full. -/
namespace Bitwire

/-- Bits from a position to the next byte boundary. -/
def padding (position : Nat) : Nat := (8 - position%8) % 8

/-- Bytes that hold a number of bits, the last one perhaps in part. -/
def bytesFor (bits : Nat) : Nat := (bits + 7)/8

/-- The lowest bytes of a number, lowest first. -/
def littleEndian : Nat → Nat → List UInt8
  | 0, _ => []
  | k+1, n => UInt8.ofNat n::littleEndian k (n/256)

@[simp] theorem littleEndian_length (k n : Nat) : (littleEndian k n).length = k := by
  induction k generalizing n with
  | zero => rfl
  | succ k ih => simp [littleEndian,ih]

theorem padding_lt (position : Nat) : padding position < 8 := Nat.mod_lt _ (by decide)

theorem padding_aligns (position : Nat) : (position + padding position)%8 = 0 := by
  unfold padding
  omega

structure Packer where
  output : Array UInt8
  held : Nat
  heldBits : Nat
  position : Nat
  deriving DecidableEq, Repr

namespace Packer

def empty : Packer := ⟨#[],0,0,0⟩

/-- Appends the low `n` bits of a value and moves every full byte to the output. -/
def push (p : Packer) (value : UInt32) (n : Nat) : Packer :=
  let held := p.held + (value.toNat%(1 <<< n)) <<< p.heldBits
  let count := p.heldBits + n
  { output := p.output ++ littleEndian (count/8) held
    held := held >>> (8*(count/8))
    heldBits := count%8
    position := p.position + n }

/-- Appends zeros up to the next byte boundary. -/
def pad (p : Packer) : Packer :=
  let n := padding p.position
  if n = 0 then p else p.push 0 n

/-- Appends bytes at any position; between bytes they are copied as a whole. -/
def append (p : Packer) (bytes : List UInt8) : Packer :=
  if p.heldBits = 0 then
    { p with output := p.output ++ bytes, position := p.position + 8*bytes.length }
  else bytes.foldl (fun p b => p.push b.toUInt32 8) p

def byteCount (p : Packer) : Nat := bytesFor p.position

def finish (p : Packer) : List UInt8 := p.pad.output.toList

end Packer

/-! An unpacker takes bit runs out of bytes. Bytes are fetched one at a time into a 64-bit word of
held bits. Counters are 64 bits wide: an operation that would leave the counters, the word or the
input is a fault, not an answer. -/

namespace Counter

/-- One above the greatest counter. -/
def limit : Nat := 1 <<< 64

def add (a b : Nat) : Outcome Nat := if a + b < limit then .ok (a + b) else halt .counterOverflow

def sub (a b : Nat) : Outcome Nat := if b ≤ a then .ok (a - b) else halt .counterUnderflow

end Counter

structure Unpacker where
  rest : List UInt8
  held : Nat
  heldBits : Nat
  position : Nat
  total : Nat
  deriving DecidableEq, Repr

namespace Unpacker

def ofBytes (bytes : List UInt8) : Unpacker := ⟨bytes,0,0,0,8*bytes.length⟩

def remaining (u : Unpacker) : Outcome Nat := Counter.sub u.total u.position

def isPastEnd (u : Unpacker) (n : Nat) : Outcome Bool := do
  let stop ← Counter.add u.position n
  return u.total < stop

/-- Fetches bytes above the held bits until `n` bits are held. -/
def fetch (n : Nat) : List UInt8 → Nat → Nat → Outcome (List UInt8 × Nat × Nat)
  | [], held, heldBits =>
      if n ≤ heldBits then .ok ([],held,heldBits) else halt .inputExhausted
  | b::rest, held, heldBits =>
      if n ≤ heldBits then .ok (b::rest,held,heldBits)
      else if heldBits + 8 ≤ 64 then fetch n rest (held + b.toNat <<< heldBits) (heldBits + 8)
      else halt .shiftWidth

/-- Takes the next `n` bits as a number. Past the end nothing is taken. -/
def take (u : Unpacker) (n : Nat) : Outcome (UInt32 × Unpacker) := do
  if ← u.isPastEnd n then reject .endOfBuffer
  else
    let (rest,held,heldBits) ← fetch n u.rest u.held u.heldBits
    let left ← Counter.sub heldBits n
    let position ← Counter.add u.position n
    return (UInt32.ofNat (held%(1 <<< n)),⟨rest,held >>> n,left,position,u.total⟩)

/-- Moves to the next byte boundary, which it reaches also when a skipped bit is set. -/
def skipPadding (u : Unpacker) : Step Unpacker Unit :=
  let n := padding u.position
  if n = 0 then .done () u
  else match u.take n with
    | .error failure => .fail () u failure
    | .ok (bits,u) => if bits = 0 then .done () u else .fail () u (.error .invalidPadding)

/-- Overwrites bytes one after the other, eight bits each. -/
def fillEach : List UInt8 → Unpacker → Step Unpacker (List UInt8)
  | [], u => .done [] u
  | b::out, u =>
      match u.take 8 with
      | .error failure => .fail (b::out) u failure
      | .ok (bits,u) => (fillEach out u).map (bits.toUInt8::·)

@[simp] theorem fillEach_length (out : List UInt8) (u : Unpacker) :
    (fillEach out u).value.length = out.length := by
  induction out generalizing u with
  | nil => rfl
  | cons b out ih =>
    unfold fillEach
    split
    · rfl
    · simp [Step.map,ih]

/-- Overwrites bytes with the input's next ones, at any position. Past the end nothing is taken. -/
def fill {n : Nat} (u : Unpacker) (out : Vector UInt8 n) : Step Unpacker (Vector UInt8 n) :=
  Step.given (u.isPastEnd (8*n)) out u fun isPast =>
  if isPast then .fail out u (.error .endOfBuffer)
  else if u.heldBits = 0 then
    if h : n ≤ u.rest.length then
      Step.given (Counter.add u.position (8*n)) out u fun position =>
      .done ⟨(u.rest.take n).toArray,by simp [h]⟩
        { u with rest := u.rest.drop n, position := position }
    else .fail out u (.fault .inputExhausted)
  else
    let step := fillEach out.toList u
    ⟨⟨step.value.toArray,by simp [step]⟩,step.state,step.result⟩

end Unpacker

end Bitwire
