/-! Numerals in a radix up to 36, and bytes as pairs of hexadecimal digits. -/
namespace Bitwire

namespace Numeral

/-- The value of a digit. Letters count from ten, in either case. -/
def digit? (radix : Nat) (c : Char) : Option Nat :=
  let value :=
    if '0' ≤ c ∧ c ≤ '9' then some (c.toNat - 48)
    else if 'a' ≤ c ∧ c ≤ 'z' then some (c.toNat - 87)
    else if 'A' ≤ c ∧ c ≤ 'Z' then some (c.toNat - 55)
    else none
  value.filter (· < radix)

/-- The number that digits denote, most significant first. -/
def ofDigits (radix : Nat) (digits : List Nat) : Nat :=
  digits.foldl (fun n d => n*radix + d) 0

/-- The shortest numeral of a number, in lower case. -/
def write (radix n : Nat) : List Char := Nat.toDigits radix n

/-- The last `width` digits of a number, zeros in front. -/
def writeFixed (radix : Nat) : Nat → Nat → List Char
  | 0, _ => []
  | width+1, n => writeFixed radix width (n/radix) ++ [Nat.digitChar (n%radix)]

@[simp] theorem writeFixed_length (radix width n : Nat) :
    (writeFixed radix width n).length = width := by
  induction width generalizing n with
  | zero => rfl
  | succ width ih => simp [writeFixed,ih]

end Numeral

namespace Hex

def number (width n : Nat) : String := String.ofList (Numeral.writeFixed 16 width n)

def number? (text : String) : Option Nat :=
  (text.toList.mapM (Numeral.digit? 16)).map (Numeral.ofDigits 16)

def write (bytes : List UInt8) : String :=
  String.ofList (bytes.flatMap fun b => Numeral.writeFixed 16 2 b.toNat)

def readPairs : List Char → Option (List UInt8)
  | [] => some []
  | high::low::rest => do
      let h ← Numeral.digit? 16 high
      let l ← Numeral.digit? 16 low
      return UInt8.ofNat (16*h + l)::(← readPairs rest)
  | [_] => none

/-- The bytes that pairs of digits denote, none for an odd digit or any other character. -/
def read? (text : String) : Option (List UInt8) := readPairs text.toList

end Hex
end Bitwire
