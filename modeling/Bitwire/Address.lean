import Bitwire.Numeral

/-! Network addresses: the rules that their text is read by, and the text that is written. -/
namespace Bitwire

structure Ipv4 where
  a : UInt8
  b : UInt8
  c : UInt8
  d : UInt8
  deriving DecidableEq, Repr, Inhabited

structure Ipv6 where
  groups : List UInt16
  length_eq : groups.length = 8
  deriving DecidableEq, Repr

inductive Ip where
  | v4 (address : Ipv4)
  | v6 (address : Ipv6)
  deriving DecidableEq, Repr

/-- An address with a port. The flow label of a version 6 address is never written. -/
inductive Socket where
  | v4 (address : Ipv4) (port : UInt16)
  | v6 (address : Ipv6) (port : UInt16) (flow scope : UInt32)
  deriving DecidableEq, Repr

/-- A socket address that may be sent only with a port. -/
structure Endpoint where
  socket : Socket
  deriving DecidableEq, Repr

namespace Ipv4

def highGroup (ip : Ipv4) : UInt16 := UInt16.ofNat (256*ip.a.toNat + ip.b.toNat)

def lowGroup (ip : Ipv4) : UInt16 := UInt16.ofNat (256*ip.c.toNat + ip.d.toNat)

def ofGroups (high low : UInt16) : Ipv4 :=
  ⟨UInt8.ofNat (high.toNat/256),UInt8.ofNat high.toNat,
    UInt8.ofNat (low.toNat/256),UInt8.ofNat low.toNat⟩

end Ipv4

namespace Ipv6

def ofGroups? (groups : List UInt16) : Option Ipv6 :=
  if h : groups.length = 8 then some ⟨groups,h⟩ else none

/-- The version 4 address that `::ffff:0:0/96` holds. -/
def mapped? (ip : Ipv6) : Option Ipv4 :=
  if ip.groups.take 6 = [0,0,0,0,0,65535] then
    match ip.groups.drop 6 with
    | [high,low] => some (.ofGroups high low)
    | _ => none
  else none

end Ipv6

namespace Socket

def port : Socket → UInt16
  | v4 _ port => port
  | v6 _ port _ _ => port

/-- The flow label, 0 for a version 4 address. -/
def flow : Socket → UInt32
  | v4 _ _ => 0
  | v6 _ _ flow _ => flow

/-- The address with its flow label cleared, which is what text keeps of it. -/
def withoutFlow : Socket → Socket
  | v6 address port _ scope => v6 address port 0 scope
  | s => s

theorem withoutFlow_eq_self {socket : Socket} : socket.withoutFlow = socket ↔ socket.flow = 0 := by
  cases socket with
  | v4 _ _ => exact iff_of_true rfl rfl
  | v6 _ _ flow _ => simp only [withoutFlow,Socket.flow,v6.injEq,true_and,and_true,eq_comm]

end Socket

/-! Reading the text of an address. Each rule takes its phrase off the front and returns the
rest, or takes nothing. -/

/-- A rule of the grammar. -/
abbrev Phrase (α : Type) := List Char → Option (α × List Char)

namespace Phrase

def symbol (c : Char) : List Char → Option (List Char)
  | [] => none
  | d::rest => if d = c then some rest else none

/-- A numeral below `bound`, all its digits taken. -/
def number (radix bound : Nat) (maxDigits : Option Nat) (leadingZeros : Bool) : Phrase Nat :=
  fun cs =>
  let isDigit c := (Numeral.digit? radix c).isSome
  let digits := cs.takeWhile isDigit
  let value := Numeral.ofDigits radix (digits.filterMap (Numeral.digit? radix))
  if digits = [] ∨ maxDigits.any (· < digits.length) ∨
      (!leadingZeros && digits.head? == some '0' && 1 < digits.length) ∨ bound ≤ value then none
  else some (value,cs.dropWhile isDigit)

def octet : Phrase UInt8 := fun cs => do
  let (n,cs) ← number 10 256 (some 3) false cs
  return (UInt8.ofNat n,cs)

def group : Phrase UInt16 := fun cs => do
  let (n,cs) ← number 16 65536 (some 4) true cs
  return (UInt16.ofNat n,cs)

def ipv4 : Phrase Ipv4 := fun cs => do
  let (a,cs) ← octet cs
  let cs ← symbol '.' cs
  let (b,cs) ← octet cs
  let cs ← symbol '.' cs
  let (c,cs) ← octet cs
  let cs ← symbol '.' cs
  let (d,cs) ← octet cs
  return (⟨a,b,c,d⟩,cs)

/-- Groups of a version 6 address. -/
structure Groups where
  values : List UInt16
  /-- The last two groups were written as a version 4 address. -/
  dotted : Bool
  rest : List Char

/-- As many groups as there are, up to `room`. Dotted groups need room for two and end the list. -/
def groups (isFirst : Bool) : Nat → List Char → Groups
  | 0, cs => ⟨[],false,cs⟩
  | room+1, cs =>
      let start := if isFirst then some cs else symbol ':' cs
      match if room = 0 then none else start.bind ipv4 with
      | some (ip,cs) => ⟨[ip.highGroup,ip.lowGroup],true,cs⟩
      | none =>
          match start.bind group with
          | some (g,cs) =>
              let more := groups false room cs
              ⟨g::more.values,more.dotted,more.rest⟩
          | none => ⟨[],false,cs⟩

/-- Eight groups, or fewer around one `::`, which stands for at least one. -/
def ipv6 : Phrase Ipv6 := fun cs =>
  let front := groups true 8 cs
  if front.values.length = 8 then do
    let ip ← Ipv6.ofGroups? front.values
    return (ip,front.rest)
  else if front.dotted then none
  else do
    let cs ← symbol ':' front.rest
    let cs ← symbol ':' cs
    let back := groups true (7 - front.values.length) cs
    let zeros := 8 - front.values.length - back.values.length
    let ip ← Ipv6.ofGroups? (front.values ++ List.replicate zeros 0 ++ back.values)
    return (ip,back.rest)

def ip : Phrase Ip := fun cs =>
  ((ipv4 cs).map fun (ip,cs) => (.v4 ip,cs)) <|> (ipv6 cs).map fun (ip,cs) => (.v6 ip,cs)

def port : Phrase UInt16 := fun cs => do
  let cs ← symbol ':' cs
  let (n,cs) ← number 10 65536 none true cs
  return (UInt16.ofNat n,cs)

/-- A zone behind a version 6 address; without one the zone is 0. -/
def zone (cs : List Char) : UInt32 × List Char :=
  match (symbol '%' cs).bind (number 10 4294967296 none true) with
  | some (n,cs) => (UInt32.ofNat n,cs)
  | none => (0,cs)

def socketV4 : Phrase Socket := fun cs => do
  let (ip,cs) ← ipv4 cs
  let (port,cs) ← port cs
  return (.v4 ip port,cs)

def socketV6 : Phrase Socket := fun cs => do
  let cs ← symbol '[' cs
  let (ip,cs) ← ipv6 cs
  let (scope,cs) := zone cs
  let cs ← symbol ']' cs
  let (port,cs) ← port cs
  return (.v6 ip port 0 scope,cs)

def socket : Phrase Socket := fun cs => socketV4 cs <|> socketV6 cs

/-- Reads a whole text as one phrase. -/
def whole {α : Type} (phrase : Phrase α) (text : List Char) : Option α :=
  match phrase text with
  | some (a,[]) => some a
  | _ => none

end Phrase

/-! Writing the text of an address. Groups are written in lower-case hexadecimal without leading
zeros. The longest run of two or more zero groups, the first of equals, becomes `::`. -/

def Ipv4.write (ip : Ipv4) : List Char :=
  ['.'].intercalate ([ip.a,ip.b,ip.c,ip.d].map fun x => Numeral.write 10 x.toNat)

namespace Ipv6

def writeGroups (groups : List UInt16) : List Char :=
  [':'].intercalate (groups.map fun g => Numeral.write 16 g.toNat)

/-- Zero groups in a row from a start. -/
def zerosFrom (groups : List UInt16) (start : Nat) : Nat :=
  ((groups.drop start).takeWhile (· == 0)).length

/-- Start and length of the longest run of zero groups. -/
def zeroRun (groups : List UInt16) : Nat × Nat :=
  (List.range groups.length).foldl (fun best start =>
    let length := zerosFrom groups start
    if best.2 < length then (start,length) else best) (0,0)

def write (ip : Ipv6) : List Char :=
  match ip.mapped? with
  | some v4 => "::ffff:".toList ++ v4.write
  | none =>
      let (start,length) := zeroRun ip.groups
      if 1 < length then
        writeGroups (ip.groups.take start) ++ [':',':'] ++
          writeGroups (ip.groups.drop (start + length))
      else writeGroups ip.groups

end Ipv6

def Ip.write : Ip → List Char
  | .v4 ip => ip.write
  | .v6 ip => ip.write

def Socket.write : Socket → List Char
  | .v4 ip port => ip.write ++ ':' :: Numeral.write 10 port.toNat
  | .v6 ip port _ scope =>
      let zone := if scope = 0 then [] else '%' :: Numeral.write 10 scope.toNat
      '[' :: ip.write ++ zone ++ ']' :: ':' :: Numeral.write 10 port.toNat

end Bitwire
