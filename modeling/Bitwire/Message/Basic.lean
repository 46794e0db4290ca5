import Bitwire.Directive

/-! Messages as data. A list of fields says how an object travels, a record holds a value for
each of them.

The parameters of a field are functions of a scope: the values of the same object's fields, by
name. A nested object is reached by a path of names. -/
namespace Bitwire

/-- A value as parameters see it, whole. -/
inductive Datum where
  | number (n : Int)
  | text (text : String)
  | bytes (bytes : List UInt8)
  | ip (address : Ip)
  | socket (address : Socket)
  deriving DecidableEq, Repr

/-- The value at a path, if a field there has one. -/
abbrev Scope := List String → Option Datum

namespace Scope

def empty : Scope := fun _ => none

/-- Values of the first scope hide those of the second. -/
def orElse (first second : Scope) : Scope := fun path =>
  match first path with
  | some datum => some datum
  | none => second path

/-- A scope seen under a name. Nothing is seen of a field without one. -/
def named (label : Option String) (inner : Scope) : Scope
  | [] => none
  | name::path => if label = some name then inner path else none

def number (scope : Scope) (path : List String) : Option Int :=
  match scope path with
  | some (.number n) => some n
  | _ => none

@[simp] theorem orElse_empty (scope : Scope) : scope.orElse empty = scope := by
  funext path
  unfold orElse empty
  cases scope path <;> rfl

@[simp] theorem empty_orElse (scope : Scope) : empty.orElse scope = scope := rfl

end Scope

/-- A parameter of a field. -/
abbrev Param := Scope → Int

/-- A parameter as it is written down. -/
inductive Expr where
  | literal (n : Int)
  | ref (path : List String)
  | add (left right : Expr)
  deriving DecidableEq, Repr

namespace Expr

/-- The path that a dotted name denotes. -/
def path (name : String) : List String := name.splitOn "."

/-- The value of an expression. A name without a number counts as 0. -/
def eval : Expr → Param
  | literal n, _ => n
  | ref path, scope => (scope.number path).getD 0
  | add left right, scope => left.eval scope + right.eval scope

end Expr

inductive IntType where
  | u8 | i8 | u16 | i16 | u32 | i32 | i64
  deriving DecidableEq, Repr

@[reducible] def IntType.Carrier : IntType → Type
  | u8 => UInt8
  | i8 => Int8
  | u16 => UInt16
  | i16 => Int16
  | u32 => UInt32
  | i32 => Int32
  | i64 => Int64

instance : (t : IntType) → IntTarget t.Carrier
  | .u8 => inferInstanceAs (IntTarget UInt8)
  | .i8 => inferInstanceAs (IntTarget Int8)
  | .u16 => inferInstanceAs (IntTarget UInt16)
  | .i16 => inferInstanceAs (IntTarget Int16)
  | .u32 => inferInstanceAs (IntTarget UInt32)
  | .i32 => inferInstanceAs (IntTarget Int32)
  | .i64 => inferInstanceAs (IntTarget Int64)

def IntType.zero : (t : IntType) → t.Carrier
  | u8 => 0
  | i8 => 0
  | u16 => 0
  | i16 => 0
  | u32 => 0
  | i32 => 0
  | i64 => 0

inductive BitsType where
  | u8 | u16 | u32 | char
  deriving DecidableEq, Repr

@[reducible] def BitsType.Carrier : BitsType → Type
  | u8 => UInt8
  | u16 => UInt16
  | u32 => UInt32
  | char => Char

instance : (t : BitsType) → BitsTarget t.Carrier
  | .u8 => inferInstanceAs (BitsTarget UInt8)
  | .u16 => inferInstanceAs (BitsTarget UInt16)
  | .u32 => inferInstanceAs (BitsTarget UInt32)
  | .char => inferInstanceAs (BitsTarget Char)

def BitsType.zero : (t : BitsType) → t.Carrier
  | u8 => 0
  | u16 => 0
  | u32 => 0
  | char => '\x00'

inductive AddressType where
  | socket | ip | endpoint
  deriving DecidableEq, Repr

namespace AddressType

@[reducible] def Carrier : AddressType → Type
  | socket => Socket
  | ip => Ip
  | endpoint => Endpoint

def format : (t : AddressType) → AddressFormat t.Carrier
  | socket => Socket.format
  | ip => Ip.format
  | endpoint => Endpoint.format

/-- What parameters see of an address, its flow label included. -/
def datum : (t : AddressType) → t.Carrier → Datum
  | socket, address => .socket address
  | ip, address => .ip address
  | endpoint, address => .socket (Endpoint.socket address)

theorem datum_inj {t : AddressType} {a b : t.Carrier} (same : t.datum a = t.datum b) : a = b := by
  cases t with
  | socket => exact Datum.socket.inj same
  | ip => exact Datum.ip.inj same
  | endpoint =>
    cases a
    cases b
    exact congrArg Endpoint.mk (Datum.socket.inj same)

/-- The flow label of an address. One without a port has none. -/
def flow : (t : AddressType) → t.Carrier → UInt32
  | socket, address => Socket.flow address
  | ip, _ => 0
  | endpoint, address => (Endpoint.socket address).flow

/-- The address 0.0.0.0. An endpoint starts with port 1, so that it may be sent. -/
def unspecified : (t : AddressType) → t.Carrier
  | socket => .v4 ⟨0,0,0,0⟩ 0
  | ip => .v4 ⟨0,0,0,0⟩
  | endpoint => ⟨.v4 ⟨0,0,0,0⟩ 1⟩

end AddressType

/-- A field that is no object, and its parameters. -/
inductive Leaf where
  | int (type : IntType) (min max : Param)
  | bits (type : BitsType) (count : Param)
  | rawInt (min max : Param)
  | rawBits (count : Param)
  | bool | u32 | u64 | float | double
  | bytes (length : Nat)
  | text (size : Param)
  | align | check
  | address (type : AddressType)
  | relative (previous : Param)
  | ackRelative (sequence : Param)
  | sequenceRelative (first : Param)

namespace Leaf

@[reducible] def Value : Leaf → Type
  | int type _ _ => type.Carrier
  | bits type _ => type.Carrier
  | rawInt .. => Int32
  | rawBits _ | u32 | float | relative _ => UInt32
  | u64 | double => UInt64
  | bool => Bool
  | bytes length => Vector UInt8 length
  | text _ => String
  | align | check => Unit
  | address type => type.Carrier
  | ackRelative _ | sequenceRelative _ => UInt16

/-- The value of a field that nothing was stored in. -/
def initial : (leaf : Leaf) → leaf.Value
  | int type _ _ => type.zero
  | bits type _ => type.zero
  | rawInt .. => (0 : Int32)
  | rawBits _ | u32 | float | relative _ => (0 : UInt32)
  | u64 | double => (0 : UInt64)
  | bool => false
  | bytes length => Vector.replicate length 0
  | text _ => ""
  | align | check => ()
  | address type => type.unspecified
  | ackRelative _ | sequenceRelative _ => (0 : UInt16)

/-- What parameters see of a value. -/
def datum : (leaf : Leaf) → leaf.Value → Option Datum
  | int _ _ _, value => some (.number (IntTarget.toInt value))
  | bits _ _, value => some (.number (BitsTarget.toWord value).toNat)
  | rawInt .., value => some (.number (Int32.toInt value))
  | rawBits _, value | u32, value | float, value | relative _, value =>
      some (.number (UInt32.toNat value))
  | u64, value | double, value => some (.number (UInt64.toNat value))
  | bool, value => some (.number (Bool.toNat value))
  | bytes _, value => some (.bytes (Vector.toList value))
  | text _, value => some (.text value)
  | align, _ | check, _ => none
  | address type, value => some (type.datum value)
  | ackRelative _, value | sequenceRelative _, value => some (.number (UInt16.toNat value))

/-- Parameters see all of a value: two that look the same to them are the same. -/
theorem datum_inj {kind : Leaf} {a b : kind.Value} (same : kind.datum a = kind.datum b) :
    a = b := by
  have number : ∀ {m n : Nat}, some (Datum.number m) = some (Datum.number n) → m = n :=
    fun same => Int.ofNat.inj (Datum.number.inj (Option.some.inj same))
  cases kind with
  | int type _ _ => exact IntTarget.toInt_inj (Datum.number.inj (Option.some.inj same))
  | bits type _ => exact BitsTarget.toWord_inj (UInt32.toNat_inj.mp (number same))
  | rawInt _ _ => exact Int32.toInt_inj.mp (Datum.number.inj (Option.some.inj same))
  | rawBits _ | u32 | float | relative _ => exact UInt32.toNat_inj.mp (number same)
  | u64 | double => exact UInt64.toNat_inj.mp (number same)
  | ackRelative _ | sequenceRelative _ => exact UInt16.toNat_inj.mp (number same)
  | bool => exact (by decide : ∀ x y : Bool, x.toNat = y.toNat → x = y) a b (number same)
  | bytes _ => exact Vector.toList_inj.mp (Datum.bytes.inj (Option.some.inj same))
  | text _ => exact Datum.text.inj (Option.some.inj same)
  | address type => exact AddressType.datum_inj (Option.some.inj same)
  | align | check => rfl

/-- Passes a value through a stream, with the parameters taken from the scope. -/
def run {σ : Type} (S : Stream σ) (scope : Scope) : (leaf : Leaf) → Routine σ leaf.Value
  | int _ min max => Directive.int S (Int32.ofInt (min scope)) (Int32.ofInt (max scope))
  | bits _ count => Directive.bits S (count scope).toNat
  | rawInt min max => S.integer (Int32.ofInt (min scope)) (Int32.ofInt (max scope))
  | rawBits count => S.bits (count scope).toNat
  | bool => Directive.bool S
  | u32 => Directive.u32 S
  | u64 => Directive.u64 S
  | float => Directive.float S
  | double => Directive.double S
  | bytes _ => S.bytes
  | text size => Directive.text S (size scope).toNat
  | align => fun _ s => S.align s
  | check => fun _ s => S.check s
  | address type => Directive.address S type.format
  | relative previous => Directive.relative S (UInt32.ofInt (previous scope))
  | ackRelative sequence => Directive.ackRelative S (UInt16.ofInt (sequence scope))
  | sequenceRelative first => Directive.sequenceRelative S (UInt16.ofInt (first scope))

end Leaf

/-- When a field takes part, by default always. -/
structure Guard where
  modes : Option (List Mode)
  holds : Scope → Bool

namespace Guard

def always : Guard := ⟨none,fun _ => true⟩

def admits (g : Guard) (mode : Mode) (scope : Scope) : Bool :=
  (match g.modes with
    | none => true
    | some modes => modes.contains mode) && g.holds scope

/-- Demands that the number at a path has a value. -/
def whenEq (path : List String) (n : Int) : Scope → Bool := fun scope =>
  (Expr.ref path).eval scope == n

end Guard

structure Tag where
  label : Option String
  guard : Guard
  /-- As a step of its own the field uses a fresh variable or a copy. -/
  isShortcut : Bool

/-- How a nested object is reached: its type is known to the routine or only to the stream. -/
inductive Dispatch where
  | static | dynamic
  deriving DecidableEq, Repr

inductive Field where
  | leaf (tag : Tag) (kind : Leaf)
  | object (tag : Tag) (dispatch : Dispatch) (fields : List Field)

def Field.tag : Field → Tag
  | leaf tag _ => tag
  | object tag _ _ => tag

mutual
inductive Field.Value : Field → Type
  | leaf {tag : Tag} {kind : Leaf} (value : kind.Value) : Field.Value (.leaf tag kind)
  | object {tag : Tag} {dispatch : Dispatch} {fields : List Field} (record : Record fields) :
      Field.Value (.object tag dispatch fields)
inductive Record : List Field → Type
  | nil : Record []
  | cons {field : Field} {fields : List Field} (value : Field.Value field) (rest : Record fields) :
      Record (field::fields)
end

mutual
def Field.initial : (field : Field) → field.Value
  | .leaf _ kind => .leaf kind.initial
  | .object _ _ fields => .object (Record.initial fields)
/-- A record that nothing was stored in. -/
def Record.initial : (fields : List Field) → Record fields
  | [] => .nil
  | field::fields => .cons field.initial (Record.initial fields)
end

mutual
/-- What parameters see of a field's value, without its name. -/
def Field.Value.inner : {field : Field} → field.Value → Scope
  | .leaf _ kind, .leaf value, [] => kind.datum value
  | .leaf .., .leaf _, _::_ => none
  | .object .., .object record, path => record.scope path
def Record.scope : {fields : List Field} → Record fields → Scope
  | [], .nil, _ => none
  | field::_, .cons value rest, path =>
      (Scope.named field.tag.label value.inner).orElse rest.scope path
end

def Field.Value.scope {field : Field} (value : field.Value) : Scope :=
  .named field.tag.label value.inner

end Bitwire
