import Bitwire.Message.Run

/-! The state of a player in a game: a worked message with an acknowledgement relative to its
own sequence number and an integrity check at the end. -/
namespace Bitwire

/-- The heading is the bit pattern of a 32-bit float. -/
structure Update where
  sequence : UInt16
  ack : UInt16
  health : UInt8
  alive : Bool
  heading : UInt32
  name : String
  deriving DecidableEq, Repr

namespace Update

private def named (label : String) : Tag := ⟨some label,.always,false⟩

def fields : List Field :=
  [.leaf (named "sequence") (.int .u16 (fun _ => 0) (fun _ => 65535)),
   .leaf (named "ack") (.ackRelative (Expr.ref ["sequence"]).eval),
   .leaf (named "health") (.int .u8 (fun _ => 0) (fun _ => 100)),
   .leaf (named "alive") .bool,
   .leaf (named "heading") .float,
   .leaf (named "name") (.text (fun _ => 32)),
   .leaf ⟨none,.always,false⟩ .check]

def toRecord (u : Update) : Record fields :=
  .cons (.leaf u.sequence) <| .cons (.leaf u.ack) <| .cons (.leaf u.health) <|
  .cons (.leaf u.alive) <| .cons (.leaf u.heading) <| .cons (.leaf u.name) <|
  .cons (.leaf ()) .nil

def ofRecord : Record fields → Update
  | .cons (.leaf sequence) (.cons (.leaf ack) (.cons (.leaf health) (.cons (.leaf alive)
      (.cons (.leaf heading) (.cons (.leaf name) _))))) =>
    ⟨sequence,ack,health,alive,heading,name⟩

@[simp] theorem ofRecord_toRecord (u : Update) : ofRecord u.toRecord = u := rfl

def empty : Update := ⟨0,0,0,false,0,""⟩

def measure (checks : Bool) (u : Update) : Outcome Nat := u.toRecord.measure checks

def encode (checks : Bool) (u : Update) : Outcome (List UInt8) := u.toRecord.encode checks

def decode (checks : Bool) (bytes : List UInt8) : Outcome Update := do
  return ofRecord (← empty.toRecord.decode checks bytes)

end Update
end Bitwire
