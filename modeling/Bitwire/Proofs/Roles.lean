import Bitwire.Proofs.Causal

/-! What each bit of a message is there for: to carry a value, to reach a byte boundary, or to be
part of an integrity check. A reader looks at every bit that carries no value. -/
namespace Bitwire

/-- What a bit of a message is there for. A bit of a sentinel has a place in it. -/
inductive Role where
  | payload | padding
  | sentinel (place : Fin 32)
  deriving DecidableEq, Repr

namespace Role

/-- How a reader ends at a bit that was changed, from the bits that it reads. -/
def verdict (bits : List Bool) (i : Nat) : Role → Option Error
  | payload => none
  | padding => some .invalidPadding
  | sentinel place =>
      some (.checkFailed checkWord (Cursor.word ((bits.drop (i - place)).take 32)))

/-- The bits up to here decide how the reader ends. -/
def reach (i : Nat) : Role → Nat
  | sentinel place => i - place + 32
  | _ => i + 1

/-- What lies behind the deciding bits is no matter. -/
theorem verdict_congr {bits other : List Bool} {i : Nat} {role : Role}
    (same : other.take (role.reach i) = bits.take (role.reach i)) :
    role.verdict other i = role.verdict bits i := by
  cases role with
  | payload => rfl
  | padding => rfl
  | sentinel place =>
    have part := congrArg (List.drop (i - place)) same
    simp only [reach,List.drop_take,Nat.add_sub_cancel_left] at part
    simp only [verdict,part]

theorem lt_reach (role : Role) (i : Nat) : i < role.reach i := by
  cases role with
  | sentinel place =>
    have := place.isLt
    simp only [reach]
    omega
  | _ => exact Nat.lt_succ_self i

end Role

namespace Roles

def payload (n : Nat) : List Role := List.replicate n .payload

def padding (position : Nat) : List Role := List.replicate (Bitwire.padding position) .padding

def sentinel : List Role := List.ofFn Role.sentinel

def bytes (position length : Nat) : List Role := padding position ++ payload (8*length)

def check (position : Nat) : List Role := padding position ++ sentinel

def text (size position : Nat) (value : String) : List Role :=
  let length := bitsRequired 0 (Int32.ofNat (size - 1))
  payload length ++ bytes (position + length) value.utf8ByteSize

@[simp] theorem payload_length (n : Nat) : (payload n).length = n := List.length_replicate

@[simp] theorem padding_length (position : Nat) :
    (padding position).length = Bitwire.padding position := List.length_replicate

@[simp] theorem sentinel_length : sentinel.length = 32 := List.length_ofFn

end Roles

/-- The roles of the bits of a value sent from a position. -/
def Leaf.roles (checks : Bool) (scope : Scope) (position : Nat) :
    (kind : Leaf) → kind.Value → List Role
  | bytes length, _ => Roles.bytes position length
  | text size, value => Roles.text (size scope).toNat position value
  | align, _ => Roles.padding position
  | check, _ => if checks then Roles.check position else []
  | address type, value => Roles.text AddressFormat.bufferSize position (type.format.write value)
  | kind, value => Roles.payload (kind.wire checks scope position value).length

mutual
/-- The roles of the bits of a field sent from a position. -/
def Field.Value.roles (checks : Bool) (scope : Scope) (position : Nat) :
    {field : Field} → field.Value → List Role
  | .leaf _ kind, .leaf value => kind.roles checks scope position value
  | .object .., .object record => record.roles checks .empty position
/-- The roles of the bits of a record sent from a position. -/
def Record.roles (checks : Bool) (finished : Scope) (position : Nat) :
    {fields : List Field} → Record fields → List Role
  | [], .nil => []
  | field::_, .cons value rest =>
      let scope := finished.orElse (Record.cons value rest).scope
      let bits := if field.isSent scope then value.wire checks scope position else []
      (if field.isSent scope then value.roles checks scope position else []) ++
        rest.roles checks (finished.orElse value.scope) (position + bits.length)
end

/-- The roles of all bits of a message, those of the last byte included. -/
def Record.messageRoles (checks : Bool) {fields : List Field} (record : Record fields) :
    List Role :=
  record.roles checks .empty 0 ++ Roles.padding (record.wire checks .empty 0).length

namespace Wire

theorem text_length (size position : Nat) (value : String) :
    (text size position value).length = (Roles.text size position value).length := by
  have bytes : value.toUTF8.data.toList.length = value.utf8ByteSize := rfl
  simp only [text,Roles.text,Roles.bytes,List.length_append,bytes_length,integer_length,bytes,
    Roles.payload_length,Roles.padding_length]

end Wire

theorem Leaf.roles_length (checks : Bool) (scope : Scope) (position : Nat) (kind : Leaf)
    (value : kind.Value) :
    (kind.roles checks scope position value).length =
      (kind.wire checks scope position value).length := by
  cases kind with
  | bytes length => simp [roles,wire,Roles.bytes,Wire.bytes_length]
  | text size => exact (Wire.text_length _ _ _).symm
  | align => simp [roles,wire]
  | check => cases checks <;> simp [roles,wire,Roles.check,Wire.check]
  | address type => exact (Wire.text_length _ _ _).symm
  | _ => exact Roles.payload_length _

mutual
theorem Field.Value.roles_length (checks : Bool) (scope : Scope) (position : Nat) :
    {field : Field} → (value : field.Value) →
    (value.roles checks scope position).length = (value.wire checks scope position).length
  | .leaf _ kind, .leaf value => kind.roles_length checks scope position value
  | .object .., .object record => record.roles_length checks .empty position
theorem Record.roles_length (checks : Bool) (finished : Scope) (position : Nat) :
    {fields : List Field} → (record : Record fields) →
    (record.roles checks finished position).length = (record.wire checks finished position).length
  | [], .nil => rfl
  | field::_, .cons value rest => by
      simp only [Record.roles,Record.wire,List.length_append,rest.roles_length]
      congr 1
      split
      · exact value.roles_length checks _ position
      · rfl
end

end Bitwire
