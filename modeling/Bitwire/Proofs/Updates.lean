import Bitwire.Message.Update
import Bitwire.Proofs.Causal

/-! Worked messages that both sides follow alike. -/
namespace Bitwire

namespace Update

theorem fields_free : Throughout Field.IsModeFree fields :=
  ⟨fun _ _ => rfl,fun _ _ => rfl,fun _ _ => rfl,fun _ _ => rfl,fun _ _ => rfl,fun _ _ => rfl,
    fun _ _ => rfl,trivial⟩

/-- The one parameter that is no constant is the number sent first. -/
theorem fields_causal : Causal fields
  | .cons (.leaf sequence) (.cons _ (.cons _ (.cons _ (.cons _ (.cons _ (.cons _ .nil)))))),
    .cons (.leaf sequence') (.cons _ (.cons _ (.cons _ (.cons _ (.cons _ (.cons _ .nil)))))) => by
      apply Record.coherent_fixed rfl fun _ _ => rfl
      rintro ⟨⟩
      refine Record.coherent_leaf rfl ?_ fun _ => ?_
      · rfl
      apply Record.coherent_fixed rfl fun _ _ => rfl
      intro _
      apply Record.coherent_fixed rfl fun _ _ => rfl
      intro _
      apply Record.coherent_fixed rfl fun _ _ => rfl
      intro _
      apply Record.coherent_fixed rfl fun _ _ => rfl
      intro _
      exact Record.coherent_fixed rfl (fun _ _ => rfl) fun _ => trivial

/-- The fields demand no more than a health of at most 100 and a name that fits its buffer. -/
theorem toRecord_fits {u : Update} (health : u.health ≤ 100) (name : u.name.utf8ByteSize ≤ 31) :
    u.toRecord.Meets Leaf.Fits .empty := by
  have sequence : Between (Int32.ofInt 0) (Int32.ofInt 65535) (IntTarget.toInt u.sequence) := by
    have := u.sequence.toNat_lt
    refine ⟨by decide,?_,?_⟩
    · change (0 : Int) ≤ (u.sequence.toNat : Int); omega
    · change (u.sequence.toNat : Int) ≤ 65535; omega
  have health : Between (Int32.ofInt 0) (Int32.ofInt 100) (IntTarget.toInt u.health) := by
    have : u.health.toNat ≤ 100 := UInt8.le_iff_toNat_le.mp health
    refine ⟨by decide,?_,?_⟩
    · change (0 : Int) ≤ (u.health.toNat : Int); omega
    · change (u.health.toNat : Int) ≤ 100; omega
  have size : (2 ≤ (32 : Int).toNat ∧ (32 : Int).toNat ≤ 2^31) ∧
      u.name.utf8ByteSize ≤ (32 : Int).toNat - 1 := ⟨by decide,name⟩
  exact ⟨fun _ => ⟨sequence,trivial⟩,fun _ => ⟨trivial,trivial⟩,fun _ => ⟨health,trivial⟩,
    fun _ => ⟨trivial,trivial⟩,fun _ => ⟨trivial,trivial⟩,fun _ => ⟨size,trivial⟩,
    fun _ => ⟨trivial,trivial⟩,trivial⟩

end Update

/-- A width, as many bits, and behind a width of 5 one bit more. -/
def sizedFields : List Field :=
  [.leaf ⟨some "width",.always,false⟩ (.int .u8 (fun _ => 1) (fun _ => 32)),
   .leaf ⟨none,.always,false⟩ (.rawBits (Expr.ref ["width"]).eval),
   .leaf ⟨none,⟨none,Guard.whenEq ["width"] 5⟩,false⟩ .bool]

theorem sizedFields_free : Throughout Field.IsModeFree sizedFields :=
  ⟨fun _ _ => rfl,fun _ _ => rfl,fun _ _ => rfl,trivial⟩

theorem sizedFields_causal : Causal sizedFields
  | .cons (.leaf width) (.cons (.leaf _) (.cons (.leaf _) .nil)),
    .cons (.leaf width') (.cons (.leaf _) (.cons (.leaf _) .nil)) => by
      refine ⟨rfl,fun _ => rfl,fun same => ?_⟩
      obtain rfl : width = width' := same rfl
      exact ⟨rfl,fun _ => rfl,fun _ => ⟨rfl,fun _ => rfl,fun _ => trivial⟩⟩

/-- Where a server is found and how many places it has left. -/
def beaconFields : List Field :=
  [.leaf ⟨none,.always,false⟩ (.address .socket),
   .leaf ⟨none,.always,false⟩ (.bits .u8 (fun _ => 3))]

theorem beaconFields_free : Throughout Field.IsModeFree beaconFields :=
  ⟨fun _ _ => rfl,fun _ _ => rfl,trivial⟩

theorem beaconFields_causal : Causal beaconFields
  | .cons (.leaf _) (.cons (.leaf _) .nil), .cons (.leaf _) (.cons (.leaf _) .nil) =>
    Record.coherent_fixed rfl (fun _ _ => rfl) fun _ =>
      Record.coherent_fixed rfl (fun _ _ => rfl) fun _ => trivial

/-- Demands a flow label of the address at a path. -/
def Guard.whenLabelled (path : List String) : Scope → Bool := fun scope =>
  match scope path with
  | some (.socket address) => address.flow != 0
  | _ => false

/-- Where a message comes from, and a leaf more if that address has a flow label. Both sides follow
the routine alike, but no reader ever finds a label. -/
def labelledFields (kind : Leaf) : List Field :=
  [.leaf ⟨some "origin",.always,false⟩ (.address .socket),
   .leaf ⟨none,⟨none,Guard.whenLabelled ["origin"]⟩,false⟩ kind]

/-- The local host under a flow label, and the leaf that it demands. -/
def labelled (kind : Leaf) (value : kind.Value) : Record (labelledFields kind) :=
  .cons (.leaf (Socket.v6 ⟨[0,0,0,0,0,0,0,1],rfl⟩ 1 7 0)) (.cons (.leaf value) .nil)

/-- A flow label keeps no address from being sent. -/
theorem labelled_permits {kind : Leaf} {value : kind.Value}
    (permits : ∀ scope, kind.Permits scope value) :
    (labelled kind value).Meets Leaf.Permits .empty := by
  have address : (Leaf.address .socket).Permits .empty
    (Socket.v6 ⟨[0,0,0,0,0,0,0,1],rfl⟩ 1 7 0) := by decide +kernel
  exact ⟨fun _ => address,fun _ => permits _,trivial⟩

theorem labelledFields_free (kind : Leaf) : Throughout Field.IsModeFree (labelledFields kind) :=
  ⟨fun _ _ => rfl,fun _ _ => rfl,trivial⟩

theorem labelledFields_causal {kind : Leaf}
    (fixed : ∀ scope scope', kind.params scope = kind.params scope') :
    Causal (labelledFields kind)
  | .cons (.leaf origin) (.cons (.leaf _) .nil), .cons (.leaf origin') (.cons (.leaf _) .nil) => by
      refine ⟨rfl,fun _ => rfl,fun same => ?_⟩
      obtain rfl : origin = origin' := same rfl
      exact ⟨rfl,fun _ => fixed _ _,fun _ => trivial⟩

/-- The last message seen and where it came from. Both have more forms than the one that is sent. -/
def noticeFields : List Field :=
  [.leaf ⟨none,.always,false⟩ (.ackRelative (fun _ => 100)),
   .leaf ⟨none,.always,false⟩ (.address .ip)]

theorem noticeFields_free : Throughout Field.IsModeFree noticeFields :=
  ⟨fun _ _ => rfl,fun _ _ => rfl,trivial⟩

theorem noticeFields_causal : Causal noticeFields
  | .cons (.leaf _) (.cons (.leaf _) .nil), .cons (.leaf _) (.cons (.leaf _) .nil) =>
    Record.coherent_fixed rfl (fun _ _ => rfl) fun _ =>
      Record.coherent_fixed rfl (fun _ _ => rfl) fun _ => trivial

end Bitwire
