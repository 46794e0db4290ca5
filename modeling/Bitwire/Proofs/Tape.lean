import Bitwire.Bits.View
import Bitwire.Message.Run
import Bitwire.Proofs.Visits

/-! Writing onto a list of bits. The packer is a tape whose bits are kept in bytes, the meter
a tape of which only the length is known. -/
namespace Bitwire

/-- The zeros from a position to the next byte boundary. -/
def zeroPadding (position : Nat) : List Bool := List.replicate (padding position) false

@[simp] theorem zeroPadding_length (position : Nat) :
    (zeroPadding position).length = padding position := List.length_replicate

/-- The bits written so far. -/
abbrev Tape := List Bool

namespace Tape

def pad (t : Tape) : Tape := t ++ zeroPadding t.length

def stream (checks : Bool) : Stream Tape where
  mode := .write
  integer min max value t :=
    Step.given (Range.ofBounds min max) value t fun range =>
    Step.given (range.permit value.toInt) value t fun _ =>
    .done value (t ++ bitsOf range.bits (range.offset value).toNat)
  bits count value t :=
    Step.given (permitCount count) value t fun _ => .done value (t ++ bitsOf count value.toNat)
  bytes data t := .done data (t.pad ++ bitsOfBytes data.toList)
  align t := .done () t.pad
  check t := .done () (if checks then t.pad ++ bitsOf 32 checkWord.toNat else t)
  object visit _ t := visit t
  position t := t.length

end Tape

namespace Packer

/-- The packer has taken the bits of a tape. -/
structure Holds (p : Packer) (t : Tape) : Prop where
  sound : p.Sound
  view : p.view = t

variable {p : Packer} {t : Tape}

theorem Holds.position (h : p.Holds t) : p.position = t.length := by
  rw [← h.view,h.sound.view_length]

theorem Holds.push (h : p.Holds t) (value : UInt32) (n : Nat) :
    (p.push value n).Holds (t ++ bitsOf n value.toNat) :=
  ⟨push_sound h.sound value n,by rw [push_view h.sound,h.view]⟩

theorem Holds.pad (h : p.Holds t) : p.pad.Holds t.pad :=
  ⟨pad_sound h.sound,by rw [pad_view h.sound,h.view,h.position,Tape.pad,zeroPadding]⟩

theorem Holds.append (h : p.Holds t) (bytes : List UInt8) :
    (p.append bytes).Holds (t ++ bitsOfBytes bytes) :=
  ⟨append_sound h.sound bytes,by rw [append_view h.sound,h.view]⟩

theorem empty_holds : empty.Holds [] := ⟨empty_sound,rfl⟩

theorem stream_holds (checks : Bool) : (stream checks).Simulates (Tape.stream checks) Holds where
  reading := rfl
  position h := h.position
  integer min max value _ _ h := .given _ _ h fun range => .given _ _ h fun _ =>
    .done value (h.push _ _)
  bits count value _ _ h := .given _ _ h fun _ => .done value (h.push _ _)
  bytes data _ _ h := .done data (h.pad.append data.toList)
  align h := .done () h.pad
  check h := .done () (by split; exacts [h.pad.push _ _,h])
  object _ go _ _ h := go _ _ h

end Packer

namespace Meter

/-- The meter has counted the bits of a tape. -/
structure Level (m : Meter) (t : Tape) : Prop where
  position : m.position = t.length

variable {m : Meter} {t : Tape}

theorem exists_level (m : Meter) : ∃ t, m.Level t :=
  ⟨List.replicate m.position false,⟨List.length_replicate.symm⟩⟩

theorem Level.add (h : m.Level t) {n : Nat} {bits : List Bool} (length : bits.length = n) :
    (m.add n).Level (t ++ bits) := ⟨by rw [List.length_append,length,← h.position]; rfl⟩

theorem Level.pad (h : m.Level t) : m.pad.Level t.pad := by
  rw [Meter.pad,h.position]
  exact h.add (zeroPadding_length _)

theorem stream_level (checks : Bool) : (stream checks).Simulates (Tape.stream checks) Level where
  reading := rfl
  position h := h.position
  integer min max value _ _ h := .given _ _ h fun range => .given _ _ h fun _ =>
    .done value (h.add (bitsOf_length _ _))
  bits count value _ _ h := .given _ _ h fun _ => .done value (h.add (bitsOf_length _ _))
  bytes data _ _ h := .done data (h.pad.add (by simp))
  align h := .done () h.pad
  check h := .done () (by split; exacts [h.pad.add (bitsOf_length _ _),h])
  object _ go _ _ h := go _ _ h

end Meter
end Bitwire
