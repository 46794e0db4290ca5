import Bitwire.Bits.UnpackerView
import Bitwire.Message.Run
import Bitwire.Proofs.Range
import Bitwire.Proofs.Visits

/-! Reading off a list of bits. The unpacker is a cursor over the bits of its input: what it has
prefetched shows in no answer. The cursor stops at the same counter as the unpacker. -/
namespace Bitwire

/-- As many bytes as asked for, eight bits each. -/
def bytesOf : Nat → List Bool → List UInt8
  | 0, _ => []
  | n+1, bits => UInt8.ofNat (ofBits (bits.take 8))::bytesOf n (bits.drop 8)

@[simp] theorem bytesOf_length (n : Nat) (bits : List Bool) : (bytesOf n bits).length = n := by
  induction n generalizing bits with
  | zero => rfl
  | succ n ih => simp [bytesOf,ih]

theorem bytesOf_bitsOfBytes (bytes : List UInt8) (rest : List Bool) :
    bytesOf bytes.length (bitsOfBytes bytes ++ rest) = bytes := by
  induction bytes with
  | nil => rfl
  | cons b bytes ih =>
    have first : (bitsOf 8 b.toNat ++ (bitsOfBytes bytes ++ rest)).take 8 = bitsOf 8 b.toNat :=
      List.take_left' (bitsOf_length _ _)
    have others : (bitsOf 8 b.toNat ++ (bitsOfBytes bytes ++ rest)).drop 8 =
        bitsOfBytes bytes ++ rest := List.drop_left' (bitsOf_length _ _)
    rw [bitsOfBytes_cons,List.append_assoc,List.length_cons,bytesOf,first,others,ih,ofBits_bitsOf]
    congr 1
    exact UInt8.toNat.inj (by simp)

theorem bitsOfBytes_bytesOf {n : Nat} {bits : List Bool} (length : bits.length = 8*n) :
    bitsOfBytes (bytesOf n bits) = bits := by
  induction n generalizing bits with
  | zero => rw [bytesOf,bitsOfBytes_nil,List.eq_nil_of_length_eq_zero length]
  | succ n ih =>
    have first : (bits.take 8).length = 8 := by rw [List.length_take]; omega
    have small := ofBits_lt (bits.take 8)
    have byte : bitsOf 8 (UInt8.ofNat (ofBits (bits.take 8))).toNat = bits.take 8 := by
      rw [UInt8.toNat_ofNat_of_lt' (by rwa [first] at small)]
      simpa only [first] using bitsOf_ofBits (bits.take 8)
    rw [bytesOf,bitsOfBytes_cons,byte,ih (by rw [List.length_drop]; omega),List.take_append_drop]

theorem bitsOfBytes_inj {first second : List UInt8}
    (same : bitsOfBytes first = bitsOfBytes second) : first = second := by
  have length := congrArg List.length same
  rw [bitsOfBytes_length,bitsOfBytes_length] at length
  have back := bytesOf_bitsOfBytes first []
  rw [same,show first.length = second.length by omega,bytesOf_bitsOfBytes] at back
  exact back.symm

/-- A place in a list of bits. -/
structure Cursor where
  bits : List Bool
  position : Nat
  deriving DecidableEq, Repr

namespace Cursor

def start (bits : List Bool) : Cursor := ⟨bits,0⟩

/-- The bits not taken yet. -/
def rest (c : Cursor) : List Bool := c.bits.drop c.position

def skip (c : Cursor) (n : Nat) : Cursor := ⟨c.bits,c.position + n⟩

/-- The next `n` bits. Past the end nothing is taken; a full counter is a fault. -/
def take (c : Cursor) (n : Nat) : Outcome (List Bool × Cursor) :=
  if 2^64 ≤ c.position + n then halt .counterOverflow
  else if c.rest.length < n then reject .endOfBuffer
  else .ok (c.rest.take n,c.skip n)

/-- Moves to the next byte boundary, also when a skipped bit is set. -/
def skipPadding (c : Cursor) : Step Cursor Unit :=
  Step.given (c.take (padding c.position)) () c fun (bits,c) =>
  if bits.any id then .fail () c (.error .invalidPadding) else .done () c

def fill {n : Nat} (c : Cursor) (out : Vector UInt8 n) : Step Cursor (Vector UInt8 n) :=
  Step.given (c.take (8*n)) out c fun (bits,c) => .done ⟨(bytesOf n bits).toArray,by simp⟩ c

def word (bits : List Bool) : UInt32 := UInt32.ofNat (ofBits bits)

/-- The next `n` bits as a word. -/
def takeWord (c : Cursor) (n : Nat) (kept : UInt32) : Step Cursor UInt32 :=
  Step.given (c.take n) kept c fun (bits,c) => .done (word bits) c

def stream (checks : Bool) : Stream Cursor where
  mode := .read
  integer min max value c :=
    Step.given (Range.ofBounds min max) value c fun range =>
    Step.given (c.take range.bits) value c fun (bits,c) =>
    Step.given (range.ofOffset (word bits)) value c fun found => .done found c
  bits count value c :=
    Step.given (permitCount count) value c fun _ =>
    Step.given (c.take count) value c fun (bits,c) => .done (word bits) c
  bytes data c := c.skipPadding.andThen data fun _ c => c.fill data
  align c := c.skipPadding
  check c :=
    if checks then
      c.skipPadding.andThen () fun _ c =>
      Step.given (c.take 32) () c fun (bits,c) =>
      if word bits = checkWord then .done () c
      else .fail () c (.error (.checkFailed checkWord (word bits)))
    else .done () c
  object visit _ c := visit c
  position c := c.position

/-- Demands that only zero bits of the last byte are left. -/
def finish (c : Cursor) : Step Cursor Unit :=
  c.skipPadding.andThen () fun _ c =>
  if c.rest.length/8 = 0 then .done () c
  else .fail () c (.error (.extraData (c.rest.length/8)))

@[simp] theorem skip_zero (c : Cursor) : c.skip 0 = c := rfl

@[simp] theorem skip_skip (c : Cursor) (m n : Nat) : (c.skip m).skip n = c.skip (m + n) := by
  rw [skip,skip,skip,Nat.add_assoc]

@[simp] theorem skip_position (c : Cursor) (n : Nat) : (c.skip n).position = c.position + n := rfl

@[simp] theorem skip_rest (c : Cursor) (n : Nat) : (c.skip n).rest = c.rest.drop n := by
  rw [rest,rest,List.drop_drop]
  rfl

end Cursor

namespace Unpacker

/-- The unpacker stands at a cursor's place. -/
structure At (u : Unpacker) (c : Cursor) : Prop where
  sound : u.Sound
  view : u.view = c.rest
  position : u.position = c.position
  total : u.total = c.bits.length

variable {u v : Unpacker} {c : Cursor} {β : Type}

theorem ofBytes_at (bytes : List UInt8) : (ofBytes bytes).At (.start (bitsOfBytes bytes)) :=
  ⟨ofBytes_sound bytes,rfl,rfl,(bitsOfBytes_length bytes).symm⟩

theorem At.after (h : u.At c) {n : Nat} (after : u.After n v) : v.At (c.skip n) where
  sound := after.sound
  view := by rw [after.view,h.view,Cursor.skip_rest]
  position := by rw [after.position,h.position]; rfl
  total := after.total.trans h.total

theorem At.take (h : u.At c) {n : Nat} (few : n ≤ 32) (kept : β)
    {next : UInt32 × Unpacker → Step Unpacker β} {next' : List Bool × Cursor → Step Cursor β}
    (go : ∀ bits v d, v.At d → (next (Cursor.word bits,v)).Alike At (next' (bits,d))) :
    (Step.given (u.take n) kept u next).Alike At (Step.given (c.take n) kept c next') := by
  unfold Cursor.take
  rw [← h.position,← h.view]
  split
  · next full => rw [take_full full]; exact .fail _ _ h
  · next room =>
    split
    · next short => rw [h.sound.take_short (by omega) short]; exact .fail _ _ h
    · next enough =>
      obtain ⟨v,run,sound,view,position,total⟩ := h.sound.take few (by omega) (by omega)
      rw [run]
      exact go _ _ _ (h.after ⟨sound,view,position,total⟩)

theorem At.skipPadding (h : u.At c) : u.skipPadding.Alike At c.skipPadding := by
  have within : padding u.position ≤ u.view.length := by simp [h.sound.padding_eq,Unpacker.view]
  unfold Cursor.skipPadding Cursor.take
  rw [← h.position,← h.view,if_neg (show ¬u.view.length < padding u.position by omega)]
  split
  · next full =>
    have reached := h.sound.reached
    have some : padding u.position ≠ 0 := by omega
    rw [Unpacker.skipPadding,if_neg some,take_full full]
    exact .fail _ _ h
  · next room =>
    obtain ⟨v,after,run⟩ := h.sound.skipPadding (by omega)
    rw [run]
    simp only [Step.given_ok]
    split
    · exact .fail _ _ (h.after after)
    · exact .done _ (h.after after)

theorem At.fill (h : u.At c) {n : Nat} (out : Vector UInt8 n) :
    (u.fill out).Alike At (c.fill out) := by
  unfold Cursor.fill Cursor.take
  rw [← h.position,← h.view]
  split
  · next full => rw [fill_full out full]; exact .fail _ _ h
  · next room =>
    split
    · next short => rw [h.sound.fill_short out (by omega) short]; exact .fail _ _ h
    · next enough =>
      obtain ⟨bytes,v,run,after,bits⟩ := h.sound.fill out (by omega) (by omega)
      have list : bytesOf n (u.view.take (8*n)) = bytes.toList := by
        rw [← bits]
        simpa using bytesOf_bitsOfBytes bytes.toList []
      have same : bytes = ⟨(bytesOf n (u.view.take (8*n))).toArray,by simp⟩ :=
        Vector.toArray_inj.mp (by simp only [list]; rfl)
      rw [run,same]
      exact .done _ (h.after after)

end Unpacker

namespace Reader

/-- The reader stands at a cursor's place. -/
def At (r : Reader) (c : Cursor) : Prop := r.input.At c

variable {r : Reader} {c : Cursor} {α : Type}

theorem ofBytes_at (bytes : List UInt8) : (ofBytes bytes).At (.start (bitsOfBytes bytes)) :=
  Unpacker.ofBytes_at bytes

theorem At.remaining (h : r.At c) : r.input.remaining = .ok c.rest.length := by
  rw [h.sound.remaining,h.view]

theorem At.refuse (h : r.At c) (value : α) (failure : Failure) :
    (r.refuse value failure).Alike At (Step.fail value c failure) := by
  cases failure with
  | fault cause => exact .fail _ _ h
  | error cause =>
    simp only [Reader.refuse,h.remaining,Step.given_ok]
    exact ⟨rfl,rfl,h⟩

/-- Noting an error moves nothing. -/
theorem settle_alike (r : Reader) {step : Step Unpacker α} {step' : Step Cursor α}
    (h : step.Alike Unpacker.At step') : (r.settle step).Alike At step' := by
  have place : At { r with input := step.state } step'.state := h.state
  unfold Reader.settle
  dsimp only
  cases result : step.result with
  | ok => exact ⟨h.value,result.symm.trans h.result,place⟩
  | error failure =>
    have refused := place.refuse step.value failure
    exact ⟨refused.value.trans h.value,refused.result.trans (result.symm.trans h.result),
      refused.state⟩

theorem stream_at (checks : Bool) : (stream checks).Simulates (Cursor.stream checks) At where
  reading := rfl
  position h := h.position
  integer min max value r _ h := .given _ _ h fun range =>
    r.settle_alike (Unpacker.At.take h range.bits_le value fun _ _ _ h =>
      .given _ _ h fun found => .done found h)
  bits count value r _ h := by
    by_cases allowed : 1 ≤ count ∧ count ≤ 32
    · refine .given _ _ h fun _ => r.settle_alike ?_
      exact Unpacker.At.take h allowed.2 value fun _ _ _ h => .done _ h
    · simp only [stream,Cursor.stream,permitCount,if_neg allowed]
      exact .fail _ _ h
  bytes data r _ h := r.settle_alike
    ((Unpacker.At.skipPadding h).andThen data fun _ _ _ h => Unpacker.At.fill h data)
  align {r _} h := r.settle_alike (Unpacker.At.skipPadding h)
  check {r _} h := by
    simp only [stream,Cursor.stream]
    split
    · refine r.settle_alike ((Unpacker.At.skipPadding h).andThen ()
        fun _ _ _ h => h.take (by decide) () ?_)
      intro bits v d h
      dsimp only
      split
      · exact .done () h
      · exact .fail _ _ h
    · exact .done () h
  object _ go _ _ h := go _ _ h

theorem finish_at (h : r.At c) : r.finish.Alike At c.finish := by
  apply (r.settle_alike (Unpacker.At.skipPadding h)).andThen ()
  intro _ r c h
  rw [h.remaining,Step.given_ok]
  split
  · exact .done () h
  · exact h.refuse () _

end Reader
end Bitwire
