import Bitwire.Proofs.Patterns

/-! An unpacker refines a cursor over the bits of its input. Whatever operations were made before,
also such as failed, it is determined by its position: what it has prefetched is what lies ahead. -/
namespace Bitwire
namespace Unpacker

/-- One operation on an unpacker. A bit run has a proper width, a byte run has bytes to
overwrite. -/
inductive Op where
  | take (count : Nat) (proper : 1 ≤ count ∧ count ≤ 32)
  | skipPadding
  | fill {n : Nat} (out : Vector UInt8 n)

namespace Op
variable {σ : Type}

/-- What an operation leaves with its caller. -/
@[reducible] def Value : Op → Type
  | take .. => Option UInt32
  | skipPadding => Unit
  | @fill n _ => Vector UInt8 n

def run : (op : Op) → Unpacker → Step Unpacker op.Value
  | take count _, u => Step.given (u.take count) none u fun (found,u) => .done (some found) u
  | skipPadding, u => u.skipPadding
  | fill out, u => u.fill out

/-- The same operation on a cursor. -/
def point : (op : Op) → Cursor → Step Cursor op.Value
  | take count _, c =>
      Step.given (c.take count) none c fun (bits,c) => .done (some (Cursor.word bits)) c
  | skipPadding, c => c.skipPadding
  | fill out, c => c.fill out

/-- What is seen of the operation on an unpacker. -/
def seen (op : Op) (u : Unpacker) : Seen op.Value :=
  ⟨(op.run u).value,(op.run u).result,(op.run u).state.position⟩

/-- What is seen of operations made in turn, whatever became of those before. -/
def history (make : (op : Op) → σ → Step σ op.Value) (position : σ → Nat) :
    List Op → σ → List (Σ op : Op, Seen op.Value)
  | [], _ => []
  | op::ops, s =>
      let step := make op s
      ⟨op,step.value,step.result,position step.state⟩::history make position ops step.state

end Op

/-- What operations on some input lead to. -/
inductive Reached (bytes : List UInt8) : Unpacker → Prop
  | start : Reached bytes (.ofBytes bytes)
  | call {u : Unpacker} (op : Op) : Reached bytes u → Reached bytes (op.run u).state

/-- What an unpacker makes of the bits ahead. A request whose end cannot be counted is a fault, and
like one behind the end of the input it changes nothing. -/
structure Answers (u : Unpacker) (ahead : List Bool) : Prop where
  takes : ∀ n (proper : 1 ≤ n ∧ n ≤ 32), n ≤ ahead.length → ∃ found : UInt32,
    found.toNat = ofBits (ahead.take n) ∧
      (Op.take n proper).seen u = ⟨some found,.ok (),u.position + n⟩
  takes_short : ∀ n (proper : 1 ≤ n ∧ n ≤ 32), ahead.length < n → u.position + n < 2^64 →
    (Op.take n proper).run u = .fail none u (.error .endOfBuffer)
  takes_full : ∀ n (proper : 1 ≤ n ∧ n ≤ 32), 2^64 ≤ u.position + n →
    (Op.take n proper).run u = .fail none u (.fault .counterOverflow)
  skips : Op.skipPadding.seen u =
    ⟨(),if true ∈ ahead.take (padding u.position) then reject .invalidPadding else .ok (),
      u.position + padding u.position⟩
  fills : ∀ {n : Nat} (out : Vector UInt8 n), 8*n ≤ ahead.length → ∃ found : Vector UInt8 n,
    bitsOfBytes found.toList = ahead.take (8*n) ∧
      (Op.fill out).seen u = ⟨found,.ok (),u.position + 8*n⟩
  /-- Copied between bytes or taken eight bits at a time, bytes are the same. -/
  fills_each : ∀ {n : Nat} (out : Vector UInt8 n), 8*n ≤ ahead.length →
    (u.fill out).map Vector.toList = Unpacker.fillEach out.toList u
  fills_short : ∀ {n : Nat} (out : Vector UInt8 n), ahead.length < 8*n →
    u.position + 8*n < 2^64 → (Op.fill out).run u = .fail out u (.error .endOfBuffer)
  fills_full : ∀ {n : Nat} (out : Vector UInt8 n), 2^64 ≤ u.position + 8*n →
    (Op.fill out).run u = .fail out u (.fault .counterOverflow)

variable {u v : Unpacker} {c : Cursor} {bytes : List UInt8}

/-- An unpacker is nothing but its place. -/
theorem At.unique (h : u.At c) (h' : v.At c) : u = v := by
  have position : u.position = v.position := h.position.trans h'.position.symm
  have heldBits : u.heldBits = v.heldBits := by
    rw [← h.sound.padding_eq,← h'.sound.padding_eq,position]
  have view : u.view = v.view := h.view.trans h'.view.symm
  obtain ⟨held,rest⟩ := List.append_inj view (by simp [heldBits])
  have number := congrArg ofBits held
  rw [ofBits_bitsOf,ofBits_bitsOf,Nat.mod_eq_of_lt h.sound.clean,
    Nat.mod_eq_of_lt h'.sound.clean] at number
  have bytes := bitsOfBytes_inj rest
  have total : u.total = v.total := h.total.trans h'.total.symm
  cases u
  cases v
  simp_all

theorem At.run (h : u.At c) (op : Op) : (op.run u).Alike At (op.point c) := by
  cases op with
  | take count proper => exact h.take proper.2 none fun bits v d place => .done _ place
  | skipPadding => exact h.skipPadding
  | fill out => exact h.fill out

theorem Op.point_bits (op : Op) (c : Cursor) : (op.point c).state.bits = c.bits := by
  cases op with
  | take count proper =>
    exact (Cursor.holds_take (fun _ => count) none (fun bits => .done (some (Cursor.word bits)))
      (fun bits => Cursor.locality.done _) c).bits
  | skipPadding => exact (Cursor.holds_padding c).bits
  | @fill n out =>
    exact (Cursor.holds_take (fun _ => 8*n) out
      (fun bits => .done ⟨(bytesOf n bits).toArray,by simp⟩) (fun bits => Cursor.locality.done _)
      c).bits

theorem Reached.at (reached : u.Reached bytes) : u.At ⟨bitsOfBytes bytes,u.position⟩ := by
  induction reached with
  | start => exact ofBytes_at bytes
  | @call u op _ ih =>
    have after := (ih.run op).state
    have bits := op.point_bits ⟨bitsOfBytes bytes,u.position⟩
    have position := after.position
    generalize (op.point ⟨bitsOfBytes bytes,u.position⟩).state = d at after bits position
    obtain ⟨_,_⟩ := d
    simp only at bits position
    rwa [bits,← position] at after

/-- The operations are seen alike on both, one after the other. -/
theorem At.history (h : u.At c) (ops : List Op) :
    Op.history Op.run Unpacker.position ops u = Op.history Op.point Cursor.position ops c := by
  induction ops generalizing u c with
  | nil => rfl
  | cons op ops ih =>
    obtain ⟨value,result,state⟩ := h.run op
    simp only [Op.history,value,result,state.position,ih state]

/-- The bytes that are copied are those that the loop takes. -/
theorem Sound.fill_each (h : u.Sound) {n : Nat} (out : Vector UInt8 n)
    (enough : 8*n ≤ u.view.length) (short : u.position + 8*n < 2^64) :
    (u.fill out).map Vector.toList = Unpacker.fillEach out.toList u := by
  have place : u.At ⟨List.replicate u.position false ++ u.view,u.position⟩ := by
    refine ⟨h,?_,rfl,?_⟩
    · simp [Cursor.rest]
    · simp [h.counted]
  obtain ⟨copied,v,run,after,bits⟩ := h.fill out enough short
  obtain ⟨taken,w,loop,after',bits'⟩ := h.fillEach out.toList (by simpa using enough)
    (by simpa using short)
  rw [Vector.length_toList] at after' bits'
  have same : copied.toList = taken := bitsOfBytes_inj (bits.trans bits'.symm)
  rw [run,loop,(place.after after).unique (place.after after'),← same]
  rfl

theorem At.answers (h : u.At c) (countable : u.total < 2^64) : u.Answers c.rest := by
  have counted := h.sound.counted
  rw [← h.view]
  constructor
  case takes =>
    intro n proper enough
    obtain ⟨v,run,-,-,position,-⟩ := h.sound.take proper.2 enough (by omega)
    have few : (u.view.take n).length ≤ 32 := by simp; omega
    refine ⟨_,Cursor.word_toNat few,?_⟩
    simp only [Op.seen,Op.run,run,Step.given_ok,Step.done,position]
    rfl
  case takes_short =>
    intro n proper short room
    rw [Op.run,h.sound.take_short room short]
    rfl
  case takes_full =>
    intro n proper full
    rw [Op.run,take_full full]
    rfl
  case skips =>
    have within : padding u.position ≤ u.view.length := by simp [h.sound.padding_eq,Unpacker.view]
    obtain ⟨v,after,run⟩ := h.sound.skipPadding (by omega)
    simp only [Op.seen,Op.run,run,List.any_eq_true,id,exists_eq_right]
    split
    · simp [Step.fail,after.position,reject]
    · simp [Step.done,after.position]
  case fills =>
    intro n out enough
    obtain ⟨found,v,run,after,bits⟩ := h.sound.fill out enough (by omega)
    exact ⟨found,bits,by simp only [Op.seen,Op.run,run,Step.done,after.position]⟩
  case fills_each =>
    intro n out enough
    exact h.sound.fill_each out enough (by omega)
  case fills_short =>
    intro n out short room
    exact h.sound.fill_short out room short
  case fills_full =>
    intro n out full
    exact fill_full out full

end Unpacker

/-- Operations of any kind and number, failed ones among them, are seen to do on an unpacker what
they do on a cursor over the bits of its input. Wherever they have led, the unpacker answers by the
bits ahead, and every unpacker that has come to the same position is the same. -/
theorem operations_taken (bytes : List UInt8) (countable : 8*bytes.length < 2^64) :
    (∀ ops, Unpacker.Op.history Unpacker.Op.run Unpacker.position ops (.ofBytes bytes) =
      Unpacker.Op.history Unpacker.Op.point Cursor.position ops (.start (bitsOfBytes bytes))) ∧
    (∀ u, Unpacker.Reached bytes u → u.Answers ((bitsOfBytes bytes).drop u.position)) ∧
    ∀ u v, Unpacker.Reached bytes u → Unpacker.Reached bytes v → u.position = v.position →
      u = v := by
  refine ⟨(Unpacker.ofBytes_at bytes).history,fun u reached => ?_,
    fun u v reached reached' same => ?_⟩
  · have total : u.total = 8*bytes.length := reached.at.total.trans (bitsOfBytes_length bytes)
    exact reached.at.answers (total ▸ countable)
  · exact reached.at.unique (same ▸ reached'.at)

/-- After three bits there are no two bytes left, the five bits up to the boundary are not zero, and
the last byte is read from there. -/
theorem operations_taken_failing :
    let ops : List Unpacker.Op := [.take 3 (by decide),.fill #v[7,7],.skipPadding,
      .fill #v[7],.take 1 (by decide)]
    8*[0xb5,0x01].length < 2^64 ∧
      Unpacker.Op.history Unpacker.Op.run Unpacker.position ops (.ofBytes [0xb5,0x01]) =
        [⟨.take 3 (by decide),some 5,.ok (),3⟩,⟨.fill #v[7,7],#v[7,7],reject .endOfBuffer,3⟩,
          ⟨.skipPadding,(),reject .invalidPadding,8⟩,⟨.fill #v[7],#v[1],.ok (),16⟩,
          ⟨.take 1 (by decide),none,reject .endOfBuffer,16⟩] := by
  intro ops
  exact ⟨by decide,((operations_taken [0xb5,0x01] (by decide)).1 ops).trans rfl⟩

end Bitwire
