import Bitwire.Proofs.Atomic

/-! A packer refines a list of bits. Each operation appends to the list, whatever the alignment, and
the finished bytes are read off it: bit `8*i + j` of the list is bit `j` of byte `i`. -/
namespace Bitwire

theorem bitsOf_eq_map (n x : Nat) : bitsOf n x = (List.range n).map x.testBit := by
  induction n generalizing x with
  | zero => rfl
  | succ n ih =>
    rw [bitsOf,ih,List.range_succ_eq_map,List.map_cons,List.map_map,Nat.testBit_zero]
    congr 1
    exact List.map_congr_left fun i _ => (Nat.testBit_succ x i).symm

/-- Bytes follow one another, and so do the bits of a byte. -/
theorem bitsOfBytes_getElem? (bytes : List UInt8) (i : Nat) {j : Nat} (bit : j < 8) :
    (bitsOfBytes bytes)[8*i + j]? = bytes[i]?.map fun b => b.toNat.testBit j := by
  induction bytes generalizing i with
  | nil => simp
  | cons b bytes ih =>
    cases i with
    | zero => simp [bitsOf_eq_map,List.getElem?_append_left,bit]
    | succ i =>
      rw [bitsOfBytes_cons,List.getElem?_append_right (by simp; omega),bitsOf_length,
        show 8*(i + 1) + j - 8 = 8*i + j by omega,ih]
      rfl

namespace Packer

/-- One operation on a packer. A bit run has a proper width. -/
inductive Op where
  | push (value : UInt32) (count : Nat) (proper : 1 ≤ count ∧ count ≤ 32)
  | pad
  | append (bytes : List UInt8)

namespace Op

def run (p : Packer) : Op → Packer
  | push value count _ => p.push value count
  | pad => p.pad
  | append bytes => p.append bytes

/-- The bits of an operation that comes after so many. -/
def bits (position : Nat) : Op → List Bool
  | push value count _ => (List.range count).map value.toNat.testBit
  | pad => List.replicate (padding position) false
  | append bytes => bytes.flatMap fun b => (List.range 8).map b.toNat.testBit

end Op

/-- The packer after operations, made in turn. -/
def runs (p : Packer) (ops : List Op) : Packer := ops.foldl Op.run p

/-- The bits of operations, each behind those before it. -/
def spell (before : List Bool) (ops : List Op) : List Bool :=
  ops.foldl (fun bits op => bits ++ op.bits bits.length) before

/-- What a packer that stands for a list of bits holds, counts and finishes with. -/
structure Denotes (p : Packer) (bits : List Bool) : Prop where
  few : p.heldBits < 8
  clean : p.held < 2^p.heldBits
  view : p.view = bits
  position : p.position = bits.length
  /-- The least number of bytes that have room for the bits. -/
  byteCount : bits.length ≤ 8*p.byteCount ∧ 8*p.byteCount < bits.length + 8
  finish_length : p.finish.length = p.byteCount
  finish_bit : ∀ (i : Nat) (inside : i < p.finish.length) (j : Nat), j < 8 →
    p.finish[i].toNat.testBit j = bits.getD (8*i + j) false

variable {p : Packer}

theorem Op.run_sound (h : p.Sound) (op : Op) : (op.run p).Sound := by
  cases op with
  | push value count => exact push_sound h value count
  | pad => exact pad_sound h
  | append bytes => exact append_sound h bytes

theorem Op.run_view (h : p.Sound) (op : Op) : (op.run p).view = p.view ++ op.bits p.position := by
  cases op with
  | push value count => simp only [Op.run,Op.bits,push_view h,bitsOf_eq_map]
  | pad => exact pad_view h
  | append bytes => simp only [Op.run,Op.bits,append_view h,bitsOfBytes,bitsOf_eq_map]

theorem Sound.runs_view (h : p.Sound) (ops : List Op) :
    (p.runs ops).Sound ∧ (p.runs ops).view = spell p.view ops := by
  induction ops generalizing p with
  | nil => exact ⟨h,rfl⟩
  | cons op ops ih =>
    have next := ih (op.run_sound h)
    rw [op.run_view h,← h.view_length] at next
    exact next

theorem Sound.denotes (h : p.Sound) : p.Denotes p.view where
  few := h.few
  clean := h.clean
  view := rfl
  position := h.view_length.symm
  byteCount := by
    rw [h.view_length]
    simp only [Packer.byteCount,bytesFor]
    constructor <;> omega
  finish_length := finish_length h
  finish_bit i inside j bit := by
    have here := bitsOfBytes_getElem? p.finish i bit
    rw [finish_bits h,List.getElem?_eq_getElem inside,Option.map_some] at here
    rw [List.getD_eq_getElem?_getD]
    -- What lies behind the list is padding.
    rcases Nat.lt_or_ge (8*i + j) p.view.length with within | beyond
    · rw [List.getElem?_append_left within] at here
      simp [here]
    · have zero := List.mem_of_getElem? ((List.getElem?_append_right beyond).symm.trans here)
      simp [List.getElem?_eq_none beyond,(List.mem_replicate.mp zero).2]

theorem spell_prefix (before : List Bool) (ops : List Op) : before <+: spell before ops := by
  induction ops generalizing before with
  | nil => exact List.prefix_rfl
  | cons op ops ih => exact (List.prefix_append before _).trans (ih _)

/-- Bytes are moved to the output once they are full, and stay there. -/
theorem push_output (p : Packer) (value : UInt32) (n : Nat) :
    p.output.toList <+: (p.push value n).output.toList := by
  simp [push,Array.toList_appendList]

theorem foldl_push_output (p : Packer) (bytes : List UInt8) :
    p.output.toList <+: (bytes.foldl (fun p b => p.push b.toUInt32 8) p).output.toList := by
  induction bytes generalizing p with
  | nil => exact List.prefix_rfl
  | cons b bytes ih => exact (push_output p b.toUInt32 8).trans (ih _)

theorem Op.run_output (op : Op) (p : Packer) : p.output.toList <+: (op.run p).output.toList := by
  cases op with
  | push value count => exact push_output p value count
  | pad =>
    simp only [Op.run,Packer.pad]
    split
    · exact List.prefix_rfl
    · exact push_output p 0 _
  | append bytes =>
    simp only [Op.run,Packer.append]
    split
    · simp [Array.toList_appendList]
    · exact foldl_push_output p bytes

theorem runs_output (p : Packer) (ops : List Op) :
    p.output.toList <+: (p.runs ops).output.toList := by
  induction ops generalizing p with
  | nil => exact List.prefix_rfl
  | cons op ops ih => exact (op.run_output p).trans (ih _)

/-- Copied between bytes or pushed one by one, bytes leave the same packer behind. -/
theorem Sound.append_eq (h : p.Sound) (bytes : List UInt8) :
    p.append bytes = bytes.foldl (fun p b => p.push b.toUInt32 8) p := by
  obtain ⟨sound,view⟩ := foldl_push h bytes
  exact (append_sound h bytes).eq_of_view sound ((append_view h bytes).trans view.symm)

/-- Only the low bits of a value count. -/
theorem push_congr (p : Packer) {value value' : UInt32} {n : Nat}
    (low : value.toNat%2^n = value'.toNat%2^n) : p.push value n = p.push value' n := by
  simp only [push,Nat.one_shiftLeft,low]

end Packer

/-- Operations in any order and at any alignment leave a packer that stands for their bits, one
behind the other, with less than a byte held back. Bytes are appended as bit runs of eight, a
value adds no more than its low bits, and what was packed before stays as it is. -/
theorem operations_packed (ops : List Packer.Op) :
    let p := Packer.empty.runs ops
    p.Denotes (Packer.spell [] ops) ∧
      (∀ bytes, p.append bytes = bytes.foldl (fun p b => p.push b.toUInt32 8) p) ∧
      (∀ (value value' : UInt32) (n : Nat), value.toNat%2^n = value'.toNat%2^n →
        p.push value n = p.push value' n) ∧
      ∀ more, p.view <+: (Packer.empty.runs (ops ++ more)).view ∧
        p.output.toList <+: (Packer.empty.runs (ops ++ more)).output.toList := by
  intro p
  obtain ⟨sound,view⟩ := Packer.empty_sound.runs_view ops
  refine ⟨?_,sound.append_eq,fun value value' n => p.push_congr,fun more => ?_⟩
  · rw [← Packer.empty_view,← view]
    exact sound.denotes
  · have later : Packer.empty.runs (ops ++ more) = p.runs more := List.foldl_append
    rw [later,(sound.runs_view more).2]
    exact ⟨Packer.spell_prefix _ more,p.runs_output more⟩

/-- Three bits leave the bytes behind them unaligned. The value 0xfd is cut to three bits, and five
zeros lead to the last byte. -/
theorem operations_packed_unaligned :
    let ops : List Packer.Op := [.push 0xfd 3 (by decide),.append [0xa5],.pad,.append [0x7e]]
    (Packer.empty.runs ops).Denotes [true,false,true,true,false,true,false,false,true,false,true,
      false,false,false,false,false,false,true,true,true,true,true,true,false] ∧
      (Packer.empty.runs ops).finish = [0x2d,0x05,0x7e] := by
  intro ops
  exact ⟨(operations_packed ops).1,by decide⟩

end Bitwire
