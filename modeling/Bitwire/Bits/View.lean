import Mathlib
import Bitwire.Bits.Basic

/-! Bit lists with the first bit in front, and the numbers and bytes they stand for. -/
namespace Bitwire

/-- The lowest `n` bits of a number, lowest first. -/
def bitsOf : Nat → Nat → List Bool
  | 0, _ => []
  | n+1, x => (x%2 == 1)::bitsOf n (x/2)

/-- The number that bits denote, lowest first. -/
def ofBits : List Bool → Nat
  | [] => 0
  | b::bits => b.toNat + 2*ofBits bits

def bitsOfBytes (bytes : List UInt8) : List Bool := bytes.flatMap fun b => bitsOf 8 b.toNat

@[simp] theorem bitsOf_length (n x : Nat) : (bitsOf n x).length = n := by
  induction n generalizing x with
  | zero => rfl
  | succ n ih => simp [bitsOf,ih]

theorem bitsOf_append (m n x : Nat) : bitsOf (m + n) x = bitsOf m x ++ bitsOf n (x/2^m) := by
  induction m generalizing x with
  | zero => simp [bitsOf]
  | succ m ih =>
    rw [Nat.succ_add]
    simp only [bitsOf,ih,List.cons_append,Nat.div_div_eq_div_mul,Nat.pow_succ']

theorem bitsOf_mod (n x : Nat) : bitsOf n (x%2^n) = bitsOf n x := by
  induction n generalizing x with
  | zero => rfl
  | succ n ih =>
    have head : x%2^(n+1)%2 = x%2 := by rw [Nat.pow_succ',Nat.mod_mul_right_mod]
    have tail : x%2^(n+1)/2 = x/2%2^n := by
      rw [Nat.pow_succ',Nat.mod_mul_right_div_self]
    simp only [bitsOf,head,tail,ih]

theorem bitsOf_zero (n : Nat) : bitsOf n 0 = List.replicate n false := by
  induction n with
  | zero => rfl
  | succ n ih => rw [bitsOf,ih,List.replicate_succ]; rfl

/-- A number above held bits fits as many bits more as it has. -/
theorem add_mul_two_pow_lt {m n a b : Nat} (low : a < 2^m) (high : b < 2^n) :
    a + b*2^m < 2^(m + n) := by
  have scaled := Nat.mul_le_mul_right (2^m) (Nat.succ_le_of_lt high)
  rw [Nat.succ_mul] at scaled
  rw [Nat.pow_add,Nat.mul_comm (2^m)]
  omega

/-- A number above held bits adds its bits behind theirs. -/
theorem bitsOf_add {m n a b : Nat} (h : a < 2^m) :
    bitsOf (m + n) (a + b*2^m) = bitsOf m a ++ bitsOf n b := by
  have hp := Nat.two_pow_pos m
  have low : bitsOf m (a + b*2^m) = bitsOf m a := by
    rw [← bitsOf_mod m (a + b*2^m),Nat.add_mul_mod_self_right,bitsOf_mod]
  have high : (a + b*2^m)/2^m = b := by
    rw [Nat.add_mul_div_right _ _ hp,Nat.div_eq_of_lt h,Nat.zero_add]
  rw [bitsOf_append,low,high]

@[simp] theorem ofBits_bitsOf (n x : Nat) : ofBits (bitsOf n x) = x%2^n := by
  induction n generalizing x with
  | zero => simp [bitsOf,ofBits,Nat.mod_one]
  | succ n ih =>
    have bit : (x%2 == 1).toNat = x%2 := by
      rcases Nat.mod_two_eq_zero_or_one x with h | h <;> simp [h]
    rw [bitsOf,ofBits,ih,bit,Nat.pow_succ',Nat.mod_mul]

theorem bitsOf_ofBits (bits : List Bool) : bitsOf bits.length (ofBits bits) = bits := by
  induction bits with
  | nil => rfl
  | cons b bits ih =>
    have small : b.toNat < 2 := b.toNat_lt
    have head : (b.toNat + 2*ofBits bits)%2 = b.toNat := by omega
    have tail : (b.toNat + 2*ofBits bits)/2 = ofBits bits := by omega
    simp only [List.length_cons,bitsOf,ofBits,head,tail,ih]
    cases b <;> rfl

theorem ofBits_lt (bits : List Bool) : ofBits bits < 2^bits.length := by
  rw [← bitsOf_ofBits bits,ofBits_bitsOf,bitsOf_length]
  exact Nat.mod_lt _ (Nat.two_pow_pos _)

@[simp] theorem bitsOfBytes_nil : bitsOfBytes [] = [] := rfl

@[simp] theorem bitsOfBytes_cons (b : UInt8) (bytes : List UInt8) :
    bitsOfBytes (b::bytes) = bitsOf 8 b.toNat ++ bitsOfBytes bytes := rfl

@[simp] theorem bitsOfBytes_append (first second : List UInt8) :
    bitsOfBytes (first ++ second) = bitsOfBytes first ++ bitsOfBytes second :=
  List.flatMap_append

@[simp] theorem bitsOfBytes_length (bytes : List UInt8) :
    (bitsOfBytes bytes).length = 8*bytes.length := by
  induction bytes with
  | nil => rfl
  | cons b bytes ih => simp [ih]; omega

theorem bitsOfBytes_littleEndian (k x : Nat) :
    bitsOfBytes (littleEndian k x) = bitsOf (8*k) x := by
  induction k generalizing x with
  | zero => rfl
  | succ k ih =>
    have low : bitsOf 8 (UInt8.ofNat x).toNat = bitsOf 8 x := by
      rw [UInt8.toNat_ofNat',← bitsOf_mod 8 x]
    have base : x/256 = x/2^8 := rfl
    rw [littleEndian,bitsOfBytes_cons,ih,low,Nat.mul_succ,Nat.add_comm,bitsOf_append,base]

/-! A packer as the list of the bits it has taken. Every operation appends to the list, and
the finished bytes are the list with zeros up to the next byte boundary. -/

private theorem size_appendList (output : Array UInt8) (bytes : List UInt8) :
    (output ++ bytes).size = output.size + bytes.length := by
  rw [← Array.length_toList,Array.toList_appendList,List.length_append,Array.length_toList]

namespace Packer

/-- The bits packed so far. -/
def view (p : Packer) : List Bool := bitsOfBytes p.output.toList ++ bitsOf p.heldBits p.held

/-- Fewer than eight bits are held, nothing lies above them, and the position counts all. -/
structure Sound (p : Packer) : Prop where
  few : p.heldBits < 8
  clean : p.held < 2^p.heldBits
  counted : p.position = 8*p.output.size + p.heldBits

theorem empty_sound : Sound empty := ⟨by decide,by decide,rfl⟩

@[simp] theorem empty_view : empty.view = [] := rfl

theorem Sound.view_length {p : Packer} (h : p.Sound) : p.view.length = p.position := by
  simp [view,h.counted]

theorem push_sound {p : Packer} (h : p.Sound) (value : UInt32) (n : Nat) :
    (p.push value n).Sound := by
  have few := h.few
  have counted := h.counted
  have fits := add_mul_two_pow_lt h.clean (Nat.mod_lt value.toNat (Nat.two_pow_pos n))
  refine ⟨Nat.mod_lt _ (by decide),?_,?_⟩
  · have split : p.heldBits + n = 8*((p.heldBits + n)/8) + (p.heldBits + n)%8 := by omega
    rw [split,Nat.pow_add] at fits
    simp only [push,Nat.shiftRight_eq_div_pow,Nat.shiftLeft_eq,Nat.one_mul]
    exact Nat.div_lt_of_lt_mul fits
  · simp only [push,size_appendList,littleEndian_length]
    omega

/-- Only the low `n` bits of a value are appended, and no earlier bit changes. -/
theorem push_view {p : Packer} (h : p.Sound) (value : UInt32) (n : Nat) :
    (p.push value n).view = p.view ++ bitsOf n value.toNat := by
  have split : 8*((p.heldBits + n)/8) + (p.heldBits + n)%8 = p.heldBits + n := by omega
  simp only [view,push,Array.toList_appendList,bitsOfBytes_append,bitsOfBytes_littleEndian,
    List.append_assoc]
  rw [Nat.shiftRight_eq_div_pow,← bitsOf_append,split,Nat.one_shiftLeft,Nat.shiftLeft_eq,
    bitsOf_add h.clean,bitsOf_mod]

theorem pad_sound {p : Packer} (h : p.Sound) : p.pad.Sound := by
  simp only [pad]
  split
  · exact h
  · exact push_sound h 0 _

theorem pad_view {p : Packer} (h : p.Sound) :
    p.pad.view = p.view ++ List.replicate (padding p.position) false := by
  simp only [pad]
  split
  · next none => simp [none]
  · rw [push_view h,← bitsOf_zero]; rfl

theorem pad_position (p : Packer) : p.pad.position = p.position + padding p.position := by
  simp only [pad]
  split
  · next none => omega
  · rfl

theorem foldl_push {p : Packer} (h : p.Sound) (bytes : List UInt8) :
    let q := bytes.foldl (fun p b => p.push b.toUInt32 8) p
    q.Sound ∧ q.view = p.view ++ bitsOfBytes bytes := by
  induction bytes generalizing p with
  | nil => exact ⟨h,by simp⟩
  | cons b bytes ih =>
    obtain ⟨sound,bits⟩ := ih (push_sound h b.toUInt32 8)
    refine ⟨sound,?_⟩
    rw [List.foldl_cons,bits,push_view h]
    simp

theorem append_sound {p : Packer} (h : p.Sound) (bytes : List UInt8) : (p.append bytes).Sound := by
  simp only [append]
  split
  · refine ⟨h.few,h.clean,?_⟩
    simp only [size_appendList,h.counted]
    omega
  · exact (foldl_push h bytes).1

/-- Bytes are appended alike whether they are copied or pushed one by one. -/
theorem append_view {p : Packer} (h : p.Sound) (bytes : List UInt8) :
    (p.append bytes).view = p.view ++ bitsOfBytes bytes := by
  simp only [append]
  split
  · next aligned => simp [view,aligned,bitsOf,Array.toList_appendList]
  · exact (foldl_push h bytes).2

/-- A padded packer holds nothing back: its output is the bits taken, zeros behind them. -/
theorem finish_bits {p : Packer} (h : p.Sound) :
    bitsOfBytes p.finish = p.view ++ List.replicate (padding p.position) false := by
  have sound := pad_sound h
  have aligned : p.pad.heldBits = 0 := by
    have counted := sound.counted
    have few := sound.few
    have boundary := padding_aligns p.position
    rw [pad_position] at counted
    omega
  rw [← pad_view h,finish,view,aligned]
  simp [bitsOf]

theorem finish_length {p : Packer} (h : p.Sound) : p.finish.length = p.byteCount := by
  have bits := congrArg List.length (finish_bits h)
  rw [bitsOfBytes_length,List.length_append,h.view_length,List.length_replicate] at bits
  simp only [byteCount,bytesFor,padding] at *
  omega

end Packer

end Bitwire
