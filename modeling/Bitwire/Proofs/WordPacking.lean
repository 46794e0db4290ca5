import Bitwire.Proofs.PackedBits

/-! Packing into words. A packer of 32-bit words takes the same operations as the packer of bytes,
and its words, stored lowest byte first, begin with the same bytes. The two hold back different bits
at most positions; what they agree on is the list of bits that they stand for. -/
namespace Bitwire

/-- Full words, and one that is filled from its lowest bit on. -/
structure WordPacker where
  words : List UInt32
  word : UInt32
  used : Nat
  deriving DecidableEq, Repr

namespace WordPacker

def empty : WordPacker := ⟨[],0,0⟩

def position (w : WordPacker) : Nat := 32*w.words.length + w.used

/-- Appends the low `n` bits of a value. Those for which the word has no room are carried to the
next one. -/
def push (w : WordPacker) (value : UInt32) (n : Nat) : WordPacker :=
  let run := value.toNat%2^n
  let filled := w.word ||| UInt32.ofNat (run <<< w.used)
  if w.used + n < 32 then { w with word := filled, used := w.used + n }
  else ⟨w.words ++ [filled],UInt32.ofNat (run >>> (32 - w.used)),w.used + n - 32⟩

/-- Appends zeros up to the next byte boundary. -/
def pad (w : WordPacker) : WordPacker :=
  let n := padding w.position
  if n = 0 then w else w.push 0 n

def run (w : WordPacker) : Packer.Op → WordPacker
  | .push value count _ => w.push value count
  | .pad => w.pad
  | .append bytes => bytes.foldl (fun w b => w.push b.toUInt32 8) w

/-- The word packer after operations, made in turn. -/
def runs (w : WordPacker) (ops : List Packer.Op) : WordPacker := ops.foldl run w

/-- The words in little-endian order. The rest of the last one is zero. -/
def store (w : WordPacker) : List UInt8 :=
  (w.words ++ if w.used = 0 then [] else [w.word]).flatMap fun word => littleEndian 4 word.toNat

/-- The bits packed so far. -/
def view (w : WordPacker) : List Bool :=
  w.words.flatMap (fun word => bitsOf 32 word.toNat) ++ bitsOf w.used w.word.toNat

/-- The word that is being filled has room, and nothing lies above its bits. -/
structure Sound (w : WordPacker) : Prop where
  room : w.used < 32
  clean : w.word.toNat < 2^w.used

variable {w : WordPacker}

theorem empty_sound : empty.Sound := ⟨by decide,by decide⟩

theorem view_length (w : WordPacker) : w.view.length = w.position := by
  simp [view,position,Nat.mul_comm]

/-- What is put above the bits of the word stays below 32 bits. -/
theorem Sound.filled (h : w.Sound) (run : Nat) :
    (w.word ||| UInt32.ofNat (run <<< w.used)).toNat = (w.word.toNat + run*2^w.used)%2^32 := by
  have small : w.word.toNat%2^32 = w.word.toNat := Nat.mod_eq_of_lt w.word.toNat_lt
  rw [UInt32.toNat_or,UInt32.toNat_ofNat',← small,← Nat.or_mod_two_pow,small,Nat.or_comm,
    ← Nat.shiftLeft_add_eq_or_of_lt h.clean,Nat.shiftLeft_eq,Nat.add_comm]

theorem Sound.filled_bits (h : w.Sound) (run : Nat) {m : Nat} (fits : w.used + m ≤ 32) :
    bitsOf (w.used + m) (w.word ||| UInt32.ofNat (run <<< w.used)).toNat =
      bitsOf w.used w.word.toNat ++ bitsOf m run := by
  have low := Nat.mod_mod_of_dvd (w.word.toNat + run*2^w.used) (Nat.pow_dvd_pow 2 fits)
  rw [h.filled,← bitsOf_mod,low,bitsOf_mod,bitsOf_add h.clean]

/-- A run is appended as a whole, also where it is split between two words. -/
theorem Sound.push (h : w.Sound) (value : UInt32) {n : Nat} (few : n ≤ 32) :
    (w.push value n).Sound ∧ (w.push value n).view = w.view ++ bitsOf n value.toNat := by
  have room := h.room
  have clean := h.clean
  have small : value.toNat%2^n < 2^n := Nat.mod_lt _ (Nat.two_pow_pos n)
  rw [← bitsOf_mod n value.toNat]
  unfold WordPacker.push
  generalize value.toNat%2^n = run at *
  by_cases fits : w.used + n < 32
  · rw [if_pos fits]
    refine ⟨⟨fits,?_⟩,?_⟩
    · exact h.filled run ▸ Nat.lt_of_le_of_lt (Nat.mod_le _ _) (add_mul_two_pow_lt clean small)
    · simp only [view,h.filled_bits run (Nat.le_of_lt fits),List.append_assoc]
  · rw [if_neg fits]
    have split : n = 32 - w.used + (w.used + n - 32) := by omega
    have full : w.used + (32 - w.used) = 32 := by omega
    have carried : (UInt32.ofNat (run >>> (32 - w.used))).toNat = run/2^(32 - w.used) := by
      have bound : run < 2^32 := Nat.lt_of_lt_of_le small (Nat.pow_le_pow_right (by decide) few)
      rw [UInt32.toNat_ofNat',Nat.shiftRight_eq_div_pow]
      exact Nat.mod_eq_of_lt (Nat.lt_of_le_of_lt (Nat.div_le_self _ _) bound)
    have filled := h.filled_bits run (m := 32 - w.used) (by omega)
    rw [full] at filled
    refine ⟨⟨by dsimp only; omega,?_⟩,?_⟩
    · rw [split,Nat.pow_add] at small
      exact carried ▸ Nat.div_lt_of_lt_mul small
    · conv_rhs => rw [split,bitsOf_append]
      simp only [view,List.flatMap_append,List.flatMap_singleton,filled,carried,List.append_assoc]

theorem Sound.pad (h : w.Sound) :
    w.pad.Sound ∧ w.pad.view = w.view ++ zeroPadding w.view.length := by
  have few := padding_lt w.position
  unfold WordPacker.pad
  rw [w.view_length,zeroPadding]
  dsimp only
  split
  · next none => simpa [none] using h
  · rw [← bitsOf_zero]
    exact h.push 0 (by omega)

theorem Sound.append (h : w.Sound) (bytes : List UInt8) :
    (w.run (.append bytes)).Sound ∧ (w.run (.append bytes)).view = w.view ++ bitsOfBytes bytes := by
  induction bytes generalizing w with
  | nil => exact ⟨h,(List.append_nil _).symm⟩
  | cons b bytes ih =>
    obtain ⟨sound,bits⟩ := h.push b.toUInt32 (show 8 ≤ 32 by decide)
    have later := ih sound
    rw [bits,List.append_assoc] at later
    exact later

theorem Sound.run (h : w.Sound) (op : Packer.Op) :
    (w.run op).Sound ∧ (w.run op).view = w.view ++ op.bits w.view.length := by
  cases op with
  | push value count proper =>
    rw [Packer.Op.bits,← bitsOf_eq_map]
    exact h.push value proper.2
  | pad => exact h.pad
  | append bytes =>
    simp only [Packer.Op.bits,← bitsOf_eq_map]
    exact h.append bytes

theorem Sound.runs (h : w.Sound) (ops : List Packer.Op) :
    (w.runs ops).Sound ∧ (w.runs ops).view = Packer.spell w.view ops := by
  induction ops generalizing w with
  | nil => exact ⟨h,rfl⟩
  | cons op ops ih =>
    obtain ⟨sound,bits⟩ := h.run op
    have later := ih sound
    rw [bits] at later
    exact later

/-- The stored words are the bits taken, zeros behind them up to the end of the last word. -/
theorem Sound.store_bits (h : w.Sound) : bitsOfBytes w.store =
    w.view ++ List.replicate (32*((w.position + 31)/32) - w.position) false := by
  have room := h.room
  have stored : ∀ words : List UInt32,
      bitsOfBytes (words.flatMap fun word => littleEndian 4 word.toNat) =
        words.flatMap fun word => bitsOf 32 word.toNat := by
    intro words
    simp only [bitsOfBytes,List.flatMap_assoc]
    exact congrArg (words.flatMap ·) (funext fun word => bitsOfBytes_littleEndian 4 word.toNat)
  rw [store,stored,view,position]
  by_cases aligned : w.used = 0
  · have none : 32*((32*w.words.length + w.used + 31)/32) - (32*w.words.length + w.used) = 0 := by
      omega
    rw [if_pos aligned,none]
    simp [aligned,bitsOf]
  · have rest : 32*((32*w.words.length + w.used + 31)/32) - (32*w.words.length + w.used) =
        32 - w.used := by omega
    have last := bitsOf_add (n := 32 - w.used) (b := 0) h.clean
    have full : w.used + (32 - w.used) = 32 := by omega
    rw [full,Nat.zero_mul,Nat.add_zero,bitsOf_zero] at last
    rw [if_neg aligned,rest,List.flatMap_append,List.flatMap_singleton,last,List.append_assoc]

end WordPacker

theorem bitsOfBytes_zeros (n : Nat) :
    bitsOfBytes (List.replicate n 0) = List.replicate (8*n) false := by
  induction n with
  | zero => rfl
  | succ n ih =>
    rw [List.replicate_succ,bitsOfBytes_cons,ih,UInt8.toNat_zero,bitsOf_zero,
      List.replicate_append_replicate]
    congr 1
    omega

/-- Operations in any order and at any alignment count as many bits in both packers. The finished
bytes are the first of the stored words, as many as hold these bits, and behind them there is
nothing but the zeros of the last word. -/
theorem words_packed (ops : List Packer.Op) :
    let p := Packer.empty.runs ops
    let w := WordPacker.empty.runs ops
    w.position = p.position ∧ p.finish = w.store.take (bytesFor p.position) ∧
      w.store = p.finish ++
        List.replicate (4*((p.position + 31)/32) - bytesFor p.position) 0 := by
  intro p w
  obtain ⟨sound,view⟩ := Packer.empty_sound.runs_view ops
  obtain ⟨sound',view'⟩ := WordPacker.empty_sound.runs ops
  have same : w.view = p.view := view'.trans view.symm
  have position : w.position = p.position := by
    rw [← w.view_length,same]
    exact sound.view_length
  have store : w.store = p.finish ++
      List.replicate (4*((p.position + 31)/32) - bytesFor p.position) 0 := by
    apply bitsOfBytes_inj
    have zeros : 32*((p.position + 31)/32) - p.position =
        padding p.position + 8*(4*((p.position + 31)/32) - bytesFor p.position) := by
      simp only [padding,bytesFor]
      omega
    rw [sound'.store_bits,bitsOfBytes_append,Packer.finish_bits sound,bitsOfBytes_zeros,
      List.append_assoc,List.replicate_append_replicate,same,position,zeros]
  refine ⟨position,?_,store⟩
  rw [store,← Packer.byteCount,← Packer.finish_length sound,List.take_left]

/-- Of the 24 bits behind the first 20, twelve are carried to the second word. The byte after them
starts off a byte boundary. -/
example :
    let ops : List Packer.Op := [.push 0xabcde 20 (by decide),.push 0x123456 24 (by decide),
      .append [0xff]]
    (WordPacker.empty.runs ops).store = [0xde,0xbc,0x6a,0x45,0x23,0xf1,0x0f,0] ∧
      (Packer.empty.runs ops).finish = [0xde,0xbc,0x6a,0x45,0x23,0xf1,0x0f] := by
  decide

end Bitwire
