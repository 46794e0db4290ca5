import Mathlib
import Bitwire.Bits.Basic
import Bitwire.Bits.View

/-! An unpacker as the list of the bits it has not taken yet. Every operation drops from the
front of the list, and none of them can end in a fault before the counter is full. -/
namespace Bitwire

theorem Counter.add_eq {a b : Nat} (small : a + b < 2^64) : Counter.add a b = .ok (a + b) := by
  rw [Counter.add,Counter.limit,Nat.one_shiftLeft,if_pos small]

theorem Counter.add_full {a b : Nat} (full : 2^64 ≤ a + b) :
    Counter.add a b = halt .counterOverflow := by
  rw [Counter.add,Counter.limit,Nat.one_shiftLeft,if_neg (Nat.not_lt.mpr full)]

namespace Unpacker

/-- The bits not taken yet. -/
def view (u : Unpacker) : List Bool := bitsOf u.heldBits u.held ++ bitsOfBytes u.rest

/-- Fewer than eight bits are held, nothing lies above them, and the counters agree with the
bits that are left. -/
structure Sound (u : Unpacker) : Prop where
  few : u.heldBits < 8
  clean : u.held < 2^u.heldBits
  counted : u.position + u.view.length = u.total
  reached : u.position < 2^64
  phase : (u.position + u.heldBits)%8 = 0

theorem ofBytes_sound (bytes : List UInt8) : (ofBytes bytes).Sound where
  few := by simp [ofBytes]
  clean := by simp [ofBytes]
  counted := by simp [ofBytes,view]
  reached := by simp [ofBytes]
  phase := rfl

@[simp] theorem ofBytes_view (bytes : List UInt8) : (ofBytes bytes).view = bitsOfBytes bytes := rfl

/-- Enough bytes are fetched, and fetching changes no bit. -/
theorem fetch_view {n : Nat} (few : n ≤ 56) : ∀ (rest : List UInt8) {held heldBits : Nat},
    held < 2^heldBits → heldBits < n + 8 → n ≤ heldBits + 8*rest.length →
    ∃ rest' held' heldBits', fetch n rest held heldBits = .ok (rest',held',heldBits') ∧
      held' < 2^heldBits' ∧ n ≤ heldBits' ∧ heldBits' < n + 8 ∧ heldBits'%8 = heldBits%8 ∧
      bitsOf heldBits' held' ++ bitsOfBytes rest' = bitsOf heldBits held ++ bitsOfBytes rest
  | [], held, heldBits, clean, small, enough => by
      have enough : n ≤ heldBits := by simpa using enough
      exact ⟨[],held,heldBits,by simp [fetch,enough],clean,enough,small,rfl,rfl⟩
  | b::rest, held, heldBits, clean, small, enough => by
      by_cases h : n ≤ heldBits
      · exact ⟨b::rest,held,heldBits,by simp [fetch,h],clean,h,small,rfl,rfl⟩
      · have wide : held + b.toNat*2^heldBits < 2^(heldBits + 8) := by
          have := Nat.mul_le_mul_right (2^heldBits) (Nat.succ_le_of_lt b.toNat_lt)
          rw [Nat.succ_mul] at this
          rw [Nat.pow_add,Nat.mul_comm (2^heldBits)]
          omega
        obtain ⟨rest',held',heldBits',run,clean',enough',small',phase,bits⟩ :=
          fetch_view few rest wide (by omega)
            (by simp only [List.length_cons] at enough; omega)
        refine ⟨rest',held',heldBits',?_,clean',enough',small',by omega,?_⟩
        · rw [fetch,if_neg h,if_pos (by omega),Nat.shiftLeft_eq,run]
        · rw [bits,bitsOf_add clean,bitsOfBytes_cons,List.append_assoc]

theorem Sound.isPastEnd {u : Unpacker} (h : u.Sound) {n : Nat} (small : u.position + n < 2^64) :
    u.isPastEnd n = .ok (decide (u.view.length < n)) := by
  have counted := h.counted
  have past : u.total < u.position + n ↔ u.view.length < n := by omega
  simp only [Unpacker.isPastEnd,Counter.add_eq small]
  simp [bind,Except.bind,pure,Except.pure,past]

theorem isPastEnd_full {u : Unpacker} {n : Nat} (full : 2^64 ≤ u.position + n) :
    u.isPastEnd n = halt .counterOverflow := by
  rw [Unpacker.isPastEnd,Counter.add_full full]
  rfl

theorem Sound.remaining {u : Unpacker} (h : u.Sound) : u.remaining = .ok u.view.length := by
  have counted := h.counted
  simp only [Unpacker.remaining,Counter.sub,if_pos (show u.position ≤ u.total by omega)]
  congr 1
  omega

/-- Taking bits drops them from the view. No fault can arise. -/
theorem Sound.take {u : Unpacker} (h : u.Sound) {n : Nat} (few : n ≤ 32)
    (enough : n ≤ u.view.length) (short : u.position + n < 2^64) :
    ∃ v, u.take n = .ok (UInt32.ofNat (ofBits (u.view.take n)),v) ∧ v.Sound ∧
      v.view = u.view.drop n ∧ v.position = u.position + n ∧ v.total = u.total := by
  have counted := h.counted
  have length : u.view.length = u.heldBits + 8*u.rest.length := by simp [view]
  obtain ⟨rest,held,heldBits,run,clean,enough',small,phase,bits⟩ :=
    fetch_view (n := n) (by omega) u.rest h.clean (by have := h.few; omega) (by omega)
  have split : bitsOf heldBits held = bitsOf n held ++ bitsOf (heldBits - n) (held/2^n) := by
    rw [← bitsOf_append]
    congr 1
    omega
  have cut : u.view = bitsOf n held ++ (bitsOf (heldBits - n) (held/2^n) ++ bitsOfBytes rest) := by
    rw [view,← bits,split,List.append_assoc]
  have first : u.view.take n = bitsOf n held := by
    rw [cut,List.take_left' (by simp)]
  have others : u.view.drop n = bitsOf (heldBits - n) (held/2^n) ++ bitsOfBytes rest := by
    rw [cut,List.drop_left' (by simp)]
  refine ⟨⟨rest,held/2^n,heldBits - n,u.position + n,u.total⟩,?_,⟨?_,?_,?_,short,?_⟩,?_,rfl,rfl⟩
  · rw [first,ofBits_bitsOf]
    simp only [Unpacker.take,h.isPastEnd short,
      show ¬u.view.length < n by omega,decide_false,run,Counter.sub,
      Counter.add_eq short,Nat.shiftRight_eq_div_pow,Nat.one_shiftLeft]
    simp [bind,Except.bind,pure,Except.pure,enough']
  · simp only
    omega
  · have wide : held < 2^n*2^(heldBits - n) := by
      rw [← Nat.pow_add]
      simpa [show n + (heldBits - n) = heldBits by omega] using clean
    exact Nat.div_lt_of_lt_mul wide
  · simp only [view] at others ⊢
    rw [← others,List.length_drop]
    simp only [view] at counted enough
    omega
  · have := h.phase
    simp only
    omega
  · rw [others,view]

theorem Sound.take_short {u : Unpacker} (h : u.Sound) {n : Nat} (small : u.position + n < 2^64)
    (short : u.view.length < n) : u.take n = reject .endOfBuffer := by
  simp only [Unpacker.take,h.isPastEnd small,short,decide_true]
  rfl

theorem take_full {u : Unpacker} {n : Nat} (full : 2^64 ≤ u.position + n) :
    u.take n = halt .counterOverflow := by
  rw [Unpacker.take,isPastEnd_full full]
  rfl

/-- What is left after some bits: the same input, further on. -/
structure After (u : Unpacker) (n : Nat) (v : Unpacker) : Prop where
  sound : v.Sound
  view : v.view = u.view.drop n
  position : v.position = u.position + n
  total : v.total = u.total

theorem After.trans {u v w : Unpacker} {m n : Nat} (first : u.After m v) (second : v.After n w) :
    u.After (m + n) w where
  sound := second.sound
  view := by rw [second.view,first.view,List.drop_drop]
  position := by rw [second.position,first.position,Nat.add_assoc]
  total := second.total.trans first.total

theorem Sound.refl {u : Unpacker} (h : u.Sound) : u.After 0 u := ⟨h,rfl,rfl,rfl⟩

theorem Sound.padding_eq {u : Unpacker} (h : u.Sound) : padding u.position = u.heldBits := by
  have few := h.few
  have phase := h.phase
  simp only [padding]
  omega

theorem ofBits_eq_zero {bits : List Bool} : ofBits bits = 0 ↔ bits.any id = false := by
  induction bits with
  | nil => simp [ofBits]
  | cons b bits ih =>
    have double : 2*ofBits bits = 0 ↔ ofBits bits = 0 := by omega
    cases b <;> simp [ofBits,double,ih]

/-- The boundary is always within the input, and it is reached also when a bit is set. -/
theorem Sound.skipPadding {u : Unpacker} (h : u.Sound)
    (short : u.position + padding u.position < 2^64) :
    ∃ v, u.After (padding u.position) v ∧
      u.skipPadding = (if (u.view.take (padding u.position)).any id
        then Step.fail () v (.error .invalidPadding) else Step.done () v) := by
  have few := padding_lt u.position
  have within : padding u.position ≤ u.view.length := by simp [h.padding_eq,view]
  by_cases none : padding u.position = 0
  · refine ⟨u,?_,?_⟩
    · rw [none]; exact h.refl
    · simp [Unpacker.skipPadding,none]
  · obtain ⟨v,run,sound,bits,position,total⟩ :=
      h.take (n := padding u.position) (by omega) within short
    refine ⟨v,⟨sound,bits,position,total⟩,?_⟩
    have bound : ofBits (u.view.take (padding u.position)) < 2^32 := by
      have := ofBits_lt (u.view.take (padding u.position))
      rw [List.length_take_of_le within] at this
      exact Nat.lt_of_lt_of_le this (Nat.pow_le_pow_right (by decide) (by omega))
    have zero : UInt32.ofNat (ofBits (u.view.take (padding u.position))) = 0 ↔
        (u.view.take (padding u.position)).any id = false := by
      rw [← ofBits_eq_zero,← UInt32.toNat_inj,UInt32.toNat_ofNat_of_lt' bound]
      rfl
    simp only [Unpacker.skipPadding,if_neg none,run,zero]
    cases (u.view.take (padding u.position)).any id <;> rfl

/-- Byte after byte, eight bits each. -/
theorem Sound.fillEach {u : Unpacker} (h : u.Sound) :
    ∀ (out : List UInt8), 8*out.length ≤ u.view.length → u.position + 8*out.length < 2^64 →
    ∃ bytes v, Unpacker.fillEach out u = Step.done bytes v ∧ u.After (8*out.length) v ∧
      bitsOfBytes bytes = u.view.take (8*out.length)
  | [], _, _ => ⟨[],u,rfl,h.refl,rfl⟩
  | b::out, enough, short => by
      simp only [List.length_cons,Nat.mul_succ] at enough short ⊢
      obtain ⟨v,run,sound,bits,position,total⟩ :=
        h.take (n := 8) (by decide) (by omega) (by omega)
      have first : u.After 8 v := ⟨sound,bits,position,total⟩
      obtain ⟨bytes,w,rest,after,same⟩ := sound.fillEach out
        (by rw [bits,List.length_drop]; omega) (by omega)
      refine ⟨(UInt32.ofNat (ofBits (u.view.take 8))).toUInt8::bytes,w,?_,?_,?_⟩
      · rw [Unpacker.fillEach,run]
        simp only [rest]
        rfl
      · rw [Nat.add_comm]
        exact first.trans after
      · have length : (u.view.take 8).length = 8 := by
          rw [List.length_take_of_le (by omega)]
        have bound : ofBits (u.view.take 8) < 256 := by
          have := ofBits_lt (u.view.take 8)
          rwa [length] at this
        have byte : bitsOf 8 (UInt32.ofNat (ofBits (u.view.take 8))).toUInt8.toNat =
            u.view.take 8 := by
          rw [UInt32.toNat_toUInt8,UInt32.toNat_ofNat_of_lt' (by simp [UInt32.size]; omega),
            Nat.mod_eq_of_lt bound]
          simpa [length] using bitsOf_ofBits (u.view.take 8)
        rw [bitsOfBytes_cons,byte,same,bits,Nat.add_comm (8*out.length),List.take_add]

theorem take_bitsOfBytes (n : Nat) (bytes : List UInt8) :
    (bitsOfBytes bytes).take (8*n) = bitsOfBytes (bytes.take n) := by
  induction bytes generalizing n with
  | nil => simp
  | cons b bytes ih =>
    cases n with
    | zero => simp
    | succ n =>
      rw [bitsOfBytes_cons,List.take_succ_cons,bitsOfBytes_cons,← ih,Nat.mul_succ,Nat.add_comm]
      rw [List.take_append,bitsOf_length,List.take_of_length_le (by simp)]
      congr 2
      omega

theorem drop_bitsOfBytes (n : Nat) (bytes : List UInt8) :
    (bitsOfBytes bytes).drop (8*n) = bitsOfBytes (bytes.drop n) := by
  induction bytes generalizing n with
  | nil => simp
  | cons b bytes ih =>
    cases n with
    | zero => simp
    | succ n =>
      rw [bitsOfBytes_cons,List.drop_succ_cons,← ih,Nat.mul_succ,Nat.add_comm]
      rw [List.drop_append,bitsOf_length,List.drop_of_length_le (by simp)]
      simp

/-- Bytes are read alike whether they are copied or taken eight bits at a time. -/
theorem Sound.fill {u : Unpacker} (h : u.Sound) {n : Nat} (out : Vector UInt8 n)
    (enough : 8*n ≤ u.view.length) (short : u.position + 8*n < 2^64) :
    ∃ (bytes : Vector UInt8 n) (v : Unpacker), u.fill out = Step.done bytes v ∧
      u.After (8*n) v ∧ bitsOfBytes bytes.toList = u.view.take (8*n) := by
  have counted := h.counted
  have past : u.isPastEnd (8*n) = .ok false := by
    rw [h.isPastEnd short]
    simp only [show ¬u.view.length < 8*n by omega,decide_false]
  by_cases aligned : u.heldBits = 0
  · have view : u.view = bitsOfBytes u.rest := by simp [Unpacker.view,aligned,bitsOf]
    have fits : n ≤ u.rest.length := by
      rw [view,bitsOfBytes_length] at enough
      omega
    refine ⟨⟨(u.rest.take n).toArray,by simp [fits]⟩,
      { u with rest := u.rest.drop n, position := u.position + 8*n },?_,?_,?_⟩
    · simp only [Unpacker.fill,past,Step.given_ok,aligned,if_true,dif_pos fits,
        Counter.add_eq short]
      rfl
    · have drop : Unpacker.view { u with rest := u.rest.drop n, position := u.position + 8*n } =
          u.view.drop (8*n) := by
        rw [view,drop_bitsOfBytes]
        simp [Unpacker.view,aligned,bitsOf]
      refine ⟨⟨h.few,h.clean,?_,short,?_⟩,drop,rfl,rfl⟩
      · rw [drop,List.length_drop]
        simp only
        omega
      · have := h.phase
        simp only
        omega
    · rw [view,take_bitsOfBytes]
      rfl
  · obtain ⟨bytes,v,run,after,bits⟩ := h.fillEach out.toList (by simpa using enough)
      (by simpa using short)
    have length : bytes.length = n := by
      have := Unpacker.fillEach_length out.toList u
      rw [run] at this
      simpa [Step.done] using this
    refine ⟨⟨bytes.toArray,by simpa using length⟩,v,?_,by simpa using after,by simpa using bits⟩
    simp only [Unpacker.fill,past,Step.given_ok,aligned,if_false,run,Step.done]
    rfl

theorem Sound.fill_short {u : Unpacker} (h : u.Sound) {n : Nat} (out : Vector UInt8 n)
    (small : u.position + 8*n < 2^64) (short : u.view.length < 8*n) :
    u.fill out = Step.fail out u (.error .endOfBuffer) := by
  simp only [Unpacker.fill,h.isPastEnd small,short,decide_true]
  rfl

theorem fill_full {u : Unpacker} {n : Nat} (out : Vector UInt8 n)
    (full : 2^64 ≤ u.position + 8*n) :
    u.fill out = Step.fail out u (.fault .counterOverflow) := by
  rw [Unpacker.fill,isPastEnd_full full]
  rfl

end Unpacker
end Bitwire
