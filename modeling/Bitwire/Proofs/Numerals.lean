import Mathlib
import Bitwire.Address

/-! Numerals are read back in front of anything that starts with no digit. -/
namespace Bitwire
namespace Numeral
variable {radix n : Nat}

theorem digit?_digitChar {d : Nat} (few : radix ≤ 16) (h : d < radix) :
    digit? radix d.digitChar = some d := by
  have small : d < 16 := by omega
  interval_cases d <;> simp [digit?,Nat.digitChar,h]

theorem write_induction {P : Nat → Prop} (base : 1 < radix) (digit : ∀ d, d < radix → P d)
    (next : ∀ n, radix ≤ n → P (n/radix) → P n) (n : Nat) : P n := by
  induction n using Nat.strong_induction_on with
  | _ n ih =>
    by_cases small : n < radix
    · exact digit n small
    · exact next n (by omega) (ih _ (Nat.div_lt_self (by omega) base))

theorem write_digits (base : 1 < radix) (few : radix ≤ 16) (n : Nat) :
    ∀ c ∈ write radix n, (digit? radix c).isSome := by
  induction n using write_induction base with
  | digit d small =>
    intro c member
    rw [write,Nat.toDigits_of_lt_base small,List.mem_singleton] at member
    rw [member,digit?_digitChar few small]
    rfl
  | next n large ih =>
    intro c member
    rw [write,Nat.toDigits_of_base_le base large,List.mem_append,List.mem_singleton] at member
    rcases member with member | rfl
    · exact ih c member
    · rw [digit?_digitChar few (Nat.mod_lt _ (by omega))]
      rfl

theorem ofDigits_append (radix : Nat) (digits : List Nat) (d : Nat) :
    ofDigits radix (digits ++ [d]) = ofDigits radix digits*radix + d := by
  rw [ofDigits,List.foldl_append]
  rfl

theorem ofDigits_write (base : 1 < radix) (few : radix ≤ 16) (n : Nat) :
    ofDigits radix ((write radix n).filterMap (digit? radix)) = n := by
  induction n using write_induction base with
  | digit d small =>
    rw [write,Nat.toDigits_of_lt_base small,List.filterMap_cons_some (digit?_digitChar few small)]
    simp [ofDigits]
  | next n large ih =>
    have last := digit?_digitChar few (Nat.mod_lt n (show radix > 0 by omega))
    rw [write,Nat.toDigits_of_base_le base large,List.filterMap_append,
      List.filterMap_cons_some last,List.filterMap_nil,ofDigits_append]
    rw [write] at ih
    rw [ih,Nat.mul_comm,Nat.div_add_mod]

/-- Only zero starts with a zero. -/
theorem write_head (base : 1 < radix) (few : radix ≤ 16) (n : Nat)
    (zero : (write radix n).head? = some '0') : n = 0 := by
  induction n using write_induction base with
  | digit d small =>
    rw [write,Nat.toDigits_of_lt_base small,List.head?_cons] at zero
    have value := digit?_digitChar few small
    rw [Option.some.inj zero,show '0' = Nat.digitChar 0 from rfl,
      digit?_digitChar few (by omega)] at value
    exact (Option.some.inj value).symm
  | next n large ih =>
    rw [write,Nat.toDigits_of_base_le base large,List.head?_append_of_ne_nil _ Nat.toDigits_ne_nil]
      at zero
    have quotient := ih zero
    have positive := Nat.div_pos large (by omega)
    omega

end Numeral

namespace Phrase
variable {radix bound n : Nat} {rest : List Char}

/-- A text that starts with no digit. -/
def Stops (radix : Nat) (rest : List Char) : Prop :=
  ∀ c, rest.head? = some c → Numeral.digit? radix c = none

theorem stops_nil : Stops radix [] := fun _ h => by cases h

theorem stops_cons {c : Char} (h : Numeral.digit? radix c = none) : Stops radix (c::rest) :=
  fun _ same => Option.some.inj same ▸ h

theorem Stops.takeWhile (h : Stops radix rest) :
    rest.takeWhile (fun c => (Numeral.digit? radix c).isSome) = [] := by
  cases rest with
  | nil => rfl
  | cons c rest => simp [h c rfl]

theorem Stops.dropWhile (h : Stops radix rest) :
    rest.dropWhile (fun c => (Numeral.digit? radix c).isSome) = rest := by
  cases rest with
  | nil => rfl
  | cons c rest => simp [h c rfl]

/-- The digits of a numeral are taken, all of them and no more. -/
theorem number_write (base : 1 < radix) (few : radix ≤ 16) {maxDigits : Option Nat}
    (leadingZeros : Bool) (small : n < bound) (fits : ∀ k ∈ maxDigits, 0 < k ∧ n < radix^k)
    (stops : Stops radix rest) :
    number radix bound maxDigits leadingZeros (Numeral.write radix n ++ rest) = some (n,rest) := by
  have digits := Numeral.write_digits base few n
  have short : ¬maxDigits.any (· < (Numeral.write radix n).length) = true := by
    cases maxDigits with
    | none => simp
    | some k =>
      have few : (Numeral.write radix n).length ≤ k :=
        (Nat.length_toDigits_le_iff base (fits k rfl).1).mpr (fits k rfl).2
      simpa using few
  have plain : ¬(!leadingZeros && (Numeral.write radix n).head? == some '0' &&
      decide (1 < (Numeral.write radix n).length)) = true := by
    simp only [Bool.and_eq_true,beq_iff_eq,decide_eq_true_eq]
    rintro ⟨⟨-,zero⟩,long⟩
    obtain rfl := Numeral.write_head base few n zero
    rw [Numeral.write,Nat.toDigits_zero] at long
    exact absurd long (by decide)
  have some : Numeral.write radix n ≠ [] := Nat.toDigits_ne_nil
  simp only [number,List.takeWhile_append_of_pos digits,List.dropWhile_append_of_pos digits,
    stops.takeWhile,stops.dropWhile,List.append_nil,Numeral.ofDigits_write base few n]
  rw [if_neg (by simp only [not_or]; exact ⟨some,short,plain,by omega⟩)]

end Phrase
end Bitwire
