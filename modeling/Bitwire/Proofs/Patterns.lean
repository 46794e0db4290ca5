import Bitwire.Proofs.Atomic
import Bitwire.Proofs.Locality
import Bitwire.Proofs.Safety

/-! Single calls and the bits they concern. A writer appends bits to those it has written, and what
a reader makes of a call is settled by the bits ahead: every pattern of the width of a number has
its answer, and fewer bits than that are the end of the input. -/
namespace Bitwire

variable {σ τ α : Type}

/-- As many bits as a number has are some pattern of it. -/
theorem exists_pattern {width : Nat} {bits : List Bool} (enough : width ≤ bits.length) :
    ∃ offset < 2^width, bitsOf width offset <+: bits := by
  have length : (bits.take width).length = width := List.length_take_of_le enough
  have small := ofBits_lt (bits.take width)
  have back := bitsOf_ofBits (bits.take width)
  rw [length] at small back
  exact ⟨_,small,back.symm ▸ List.take_prefix _ _⟩

theorem length_lt_of_none {width : Nat} {bits : List Bool}
    (none : ∀ offset < 2^width, ¬bitsOf width offset <+: bits) : bits.length < width := by
  by_contra enough
  obtain ⟨offset,small,front⟩ := exists_pattern (Nat.le_of_not_lt enough)
  exact none offset small front

/-- Fewer bits than that are the beginning of one. -/
theorem exists_completion {width : Nat} {bits : List Bool} (short : bits.length ≤ width) :
    ∃ offset < 2^width, bits <+: bitsOf width offset := by
  let all := bits ++ List.replicate (width - bits.length) false
  have length : all.length = width := by
    rw [List.length_append,List.length_replicate]
    omega
  have small := ofBits_lt all
  have back := bitsOf_ofBits all
  rw [length] at small back
  exact ⟨_,small,back.symm ▸ List.prefix_append _ _⟩

theorem bitsOf_inj {width x y : Nat} (small : x < 2^width) (small' : y < 2^width)
    (same : bitsOf width x = bitsOf width y) : x = y := by
  have numbers := congrArg ofBits same
  rwa [ofBits_bitsOf,ofBits_bitsOf,Nat.mod_eq_of_lt small,Nat.mod_eq_of_lt small'] at numbers

/-- A call that succeeds, keeps the variable and appends bits to those packed before. -/
structure Packer.Appends (p : Packer) (value : α) (bits : List Bool) (step : Step Packer α) :
    Prop where
  result : step.result = .ok ()
  value : step.value = value
  position : step.state.position = p.position + bits.length
  view : step.state.view = p.view ++ bits
  finish : bitsOfBytes step.state.finish =
    p.view ++ bits ++ zeroPadding (p.position + bits.length)

theorem Packer.Holds.appends {p : Packer} {t : Tape} (holds : p.Holds t) {permits : Prop}
    {value : α} {bits : List Bool} {onTape : Step Tape α} {step : Step Packer α}
    (sends : t.Sends permits value bits onTape) (alike : step.Alike Holds onTape) (yes : permits) :
    p.Appends value bits step := by
  rw [sends.sent yes] at alike
  have after : step.state.Holds (t ++ bits) := alike.state
  have view : step.state.view = p.view ++ bits := after.view.trans (by rw [holds.view])
  have position : step.state.position = p.position + bits.length := by
    rw [after.position,holds.position,List.length_append]
  refine ⟨alike.result,alike.value,position,view,?_⟩
  rw [finish_bits after.sound,view,position]
  rfl

/-- What is seen of a call from outside: the value left, how the call ended and the position behind
it. -/
@[ext] structure Seen (α : Type) where
  value : α
  result : Outcome Unit
  position : Nat

def Stream.seen (S : Stream σ) (step : Step σ α) : Seen α :=
  ⟨step.value,step.result,S.position step.state⟩

theorem Stream.Simulates.seen_eq {S : Stream σ} {T : Stream τ} {R : σ → τ → Prop}
    (h : S.Simulates T R) {a : Step σ α} {b : Step τ α} (alike : a.Alike R b) :
    S.seen a = T.seen b := by
  rw [Stream.seen,Stream.seen,alike.value,alike.result,h.position alike.state]

/-- An answer handed back at once is the only way to change the variable. -/
theorem Step.kept_of_given {answer : Outcome α} {kept : α} {s : σ}
    (failed : (Step.given answer kept s fun found => .done found s).result ≠ .ok ()) :
    (Step.given answer kept s fun found => .done found s).value = kept := by
  cases answer with
  | ok found => exact absurd rfl failed
  | error failure => rfl

/-- Whatever was read before, a reader stands at its position in the bits of its input. -/
theorem Reader.Reached.at {checks : Bool} {bytes : List UInt8} {r : Reader}
    (reached : r.Reached checks bytes) : r.At ⟨bitsOfBytes bytes,r.input.position⟩ := by
  have somewhere : ∃ c : Cursor, r.At c ∧ c.bits = bitsOfBytes bytes := by
    induction reached with
    | start => exact ⟨_,ofBytes_at bytes,rfl⟩
    | @call r kind scope kept _ _ ih =>
      -- The call moves the cursor over bits that stay as they are.
      obtain ⟨c,place,bits⟩ := ih
      have after := (stream_at checks).leaf place scope kind kept
      refine ⟨_,after.state,?_⟩
      exact ((Cursor.stream_obeys checks).leaf scope kind kept c).bits.trans bits
  obtain ⟨c,place,bits⟩ := somewhere
  have position : r.input.position = c.position := place.position
  rw [← bits,position]
  exact place

namespace Cursor
variable {c : Cursor} {checks : Bool}

/-- What succeeds is seen of just the inputs that begin with the form of the value. -/
theorem Reads.seen_front {permits : α → Prop} {wire : α → List Bool} {step : Step Cursor α}
    (reads : c.Reads permits wire step)
    (room : ∀ value, permits value → wire value <+: c.rest →
      c.position + (wire value).length < 2^64)
    (small : c.position < 2^64) {found : α} {stop : Nat} :
    (stream checks).seen step = ⟨found,.ok (),stop⟩ ↔
      permits found ∧ wire found <+: c.rest ∧ stop = c.position + (wire found).length := by
  constructor
  · intro seen
    obtain ⟨permitted,sees,state⟩ := reads.only small (congrArg Seen.result seen)
    obtain rfl : step.value = found := congrArg Seen.value seen
    have position : step.state.position = stop := congrArg Seen.position seen
    rw [state] at position
    exact ⟨permitted,sees.ahead,position.symm⟩
  · rintro ⟨permitted,front,rfl⟩
    rw [reads.accepts found permitted ⟨front,room found permitted front⟩]
    rfl

theorem Reads.seen_iff {permits : α → Prop} {wire : α → List Bool} {step : Step Cursor α}
    (reads : c.Reads permits wire step)
    (room : ∀ value, permits value → c.position + (wire value).length < 2^64)
    (small : c.position < 2^64) {found : α} {stop : Nat} :
    (stream checks).seen step = ⟨found,.ok (),stop⟩ ↔
      permits found ∧ wire found <+: c.rest ∧ stop = c.position + (wire found).length :=
  reads.seen_front (fun value permitted _ => room value permitted) small

theorem sees_cons {b : Bool} {more : List Bool} (ahead : c.rest = b::more)
    (room : c.position + 1 < 2^64) : c.Sees [b] ∧ (c.skip 1).rest = more := by
  refine ⟨⟨?_,room⟩,?_⟩
  · rw [ahead]
    exact ⟨more,rfl⟩
  · rw [skip_rest,ahead,List.drop_one,List.tail_cons]

theorem Sees.tail {b : Bool} {more : List Bool} (sees : c.Sees (b::more)) :
    c.Sees [b] ∧ (c.skip 1).Sees more := sees_append.mp (show c.Sees ([b] ++ more) from sees)

theorem take_short {n : Nat} (short : c.rest.length < n) (room : c.position + n < 2^64) :
    c.take n = reject .endOfBuffer := by
  rw [take,if_neg (by omega),if_pos short]

theorem bits_short {count : Nat} (proper : 1 ≤ count ∧ count ≤ 32) (short : c.rest.length < count)
    (room : c.position + count < 2^64) (kept : UInt32) :
    (stream checks).bits count kept c = .fail kept c (.error .endOfBuffer) := by
  simp only [stream,permitCount,if_pos proper,Step.given_ok,take_short short room]
  rfl

theorem bool_empty (none : c.rest = []) (room : c.position + 1 < 2^64) (kept : Bool) :
    Directive.bool (stream checks) kept c = .fail kept c (.error .endOfBuffer) := by
  rw [Directive.bool,bits_short (by decide) (by simp [none]) room]
  rfl

theorem bool_sees {flag : Bool} (sees : c.Sees [flag]) (kept : Bool) :
    Directive.bool (stream checks) kept c = .done flag (c.skip 1) :=
  (bool_reads checks kept).accepts flag trivial sees

theorem bitRun_short [BitsTarget α] {count : Nat} (proper : 1 ≤ count ∧ count ≤ 32)
    (short : c.rest.length < count) (room : c.position + count < 2^64) (kept : α) :
    Directive.bits (stream checks) count kept c = .fail kept c (.error .endOfBuffer) := by
  rw [bitRun_eq,permitCount,if_pos proper,Step.given_ok,bits_short proper short room]
  rfl

variable [IntTarget α] {min max : Int32}

theorem int_short (proper : min < max) (short : c.rest.length < bitsRequired min max)
    (room : c.position + bitsRequired min max < 2^64) (kept : α) :
    Directive.int (stream checks) min max kept c = .fail kept c (.error .endOfBuffer) := by
  have none : (stream checks).integer min max 0 c = .fail 0 c (.error .endOfBuffer) := by
    simp only [stream,Range.ofBounds_of_lt proper,Step.given_ok]
    rw [show (Range.mk min max proper).bits = bitsRequired min max from rfl,take_short short room]
    rfl
  rw [int_eq,Range.ofBounds_of_lt proper,Step.given_ok,none]
  rfl

/-- A pattern stands for a number from the minimum on, which the range and the target take or
not. -/
theorem int_pattern (checks : Bool) (proper : min < max) {offset : Nat}
    (small : offset < 2^bitsRequired min max)
    (sees : c.Sees (bitsOf (bitsRequired min max) offset)) (kept : α) :
    Directive.int (stream checks) min max kept c =
      Step.given ((Range.mk min max proper).accept (min.toInt + offset)) kept
        (c.skip (bitsRequired min max)) fun found =>
          .done found (c.skip (bitsRequired min max)) := by
  have width : bitsRequired min max ≤ 32 := (Range.mk min max proper).bits_le
  have pattern : (word (bitsOf (bitsRequired min max) offset)).toNat = offset := by
    rw [word_toNat (by rw [bitsOf_length]; exact width),ofBits_bitsOf,Nat.mod_eq_of_lt small]
  have := min.le_toInt
  have := max.toInt_lt
  have taken : c.take (bitsRequired min max) = .ok (bitsOf (bitsRequired min max) offset,
      c.skip (bitsRequired min max)) := take_of_sees (bitsOf_length _ _) sees
  rw [int_eq,Range.ofBounds_of_lt proper,Step.given_ok]
  simp only [stream,Range.ofBounds_of_lt proper,Step.given_ok]
  rw [show (Range.mk min max proper).bits = bitsRequired min max from rfl,taken,Step.given_ok]
  dsimp only
  rw [Range.ofOffset_eq,pattern]
  by_cases above : max.toInt < min.toInt + offset
  · have outside : ¬(Range.mk min max proper).contains (min.toInt + offset) = true := by
      rw [Range.contains_iff]
      exact fun inside => absurd inside.2 (Int.not_le.mpr above)
    rw [if_pos above,Range.accept,if_neg outside]
    rfl
  · have exact : (Int32.ofInt (min.toInt + offset)).toInt = min.toInt + offset :=
      Int32.toInt_ofInt_of_le (by omega) (by omega)
    rw [if_neg above,Step.given_ok,Step.andThen_done,exact]
    rfl

end Cursor
end Bitwire
