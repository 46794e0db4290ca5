import Bitwire.Proofs.Laws
import Bitwire.Proofs.Receiving
import Bitwire.Proofs.Updates

/-! Reading depends only on the bits that it takes. Unless it ran out of bits, a run comes to the
same wherever these are the same: neither the bits behind them nor the length of the input show. -/
namespace Bitwire

variable {α β : Type}

namespace Cursor

/-- The same place in another list, which holds the same bits up to a position. -/
structure Agrees (n : Nat) (c d : Cursor) : Prop where
  position : d.position = c.position
  enough : n ≤ d.bits.length
  same : d.bits.take n = c.bits.take n

/-- The call reads forward in its list, and unless it ran out of bits it comes to the same in every
list that agrees as far as it has read. -/
structure Local (c : Cursor) (call : Cursor → Step Cursor α) : Prop where
  bits : (call c).state.bits = c.bits
  forward : c.position ≤ (call c).state.position
  elsewhere : (call c).result ≠ reject .endOfBuffer →
    ∀ d, c.Agrees (call c).state.position d →
      call d = ⟨(call c).value,⟨d.bits,(call c).state.position⟩,(call c).result⟩

variable {c d : Cursor} {call : Cursor → Step Cursor α}

theorem Agrees.mono {m n : Nat} (h : c.Agrees n d) (le : m ≤ n) : c.Agrees m d where
  position := h.position
  enough := Nat.le_trans le h.enough
  same := by
    have prefixes := congrArg (List.take m) h.same
    rwa [List.take_take,List.take_take,Nat.min_eq_left le] at prefixes

/-- The bits on the way to a position where both lists agree. -/
theorem Agrees.rest {n : Nat} (h : c.Agrees (c.position + n) d) :
    d.rest.take n = c.rest.take n ∧ n ≤ d.rest.length := by
  have bits := congrArg (List.drop c.position) h.same
  rw [List.drop_take,List.drop_take,Nat.add_sub_cancel_left] at bits
  have enough := h.enough
  rw [Cursor.rest,Cursor.rest,h.position,List.length_drop]
  exact ⟨bits,by omega⟩

/-- What moves nothing looks at nothing. -/
theorem local_still (value : α) (result : Outcome Unit) : c.Local fun d => ⟨value,d,result⟩ where
  bits := rfl
  forward := Nat.le_refl _
  elsewhere _ d agrees := by rw [← agrees.position]

theorem Local.congr {call' : Cursor → Step Cursor α} (h : c.Local call')
    (same : ∀ d, d.position = c.position → call d = call' d) : c.Local call where
  bits := by rw [same c rfl]; exact h.bits
  forward := by rw [same c rfl]; exact h.forward
  elsewhere some d agrees := by
    rw [same c rfl] at some agrees ⊢
    rw [same d agrees.position]
    exact h.elsewhere some d agrees

theorem Local.chain (h : c.Local call) (place : α → β) {next : α → Cursor → Step Cursor β}
    (go : (call c).result = .ok () → (call c).state.Local (next (call c).value)) :
    c.Local fun c => (call c).chain place next := by
  cases ended : (call c).result with
  | error failure =>
    have stopped : (call c).chain place next =
        .fail (place (call c).value) (call c).state failure := by
      rw [Step.chain,ended]
    refine ⟨by rw [stopped]; exact h.bits,by rw [stopped]; exact h.forward,fun some d agrees => ?_⟩
    rw [stopped] at some agrees ⊢
    have first := h.elsewhere (ended ▸ some) d agrees
    rw [Step.chain,first,ended]
    rfl
  | ok =>
    have later := go ended
    refine ⟨?_,?_,fun some d agrees => ?_⟩ <;> simp only [Step.chain_of_ok ended] at *
    · exact later.bits.trans h.bits
    · exact h.forward.trans later.forward
    · have first := h.elsewhere (by rw [ended]; exact nofun) d (agrees.mono later.forward)
      rw [first,Step.chain,ended]
      refine later.elsewhere some _ ⟨rfl,agrees.enough,?_⟩
      rw [h.bits]
      exact agrees.same

/-- Reading as far as it has come. -/
def locality : Law Cursor where
  Holds := Local
  Own _ := True
  done value _ := local_still value (.ok ())
  fail value _ _ _ := local_still value (.error _)
  chain place _ h go := h.chain place go

/-- Takes as many bits as the place asks for. -/
def takeBits (width : Nat → Nat) (c : Cursor) : Step Cursor (List Bool) :=
  Step.given (c.take (width c.position)) [] c fun taken => .done taken.1 taken.2

theorem local_take (width : Nat → Nat) : c.Local (takeBits width) := by
  by_cases full : 2^64 ≤ c.position + width c.position
  · refine (local_still [] (halt .counterOverflow)).congr fun d same => ?_
    rw [takeBits,take,same,if_pos full]
    rfl
  have taken : ∀ d : Cursor, d.position = c.position → takeBits width d =
      if d.rest.length < width c.position then ⟨[],d,reject .endOfBuffer⟩
      else ⟨d.rest.take (width c.position),d.skip (width c.position),.ok ()⟩ := by
    intro d same
    rw [takeBits,take,same,if_neg full]
    split <;> rfl
  have here := taken c rfl
  by_cases short : c.rest.length < width c.position
  · rw [if_pos short] at here
    refine ⟨by rw [here],by rw [here],fun some => ?_⟩
    rw [here] at some
    exact absurd rfl some
  · rw [if_neg short] at here
    refine ⟨by rw [here]; rfl,by rw [here]; exact Nat.le_add_right _ _,fun _ d agrees => ?_⟩
    rw [here] at agrees ⊢
    obtain ⟨bits,enough⟩ := agrees.rest
    rw [taken d agrees.position,if_neg (by omega),bits,skip,agrees.position]
    rfl

theorem holds_take (width : Nat → Nat) (kept : α) (next : List Bool → Cursor → Step Cursor α)
    (go : ∀ bits c, locality.Holds c (next bits)) (c : Cursor) :
    locality.Holds c fun c =>
      Step.given (c.take (width c.position)) kept c fun taken => next taken.1 taken.2 := by
  have split : (fun c : Cursor => Step.given (c.take (width c.position)) kept c fun taken =>
      next taken.1 taken.2) = fun c => (takeBits width c).andThen kept next := by
    funext c
    unfold takeBits
    cases c.take (width c.position) with
    | ok taken => rfl
    | error failure => rfl
  rw [split]
  exact Law.andThen (local_take width) kept go

theorem holds_given (answer : Outcome β) (kept : α) {next : β → Cursor → Step Cursor α}
    (go : ∀ found c, locality.Holds c (next found)) (c : Cursor) :
    locality.Holds c fun c => Step.given answer kept c fun found => next found c :=
  Law.given (fun _ _ => trivial) kept fun found _ => go found c

theorem holds_padding (c : Cursor) : locality.Holds c skipPadding := by
  refine holds_take padding () (fun bits c =>
    if bits.any id then .fail () c (.error .invalidPadding) else .done () c) (fun bits c => ?_) c
  split
  · exact locality.fail () c trivial
  · exact locality.done () c

theorem stream_obeys (checks : Bool) : (stream checks).Obeys locality where
  reading := rfl
  integer min max value c := by
    refine holds_given _ value (fun range c => ?_) c
    refine holds_take (fun _ => range.bits) value (fun bits c =>
      Step.given (range.ofOffset (word bits)) value c fun found => .done found c)
      (fun bits c => ?_) c
    exact holds_given _ value locality.done c
  bits count value c := by
    refine holds_given _ value (fun _ c => ?_) c
    exact holds_take (fun _ => count) value (fun bits => .done (word bits))
      (fun bits => locality.done (word bits)) c
  bytes {n} data c := by
    change locality.Holds c fun c => c.skipPadding.andThen data fun _ c => c.fill data
    refine Law.andThen (holds_padding c) data fun _ c => ?_
    exact holds_take (fun _ => 8*n) data (fun bits => .done ⟨(bytesOf n bits).toArray,by simp⟩)
      (fun _ => locality.done _) c
  align := holds_padding
  check c := by
    cases checks with
    | false => exact locality.done () c
    | true =>
      let compare := fun bits (c : Cursor) => if word bits = checkWord then Step.done () c
        else .fail () c (.error (.checkFailed checkWord (word bits)))
      change locality.Holds c fun c => c.skipPadding.andThen () fun _ c =>
        Step.given (c.take 32) () c fun taken => compare taken.1 taken.2
      refine Law.andThen (holds_padding c) () fun _ c => ?_
      refine holds_take (fun _ => 32) () compare (fun bits c => ?_) c
      unfold compare
      split
      · exact locality.done () c
      · exact locality.fail () c trivial
  object _ c visit := visit c
  judged _ := trivial
  exceeded _ _ _ _ := trivial

end Cursor

namespace Record
variable {fields : List Field}

/-- A run that ended at a position, with success or with any error but the end of the input, ends
there as well on every input that agrees so far, with the same result and the same values. -/
theorem reading_local (checks : Bool) (record : Record fields) (first second : List UInt8) :
    let a := record.run (Reader.stream checks) .empty (.ofBytes first)
    let b := record.run (Reader.stream checks) .empty (.ofBytes second)
    let n := a.state.input.position
    a.result ≠ reject .endOfBuffer → n ≤ 8*second.length →
    (bitsOfBytes second).take n = (bitsOfBytes first).take n →
    b.state.input.position = n ∧ b.result = a.result ∧ b.value = a.value := by
  intro a b n some enough same
  have here := record.run_reader checks .empty (Reader.ofBytes_at first)
  have there := record.run_reader checks .empty (Reader.ofBytes_at second)
  have position : n = _ := here.state.position
  have holds := (Cursor.stream_obeys checks).record .empty record (.start (bitsOfBytes first))
  have elsewhere := holds.elsewhere (here.result ▸ some) (.start (bitsOfBytes second)) {
    position := rfl
    enough := by rw [← position]; exact (bitsOfBytes_length second).symm ▸ enough
    same := by rw [← position]; exact same }
  rw [elsewhere] at there
  refine ⟨?_,there.result.trans here.result.symm,there.value.trans here.value.symm⟩
  exact (Unpacker.At.position there.state).trans position.symm

/-- The two inputs agree in the first 11 bits only. -/
theorem reading_local_sized :
    let a := (Record.initial sizedFields).run (Reader.stream true) .empty (.ofBytes [0xa4,0x06])
    let b := (Record.initial sizedFields).run (Reader.stream true) .empty
      (.ofBytes [0xa4,0xfe,0x77])
    b.state.input.position = 11 ∧ b.result = a.result ∧ b.value = a.value :=
  reading_local true (Record.initial sizedFields) [0xa4,0x06] [0xa4,0xfe,0x77] (by decide)
    (by decide) (by decide)

end Record
end Bitwire
