import Bitwire.Proofs.Cursor
import Bitwire.Proofs.Wire

/-! Reading undoes writing. A call reads a wire form if it takes the form of every value that
may be sent, and if whatever it takes is the form of the value that it hands back. -/
namespace Bitwire

namespace Cursor

/-- The bits ahead, as far as the counter reaches. -/
structure Sees (c : Cursor) (bits : List Bool) : Prop where
  ahead : bits <+: c.rest
  reached : c.position + bits.length < 2^64

variable {c : Cursor} {first second : List Bool}

theorem sees_append :
    c.Sees (first ++ second) ↔ c.Sees first ∧ (c.skip first.length).Sees second := by
  constructor
  · intro h
    have reached := h.reached
    rw [List.length_append] at reached
    obtain ⟨later,split⟩ := h.ahead
    rw [List.append_assoc] at split
    refine ⟨⟨⟨_,split⟩,by omega⟩,?_,by rw [skip_position]; omega⟩
    rw [skip_rest,← split,List.drop_left]
    exact List.prefix_append _ _
  · rintro ⟨⟨⟨later,split⟩,-⟩,ahead,reached⟩
    rw [skip_rest,← split,List.drop_left] at ahead
    rw [skip_position] at reached
    refine ⟨?_,by rw [List.length_append]; omega⟩
    rw [← split]
    exact (List.prefix_append_right_inj first).mpr ahead

theorem take_of_sees {n : Nat} (length : first.length = n) (h : c.Sees first) :
    c.take n = .ok (first,c.skip n) := by
  subst length
  obtain ⟨later,split⟩ := h.ahead
  have reached := h.reached
  have enough : ¬c.rest.length < first.length := by
    rw [← split,List.length_append]
    omega
  rw [take,if_neg (by omega),if_neg enough,← split,List.take_left]

theorem sees_of_take {n : Nat} {bits : List Bool} {d : Cursor} (h : c.take n = .ok (bits,d)) :
    bits.length = n ∧ c.Sees bits ∧ d = c.skip n := by
  unfold take at h
  split at h
  · cases h
  · split at h
    · cases h
    · have length : (c.rest.take n).length = n := List.length_take_of_le (by omega)
      cases h
      exact ⟨length,⟨List.take_prefix _ _,by omega⟩,rfl⟩

end Cursor

theorem Cursor.word_toNat {bits : List Bool} (few : bits.length ≤ 32) :
    (word bits).toNat = ofBits bits :=
  UInt32.toNat_ofNat_of_lt'
    (Nat.lt_of_lt_of_le (ofBits_lt bits) (Nat.pow_le_pow_right (by decide) few))

/-- A word keeps all bits of a short list. -/
theorem Cursor.bitsOf_word {bits : List Bool} (few : bits.length ≤ 32) :
    bitsOf bits.length (word bits).toNat = bits := by
  rw [word_toNat few]
  exact bitsOf_ofBits bits

variable {α β : Type} {c : Cursor}

/-- Where the form of a value that may be sent lies ahead, just that form is taken. -/
def Cursor.Accepts (c : Cursor) (permits : α → Prop) (wire : α → List Bool)
    (step : Step Cursor α) : Prop :=
  ∀ value, permits value → c.Sees (wire value) → step = .done value (c.skip (wire value).length)

/-- What is taken is the form of the value handed back, and that value may be sent. -/
def Cursor.Only (c : Cursor) (permits : α → Prop) (wire : α → List Bool)
    (step : Step Cursor α) : Prop :=
  c.position < 2^64 → step.result = .ok () → permits step.value ∧ c.Sees (wire step.value) ∧
    step.state = c.skip (wire step.value).length

structure Cursor.Reads (c : Cursor) (permits : α → Prop) (wire : α → List Bool)
    (step : Step Cursor α) : Prop where
  accepts : c.Accepts permits wire step
  only : c.Only permits wire step

namespace Cursor
variable {permits : α → Prop} {wire : α → List Bool} {step : Step Cursor β} {sends : β → Prop}
  {front : β → List Bool}

/-- The form of a value is that of a first part, then what follows on it. -/
theorem Accepts.andThen (h : c.Accepts sends front step) {kept : α}
    {go : β → Cursor → Step Cursor α} {permits' : β → α → Prop} {back : β → α → List Bool}
    (split : ∀ value, permits value → ∃ part, sends part ∧ permits' part value ∧
      wire value = front part ++ back part value)
    (next : ∀ part, sends part → (c.skip (front part).length).Accepts (permits' part) (back part)
      (go part (c.skip (front part).length))) :
    c.Accepts permits wire (step.andThen kept go) := by
  intro value permitted sees
  obtain ⟨part,sent,permitted,bits⟩ := split value permitted
  rw [bits,sees_append] at sees
  rw [h part sent sees.1,Step.andThen_done,next part sent value permitted sees.2,bits,skip_skip,
    List.length_append]

theorem Only.andThen (h : c.Only sends front step) {kept : α} {go : β → Cursor → Step Cursor α}
    {permits' : β → α → Prop} {back : β → α → List Bool}
    (join : ∀ part value, sends part → permits' part value →
      permits value ∧ wire value = front part ++ back part value)
    (next : ∀ part, sends part → (c.skip (front part).length).Only (permits' part) (back part)
      (go part (c.skip (front part).length))) :
    c.Only permits wire (step.andThen kept go) := by
  intro small success
  have first := Step.ok_of_andThen success
  obtain ⟨sent,sees,state⟩ := h small first
  rw [Step.andThen_of_ok first,state] at success ⊢
  obtain ⟨permitted,later,state⟩ := next _ sent sees.reached success
  obtain ⟨permitted,bits⟩ := join _ _ sent permitted
  rw [bits,sees_append]
  refine ⟨permitted,⟨sees,later⟩,?_⟩
  rw [state,skip_skip,List.length_append]

theorem Reads.andThen (h : c.Reads sends front step) {kept : α} {go : β → Cursor → Step Cursor α}
    {permits' : β → α → Prop} {back : β → α → List Bool}
    (split : ∀ value, permits value ↔ ∃ part, sends part ∧ permits' part value)
    (join : ∀ part value, sends part → permits' part value →
      wire value = front part ++ back part value)
    (next : ∀ part, sends part → (c.skip (front part).length).Reads (permits' part) (back part)
      (go part (c.skip (front part).length))) :
    c.Reads permits wire (step.andThen kept go) where
  accepts := by
    refine h.accepts.andThen (fun value permitted => ?_) fun part sent => (next part sent).accepts
    obtain ⟨part,sent,permitted⟩ := (split value).mp permitted
    exact ⟨part,sent,permitted,join part value sent permitted⟩
  only := by
    refine h.only.andThen (fun part value sent permitted => ?_) fun part sent =>
      (next part sent).only
    exact ⟨(split value).mpr ⟨part,sent,permitted⟩,join part value sent permitted⟩

/-- An answer takes nothing off the wire. -/
theorem reads_given {answer : Outcome α} {kept : α}
    (split : ∀ value, permits value ↔ answer = .ok value) :
    c.Reads permits (fun _ => []) (Step.given answer kept c fun found => .done found c) where
  accepts value permitted _ := by
    rw [(split value).mp permitted]
    rfl
  only small success := by
    cases answer with
    | error failure => cases success
    | ok found => exact ⟨(split found).mpr rfl,⟨List.nil_prefix,small⟩,rfl⟩

/-- The reader may demand something before it looks at the wire. -/
theorem Reads.given {answer : Outcome β} {kept : α} {next : β → Step Cursor α}
    (demand : ∀ value, permits value → ∃ part, answer = .ok part)
    (go : ∀ part, answer = .ok part → c.Reads permits wire (next part)) :
    c.Reads permits wire (Step.given answer kept c next) where
  accepts value permitted sees := by
    obtain ⟨part,yes⟩ := demand value permitted
    rw [yes]
    exact (go part yes).accepts value permitted sees
  only small success := by
    cases found : answer with
    | error failure => rw [found] at success; cases success
    | ok part =>
      rw [found] at success
      exact (go part found).only small success

/-- A decoded value is stored. -/
theorem Reads.store (h : c.Reads sends front step) {kept : α} {decoded : β → Outcome α}
    (checks : Bool)
    (split : ∀ value, permits value ↔ ∃ part, sends part ∧ decoded part = .ok value)
    (join : ∀ part value, sends part → decoded part = .ok value → wire value = front part) :
    c.Reads permits wire (step.andThen kept fun found s =>
      Directive.store (stream checks) kept s (decoded found)) := by
  have stored : ∀ part (d : Cursor), d.Reads (fun value => decoded part = .ok value) (fun _ => [])
      (Directive.store (stream checks) kept d (decoded part)) := fun _ _ =>
    reads_given fun _ => Iff.rfl
  refine h.andThen split (fun part value sent found => ?_) fun part _ => stored part _
  rw [join part value sent found,List.append_nil]

theorem Only.map (h : c.Only sends front step) {f : β → α}
    (join : ∀ part, sends part → permits (f part) ∧ wire (f part) = front part) :
    c.Only permits wire (step.map f) := by
  intro small success
  obtain ⟨sent,seen⟩ := h small success
  obtain ⟨permitted,bits⟩ := join _ sent
  refine ⟨permitted,?_⟩
  rw [Step.map,bits]
  exact seen

theorem Reads.map (h : c.Reads sends front step) {f : β → α}
    (split : ∀ value, permits value ↔ ∃ part, sends part ∧ f part = value)
    (join : ∀ part, sends part → wire (f part) = front part) :
    c.Reads permits wire (step.map f) where
  accepts value permitted sees := by
    obtain ⟨part,sent,rfl⟩ := (split value).mp permitted
    rw [join part sent] at sees ⊢
    rw [h.accepts part sent sees]
    rfl
  only := h.only.map fun part sent => ⟨(split _).mpr ⟨part,sent,rfl⟩,join part sent⟩

/-- A call that always fails reads the form of no value. -/
theorem reads_fail {kept : α} {failure : Failure} (none : ∀ value, ¬permits value) :
    c.Reads permits wire (Step.fail kept c failure) where
  accepts value permitted _ := absurd permitted (none value)
  only _ success := by cases success

/-- The same values in the same form. -/
theorem Reads.congr {step : Step Cursor α} {permits' : α → Prop} {wire' : α → List Bool}
    (h : c.Reads permits' wire' step) (same : ∀ value, permits value ↔ permits' value)
    (bits : ∀ value, permits value → wire value = wire' value) : c.Reads permits wire step where
  accepts value permitted sees := by
    rw [bits value permitted] at sees ⊢
    exact h.accepts value ((same value).mp permitted) sees
  only small success := by
    obtain ⟨permitted,seen⟩ := h.only small success
    have permitted := (same _).mpr permitted
    rw [bits _ permitted]
    exact ⟨permitted,seen⟩

theorem reads_word {n : Nat} (kept : UInt32) (few : n ≤ 32) :
    c.Reads (fun w : UInt32 => w.toNat < 2^n) (fun w => bitsOf n w.toNat) (c.takeWord n kept) where
  accepts value small sees := by
    have back : word (bitsOf n value.toNat) = value := by
      rw [word,ofBits_bitsOf,Nat.mod_eq_of_lt small]
      exact UInt32.ofNat_toNat
    rw [takeWord,take_of_sees (bitsOf_length _ _) sees,Step.given_ok]
    simp only [back,bitsOf_length]
  only _ success := by
    unfold takeWord at success ⊢
    cases taken : c.take n with
    | error failure => rw [taken] at success; cases success
    | ok found =>
      obtain ⟨bits,d⟩ := found
      obtain ⟨length,sees,rfl⟩ := sees_of_take taken
      have small := ofBits_lt bits
      have back := bitsOf_word (length.trans_le few)
      rw [← word_toNat (length.trans_le few)] at small
      rw [length] at small back
      simp only [Step.given_ok,Step.done,back,length]
      exact ⟨small,sees,trivial⟩

theorem reads_padding :
    c.Reads (fun _ => True) (fun _ => zeroPadding c.position) c.skipPadding where
  accepts _ _ sees := by
    have zeros : (zeroPadding c.position).any id = false := by simp [zeroPadding]
    rw [skipPadding,take_of_sees (zeroPadding_length _) sees,Step.given_ok,zeroPadding_length]
    simp only [zeros]
    rfl
  only _ success := by
    unfold skipPadding at success ⊢
    cases taken : c.take (padding c.position) with
    | error failure => rw [taken] at success; cases success
    | ok found =>
      obtain ⟨bits,d⟩ := found
      obtain ⟨length,sees,rfl⟩ := sees_of_take taken
      rw [taken] at success
      simp only [Step.given_ok] at success ⊢
      split at success
      · cases success
      · next clear =>
        have zeros : bits = zeroPadding c.position := by
          rw [zeroPadding,List.eq_replicate_iff]
          refine ⟨length,fun b member => ?_⟩
          by_contra set
          exact clear (List.any_eq_true.mpr ⟨b,member,by simpa using set⟩)
        rw [if_neg clear]
        exact ⟨trivial,zeros ▸ sees,by rw [zeroPadding_length]; rfl⟩

theorem reads_fill {n : Nat} (out : Vector UInt8 n) :
    c.Reads (fun _ => True) (fun found : Vector UInt8 n => bitsOfBytes found.toList)
      (c.fill out) where
  accepts value _ sees := by
    have length : (bitsOfBytes value.toList).length = 8*n := by simp
    have back : bytesOf n (bitsOfBytes value.toList) = value.toList := by
      simpa using bytesOf_bitsOfBytes value.toList []
    have same : (⟨(bytesOf n (bitsOfBytes value.toList)).toArray,by simp⟩ : Vector UInt8 n) =
        value :=
      Vector.toArray_inj.mp (by simp only [back]; rfl)
    rw [fill,take_of_sees length sees,Step.given_ok,length]
    simp only [same]
  only _ success := by
    unfold fill at success ⊢
    cases taken : c.take (8*n) with
    | error failure => rw [taken] at success; cases success
    | ok found =>
      obtain ⟨bits,d⟩ := found
      obtain ⟨length,sees,rfl⟩ := sees_of_take taken
      have back : bitsOfBytes (bytesOf n bits) = bits := bitsOfBytes_bytesOf length
      simp only [Step.given_ok,Step.done,Vector.toList,back,length]
      exact ⟨trivial,sees,trivial⟩

end Cursor
end Bitwire
