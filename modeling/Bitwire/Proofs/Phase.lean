import Mathlib.Data.Nat.ModEq
import Bitwire.Proofs.Atomic
import Bitwire.Proofs.Updates

/-! Where a message starts. Only alignment looks at the position, and it looks no further than to
the next byte boundary. So what is sent depends on the start modulo 8, and not at all where nothing
is aligned; what was sent before shows in neither. -/
namespace Bitwire

theorem padding_congr {p q : Nat} (same : p ≡ q [MOD 8]) : padding p = padding q := by
  unfold padding
  rw [show p%8 = q%8 from same]

theorem zeroPadding_congr {p q : Nat} (same : p ≡ q [MOD 8]) : zeroPadding p = zeroPadding q := by
  rw [zeroPadding,padding_congr same,zeroPadding]

theorem Wire.bytes_congr {p q : Nat} (same : p ≡ q [MOD 8]) (data : List UInt8) :
    bytes p data = bytes q data := by
  rw [bytes,zeroPadding_congr same,bytes]

theorem Wire.text_congr {p q : Nat} (same : p ≡ q [MOD 8]) (size : Nat) (value : String) :
    text size p value = text size q value := by
  let length := integer 0 (Int32.ofNat (size - 1)) value.utf8ByteSize
  exact congrArg (length ++ ·) (bytes_congr (same.add_right length.length) _)

namespace Leaf

/-- Something of the leaf is sent from a byte boundary on. -/
def Aligns (checks : Bool) : Leaf → Prop
  | bytes _ | text _ | align | address _ => True
  | check => checks = true
  | int .. | bits .. | rawInt .. | rawBits _ | bool | u32 | u64 | float | double | relative _
  | ackRelative _ | sequenceRelative _ => False

/-- The bits of a leaf are the same in places that are the same modulo 8, and everywhere if nothing
of it is aligned. -/
theorem wire_phase {checks : Bool} {kind : Leaf} {n p q : Nat}
    (aligned : kind.Aligns checks → 8 ∣ n) (same : p ≡ q [MOD n]) (scope : Scope)
    (value : kind.Value) :
    kind.wire checks scope p value = kind.wire checks scope q value := by
  cases kind with
  | bytes length => exact Wire.bytes_congr (same.of_dvd (aligned trivial)) _
  | text size => exact Wire.text_congr (same.of_dvd (aligned trivial)) _ _
  | align => exact zeroPadding_congr (same.of_dvd (aligned trivial))
  | address type => exact Wire.text_congr (same.of_dvd (aligned trivial)) _ _
  | check =>
    cases checks with
    | false => rfl
    | true =>
      have padding := zeroPadding_congr (same.of_dvd (aligned rfl))
      exact congrArg (· ++ bitsOf 32 checkWord.toNat) padding
  | _ => rfl

end Leaf

/-- What the field sends itself depends on the start modulo `n` at most. -/
def Field.IsPhased (checks : Bool) (n : Nat) : Field → Prop
  | .leaf _ kind => kind.Aligns checks → 8 ∣ n
  | .object .. => True

/-- Nothing that the field sends itself is aligned. -/
def Field.IsUnaligned (checks : Bool) : Field → Prop
  | .leaf _ kind => ¬kind.Aligns checks
  | .object .. => True

theorem Field.isPhased_eight (checks : Bool) (field : Field) : field.IsPhased checks 8 := by
  cases field with
  | leaf _ _ => exact fun _ => dvd_refl 8
  | object _ _ _ => trivial

theorem Field.IsUnaligned.isPhased {checks : Bool} {n : Nat} (field : Field)
    (unaligned : field.IsUnaligned checks) : field.IsPhased checks n := by
  cases field with
  | leaf _ _ => exact fun aligns => absurd aligns unaligned
  | object _ _ _ => trivial

namespace Tape

/-- Two tapes have taken the same bits since they were other ones. -/
def Alongside (t u t' u' : Tape) : Prop := ∃ bits, t' = t ++ bits ∧ u' = u ++ bits

variable {α : Type} {n : Nat} {t u t' u' : Tape}

theorem Alongside.refl (t u : Tape) : t.Alongside u t u :=
  ⟨[],(List.append_nil t).symm,(List.append_nil u).symm⟩

theorem Alongside.append (h : t.Alongside u t' u') (bits : List Bool) :
    t.Alongside u (t' ++ bits) (u' ++ bits) := by
  obtain ⟨before,rfl,rfl⟩ := h
  exact ⟨before ++ bits,List.append_assoc .. ,List.append_assoc ..⟩

theorem Alongside.phase (h : t.Alongside u t' u') (same : t.length ≡ u.length [MOD n]) :
    t'.length ≡ u'.length [MOD n] := by
  obtain ⟨bits,rfl,rfl⟩ := h
  rw [List.length_append,List.length_append]
  exact same.add_right _

/-- No answer of a tape depends on its bits. -/
theorem stream_blind (checks : Bool) :
    (stream checks).Follows (stream checks) (fun _ _ => True) fun _ => False where
  reading := rfl
  reader _ excused := excused.elim
  integer _ _ value _ _ _ := .given _ _ trivial fun _ => .given _ _ trivial fun _ =>
    .done value trivial
  bits _ value _ _ _ := .given _ _ trivial fun _ => .done value trivial
  bytes data _ _ _ := .done data trivial
  align _ := .done () trivial
  check _ := .done () trivial
  object _ go _ _ _ := go _ _ trivial

end Tape

section
variable {checks : Bool} {n : Nat} {t u : Tape}

theorem Leaf.run_alongside {kind : Leaf} (aligned : kind.Aligns checks → 8 ∣ n)
    (same : t.length ≡ u.length [MOD n]) (scope : Scope) (value : kind.Value) {t' u' : Tape}
    (h : t.Alongside u t' u') : (kind.run (Tape.stream checks) scope value t').Follows
      (t.Alongside u) (fun _ => False) (kind.run (Tape.stream checks) scope value u') := by
  have sends := kind.run_sends checks scope t' value
  have sends' := kind.run_sends checks scope u' value
  by_cases yes : kind.Permits scope value
  · rw [sends.sent yes,sends'.sent yes,wire_phase aligned (h.phase same)]
    exact .done value (h.append _)
  · -- Both are left as they were, and for the same reason.
    have blind :=
      ((Tape.stream_blind checks).leaf (s := t') (t := u') trivial scope kind value).toAlike
    obtain ⟨breach,run⟩ := sends.refused yes
    obtain ⟨breach',run'⟩ := sends'.refused yes
    refine .alike ⟨blind.value,blind.result,?_⟩
    rw [run,run']
    exact h

mutual
theorem Field.Value.pass_alongside (same : t.length ≡ u.length [MOD n]) (scope : Scope) :
    {field : Field} → field.Throughout (Field.IsPhased checks n) → (value : field.Value) →
    {t' u' : Tape} → t.Alongside u t' u' → (value.pass (Tape.stream checks) scope t').Follows
      (t.Alongside u) (fun _ => False) (value.pass (Tape.stream checks) scope u')
  | .leaf .., phased, .leaf value, _, _, h => (Leaf.run_alongside phased same scope value h).map _
  | .object _ .static _, phased, .object record, _, _, h =>
      (record.run_alongside same .empty phased.2 h).map _
  | .object _ .dynamic _, phased, .object record, _, _, h =>
      (record.run_alongside same .empty phased.2 h).map _
/-- Runs from two tapes end alike and add the same bits, also where they fail. -/
theorem Record.run_alongside (same : t.length ≡ u.length [MOD n]) (finished : Scope) :
    {fields : List Field} → Throughout (Field.IsPhased checks n) fields →
    (record : Record fields) → {t' u' : Tape} → t.Alongside u t' u' →
    (record.run (Tape.stream checks) finished t').Follows (t.Alongside u) (fun _ => False)
      (record.run (Tape.stream checks) finished u')
  | [], _, .nil, _, _, h => .done _ h
  | _::_, phased, .cons value rest, _, _, h => by
      rw [Record.run_cons,Record.run_cons]
      refine (Step.Follows.guarded rfl h value (value.pass_alongside same _ phased.1 h)).chain _
        fun value _ _ h => ?_
      exact (rest.run_alongside same _ phased.2 h).map _
end

end

/-- Calls that keep step with two calls that are alike are alike themselves. -/
theorem Step.Alike.between {σ τ ρ υ α : Type} {R : σ → ρ → Prop} {R' : τ → υ → Prop}
    {Q : ρ → υ → Prop} {a : Step σ α} {b : Step τ α} {c : Step ρ α} {d : Step υ α}
    (first : a.Alike R c) (second : b.Alike R' d) (alike : c.Alike Q d) :
    a.Alike (fun s t => ∃ r u, R s r ∧ R' t u ∧ Q r u) b where
  value := first.value.trans (alike.value.trans second.value.symm)
  result := first.result.trans (alike.result.trans second.result.symm)
  state := ⟨_,_,first.state,second.state,alike.state⟩

theorem Step.Alike.mono {σ τ α : Type} {R Q : σ → τ → Prop} {a : Step σ α} {b : Step τ α}
    (h : a.Alike R b) (imp : ∀ s t, R s t → Q s t) : a.Alike Q b :=
  ⟨h.value,h.result,imp _ _ h.state⟩

namespace Packer

/-- The packer after some more bits. Those before them stay as they are, and the finished bytes hold
both. -/
structure Extends (p : Packer) (bits : List Bool) (p' : Packer) : Prop where
  position : p'.position = p.position + bits.length
  view : p'.view = p.view ++ bits
  finish : bitsOfBytes p'.finish = p.view ++ bits ++ zeroPadding (p.position + bits.length)

/-- Two packers have taken the same bits since they were other ones. -/
def Alongside (p q p' q' : Packer) : Prop := ∃ bits, p.Extends bits p' ∧ q.Extends bits q'

theorem Holds.extends {p p' : Packer} {t : Tape} {bits : List Bool} (h : p.Holds t)
    (h' : p'.Holds (t ++ bits)) : p.Extends bits p' := by
  have position : p'.position = p.position + bits.length := by
    rw [h'.position,h.position,List.length_append]
  have view : p'.view = p.view ++ bits := by rw [h'.view,h.view]
  refine ⟨position,view,?_⟩
  rw [finish_bits h'.sound,view,position]
  rfl

end Packer

namespace Meter

/-- Two meters have counted the same number of bits since they were other ones. -/
def Alongside (m n m' n' : Meter) : Prop :=
  ∃ size, m'.position = m.position + size ∧ n'.position = n.position + size

theorem Level.gained {m m' : Meter} {t : Tape} {bits : List Bool} (h : m.Level t)
    (h' : m'.Level (t ++ bits)) : m'.position = m.position + bits.length := by
  rw [h'.position,h.position,List.length_append]

end Meter

namespace Record
variable {checks : Bool} {fields : List Field} {n : Nat}

theorem packers_alongside (free : Throughout Field.IsModeFree fields)
    (phased : Throughout (Field.IsPhased checks n) fields) (record : Record fields)
    (finished : Scope) {p q : Packer} (reached : p.Reached checks) (reached' : q.Reached checks)
    (same : p.position ≡ q.position [MOD n]) :
    (record.run (Packer.stream checks) finished p).Alike (p.Alongside q)
      (record.run (Packer.stream checks) finished q) := by
  obtain ⟨t,holds⟩ := reached.holds
  obtain ⟨u,holds'⟩ := reached'.holds
  rw [holds.position,holds'.position] at same
  have onTape := (record.run_alongside same finished phased (.refl t u)).toAlike
  have first := record.run_packer checks free finished holds
  have second := record.run_packer checks free finished holds'
  refine (first.between second onTape).mono ?_
  rintro p' q' ⟨_,_,after,after',bits,rfl,rfl⟩
  exact ⟨bits,holds.extends after,holds'.extends after'⟩

theorem meters_alongside (free : Throughout Field.IsModeFree fields)
    (phased : Throughout (Field.IsPhased checks n) fields) (record : Record fields)
    (finished : Scope) {m m' : Meter} (same : m.position ≡ m'.position [MOD n]) :
    (record.run (Meter.stream checks) finished m).Alike (m.Alongside m')
      (record.run (Meter.stream checks) finished m') := by
  obtain ⟨t,level⟩ := m.exists_level
  obtain ⟨u,level'⟩ := m'.exists_level
  rw [level.position,level'.position] at same
  have onTape := (record.run_alongside same finished phased (.refl t u)).toAlike
  have first := record.run_meter checks free finished level
  have second := record.run_meter checks free finished level'
  refine (first.between second onTape).mono ?_
  rintro s s' ⟨_,_,after,after',bits,rfl,rfl⟩
  exact ⟨bits.length,level.gained after,level'.gained after'⟩

/-- From any two packers at positions that are the same modulo 8, whatever they hold, a record is
sent alike: the runs end the same way and append the same bits behind those that are there, also
where they fail on the way. From two such meters both runs count as many bits. Where nothing is
aligned, not in nested objects either, all of this is so from any two positions. -/
theorem writing_phased (checks : Bool) (free : Throughout Field.IsModeFree fields)
    (record : Record fields) (finished : Scope) :
    (∀ p q, Packer.Reached checks p → Packer.Reached checks q →
      p.position ≡ q.position [MOD 8] →
      (record.run (Packer.stream checks) finished p).Alike (p.Alongside q)
        (record.run (Packer.stream checks) finished q)) ∧
    (∀ m m' : Meter, m.position ≡ m'.position [MOD 8] →
      (record.run (Meter.stream checks) finished m).Alike (m.Alongside m')
        (record.run (Meter.stream checks) finished m')) ∧
    (Throughout (Field.IsUnaligned checks) fields →
      (∀ p q, Packer.Reached checks p → Packer.Reached checks q →
        (record.run (Packer.stream checks) finished p).Alike (p.Alongside q)
          (record.run (Packer.stream checks) finished q)) ∧
      ∀ m m' : Meter, (record.run (Meter.stream checks) finished m).Alike (m.Alongside m')
        (record.run (Meter.stream checks) finished m')) := by
  have phased := throughout_all (Field.isPhased_eight checks) fields
  refine ⟨fun p q reached reached' same => ?_,fun m m' same => ?_,fun unaligned => ?_⟩
  · exact packers_alongside free phased record finished reached reached' same
  · exact meters_alongside free phased record finished same
  · have phased : Throughout (Field.IsPhased checks 1) fields :=
      unaligned.imp Field.IsUnaligned.isPhased
    refine ⟨fun p q reached reached' => ?_,fun m m' => ?_⟩
    · exact packers_alongside free phased record finished reached reached' Nat.modEq_one
    · exact meters_alongside free phased record finished Nat.modEq_one

/-- One packer holds three bits, the other eleven. The name in the message is aligned alike behind
both; a message without a name or a check is sent alike also behind none. -/
theorem writing_phased_shifted :
    let p := Packer.empty.push 5 3
    let q := Packer.empty.push 0x4d2 11
    let update := (Update.mk 7 3 88 true 0x40490fdb "Ada").toRecord
    let sized : Record sizedFields := .cons (.leaf (5 : UInt8)) <| .cons (.leaf (0x15 : UInt32)) <|
      .cons (.leaf true) .nil
    p.position ≡ q.position [MOD 8] ∧ Throughout (Field.IsUnaligned true) sizedFields ∧
    (update.run (Packer.stream true) .empty p).Alike (p.Alongside q)
      (update.run (Packer.stream true) .empty q) ∧
    (sized.run (Packer.stream true) .empty .empty).Alike (Packer.empty.Alongside q)
      (sized.run (Packer.stream true) .empty q) := by
  intro p q update sized
  have reached : Packer.Reached true ((Leaf.rawBits fun _ => 3).run (Packer.stream true) .empty
    (5 : UInt32) .empty).state := .call .empty _ .start
  have reached' : Packer.Reached true ((Leaf.rawBits fun _ => 11).run (Packer.stream true) .empty
    (0x4d2 : UInt32) .empty).state := .call .empty _ .start
  have same : p.position ≡ q.position [MOD 8] := by decide
  have unaligned : Throughout (Field.IsUnaligned true) sizedFields := ⟨id,id,id,trivial⟩
  have aligned := writing_phased true Update.fields_free update .empty
  have anywhere := writing_phased true sizedFields_free sized .empty
  exact ⟨same,unaligned,aligned.1 p q reached reached' same,
    (anywhere.2.2 unaligned).1 .empty q .start reached'⟩

end Record
end Bitwire
