import Bitwire.Proofs.RelativeCode

/-! The code of sequence numbers, which is that of their distance. A distance is less than a lap of
2^16, so the table always holds it; what lies a lap away or farther is read, and rejected when it is
folded back. -/
namespace Bitwire
namespace Relative
variable {first second : UInt16}

/-- The code of the distance from one sequence number on to another. -/
def sequenceCode (first second : UInt16) : List Bool :=
  code first.toNat (first.toNat + (second - first).toNat)

theorem distance_pos (apart : first ≠ second) : 1 ≤ (second - first).toNat := by
  have := first.toNat_lt
  have := second.toNat_lt
  have : first.toNat ≠ second.toNat := mt UInt16.toNat_inj.mp apart
  rw [UInt16.toNat_sub]
  omega

theorem distance_le (first second : UInt16) : (second - first).toNat ≤ 65535 :=
  Nat.le_of_lt_succ (second - first).toNat_lt

/-- A distance on from the first number is what lies between the two. -/
theorem distance_eq {distance : Nat} (small : distance ≤ 65535) :
    second = first + UInt16.ofNat distance ↔ (second - first).toNat = distance := by
  have := first.toNat_lt
  have := second.toNat_lt
  have number : (UInt16.ofNat distance).toNat = distance :=
    UInt16.toNat_ofNat_of_lt' (by simp only [UInt16.size]; omega)
  rw [← UInt16.toNat_inj,UInt16.toNat_add,UInt16.toNat_sub,number]
  omega

theorem unwrap_distance (apart : first ≠ second) :
    (unwrap first second).toNat = first.toNat + (second - first).toNat := by
  have := first.toNat_lt
  have := second.toNat_lt
  have : first.toNat ≠ second.toNat := mt UInt16.toNat_inj.mp apart
  rw [unwrap_toNat,UInt16.toNat_sub]
  simp only [UInt16.lt_iff_toNat_lt]
  split <;> omega

/-- No sequence number is sent in full. -/
theorem sequenceCode_place (apart : first ≠ second) (value : UInt32) :
    ¬Word rows (sequenceCode first second) (.number value) := by
  intro full
  have below := distance_le first second
  obtain ⟨row,offset,word,-⟩ := code_place (distance_pos apart) (Nat.le_trans below (by decide))
  cases (word.unique full List.prefix_rfl).2

theorem fold_far {found : UInt32} (far : first.toNat + 65535 < found.toNat) :
    fold first found = reject (.invalidData .sequenceLap) := by
  have same : first.toUInt32.toNat = first.toNat := UInt16.toNat_toUInt32 first
  have apart := sub_toNat (show first.toUInt32.toNat ≤ found.toNat by omega)
  have lap : (65535 : UInt32).toNat = 65535 := rfl
  rw [fold,if_neg (by rw [UInt32.lt_iff_toNat_lt]; omega),
    if_pos (by rw [UInt32.lt_iff_toNat_lt]; omega)]

theorem rows_near : ∀ row ∈ rows, row.high ≤ 69914 := by decide

/-- What becomes of a word behind a sequence number. -/
def Content.sequence (first : UInt16) (content : Content) : Outcome UInt16 :=
  content.answer first.toUInt32 >>= fold first

/-- A place in a line is never too far for 32 bits. -/
theorem place_sequence {bits : List Bool} {row : Row} {offset : Nat}
    (word : Word rows bits (.place row offset)) (within : row.low + offset ≤ row.high) :
    (Content.place row offset).sequence first =
      fold first (UInt32.ofNat (first.toNat + (row.low + offset))) := by
  have near := rows_near row word.member
  have := first.toNat_lt
  have same : first.toUInt32.toNat = first.toNat := UInt16.toNat_toUInt32 first
  rw [Content.sequence,Content.answer,if_neg (by omega),if_pos (by omega),same]
  rfl

theorem lap_sequence {bits : List Bool} {row : Row} {offset : Nat}
    (word : Word rows bits (.place row offset)) (within : row.low + offset ≤ row.high)
    (far : 65536 ≤ row.low + offset) :
    (Content.place row offset).sequence first = reject (.invalidData .sequenceLap) := by
  have near := rows_near row word.member
  have := first.toNat_lt
  rw [place_sequence word within]
  apply fold_far
  rw [UInt32.toNat_ofNat_of_lt' (by simp only [UInt32.size]; omega)]
  omega

theorem full_sequence (first : UInt16) (value : UInt32) :
    (Content.number value).sequence first =
      if first.toNat + 69914 < value.toNat then reject (.invalidData .sequenceLap)
      else reject (.invalidData .relativeOverlap) := by
  have same : first.toUInt32.toNat = first.toNat := UInt16.toNat_toUInt32 first
  rw [Content.sequence,Content.answer,same]
  by_cases far : first.toNat + 69914 < value.toNat
  · rw [if_pos far,if_pos far]
    exact fold_far (by omega)
  · rw [if_neg far,if_neg far]
    rfl

theorem fold_ne_overflow (first : UInt16) (found : UInt32) :
    fold first found ≠ reject (.invalidData .relativeOverflow) := by
  rw [fold]
  intro same
  split at same
  · cases same
  · split at same <;> cases same

theorem Word.sequence_ne_overflow {bits : List Bool} {content : Content}
    (word : Word rows bits content) (first : UInt16) :
    content.sequence first ≠ reject (.invalidData .relativeOverflow) := by
  cases content with
  | place row offset =>
    by_cases within : row.low + offset ≤ row.high
    · rw [place_sequence word within]
      exact fold_ne_overflow first _
    · rw [Content.sequence,Content.answer,if_pos (by omega)]
      intro same
      cases same
  | number value =>
    rw [full_sequence]
    intro same
    split at same <;> cases same

/-- What a reader makes of the bits ahead where it expects a sequence number after another. -/
structure DecodesSequence (first kept : UInt16) (ahead : List Bool) (position : Nat)
    (seen : Seen UInt16) : Prop where
  accepts : ∀ found stop, seen = ⟨found,.ok (),stop⟩ ↔ ∃ distance, 1 ≤ distance ∧
    distance ≤ 65535 ∧ code first.toNat (first.toNat + distance) <+: ahead ∧
    found = first + UInt16.ofNat distance ∧
    stop = position + (code first.toNat (first.toNat + distance)).length
  restores : ∀ second, first ≠ second → sequenceCode first second <+: ahead →
    seen = ⟨second,.ok (),position + (sequenceCode first second).length⟩
  differs : seen.result = .ok () → seen.value ≠ first
  keeps : seen.result ≠ .ok () → seen.value = kept
  laps : ∀ bits row offset, Word rows bits (.place row offset) → bits <+: ahead →
    row.low + offset ≤ row.high → 65536 ≤ row.low + offset →
    seen.result.IsInvalid "sequence number" "value out of range"
  leaps : ∀ bits value, Word rows bits (.number value) → bits <+: ahead →
    first.toNat + 69914 < value.toNat →
    seen.result.IsInvalid "sequence number" "value out of range"
  overlaps : ∀ bits value, Word rows bits (.number value) → bits <+: ahead →
    value.toNat ≤ first.toNat + 69914 →
    seen.result.IsInvalid "relative integer" "raw value within relative range"
  fits : ¬seen.result.IsInvalid "relative integer" "value overflows"

end Relative

theorem Wire.sequenceRelative_code {first second : UInt16} (apart : first ≠ second) :
    sequenceRelative first second = Relative.sequenceCode first second := by
  have same : first.toUInt32.toNat = first.toNat := UInt16.toNat_toUInt32 first
  rw [sequenceRelative,relative_code (Relative.lt_unwrap.mpr apart),
    Relative.unwrap_distance apart,same]
  rfl

/-- The text belongs to one anomaly only. -/
theorem Outcome.IsInvalid.overflow {α : Type} {answer : Outcome α}
    (invalid : answer.IsInvalid "relative integer" "value overflows") :
    answer = reject (.invalidData .relativeOverflow) := by
  obtain ⟨anomaly,same,-,message⟩ := invalid
  cases anomaly with
  | relativeOverflow => exact same
  | wideBits | relativeOverlap | sequenceLap => exact absurd message (by decide)

namespace Cursor
variable (checks : Bool) {c : Cursor}

theorem sequence_word {bits : List Bool} {content : Relative.Content}
    (word : Relative.Word Relative.rows bits content) (front : bits <+: c.rest)
    (room : c.position + 38 < 2^64) (first kept : UInt16) :
    Directive.sequenceRelative (stream checks) first kept c =
      Step.given (content.sequence first) kept (c.skip bits.length) fun found =>
        .done found (c.skip bits.length) := by
  rw [sequenceRelative_eq,relative_word checks first.toUInt32 0 word (sees_word word front room),
    Relative.Content.sequence]
  cases content.answer first.toUInt32 with
  | ok found => rfl
  | error failure => rfl

theorem sequence_cut {bits : List Bool} {content : Relative.Content}
    (word : Relative.Word Relative.rows bits content) (inside : c.rest <+: bits)
    (short : c.rest ≠ bits) (room : c.position + 38 < 2^64) (first kept : UInt16) :
    ∃ d, Directive.sequenceRelative (stream checks) first kept c =
      .fail kept d (.error .endOfBuffer) := by
  obtain ⟨d,run⟩ := relative_cut checks first.toUInt32 0 (word.none_of_cut inside short) room
  refine ⟨d,?_⟩
  rw [sequenceRelative_eq,run]
  rfl

theorem sequence_refused {bits : List Bool} {content : Relative.Content}
    (word : Relative.Word Relative.rows bits content) (front : bits <+: c.rest)
    (room : c.position + 38 < 2^64) {first : UInt16} {failure : Failure}
    (refused : content.sequence first = .error failure) (kept : UInt16) :
    Directive.sequenceRelative (stream checks) first kept c =
      .fail kept (c.skip bits.length) failure := by
  rw [sequence_word checks word front room,refused]
  rfl

/-- The reader takes the codes of sequence numbers other than the first. -/
theorem sequence_seen (first kept : UInt16) (room : c.position + 38 < 2^64) {found : UInt16}
    {stop : Nat} :
    (stream checks).seen (Directive.sequenceRelative (stream checks) first kept c) =
        ⟨found,.ok (),stop⟩ ↔
      first ≠ found ∧ Relative.sequenceCode first found <+: c.rest ∧
        stop = c.position + (Relative.sequenceCode first found).length := by
  have length : ∀ value, first ≠ value →
      c.position + (Wire.sequenceRelative first value).length < 2^64 := by
    intro value apart
    rw [Wire.sequenceRelative_code apart]
    exact Nat.lt_of_le_of_lt (Nat.add_le_add_left (Relative.code_length_le _ _) _) room
  rw [(sequenceRelative_reads checks first kept).seen_iff length (by omega)]
  refine and_congr_right fun apart => ?_
  rw [Wire.sequenceRelative_code apart]

theorem sequence_decodes (c : Cursor) (first kept : UInt16) (room : c.position + 38 < 2^64) :
    Relative.DecodesSequence first kept c.rest c.position
      ((stream checks).seen (Directive.sequenceRelative (stream checks) first kept c)) where
  accepts found stop := by
    rw [sequence_seen checks first kept room]
    constructor
    · rintro ⟨apart,front,rfl⟩
      exact ⟨_,Relative.distance_pos apart,Relative.distance_le first found,front,
        (Relative.distance_eq (Relative.distance_le first found)).mpr rfl,rfl⟩
    · rintro ⟨distance,some,below,front,number,rfl⟩
      have between := (Relative.distance_eq below).mp number
      -- A full lap would bring the first number back, but that is no distance here.
      have apart : first ≠ found := by
        rintro rfl
        rw [UInt16.sub_self] at between
        exact absurd between (Nat.ne_of_lt some)
      rw [Relative.sequenceCode,between]
      exact ⟨apart,front,rfl⟩
  restores second apart front := (sequence_seen checks first kept room).mpr ⟨apart,front,rfl⟩
  differs success same := by
    have seen := (sequence_seen checks first kept room).mp (Seen.ext rfl success rfl)
    exact seen.1 same.symm
  keeps failed := by
    rcases Relative.Word.complete c.rest with ⟨bits,content,word,front⟩ | ⟨bits,content,word,cut⟩
    · rw [sequence_word checks word front room] at failed ⊢
      exact Step.kept_of_given failed
    · obtain ⟨d,run⟩ := sequence_cut checks word cut.1 cut.2 room first kept
      rw [run]
      rfl
  laps bits row offset word front within far := by
    refine ⟨.sequenceLap,?_,rfl,rfl⟩
    rw [sequence_refused checks word front room (Relative.lap_sequence word within far)]
    rfl
  leaps bits value word front far := by
    refine ⟨.sequenceLap,?_,rfl,rfl⟩
    rw [sequence_refused checks word front room
      ((Relative.full_sequence first value).trans (if_pos far))]
    rfl
  overlaps bits value word front near := by
    refine ⟨.relativeOverlap,?_,rfl,rfl⟩
    rw [sequence_refused checks word front room
      ((Relative.full_sequence first value).trans (if_neg (Nat.not_lt.mpr near)))]
    rfl
  fits invalid := by
    have overflow := invalid.overflow
    rcases Relative.Word.complete c.rest with ⟨bits,content,word,front⟩ | ⟨bits,content,word,cut⟩
    · have fits := word.sequence_ne_overflow first
      rw [sequence_word checks word front room] at overflow
      cases answer : content.sequence first with
      | error failure =>
        rw [answer] at overflow fits
        cases overflow
        exact fits rfl
      | ok found =>
        rw [answer] at overflow
        cases overflow
    · obtain ⟨d,run⟩ := sequence_cut checks word cut.1 cut.2 room first kept
      rw [run] at overflow
      cases overflow

end Cursor

/-- A writer at any position sends a sequence number other than the first in the code of their
distance, which is never the code of a number in full. A reader at any position whose counter has
room for the longest word takes the codes of all distances of less than a lap and nothing else, and
hands back the number that is so far on; it says what is wrong with a distance of a lap or more, and
leaves the variable as it was when it fails. -/
theorem sequence_coded (checks : Bool) :
    (∀ p, Packer.Reached checks p → ∀ first second : UInt16, first ≠ second →
      p.Appends second (Relative.sequenceCode first second)
        (Directive.sequenceRelative (Packer.stream checks) first second p) ∧
      ∀ value, ¬Relative.Word Relative.rows (Relative.sequenceCode first second) (.number value)) ∧
    (∀ bytes r, Reader.Reached checks bytes r → r.input.position + 38 < 2^64 →
      ∀ first kept : UInt16, Relative.DecodesSequence first kept
        ((bitsOfBytes bytes).drop r.input.position) r.input.position
        ((Reader.stream checks).seen
          (Directive.sequenceRelative (Reader.stream checks) first kept r))) := by
  constructor
  · intro p reached first second apart
    obtain ⟨t,holds⟩ := reached.holds
    have alike := ((Packer.stream_holds checks).follows.sequenceRelative holds first second).toAlike
    rw [← Wire.sequenceRelative_code apart]
    refine ⟨holds.appends (Tape.sequenceRelative_sends checks t first second) alike apart,?_⟩
    rw [Wire.sequenceRelative_code apart]
    exact Relative.sequenceCode_place apart
  · intro bytes r reached room first kept
    have alike := ((Reader.stream_at checks).follows.sequenceRelative reached.at first kept).toAlike
    rw [(Reader.stream_at checks).seen_eq alike]
    exact Cursor.sequence_decodes checks ⟨bitsOfBytes bytes,r.input.position⟩ first kept room

/-- From 65535 it is one step to 0, and two steps to 1. -/
theorem sequence_coded_wrapped :
    Packer.empty.Appends 0 [true]
      (Directive.sequenceRelative (Packer.stream true) 65535 0 .empty) ∧
    (Reader.stream true).seen
        (Directive.sequenceRelative (Reader.stream true) 65535 7 (.ofBytes [0x02])) =
      ⟨1,.ok (),5⟩ := by
  have written := ((sequence_coded true).1 .empty .start 65535 0 (by decide)).1
  have read := (sequence_coded true).2 [0x02] (.ofBytes [0x02]) .start (by decide) 65535 7
  exact ⟨written,read.restores 1 (by decide) (by decide)⟩

end Bitwire
