import Bitwire.Proofs.Patterns

/-! The code of relative numbers. Its words are a table: flags that skip the lines above, a set flag
for the line taken, and the place in that line; six skipped lines leave the number itself. Every
input has one word in front or ends inside of one, and what a reader makes of it is read off the
word: the writer chooses by the number, the reader by the flags, and the two meet in the code of
the number read. -/
namespace Bitwire
namespace Relative

/-- A line of the table: the differences it is for, and the bits that tell them apart. -/
structure Row where
  low : Nat
  high : Nat
  width : Nat
  deriving DecidableEq

def rows : List Row :=
  [⟨1,1,0⟩,⟨2,6,3⟩,⟨7,23,5⟩,⟨24,280,9⟩,⟨281,4377,13⟩,⟨4378,69914,17⟩]

/-- A flag for each line up to the one that holds the difference, then the place in it. -/
def codeIn (difference current : Nat) : List Row → List Bool
  | [] => bitsOf 32 current
  | row::rest =>
      if row.low ≤ difference ∧ difference ≤ row.high
        then true::bitsOf row.width (difference - row.low)
        else false::codeIn difference current rest

/-- The code of a number after a smaller one. -/
def code (previous current : Nat) : List Bool := codeIn (current - previous) current rows

/-- What a word says: a place in a line, which may lie behind its last difference, or a number. -/
inductive Content where
  | place (row : Row) (offset : Nat)
  | number (value : UInt32)

/-- The words that flags and bits can spell, whether a writer sends them or not. -/
inductive Word : List Row → List Bool → Content → Prop
  | taken {row : Row} {rest : List Row} {offset : Nat} (small : offset < 2^row.width) :
      Word (row::rest) (true::bitsOf row.width offset) (.place row offset)
  | skipped {row : Row} {rest : List Row} {bits : List Bool} {content : Content} :
      Word rest bits content → Word (row::rest) (false::bits) content
  | full (value : UInt32) : Word [] (bitsOf 32 value.toNat) (.number value)

/-- What becomes of a word behind a number. -/
def Content.answer (previous : UInt32) : Content → Outcome UInt32
  | place row offset =>
      if row.high < row.low + offset then
        reject (.outOfRange (row.low + offset : Nat) row.low row.high)
      else if previous.toNat + (row.low + offset) < 2^32 then
        .ok (UInt32.ofNat (previous.toNat + (row.low + offset)))
      else reject (.invalidData .relativeOverflow)
  | number value =>
      if previous.toNat + 69914 < value.toNat then .ok value
      else reject (.invalidData .relativeOverlap)

theorem Word.number {value : Nat} (small : value < 2^32) :
    Word [] (bitsOf 32 value) (.number (UInt32.ofNat value)) := by
  have full := Word.full (UInt32.ofNat value)
  rwa [UInt32.toNat_ofNat_of_lt' small] at full

/-- An input without a word in front ends inside of one. -/
theorem Word.cut {rows : List Row} {ahead : List Bool}
    (none : ∀ bits content, Word rows bits content → ¬bits <+: ahead) :
    ∃ bits content, Word rows bits content ∧ ahead <+: bits := by
  induction rows generalizing ahead with
  | nil =>
    have short := length_lt_of_none fun offset small => none _ _ (.number small)
    obtain ⟨offset,small,inside⟩ := exists_completion short.le
    exact ⟨_,_,.number small,inside⟩
  | cons row rest ih =>
    cases ahead with
    | nil => exact ⟨_,_,.taken (Nat.two_pow_pos row.width),List.nil_prefix⟩
    | cons flag more =>
      cases flag with
      | false =>
        obtain ⟨bits,content,word,inside⟩ := ih fun bits content word front =>
          none _ _ (.skipped word) (List.cons_prefix_cons.mpr ⟨rfl,front⟩)
        exact ⟨_,_,.skipped word,List.cons_prefix_cons.mpr ⟨rfl,inside⟩⟩
      | true =>
        have short := length_lt_of_none fun offset small front =>
          none _ _ (.taken small) (List.cons_prefix_cons.mpr ⟨rfl,front⟩)
        obtain ⟨offset,small,inside⟩ := exists_completion short.le
        exact ⟨_,_,.taken small,List.cons_prefix_cons.mpr ⟨rfl,inside⟩⟩

/-- Every input has a word in front or breaks off inside of one. -/
theorem Word.complete {rows : List Row} (ahead : List Bool) :
    (∃ bits content, Word rows bits content ∧ bits <+: ahead) ∨
      ∃ bits content, Word rows bits content ∧ ahead <+: bits ∧ ahead ≠ bits := by
  by_cases front : ∃ bits content, Word rows bits content ∧ bits <+: ahead
  · exact .inl front
  · have none : ∀ bits content, Word rows bits content → ¬bits <+: ahead :=
      fun bits content word ahead => front ⟨bits,content,word,ahead⟩
    obtain ⟨bits,content,word,inside⟩ := cut none
    exact .inr ⟨bits,content,word,inside,fun same => none _ _ word (same ▸ List.prefix_rfl)⟩

/-- No word begins another, and none has two meanings. -/
theorem Word.unique {rows : List Row} {bits bits' : List Bool} {content content' : Content}
    (word : Word rows bits content) (other : Word rows bits' content') (front : bits <+: bits') :
    bits = bits' ∧ content = content' := by
  induction word generalizing bits' with
  | @taken row rest offset small =>
    cases other with
    | @taken _ _ offset' small' =>
      have same := (List.cons_prefix_cons.mp front).2.eq_of_length (by simp)
      rw [bitsOf_inj small small' same]
      exact ⟨rfl,rfl⟩
    | skipped => cases (List.cons_prefix_cons.mp front).1
  | skipped _ ih =>
    cases other with
    | taken => cases (List.cons_prefix_cons.mp front).1
    | skipped other =>
      obtain ⟨rfl,rfl⟩ := ih other (List.cons_prefix_cons.mp front).2
      exact ⟨rfl,rfl⟩
  | full value =>
    cases other with | full value' =>
    have same := front.eq_of_length (by simp)
    rw [UInt32.toNat_inj.mp (bitsOf_inj value.toNat_lt value'.toNat_lt same)]
    exact ⟨rfl,rfl⟩

/-- An input that breaks off inside of a word has none in front. -/
theorem Word.none_of_cut {rows : List Row} {ahead bits : List Bool} {content : Content}
    (word : Word rows bits content) (inside : ahead <+: bits) (short : ahead ≠ bits)
    (bits' : List Bool) (content' : Content) (other : Word rows bits' content') :
    ¬bits' <+: ahead := by
  intro front
  obtain ⟨rfl,-⟩ := other.unique word (front.trans inside)
  exact short (inside.eq_of_length_le front.length_le)

/-- A difference is sent in the line that holds it. -/
theorem codeIn_place {rows : List Row} (wide : ∀ row ∈ rows, row.high < row.low + 2^row.width)
    {difference : Nat} (current : Nat)
    (held : ∃ row ∈ rows, row.low ≤ difference ∧ difference ≤ row.high) :
    ∃ row offset, Word rows (codeIn difference current rows) (.place row offset) ∧
      row.low + offset = difference ∧ difference ≤ row.high := by
  induction rows with
  | nil =>
    obtain ⟨row,member,-⟩ := held
    exact absurd member List.not_mem_nil
  | cons row rest ih =>
    have fits := wide row List.mem_cons_self
    by_cases here : row.low ≤ difference ∧ difference ≤ row.high
    · rw [codeIn,if_pos here]
      exact ⟨row,_,.taken (by omega),by omega,here.2⟩
    · -- Then the line that holds the difference is one further down.
      obtain ⟨other,member,holds⟩ := held
      rcases List.mem_cons.mp member with rfl | member
      · exact absurd holds here
      · obtain ⟨other,offset,word,same,below⟩ :=
          ih (fun row member => wide row (List.mem_cons_of_mem _ member)) ⟨other,member,holds⟩
        rw [codeIn,if_neg here]
        exact ⟨other,offset,.skipped word,same,below⟩

theorem code_place {previous difference : Nat} (some : 1 ≤ difference) (near : difference ≤ 69914) :
    ∃ row offset, Word rows (code previous (previous + difference)) (.place row offset) ∧
      row.low + offset = difference ∧ difference ≤ row.high := by
  rw [code,Nat.add_sub_cancel_left]
  refine codeIn_place (by decide) _ ?_
  simp only [rows,List.mem_cons,List.not_mem_nil,or_false,exists_eq_or_imp,exists_eq_left]
  omega

theorem Word.member {rows : List Row} {bits : List Bool} {row : Row} {offset : Nat}
    (word : Word rows bits (.place row offset)) : row ∈ rows := by
  generalize same : Content.place row offset = content at word
  induction word with
  | taken =>
    cases same
    exact List.mem_cons_self
  | skipped _ ih => exact List.mem_cons_of_mem _ (ih same)
  | full => cases same

theorem Word.length_le {rows : List Row} (narrow : ∀ row ∈ rows, row.width ≤ 32) {bits : List Bool}
    {content : Content} (word : Word rows bits content) : bits.length ≤ rows.length + 32 := by
  induction word with
  | @taken row rest offset small =>
    have := narrow row List.mem_cons_self
    rw [List.length_cons,List.length_cons,bitsOf_length]
    omega
  | skipped _ ih =>
    have := ih fun row member => narrow row (List.mem_cons_of_mem _ member)
    rw [List.length_cons,List.length_cons]
    omega
  | full value => rw [bitsOf_length]; exact Nat.le_add_left _ _

theorem codeIn_length_le {rows : List Row} (narrow : ∀ row ∈ rows, row.width ≤ 32)
    (difference current : Nat) : (codeIn difference current rows).length ≤ rows.length + 32 := by
  induction rows with
  | nil => exact (bitsOf_length 32 current).le
  | cons row rest ih =>
    have := narrow row List.mem_cons_self
    have := ih fun row member => narrow row (List.mem_cons_of_mem _ member)
    rw [codeIn,List.length_cons]
    split
    · rw [List.length_cons,bitsOf_length]
      omega
    · rw [List.length_cons]
      omega

theorem advance_ofNat (previous : UInt32) {difference : Nat} (small : difference < 2^32) :
    advance previous (UInt32.ofNat difference) =
      if previous.toNat + difference < 2^32 then .ok (UInt32.ofNat (previous.toNat + difference))
      else reject (.invalidData .relativeOverflow) := by
  have number : (UInt32.ofNat difference).toNat = difference := UInt32.toNat_ofNat_of_lt' small
  have sum : previous + UInt32.ofNat difference = UInt32.ofNat (previous.toNat + difference) := by
    rw [UInt32.ofNat_add,UInt32.ofNat_toNat]
  rw [advance,number,sum]
  rfl

end Relative

/-- The line of the table for a bucket. -/
def Bucket.row (b : Bucket) : Relative.Row :=
  ⟨b.min.toNatClampNeg,b.max.toNatClampNeg,bitsRequired b.min b.max⟩

theorem Relative.rows_eq : rows = ⟨1,1,0⟩::buckets.map Bucket.row := by decide

/-- A place in a bucket's range is a difference, unless it lies behind the last. -/
theorem Bucket.accept_place {b : Bucket} (proper : b.min < b.max) {low : Nat}
    (start : b.min.toInt = low) (offset : Nat) :
    ((Range.mk b.min b.max proper).accept (b.min.toInt + offset) : Outcome UInt32) =
      if b.row.high < b.row.low + offset then
        reject (.outOfRange (b.row.low + offset : Nat) b.row.low b.row.high)
      else .ok (UInt32.ofNat (b.row.low + offset)) := by
  have ordered := Int32.lt_iff_toInt_lt.mp proper
  have := b.max.toInt_lt
  have bottom : (b.row.low : Int) = b.min.toInt := by
    rw [start]
    exact congrArg (Nat.cast ∘ Int.toNat) start
  have top : (b.row.high : Int) = b.max.toInt := Int.toNat_of_nonneg (by omega)
  have sum : b.min.toInt + offset = ((b.row.low + offset : Nat) : Int) := by omega
  have inside : (Range.mk b.min b.max proper).contains (b.row.low + offset : Nat) = true ↔
      ¬b.row.high < b.row.low + offset := by
    rw [Range.contains_iff]
    dsimp only
    omega
  rw [sum]
  by_cases above : b.row.high < b.row.low + offset
  · rw [if_pos above,Range.accept,if_neg fun held => inside.mp held above,Range.exceeded,bottom,top]
  · have stored : IntTarget.toInt (UInt32.ofNat (b.row.low + offset)) =
        (b.row.low + offset : Nat) :=
      congrArg Nat.cast (UInt32.toNat_ofNat_of_lt' (by simp only [UInt32.size]; omega))
    rw [if_neg above]
    exact Range.accept_eq_ok.mpr ⟨inside.mpr above,stored⟩

namespace Wire

theorem bucketed_eq {low : Nat} {buckets : List Bucket} (contiguous : Bucket.Contiguous low buckets)
    (current difference : UInt32) (above : low ≤ difference.toNat) :
    bucketed current difference buckets =
      Relative.codeIn difference.toNat current.toNat (buckets.map Bucket.row) := by
  induction buckets generalizing low with
  | nil => rfl
  | cons b rest ih =>
    obtain ⟨proper,start,contiguous⟩ := contiguous
    have bottom : b.row.low = b.min.toInt.toNat := rfl
    have held : (b.row.low ≤ difference.toNat ∧ difference.toNat ≤ b.row.high) ↔
        difference.toNat ≤ b.max.toNatClampNeg := by
      have top : b.row.high = b.max.toNatClampNeg := rfl
      omega
    rw [bucketed,List.map_cons,Relative.codeIn]
    simp only [held]
    split
    · have place : (difference.toNat - b.min.toInt).toNat = difference.toNat - b.row.low := by omega
      rw [integer,place]
      rfl
    · rw [ih contiguous (by omega)]

theorem relative_code {previous current : UInt32} (above : previous < current) :
    relative previous current = Relative.code previous.toNat current.toNat := by
  have more := UInt32.lt_iff_toNat_lt.mp above
  have apart := Relative.sub_toNat (show previous.toNat ≤ current.toNat by omega)
  rw [relative,Relative.code,Relative.rows_eq,Relative.codeIn]
  by_cases next : current.toNat = previous.toNat + 1
  · rw [if_pos ((Relative.sub_eq_one above).mpr next),if_pos (by dsimp only; omega)]
    rfl
  · rw [if_neg (mt (Relative.sub_eq_one above).mp next),if_neg (by dsimp only; omega),
      bucketed_eq Relative.buckets_contiguous _ _ (by omega),apart]

end Wire

namespace Cursor
variable {c : Cursor} (checks : Bool)

/-- A word of the buckets is answered as it says. -/
theorem bucketed_word (previous kept difference : UInt32) {low : Nat} {buckets : List Bucket}
    (contiguous : Bucket.Contiguous low buckets) {bits : List Bool} {content : Relative.Content}
    (word : Relative.Word (buckets.map Bucket.row) bits content) (sees : c.Sees bits) :
    Directive.bucketed (stream checks) previous kept difference buckets c =
      Step.given (content.answer previous) kept (c.skip bits.length) fun found =>
        .done found (c.skip bits.length) := by
  induction buckets generalizing c bits low with
  | nil =>
    cases word with | full value =>
    rw [Directive.bucketed,(u32_reads checks kept).accepts value trivial sees,Step.andThen_done]
    rfl
  | cons b rest ih =>
    obtain ⟨proper,start,contiguous⟩ := contiguous
    cases word with
    | @taken _ _ offset small =>
      obtain ⟨flag,place⟩ := sees.tail
      have number := int_pattern checks proper small place difference
      have length : (true::bitsOf b.row.width offset).length = 1 + bitsRequired b.min b.max := by
        rw [List.length_cons,bitsOf_length,Nat.add_comm]
        rfl
      have stop : (c.skip 1).skip (bitsRequired b.min b.max) =
          c.skip (true::bitsOf b.row.width offset).length := by
        rw [skip_skip,length]
      rw [Bucket.accept_place proper start offset,stop] at number
      rw [Directive.bucketed,bool_sees flag,Step.andThen_done,if_pos rfl,number,
        Relative.Content.answer]
      -- The width has patterns behind the last difference, which the range does not hold.
      by_cases above : b.row.high < b.row.low + offset
      · rw [if_pos above,if_pos above]
        rfl
      · have := b.max.toNatClampNeg_lt
        have top : b.row.high = b.max.toNatClampNeg := rfl
        rw [if_neg above,if_neg above,Step.given_ok,Step.andThen_done,
          Relative.advance_ofNat previous (by omega)]
        rfl
    | @skipped _ _ bits _ word =>
      obtain ⟨flag,rest⟩ := sees.tail
      rw [Directive.bucketed,bool_sees flag,Step.andThen_done,if_neg Bool.false_ne_true,
        ih contiguous word rest,skip_skip,List.length_cons,Nat.add_comm]

/-- The input ends inside of a word of the buckets. -/
theorem bucketed_cut (previous kept difference : UInt32) {low : Nat} {buckets : List Bucket}
    (contiguous : Bucket.Contiguous low buckets)
    (none : ∀ bits content, Relative.Word (buckets.map Bucket.row) bits content → ¬bits <+: c.rest)
    (room : c.position + buckets.length + 32 < 2^64) :
    ∃ d, Directive.bucketed (stream checks) previous kept difference buckets c =
      .fail kept d (.error .endOfBuffer) := by
  induction buckets generalizing c low with
  | nil =>
    have short := length_lt_of_none fun offset small => none _ _ (.number small)
    refine ⟨c,?_⟩
    rw [Directive.bucketed,Directive.u32,bits_short (by decide) short (by omega)]
    rfl
  | cons b rest ih =>
    obtain ⟨proper,start,contiguous⟩ := contiguous
    have few : bitsRequired b.min b.max ≤ 32 := (Range.mk b.min b.max proper).bits_le
    rw [List.length_cons] at room
    rw [Directive.bucketed]
    cases ahead : c.rest with
    | nil =>
      refine ⟨c,?_⟩
      rw [bool_empty ahead (by omega)]
      rfl
    | cons flag more =>
      obtain ⟨sees,later⟩ := sees_cons ahead (by omega)
      rw [ahead] at none
      rw [bool_sees sees,Step.andThen_done]
      cases flag with
      | true =>
        have short : (c.skip 1).rest.length < bitsRequired b.min b.max :=
          length_lt_of_none fun offset small front =>
            none _ _ (.taken small) (List.cons_prefix_cons.mpr ⟨rfl,later ▸ front⟩)
        refine ⟨c.skip 1,?_⟩
        rw [if_pos rfl,int_short proper short (by rw [skip_position]; omega)]
        rfl
      | false =>
        rw [if_neg Bool.false_ne_true]
        refine ih contiguous (fun bits content word front => ?_) (by rw [skip_position]; omega)
        exact none _ _ (.skipped word) (List.cons_prefix_cons.mpr ⟨rfl,later ▸ front⟩)

/-- A word of the table is answered as it says. -/
theorem relative_word (previous kept : UInt32) {bits : List Bool} {content : Relative.Content}
    (word : Relative.Word Relative.rows bits content) (sees : c.Sees bits) :
    Directive.relative (stream checks) previous kept c =
      Step.given (content.answer previous) kept (c.skip bits.length) fun found =>
        .done found (c.skip bits.length) := by
  rw [Relative.rows_eq] at word
  rw [relative_eq]
  cases word with
  | @taken _ _ offset small =>
    obtain rfl : offset = 0 := Nat.lt_one_iff.mp small
    rw [bool_sees sees,Step.andThen_done,if_pos rfl]
    exact congrArg (fun answer => Step.given answer kept (c.skip 1) fun found =>
      Step.done found (c.skip 1)) (Relative.advance_ofNat previous (by decide))
  | @skipped _ _ bits _ word =>
    -- The rows behind the difference 1 are those of the buckets.
    obtain ⟨flag,rest⟩ := sees.tail
    rw [bool_sees flag,Step.andThen_done,if_neg Bool.false_ne_true,
      bucketed_word checks previous kept 0 Relative.buckets_contiguous word rest,skip_skip,
      List.length_cons,Nat.add_comm]

theorem relative_cut (previous kept : UInt32)
    (none : ∀ bits content, Relative.Word Relative.rows bits content → ¬bits <+: c.rest)
    (room : c.position + 38 < 2^64) :
    ∃ d, Directive.relative (stream checks) previous kept c =
      .fail kept d (.error .endOfBuffer) := by
  rw [Relative.rows_eq] at none
  rw [relative_eq]
  cases ahead : c.rest with
  | nil =>
    refine ⟨c,?_⟩
    rw [bool_empty ahead (by omega)]
    rfl
  | cons flag more =>
    obtain ⟨sees,later⟩ := sees_cons ahead (by omega)
    rw [ahead] at none
    cases flag with
    | true =>
      exact absurd (List.cons_prefix_cons.mpr ⟨rfl,List.nil_prefix⟩)
        (none _ _ (.taken Nat.zero_lt_one))
    | false =>
      rw [bool_sees sees,Step.andThen_done,if_neg Bool.false_ne_true]
      refine bucketed_cut checks previous kept 0 Relative.buckets_contiguous
        (fun bits content word front => ?_) ?_
      · exact none _ _ (.skipped word) (List.cons_prefix_cons.mpr ⟨rfl,later ▸ front⟩)
      · have : Relative.buckets.length = 5 := rfl
        rw [skip_position]
        omega

end Cursor

/-- Rejected as invalid data, with the words that say where and why. -/
def Outcome.IsInvalid {α : Type} (context message : String) (answer : Outcome α) : Prop :=
  ∃ anomaly, answer = reject (.invalidData anomaly) ∧
    anomaly.context = context ∧ anomaly.message = message

/-- What a reader makes of the bits ahead where it expects a number after a smaller one. -/
structure Relative.Decodes (previous kept : UInt32) (ahead : List Bool) (position : Nat)
    (seen : Seen UInt32) : Prop where
  accepts : ∀ found stop, seen = ⟨found,.ok (),stop⟩ ↔
    previous < found ∧ code previous.toNat found.toNat <+: ahead ∧
      stop = position + (code previous.toNat found.toNat).length
  keeps : seen.result ≠ .ok () → seen.value = kept
  exceeds : ∀ bits row offset, Word rows bits (.place row offset) → bits <+: ahead →
    row.high < row.low + offset →
    seen.result = reject (.outOfRange (row.low + offset : Nat) row.low row.high)
  overflows : ∀ bits row offset, Word rows bits (.place row offset) → bits <+: ahead →
    row.low + offset ≤ row.high → 2^32 ≤ previous.toNat + (row.low + offset) →
    seen.result.IsInvalid "relative integer" "value overflows"
  overlaps : ∀ bits value, Word rows bits (.number value) → bits <+: ahead →
    value.toNat ≤ previous.toNat + 69914 →
    seen.result.IsInvalid "relative integer" "raw value within relative range"
  cut : ∀ bits content, Word rows bits content → ahead <+: bits → ahead ≠ bits →
    seen.result = reject .endOfBuffer
  complete : (∃ bits content, Word rows bits content ∧ bits <+: ahead) ∨
    ∃ bits content, Word rows bits content ∧ ahead <+: bits ∧ ahead ≠ bits

theorem Relative.rows_narrow : ∀ row ∈ rows, row.width ≤ 32 := by decide

theorem Relative.code_length_le (previous current : Nat) : (code previous current).length ≤ 38 :=
  codeIn_length_le rows_narrow _ _

namespace Cursor
variable {c : Cursor} (checks : Bool)

/-- The counter has room for every word. -/
theorem sees_word {bits : List Bool} {content : Relative.Content}
    (word : Relative.Word Relative.rows bits content) (front : bits <+: c.rest)
    (room : c.position + 38 < 2^64) : c.Sees bits :=
  ⟨front,Nat.lt_of_le_of_lt (Nat.add_le_add_left (word.length_le Relative.rows_narrow) _) room⟩

theorem relative_refused {previous : UInt32} {bits : List Bool} {content : Relative.Content}
    (word : Relative.Word Relative.rows bits content) (front : bits <+: c.rest)
    (room : c.position + 38 < 2^64) {failure : Failure}
    (refused : content.answer previous = .error failure) (kept : UInt32) :
    Directive.relative (stream checks) previous kept c =
      .fail kept (c.skip bits.length) failure := by
  rw [relative_word checks previous kept word (sees_word word front room),refused]
  rfl

theorem relative_decodes (c : Cursor) (previous kept : UInt32) (room : c.position + 38 < 2^64) :
    Relative.Decodes previous kept c.rest c.position
      ((stream checks).seen (Directive.relative (stream checks) previous kept c)) where
  accepts found stop := by
    have form : ∀ value, previous < value →
        Wire.relative previous value = Relative.code previous.toNat value.toNat :=
      fun _ => Wire.relative_code
    have length : ∀ value, previous < value →
        c.position + (Wire.relative previous value).length < 2^64 := by
      intro value above
      rw [form value above]
      exact Nat.lt_of_le_of_lt (Nat.add_le_add_left (Relative.code_length_le _ _) _) room
    rw [(relative_reads checks previous kept).seen_iff length (by omega)]
    refine and_congr_right fun above => ?_
    rw [form found above]
  keeps failed := by
    rcases Relative.Word.complete c.rest with ⟨bits,content,word,front⟩ | ⟨bits,content,word,cut⟩
    · rw [relative_word checks previous kept word (sees_word word front room)] at failed ⊢
      exact Step.kept_of_given failed
    · obtain ⟨d,run⟩ := relative_cut checks previous kept (word.none_of_cut cut.1 cut.2) room
      rw [run]
      rfl
  exceeds bits row offset word front above := by
    rw [relative_refused checks word front room (if_pos above)]
    rfl
  overflows bits row offset word front within much := by
    refine ⟨.relativeOverflow,?_,rfl,rfl⟩
    have refused : (Relative.Content.place row offset).answer previous =
        reject (.invalidData .relativeOverflow) := by
      rw [Relative.Content.answer,if_neg (by omega),if_neg (by omega)]
    rw [relative_refused checks word front room refused]
    rfl
  overlaps bits value word front near := by
    refine ⟨.relativeOverlap,?_,rfl,rfl⟩
    rw [relative_refused checks word front room (if_neg (by omega))]
    rfl
  cut bits content word inside short := by
    obtain ⟨d,run⟩ := relative_cut checks previous kept (word.none_of_cut inside short) room
    rw [run]
    rfl
  complete := Relative.Word.complete c.rest

end Cursor

/-- A writer at any position sends a number after a smaller one in its code. A reader at any
position whose counter has room for the longest word takes that code and no other; it says what is
wrong with every other word and that an input ends inside of one, and then leaves the variable as
it was. -/
theorem relative_coded (checks : Bool) :
    (∀ p, Packer.Reached checks p → ∀ previous current : UInt32, previous < current →
      p.Appends current (Relative.code previous.toNat current.toNat)
        (Directive.relative (Packer.stream checks) previous current p)) ∧
    (∀ bytes r, Reader.Reached checks bytes r → r.input.position + 38 < 2^64 →
      ∀ previous kept : UInt32, Relative.Decodes previous kept
        ((bitsOfBytes bytes).drop r.input.position) r.input.position
        ((Reader.stream checks).seen
          (Directive.relative (Reader.stream checks) previous kept r))) := by
  constructor
  · intro p reached previous current above
    obtain ⟨t,holds⟩ := reached.holds
    have alike := ((Packer.stream_holds checks).follows.relative holds previous current).toAlike
    rw [← Wire.relative_code above]
    exact holds.appends (Tape.relative_sends checks t previous current) alike above
  · intro bytes r reached room previous kept
    have alike := ((Reader.stream_at checks).follows.relative reached.at previous kept).toAlike
    rw [(Reader.stream_at checks).seen_eq alike]
    exact Cursor.relative_decodes checks ⟨bitsOfBytes bytes,r.input.position⟩ previous kept room

/-- A difference of 3 is the second place in the first bucket. -/
theorem relative_coded_second :
    Packer.empty.Appends 103 [false,true,true,false,false]
      (Directive.relative (Packer.stream true) 100 103 .empty) ∧
    (Reader.stream true).seen (Directive.relative (Reader.stream true) 100 0 (.ofBytes [0x06])) =
      ⟨103,.ok (),5⟩ := by
  have written := (relative_coded true).1 .empty .start 100 103 (by decide)
  have read := (relative_coded true).2 [0x06] (.ofBytes [0x06]) .start (by decide) 100 0
  exact ⟨written,(read.accepts 103 5).mpr ⟨by decide,by decide,rfl⟩⟩

end Bitwire
