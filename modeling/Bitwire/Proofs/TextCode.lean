import Bitwire.Proofs.Patterns
import Bitwire.Proofs.Vetting

/-! The format of texts. A reader takes the length, zeros up to a byte boundary and well-formed
bytes, and the first of these that it does not find decides how it fails. The runs that it reads the
bytes in are not seen but where the input ends: it stops behind the last run that was there in
full. -/
namespace Bitwire
namespace Text

/-- Bits of the length of a text, as the size of the buffer has it. -/
def width (size : Nat) : Nat := bitsRequired 0 (Int32.ofNat (size - 1))

/-- The length, and zeros up to the next byte boundary. -/
def head (size position length : Nat) : List Bool :=
  bitsOf (width size) length ++ zeroPadding (position + width size)

/-- The form of bytes: their head, then the bytes. -/
def form (size position : Nat) (bytes : List UInt8) : List Bool :=
  head size position bytes.length ++ bitsOfBytes bytes

/-- Bits in front of the bytes. -/
def start (size position : Nat) : Nat := width size + padding (position + width size)

/-- Whole bytes that follow the head. -/
def whole (size position : Nat) (ahead : List Bool) : Nat :=
  (ahead.length - start size position)/8

theorem head_length (size position length : Nat) :
    (head size position length).length = start size position := by
  simp [head,start]

/-- Behind the length, bytes are sent as in any byte run. -/
theorem form_eq (size position : Nat) (bytes : List UInt8) :
    form size position bytes =
      bitsOf (width size) bytes.length ++ Wire.bytes (position + width size) bytes := by
  rw [form,head,Wire.bytes,List.append_assoc]

theorem decode_eq_reject {bytes : Array UInt8} (none : ∀ text : String, text.toUTF8.data ≠ bytes) :
    decode bytes = reject .invalidUtf8 := by
  have undecoded : ofUtf8? bytes = .none :=
    Option.eq_none_iff_forall_not_mem.mpr fun text found => none text (ofUtf8?_eq_some.mp found)
  rw [decode,undecoded]

/-- What a reader makes of the bits ahead where it expects a text of fewer than `size` bytes. -/
structure Decodes (size : Nat) (kept : String) (ahead : List Bool) (position : Nat)
    (seen : Seen String) : Prop where
  accepts : ∀ found stop, seen = ⟨found,.ok (),stop⟩ ↔ ∃ bytes : List UInt8,
    bytes.length ≤ size - 1 ∧ form size position bytes <+: ahead ∧
      found.toUTF8.data.toList = bytes ∧ stop = position + (form size position bytes).length
  keeps : seen.result ≠ .ok () → seen.value = kept
  short : ahead.length < width size → seen = ⟨kept,reject .endOfBuffer,position⟩
  long : ∀ length < 2^width size, bitsOf (width size) length <+: ahead → size - 1 < length →
    seen = ⟨kept,reject (.outOfRange length 0 (size - 1 : Nat)),position + width size⟩
  unpadded : ∀ length ≤ size - 1, bitsOf (width size) length <+: ahead →
    true ∈ (ahead.drop (width size)).take (padding (position + width size)) →
    seen = ⟨kept,reject .invalidPadding,position + start size position⟩
  /-- No more bytes are gathered than there are. -/
  truncated : ∀ length ≤ size - 1, head size position length <+: ahead →
    whole size position ahead < length →
    seen = ⟨kept,reject .endOfBuffer,
        position + start size position + 8*(256*(whole size position ahead/256))⟩ ∧
      start size position + 8*(256*(whole size position ahead/256)) ≤ ahead.length
  garbled : ∀ bytes : List UInt8, bytes.length ≤ size - 1 → form size position bytes <+: ahead →
    (∀ text : String, text.toUTF8.data.toList ≠ bytes) →
    seen = ⟨kept,reject .invalidUtf8,position + (form size position bytes).length⟩

/-- Bytes gathered in runs are those of a single run, and end where it ends. -/
structure InOneRun {n : Nat} (runs : Seen (Array UInt8)) (once : Seen (Vector UInt8 n)) : Prop where
  succeeds : runs.result = .ok () ↔ once.result = .ok ()
  same : once.result = .ok () → runs.value = once.value.toArray ∧ runs.position = once.position

end Text

/-- Behind the length, a text has the form of its bytes. -/
theorem Wire.text_form (size position : Nat) (value : String) :
    Wire.text size position value = Text.form size position value.toUTF8.data.toList := by
  have size : value.toUTF8.data.toList.length = value.utf8ByteSize := rfl
  rw [Wire.text,Text.form,Text.head,Wire.bytes,Wire.integer_length,size,List.append_assoc,
    Wire.integer,Int32.toInt_zero,Int.sub_zero]
  rfl

namespace Cursor

/-- The place lies inside an input of whole bytes, and one more run behind it can be counted. -/
structure Roomy (c : Cursor) : Prop where
  within : c.position ≤ c.bits.length
  whole : c.bits.length%8 = 0
  counted : c.bits.length + 8*Text.runLength < 2^64

variable {c d : Cursor} {α : Type} (checks : Bool)

theorem Roomy.sees (h : c.Roomy) {bits : List Bool} (front : bits <+: c.rest) : c.Sees bits := by
  have within := h.within
  have counted := h.counted
  have short := front.length_le
  rw [rest,List.length_drop] at short
  exact ⟨front,by omega⟩

theorem Roomy.skip (h : c.Roomy) {n : Nat} (enough : n ≤ c.rest.length) : (c.skip n).Roomy := by
  have within := h.within
  rw [rest,List.length_drop] at enough
  refine ⟨?_,h.whole,h.counted⟩
  change c.position + n ≤ c.bits.length
  omega

/-- The next byte boundary lies inside too. -/
theorem Roomy.boundary (h : c.Roomy) : padding c.position ≤ c.rest.length := by
  have within := h.within
  have whole := h.whole
  rw [rest,List.length_drop,padding]
  omega

/-- As many bytes as there are bits for. -/
theorem exists_bytes {n : Nat} {bits : List Bool} (enough : 8*n ≤ bits.length) :
    ∃ bytes : Vector UInt8 n, bitsOfBytes bytes.toList <+: bits := by
  have length : (bits.take (8*n)).length = 8*n := List.length_take_of_le enough
  refine ⟨⟨(bytesOf n (bits.take (8*n))).toArray,by simp⟩,?_⟩
  rw [Vector.toList_mk,bitsOfBytes_bytesOf length]
  exact List.take_prefix _ _

theorem skipPadding_set (h : c.Roomy) (set : true ∈ c.rest.take (padding c.position)) :
    c.skipPadding = .fail () (c.skip (padding c.position)) (.error .invalidPadding) := by
  have sees := h.sees (List.take_prefix (padding c.position) c.rest)
  have any : (c.rest.take (padding c.position)).any id = true :=
    List.any_eq_true.mpr ⟨true,set,rfl⟩
  rw [skipPadding,take_of_sees (List.length_take_of_le h.boundary) sees,Step.given_ok]
  simp only [any,if_true]

/-- A byte run starts at a byte boundary. -/
theorem bytes_eq {n : Nat} (kept : Vector UInt8 n) (c : Cursor) :
    (stream checks).bytes kept c = c.skipPadding.andThen kept fun _ d => d.fill kept := rfl

theorem bytes_unpadded {failure : Failure} (stopped : c.skipPadding = .fail () d failure) {n : Nat}
    (kept : Vector UInt8 n) : (stream checks).bytes kept c = .fail kept d failure := by
  rw [bytes_eq,stopped]
  rfl

theorem bytes_short (h : c.Roomy) (zeros : zeroPadding c.position <+: c.rest) {n : Nat}
    (few : n ≤ Text.runLength) (short : c.rest.length < padding c.position + 8*n)
    (kept : Vector UInt8 n) :
    (stream checks).bytes kept c =
      .fail kept (c.skip (padding c.position)) (.error .endOfBuffer) := by
  have within := h.within
  have counted := h.counted
  have inside := h.boundary
  have skipped := (reads_padding (c := c)).accepts () trivial (h.sees zeros)
  rw [zeroPadding_length] at skipped
  rw [bytes_eq,skipped,Step.andThen_done,fill,take_short]
  · rfl
  · rw [skip_rest,List.length_drop]
    omega
  · rw [rest,List.length_drop] at inside
    rw [skip_position]
    omega

/-- If the first run fails, nothing follows it. -/
theorem gather_refused {failure : Failure}
    (stopped : ∀ {n : Nat} (kept : Vector UInt8 n), n ≤ Text.runLength →
      (stream checks).bytes kept c = .fail kept d failure)
    (last full : Nat) (buffer : Vector UInt8 Text.runLength) (gathered : Array UInt8) :
    ∃ value, Directive.gather (stream checks) last full buffer gathered c =
      .fail value d failure := by
  cases full with
  | zero =>
    refine ⟨gathered ++ (buffer.take last).toArray,?_⟩
    rw [Directive.gather,stopped _ (Nat.min_le_right _ _)]
    rfl
  | succ full =>
    refine ⟨gathered,?_⟩
    rw [Directive.gather,stopped buffer (Nat.le_refl _)]
    rfl

/-- Where there are bytes enough for it, a run is read. -/
theorem bytes_enough (h : c.Roomy) (zeros : zeroPadding c.position <+: c.rest) {n : Nat}
    (enough : padding c.position + 8*n ≤ c.rest.length) (kept : Vector UInt8 n) :
    ∃ bytes, (stream checks).bytes kept c = .done bytes (c.skip (padding c.position + 8*n)) := by
  have behind : 8*n ≤ (c.rest.drop (padding c.position)).length := by
    rw [List.length_drop]
    omega
  obtain ⟨bytes,front⟩ := exists_bytes behind
  have ahead : Wire.bytes c.position bytes.toList <+: c.rest := by
    obtain ⟨later,split⟩ := zeros
    rw [← split,List.drop_left' (zeroPadding_length _)] at front
    rw [← split]
    exact (List.prefix_append_right_inj _).mpr front
  have taken := (bytes_reads checks kept).accepts bytes trivial (h.sees ahead)
  rw [Wire.bytes_length,Vector.length_toList] at taken
  exact ⟨bytes,taken⟩

/-- Behind a byte run the place is a byte boundary. -/
theorem padding_behind (c : Cursor) (n : Nat) :
    padding (c.skip (padding c.position + 8*n)).position = 0 := by
  have boundary := padding_aligns c.position
  rw [skip_position,padding]
  omega

/-- Full runs are read as long as there are bytes for them. -/
theorem gather_cut (h : c.Roomy) (zeros : zeroPadding c.position <+: c.rest) {last full whole : Nat}
    (few : last ≤ Text.runLength) (left : whole = (c.rest.length - padding c.position)/8)
    (short : whole < Text.runLength*full + last) (buffer : Vector UInt8 Text.runLength)
    (gathered : Array UInt8) :
    ∃ value, Directive.gather (stream checks) last full buffer gathered c =
      .fail value (c.skip (padding c.position + 8*(256*(whole/256)))) (.error .endOfBuffer) := by
  have run : Text.runLength = 256 := rfl
  have inside := h.boundary
  induction full generalizing c whole buffer gathered with
  | zero =>
    have none : whole/256 = 0 := by omega
    refine ⟨gathered ++ (buffer.take last).toArray,?_⟩
    rw [Directive.gather,bytes_short checks h zeros (Nat.min_le_right _ _)
      (by rw [Nat.min_eq_left few]; omega),none]
    rfl
  | succ full ih =>
    rcases Nat.lt_or_ge whole Text.runLength with less | more
    · have none : whole/256 = 0 := by omega
      refine ⟨gathered,?_⟩
      rw [Directive.gather,bytes_short checks h zeros (Nat.le_refl _) (by omega),none]
      rfl
    · have enough : padding c.position + 8*Text.runLength ≤ c.rest.length := by omega
      obtain ⟨bytes,taken⟩ := bytes_enough checks h zeros enough buffer
      -- What follows starts without padding, and has a run less to go.
      have aligned := padding_behind c Text.runLength
      have nothing :
          zeroPadding (c.skip (padding c.position + 8*Text.runLength)).position = [] := by
        rw [zeroPadding,aligned,List.replicate_zero]
      have fewer : whole - 256 = ((c.skip (padding c.position + 8*Text.runLength)).rest.length -
          padding (c.skip (padding c.position + 8*Text.runLength)).position)/8 := by
        rw [aligned,skip_rest,List.length_drop]
        omega
      have less : whole - 256 < Text.runLength*full + last := by
        rw [Nat.mul_succ] at short
        omega
      obtain ⟨value,failed⟩ := ih (h.skip enough) (nothing ▸ List.nil_prefix) fewer less bytes
        (gathered ++ bytes.toArray) (h.skip enough).boundary
      have sum : padding c.position + 8*Text.runLength + (0 + 8*(256*((whole - 256)/256))) =
          padding c.position + 8*(256*(whole/256)) := by omega
      refine ⟨value,?_⟩
      rw [Directive.gather,taken,Step.andThen_done,failed,aligned,skip_skip,sum]

variable {checks} {size length : Nat}

/-- The lengths that are sent form a range, up to the greatest length in the buffer. -/
theorem text_range (proper : 2 ≤ size ∧ size ≤ 2^31) :
    (0 : Int32) < Int32.ofNat (size - 1) ∧
      (Int32.ofNat (size - 1)).toInt = (size - 1 : Nat) := by
  have max : (Int32.ofNat (size - 1)).toInt = (size - 1 : Nat) :=
    Int32.toInt_ofNat_of_lt (by omega)
  refine ⟨Int32.lt_iff_toInt_lt.mpr ?_,max⟩
  rw [max,Int32.toInt_zero]
  omega

/-- A length that fits leads on to the bytes. -/
theorem text_claimed (h : c.Roomy) (proper : 2 ≤ size ∧ size ≤ 2^31) (fits : length ≤ size - 1)
    (front : bitsOf (Text.width size) length <+: c.rest) (kept : String) :
    Directive.text (stream checks) size kept c =
      (Directive.textBytes (stream checks) length (c.skip (Text.width size))).andThen kept
        fun bytes d => Directive.store (stream checks) kept d (Text.decode bytes) := by
  obtain ⟨positive,max⟩ := text_range proper
  have small : length < 2^Text.width size := by
    have widest := (Range.mk _ _ positive).bits_least.2
    rw [max,Int32.toInt_zero] at widest
    change _ < 2^Text.width size at widest
    omega
  have inside : (Range.mk _ _ positive).accept ((0 : Int32).toInt + length) =
      .ok (Int32.ofNat length) := by
    refine Range.accept_eq_ok.mpr ⟨?_,?_⟩
    · rw [Range.contains_iff,max,Int32.toInt_zero]
      omega
    · rw [Int32.toInt_zero,Int.zero_add]
      exact Int32.toInt_ofNat_of_lt (by omega)
  rw [text_eq,Text.maxLength_of_proper proper,Step.given_ok,
    int_pattern checks positive small (h.sees front),inside,Step.given_ok,Step.andThen_done,
    Int32.toNatClampNeg_ofNat_of_lt (by omega)]
  rfl

theorem text_long (h : c.Roomy) (proper : 2 ≤ size ∧ size ≤ 2^31)
    (small : length < 2^Text.width size) (front : bitsOf (Text.width size) length <+: c.rest)
    (long : size - 1 < length) (kept : String) :
    Directive.text (stream checks) size kept c =
      .fail kept (c.skip (Text.width size)) (.error (.outOfRange length 0 (size - 1 : Nat))) := by
  obtain ⟨positive,max⟩ := text_range proper
  have outside : (Range.mk _ _ positive).accept (α := Int32) ((0 : Int32).toInt + length) =
      reject (.outOfRange length 0 (size - 1 : Nat)) := by
    rw [Range.accept,if_neg,Range.exceeded,max,Int32.toInt_zero,Int.zero_add]
    rw [Range.contains_iff,max,Int32.toInt_zero]
    omega
  rw [text_eq,Text.maxLength_of_proper proper,Step.given_ok,
    int_pattern checks positive small (h.sees front),outside]
  rfl

theorem text_unpadded (h : c.Roomy) (proper : 2 ≤ size ∧ size ≤ 2^31) (fits : length ≤ size - 1)
    (front : bitsOf (Text.width size) length <+: c.rest)
    (set : true ∈ (c.rest.drop (Text.width size)).take (padding (c.position + Text.width size)))
    (kept : String) :
    Directive.text (stream checks) size kept c =
      .fail kept (c.skip (Text.start size c.position)) (.error .invalidPadding) := by
  have enough := front.length_le
  rw [bitsOf_length] at enough
  have stopped := skipPadding_set (h.skip enough) (by rwa [skip_rest])
  obtain ⟨value,failed⟩ := gather_refused checks
    (fun kept _ => bytes_unpadded checks stopped kept) (Text.lastRun length) (Text.fullRuns length)
    (Vector.replicate _ 0) #[]
  rw [text_claimed h proper fits front,Directive.textBytes,failed,Step.andThen_fail,skip_skip]
  rfl

theorem text_truncated (h : c.Roomy) (proper : 2 ≤ size ∧ size ≤ 2^31) (fits : length ≤ size - 1)
    (front : Text.head size c.position length <+: c.rest)
    (short : Text.whole size c.position c.rest < length) (kept : String) :
    Directive.text (stream checks) size kept c =
      .fail kept (c.skip (Text.start size c.position +
        8*(256*(Text.whole size c.position c.rest/256)))) (.error .endOfBuffer) := by
  obtain ⟨claim,zeros⟩ := sees_append.mp (h.sees front)
  rw [bitsOf_length] at zeros
  have enough := claim.ahead.length_le
  rw [bitsOf_length] at enough
  have left : Text.whole size c.position c.rest = ((c.skip (Text.width size)).rest.length -
      padding (c.skip (Text.width size)).position)/8 := by
    rw [skip_rest,List.length_drop,Nat.sub_sub]
    rfl
  have more : Text.whole size c.position c.rest <
      Text.runLength*Text.fullRuns length + Text.lastRun length := by
    rwa [Text.fullRuns_lastRun]
  obtain ⟨value,failed⟩ := gather_cut checks (h.skip enough) zeros.ahead
    (Text.lastRun_le length) left more (Vector.replicate _ 0) #[]
  rw [text_claimed h proper fits claim.ahead,Directive.textBytes,failed,Step.andThen_fail,
    skip_skip,← Nat.add_assoc]
  rfl

theorem text_garbled (h : c.Roomy) (proper : 2 ≤ size ∧ size ≤ 2^31) {bytes : List UInt8}
    (fits : bytes.length ≤ size - 1) (front : Text.form size c.position bytes <+: c.rest)
    (none : ∀ text : String, text.toUTF8.data.toList ≠ bytes) (kept : String) :
    Directive.text (stream checks) size kept c =
      .fail kept (c.skip (Text.form size c.position bytes).length) (.error .invalidUtf8) := by
  have sees := h.sees front
  rw [Text.form_eq] at sees ⊢
  obtain ⟨claim,run⟩ := sees_append.mp sees
  rw [bitsOf_length] at run
  have gathered := (textBytes_reads checks bytes.length).accepts bytes.toArray rfl run
  have undecoded : Text.decode bytes.toArray = reject .invalidUtf8 :=
    Text.decode_eq_reject fun text same => none text (congrArg Array.toList same)
  rw [text_claimed h proper fits claim.ahead,gathered,Step.andThen_done,undecoded,skip_skip,
    List.length_append,bitsOf_length]
  rfl

theorem text_decodes (h : c.Roomy) (proper : 2 ≤ size ∧ size ≤ 2^31) (kept : String) :
    Text.Decodes size kept c.rest c.position
      ((stream checks).seen (Directive.text (stream checks) size kept c)) := by
  have within := h.within
  have counted := h.counted
  constructor
  case accepts =>
    intro found stop
    rw [(text_reads checks size kept).seen_front (fun _ _ front => (h.sees front).reached)
      (by omega),Wire.text_form]
    constructor
    · rintro ⟨⟨-,fits⟩,front,rfl⟩
      exact ⟨_,fits,front,rfl,rfl⟩
    · rintro ⟨_,fits,front,rfl,rfl⟩
      exact ⟨⟨proper,fits⟩,front,rfl⟩
  case keeps =>
    intro failed
    cases result : (Directive.text (stream checks) size kept c).result with
    | ok => exact absurd result failed
    | error failure => exact (Directive.text_vetted rfl c size kept).kept failure result
  case short =>
    intro few
    obtain ⟨positive,-⟩ := text_range proper
    have narrow : Text.width size ≤ 32 := (Range.mk _ _ positive).bits_le
    have run : Text.runLength = 256 := rfl
    rw [text_eq,Text.maxLength_of_proper proper,Step.given_ok,
      int_short positive few (show c.position + Text.width size < _ by omega)]
    rfl
  case long =>
    intro length small front long
    rw [text_long h proper small front long]
    rfl
  case unpadded =>
    intro length fits front set
    rw [text_unpadded h proper fits front set]
    rfl
  case truncated =>
    intro length fits front short
    have start := front.length_le
    rw [Text.head_length] at start
    refine ⟨?_,by rw [Text.whole]; omega⟩
    rw [text_truncated h proper fits front short,Nat.add_assoc]
    rfl
  case garbled =>
    intro bytes fits front none
    rw [text_garbled h proper fits front none]
    rfl

theorem textBytes_inOneRun (small : c.position < 2^64) {n : Nat} (out : Vector UInt8 n) :
    Text.InOneRun ((stream checks).seen (Directive.textBytes (stream checks) n c))
      ((stream checks).seen ((stream checks).bytes out c)) := by
  have runs := textBytes_reads (c := c) checks n
  have once := bytes_reads (c := c) checks out
  constructor
  case succeeds =>
    constructor
    · intro ok
      obtain ⟨size,sees,-⟩ := runs.only small ok
      rw [once.accepts ⟨_,size⟩ trivial sees]
      rfl
    · intro ok
      obtain ⟨-,sees,-⟩ := once.only small ok
      rw [runs.accepts _ (Vector.size_toArray _) sees]
      rfl
  case same =>
    intro ok
    obtain ⟨-,sees,state⟩ := once.only small ok
    rw [runs.accepts _ (Vector.size_toArray _) sees]
    exact ⟨rfl,congrArg Cursor.position state.symm⟩

end Cursor

/-- A reader at any position takes just the texts that the bits ahead hold, and what it does not
find first decides how it fails. The runs that it reads their bytes in are not seen. The counter has
to have room for one more run behind the input. -/
theorem text_coded (checks : Bool) (bytes : List UInt8)
    (countable : 8*bytes.length + 8*Text.runLength < 2^64) :
    ∀ r, Reader.Reached checks bytes r →
      (∀ size, 2 ≤ size ∧ size ≤ 2^31 → ∀ kept, Text.Decodes size kept
        ((bitsOfBytes bytes).drop r.input.position) r.input.position
        ((Reader.stream checks).seen (Directive.text (Reader.stream checks) size kept r))) ∧
      ∀ {n : Nat} (out : Vector UInt8 n), Text.InOneRun
        ((Reader.stream checks).seen (Directive.textBytes (Reader.stream checks) n r))
        ((Reader.stream checks).seen ((Reader.stream checks).bytes out r)) := by
  intro r reached
  have place := reached.at
  have simulates := Reader.stream_at checks
  have length := bitsOfBytes_length bytes
  have counted := place.sound.counted
  have total : r.input.total = (bitsOfBytes bytes).length := place.total
  have roomy : Cursor.Roomy ⟨bitsOfBytes bytes,r.input.position⟩ :=
    ⟨by simp only; omega,by simp only; omega,by simp only; omega⟩
  constructor
  · intro size proper kept
    rw [simulates.seen_eq (simulates.follows.text place size kept).toAlike]
    exact Cursor.text_decodes roomy proper kept
  · intro n out
    have gathered := (simulates.follows.gather (Text.lastRun n) (Text.fullRuns n)
      (Vector.replicate _ 0) #[] place).toAlike
    rw [Directive.textBytes,simulates.seen_eq gathered,
      simulates.seen_eq (simulates.bytes out place)]
    exact Cursor.textBytes_inOneRun place.sound.reached out

/-- A single byte is left of the two claimed, and the reader does not pass it. -/
theorem text_coded_claimed :
    8*[0x02,0x61].length + 8*Text.runLength < 2^64 ∧ (2 ≤ 256 ∧ 256 ≤ 2^31) ∧
      (Reader.stream true).seen
        (Directive.text (Reader.stream true) 256 "kept" (.ofBytes [0x02,0x61])) =
        ⟨"kept",reject .endOfBuffer,8⟩ := by
  have coded := text_coded true [0x02,0x61] (by decide) (.ofBytes [0x02,0x61]) .start
  have read := coded.1 256 (by decide) "kept"
  exact ⟨by decide,by decide,(read.truncated 2 (by decide) (by decide) (by decide)).1⟩

end Bitwire
