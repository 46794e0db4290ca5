import Bitwire.Proofs.Calls
import Bitwire.Proofs.Readers

/-! Replaying what was recorded. A reader that answers every call with the value that a writer
passed to it receives what was written, and asks just as the writer did, but for the runs that the
bytes of a text are read in. -/
namespace Bitwire

variable {σ α : Type}

/-- The reader hands out what was recorded, whatever the variable held. -/
def Stream.Answer (S : Stream σ) : Call → σ → σ → Prop
  | .integer value min max, s, t => ∀ kept, S.integer min max kept s = .done value t
  | .bits value count, s, t => ∀ kept, S.bits count kept s = .done value t
  | .bytes data, s, t => ∀ n (size : data.length = n) (kept : Vector UInt8 n),
      S.bytes kept s = .done ⟨data.toArray,by simpa using size⟩ t
  | .align, s, t => S.align s = .done () t
  | .check, s, t => S.check s = .done () t
  | .byteRun _, _, _ | .object, _, _ => False

/-- The reader answers one call after the other. -/
def Stream.Answers (S : Stream σ) : List Call → σ → σ → Prop
  | [], s, t => s = t
  | call::calls, s, t => ∃ m, S.Answer call s m ∧ S.Answers calls m t

namespace Text

/-- Bytes in runs of full length and a last one. -/
def runs : Nat → List UInt8 → List (List UInt8)
  | 0, data => [data]
  | full+1, data => data.take runLength::runs full (data.drop runLength)

end Text

/-- The calls that a text is read with. -/
def Call.inRuns : Call → List Call
  | .bytes data => (Text.runs (Text.fullRuns data.length) data).map .bytes
  | call => [call]

/-- The bytes of a text are read in runs, also those of an address. -/
def Leaf.isText : Leaf → Bool
  | text _ | address _ => true
  | _ => false

/-- The calls of a reader that answer those of a writer. -/
def Leaf.answers (kind : Leaf) (calls : List Call) : List Call :=
  if kind.isText then calls.flatMap Call.inRuns else calls

theorem lowBits_of_lt {count : Nat} {word : UInt32} (h : word.toNat < 2^count) :
    lowBits count word = word := by
  rw [lowBits,Nat.one_shiftLeft,Nat.mod_eq_of_lt h,UInt32.ofNat_toNat]

namespace Directive
variable {S : Stream σ} (reading : S.mode.isReading = true) {s t : σ}
include reading

theorem int_answered [IntTarget α] {min max : Int32} {value : α}
    (h : Between min max (IntTarget.toInt value)) (kept : α)
    (answer : S.Answer (.integer (Int32.ofInt (IntTarget.toInt value)) min max) s t) :
    int S min max kept s = .done value t := by
  have inside := (Range.contains_iff ⟨min,max,h.1⟩ (IntTarget.toInt value)).mpr h.2
  rw [int_reading reading,Range.ofBounds_of_lt h.1,Step.given_ok,answer 0,Step.andThen_done,
    h.ofInt_toInt,Range.accept_eq_ok.mpr ⟨inside,rfl⟩,Step.given_ok]

theorem bits_answered [BitsTarget α] {count : Nat} (h : 1 ≤ count ∧ count ≤ 32) {value : α}
    (narrow : (BitsTarget.toWord value).toNat < 2^count) (kept : α)
    (answer : S.Answer (.bits (lowBits count (BitsTarget.toWord value)) count) s t) :
    bits S count kept s = .done value t := by
  rw [bits_reading reading,permitCount,if_pos h,Step.given_ok,answer 0,Step.andThen_done,
    lowBits_of_lt narrow,acceptWord_eq_ok.mpr rfl,Step.given_ok]

theorem bool_answered {value : Bool} (kept : Bool) (answer : S.Answer (Calls.flag value) s t) :
    bool S kept s = .done value t := by
  rw [bool_reading reading,answer _,Step.andThen_done]
  cases value <;> rfl

theorem u64_answered {value : UInt64} (kept : UInt64)
    (answers : S.Answers [.bits value.toUInt32 32,.bits (value >>> 32).toUInt32 32] s t) :
    u64 S kept s = .done value t := by
  obtain ⟨m,low,t,high,rfl⟩ := answers
  rw [u64_reading reading,low _,Step.andThen_done,high _,Step.andThen_done,
    (halves_eq _ _ value).mpr ⟨rfl,rfl⟩]

omit reading in
theorem gather_answered {last full : Nat} {data : List UInt8}
    (size : data.length = Text.runLength*full + last) (few : last ≤ Text.runLength)
    (buffer : Vector UInt8 Text.runLength) (gathered : Array UInt8)
    (answers : S.Answers ((Text.runs full data).map .bytes) s t) :
    gather S last full buffer gathered s = .done (gathered ++ data.toArray) t := by
  induction full generalizing s buffer gathered data with
  | zero =>
    obtain ⟨t,answer,rfl⟩ := answers
    rw [gather,answer (min last Text.runLength) (by rw [Nat.min_eq_left few]; omega)]
    rfl
  | succ full ih =>
    obtain ⟨m,answer,answers⟩ := answers
    rw [Nat.mul_succ] at size
    have first : (data.take Text.runLength).length = Text.runLength :=
      List.length_take_of_le (by omega)
    have joined : (data.take Text.runLength).toArray ++ (data.drop Text.runLength).toArray =
        data.toArray := by rw [List.append_toArray,List.take_append_drop]
    rw [gather,answer Text.runLength first,Step.andThen_done,
      ih (by rw [List.length_drop]; omega) _ _ answers,Array.append_assoc]
    exact congrArg (fun more => Step.done (gathered ++ more) t) joined

theorem text_answered {size : Nat} {value : String} (proper : 2 ≤ size ∧ size ≤ 2^31)
    (fits : value.utf8ByteSize ≤ size - 1) (kept : String)
    (answers : S.Answers ((Calls.text size value).flatMap Call.inRuns) s t) :
    text S size kept s = .done value t := by
  obtain ⟨exact,between⟩ := Text.length_between proper fits
  obtain ⟨m,length,bytes⟩ := answers
  have natural : (Int32.ofNat value.utf8ByteSize).toNatClampNeg = value.utf8ByteSize :=
    Int32.toNatClampNeg_ofNat_of_lt (by omega)
  have claimed := int_answered reading between (0 : Int32) (s := s) (t := m)
    (by rw [show Int32.ofInt (IntTarget.toInt (Int32.ofNat value.utf8ByteSize)) =
      Int32.ofNat value.utf8ByteSize from Int32.ofInt_toInt _]; exact length)
  have count : value.toUTF8.data.toList.length = value.utf8ByteSize := rfl
  have gathered := gather_answered (S := S)
    (count.trans (Text.fullRuns_lastRun value.utf8ByteSize).symm) (Text.lastRun_le _)
    (Vector.replicate _ 0) #[] (by simpa [Call.inRuns,count] using bytes)
  rw [text_reading reading,Text.maxLength_of_proper proper,Step.given_ok,claimed,Step.andThen_done,
    natural,textBytes,gathered,Step.andThen_done,
    Text.decode_eq_ok.mpr (show value.toUTF8.data = _ by simp),Step.given_ok]

theorem address_answered {F : AddressFormat α} {value : α} (valid : F.isValid value = true)
    (fits : (F.write value).utf8ByteSize ≤ 255) (found : F.read? (F.write value) = some value)
    (kept : α) (answers : S.Answers
      ((Calls.text AddressFormat.bufferSize (F.write value)).flatMap Call.inRuns) s t) :
    address S F kept s = .done value t := by
  rw [address_reading reading,text_answered reading (by decide) fits "" answers,Step.andThen_done,
    AddressFormat.accept,found]
  simp only [if_pos valid,Step.given_ok]

/-- The flags of the answers lead to the bucket that the writer chose. -/
theorem bucketed_answered {previous current : UInt32} (kept difference : UInt32) {low : Nat}
    {buckets : List Bucket} (contiguous : Bucket.Contiguous low buckets)
    (above : previous.toNat + low ≤ current.toNat)
    (answers : S.Answers (Calls.bucketed current (current - previous) buckets) s t) :
    bucketed S previous kept difference buckets s = .done current t := by
  have apart := Relative.sub_toNat (show previous.toNat ≤ current.toNat by omega)
  induction buckets generalizing s low with
  | nil =>
    have last : low = Relative.maxDifference + 1 := contiguous
    obtain ⟨t,answer,rfl⟩ := answers
    rw [bucketed_nil_reading reading,answer _,Step.andThen_done,
      Relative.acceptFull_eq_ok.mpr ⟨by omega,rfl⟩,Step.given_ok]
  | cons b rest ih =>
    obtain ⟨proper,start,contiguous⟩ := contiguous
    rw [bucketed_cons_reading reading]
    by_cases inside : (current - previous).toNat ≤ b.max.toNatClampNeg
    · rw [Calls.bucketed,if_pos inside] at answers
      obtain ⟨m,flag,t,answer,rfl⟩ := answers
      have between := Bucket.between proper start (by omega) inside
      rw [bool_answered reading _ flag,Step.andThen_done,if_pos rfl,
        int_answered reading between difference answer,Step.andThen_done,
        Relative.advance_eq_ok.mpr (show current.toNat = _ by omega),Step.given_ok]
    · rw [Calls.bucketed,if_neg inside] at answers
      obtain ⟨m,flag,answers⟩ := answers
      rw [bool_answered reading _ flag,Step.andThen_done,if_neg Bool.false_ne_true]
      exact ih contiguous (by omega) answers

theorem relative_answered {previous current : UInt32} (h : previous < current) (kept : UInt32)
    (answers : S.Answers (Calls.relative previous current) s t) :
    relative S previous kept s = .done current t := by
  have above := UInt32.lt_iff_toNat_lt.mp h
  rw [relative_reading reading]
  by_cases one : current - previous = 1
  · rw [Calls.relative,if_pos one] at answers
    obtain ⟨t,flag,rfl⟩ := answers
    have next := (Relative.sub_eq_one h).mp one
    rw [bool_answered reading _ flag,Step.andThen_done,if_pos rfl,
      Relative.advance_eq_ok.mpr next,Step.given_ok]
  · rw [Calls.relative,if_neg one] at answers
    obtain ⟨m,flag,answers⟩ := answers
    have far : current.toNat ≠ previous.toNat + 1 := fun next =>
      one ((Relative.sub_eq_one h).mpr next)
    rw [bool_answered reading _ flag,Step.andThen_done,if_neg Bool.false_ne_true]
    exact bucketed_answered reading kept 0 Relative.buckets_contiguous (by omega) answers

theorem ackRelative_answered (sequence : UInt16) {ack : UInt16} (kept : UInt16)
    (answers : S.Answers (Calls.ackRelative sequence ack) s t) :
    ackRelative S sequence kept s = .done ack t := by
  rw [ackRelative_reading reading]
  by_cases near : Relative.behind sequence ack ≤ 64
  · rw [Calls.ackRelative,if_pos near] at answers
    obtain ⟨m,flag,t,answer,rfl⟩ := answers
    obtain ⟨delta,between⟩ := Relative.behind_between near
    have same : Int32.ofInt (IntTarget.toInt (Int32.ofNat (Relative.behind sequence ack))) =
      Int32.ofNat (Relative.behind sequence ack) := Int32.ofInt_toInt _
    rw [← same] at answer
    rw [bool_answered reading _ flag,Step.andThen_done,if_pos rfl,
      int_answered reading between (0 : Int32) answer,Step.andThen_done,
      show (Int32.ofNat (Relative.behind sequence ack)).toInt = _ from delta,Relative.sub_behind]
  · rw [Calls.ackRelative,if_neg near] at answers
    obtain ⟨m,flag,t,answer,rfl⟩ := answers
    rw [bool_answered reading _ flag,Step.andThen_done,if_neg Bool.false_ne_true]
    exact bits_answered reading (by decide) ack.toNat_lt kept answer

theorem sequenceRelative_answered {first second : UInt16} (apart : first ≠ second) (kept : UInt16)
    (answers : S.Answers (Calls.sequenceRelative first second) s t) :
    sequenceRelative S first kept s = .done second t := by
  have above := Relative.lt_unwrap.mpr apart
  rw [sequenceRelative_reading reading,relative_answered reading above 0 answers,
    Step.andThen_done,(Relative.fold_eq_ok above).mpr rfl,Step.given_ok]

end Directive

/-- Any reader that answers as recorded hands the leaf what was written. -/
theorem Leaf.run_answered {S : Stream σ} (reading : S.mode.isReading = true) {s t : σ}
    (scope : Scope) {kind : Leaf} {value : kind.Value} (fits : kind.Fits scope value)
    (kept : kind.Value) (answers : S.Answers (kind.answers (kind.calls scope value)) s t) :
    kind.run S scope kept s = .done value t := by
  cases kind with
  | int type min max =>
    obtain ⟨t,answer,rfl⟩ := answers
    exact Directive.int_answered (α := type.Carrier) reading fits.1 kept answer
  | bits type count =>
    obtain ⟨t,answer,rfl⟩ := answers
    exact Directive.bits_answered (α := type.Carrier) reading fits.1 fits.2 kept answer
  | rawInt min max =>
    obtain ⟨t,answer,rfl⟩ := answers
    exact answer kept
  | rawBits count =>
    obtain ⟨t,answer,rfl⟩ := answers
    exact answer kept
  | bool =>
    obtain ⟨t,answer,rfl⟩ := answers
    exact Directive.bool_answered reading kept answer
  | u32 =>
    obtain ⟨t,answer,rfl⟩ := answers
    exact answer kept
  | u64 => exact Directive.u64_answered reading kept answers
  | float =>
    obtain ⟨t,answer,rfl⟩ := answers
    change Directive.float S kept s = _
    rw [Directive.float_reading reading,answer kept,Step.andThen_done]
  | double =>
    change Directive.double S kept s = _
    rw [Directive.double_reading reading,Directive.u64_answered reading kept answers,
      Step.andThen_done]
  | bytes length =>
    obtain ⟨t,answer,rfl⟩ := answers
    exact answer length (Vector.length_toList ..) kept
  | text size => exact Directive.text_answered reading fits.1.1 fits.1.2 kept answers
  | align =>
    obtain ⟨t,answer,rfl⟩ := answers
    exact answer
  | check =>
    obtain ⟨t,answer,rfl⟩ := answers
    exact answer
  | address type =>
    exact Directive.address_answered reading fits.1.1 fits.1.2 (Leaf.format_read fits) kept
      answers
  | relative previous => exact Directive.relative_answered reading fits.1 kept answers
  | ackRelative sequence => exact Directive.ackRelative_answered reading _ kept answers
  | sequenceRelative first => exact Directive.sequenceRelative_answered reading fits.1 kept answers

end Bitwire
