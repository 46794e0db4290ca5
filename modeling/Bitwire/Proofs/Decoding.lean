import Bitwire.Proofs.AddressText
import Bitwire.Proofs.Inverse

/-! Each directive reads its own wire form. Acknowledgements and addresses have more forms than
the one they are written in, so of these only the written form is shown to be taken. -/
namespace Bitwire

namespace Range
variable {α : Type} [IntTarget α] {r : Range}

theorem accept_eq_ok {found : Int} {value : α} :
    r.accept found = .ok value ↔ r.contains found = true ∧ IntTarget.toInt value = found := by
  unfold accept
  constructor
  · intro h
    split at h
    · next inside =>
      split at h
      · next stored => cases h; exact ⟨inside,IntTarget.ofInt?_eq_some.mp stored⟩
      · cases h
    · cases h
  · rintro ⟨inside,same⟩
    have stored : IntTarget.ofInt? found = some value := IntTarget.ofInt?_eq_some.mpr same
    simp only [if_pos inside,stored]

end Range

theorem acceptWord_eq_ok {α : Type} [BitsTarget α] {found : UInt32} {value : α} :
    acceptWord found = .ok value ↔ BitsTarget.toWord value = found := by
  rw [← BitsTarget.ofWord?_eq_some,acceptWord]
  cases BitsTarget.ofWord? (α := α) found with
  | none => exact ⟨fun h => (by cases h),fun h => (by cases h)⟩
  | some stored => exact ⟨fun h => by rw [Except.ok.inj h],fun h => by rw [Option.some.inj h]⟩

theorem halves_toNat (high low : UInt32) :
    ((high.toUInt64 <<< 32) ||| low.toUInt64).toNat = high.toNat*2^32 + low.toNat := by
  have := high.toNat_lt
  have shift : (high.toUInt64 <<< 32).toNat = high.toNat <<< 32 := by
    rw [UInt64.toNat_shiftLeft,UInt32.toNat_toUInt64]
    exact Nat.mod_eq_of_lt (by rw [Nat.shiftLeft_eq]; simp; omega)
  rw [UInt64.toNat_or,shift,UInt32.toNat_toUInt64,← Nat.shiftLeft_add_eq_or_of_lt low.toNat_lt,
    Nat.shiftLeft_eq]

theorem halves_eq (high low : UInt32) (value : UInt64) :
    (high.toUInt64 <<< 32) ||| low.toUInt64 = value ↔
      value.toUInt32 = low ∧ (value >>> 32).toUInt32 = high := by
  have := high.toNat_lt
  have := low.toNat_lt
  have := value.toNat_lt
  have shift : (value >>> 32).toNat = value.toNat/2^32 := by
    rw [UInt64.toNat_shiftRight,Nat.shiftRight_eq_div_pow]
    rfl
  rw [← UInt64.toNat_inj,halves_toNat,← UInt32.toNat_inj,← UInt32.toNat_inj,UInt64.toNat_toUInt32,
    UInt64.toNat_toUInt32,shift]
  omega

/-- Bytes end on a byte boundary, so more bytes follow them without padding. -/
theorem Wire.bytes_append (position : Nat) (first second : List UInt8) :
    Wire.bytes position (first ++ second) =
      Wire.bytes position first ++
        Wire.bytes (position + (Wire.bytes position first).length) second := by
  have aligned := padding_aligns position
  have none : zeroPadding (position + (padding position + 8*first.length)) = [] := by
    rw [zeroPadding,List.replicate_eq_nil_iff,padding]
    omega
  rw [Wire.bytes_length,Wire.bytes,Wire.bytes,Wire.bytes,none,bitsOfBytes_append,List.nil_append,
    List.append_assoc]

theorem Text.fullRuns_lastRun (length : Nat) :
    runLength*fullRuns length + lastRun length = length := by
  unfold lastRun fullRuns runLength
  omega

theorem Text.decode_eq_ok {bytes : Array UInt8} {found : String} :
    decode bytes = .ok found ↔ found.toUTF8.data = bytes := by
  rw [← ofUtf8?_eq_some,decode]
  cases ofUtf8? bytes with
  | none => exact ⟨fun h => (by cases h),fun h => (by cases h)⟩
  | some text => exact ⟨fun h => by rw [Except.ok.inj h],fun h => by rw [Option.some.inj h]⟩

/-- No run is longer than the buffer it is read into. -/
theorem Text.lastRun_le (length : Nat) : lastRun length ≤ runLength := by
  unfold lastRun fullRuns runLength
  omega

namespace Cursor
variable {α : Type} {c : Cursor} (checks : Bool)

/-! On a reader nothing is sent, so directives come down to these. -/

theorem int_eq [IntTarget α] (min max : Int32) (kept : α) (c : Cursor) :
    Directive.int (stream checks) min max kept c =
      Step.given (Range.ofBounds min max) kept c fun range =>
      ((stream checks).integer min max 0 c).andThen kept fun found c =>
      Directive.store (stream checks) kept c (range.accept found.toInt) := rfl

theorem bitRun_eq [BitsTarget α] (count : Nat) (kept : α) (c : Cursor) :
    Directive.bits (stream checks) count kept c =
      Step.given (permitCount count) kept c fun _ =>
      ((stream checks).bits count 0 c).andThen kept fun found c =>
      Directive.store (stream checks) kept c (acceptWord found) := rfl

theorem text_eq (size : Nat) (kept : String) (c : Cursor) :
    Directive.text (stream checks) size kept c =
      Step.given (Text.maxLength size) kept c fun max =>
      (Directive.int (stream checks) 0 max (0 : Int32) c).andThen kept fun length c =>
      (Directive.textBytes (stream checks) length.toNatClampNeg c).andThen kept fun bytes c =>
      Directive.store (stream checks) kept c (Text.decode bytes) := rfl

theorem relative_eq (previous kept : UInt32) (c : Cursor) :
    Directive.relative (stream checks) previous kept c =
      (Directive.bool (stream checks) false c).andThen kept fun one s =>
      if one then Directive.store (stream checks) kept s (Relative.advance previous 1)
      else Directive.bucketed (stream checks) previous kept 0 Relative.buckets s := rfl

theorem sequenceRelative_eq (first kept : UInt16) (c : Cursor) :
    Directive.sequenceRelative (stream checks) first kept c =
      (Directive.relative (stream checks) first.toUInt32 0 c).andThen kept fun found s =>
      Directive.store (stream checks) kept s (Relative.fold first found) := rfl

theorem ackRelative_eq (sequence kept : UInt16) (c : Cursor) :
    Directive.ackRelative (stream checks) sequence kept c =
      (Directive.bool (stream checks) false c).andThen kept fun near s =>
      if near then
        (Directive.int (stream checks) 1 Relative.maxAckDelta (0 : Int32) s).andThen kept
          fun delta s =>
          Directive.store (stream checks) kept s (.ok (sequence - UInt16.ofInt delta.toInt))
      else Directive.bits (stream checks) 16 kept s := rfl

theorem address_eq (F : AddressFormat α) (kept : α) (c : Cursor) :
    Directive.address (stream checks) F kept c =
      (Directive.text (stream checks) AddressFormat.bufferSize "" c).andThen kept fun found s =>
      Directive.store (stream checks) kept s (F.accept found) := rfl

theorem permitCount_reads {count : Nat} {permits : UInt32 → Prop} {wire : UInt32 → List Bool}
    {kept : UInt32} {step : Step Cursor UInt32}
    (h : 1 ≤ count ∧ count ≤ 32 → c.Reads permits wire step) :
    c.Reads (fun w => (1 ≤ count ∧ count ≤ 32) ∧ permits w) wire
      (Step.given (permitCount count) kept c fun _ => step) := by
  unfold permitCount
  by_cases allowed : 1 ≤ count ∧ count ≤ 32
  · rw [if_pos allowed,Step.given_ok]
    exact (h allowed).congr (fun _ => and_iff_right allowed) fun _ _ => rfl
  · rw [if_neg allowed]
    exact reads_fail fun _ permitted => allowed permitted.1

theorem bits_reads (count : Nat) (kept : UInt32) :
    c.Reads (fun w => (1 ≤ count ∧ count ≤ 32) ∧ w.toNat < 2^count)
      (fun w => bitsOf count w.toNat) ((stream checks).bits count kept c) :=
  permitCount_reads fun allowed => reads_word kept allowed.2

/-- The offset of a value is read back, and any pattern that has a value is its offset. -/
theorem integer_reads (min max kept : Int32) :
    c.Reads (fun found : Int32 => Between min max found.toInt)
      (fun found => Wire.integer min max found.toInt) ((stream checks).integer min max kept c) := by
  by_cases proper : min < max
  · let r : Range := ⟨min,max,proper⟩
    have shape : (stream checks).integer min max kept c =
        (c.takeWord r.bits 0).andThen kept fun found c =>
          Step.given (r.ofOffset found) kept c fun found => .done found c := by
      simp only [stream,Range.ofBounds_of_lt proper,Step.given_ok,takeWord]
      cases c.take r.bits <;> rfl
    rw [shape]
    apply (reads_word 0 r.bits_le).store checks
    · intro value
      constructor
      · intro between
        have inside := (r.contains_iff _).mpr between.2
        exact ⟨r.offset value,Range.offset_lt inside,Range.ofOffset_offset inside⟩
      · rintro ⟨part,-,found⟩
        exact ⟨proper,(r.contains_iff _).mp (Range.ofOffset_ok found).1⟩
    · intro part value _ found
      rw [← (Range.ofOffset_ok found).2,Range.offset_toNat]
      rfl
  · simp only [stream,Range.ofBounds_of_not_lt proper]
    exact reads_fail fun _ permitted => proper permitted.1

theorem bytes_reads {n : Nat} (kept : Vector UInt8 n) :
    c.Reads (fun _ => True) (fun found : Vector UInt8 n => Wire.bytes c.position found.toList)
      ((stream checks).bytes kept c) := by
  change c.Reads _ _ (c.skipPadding.andThen kept fun _ c => c.fill kept)
  refine reads_padding.andThen (fun value => ?_) (fun part value _ _ => rfl) fun part _ =>
    reads_fill kept
  exact ⟨fun _ => ⟨(),trivial,trivial⟩,fun _ => trivial⟩

theorem check_reads :
    c.Reads (fun _ => True) (fun _ => if checks then Wire.check c.position else [])
      ((stream checks).check c) := by
  cases checks with
  | false => exact ⟨fun _ _ _ => rfl,fun small _ => ⟨trivial,⟨List.nil_prefix,small⟩,rfl⟩⟩
  | true =>
    have shape : (stream true).check c = c.skipPadding.andThen () fun _ c =>
        (c.takeWord 32 0).andThen () fun found c =>
        Step.given (if found = checkWord then .ok () else reject (.checkFailed checkWord found))
          () c fun found => .done found c := by
      simp only [stream,if_true,takeWord]
      congr 1
      funext _ c
      cases c.take 32 with
      | error failure => rfl
      | ok taken =>
        simp only [Step.given_ok,Step.andThen_done]
        split <;> rfl
    have word : ∀ d : Cursor, d.Reads (fun _ => True) (fun _ => bitsOf 32 checkWord.toNat)
        ((d.takeWord 32 0).andThen () fun found c =>
          Directive.store (stream true) () c
            (if found = checkWord then .ok () else reject (.checkFailed checkWord found))) := by
      intro d
      apply (reads_word 0 (by decide)).store true
      · intro value
        exact ⟨fun _ => ⟨checkWord,by decide,rfl⟩,fun _ => trivial⟩
      · intro word value _ found
        split at found
        · next same => rw [same]
        · cases found
    rw [shape]
    refine reads_padding.andThen (fun value => ?_) (fun part value _ _ => rfl) fun _ _ => word _
    exact ⟨fun _ => ⟨(),trivial,trivial⟩,fun _ => trivial⟩

theorem int_reads [IntTarget α] (min max : Int32) (kept : α) :
    c.Reads (fun found : α => Between min max (IntTarget.toInt found))
      (fun found => Wire.integer min max (IntTarget.toInt found))
      (Directive.int (stream checks) min max kept c) := by
  rw [int_eq]
  by_cases proper : min < max
  · let r : Range := ⟨min,max,proper⟩
    rw [Range.ofBounds_of_lt proper,Step.given_ok]
    apply (integer_reads checks min max 0).store checks
    · intro value
      constructor
      · intro between
        have exact := between.ofInt_toInt
        refine ⟨Int32.ofInt (IntTarget.toInt value),by rwa [exact],Range.accept_eq_ok.mpr ?_⟩
        rw [exact]
        exact ⟨(r.contains_iff _).mpr between.2,rfl⟩
      · rintro ⟨part,between,found⟩
        rw [(Range.accept_eq_ok.mp found).2]
        exact between
    · intro part value _ found
      rw [(Range.accept_eq_ok.mp found).2]
  · rw [Range.ofBounds_of_not_lt proper]
    exact reads_fail fun _ permitted => proper permitted.1

theorem bitRun_reads [BitsTarget α] (count : Nat) (kept : α) :
    c.Reads
      (fun found : α => (1 ≤ count ∧ count ≤ 32) ∧ (BitsTarget.toWord found).toNat < 2^count)
      (fun found => bitsOf count (BitsTarget.toWord found).toNat)
      (Directive.bits (stream checks) count kept c) := by
  rw [bitRun_eq,permitCount]
  by_cases allowed : 1 ≤ count ∧ count ≤ 32
  · rw [if_pos allowed,Step.given_ok]
    apply (bits_reads checks count 0).store checks
    · intro value
      constructor
      · exact fun permitted => ⟨_,permitted,acceptWord_eq_ok.mpr rfl⟩
      · rintro ⟨part,sent,found⟩
        rwa [acceptWord_eq_ok.mp found]
    · intro part value _ found
      rw [acceptWord_eq_ok.mp found]
  · rw [if_neg allowed]
    exact reads_fail fun _ permitted => allowed permitted.1

theorem bool_reads (kept : Bool) :
    c.Reads (fun _ => True) (fun found : Bool => [found])
      (Directive.bool (stream checks) kept c) := by
  apply (bits_reads checks 1 _).store checks
  · intro value
    refine ⟨fun _ => ⟨if value then 1 else 0,⟨by decide,?_⟩,?_⟩,fun _ => trivial⟩
    · cases value <;> decide
    · cases value <;> rfl
  · intro part value sent found
    have bit : part.toNat = 0 ∨ part.toNat = 1 := by have := sent.2; omega
    obtain rfl := Except.ok.inj found
    rcases bit with zero | one
    · rw [UInt32.toNat_inj.mp (zero.trans (by rfl : 0 = (0 : UInt32).toNat))]
      rfl
    · rw [UInt32.toNat_inj.mp (one.trans (by rfl : 1 = (1 : UInt32).toNat))]
      rfl

theorem u32_reads (kept : UInt32) :
    c.Reads (fun _ => True) (fun found : UInt32 => bitsOf 32 found.toNat)
      (Directive.u32 (stream checks) kept c) := by
  refine (bits_reads checks 32 kept).congr (fun value => ?_) fun _ _ => rfl
  exact ⟨fun _ => ⟨by decide,value.toNat_lt⟩,fun _ => trivial⟩

theorem u64_reads (kept : UInt64) :
    c.Reads (fun _ => True) (fun found : UInt64 => bitsOf 64 found.toNat)
      (Directive.u64 (stream checks) kept c) := by
  have high : ∀ (low : UInt32) (d : Cursor), d.Reads (fun found : UInt64 => found.toUInt32 = low)
      (fun found => bitsOf 32 (found >>> 32).toUInt32.toNat)
      ((Directive.u32 (stream checks) (kept >>> 32).toUInt32 d).andThen kept fun high s =>
        Directive.store (stream checks) kept s
          (.ok ((high.toUInt64 <<< 32) ||| low.toUInt64))) := by
    intro low d
    apply (u32_reads checks _).store checks
    · intro value
      constructor
      · exact fun same => ⟨_,trivial,congrArg _ ((halves_eq _ low value).mpr ⟨same,rfl⟩)⟩
      · rintro ⟨part,-,found⟩
        exact ((halves_eq part low value).mp (Except.ok.inj found)).1
    · intro part value _ found
      rw [((halves_eq part low value).mp (Except.ok.inj found)).2]
  refine (u32_reads checks kept.toUInt32).andThen (fun value => ?_)
    (fun low value _ same => ?_) fun low _ => high low _
  · exact ⟨fun _ => ⟨value.toUInt32,trivial,rfl⟩,fun _ => trivial⟩
  · rw [← halves_bits,same]

theorem keep_reads {wire : α → List Bool} {kept : α} {step : Step Cursor α}
    (h : c.Reads (fun _ => True) wire step) :
    c.Reads (fun _ => True) wire (step.andThen kept fun found s =>
      Directive.store (stream checks) kept s (.ok found)) := by
  apply h.store checks
  · intro value
    exact ⟨fun _ => ⟨value,trivial,rfl⟩,fun _ => trivial⟩
  · intro part value _ found
    rw [Except.ok.inj found]

theorem drop_gathered (gathered more : Array UInt8) :
    (gathered ++ more).toList.drop gathered.size = more.toList := by
  rw [Array.toList_append,List.drop_left' Array.length_toList]

/-- The first run moves to a byte boundary, so the runs after it follow without padding. -/
theorem gather_reads {last : Nat} (few : last ≤ Text.runLength) (full : Nat)
    (buffer : Vector UInt8 Text.runLength) (gathered : Array UInt8) :
    c.Reads
      (fun found => ∃ more : List UInt8, more.length = Text.runLength*full + last ∧
        found = gathered ++ more.toArray)
      (fun found => Wire.bytes c.position (found.toList.drop gathered.size))
      (Directive.gather (stream checks) last full buffer gathered c) := by
  induction full generalizing buffer gathered c with
  | zero =>
    apply (bytes_reads checks (buffer.take last)).map
    · intro found
      constructor
      · rintro ⟨more,length,rfl⟩
        have size : more.toArray.size = min last Text.runLength := by
          rw [List.size_toArray,length,Nat.min_eq_left few]
          omega
        exact ⟨⟨more.toArray,size⟩,trivial,rfl⟩
      · rintro ⟨run,-,rfl⟩
        refine ⟨run.toList,?_,rfl⟩
        rw [Vector.length_toList,Nat.min_eq_left few]
        omega
    · intro run _
      rw [drop_gathered]
      rfl
  | succ full ih =>
    refine (bytes_reads checks buffer).andThen (fun found => ?_) (fun run found _ rest => ?_)
      fun run _ => ih run _
    · constructor
      · rintro ⟨more,length,rfl⟩
        rw [Nat.mul_succ] at length
        have size : (more.take Text.runLength).length = Text.runLength :=
          List.length_take_of_le (by omega)
        refine ⟨⟨(more.take Text.runLength).toArray,size⟩,trivial,more.drop Text.runLength,?_,?_⟩
        · rw [List.length_drop]
          omega
        · change _ = gathered ++ (more.take Text.runLength).toArray ++ _
          rw [Array.append_assoc,List.append_toArray (more.take _) (more.drop _),
            List.take_append_drop]
      · rintro ⟨run,-,more,length,rfl⟩
        refine ⟨run.toList ++ more,?_,?_⟩
        · rw [List.length_append,Vector.length_toList,length,Nat.mul_succ]
          omega
        · rw [← List.append_toArray,← Array.append_assoc]
          rfl
    · obtain ⟨more,-,rfl⟩ := rest
      have here : (gathered ++ run.toArray ++ more.toArray).toList.drop gathered.size =
          run.toList ++ more := by
        rw [Array.append_assoc,drop_gathered,Array.toList_append]
        rfl
      rw [here,drop_gathered]
      exact Wire.bytes_append c.position run.toList more

theorem textBytes_reads (length : Nat) :
    c.Reads (fun found => found.size = length) (fun found => Wire.bytes c.position found.toList)
      (Directive.textBytes (stream checks) length c) := by
  refine (gather_reads checks (Text.lastRun_le length) (Text.fullRuns length)
    (Vector.replicate _ 0) #[]).congr (fun found => ?_) fun _ _ => rfl
  rw [Text.fullRuns_lastRun]
  constructor
  · exact fun size => ⟨found.toList,size,by simp⟩
  · rintro ⟨more,length,rfl⟩
    simpa using length

theorem decodedText_reads (kept : String) {length : Int32} (natural : 0 ≤ length.toInt) :
    c.Reads (fun found : String => (found.utf8ByteSize : Int) = length.toInt)
      (fun found => Wire.bytes c.position found.toUTF8.data.toList)
      ((Directive.textBytes (stream checks) length.toNatClampNeg c).andThen kept fun bytes c =>
        Directive.store (stream checks) kept c (Text.decode bytes)) := by
  have same : length.toNatClampNeg = length.toInt.toNat := rfl
  apply (textBytes_reads checks _).store checks
  · intro value
    constructor
    · intro size
      refine ⟨_,?_,Text.decode_eq_ok.mpr rfl⟩
      change value.utf8ByteSize = _
      omega
    · rintro ⟨part,size,found⟩
      rw [← Text.decode_eq_ok.mp found] at size
      change value.utf8ByteSize = _ at size
      omega
  · intro part value _ found
    rw [Text.decode_eq_ok.mp found]

theorem text_reads (size : Nat) (kept : String) :
    c.Reads
      (fun found : String => (2 ≤ size ∧ size ≤ 2^31) ∧ found.utf8ByteSize ≤ size - 1)
      (Wire.text size c.position) (Directive.text (stream checks) size kept c) := by
  rw [text_eq]
  by_cases proper : 2 ≤ size ∧ size ≤ 2^31
  · have max : (Int32.ofNat (size - 1)).toInt = (size - 1 : Nat) :=
      Int32.toInt_ofNat_of_lt (by omega)
    rw [Text.maxLength_of_proper proper,Step.given_ok]
    refine (int_reads checks 0 (Int32.ofNat (size - 1)) (0 : Int32)).andThen (fun value => ?_)
      (fun length value _ same => ?_) fun length between =>
        decodedText_reads checks kept between.2.1
    · constructor
      · rintro ⟨-,fits⟩
        obtain ⟨exact,between⟩ := Text.length_between proper fits
        exact ⟨Int32.ofNat value.utf8ByteSize,between,exact.symm⟩
      · rintro ⟨length,between,same⟩
        have below : length.toInt ≤ (Int32.ofNat (size - 1)).toInt := between.2.2
        refine ⟨proper,?_⟩
        omega
    · rw [Wire.text,same]
      rfl
  · rw [Text.maxLength_of_not_proper proper]
    exact reads_fail fun _ permitted => proper permitted.1

/-- A difference in a bucket is added to the number before. -/
theorem advance_reads (previous kept difference : UInt32) {b : Bucket} {low : Nat}
    (proper : b.min < b.max) (start : b.min.toInt = low) :
    c.Reads
      (fun found : UInt32 => previous.toNat + low ≤ found.toNat ∧
        found.toNat ≤ previous.toNat + b.max.toNatClampNeg)
      (fun found => Wire.integer b.min b.max (found - previous).toNat)
      ((Directive.int (stream checks) b.min b.max difference c).andThen kept fun found s =>
        Directive.store (stream checks) kept s (Relative.advance previous found)) := by
  have place : ∀ x : UInt32, IntTarget.toInt x = x.toNat := fun _ => rfl
  have top : b.max.toNatClampNeg = b.max.toInt.toNat := rfl
  have ordered := Int32.lt_iff_toInt_lt.mp proper
  apply (int_reads checks b.min b.max difference).store checks
  · intro value
    constructor
    · rintro ⟨above,below⟩
      have apart := Relative.sub_toNat (show previous.toNat ≤ value.toNat by omega)
      refine ⟨value - previous,⟨proper,?_,?_⟩,Relative.advance_eq_ok.mpr ?_⟩
      · rw [place]; omega
      · rw [place]; omega
      · omega
    · rintro ⟨part,⟨-,above,below⟩,found⟩
      have sum := Relative.advance_eq_ok.mp found
      rw [place] at above below
      omega
  · intro part value _ found
    have sum := Relative.advance_eq_ok.mp found
    have apart := Relative.sub_toNat (show previous.toNat ≤ value.toNat by omega)
    rw [place,show (value - previous).toNat = part.toNat by omega]

/-- With the buckets before ruled out, a bucket is taken for its own differences only. -/
theorem bucketed_reads (previous kept difference : UInt32) {low : Nat} {buckets : List Bucket}
    (contiguous : Bucket.Contiguous low buckets) :
    c.Reads (fun found : UInt32 => previous.toNat + low ≤ found.toNat)
      (fun found => Wire.bucketed found (found - previous) buckets)
      (Directive.bucketed (stream checks) previous kept difference buckets c) := by
  induction buckets generalizing low c with
  | nil =>
    have last : low = Relative.maxDifference + 1 := contiguous
    apply (u32_reads checks kept).store checks
    · intro value
      constructor
      · exact fun above => ⟨value,trivial,Relative.acceptFull_eq_ok.mpr ⟨by omega,rfl⟩⟩
      · rintro ⟨part,-,found⟩
        obtain ⟨far,rfl⟩ := Relative.acceptFull_eq_ok.mp found
        omega
    · intro part value _ found
      rw [(Relative.acceptFull_eq_ok.mp found).2]
      rfl
  | cons b rest ih =>
    obtain ⟨proper,start,contiguous⟩ := contiguous
    have top : b.max.toNatClampNeg = b.max.toInt.toNat := rfl
    have ordered := Int32.lt_iff_toInt_lt.mp proper
    have chosen : ∀ (inside : Bool) (d : Cursor), d.Reads
        (fun found : UInt32 => previous.toNat + low ≤ found.toNat ∧
          (inside = true ↔ found.toNat ≤ previous.toNat + b.max.toNatClampNeg))
        (fun found => if inside then Wire.integer b.min b.max (found - previous).toNat
          else Wire.bucketed found (found - previous) rest)
        (if inside then
          (Directive.int (stream checks) b.min b.max difference d).andThen kept fun found s =>
          Directive.store (stream checks) kept s (Relative.advance previous found)
        else Directive.bucketed (stream checks) previous kept difference rest d) := by
      intro inside d
      cases inside with
      | true =>
        refine (advance_reads checks previous kept difference proper start).congr (fun value => ?_)
          fun _ _ => rfl
        simp
      | false =>
        refine (ih contiguous).congr (fun value => ?_) fun _ _ => rfl
        simp only [Bool.false_eq_true,false_iff]
        omega
    refine (bool_reads checks _).andThen (fun value => ?_) (fun inside value _ chosen => ?_)
      fun inside _ => chosen inside _
    · constructor
      · exact fun above => ⟨decide (value.toNat ≤ previous.toNat + b.max.toNatClampNeg),trivial,
          above,decide_eq_true_iff⟩
      · rintro ⟨inside,-,above,-⟩
        exact above
    · obtain ⟨above,flag⟩ := chosen
      have apart := Relative.sub_toNat (show previous.toNat ≤ value.toNat by omega)
      cases inside with
      | true =>
        have within := flag.mp rfl
        rw [Wire.bucketed,if_pos (by omega)]
        rfl
      | false =>
        have beyond : ¬value.toNat ≤ previous.toNat + b.max.toNatClampNeg :=
          fun within => Bool.false_ne_true (flag.mpr within)
        rw [Wire.bucketed,if_neg (by omega)]
        rfl

/-- What follows the flag of the difference 1. -/
theorem afterOne_reads (previous kept : UInt32) (one : Bool) :
    c.Reads (fun found => previous < found ∧ (one = true ↔ found - previous = 1))
      (fun found => if one then [] else Wire.bucketed found (found - previous) Relative.buckets)
      (if one then Directive.store (stream checks) kept c (Relative.advance previous 1)
        else Directive.bucketed (stream checks) previous kept 0 Relative.buckets c) := by
  cases one with
  | true =>
    apply reads_given
    intro value
    have step : (1 : UInt32).toNat = 1 := rfl
    rw [Relative.advance_eq_ok,step]
    constructor
    · rintro ⟨above,flag⟩
      exact (Relative.sub_eq_one above).mp (flag.mp rfl)
    · intro next
      have above : previous < value := UInt32.lt_iff_toNat_lt.mpr (by omega)
      exact ⟨above,fun _ => (Relative.sub_eq_one above).mpr next,fun _ => rfl⟩
  | false =>
    refine (bucketed_reads checks previous kept 0 Relative.buckets_contiguous).congr
      (fun value => ?_) fun _ _ => rfl
    constructor
    · rintro ⟨above,flag⟩
      have more := UInt32.lt_iff_toNat_lt.mp above
      have : value.toNat ≠ previous.toNat + 1 := fun next =>
        Bool.false_ne_true (flag.mpr ((Relative.sub_eq_one above).mpr next))
      omega
    · intro far
      have above : previous < value := UInt32.lt_iff_toNat_lt.mpr (by omega)
      refine ⟨above,fun no => absurd no Bool.false_ne_true,fun one => ?_⟩
      have next := (Relative.sub_eq_one above).mp one
      omega

/-- The flag of the difference 1 leaves the greater differences to the buckets. -/
theorem relative_reads (previous kept : UInt32) :
    c.Reads (fun found => previous < found) (Wire.relative previous)
      (Directive.relative (stream checks) previous kept c) := by
  rw [relative_eq]
  refine (bool_reads checks _).andThen (fun value => ?_) (fun one value _ chosen => ?_)
    fun one _ => afterOne_reads checks previous kept one
  · constructor
    · exact fun above => ⟨decide (value - previous = 1),trivial,above,decide_eq_true_iff⟩
    · rintro ⟨one,-,above,-⟩
      exact above
  · obtain ⟨above,flag⟩ := chosen
    cases one with
    | true =>
      rw [Wire.relative,if_pos (flag.mp rfl)]
      rfl
    | false =>
      rw [Wire.relative,if_neg fun one => Bool.false_ne_true (flag.mpr one)]
      rfl

theorem sequenceRelative_reads (first kept : UInt16) :
    c.Reads (fun found => first ≠ found) (Wire.sequenceRelative first)
      (Directive.sequenceRelative (stream checks) first kept c) := by
  rw [sequenceRelative_eq]
  apply (relative_reads checks first.toUInt32 0).store checks
  · intro value
    constructor
    · exact fun apart => ⟨_,Relative.lt_unwrap.mpr apart,
        (Relative.fold_eq_ok (Relative.lt_unwrap.mpr apart)).mpr rfl⟩
    · rintro ⟨part,above,found⟩
      rw [← (Relative.fold_eq_ok above).mp found] at above
      exact Relative.lt_unwrap.mp above
  · intro part value above found
    rw [Wire.sequenceRelative,(Relative.fold_eq_ok above).mp found]

/-- The form that a writer chooses is taken, be it the distance or the number itself. -/
theorem ackRelative_accepts (sequence kept : UInt16) :
    c.Accepts (fun _ => True) (Wire.ackRelative sequence)
      (Directive.ackRelative (stream checks) sequence kept c) := by
  have near : ∀ (near : Bool) (d : Cursor), d.Accepts
      (fun found => near = decide (Relative.behind sequence found ≤ 64))
      (fun found => if near then
          Wire.integer 1 Relative.maxAckDelta (Relative.behind sequence found)
        else bitsOf 16 found.toNat)
      (if near then
        (Directive.int (stream checks) 1 Relative.maxAckDelta (0 : Int32) d).andThen kept
          fun delta s =>
          Directive.store (stream checks) kept s (.ok (sequence - UInt16.ofInt delta.toInt))
      else Directive.bits (stream checks) 16 kept d) := by
    intro near d value chosen sees
    have below := value.toNat_lt
    by_cases close : Relative.behind sequence value ≤ 64
    · obtain rfl : near = true := chosen.trans (decide_eq_true close)
      obtain ⟨delta,between⟩ := Relative.behind_between close
      simp only [if_true] at sees ⊢
      rw [← delta] at sees
      rw [(int_reads checks 1 Relative.maxAckDelta 0).accepts _ between sees,Step.andThen_done,
        show (Int32.ofNat (Relative.behind sequence value)).toInt = _ from delta,
        Relative.sub_behind]
      simp only [delta]
      rfl
    · obtain rfl : near = false := chosen.trans (decide_eq_false close)
      exact (bitRun_reads checks 16 kept).accepts value ⟨by decide,below⟩ sees
  rw [ackRelative_eq]
  refine (bool_reads checks false).accepts.andThen (fun value _ => ?_) fun flag _ => near flag _
  refine ⟨_,trivial,rfl,?_⟩
  by_cases close : Relative.behind sequence value ≤ 64
  · rw [Wire.ackRelative,if_pos close,decide_eq_true close]
    rfl
  · rw [Wire.ackRelative,if_neg close,decide_eq_false close]
    rfl

theorem address_accepts (F : AddressFormat α) (kept : α) :
    c.Accepts
      (fun found => (F.isValid found ∧ (F.write found).utf8ByteSize ≤ 255) ∧
        F.read? (F.write found) = some found)
      (fun found => Wire.text AddressFormat.bufferSize c.position (F.write found))
      (Directive.address (stream checks) F kept c) := by
  intro value permitted sees
  have found := (text_reads checks AddressFormat.bufferSize "").accepts (F.write value)
    ⟨by decide,permitted.1.2⟩ sees
  rw [address_eq,found,Step.andThen_done,AddressFormat.accept,permitted.2]
  simp only [if_pos permitted.1.1]
  rfl

end Cursor

namespace Leaf

/-- The wire form leaves nothing of the value out. -/
def Exact (scope : Scope) : (kind : Leaf) → kind.Value → Prop
  | bits _ count, value => (BitsTarget.toWord value).toNat < 2^(count scope).toNat
  | rawBits count, value => (UInt32.toNat value) < 2^(count scope).toNat
  | address .socket, value => Socket.withoutFlow value = value
  | address .endpoint, value => (Endpoint.socket value).withoutFlow = Endpoint.socket value
  | _, _ => True

/-- Of an address the wire form leaves out the flow label and nothing else. -/
theorem exact_address {scope : Scope} {type : AddressType} {value : type.Carrier} :
    (address type).Exact scope value ↔ type.flow value = 0 := by
  cases type with
  | socket => exact Socket.withoutFlow_eq_self
  | ip => exact iff_of_true trivial rfl
  | endpoint =>
    obtain ⟨socket⟩ := value
    exact Socket.withoutFlow_eq_self

/-- Each value has one form on the wire. -/
def IsStrict : Leaf → Prop
  | ackRelative _ | address _ => False
  | _ => True

/-- What may be sent and comes back as it was. -/
def Fits (scope : Scope) (kind : Leaf) (value : kind.Value) : Prop :=
  kind.Permits scope value ∧ kind.Exact scope value

theorem run_reads (checks : Bool) (scope : Scope) {c : Cursor} {kind : Leaf}
    (strict : kind.IsStrict) (kept : kind.Value) :
    c.Reads (kind.Fits scope) (kind.wire checks scope c.position)
      (kind.run (Cursor.stream checks) scope kept c) := by
  -- Most kinds have nothing beyond what a writer demands.
  have plain : ∀ {wire : kind.Value → List Bool} {step : Step Cursor kind.Value},
      (∀ value, kind.Exact scope value) → c.Reads (kind.Permits scope) wire step →
      c.Reads (kind.Fits scope) wire step := fun exact reads =>
    reads.congr (fun value => and_iff_left (exact value)) fun _ _ => rfl
  cases kind with
  | int type min max =>
      exact plain (fun _ => trivial) (Cursor.int_reads checks (α := type.Carrier) _ _ kept)
  | bits type count => exact Cursor.bitRun_reads checks (α := type.Carrier) _ kept
  | rawInt min max => exact plain (fun _ => trivial) (Cursor.integer_reads checks _ _ kept)
  | rawBits count => exact Cursor.bits_reads checks _ kept
  | bool => exact plain (fun _ => trivial) (Cursor.bool_reads checks kept)
  | u32 => exact plain (fun _ => trivial) (Cursor.u32_reads checks kept)
  | u64 => exact plain (fun _ => trivial) (Cursor.u64_reads checks kept)
  | float =>
      exact plain (fun _ => trivial) (Cursor.keep_reads checks (Cursor.u32_reads checks kept))
  | double =>
      exact plain (fun _ => trivial) (Cursor.keep_reads checks (Cursor.u64_reads checks kept))
  | bytes length => exact plain (fun _ => trivial) (Cursor.bytes_reads checks kept)
  | text size => exact plain (fun _ => trivial) (Cursor.text_reads checks _ kept)
  | align => exact plain (fun _ => trivial) Cursor.reads_padding
  | check => exact plain (fun _ => trivial) (Cursor.check_reads checks)
  | relative previous => exact plain (fun _ => trivial) (Cursor.relative_reads checks _ kept)
  | sequenceRelative first =>
      exact plain (fun _ => trivial) (Cursor.sequenceRelative_reads checks _ kept)
  | address type => exact strict.elim
  | ackRelative sequence => exact strict.elim

/-- An address is found again in the text that it is sent as, if that leaves nothing out. -/
theorem format_read {type : AddressType} {value : type.Carrier} {scope : Scope}
    (fits : (address type).Fits scope value) :
    type.format.read? (type.format.write value) = some value := by
  cases type with
  | ip => exact Ip.format_read value
  | socket => exact (Socket.format_read value).trans (congrArg some fits.2)
  | endpoint =>
    refine (Endpoint.format_read value).trans (congrArg some ?_)
    rw [show Socket.withoutFlow _ = _ from fits.2]

/-- Every kind of leaf takes what a writer sends for a value that fits. -/
theorem run_accepts (checks : Bool) (scope : Scope) {c : Cursor} (kind : Leaf) (kept : kind.Value) :
    c.Accepts (kind.Fits scope) (kind.wire checks scope c.position)
      (kind.run (Cursor.stream checks) scope kept c) := by
  by_cases strict : kind.IsStrict
  · exact (run_reads checks scope strict kept).accepts
  · intro value fits sees
    cases kind with
    | ackRelative sequence => exact Cursor.ackRelative_accepts checks _ kept value trivial sees
    | address type =>
      exact Cursor.address_accepts checks type.format kept value ⟨fits.1,format_read fits⟩ sees
    | _ => exact absurd trivial strict

end Leaf
end Bitwire
