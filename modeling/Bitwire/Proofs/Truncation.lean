import Bitwire.Proofs.RoundTrip

/-! Messages that lost their end or gained another. A reader of a cut input does as it would on the
whole input until it runs out, and it does run out, since every byte holds a bit that some
call takes. Behind a message nothing is taken, and what is left is counted. -/
namespace Bitwire

/-- The failure of a reader that asks for more than there is. -/
def Failure.IsShortage (failure : Failure) : Prop := failure = .error .endOfBuffer

namespace Cursor

/-- The same place in an input that was cut off. -/
structure Cut (limit : Nat) (c d : Cursor) : Prop where
  bits : d.bits = c.bits.take limit
  position : c.position = d.position
  within : d.position ≤ limit

variable {limit : Nat} {c d : Cursor} {α : Type}

theorem Cut.rest (h : c.Cut limit d) : d.rest <+: c.rest := by
  have ahead : d.bits <+: c.bits := h.bits ▸ List.take_prefix _ _
  simpa only [Cursor.rest,h.position] using ahead.drop d.position

theorem Cut.take (h : c.Cut limit d) (n : Nat) (kept : α)
    {next next' : List Bool × Cursor → Step Cursor α}
    (go : ∀ bits c d, c.Cut limit d →
      (next (bits,c)).Follows (Cut limit) Failure.IsShortage (next' (bits,d))) :
    (Step.given (c.take n) kept c next).Follows (Cut limit) Failure.IsShortage
      (Step.given (d.take n) kept d next') := by
  have ahead := h.rest
  unfold Cursor.take
  rw [h.position]
  by_cases full : 2^64 ≤ d.position + n
  · simp only [if_pos full]
    exact .fail _ _ h
  by_cases short : d.rest.length < n
  · simp only [if_neg full,if_pos short]
    exact .gaveUp _ rfl rfl
  obtain ⟨more,split⟩ := ahead
  have enough : ¬c.rest.length < n := by
    rw [← split,List.length_append]
    omega
  have same : c.rest.take n = d.rest.take n := by
    rw [← split,List.take_append_of_le_length (by omega)]
  simp only [if_neg full,if_neg enough,if_neg short,same,Step.given_ok]
  have position : (c.skip n).position = (d.skip n).position := congrArg (· + n) h.position
  have within : d.position + n ≤ limit := by
    have := h.within
    rw [Cursor.rest,List.length_drop,h.bits,List.length_take] at short
    omega
  exact go _ _ _ ⟨h.bits,position,within⟩

theorem Cut.skipPadding (h : c.Cut limit d) :
    c.skipPadding.Follows (Cut limit) Failure.IsShortage d.skipPadding := by
  unfold Cursor.skipPadding
  rw [h.position]
  refine h.take _ () fun bits c d h => ?_
  dsimp only
  split
  · exact .fail _ _ h
  · exact .done _ h

theorem Cut.fill (h : c.Cut limit d) {n : Nat} (out : Vector UInt8 n) :
    (c.fill out).Follows (Cut limit) Failure.IsShortage (d.fill out) :=
  h.take _ out fun _ _ _ h => .done _ h

/-- A cut input shows in no answer but the one that it is too short. -/
theorem stream_cut (limit : Nat) (checks : Bool) :
    (stream checks).Follows (stream checks) (Cut limit) Failure.IsShortage where
  reading := rfl
  reader _ _ := rfl
  integer min max value _ _ h := .given _ _ h fun range => h.take _ _ fun _ _ _ h =>
    .given _ _ h fun found => .done found h
  bits count value _ _ h := .given _ _ h fun _ => h.take _ _ fun _ _ _ h => .done _ h
  bytes data _ _ h := h.skipPadding.andThen data fun _ _ _ h => h.fill data
  align h := h.skipPadding
  check h := by
    simp only [stream]
    split
    · refine h.skipPadding.andThen () fun _ _ _ h => h.take _ () fun bits c d h => ?_
      dsimp only
      split
      · exact .done _ h
      · exact .fail _ _ h
    · exact .done _ h
  object _ go _ _ h := go _ _ h

/-- Reading ends badly where whole bytes are left. -/
theorem finish_extra {more : List UInt8} (some : more ≠ []) (h : c.Sees (zeroPadding c.position))
    (last : c.rest = zeroPadding c.position ++ bitsOfBytes more) :
    c.finish.result = reject (.extraData more.length) := by
  have skipped := reads_padding.accepts () trivial h
  have left : (c.skip (zeroPadding c.position).length).rest.length/8 = more.length := by
    rw [skip_rest,last,List.drop_left,bitsOfBytes_length]
    omega
  have positive := List.length_pos_of_ne_nil some
  rw [finish,skipped,Step.andThen_done,left,if_neg (by omega)]
  rfl

end Cursor

namespace Record
variable {checks : Bool} {fields : List Field} {sent : Record fields} {bytes : List UInt8}

/-- The last byte holds a bit of the message, so the reader needs it. -/
theorem decode_cut (free : Throughout Field.IsModeFree fields) (causal : Causal fields)
    (meets : sent.Meets Leaf.Fits .empty)
    (bits : bitsOfBytes bytes = sent.wire checks .empty 0 ++
      zeroPadding (sent.wire checks .empty 0).length)
    (room : 8*bytesFor (sent.wire checks .empty 0).length < 2^64) {k : Nat}
    (proper : k < bytes.length) (target : Record fields) :
    target.decode checks (bytes.take k) = reject .endOfBuffer := by
  have sees := (Cursor.start_sees bits room).1
  obtain ⟨received,run,-⟩ := sent.run_received free target (causal sent) meets sees
  have cut : (Cursor.start (bitsOfBytes bytes)).Cut (8*k)
      (Cursor.start (bitsOfBytes (bytes.take k))) :=
    ⟨(Unpacker.take_bitsOfBytes k bytes).symm,rfl,Nat.zero_le _⟩
  have follows := (Cursor.stream_cut (8*k) checks).record .empty
    (throughout_all (fun _ _ => rfl) fields) target cut
  rw [run] at follows
  cases follows with
  | gaveUp failure failed excused =>
    apply decode_rejected
    rw [Step.andThen,failed]
    exact congrArg Except.error excused
  | alike same =>
    -- The reader would stand behind the message, which is longer than the cut input.
    have position : 0 + (sent.wire checks .empty 0).length = _ := same.state.position
    have within := same.state.within
    have length := congrArg List.length bits
    rw [bitsOfBytes_length,List.length_append,zeroPadding_length] at length
    have few := padding_lt (sent.wire checks .empty 0).length
    omega

/-- The reader stops behind the message and its padding, whatever follows. -/
theorem decode_extended (free : Throughout Field.IsModeFree fields) (causal : Causal fields)
    (meets : sent.Meets Leaf.Fits .empty)
    (bits : bitsOfBytes bytes = sent.wire checks .empty 0 ++
      zeroPadding (sent.wire checks .empty 0).length)
    (room : 8*bytesFor (sent.wire checks .empty 0).length < 2^64) {extra : List UInt8}
    (some : extra ≠ []) (target : Record fields) :
    target.decode checks (bytes ++ extra) = reject (.extraData extra.length) := by
  let wire := sent.wire checks .empty 0
  let c := Cursor.start (bitsOfBytes (bytes ++ extra))
  have ahead : c.rest = (wire ++ zeroPadding wire.length) ++ bitsOfBytes extra := by
    rw [← bits,← bitsOfBytes_append]
    rfl
  have reached : c.position + (wire ++ zeroPadding wire.length).length < 2^64 := by
    rw [List.length_append,zeroPadding_length,← bytesFor_eq]
    exact (Nat.zero_add _).symm ▸ room
  obtain ⟨message,zeros⟩ := Cursor.sees_append.mp ⟨ahead ▸ List.prefix_append _ _,reached⟩
  have place : (c.skip wire.length).position = wire.length := Nat.zero_add _
  have left : (c.skip wire.length).rest = zeroPadding wire.length ++ bitsOfBytes extra := by
    rw [Cursor.skip_rest,ahead,List.append_assoc,List.drop_left]
  obtain ⟨received,run,-⟩ := sent.run_received free target (causal sent) meets message
  have finish : (c.skip wire.length).finish.result = reject (.extraData extra.length) :=
    Cursor.finish_extra some (by rwa [place]) (by rwa [place])
  apply decode_rejected
  have stopped : target.run (Cursor.stream checks) .empty c =
    .done received (c.skip wire.length) := run
  rw [stopped]
  exact finish

/-- Bytes of a message without flow labels that are not all there are found to be too few, however
many are missing, and bytes behind it are found to be too many, just as many as there are. -/
theorem decode_resized (checks : Bool) (free : Throughout Field.IsModeFree fields)
    (causal : Causal fields) (sent : Record fields) (meets : sent.Meets Leaf.Fits .empty)
    (counted : ∀ size, sent.measure checks = .ok size → 8*bytesFor size < 2^64) :
    ∃ bytes, sent.encode checks = .ok bytes ∧ ∀ target : Record fields,
      (∀ k < bytes.length, target.decode checks (bytes.take k) = reject .endOfBuffer) ∧
      ∀ extra, extra ≠ [] →
        target.decode checks (bytes ++ extra) = reject (.extraData extra.length) := by
  obtain ⟨bytes,encoded,bits⟩ := encode_sent checks free meets.permits
  have room := counted _ (measure_sent checks free meets.permits)
  refine ⟨bytes,encoded,fun target => ⟨fun k proper => ?_,fun extra some => ?_⟩⟩
  · exact decode_cut free causal meets bits room proper target
  · exact decode_extended free causal meets bits room some target

/-- The address has a zone, and the message ends off a byte boundary. -/
theorem decode_resized_beacon :
    let sent : Record beaconFields :=
      .cons (.leaf (Socket.v6 ⟨[0xfe80,0,0,0,0,0,0,1],rfl⟩ 40000 0 2)) <|
      .cons (.leaf (5 : UInt8)) .nil
    ∃ bytes, sent.encode true = .ok bytes ∧ ∀ target : Record beaconFields,
      (∀ k < bytes.length, target.decode true (bytes.take k) = reject .endOfBuffer) ∧
      ∀ extra, extra ≠ [] →
        target.decode true (bytes ++ extra) = reject (.extraData extra.length) := by
  intro sent
  have size : sent.measure true = .ok 147 := by decide +kernel
  have address : (Leaf.address .socket).Permits .empty
    (Socket.v6 ⟨[0xfe80,0,0,0,0,0,0,1],rfl⟩ 40000 0 2) := by decide +kernel
  have slots : (Leaf.bits .u8 fun _ => 3).Permits .empty (5 : UInt8) := by decide
  have narrow : (BitsTarget.toWord (5 : UInt8)).toNat < 2^(3 : Int).toNat := by decide
  have meets : sent.Meets Leaf.Fits .empty :=
    ⟨fun _ => ⟨address,Leaf.exact_address.mpr rfl⟩,fun _ => ⟨slots,narrow⟩,trivial⟩
  refine decode_resized true beaconFields_free beaconFields_causal sent meets ?_
  intro found measured
  rw [← Except.ok.inj (size.symm.trans measured)]
  decide

/-- A flow label is not sent, but a condition can demand one. Behind this address the writer sends a
word, and a reader, who finds no label, takes none. So the message without its last four bytes is
taken for one, and behind all of it four bytes more are left than were added. -/
theorem decode_resized_labelled :
    let sent := labelled .u32 (5 : UInt32)
    let bytes : List UInt8 := [7,0x5b,0x3a,0x3a,0x31,0x5d,0x3a,0x31,5,0,0,0]
    let received : Record (labelledFields .u32) :=
      .cons (.leaf (Socket.v6 ⟨[0,0,0,0,0,0,0,1],rfl⟩ 1 0 0)) (.cons (.leaf (0 : UInt32)) .nil)
    let target := Record.initial (labelledFields .u32)
    Throughout Field.IsModeFree (labelledFields .u32) ∧ Causal (labelledFields .u32) ∧
      sent.Meets Leaf.Permits .empty ∧ sent.encode true = .ok bytes ∧
      target.decode true (bytes.take 8) = .ok received ∧
      target.decode true (bytes ++ [0]) = reject (.extraData 5) := by
  refine ⟨labelledFields_free .u32,labelledFields_causal fun _ _ => rfl,?_,?_,?_,?_⟩
  · exact labelled_permits fun _ => trivial
  · decide +kernel
  · rfl
  · rfl

end Record
end Bitwire
