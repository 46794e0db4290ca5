import Bitwire.Proofs.Receiving
import Bitwire.Proofs.Sending
import Bitwire.Proofs.Updates

/-! Whole messages there and back. What a sender may send arrives, and of strict routines nothing
arrives but what a sender would have sent in just these bytes. -/
namespace Bitwire

namespace Cursor
variable {bytes : List UInt8} {wire : List Bool}

/-- An input of some bits and then padding is taken whole, as far as the counter reaches. -/
theorem start_sees (bits : bitsOfBytes bytes = wire ++ zeroPadding wire.length)
    (room : 8*bytesFor wire.length < 2^64) :
    (start (bitsOfBytes bytes)).Sees wire ∧
      ((start (bitsOfBytes bytes)).skip wire.length).finish.result = .ok () := by
  let c := start (bitsOfBytes bytes)
  have ahead : c.rest = wire ++ zeroPadding wire.length := bits
  have reached : c.position + (wire ++ zeroPadding wire.length).length < 2^64 := by
    rw [List.length_append,zeroPadding_length,← bytesFor_eq]
    exact (Nat.zero_add _).symm ▸ room
  obtain ⟨record,zeros⟩ := sees_append.mp ⟨ahead ▸ List.prefix_rfl,reached⟩
  have place : (c.skip wire.length).position = wire.length := Nat.zero_add _
  refine ⟨record,finish_ok (by rwa [place]) ?_⟩
  rw [skip_rest,ahead,List.drop_left,place]

theorem bits_of_finish (sees : (start (bitsOfBytes bytes)).Sees wire)
    (finished : ((start (bitsOfBytes bytes)).skip wire.length).finish.result = .ok ()) :
    bitsOfBytes bytes = wire ++ zeroPadding wire.length := by
  let c := start (bitsOfBytes bytes)
  have place : (c.skip wire.length).position = wire.length := Nat.zero_add _
  have last := rest_of_finish sees.reached rfl finished
  obtain ⟨later,split⟩ := sees.ahead
  rw [skip_rest,← split,List.drop_left,place] at last
  rw [← last,split]
  rfl

end Cursor

namespace Record
variable {checks : Bool} {fields : List Field} {sent : Record fields} {bytes : List UInt8}

theorem decode_sent (free : Throughout Field.IsModeFree fields) (causal : Causal fields)
    (meets : sent.Meets Leaf.Fits .empty)
    (bits : bitsOfBytes bytes = sent.wire checks .empty 0 ++
      zeroPadding (sent.wire checks .empty 0).length)
    (room : 8*bytesFor (sent.wire checks .empty 0).length < 2^64) (target : Record fields) :
    ∃ received, target.decode checks bytes = .ok received ∧ sent.Same .empty received := by
  obtain ⟨sees,finished⟩ := Cursor.start_sees bits room
  obtain ⟨received,run,same⟩ := sent.run_received free target (causal sent) meets sees
  refine ⟨received,decode_eq_ok.mpr ?_,same⟩
  rw [run]
  exact ⟨rfl,finished,rfl⟩

/-- Leaf after leaf, both sides have the same value and stand at the same position. -/
theorem visits_alike (free : Throughout Field.IsModeFree fields) (causal : Causal fields)
    (meets : sent.Meets Leaf.Fits .empty)
    (sees : (Cursor.start (bitsOfBytes bytes)).Sees (sent.wire checks .empty 0))
    (target : Record fields) :
    (target.visits (Reader.stream checks) .empty (.ofBytes bytes)).map
        (Visit.mark (Reader.stream checks)) =
      (sent.visits (Packer.stream checks) .empty .empty).map
        (Visit.mark (Packer.stream checks)) := by
  have read := (Reader.stream_at checks).visits .empty (throughout_all (fun _ _ => rfl) fields)
    target (Reader.ofBytes_at bytes)
  have written := (Packer.stream_holds checks).visits .empty
    (free.imp fun _ h => h.sameChoice _ _) sent Packer.empty_holds
  rw [(Reader.stream_at checks).marks read,(Packer.stream_holds checks).marks written,
    sent.visits_sent checks .empty [] free meets.permits]
  exact sent.visits_received free target (causal sent) meets sees

/-- Every message that may be sent is encoded, and a receiver with any values of its own decodes
it: all values sent arrive, and each leaf leaves both sides at the same position. -/
theorem decode_encode (checks : Bool) (free : Throughout Field.IsModeFree fields)
    (causal : Causal fields) (sent : Record fields) (meets : sent.Meets Leaf.Fits .empty)
    (counted : ∀ size, sent.measure checks = .ok size → 8*bytesFor size < 2^64)
    (target : Record fields) :
    ∃ bytes received, sent.encode checks = .ok bytes ∧
      target.decode checks bytes = .ok received ∧ sent.Same .empty received ∧
      (target.visits (Reader.stream checks) .empty (.ofBytes bytes)).map
          (Visit.mark (Reader.stream checks)) =
        (sent.visits (Packer.stream checks) .empty .empty).map
          (Visit.mark (Packer.stream checks)) := by
  obtain ⟨bytes,encoded,bits⟩ := encode_sent checks free meets.permits
  have room := counted _ (measure_sent checks free meets.permits)
  obtain ⟨received,decoded,same⟩ := decode_sent free causal meets bits room target
  have sees := (Cursor.start_sees bits room).1
  exact ⟨bytes,received,encoded,decoded,same,visits_alike free causal meets sees target⟩

/-- Update 65535 acknowledges update 2, which lies too far behind for a relative number. -/
theorem decode_encode_update :
    ∃ bytes received,
      (Update.mk 65535 2 100 true 0x40490fdb "Ada").toRecord.encode true = .ok bytes ∧
      Update.empty.toRecord.decode true bytes = .ok received ∧
      (Update.mk 65535 2 100 true 0x40490fdb "Ada").toRecord.Same .empty received ∧
      (Update.empty.toRecord.visits (Reader.stream true) .empty (.ofBytes bytes)).map
          (Visit.mark (Reader.stream true)) =
        ((Update.mk 65535 2 100 true 0x40490fdb "Ada").toRecord.visits (Packer.stream true) .empty
          .empty).map (Visit.mark (Packer.stream true)) := by
  have size : (Update.mk 65535 2 100 true 0x40490fdb "Ada").toRecord.measure true = .ok 136 := by
    decide +kernel
  refine decode_encode true Update.fields_free Update.fields_causal _
    (Update.toRecord_fits (by decide) (by decide)) (fun found measured => ?_) _
  rw [← Except.ok.inj (size.symm.trans measured)]
  decide

/-- Nothing was decoded but the form of what was decoded, so encoding restores the bytes. -/
theorem encode_received {target received : Record fields}
    (free : Throughout Field.IsModeFree fields) (strict : Throughout Field.IsStrict fields)
    (causal : Causal fields) (decoded : target.decode checks bytes = .ok received) :
    received.encode checks = .ok bytes := by
  obtain ⟨result,finished,rfl⟩ := decode_eq_ok.mp decoded
  obtain ⟨meets,sees,state⟩ := target.run_only free strict causal (Nat.two_pow_pos 64) result
  rw [state] at finished
  have bits := Cursor.bits_of_finish sees finished
  obtain ⟨bytes',encoded,bits'⟩ := encode_sent checks free meets.permits
  rw [encoded,bitsOfBytes_inj (bits'.trans bits.symm)]

/-- The decoder of a strict routine takes no bytes but those that the encoder makes of what it
decoded. So different bytes are never decoded to the same message. -/
theorem encode_decode (checks : Bool) (free : Throughout Field.IsModeFree fields)
    (strict : Throughout Field.IsStrict fields) (causal : Causal fields)
    (target received : Record fields) (bytes : List UInt8)
    (decoded : target.decode checks bytes = .ok received) :
    received.encode checks = .ok bytes ∧
      ∀ target' bytes', Record.decode checks target' bytes' = .ok received → bytes' = bytes := by
  have encoded := encode_received free strict causal decoded
  refine ⟨encoded,fun target' bytes' decoded' => ?_⟩
  have encoded' := encode_received free strict causal decoded'
  exact Except.ok.inj (encoded'.symm.trans encoded)

theorem encode_decode_sized :
    let received : Record sizedFields :=
      .cons (.leaf (5 : UInt8)) (.cons (.leaf (21 : UInt32)) (.cons (.leaf true) .nil))
    received.encode true = .ok [0xa4,0x06] ∧
      ∀ target' bytes', Record.decode true target' bytes' = .ok received → bytes' = [0xa4,0x06] :=
  encode_decode true sizedFields_free ⟨trivial,trivial,trivial,trivial⟩ sizedFields_causal
    (Record.initial sizedFields) _ _ rfl

end Record
end Bitwire
