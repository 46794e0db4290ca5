import Bitwire.Proofs.Patterns
import Bitwire.Proofs.Resending

/-! Addresses as text. A reader makes of an address what the parser makes of the text that it reads
in its place, and what a writer has printed is parsed back but for a flow label. -/
namespace Bitwire

variable {σ α : Type}

namespace AddressFormat

/-- What is seen of an address where `text` is seen of the text that stands for it. -/
structure Decodes (F : AddressFormat α) (kept : α) (text : Seen String) (seen : Seen α) : Prop where
  accepts : ∀ address stop, seen = ⟨address,.ok (),stop⟩ ↔ ∃ sent,
    text = ⟨sent,.ok (),stop⟩ ∧ F.read? sent = some address ∧ F.isValid address = true
  unparsed : ∀ sent stop, text = ⟨sent,.ok (),stop⟩ → F.read? sent = none →
    seen = ⟨kept,reject (.invalidAddress sent),stop⟩
  invalid : ∀ sent stop address, text = ⟨sent,.ok (),stop⟩ → F.read? sent = some address →
    F.isValid address = false → seen = ⟨kept,reject (.invalidAddress sent),stop⟩
  passes : ∀ failure, text.result = .error failure → seen = ⟨kept,.error failure,text.position⟩
  keeps : seen.result ≠ .ok () → seen.value = kept

variable {F : AddressFormat α}

/-- A text that failed decides all. -/
theorem decodes_failed (kept : α) (sent : String) (failure : Failure) (stop : Nat) :
    F.Decodes kept ⟨sent,.error failure,stop⟩ ⟨kept,.error failure,stop⟩ where
  accepts address stop := by
    constructor
    · intro same
      cases congrArg Seen.result same
    · rintro ⟨sent,same,-⟩
      cases congrArg Seen.result same
  unparsed _ _ same := by cases congrArg Seen.result same
  invalid _ _ _ same := by cases congrArg Seen.result same
  passes _ same := by cases same; rfl
  keeps _ := rfl

theorem decodes_read (S : Stream σ) (s : σ) (kept : α) (sent : String) :
    F.Decodes kept ⟨sent,.ok (),S.position s⟩
      (S.seen (Step.given (F.accept sent) kept s fun found => .done found s)) where
  accepts address stop := by
    constructor
    · intro same
      cases accepted : F.accept sent with
      | error failure => rw [accepted] at same; cases congrArg Seen.result same
      | ok found =>
        rw [accepted] at same
        obtain ⟨rfl,-,rfl⟩ := Seen.mk.inj same
        exact ⟨sent,rfl,accept_eq_ok.mp accepted⟩
    · rintro ⟨_,same,parsed⟩
      obtain ⟨rfl,-,rfl⟩ := Seen.mk.inj same
      rw [accept_eq_ok.mpr parsed]
      rfl
  unparsed _ _ same none := by
    obtain ⟨rfl,-,rfl⟩ := Seen.mk.inj same
    simp only [accept,none]
    rfl
  invalid _ _ _ same parsed invalid := by
    obtain ⟨rfl,-,rfl⟩ := Seen.mk.inj same
    simp only [accept,parsed,invalid]
    rfl
  passes _ same := by cases same
  keeps failed := Step.kept_of_given failed

/-- Bits of the text of an address. -/
def form (F : AddressFormat α) (position : Nat) (address : α) : List Bool :=
  Wire.text bufferSize position (F.write address)

/-- An address is sent as its text, and another is received from whatever begins with all that was
written till then. -/
structure Crosses (checks : Bool) (F : AddressFormat α) (p : Packer) (address received : α) :
    Prop where
  short : (F.write address).utf8ByteSize ≤ 255
  sends : p.Appends address (F.form p.position address)
    (Directive.address (Packer.stream checks) F address p)
  returns : ∀ bytes r, Reader.Reached checks bytes r → r.input.position = p.position →
    p.view ++ F.form p.position address <+: bitsOfBytes bytes →
    p.position + (F.form p.position address).length < 2^64 → ∀ kept,
    (Reader.stream checks).seen (Directive.address (Reader.stream checks) F kept r) =
      ⟨received,.ok (),p.position + (F.form p.position address).length⟩

end AddressFormat

theorem Directive.address_decodes {S : Stream σ} (reading : S.mode.isReading = true) (s : σ)
    (F : AddressFormat α) (kept : α) :
    F.Decodes kept (S.seen (Directive.text S AddressFormat.bufferSize "" s))
      (S.seen (Directive.address S F kept s)) := by
  rw [address_reading reading]
  generalize Directive.text S AddressFormat.bufferSize "" s = step
  obtain ⟨sent,state,result⟩ := step
  cases result with
  | ok => exact AddressFormat.decodes_read S state kept sent
  | error failure => exact AddressFormat.decodes_failed kept sent failure (S.position state)

/-- A reader in front of a text reads it. -/
theorem Reader.Reached.text_seen {checks : Bool} {bytes : List UInt8} {r : Reader}
    (reached : r.Reached checks bytes) {size : Nat} {value : String}
    (proper : 2 ≤ size ∧ size ≤ 2^31) (fits : value.utf8ByteSize ≤ size - 1)
    (front : Wire.text size r.input.position value <+: (bitsOfBytes bytes).drop r.input.position)
    (room : r.input.position + (Wire.text size r.input.position value).length < 2^64)
    (kept : String) :
    (Reader.stream checks).seen (Directive.text (Reader.stream checks) size kept r) =
      ⟨value,.ok (),r.input.position + (Wire.text size r.input.position value).length⟩ := by
  let c : Cursor := ⟨bitsOfBytes bytes,r.input.position⟩
  have sees : c.Sees (Wire.text size c.position value) := ⟨front,room⟩
  have read := (Cursor.text_reads checks size kept).accepts value ⟨proper,fits⟩ sees
  have simulates := stream_at checks
  rw [simulates.seen_eq (simulates.follows.text reached.at size kept).toAlike,read]
  rfl

namespace AddressFormat
variable {F : AddressFormat α} {p : Packer} {checks : Bool}

/-- What is printed short and parsed back crosses from a writer to a reader. -/
theorem crosses {address received : α} (valid : F.isValid address = true)
    (short : (F.write address).utf8ByteSize ≤ 255)
    (parsed : F.read? (F.write address) = some received) (valid' : F.isValid received = true)
    (reached : p.Reached checks) : F.Crosses checks p address received := by
  obtain ⟨t,holds⟩ := reached.holds
  have alike := ((Packer.stream_holds checks).follows.address holds F address).toAlike
  have sends := Tape.address_sends checks t F address
  rw [← holds.position] at sends
  refine ⟨short,holds.appends sends alike ⟨valid,short⟩,?_⟩
  intro bytes r reached position front room kept
  have before : p.view.length = r.input.position := holds.sound.view_length.trans position.symm
  have ahead : F.form p.position address <+: (bitsOfBytes bytes).drop r.input.position := by
    obtain ⟨later,split⟩ := front
    rw [← split,List.append_assoc,← before,List.drop_left]
    exact List.prefix_append _ _
  rw [form,← position] at ahead room ⊢
  have text := reached.text_seen (by decide) short ahead room ""
  have decodes := Directive.address_decodes (S := Reader.stream checks) rfl r F kept
  exact (decodes.accepts _ _).mpr ⟨_,text,parsed,valid'⟩

end AddressFormat

/-- A writer at any position sends every address of a network and of a socket, and a reader that has
read what was written before it receives the address without its flow label. A reader in any state
takes an address just where it takes a text that is parsed as one that may be sent; a text of
another kind is the whole of its complaint, and where there is no text it fails as it does for the
text. -/
theorem address_coded (checks : Bool) :
    (∀ p, Packer.Reached checks p →
      (∀ address : Ip, Ip.format.Crosses checks p address address) ∧
      ∀ address : Socket, Socket.format.Crosses checks p address address.withoutFlow) ∧
    ∀ r {α : Type} (F : AddressFormat α) (kept : α), F.Decodes kept
      ((Reader.stream checks).seen
        (Directive.text (Reader.stream checks) AddressFormat.bufferSize "" r))
      ((Reader.stream checks).seen (Directive.address (Reader.stream checks) F kept r)) := by
  constructor
  · intro p reached
    constructor
    · intro address
      exact AddressFormat.crosses rfl (AddressType.write_size .ip address)
        (Ip.format_read address) rfl reached
    · intro address
      exact AddressFormat.crosses rfl (AddressType.write_size .socket address)
        (Socket.format_read address) rfl reached
  · intro r α F kept
    exact Directive.address_decodes rfl r F kept

/-- An address with a zone and a flow label is sent as `[fe80::1%3]:80` behind a single bit. -/
theorem address_coded_zoned :
    let sent : Socket := .v6 ⟨[0xfe80,0,0,0,0,0,0,1],rfl⟩ 80 7 3
    let kept : Socket := .v4 ⟨0,0,0,0⟩ 0
    let bytes : List UInt8 := [29,0,91,102,101,56,48,58,58,49,37,51,93,58,56,48]
    let p := (Leaf.bool.run (Packer.stream true) .empty true .empty).state
    let r := (Leaf.bool.run (Reader.stream true) .empty false (.ofBytes bytes)).state
    (Directive.address (Packer.stream true) Socket.format sent p).result = .ok () ∧
      (Reader.stream true).seen (Directive.address (Reader.stream true) Socket.format kept r) =
        ⟨.v6 ⟨[0xfe80,0,0,0,0,0,0,1],rfl⟩ 80 0 3,.ok (),128⟩ := by
  intro sent kept bytes p r
  have written : p.Reached true := @Packer.Reached.call true .empty .bool .empty true .start
  have read : r.Reached true bytes :=
    @Reader.Reached.call true bytes (.ofBytes bytes) .bool .empty false .start trivial
  have crossed := ((address_coded true).1 p written).2 sent
  have form : p.view ++ Socket.format.form 1 sent = bitsOfBytes bytes := by decide +kernel
  have length : (Socket.format.form 1 sent).length = 127 := by
    have all := congrArg List.length form
    rw [List.length_append,bitsOfBytes_length] at all
    exact Nat.add_left_cancel all
  have room : 1 + (Socket.format.form 1 sent).length < 2^64 := by rw [length]; decide
  have received := crossed.returns bytes r read rfl (form ▸ List.prefix_rfl) room kept
  refine ⟨crossed.sends.result,received.trans ?_⟩
  change (⟨sent.withoutFlow,.ok (),1 + (Socket.format.form 1 sent).length⟩ : Seen Socket) = _
  rw [length]
  rfl

end Bitwire
