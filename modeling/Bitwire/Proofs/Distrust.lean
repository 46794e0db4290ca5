import Bitwire.Proofs.Laws
import Bitwire.Stream.Recording

/-! No answer of a stream ends the program. Together with what is vetted, this is what a directive
can promise on a reader that may be anything, such as one that plays a forged script. -/
namespace Bitwire

variable {σ α β : Type}

/-- The call comes to an end that its caller can go on from. -/
def Step.Faultless (step : Step σ α) : Prop := ∀ cause, step.result ≠ halt cause

/-- No call ends the program, and to visit a nested object ends it only if the visit does. -/
structure Stream.Faultless (S : Stream σ) : Prop where
  integer : ∀ min max value s, (S.integer min max value s).Faultless
  bits : ∀ count value s, (S.bits count value s).Faultless
  bytes : ∀ {n} (data : Vector UInt8 n) s, (S.bytes data s).Faultless
  align : ∀ s, (S.align s).Faultless
  check : ∀ s, (S.check s).Faultless
  object : ∀ {α : Type} {visit : σ → Step σ α} (value : α) s, (∀ s, (visit s).Faultless) →
    (S.object visit value s).Faultless

theorem Step.Faultless.chain {step : Step σ β} (h : step.Faultless) (place : β → α)
    {next : β → σ → Step σ α}
    (go : step.result = .ok () → (next step.value step.state).Faultless) :
    (step.chain place next).Faultless := by
  intro cause
  unfold Step.chain
  cases result : step.result with
  | ok => exact go result cause
  | error failure => exact fun ended => h cause (result.trans ended)

/-- A directive may fail in any way but with a fault. -/
def Law.faultless : Law σ where
  Holds s call := (call s).Faultless
  Own failure := ∀ cause, failure ≠ .fault cause
  done _ _ _ := nofun
  fail _ _ _ own cause ended := own cause (Except.error.inj ended)
  chain place _ h go := h.chain place go

theorem Stream.Faultless.obeys {S : Stream σ} (sound : S.Faultless)
    (reading : S.mode.isReading = true) : S.Obeys .faultless where
  reading := reading
  integer := sound.integer
  bits := sound.bits
  bytes := sound.bytes
  align := sound.align
  check := sound.check
  object := sound.object
  judged judgement _ same := by
    rw [same] at judgement
    exact judgement
  exceeded _ _ _ _ := nofun

/-- What the directives make of a reader's answers, whatever these are. -/
structure Stream.Vets (S : Stream σ) (s : σ) : Prop where
  int : ∀ {α : Type} [IntTarget α] (min max : Int32) (kept : α),
    (Directive.int S min max kept s).Vetted kept fun found =>
      min.toInt ≤ IntTarget.toInt found ∧ IntTarget.toInt found ≤ max.toInt
  relative : ∀ previous kept, (Directive.relative S previous kept s).Vetted kept (previous < ·)
  sequenceRelative : ∀ first kept,
    (Directive.sequenceRelative S first kept s).Vetted kept (· ≠ first)
  /-- With the flag set, the acknowledgement lies behind modulo 2^16. -/
  ackRelative : ∀ sequence kept, (Directive.ackRelative S sequence kept s).Vetted kept fun found =>
    (S.bits 1 0 s).value ≠ 0 → 1 ≤ (sequence - found).toNat ∧ (sequence - found).toNat ≤ 64
  /-- Only well-formed UTF-8 is the data of a text. -/
  text : ∀ size kept, (Directive.text S size kept s).Vetted kept fun found =>
    found.toUTF8.data = S.supply size s ∧ ByteArray.IsValidUTF8 ⟨S.supply size s⟩ ∧
      found.utf8ByteSize = (S.claim size s).value.toInt ∧ found.utf8ByteSize ≤ size - 1
  address : ∀ {α : Type} (F : AddressFormat α) (kept : α),
    (Directive.address S F kept s).Vetted kept fun found =>
      F.isValid found ∧ ∃ sent : String, sent.toUTF8.data = S.supply AddressFormat.bufferSize s ∧
        F.read? sent = some found
  bits : ∀ {α : Type} [BitsTarget α] (count : Nat) (kept : α),
    (Directive.bits S count kept s).Vetted kept (BitsTarget.toWord · = (S.bits count 0 s).value)
  bool : ∀ kept, (Directive.bool S kept s).Vetted kept fun _ => True
  u64 : ∀ kept, (Directive.u64 S kept s).Vetted kept fun _ => True
  float : ∀ kept, (Directive.float S kept s).Vetted kept fun _ => True
  double : ∀ kept, (Directive.double S kept s).Vetted kept fun _ => True
  leaf : ∀ scope (kind : Leaf) kept, (kind.run S scope kept s).Faultless
  record : ∀ finished {fields} (record : Record fields), (record.run S finished s).Faultless

/-- No directive trusts its stream. -/
theorem reading_vetted {S : Stream σ} (reading : S.mode = .read) (sound : S.Faultless) (s : σ) :
    S.Vets s := by
  have reads : S.mode.isReading = true := congrArg Mode.isReading reading
  constructor
  case int =>
    intro α _ min max kept
    exact (Directive.int_vetted reads s min max kept).mono fun _ good => ⟨good.1,good.2.1⟩
  case text =>
    intro size kept
    refine (Directive.text_vetted reads s size kept).mono fun found ⟨data,rest⟩ => ?_
    exact ⟨data,data ▸ found.isValidUTF8,rest⟩
  case bool =>
    intro kept
    exact (Directive.bool_vetted reads s kept).mono fun _ _ => trivial
  case relative => exact Directive.relative_vetted reads s
  case sequenceRelative => exact Directive.sequenceRelative_vetted reads s
  case ackRelative => exact Directive.ackRelative_vetted reads s
  case address => exact Directive.address_vetted reads s
  case bits => exact Directive.bits_vetted reads s
  case u64 => exact Directive.u64_vetted reads s
  case float => exact Directive.float_vetted reads s
  case double => exact Directive.double_vetted reads s
  case leaf => exact fun scope kind kept => (sound.obeys reads).leaf scope kind kept s
  case record => exact fun finished {fields} record => (sound.obeys reads).record finished record s

theorem Recorder.reply_faultless (r : Recorder) (call : Call) (value : α) (change : Answer → α) :
    (r.reply call value change).Faultless := by
  intro cause
  unfold reply
  split
  · exact nofun
  · exact nofun

/-- A script may hold any answers. -/
theorem Recorder.stream_faultless (mode : Mode) : (stream mode).Faultless where
  integer _ _ _ r := r.reply_faultless _ _ _
  bits _ _ r := r.reply_faultless _ _ _
  bytes _ r := r.reply_faultless _ _ _
  align r := r.reply_faultless _ _ _
  check r := r.reply_faultless _ _ _
  object _ r _ := r.reply_faultless _ _ _

/-- No difference of 1, a difference of the first bucket, and then 99 for it. -/
theorem reading_vetted_forged :
    let forged := Recorder.ofScript [.set 0,.set 1,.set 99]
    let step := Directive.relative (Recorder.stream .read) 10 7 forged
    (Recorder.stream .read).Vets forged ∧ step.result = reject (.outOfRange 99 2 6) ∧
      step.value = 7 :=
  ⟨reading_vetted rfl (Recorder.stream_faultless .read) _,rfl,rfl⟩

end Bitwire
