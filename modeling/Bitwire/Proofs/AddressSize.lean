import Bitwire.Message.Basic
import Bitwire.Proofs.AddressText

/-! The text of an address is short enough to be sent, and an address that was read from text has
no flow label. So a writer takes every address that a reader accepts. -/
namespace Bitwire

theorem Numeral.write_length {radix n k : Nat} (base : 1 < radix) (some : 0 < k)
    (small : n < radix^k) : (write radix n).length ≤ k :=
  (Nat.length_toDigits_le_iff base some).mpr small

theorem Ipv4.write_length (ip : Ipv4) : ip.write.length ≤ 15 := by
  have octet : ∀ x : UInt8, (Numeral.write 10 x.toNat).length ≤ 3 := fun x =>
    Numeral.write_length (by decide) (by decide) (Nat.lt_trans x.toNat_lt (by decide))
  have a := octet ip.a
  have b := octet ip.b
  have c := octet ip.c
  have d := octet ip.d
  simp [Ipv4.write,List.intercalate]
  omega

namespace Ipv6

theorem moreGroups_length (gs : List UInt16) : (Phrase.moreGroups gs).length ≤ 5*gs.length := by
  induction gs with
  | nil => exact Nat.le_refl 0
  | cons g gs ih =>
    have group : (Numeral.write 16 g.toNat).length ≤ 4 :=
      Numeral.write_length (by decide) (by decide) g.toNat_lt
    rw [Phrase.moreGroups,List.flatMap_cons,List.length_append,List.length_cons,List.length_cons]
    rw [Phrase.moreGroups] at ih
    omega

theorem writeGroups_length (gs : List UInt16) : (writeGroups gs).length ≤ 5*gs.length := by
  cases gs with
  | nil => exact Nat.le_refl 0
  | cons g gs =>
    have group : (Numeral.write 16 g.toNat).length ≤ 4 :=
      Numeral.write_length (by decide) (by decide) g.toNat_lt
    have more := moreGroups_length gs
    rw [Phrase.writeGroups_cons,List.length_append,List.length_cons]
    omega

theorem write_length (ip : Ipv6) : ip.write.length ≤ 42 := by
  unfold write
  split
  · next v4 _ =>
    have dotted := v4.write_length
    simp
    omega
  · have eight := ip.length_eq
    generalize zeroRun ip.groups = run
    obtain ⟨start,length⟩ := run
    dsimp only
    split
    · have front := writeGroups_length (ip.groups.take start)
      have back := writeGroups_length (ip.groups.drop (start + length))
      simp only [List.length_take,List.length_drop,eight] at front back
      simp only [List.length_append,List.length_cons,List.length_nil]
      omega
    · have all := writeGroups_length ip.groups
      omega

end Ipv6

theorem Ip.write_length (ip : Ip) : ip.write.length ≤ 42 := by
  cases ip with
  | v4 ip =>
    have := ip.write_length
    simp only [Ip.write]
    omega
  | v6 ip => exact ip.write_length

theorem Socket.write_length (socket : Socket) : socket.write.length ≤ 61 := by
  have digits : ∀ port : UInt16, (Numeral.write 10 port.toNat).length ≤ 5 := fun port =>
    Numeral.write_length (by decide) (by decide) (Nat.lt_trans port.toNat_lt (by decide))
  cases socket with
  | v4 ip port =>
    have ip := ip.write_length
    have port := digits port
    simp only [Socket.write,List.length_append,List.length_cons]
    omega
  | v6 ip port flow scope =>
    have ip := ip.write_length
    have port := digits port
    have zone : (Numeral.write 10 scope.toNat).length ≤ 10 :=
      Numeral.write_length (by decide) (by decide) (Nat.lt_trans scope.toNat_lt (by decide))
    simp only [Socket.write,List.length_append,List.length_cons]
    split
    · simp only [List.length_nil]
      omega
    · simp only [List.length_cons]
      omega

theorem utf8Len_le (text : List Char) : String.utf8Len text ≤ 4*text.length := by
  induction text with
  | nil => exact Nat.le_refl 0
  | cons c text ih =>
    have char := c.utf8Size_le_four
    simp only [String.utf8Len_cons,List.length_cons]
    omega

namespace AddressType

/-- The text of every address fits the buffer that it is sent from. -/
theorem write_size (type : AddressType) (address : type.Carrier) :
    (type.format.write address).utf8ByteSize ≤ 255 := by
  have short : ∀ text : List Char, text.length ≤ 61 → (String.ofList text).utf8ByteSize ≤ 255 := by
    intro text short
    have bytes := utf8Len_le text
    rw [String.utf8ByteSize_ofList]
    omega
  cases type with
  | socket => exact short _ (Socket.write_length address)
  | ip => exact short _ (Nat.le_trans (Ip.write_length address) (by decide))
  | endpoint => exact short _ (Endpoint.socket address).write_length

end AddressType

namespace Phrase

/-- No text has room for a flow label. -/
theorem socket_withoutFlow {text rest : List Char} {address : Socket}
    (found : socket text = some (address,rest)) : address.withoutFlow = address := by
  simp only [socket,Option.orElse_eq_orElse,Option.orElse_eq_or,Option.or_eq_some_iff] at found
  rcases found with v4 | ⟨-,v6⟩
  · simp only [socketV4,Option.bind_eq_bind,Option.bind_eq_some_iff,Option.pure_def] at v4
    obtain ⟨⟨ip,_⟩,-,⟨port,_⟩,-,made⟩ := v4
    cases made
    rfl
  · simp only [socketV6,Option.bind_eq_bind,Option.bind_eq_some_iff,Option.pure_def] at v6
    obtain ⟨_,-,⟨ip,_⟩,-,_,-,⟨port,_⟩,-,made⟩ := v6
    cases made
    rfl

end Phrase

theorem Socket.read_withoutFlow {text : String} {address : Socket}
    (found : Socket.format.read? text = some address) : address.withoutFlow = address := by
  simp only [Socket.format,Phrase.whole] at found
  split at found
  · next taken =>
    obtain rfl := Option.some.inj found
    exact Phrase.socket_withoutFlow taken
  · cases found

end Bitwire
