import VerifiableLog.Hex
import VerifiableLog.Proofs.Bytes

/-!
Reading hexadecimal text back. The letters among the digits may be capitals.
-/

namespace VerifiableLog.Hex

def lowerDigit (byte : UInt8) : UInt8 :=
  if 0x41 ≤ byte ∧ byte ≤ 0x46 then byte + 0x20 else byte

theorem digitValue?_lowerDigit : ∀ byte, digitValue? (lowerDigit byte) = digitValue? byte :=
  Bytes.forall_byte (by decide +kernel)

theorem digitValue?_digit : ∀ value < 16, digitValue? (digit value) = some value := by
  decide

theorem lowerDigit_digit : ∀ value < 16, lowerDigit (digit value) = digit value := by
  decide

theorem map_lowerDigit_encode (bytes : Bytes) : (encode bytes).map lowerDigit = encode bytes := by
  induction bytes with
  | nil => rfl
  | cons byte bytes ih =>
      have bound := byte.toNat_lt
      rw [encode, List.flatMap_cons, ← encode, List.map_append, ih]
      simp [lowerDigit_digit (byte.toNat / 16) (by omega),
        lowerDigit_digit (byte.toNat % 16) (by omega)]

theorem digitValue?_of_lowered {byte : UInt8} {value : Nat} (below : value < 16)
    (lowered : lowerDigit byte = digit value) : digitValue? byte = some value := by
  rw [← digitValue?_lowerDigit, lowered, digitValue?_digit value below]

theorem decodePairs_of_lowered (bytes : Bytes) {text : Bytes}
    (lowered : text.map lowerDigit = encode bytes) (position : Nat) (before : Bytes) :
    decodePairs position before text = .ok (before.reverse ++ bytes) := by
  induction bytes generalizing text position before with
  | nil =>
      obtain rfl := List.map_eq_nil_iff.mp lowered
      simp [decodePairs]
  | cons byte bytes ih =>
      rw [encode, List.flatMap_cons, ← encode, List.map_eq_append_iff] at lowered
      obtain ⟨digits, rest, rfl, pair, others⟩ := lowered
      obtain ⟨high, tail, rfl, highLowered, single⟩ := List.map_eq_cons_iff.mp pair
      obtain ⟨low, none, rfl, lowLowered, empty⟩ := List.map_eq_cons_iff.mp single
      obtain rfl := List.map_eq_nil_iff.mp empty
      have bound := byte.toNat_lt
      have highValue := digitValue?_of_lowered (by omega) highLowered
      have lowValue := digitValue?_of_lowered (by omega) lowLowered
      have whole : UInt8.ofNat (byte.toNat / 16 * 16 + byte.toNat % 16) = byte := by
        rw [Nat.div_add_mod', UInt8.ofNat_toNat]
      simp [decodePairs, highValue, lowValue, ih others, whole]

theorem length_encode (bytes : Bytes) : (encode bytes).length = 2 * bytes.length := by
  induction bytes with
  | nil => rfl
  | cons byte bytes ih =>
      rw [encode, List.flatMap_cons, ← encode, List.length_append, ih]
      simp only [List.length_cons, List.length_nil]
      omega

theorem decode_of_lowered {bytes text : Bytes} (lowered : text.map lowerDigit = encode bytes) :
    decode text = .ok bytes := by
  have length : text.length = 2 * bytes.length := by
    rw [← length_encode, ← lowered, List.length_map]
  rw [decode, if_neg (by omega), decodePairs_of_lowered bytes lowered]
  rfl

theorem isSome_digitValue?_of_mem {bytes text : Bytes}
    (lowered : text.map lowerDigit = encode bytes) {byte : UInt8} (member : byte ∈ text) :
    (digitValue? byte).isSome := by
  have written : lowerDigit byte ∈ encode bytes := lowered ▸ List.mem_map_of_mem member
  rw [encode, List.mem_flatMap] at written
  obtain ⟨source, -, digits⟩ := written
  have bound := source.toNat_lt
  rw [List.mem_cons, List.mem_singleton] at digits
  rcases digits with high | low
  · rw [digitValue?_of_lowered (by omega) high, Option.isSome_some]
  · rw [digitValue?_of_lowered (by omega) low, Option.isSome_some]

end VerifiableLog.Hex
