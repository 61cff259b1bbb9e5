import Warm.ProvenanceCodec

/-! Digests as hex text: what `hex_encode` wrote, `hex_decode` reads. -/
namespace Warm.Provenance

open Bytes Binary List

def hexValue (byte : UInt8) : Option Nat :=
  if 48 ≤ byte ∧ byte ≤ 57 then some (byte.toNat - 48)
  else if 97 ≤ byte ∧ byte ≤ 102 then some (byte.toNat - 87)
  else if 65 ≤ byte ∧ byte ≤ 70 then some (byte.toNat - 55)
  else none

/-- `u8::from_str_radix` on two characters: a plus sign may stand before one digit. -/
def hexByte (high low : UInt8) : Option UInt8 :=
  if high = 43 then (hexValue low).map UInt8.ofNat
  else do
    let upper ← hexValue high
    let lower ← hexValue low
    some (UInt8.ofNat (16 * upper + lower))

def hexBytes : Bytes → Option Bytes
  | [] => some []
  | [_] => none
  | high :: low :: rest => do
    let byte ← hexByte high low
    let bytes ← hexBytes rest
    some (byte :: bytes)

def hexDecode (hex : String) : Option Array32 :=
  if (utf8 hex).length = 64 then (hexBytes (utf8 hex)).bind Array32.tryFrom else none

theorem hexValue_digit : ∀ n < 16, ∃ byte, String.utf8EncodeChar (hexDigit n) = [byte] ∧ hexValue byte = some n ∧ byte ≠ 43 := by
  have each : ∀ n < 16, (String.utf8EncodeChar (hexDigit n)).length = 1 ∧
      (String.utf8EncodeChar (hexDigit n)).all (fun byte => hexValue byte = some n ∧ byte ≠ 43) = true := by decide
  intro n small
  obtain ⟨single, valued⟩ := each n small
  obtain ⟨byte, coded⟩ := length_eq_one_iff.mp single
  rw [coded] at valued
  exact ⟨byte, coded, by simpa using valued⟩

theorem hexBytes_hexEncode (bytes : Bytes) :
    (utf8 (hexEncode bytes)).length = 2 * bytes.length ∧ hexBytes (utf8 (hexEncode bytes)) = some bytes := by
  unfold hexEncode
  rw [utf8_ofList]
  induction bytes with
  | nil => exact ⟨rfl, rfl⟩
  | cons byte bytes ih =>
    have small := byte.toNat_lt
    obtain ⟨high, highCoded, highValue, notPlus⟩ := hexValue_digit (byte.toNat / 16) (by omega)
    obtain ⟨low, lowCoded, lowValue, -⟩ := hexValue_digit (byte.toNat % 16) (by omega)
    have same : UInt8.ofNat (16 * (byte.toNat / 16) + byte.toNat % 16) = byte := by
      rw [Nat.div_add_mod]
      simp
    have read : hexByte high low = some byte := by
      unfold hexByte
      rw [if_neg notPlus, highValue, lowValue]
      exact congrArg some same
    simp only [flatMap_cons, highCoded, lowCoded, cons_append, nil_append, length_cons]
    refine ⟨by rw [ih.1]; omega, ?_⟩
    unfold hexBytes
    rw [read, ih.2]
    rfl

theorem hexDecode_hexEncode (hash : Array32) : hexDecode (hexEncode hash.val) = some hash := by
  obtain ⟨length, read⟩ := hexBytes_hexEncode hash.val
  unfold hexDecode
  rw [if_pos (by rw [length, hash.property]), read]
  simp [Array32.tryFrom, hash.property]

theorem hexEncode_injective {first second : Array32} (same : hexEncode first.val = hexEncode second.val) : first = second := by
  have read := hexDecode_hexEncode first
  rw [same, hexDecode_hexEncode] at read
  exact (Option.some.inj read).symm

end Warm.Provenance
