import Warm.JournalFrame
import Mathlib.Data.Nat.Bitwise

/-! A concrete instance of the third-party codecs: CRC-32 bit by bit, and LZ4 blocks of one
literal run. A compressor emits nothing else for an input in which no four bytes repeat early
enough to start a match, and such a block is longer than the input, so the frame stores the
input as it is. -/
namespace Warm.PlainCodec

open Bytes List

def crcBit (crc : Nat) : Nat := if crc % 2 = 1 then (crc / 2) ^^^ 0xEDB88320 else crc / 2

def crcByte (crc : Nat) (byte : UInt8) : Nat :=
  crcBit (crcBit (crcBit (crcBit (crcBit (crcBit (crcBit (crcBit (crc ^^^ byte.toNat))))))))

/-- CRC-32 with the reflected polynomial, as `crc32fast` computes it. -/
def crc32 (data : Bytes) : Nat := data.foldl crcByte 0xFFFFFFFF ^^^ 0xFFFFFFFF

/-- The length bytes after a saturated token nibble. -/
def extension (n : Nat) : Bytes := List.replicate (n / 255) 255 ++ [UInt8.ofNat (n % 255)]

def compress (data : Bytes) : Bytes :=
  if data.length < 15 then UInt8.ofNat (data.length * 16) :: data
  else 240 :: (extension (data.length - 15) ++ data)

def readExtension (total : Nat) : Bytes → Option (Nat × Bytes)
  | [] => none
  | b :: rest => if b = 255 then readExtension (total + 255) rest else some (total + b.toNat, rest)

def decompress (payload : Bytes) (limit : Nat) : Option Bytes :=
  match payload with
  | [] => none
  | token :: rest =>
    let literals := if token.toNat / 16 = 15 then readExtension 15 rest
      else some (token.toNat / 16, rest)
    match literals with
    | none => none
    | some (n, literals) => if literals.length = n ∧ n ≤ limit then some literals else none

def codec : Codec := ⟨crc32, compress, decompress⟩

theorem crcBit_lt (h : crc < 2 ^ 32) : crcBit crc < 2 ^ 32 := by
  unfold crcBit
  split
  · exact Nat.xor_lt_two_pow (by omega) (by decide)
  · omega

theorem crcByte_lt (byte : UInt8) (h : crc < 2 ^ 32) : crcByte crc byte < 2 ^ 32 := by
  have start : crc ^^^ byte.toNat < 2 ^ 32 :=
    Nat.xor_lt_two_pow h (Nat.lt_of_lt_of_le byte.toNat_lt (by decide))
  exact crcBit_lt (crcBit_lt (crcBit_lt (crcBit_lt (crcBit_lt (crcBit_lt (crcBit_lt (crcBit_lt start)))))))

theorem crc32_lt (data : Bytes) : crc32 data < 2 ^ 32 := by
  have folded (crc : Nat) (h : crc < 2 ^ 32) : data.foldl crcByte crc < 2 ^ 32 := by
    induction data generalizing crc with
    | nil => exact h
    | cons b rest ih => exact ih _ (crcByte_lt b h)
  exact Nat.xor_lt_two_pow (folded _ (by decide)) (by decide)

theorem readExtension_extension (total n : Nat) (rest : Bytes) :
    readExtension total (extension n ++ rest) = some (total + n, rest) := by
  have tail : UInt8.ofNat (n % 255) ≠ 255 := by
    intro h
    have := congrArg UInt8.toNat h
    simp only [UInt8.toNat_ofNat'] at this
    have : n % 255 < 255 := Nat.mod_lt _ (by decide)
    simp only [UInt8.reduceToNat] at *
    omega
  have skip (k total : Nat) (rest : Bytes) :
      readExtension total (List.replicate k 255 ++ rest) = readExtension (total + 255 * k) rest := by
    induction k generalizing total with
    | zero => rfl
    | succ k ih =>
      simp only [replicate_succ, cons_append, readExtension, ↓reduceIte, ih]
      congr 1
      omega
  have small : n % 255 < 255 := Nat.mod_lt _ (by decide)
  rw [extension, append_assoc, skip]
  simp only [cons_append, nil_append, readExtension, if_neg tail, UInt8.toNat_ofNat']
  congr 2
  omega

theorem decompress_compress (data : Bytes) :
    decompress (compress data) data.length = some data := by
  unfold compress
  split
  · rename_i short
    have token : data.length * 16 % 256 / 16 = data.length := by omega
    simp [decompress, token, Nat.ne_of_lt short]
  · rename_i long
    have total : 15 + (data.length - 15) = data.length := by omega
    simp [decompress, readExtension_extension, total]

theorem readExtension_length (h : readExtension total payload = some (n, rest)) :
    rest.length ≤ payload.length := by
  induction payload generalizing total with
  | nil => simp [readExtension] at h
  | cons b payload ih =>
    unfold readExtension at h
    split at h
    · exact Nat.le_succ_of_le (ih h)
    · cases h; exact Nat.le_succ _

theorem decompress_length (h : decompress payload limit = some out) :
    out.length ≤ payload.length ∧ out.length ≤ limit := by
  unfold decompress at h
  split at h
  · cases h
  rename_i token rest
  dsimp only at h
  split at h
  · cases h
  rename_i n literals parsed
  split at h
  case isFalse => cases h
  rename_i fits
  cases h
  refine ⟨?_, fits.1.symm ▸ fits.2⟩
  split at parsed
  · exact Nat.le_succ_of_le (readExtension_length parsed)
  · cases parsed; exact Nat.le_succ _

end Warm.PlainCodec
