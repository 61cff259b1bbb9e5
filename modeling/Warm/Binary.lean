import Warm.Bytes

/-! The varint encoding of journal records and the reader over untrusted bytes. A reader is the
bytes it has not read yet; every read fails instead of reading past them. -/
namespace Warm.Binary

inductive DecodeError where
  | truncated
  | varintOverflow
  | outOfRange (what : String) (value : Nat)
  | notUtf8
  | countExceedsRecord (count : Nat)
  | termPrefix
  | dictionarySize
  | termNotUtf8
  | termOrder
  | sourceFlag (flag : UInt8)
  | metadata
  | chunkFlags (flags : UInt8)
  | vectorState (state : Nat)
  | vectorIndexOverflow
  | termIdOrder
  | termIdOverflow
  | termIdUnknown (id : Nat)
  | positionsVersion (version : UInt8)
  | positionsCount
  | positionsPayload
  | positionsInvalid
  | magic
  | json
  | mutationTag (tag : UInt8)
  | trailingBytes
  deriving DecidableEq, Repr

/-- A read of a value off the front of the remaining bytes. -/
abbrev Reader (α : Type) := StateT Bytes (Except DecodeError) α

/-- Seven bits a byte, lowest first, the high bit on every byte but the last. A `u64` takes at
most ten bytes, so nine may continue. -/
def putVarintFrom : Nat → Nat → Bytes
  | 0, value => [UInt8.ofNat value]
  | more + 1, value =>
    if value < 0x80 then [UInt8.ofNat value]
    else UInt8.ofNat (value % 0x80 + 0x80) :: putVarintFrom more (value / 0x80)

def putVarint (value : Nat) : Bytes := putVarintFrom 9 value

def utf8 (text : String) : Bytes := text.toByteArray.data.toList

def putBytes (bytes : Bytes) : Bytes := putVarint bytes.length ++ bytes

theorem utf8_ofList (letters : List Char) : utf8 (String.ofList letters) = letters.flatMap String.utf8EncodeChar := by
  simp [utf8, String.toByteArray_ofList, List.utf8Encode]

namespace Reader

def ensure (condition : Prop) [Decidable condition] (error : DecodeError) : Reader Unit :=
  if condition then pure () else throw error

def take (len : Nat) : Reader Bytes := fun data =>
  if len ≤ data.length then .ok (data.take len, data.drop len) else .error .truncated

def byte : Reader UInt8 := fun data =>
  match data with
  | [] => .error .truncated
  | b :: rest => .ok (b, rest)

/-- The loop over the shifts 0, 7, …, 63; `count` are left. The seven bits of a byte do not meet
the bits below `shift`, so or-ing them in is adding them. -/
def varintFrom : Nat → Nat → Nat → Reader Nat
  | 0, _, _ => throw .varintOverflow
  | count + 1, shift, value => do
    let byte ← byte
    ensure (shift < 63 ∨ byte ≤ 1) .varintOverflow
    let value := value + byte.toNat % 0x80 * 2 ^ shift
    if byte < 0x80 then pure value else varintFrom count (shift + 7) value

def varint : Reader Nat := varintFrom 10 0 0

/-- `number::<u32>`, or `number::<usize>` at 64 bits. -/
def number (bits : Nat) (what : String) : Reader Nat := do
  let value ← varint
  ensure (value < 2 ^ bits) (.outOfRange what value)
  pure value

def bytes : Reader Bytes := do
  let len ← number 64 "byte length"
  take len

/-- `std::str::from_utf8`. -/
def fromUtf8 (data : Bytes) : Option String := String.fromUTF8? ⟨data.toArray⟩

def str : Reader String := do
  let data ← bytes
  match fromUtf8 data with
  | some text => pure text
  | none => throw .notUtf8

/-- A count of elements of at least `min` bytes each, bounded by the bytes left. -/
def count (min : Nat) : Reader Nat := do
  let count ← number 64 "count"
  let data ← get
  ensure (count ≤ data.length / max min 1) (.countExceedsRecord count)
  pure count

theorem bind_ok {read : Reader α} (ran : read data = .ok (a, rest)) (next : α → Reader β) :
    (read >>= next) data = next a rest := by
  change (read data >>= fun p => next p.1 p.2) = _
  rw [ran]
  rfl

theorem bind_error {read : Reader α} (failed : read data = .error e) (next : α → Reader β) :
    (read >>= next) data = .error e := by
  change (read data >>= fun p => next p.1 p.2) = _
  rw [failed]
  rfl

theorem ensure_ok [Decidable condition] (holds : condition) (error : DecodeError) (data : Bytes) :
    ensure condition error data = .ok ((), data) := by
  rw [ensure, if_pos holds]
  rfl

theorem ensure_error [Decidable condition] (fails : ¬condition) (error : DecodeError) (data : Bytes) :
    ensure condition error data = .error error := by
  rw [ensure, if_neg fails]
  rfl

theorem take_append (front rest : Bytes) : take front.length (front ++ rest) = .ok (front, rest) := by
  simp [take]

theorem byte_cons (b : UInt8) (rest : Bytes) : byte (b :: rest) = .ok (b, rest) := rfl

theorem varintFrom_putVarintFrom (more shift base value : Nat) (rest : Bytes)
    (fits : value * 2 ^ shift < 2 ^ 64) (room : shift + 7 * more = 63) :
    varintFrom (more + 1) shift base (putVarintFrom more value ++ rest) =
      .ok (base + value * 2 ^ shift, rest) := by
  induction more generalizing shift base value with
  | zero =>
    obtain rfl : shift = 63 := by omega
    have small : value < 2 := by omega
    have byteValue : (UInt8.ofNat value).toNat = value := by
      rw [UInt8.toNat_ofNat']
      omega
    rw [putVarintFrom, varintFrom, List.singleton_append, bind_ok (byte_cons _ _),
      bind_ok (ensure_ok (.inr (by rw [UInt8.le_iff_toNat_le, byteValue]; exact Nat.le_of_lt_succ small)) _ _),
      if_pos (by rw [UInt8.lt_iff_toNat_lt, byteValue]; exact Nat.lt_of_lt_of_le small (by decide)),
      byteValue, Nat.mod_eq_of_lt (Nat.lt_of_lt_of_le small (by decide))]
    rfl
  | succ more ih =>
    have early : shift < 63 := by omega
    by_cases last : value < 0x80
    · have byteValue : (UInt8.ofNat value).toNat = value := by
        rw [UInt8.toNat_ofNat']
        omega
      rw [putVarintFrom, if_pos last, varintFrom, List.singleton_append, bind_ok (byte_cons _ _),
        bind_ok (ensure_ok (.inl early) _ _),
        if_pos (by rw [UInt8.lt_iff_toNat_lt, byteValue]; exact last), byteValue, Nat.mod_eq_of_lt last]
      rfl
    · have byteValue : (UInt8.ofNat (value % 0x80 + 0x80)).toNat = value % 0x80 + 0x80 := by
        rw [UInt8.toNat_ofNat']
        omega
      have scaled : 2 ^ (shift + 7) = 2 ^ shift * 0x80 := Nat.pow_add 2 shift 7
      have split : value * 2 ^ shift = value / 0x80 * 2 ^ (shift + 7) + value % 0x80 * 2 ^ shift := by
        conv_lhs => rw [← Nat.div_add_mod value 0x80, Nat.add_mul]
        rw [scaled, Nat.mul_comm 0x80, Nat.mul_assoc, Nat.mul_comm 0x80]
      rw [putVarintFrom, if_neg last, List.cons_append, varintFrom, bind_ok (byte_cons _ _),
        bind_ok (ensure_ok (.inl early) _ _),
        if_neg (by rw [UInt8.lt_iff_toNat_lt, byteValue]; exact Nat.not_lt.mpr (Nat.le_add_left _ _)),
        byteValue, ih (shift + 7) _ (value / 0x80) (by omega) (by omega), Nat.add_mod_right,
        Nat.mod_mod, split, Nat.add_assoc, Nat.add_comm (value % 0x80 * 2 ^ shift)]

theorem varint_putVarint (value : Nat) (rest : Bytes) (fits : value < 2 ^ 64) :
    varint (putVarint value ++ rest) = .ok (value, rest) := by
  rw [varint, putVarint, varintFrom_putVarintFrom 9 0 0 value rest (by omega) rfl]
  simp

theorem number_putVarint (what : String) (value : Nat) (rest : Bytes) (fits : value < 2 ^ bits)
    (bounded : bits ≤ 64) : number bits what (putVarint value ++ rest) = .ok (value, rest) := by
  have small : value < 2 ^ 64 := Nat.lt_of_lt_of_le fits (Nat.pow_le_pow_right (by decide) bounded)
  rw [number, bind_ok (varint_putVarint value rest small), bind_ok (ensure_ok fits _ _)]
  rfl

theorem bytes_putBytes (data rest : Bytes) (fits : data.length < 2 ^ 64) :
    bytes (putBytes data ++ rest) = .ok (data, rest) := by
  rw [bytes, putBytes, List.append_assoc,
    bind_ok (number_putVarint _ data.length _ fits (Nat.le_refl 64)), take_append]

theorem fromUtf8_utf8 (text : String) : fromUtf8 (utf8 text) = some text := by
  have same : (⟨(utf8 text).toArray⟩ : ByteArray) = text.toByteArray := by
    simp [utf8]
  rw [fromUtf8, same, String.fromUTF8?, dif_pos text.isValidUTF8]
  rfl

theorem str_putBytes (text : String) (rest : Bytes) (fits : (utf8 text).length < 2 ^ 64) :
    str (putBytes (utf8 text) ++ rest) = .ok (text, rest) := by
  rw [str, bind_ok (bytes_putBytes _ rest fits), fromUtf8_utf8]
  rfl

theorem count_putVarint (min value : Nat) (rest : Bytes) (fits : value < 2 ^ 64)
    (room : value ≤ rest.length / max min 1) :
    count min (putVarint value ++ rest) = .ok (value, rest) := by
  rw [count, bind_ok (number_putVarint _ value rest fits (Nat.le_refl 64))]
  rw [bind_ok (show (get : Reader Bytes) rest = .ok (rest, rest) from rfl), bind_ok (ensure_ok room _ _)]
  rfl

theorem count_putVarint_error (min value : Nat) (rest : Bytes) (fits : value < 2 ^ 64)
    (full : rest.length / max min 1 < value) :
    count min (putVarint value ++ rest) = .error (.countExceedsRecord value) := by
  rw [count, bind_ok (number_putVarint _ value rest fits (Nat.le_refl 64))]
  rw [bind_ok (show (get : Reader Bytes) rest = .ok (rest, rest) from rfl),
    bind_error (ensure_error (Nat.not_le.mpr full) _ _)]

end Reader

end Warm.Binary
