import Warm.Binary
import Mathlib.Data.List.Basic

/-! What the provenance code reads of its formats: JSON and CBOR values as the parsers hand them
over, COSE envelopes, did:key identifiers and time stamps. The parsers, SHA-256 and Ed25519 are
library code and are the fields of `Libraries`. -/
namespace Warm.Provenance

open Bytes Binary

/-- A `[u8; 32]`. -/
abbrev Array32 := { bytes : Bytes // bytes.length = 32 }

/-- `<[u8; 32]>::try_from`. -/
def Array32.tryFrom (bytes : Bytes) : Option Array32 :=
  if sized : bytes.length = 32 then some ⟨bytes, sized⟩ else none

/-- A JSON value. A number is the text `serde_json` prints for it. A parsed text keeps the entries
of an object as they stand in it; in a `serde_json::Value` they are in key order, each key once. -/
inductive Value where
  | null
  | bool (value : Bool)
  | number (text : String)
  | string (text : String)
  | array (items : List Value)
  | object (entries : List (String × Value))
  deriving Repr

namespace Value

mutual
def beq : Value → Value → Bool
  | .null, .null => true
  | .bool a, .bool b => a == b
  | .number a, .number b => a == b
  | .string a, .string b => a == b
  | .array as, .array bs => beqItems as bs
  | .object as, .object bs => beqEntries as bs
  | _, _ => false

def beqItems : List Value → List Value → Bool
  | [], [] => true
  | a :: as, b :: bs => beq a b && beqItems as bs
  | _, _ => false

def beqEntries : List (String × Value) → List (String × Value) → Bool
  | [], [] => true
  | (key, a) :: as, (other, b) :: bs => key == other && beq a b && beqEntries as bs
  | _, _ => false
end

instance : BEq Value := ⟨beq⟩

/-- `Map::insert`: the map is a B-tree, so entries are in key order. -/
def insertEntry {α : Type} (key : String) (value : α) : List (String × α) → List (String × α)
  | [] => [(key, value)]
  | entry :: entries =>
    if key < entry.1 then (key, value) :: entry :: entries
    else if entry.1 = key then (key, value) :: entries
    else entry :: insertEntry key value entries

/-- The entries of a parsed object as a map: the last of a repeated key stands. -/
def collect {α : Type} (entries : List (String × α)) : List (String × α) :=
  entries.foldl (fun map entry => insertEntry entry.1 entry.2 map) []

mutual
/-- `serde_json::from_str::<Value>` on a parsed text. -/
def collapse : Value → Value
  | .array items => .array (collapseItems items)
  | .object entries => .object (collect (collapseEntries entries))
  | value => value

def collapseItems : List Value → List Value
  | [] => []
  | item :: items => collapse item :: collapseItems items

def collapseEntries : List (String × Value) → List (String × Value)
  | [] => []
  | (key, value) :: entries => (key, collapse value) :: collapseEntries entries
end

def lookup (key : String) (entries : List (String × Value)) : Option Value :=
  (entries.find? fun entry => entry.1 = key).map (·.2)

def asStr : Value → Option String
  | .string text => some text
  | _ => none

/-- `Value::get` with a string index. -/
def get (key : String) : Value → Option Value
  | .object entries => lookup key entries
  | _ => none

end Value

/-- A `ciborium::Value`; `other` stands for the kinds no check looks into. -/
inductive Cbor where
  | integer (value : Int)
  | bytes (value : Bytes)
  | text (value : String)
  | array (items : List Cbor)
  | map (entries : List (Cbor × Cbor))
  | tag (number : Nat) (value : Cbor)
  | other (code : Nat)
  deriving Repr

namespace Cbor

mutual
def beq : Cbor → Cbor → Bool
  | .integer a, .integer b => a == b
  | .bytes a, .bytes b => a == b
  | .text a, .text b => a == b
  | .array as, .array bs => beqItems as bs
  | .map as, .map bs => beqEntries as bs
  | .tag n a, .tag m b => n == m && beq a b
  | .other a, .other b => a == b
  | _, _ => false

def beqItems : List Cbor → List Cbor → Bool
  | [], [] => true
  | a :: as, b :: bs => beq a b && beqItems as bs
  | _, _ => false

def beqEntries : List (Cbor × Cbor) → List (Cbor × Cbor) → Bool
  | [], [] => true
  | (key, a) :: as, (label, b) :: bs => beq key label && beq a b && beqEntries as bs
  | _, _ => false
end

instance : BEq Cbor := ⟨beq⟩

end Cbor

def Cbor.asText : Cbor → Option String
  | .text value => some value
  | _ => none

/-- The header parameters a critical list may name, and any other label. -/
inductive Critical where
  | alg
  | contentType
  | kid
  | unsupported
  deriving DecidableEq, Repr

/-- The labels of `HeaderParameter::{Alg, ContentType, Kid}`. -/
def Critical.label : Critical → Option Int
  | .alg => some 1
  | .contentType => some 3
  | .kid => some 4
  | .unsupported => none

/-- What `coset` decodes of a header map. `entries` is `to_cbor_value`. -/
structure Header where
  algEdDSA : Bool
  hasAlg : Bool
  crit : List Critical
  keyId : Bytes
  entries : Except String (List (Cbor × Cbor))

/-- A decoded `CoseSign1`, with the bytes `verify_signature` hands to the verifier. -/
structure CoseSign1 where
  protectedHeader : Header
  unprotected : Header
  payload : Option Bytes
  signature : Bytes
  signedData : Bytes

inductive Base where
  | base58Btc
  | other (code : Char)
  deriving DecidableEq, Repr

structure Authority where
  text : String
  host : String
  port : Option Nat

/-- The parts of an `http::Uri` that are read. -/
structure Uri where
  scheme : Option String
  authority : Option Authority

/-- The library functions the verifiers call. `fromStr` is the JSON parser before a target type is
chosen, and `credentialError` the text of serde's error when the target does not fit. -/
structure Libraries where
  sha256 : Bytes → Array32
  fromBytes : Array32 → Except String Unit
  verify : Array32 → Bytes → Bytes → Bool
  verifyStrict : Array32 → Bytes → Bytes → Bool
  encodeBase58 : Bytes → String
  decodeMultibase : String → Except String (Base × Bytes)
  fromReader : Bytes → Except String (Cbor × Nat)
  fromReaderLimited : Bytes → Except String (Cbor × Nat)
  coseSign1 : Bytes → Except String CoseSign1
  fromStr : String → Except String Value
  credentialError : String → String
  jcs : Value → Except String Bytes
  toVec : Value → Bytes
  uri : String → Except String Uri
  debug : String → String

/-- Documented behaviour of multibase: base58btc reads back what it wrote, and `#` is not in its
alphabet. -/
structure Libraries.Lawful (lib : Libraries) : Prop where
  base58 : ∀ bytes, lib.decodeMultibase (lib.encodeBase58 bytes) = .ok (.base58Btc, bytes)
  alphabet : ∀ text bytes, lib.decodeMultibase text = .ok (.base58Btc, bytes) → '#' ∉ text.toList

/-- `VerifyingKey::from_bytes`: a key is its 32 bytes. -/
def verifyingKey (lib : Libraries) (bytes : Array32) : Except String Array32 :=
  (lib.fromBytes bytes).map fun _ => bytes

/-- `str::starts_with`. -/
def startsWith (text start : String) : Bool := start.toList.isPrefixOf text.toList

/-- `str::strip_prefix`. -/
def stripStart (start text : String) : Option String :=
  if startsWith text start then some (String.ofList (text.toList.drop start.toList.length)) else none

/-- `split('#').next()`. -/
def beforeFragment (text : String) : String := String.ofList (text.toList.takeWhile fun c => c != '#')

def hexDigit (value : Nat) : Char := "0123456789abcdef".toList.getD value '0'

/-- Lowercase hex, two digits per byte. -/
def hexEncode (bytes : Bytes) : String :=
  String.ofList (bytes.flatMap fun byte => [hexDigit (byte.toNat / 16), hexDigit (byte.toNat % 16)])

def ED25519_MULTICODEC : Bytes := [0xed, 0x01]

def didKeyFromEd25519 (lib : Libraries) (publicKey : Array32) : String :=
  "did:key:" ++ lib.encodeBase58 (ED25519_MULTICODEC ++ publicKey.val)

def ed25519Multikey (lib : Libraries) (encoded : String) : Option Array32 :=
  match lib.decodeMultibase encoded with
  | .error _ => none
  | .ok (base, decoded) =>
    if base ≠ .base58Btc then none
    else if ED25519_MULTICODEC.isPrefixOf decoded then Array32.tryFrom (decoded.drop 2)
    else none

def ed25519FromDidKey (lib : Libraries) (did : String) : Except String Array32 :=
  match stripStart "did:key:" did with
  | none => .error "not a did:key URI"
  | some multibasePart =>
    match ed25519Multikey lib multibasePart with
    | none => .error "not an Ed25519 did:key (wrong encoding, prefix or length)"
    | some key => .ok key

/-- `str::parse::<u64>`: digits after an optional plus sign, without overflow. -/
def parseU64 (text : String) : Option Nat :=
  let digits := match text.toList with
    | '+' :: rest => rest
    | all => all
  if digits ≠ [] ∧ digits.all Char.isDigit then
    let value := digits.foldl (fun value digit => value * 10 + (digit.toNat - 48)) 0
    if value < 2 ^ 64 then some value else none
  else none

theorem stripStart_append (start text : String) : stripStart start (start ++ text) = some text := by
  simp [stripStart, startsWith]

theorem stripStart_eq_some (found : stripStart start text = some rest) : text.toList = start.toList ++ rest.toList := by
  unfold stripStart at found
  split at found
  · rename_i begins
    simp only [Option.some.injEq] at found
    subst found
    obtain ⟨tail, split⟩ := List.isPrefixOf_iff_prefix.mp begins
    simp [← split]
  · cases found

end Warm.Provenance
