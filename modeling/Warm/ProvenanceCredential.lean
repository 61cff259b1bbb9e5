import Warm.Checked
import Warm.ProvenanceCodec

/-! Verifiable credentials: the typed reading of a credential's JSON, its semantic checks and its
Data Integrity proof. -/
namespace Warm.Provenance

open Bytes Binary

structure CredentialStatus where
  id : String
  statusType : String
  statusPurpose : String
  statusListIndex : String
  statusListCredential : String

structure FactSubject where
  id : String
  sourceUri : Option String
  contentHash : String
  encodingMethod : String
  dimensions : Nat
  subjectId : Option String
  relationId : Option String
  objectId : Option String

structure DataIntegrityProof where
  context : Option Value
  proofType : String
  cryptosuite : String
  created : String
  verificationMethod : String
  proofPurpose : String
  proofValue : String
  extra : List (String × Value)

/-- A `FactCredential`; of the flattened fields only those of the credential itself are read. -/
structure FactCredential where
  context : List String
  credentialType : List String
  id : String
  issuer : String
  validFrom : String
  credentialSubject : FactSubject
  credentialStatus : Option CredentialStatus
  proof : Option DataIntegrityProof
  extra : List (String × Value)

namespace Value

/-- A field of a derived `Deserialize`: a repeated key is an error. -/
def field (key : String) (entries : List (String × Value)) : Option (Option Value) :=
  match entries.filter fun entry => entry.1 = key with
  | [] => some none
  | [entry] => some (some entry.2)
  | _ => none

def required {α : Type} (read : Value → Option α) (key : String) (entries : List (String × Value)) : Option α := do
  read (← (← field key entries))

/-- An `Option` field: absent and `null` are both `None`. -/
def optional {α : Type} (read : Value → Option α) (key : String) (entries : List (String × Value)) :
    Option (Option α) := do
  match ← field key entries with
  | none => some none
  | some .null => some none
  | some value => (read value).map some

def strings : Value → Option (List String)
  | .array items => items.mapM asStr
  | _ => none

/-- A `u32`: only an unsigned integer fits. -/
def asU32 : Value → Option Nat
  | .number text =>
    if text.toList ≠ [] ∧ text.toList.all Char.isDigit then
      (parseU64 text).bind fun value => if value < 2 ^ 32 then some value else none
    else none
  | _ => none

def flattened (known : List String) (entries : List (String × Value)) : List (String × Value) :=
  collect (collapseEntries (entries.filter fun entry => entry.1 ∉ known))

def asStatus : Value → Option CredentialStatus
  | .object entries => do
    some {
      id := ← required asStr "id" entries
      statusType := ← required asStr "type" entries
      statusPurpose := ← required asStr "statusPurpose" entries
      statusListIndex := ← required asStr "statusListIndex" entries
      statusListCredential := ← required asStr "statusListCredential" entries }
  | _ => none

def asSubject : Value → Option FactSubject
  | .object entries => do
    some {
      id := ← required asStr "id" entries
      sourceUri := ← optional asStr "sourceUri" entries
      contentHash := ← required asStr "contentHash" entries
      encodingMethod := ← required asStr "encodingMethod" entries
      dimensions := ← required asU32 "dimensions" entries
      subjectId := ← optional asStr "subjectId" entries
      relationId := ← optional asStr "relationId" entries
      objectId := ← optional asStr "objectId" entries }
  | _ => none

def PROOF_FIELDS : List String :=
  ["@context", "type", "cryptosuite", "created", "verificationMethod", "proofPurpose", "proofValue"]

def asProof : Value → Option DataIntegrityProof
  | .object entries => do
    some {
      context := ← optional (fun value => some value.collapse) "@context" entries
      proofType := ← required asStr "type" entries
      cryptosuite := ← required asStr "cryptosuite" entries
      created := ← required asStr "created" entries
      verificationMethod := ← required asStr "verificationMethod" entries
      proofPurpose := ← required asStr "proofPurpose" entries
      proofValue := ← required asStr "proofValue" entries
      extra := flattened PROOF_FIELDS entries }
  | _ => none

def CREDENTIAL_FIELDS : List String :=
  ["@context", "type", "id", "issuer", "validFrom", "credentialSubject", "credentialStatus", "proof"]

/-- `serde_json::from_str::<FactCredential>` on a parsed text. -/
def asCredential : Value → Option FactCredential
  | .object entries => do
    some {
      context := ← required strings "@context" entries
      credentialType := ← required strings "type" entries
      id := ← required asStr "id" entries
      issuer := ← required asStr "issuer" entries
      validFrom := ← required asStr "validFrom" entries
      credentialSubject := ← required asSubject "credentialSubject" entries
      credentialStatus := ← optional asStatus "credentialStatus" entries
      proof := ← optional asProof "proof" entries
      extra := flattened CREDENTIAL_FIELDS entries }
  | _ => none

/-- `serde_json::to_value` of a proof. -/
def ofProof (proof : DataIntegrityProof) : Value :=
  let named := [("type", Value.string proof.proofType), ("cryptosuite", .string proof.cryptosuite),
    ("created", .string proof.created), ("verificationMethod", .string proof.verificationMethod),
    ("proofPurpose", .string proof.proofPurpose), ("proofValue", .string proof.proofValue)]
  let context := match proof.context with
    | none => []
    | some value => [("@context", value)]
  .object (collect (context ++ named ++ proof.extra))

end Value

def invalidStamp : String := "timestamp must be an RFC 3339 dateTimeStamp"

def isAsciiDigit (byte : UInt8) : Bool := 48 ≤ byte ∧ byte ≤ 57

/-- The closure `field(start, end)`: the digits of a slice as a number. -/
def stampField (b : Bytes) (start stop : Nat) : Except String Int :=
  if stop > b.length then .error invalidStamp
  else
    let part := (b.take stop).drop start
    if part.all isAsciiDigit then .ok (part.foldl (fun value digit => value * 10 + (digit.toNat - 48 : Int)) 0)
    else .error invalidStamp

def daysInMonth (leap : Bool) (month : Int) : Int :=
  [31, if leap then 29 else 28, 31, 30, 31, 30, 31, 31, 30, 31, 30, 31].getD (month - 1).toNat 0

def trimZeros (digits : Bytes) : Bytes := (digits.reverse.dropWhile (· == 48)).reverse

/-- The offset after the fraction: `Z`, or a signed `hh:mm`. -/
def stampOffset (b : Bytes) (pos : Nat) : Except String Int :=
  let tz := b.drop pos
  if tz = [90] then .ok 0
  else if tz.length = 6 ∧ (tz.headD 0 = 43 ∨ tz.headD 0 = 45) ∧ tz.getD 3 0 = 58 then do
    let hours ← stampField b (pos + 1) (pos + 3)
    let minutes ← stampField b (pos + 4) (pos + 6)
    if hours > 14 ∨ minutes > 59 ∨ (hours = 14 ∧ minutes ≠ 0) then .error invalidStamp
    else .ok ((if tz.headD 0 = 43 then 1 else -1) * (hours * 3600 + minutes * 60))
  else .error invalidStamp

/-- Seconds since the epoch and the fraction's digits without trailing zeros. -/
def parseDatetimeStamp (value : String) : Except String (Int × Bytes) := do
  let b := utf8 value
  if b.length < 20 ∨ b.getD 4 0 ≠ 45 ∨ b.getD 7 0 ≠ 45 ∨ b.getD 10 0 ≠ 84 ∨ b.getD 13 0 ≠ 58 ∨ b.getD 16 0 ≠ 58 then
    .error invalidStamp
  let year ← stampField b 0 4
  let month ← stampField b 5 7
  let day ← stampField b 8 10
  let hour ← stampField b 11 13
  let minute ← stampField b 14 16
  let second ← stampField b 17 19
  let leap : Bool := year % 4 = 0 ∧ (year % 100 ≠ 0 ∨ year % 400 = 0)
  if ¬ (1 ≤ year ∧ year ≤ 9999) ∨ ¬ (1 ≤ month ∧ month ≤ 12) ∨ ¬ (1 ≤ day ∧ day ≤ daysInMonth leap month) ∨
      hour > 23 ∨ minute > 59 ∨ second > 59 then
    .error invalidStamp
  let dotted : Bool := b.getD 19 0 = 46
  let fraction := if dotted then (b.drop 20).takeWhile isAsciiDigit else []
  if dotted ∧ fraction = [] then
    .error invalidStamp
  let offset ← stampOffset b (if dotted then 20 + fraction.length else 19)
  let adjustedYear := if month ≤ 2 then year - 1 else year
  let era := adjustedYear.ediv 400
  let yoe := adjustedYear - era * 400
  let mp := month + (if month > 2 then -3 else 9)
  let doy := (153 * mp + 2) / 5 + day - 1
  let doe := yoe * 365 + yoe / 4 - yoe / 100 + doy
  let days := era * 146097 + doe - 719468
  .ok (days * 86400 + hour * 3600 + minute * 60 + second - offset, trimZeros fraction)

/-- The clock as the checks read it: seconds and the nanosecond digits without trailing zeros. -/
abbrev StatusTime := Int × Bytes

/-- The order of a pair of seconds and digits. -/
def StatusTime.le (a b : StatusTime) : Bool := a.1 < b.1 || (a.1 = b.1 && ! decide (b.2 < a.2))

def validateUrl (lib : Libraries) (url : String) : Except String Unit := do
  if (utf8 url).length > 2048 then
    .error "status list URL exceeds 2048 bytes"
  let uri ← (lib.uri url).mapError fun e => "invalid status list URL: " ++ e
  let some authority := uri.authority | .error "status list URL has no authority"
  let text := authority.text.toList
  let tail := (text.dropWhile (· != ']')).drop 1
  let portValid : Bool :=
    if text.head? = some '[' then ']' ∈ text ∧ (tail = [] ∨ (tail.head? = some ':' ∧ authority.port.isSome))
    else ':' ∉ text ∨ authority.port.isSome
  if uri.scheme = some "https" ∧ authority.host ≠ "" ∧ '@' ∉ text ∧ '#' ∉ url.toList ∧
      (utf8 url).all (fun b => ¬ (b ≤ 0x20 ∨ b = 0x7f)) ∧ portValid then
    .ok ()
  else
    .error "status list URL must be an HTTPS URL with a valid authority and no fragment"

def isHexDigit (byte : UInt8) : Bool := isAsciiDigit byte || (97 ≤ byte && byte ≤ 102) || (65 ≤ byte && byte ≤ 70)

def ensure (condition : Prop) [Decidable condition] (message : String) : Except String Unit :=
  if condition then .ok () else .error message

/-- `validUntil` of the flattened fields, when there is one. -/
def checkValidUntil (extra : List (String × Value)) (start now : StatusTime) : Except String Unit :=
  match Value.lookup "validUntil" extra with
  | none => .ok ()
  | some value => do
    let some text := value.asStr | .error "validUntil must be a dateTimeStamp string"
    let stop ← parseDatetimeStamp text
    ensure (start.le stop) "credential validity interval is inverted"
    ensure (now.le stop) "credential has expired"

def checkStatus (lib : Libraries) (status : CredentialStatus) : Except String Unit := do
  ensure (status.statusType = "BitstringStatusListEntry" ∧ status.statusPurpose = "revocation" ∧
    status.id ≠ status.statusListCredential ∧ (utf8 status.statusListIndex).all isAsciiDigit ∧
    status.statusListIndex ≠ "") "invalid revocation status entry"
  let some _ := parseU64 status.statusListIndex | .error "number too large to fit in target type"
  if startsWith status.statusListCredential "did:key:" then .ok ()
  else validateUrl lib status.statusListCredential

def validateFactCredential (lib : Libraries) (now : StatusTime) (credential : FactCredential) : Except String Unit := do
  ensure (credential.context.head? = some "https://www.w3.org/ns/credentials/v2") "credential has no VC v2 context"
  ensure ("VerifiableCredential" ∈ credential.credentialType ∧ "HMSFactCredential" ∈ credential.credentialType)
    "credential has no VC or WARM fact type"
  ensure (credential.id ≠ "" ∧ startsWith credential.issuer "did:key:") "credential id or issuer is invalid"
  let start ← parseDatetimeStamp credential.validFrom
  ensure (StatusTime.le start now) "credential is not yet valid"
  checkValidUntil credential.extra start now
  let subject := credential.credentialSubject
  ensure (startsWith subject.id "urn:hms:fact:" ∧ subject.id.toList.length > "urn:hms:fact:".toList.length ∧
    (utf8 subject.contentHash).length = 64 ∧ (utf8 subject.contentHash).all isHexDigit ∧
    subject.encodingMethod = "holographic-reduced-representation") "invalid WARM fact subject"
  let tripleCount := ([subject.subjectId, subject.relationId, subject.objectId].filter Option.isSome).length
  ensure (tripleCount = 0 ∨ tripleCount = 3) "incomplete fact triple"
  match credential.credentialStatus with
  | none => .ok ()
  | some status => checkStatus lib status

def PROOF_TYPE : String := "DataIntegrityProof"
def CRYPTOSUITE : String := "eddsa-jcs-2022"
def PROOF_PURPOSE : String := "assertionMethod"

def proofHashData (lib : Libraries) (unsigned proofOptions : Value) : Except String Bytes := do
  let options ← (lib.jcs proofOptions).mapError fun e => "JCS serialization failed: " ++ e
  let document ← (lib.jcs unsigned).mapError fun e => "JCS serialization failed: " ++ e
  .ok ((lib.sha256 options).val ++ (lib.sha256 document).val)

/-- Proofs made before canonicalization hash the document with a null proof. -/
def legacyProofHashData (lib : Libraries) (unsigned : List (String × Value)) (proofOptions : Value) : Bytes :=
  (lib.sha256 (lib.toVec proofOptions)).val ++
    (lib.sha256 (lib.toVec (.object (Value.insertEntry "proof" .null unsigned)))).val

/-- The document and the proof options that are hashed, once the proof's context is checked
against the document's. -/
def signedContext (object : List (String × Value)) (proof : DataIntegrityProof) (options : List (String × Value)) :
    Except String (List (String × Value) × List (String × Value)) :=
  match proof.context with
  | none => .ok (object, options)
  | some (.array signed) =>
    match Value.lookup "@context" object with
    | some (.array whole) =>
      if signed.isPrefixOf whole then
        .ok (Value.insertEntry "@context" (.array signed) object, Value.insertEntry "@context" (.array signed) options)
      else .error "proof @context does not prefix credential @context"
    | _ => .error "credential @context must be an array"
  | some _ => .error "proof @context must be an array"

def removeEntry (key : String) (entries : List (String × Value)) : List (String × Value) :=
  entries.filter fun entry => entry.1 ≠ key

def proofOptions (proof : DataIntegrityProof) : List (String × Value) :=
  match Value.ofProof proof with
  | .object entries => removeEntry "proofValue" entries
  | _ => []

/-- The key a verification method identifies. It must be the issuer's. -/
def methodKey (lib : Libraries) (issuer : String) (proof : DataIntegrityProof) : Except String Array32 := do
  let didPart := beforeFragment proof.verificationMethod
  let issuerDid := beforeFragment issuer
  ensure (didPart = issuerDid)
    ("verification method DID (" ++ didPart ++ ") does not match credential issuer (" ++ issuerDid ++ ")")
  let some multikey := stripStart "did:key:" didPart | .error "verification method is not a did:key"
  ensure (proof.verificationMethod = didPart ++ "#" ++ multikey ∨
    (proof.context.isNone ∧ proof.verificationMethod = didPart ++ "#key-0"))
    "verification method does not identify the issuer's key"
  let bytes ← ed25519FromDidKey lib didPart
  (verifyingKey lib bytes).mapError fun e => "invalid public key: " ++ e

/-- `multibase::decode` of a proof value, and `Signature::from_slice`. -/
def proofSignature (lib : Libraries) (proof : DataIntegrityProof) : Except String Bytes := do
  ensure (startsWith proof.proofValue "z") "VC proofValue must use base58btc multibase"
  let decoded ← (lib.decodeMultibase proof.proofValue).mapError fun e => "multibase decode failed: " ++ e
  ensure (decoded.2.length = 64) "invalid signature: signature error"
  .ok decoded.2

/-- Verifies a proof over a document without one and returns the issuer's key. -/
def verifyDocument (lib : Libraries) (object : List (String × Value)) (issuer : String)
    (proof : DataIntegrityProof) : Except String Array32 := do
  ensure (proof.proofType = PROOF_TYPE ∧ proof.cryptosuite = CRYPTOSUITE ∧ proof.proofPurpose = PROOF_PURPOSE)
    "unsupported proof type, cryptosuite, or purpose"
  let _ ← parseDatetimeStamp proof.created
  let key ← methodKey lib issuer proof
  let signature ← proofSignature lib proof
  let hashed ← signedContext (removeEntry "proof" object) proof (proofOptions proof)
  let hashData ← proofHashData lib (.object hashed.1) (.object hashed.2)
  if lib.verify key hashData signature ∨
      (proof.context.isNone ∧ lib.verify key (legacyProofHashData lib hashed.1 (.object hashed.2)) signature) then
    .ok key
  else
    .error "VC signature verification failed"

def documentIssuer (object : List (String × Value)) : Option String :=
  (Value.lookup "issuer" object).bind fun value => value.asStr.or ((value.get "id").bind Value.asStr)

/-- `verify_credential_json`, with the key `verify_document` returns. -/
def verifyCredentialJson (lib : Libraries) (json : String) : Except String Array32 := do
  let .object object := (← lib.fromStr json).collapse | .error "credential must be a JSON object"
  let some issuer := documentIssuer object
    | .error "credential issuer must be a URL or an object with an id URL"
  let some proofValue := Value.lookup "proof" object | .error "credential has no proof"
  let some proof := proofValue.asProof | .error (lib.credentialError json)
  ensure (Value.ofProof proof == proofValue) "credential proof contains unsupported fields"
  verifyDocument lib (removeEntry "proof" object) issuer proof

/-! ### Checks that pass -/

@[simp] theorem ensure_eq_ok [Decidable condition] : ensure condition message = .ok () ↔ condition := by
  unfold ensure
  split <;> simp_all

end Warm.Provenance
