import Warm.ProvenanceCredential
import Mathlib.Data.Nat.Log

/-! Provenance records: their COSE envelopes, the claims an envelope signs, and the check that a
record's signed parts speak about the record and agree with each other. -/
namespace Warm.Provenance

open Bytes Binary

structure ProvenanceRecord where
  sourceUri : Option String
  sourceHash : Option Array32
  timestampMs : Nat
  sequence : Nat
  issuerDid : Option String
  coseEnvelope : Option Bytes
  vcJson : Option String
  scittReceipt : Option Bytes
  merkleProof : Option (List (Bool × Array32))
  deriving DecidableEq

/-- The labels of two header maps overlap. -/
def overlap (first second : List (Cbor × Cbor)) : Bool :=
  first.any fun entry => second.any fun other => entry.1 == other.1

def protectedMap (lib : Libraries) (raw : Bytes) : Except String (List (Cbor × Cbor)) := do
  let headers ← if raw = [] then .ok (Cbor.map []) else do
    let read ← lib.fromReaderLimited raw
    ensure (read.2 = raw.length) "trailing protected header bytes"
    .ok read.1
  let .map entries := headers | .error "protected headers are not a map"
  .ok entries

/-- The header checks of a COSE envelope, on its four fields. -/
def checkHeaders (lib : Libraries) (first second : Cbor) : Except String Unit := do
  let .bytes raw := first | .error "protected headers are not bytes"
  let protectedEntries ← protectedMap lib raw
  let .map unprotected := second | .error "unprotected headers are not a map"
  let critical := Cbor.integer 2
  ensure ((unprotected.any fun entry => entry.1 == critical) = false ∧ overlap protectedEntries unprotected = false)
    "COSE header maps overlap or crit is unprotected"
  match protectedEntries.find? fun entry => entry.1 == critical with
  | none => .ok ()
  | some (_, .array (_ :: _)) => .ok ()
  | some _ => .error "COSE critical list must be nonempty"

def decodeSign1 (lib : Libraries) (bytes : Bytes) : Except String CoseSign1 := do
  ensure (bytes.length ≤ 16 * 2 ^ 20) "COSE envelope exceeds size limit"
  let read ← lib.fromReaderLimited bytes
  ensure (read.2 = bytes.length) "trailing bytes after COSE envelope"
  let value := match read.1 with
    | .tag 18 value => value
    | value => value
  let .array fields := value | .error "COSE envelope is not an array"
  let [first, second, _, _] := fields | .error "invalid COSE_Sign1 shape"
  checkHeaders lib first second
  (lib.coseSign1 bytes).mapError fun e => "COSE deserialization failed: " ++ e

/-- Critical labels are understood, distinct and present in the protected map. -/
def checkCritical (entries : List (Cbor × Cbor)) : List Critical → List Int → Except String Unit
  | [], _ => .ok ()
  | critical :: rest, seen =>
    match critical.label with
    | none => .error "COSE has an unsupported critical header"
    | some label =>
      if label ∈ seen ∨ (entries.any fun entry => entry.1 == Cbor.integer label) = false then
        .error "COSE critical header is duplicated or absent"
      else checkCritical entries rest (label :: seen)

def verifyEd25519 (lib : Libraries) (sign1 : CoseSign1) (key : Array32) : Except String Unit := do
  ensure (sign1.protectedHeader.algEdDSA ∧ ¬ sign1.unprotected.hasAlg) "COSE requires a protected EdDSA algorithm"
  let protectedEntries ← sign1.protectedHeader.entries.mapError fun e => "invalid protected headers: " ++ e
  let unprotected ← sign1.unprotected.entries.mapError fun e => "invalid unprotected headers: " ++ e
  ensure (sign1.unprotected.crit = [] ∧ overlap protectedEntries unprotected = false)
    "COSE header maps overlap or contain unprotected critical headers"
  checkCritical protectedEntries sign1.protectedHeader.crit []
  ensure (sign1.signature.length = 64) "invalid signature bytes: signature error"
  ensure (lib.verifyStrict key sign1.signedData sign1.signature) "signature verification failed: signature error"

def verifyAndExtract (lib : Libraries) (key : Array32) (envelope : Bytes) : Except String Bytes := do
  let sign1 ← decodeSign1 lib envelope
  let some payload := sign1.payload | .error "COSE envelope has no payload"
  (verifyEd25519 lib sign1 key).mapError fun e => "COSE verification failed: " ++ e
  .ok payload

def extractKeyId (lib : Libraries) (envelope : Bytes) : Except String Bytes := do
  let sign1 ← decodeSign1 lib envelope
  ensure (sign1.protectedHeader.keyId ≠ []) "no key ID in COSE envelope"
  .ok sign1.protectedHeader.keyId

structure FactClaim where
  id : String
  contentHash : Array32
  timestampMs : Nat
  sourceUri : Option String
  deriving DecidableEq

def notAClaim : String := "signed payload is not a fact claim"

structure ClaimFields where
  id : Option String := none
  contentHash : Option Array32 := none
  timestampMs : Option Nat := none
  sourceUri : Option String := none

/-- One entry of a fact claim: unknown or repeated keys and wrong types are errors. -/
def ClaimFields.read (fields : ClaimFields) (entry : Cbor × Cbor) : Except String ClaimFields :=
  match entry.1.asText, entry.2 with
  | some "id", .text value =>
    if fields.id.isSome then .error notAClaim else .ok { fields with id := some value }
  | some "content_hash", .bytes value =>
    match Array32.tryFrom value with
    | none => .error notAClaim
    | some hash => if fields.contentHash.isSome then .error notAClaim else .ok { fields with contentHash := some hash }
  | some "timestamp_ms", .integer value =>
    if value < 0 ∨ value ≥ 2 ^ 64 then .error notAClaim
    else if fields.timestampMs.isSome then .error notAClaim
    else .ok { fields with timestampMs := some value.toNat }
  | some "source_uri", .text value =>
    if fields.sourceUri.isSome then .error notAClaim else .ok { fields with sourceUri := some value }
  | _, _ => .error notAClaim

def parseFactClaim (lib : Libraries) (payload : Bytes) : Except String FactClaim := do
  let read ← (lib.fromReader payload).mapError fun _ => notAClaim
  let .map entries := read.1 | .error notAClaim
  let fields ← entries.foldlM ClaimFields.read {}
  let some id := fields.id | .error notAClaim
  let some contentHash := fields.contentHash | .error notAClaim
  let some timestampMs := fields.timestampMs | .error notAClaim
  .ok ⟨id, contentHash, timestampMs, fields.sourceUri⟩

/-- How a batch's Merkle tree hashes its nodes. -/
inductive MerkleHashing where
  | legacy
  | rfc6962
  deriving DecidableEq, Repr

def MerkleHashing.leaf (lib : Libraries) : MerkleHashing → Array32 → Array32
  | .legacy, contentHash => contentHash
  | .rfc6962, contentHash => lib.sha256 (0x00 :: contentHash.val)

def MerkleHashing.node (lib : Libraries) : MerkleHashing → Array32 → Array32 → Array32
  | .legacy, left, right => lib.sha256 (left.val ++ right.val)
  | .rfc6962, left, right => lib.sha256 (0x01 :: left.val ++ right.val)

def BATCH_ROOT_TYPE : String := "hms-batch-root"
def BATCH_ROOT_VERSION : Nat := 2

def malformedRoot : String := "malformed batch root claim"

structure RootFields where
  version : Option Nat := none
  size : Option Nat := none
  root : Option Array32 := none

def u64Of (value : Int) : Option Nat := if value < 0 ∨ value ≥ 2 ^ 64 then none else some value.toNat

def RootFields.read (fields : RootFields) (entry : Cbor × Cbor) : Except String RootFields :=
  match entry.1.asText, entry.2 with
  | some "type", _ => .ok fields
  | some "v", .integer value => .ok { fields with version := u64Of value }
  | some "size", .integer value => .ok { fields with size := u64Of value }
  | some "root", .bytes value => .ok { fields with root := Array32.tryFrom value }
  | _, _ => .error malformedRoot

/-- The root and size of a batch root claim, or `none` when the payload is not one. -/
def parseBatchRootClaim (lib : Libraries) (payload : Bytes) : Except String (Option (Array32 × Nat)) :=
  match lib.fromReader payload with
  | .ok (.map entries, _) =>
    if (entries.any fun entry => entry.1.asText = some "type" ∧ entry.2.asText = some BATCH_ROOT_TYPE) = false then
      .ok none
    else if entries.length ≠ 4 then .error malformedRoot
    else do
      let fields ← entries.foldlM RootFields.read {}
      ensure (fields.version = some BATCH_ROOT_VERSION) "unsupported batch root claim version"
      let some root := fields.root | .error malformedRoot
      let some size := fields.size | .error malformedRoot
      .ok (some (root, size))
  | _ => .ok none

def merkleRootFromProof (lib : Libraries) (hashing : MerkleHashing) (leaf : Array32)
    (proof : List (Bool × Array32)) : Array32 :=
  proof.foldl (fun node sibling =>
    if sibling.1 then hashing.node lib sibling.2 node else hashing.node lib node sibling.2) leaf

/-- The content hash hashes up to `root` through the proof, which fits a tree of `size` leaves. -/
def checkInclusion (lib : Libraries) (hashing : MerkleHashing) (contentHash : Array32)
    (proof : Option (List (Bool × Array32))) (root : Bytes) (size : Option Nat) : Except String Unit := do
  let some proof := proof | .error "batch record has no inclusion proof"
  if let some size := size then
    ensure (size ≠ 0 ∧ proof.length ≤ Nat.clog 2 size)
      ("inclusion proof does not fit a tree of " ++ toString size ++ " leaves")
  ensure ((merkleRootFromProof lib hashing (hashing.leaf lib contentHash) proof).val = root)
    "content hash does not hash up to the signed batch root"

/-- The part of `check_binding` about the envelope: the fact id of its claim, if it signs one. -/
def checkEnvelope (lib : Libraries) (record : ProvenanceRecord) (sourceHash : Array32) (payload : Bytes)
    (hasCredential : Bool) : Except String (Option String) := do
  if payload.length = 32 then
    checkInclusion lib .legacy sourceHash record.merkleProof payload none
    ensure hasCredential "batch record has no credential"
    .ok none
  else
    match ← parseBatchRootClaim lib payload with
    | some (root, size) =>
      checkInclusion lib .rfc6962 sourceHash record.merkleProof root.val (some size)
      .ok none
    | none =>
      let claim ← parseFactClaim lib payload
      ensure (record.merkleProof.isNone) "record carries an inclusion proof but its envelope signs a single fact"
      ensure (claim.contentHash = sourceHash) "signed content hash differs from the record's"
      ensure (claim.timestampMs = record.timestampMs) "signed timestamp differs from the record's"
      ensure (claim.sourceUri.getD "" = record.sourceUri.getD "") "signed source differs from the record's"
      .ok (some claim.id)

/-- The part of `check_binding` about the credential. -/
def checkCredential (lib : Libraries) (record : ProvenanceRecord) (sourceHash : Array32) (signer : Option Array32)
    (claimedId : Option String) (credential : FactCredential) : Except String Unit := do
  let subject := credential.credentialSubject
  ensure (subject.contentHash = hexEncode sourceHash.val) "credential content hash differs from the record's"
  ensure (subject.sourceUri.getD "" = record.sourceUri.getD "") "credential source differs from the record's"
  ensure (record.issuerDid.all fun issuer => issuer = credential.issuer) "credential issuer differs from the record's"
  ensure (signer.all fun signer => didKeyFromEd25519 lib signer = credential.issuer)
    "envelope and credential are signed by different keys"
  ensure (claimedId.all fun id => subject.id = "urn:hms:fact:" ++ id) "credential and envelope name different facts"

/-- A record's signed parts speak about this record and agree with each other. -/
def checkBinding (lib : Libraries) (record : ProvenanceRecord) (envelope : Option (Bytes × Array32))
    (credential : Option FactCredential) : Except String Unit := do
  let some sourceHash := record.sourceHash | .error "record has no content hash"
  let claimedId ← match envelope with
    | none => .ok none
    | some (payload, _) => checkEnvelope lib record sourceHash payload credential.isSome
  match credential with
  | none => .ok ()
  | some credential => checkCredential lib record sourceHash (envelope.map (·.2)) claimedId credential

end Warm.Provenance
