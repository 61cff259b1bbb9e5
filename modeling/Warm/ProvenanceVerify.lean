import Warm.ProvenanceRecord

/-! The two verifiers of a provenance record: `verify_record`, which needs no manager, and
`ProvenanceManager::verify_fact_provenance`, which falls back to the manager's own key. -/
namespace Warm.Provenance

open Bytes Binary

structure StatusListSnapshot where
  bits : Bytes
  signedAt : Option Int
  validUntil : Option StatusTime

structure TrustStore where
  keys : List Array32
  statusLists : List (String × StatusListSnapshot)
  requireStatusLists : Bool
  maxStatusListAgeSeconds : Option Nat

def TrustStore.isTrusted (trust : TrustStore) (key : Array32) : Bool := key ∈ trust.keys

inductive StatusLookup where
  | missing
  | stale
  | outOfRange
  | value (revoked : Bool)
  deriving DecidableEq, Repr

def byteBit (byte : UInt8) (index : Nat) : Bool := byte.toNat.testBit (index % 8)

def statusBit (bits : Bytes) (index : Nat) : Bool := (bits[index / 8]?).any fun byte => byteBit byte index

/-- `u64::try_from` of a signed time. -/
def unsigned (seconds : Int) : Option Nat := if seconds < 0 then none else some seconds.toNat

/-- A snapshot is fresh when it was signed at most `maxAge` seconds ago. -/
def fresh (signedAt : Option Int) (now : Option StatusTime) (maxAge : Nat) : Bool :=
  match signedAt.bind unsigned, now.bind fun now => unsigned now.1 with
  | some signed, some now => signed ≤ now ∧ now - signed ≤ maxAge
  | _, _ => false

def TrustStore.statusLookup (trust : TrustStore) (now : Option StatusTime) (url : String) (index : Nat) :
    StatusLookup :=
  match trust.statusLists.lookup url with
  | none => .missing
  | some snapshot =>
    if snapshot.validUntil.any fun stop => now.all fun now => ! StatusTime.le now stop then .stale
    else if trust.maxStatusListAgeSeconds.any fun maxAge => ! fresh snapshot.signedAt now maxAge then .stale
    else match snapshot.bits[index / 8]? with
      | none => .outOfRange
      | some byte => .value (byteBit byte index)

/-- What the clock says when a check reads it. -/
structure Clock where
  validation : StatusTime
  status : Option StatusTime

/-- The fields of a manager that verification reads. -/
structure Verifier where
  verifyingKey : Array32
  issuerDid : String
  statusListUrl : String
  logicalClock : Nat
  revocationBitstring : Bytes

structure VerificationDetail where
  check : String
  passed : Bool
  message : Option String
  deriving DecidableEq, Repr

structure VerificationResult where
  valid : Bool
  issuerDid : Option String
  timestampMs : Nat
  details : List VerificationDetail
  deriving DecidableEq, Repr

def outcomeDetail {α : Type} (check : String) : Except String α → VerificationDetail
  | .ok _ => ⟨check, true, none⟩
  | .error message => ⟨check, false, some message⟩

def trustAnchorDetail (trusted : Bool) : VerificationDetail :=
  ⟨"trust_anchor", trusted, if trusted then none else some "signing key is not in the trust store"⟩

def revocationOutcome (lib : Libraries) (status : CredentialStatus) (requireList : Bool)
    (lookup : String → Nat → StatusLookup) : Bool × Option String :=
  if status.statusType ≠ "BitstringStatusListEntry" ∨ status.statusPurpose ≠ "revocation" then
    (false, some "unsupported credential status type or purpose")
  else match parseU64 status.statusListIndex with
    | none => (false, some ("status list index " ++ lib.debug status.statusListIndex ++ " is not a number"))
    | some index =>
      match lookup status.statusListCredential index with
      | .value true => (false, some "credential has been revoked")
      | .value false => (true, none)
      | .outOfRange => (false, some "status list index is out of range")
      | .stale => (false, some "trusted status list is stale or has no signed timestamp")
      | .missing =>
        (! requireList, some ("no trusted status list for " ++ status.statusListCredential ++
          "; revocation not checked"))

def revocationDetail (lib : Libraries) (credential : FactCredential) (requireList : Bool)
    (lookup : String → Nat → StatusLookup) : VerificationDetail :=
  let outcome := match credential.credentialStatus with
    | none => (true, none)
    | some status => revocationOutcome lib status requireList lookup
  ⟨"revocation_status", outcome.1, outcome.2⟩

/-- What both verifiers check of a credential: its proof, its reading and semantics, and its
revocation. -/
def credentialDetails (lib : Libraries) (clock : Clock) (requireList : Bool) (lookup : String → Nat → StatusLookup)
    (json : String) : List VerificationDetail × Option FactCredential :=
  let proof := outcomeDetail "vc_proof" (verifyCredentialJson lib json)
  match lib.fromStr json with
  | .error message => ([proof, ⟨"vc_parse", false, some message⟩], none)
  | .ok text =>
    match text.asCredential with
    | none => ([proof, ⟨"vc_parse", false, some (lib.credentialError json)⟩], none)
    | some credential =>
      ([proof, outcomeDetail "vc_semantics" (validateFactCredential lib clock.validation credential),
        revocationDetail lib credential requireList lookup], some credential)

def allPassed (details : List VerificationDetail) : Bool := details.all (·.passed) && ! details.isEmpty

/-- The details of a record's credential, and the credential when it could be read. -/
def credentialPart (lib : Libraries) (clock : Clock) (requireList : Bool) (lookup : String → Nat → StatusLookup)
    (record : ProvenanceRecord) : List VerificationDetail × Option FactCredential :=
  match record.vcJson with
  | none => ([], none)
  | some json => credentialDetails lib clock requireList lookup json

def verifiedPayload (envelope : Option (Except String Bytes × Array32)) : Option (Bytes × Array32) :=
  envelope.bind fun outcome => outcome.1.toOption.map fun payload => (payload, outcome.2)

/-- The details of the signed parts and of their binding. `envelope` is what the envelope's
signature check gave, with the key it was checked under. -/
def signedDetails (lib : Libraries) (clock : Clock) (requireList : Bool) (lookup : String → Nat → StatusLookup)
    (record : ProvenanceRecord) (envelope : Option (Except String Bytes × Array32)) : List VerificationDetail :=
  let cose := envelope.toList.map fun outcome => outcomeDetail "cose_signature" outcome.1
  let vc := credentialPart lib clock requireList lookup record
  let details := cose ++ vc.1
  if details.isEmpty then []
  else details ++ [outcomeDetail "record_binding" (checkBinding lib record (verifiedPayload envelope) vc.2)]

/-- The key a manager-less verification takes from an envelope. -/
def envelopeKey (lib : Libraries) (envelope : Bytes) : Except String Array32 := do
  let kid ← extractKeyId lib envelope
  let some pk := Array32.tryFrom kid | .error "COSE key_id is not 32 bytes"
  (verifyingKey lib pk).mapError fun e => "invalid public key in COSE: " ++ e

/-- The signing identity: the envelope's key id, else the record's issuer DID. -/
def signerKey (lib : Libraries) (record : ProvenanceRecord) : Option Array32 :=
  let fromEnvelope := (record.coseEnvelope.bind fun envelope => (extractKeyId lib envelope).toOption).bind
    Array32.tryFrom
  let fromIssuer := record.issuerDid.bind fun did => (ed25519FromDidKey lib did).toOption
  (fromEnvelope.or fromIssuer).bind fun pk => (verifyingKey lib pk).toOption

def verifyRecord (lib : Libraries) (clock : Clock) (record : ProvenanceRecord) (trust : TrustStore) :
    Except String VerificationResult := do
  let envelope ← match record.coseEnvelope with
    | none => .ok none
    | some envelope => do
      let key ← envelopeKey lib envelope
      .ok (some (verifyAndExtract lib key envelope, key))
  let signed := signedDetails lib clock trust.requireStatusLists (trust.statusLookup clock.status) record envelope
  let details :=
    if signed.isEmpty then []
    else signed ++ [trustAnchorDetail ((signerKey lib record).any trust.isTrusted)]
  .ok ⟨allPassed details, record.issuerDid, record.timestampMs, details⟩

/-- The key a manager verifies an envelope with: the envelope's key id, else the record's issuer
DID, else the manager's own key. -/
def resolveCoseVerifyingKey (lib : Libraries) (record : ProvenanceRecord) (fallback : Array32) : Array32 :=
  let fromEnvelope := ((record.coseEnvelope.bind fun envelope => (extractKeyId lib envelope).toOption).bind
    Array32.tryFrom).bind fun pk => (verifyingKey lib pk).toOption
  let fromIssuer := (record.issuerDid.bind fun did => (ed25519FromDidKey lib did).toOption).bind
    fun pk => (verifyingKey lib pk).toOption
  (fromEnvelope.or fromIssuer).getD fallback

def MIN_BYTES : Nat := 16 * 1024
def MAX_BYTES : Nat := 1024 * 1024

def Verifier.publishedStatusListLen (manager : Verifier) (bitsLen : Nat) : Option Nat :=
  let length := max (max MIN_BYTES ((manager.logicalClock - 1) / 8 + 1)) bitsLen
  if length ≤ MAX_BYTES then some length else none

def Verifier.localStatus (manager : Verifier) (index : Nat) : StatusLookup :=
  match manager.publishedStatusListLen manager.revocationBitstring.length with
  | none => .outOfRange
  | some length =>
    if index / 8 ≥ length then .outOfRange else .value (statusBit manager.revocationBitstring index)

/-- The live list or the trusted copy revokes; a trusted copy answers for other lists. -/
def Verifier.lookup (manager : Verifier) (clock : Clock) (trust : Option TrustStore)
    (url : String) (index : Nat) : StatusLookup :=
  let trusted := match trust with
    | none => .missing
    | some trust => trust.statusLookup clock.status url index
  if url = manager.statusListUrl ∨ url = manager.issuerDid ++ "/status/1" then
    match manager.localStatus index, trusted with
    | .value own, .value remote => .value (own || remote)
    | .value own, _ => .value own
    | .outOfRange, .value remote => .value remote
    | .outOfRange, .stale => .stale
    | _, _ => .outOfRange
  else trusted

def Verifier.verifySignatures (manager : Verifier) (lib : Libraries) (clock : Clock) (record : ProvenanceRecord)
    (trust : Option TrustStore) : VerificationResult :=
  let key := resolveCoseVerifyingKey lib record manager.verifyingKey
  let envelope := record.coseEnvelope.map fun envelope => (verifyAndExtract lib key envelope, key)
  let details := signedDetails lib clock (trust.any (·.requireStatusLists)) (manager.lookup clock trust) record
    envelope
  ⟨allPassed details, record.issuerDid, record.timestampMs, details⟩

def Verifier.verifyFactProvenance (manager : Verifier) (lib : Libraries) (clock : Clock) (record : ProvenanceRecord)
    (trust : TrustStore) : VerificationResult :=
  let result := manager.verifySignatures lib clock record (some trust)
  let key := resolveCoseVerifyingKey lib record manager.verifyingKey
  let details := result.details ++ [trustAnchorDetail (trust.isTrusted key)]
  { result with valid := allPassed details, details := details }

end Warm.Provenance
