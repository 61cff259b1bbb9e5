import Warm.ProvenanceVerify
import Mathlib.Data.List.TakeWhile

/-! When a verified record is authentic. A signature is ideal: a message verifies under a key or it
does not. The anchor that is checked against the trust store is the key of a signature whenever the
record carries an envelope, or a credential with a resolvable issuer. -/
namespace Warm.Provenance

open List hiding below get lookup lookup_cons lookup_nil map

open Bytes Binary

variable {record : ProvenanceRecord}

/-- The envelope carries `payload`, signed by `key`. -/
def EnvelopeSignedBy (lib : Libraries) (key : Array32) (envelope payload : Bytes) : Prop :=
  ∃ sign1, decodeSign1 lib envelope = .ok sign1 ∧ sign1.payload = some payload ∧
    lib.verifyStrict key sign1.signedData sign1.signature = true

/-- A payload names a content hash: its fact claim carries it, or it is a batch root that the hash
hashes up to through the record's inclusion proof. -/
inductive Names (lib : Libraries) (proof : Option (List (Bool × Array32))) (hash : Array32) (payload : Bytes) : Prop where
  | claim (claim : FactClaim) (parsed : parseFactClaim lib payload = .ok claim) (same : claim.contentHash = hash)
  | legacy (path : List (Bool × Array32)) (carried : proof = some path)
    (root : (merkleRootFromProof lib .legacy (MerkleHashing.legacy.leaf lib hash) path).val = payload)
  | batch (path : List (Bool × Array32)) (carried : proof = some path) (root : Array32) (size : Nat)
    (parsed : parseBatchRootClaim lib payload = .ok (some (root, size)))
    (same : merkleRootFromProof lib .rfc6962 (MerkleHashing.rfc6962.leaf lib hash) path = root)

/-- The credential's document, without its proof, is signed by `key`: the key its verification
method identifies as the issuer's. -/
def CredentialSignedBy (lib : Libraries) (key : Array32) (json : String) (document : List (String × Value)) : Prop :=
  ∃ text object issuer proofValue proof signature signed options,
    lib.fromStr json = .ok text ∧ text.collapse = .object object ∧ document = removeEntry "proof" object ∧
    documentIssuer object = some issuer ∧ Value.lookup "proof" object = some proofValue ∧
    proofValue.asProof = some proof ∧ methodKey lib issuer proof = .ok key ∧
    proofSignature lib proof = .ok signature ∧
    signedContext document proof (proofOptions proof) = .ok (signed, options) ∧
    ((∃ hashData, proofHashData lib (.object signed) (.object options) = .ok hashData ∧
        lib.verify key hashData signature = true) ∨
      lib.verify key (legacyProofHashData lib signed (.object options)) signature = true)

/-- What a verified record promises: it carries a signed part, and every signed part verifies under
a trusted key and names the record's content hash. -/
structure Authentic (lib : Libraries) (trust : TrustStore) (record : ProvenanceRecord) (hash : Array32) : Prop where
  content : record.sourceHash = some hash
  carries : record.coseEnvelope ≠ none ∨ record.vcJson ≠ none
  envelope : ∀ envelope, record.coseEnvelope = some envelope → ∃ key payload, trust.isTrusted key = true ∧
    EnvelopeSignedBy lib key envelope payload ∧ Names lib record.merkleProof hash payload
  credential : ∀ json, record.vcJson = some json → ∃ key document subject, trust.isTrusted key = true ∧
    CredentialSignedBy lib key json document ∧ Value.lookup "credentialSubject" document = some subject ∧
    (subject.get "contentHash").bind Value.asStr = some (hexEncode hash.val)

/-! ### Checks that pass -/

@[simp] theorem outcomeDetail_passed (check : String) (outcome : Except String α) :
    (outcomeDetail check outcome).passed = true ↔ ∃ a, outcome = .ok a := by
  cases outcome <;> simp [outcomeDetail]

@[simp] theorem trustAnchorDetail_passed (trusted : Bool) : (trustAnchorDetail trusted).passed = trusted := rfl

theorem allPassed_iff : allPassed details = true ↔ details ≠ [] ∧ ∀ detail ∈ details, detail.passed = true := by
  simp [allPassed, and_comm]

theorem verifyAndExtract_signed (verified : verifyAndExtract lib key envelope = .ok payload) :
    EnvelopeSignedBy lib key envelope payload := by
  unfold verifyAndExtract at verified
  obtain ⟨sign1, decoded, rest⟩ := bind_eq_ok.mp verified
  cases carried : sign1.payload with
  | none => simp [carried] at rest
  | some own =>
    rw [carried] at rest
    obtain ⟨_, checked, returned⟩ := bind_eq_ok.mp rest
    rw [mapError_eq_ok] at checked
    unfold verifyEd25519 at checked
    iterate 6 obtain ⟨_, -, checked⟩ := bind_eq_ok.mp checked
    cases returned
    exact ⟨sign1, decoded, carried, ensure_eq_ok.mp checked⟩

/-! ### The typed reading agrees with the document -/

namespace Value

@[simp] theorem lookup_nil (key : String) : lookup key [] = none := rfl

theorem lookup_cons (key : String) (entry : String × Value) (entries : List (String × Value)) :
    lookup key (entry :: entries) = if entry.1 = key then some entry.2 else lookup key entries := by
  unfold lookup
  rw [find?_cons]
  by_cases own : entry.1 = key <;> simp [own]

theorem lookup_insertEntry (key other : String) (value : Value) (entries : List (String × Value)) :
    lookup other (insertEntry key value entries) = if key = other then some value else lookup other entries := by
  induction entries with
  | nil => simp [insertEntry, lookup_cons]
  | cons entry entries ih =>
    unfold insertEntry
    by_cases below : key < entry.1
    · rw [if_pos below, lookup_cons]
    · rw [if_neg below]
      by_cases own : entry.1 = key
      · rw [if_pos own, lookup_cons, lookup_cons, own]
        by_cases same : key = other <;> simp [same]
      · rw [if_neg own, lookup_cons, ih, lookup_cons]
        by_cases same : key = other
        · subst same
          simp [own]
        · simp [same]

theorem lookup_foldl_insertEntry (key : String) (entries map : List (String × Value)) :
    lookup key (entries.foldl (fun map entry => insertEntry entry.1 entry.2 map) map) =
      (((entries.filter fun entry => entry.1 = key).getLast?).map (·.2)).or (lookup key map) := by
  induction entries generalizing map with
  | nil => simp
  | cons entry entries ih =>
    rw [foldl_cons, ih, lookup_insertEntry]
    by_cases own : entry.1 = key
    · cases rest : (entries.filter fun entry => entry.1 = key).getLast? <;> simp [own, rest, getLast?_cons]
    · simp [own]

theorem collapseEntries_eq (entries : List (String × Value)) :
    collapseEntries entries = entries.map fun entry => (entry.1, collapse entry.2) := by
  induction entries with
  | nil => simp [collapseEntries]
  | cons entry entries ih => simp [collapseEntries, ih]

theorem lookup_collect_of_field (read : field key entries = some (some value)) :
    lookup key (collect (collapseEntries entries)) = some value.collapse := by
  have single : ∃ entry : String × Value, entries.filter (fun entry => entry.1 = key) = [entry] ∧ entry.2 = value := by
    unfold field at read
    split at read
    · cases read
    · rename_i entry found
      cases read
      exact ⟨entry, found, rfl⟩
    · cases read
  obtain ⟨entry, found, rfl⟩ := single
  have kept : (entries.map fun entry => (entry.1, collapse entry.2)).filter (fun entry => entry.1 = key) =
      [(entry.1, collapse entry.2)] := by
    rw [filter_map]
    have same : (entries.filter ((fun entry : String × Value => decide (entry.1 = key)) ∘ fun entry =>
        (entry.1, collapse entry.2))) = entries.filter fun entry => entry.1 = key := rfl
    rw [same, found]
    rfl
  unfold collect
  rw [collapseEntries_eq, lookup_foldl_insertEntry, kept]
  rfl

theorem required_eq_some {read : Value → Option α} {key : String} {entries : List (String × Value)} {a : α}
    (done : required read key entries = some a) : ∃ value, field key entries = some (some value) ∧ read value = some a := by
  unfold required at done
  cases found : field key entries with
  | none => simp [found] at done
  | some value =>
    cases value with
    | none => simp [found] at done
    | some value => exact ⟨value, rfl, by simpa [found] using done⟩

theorem lookup_of_required_asStr {entries : List (String × Value)} {text : String}
    (done : required asStr key entries = some text) :
    lookup key (collect (collapseEntries entries)) = some (.string text) := by
  obtain ⟨value, found, read⟩ := required_eq_some done
  rw [lookup_collect_of_field found]
  cases value <;> simp [asStr] at read
  subst read
  simp [collapse]

theorem asSubject_contentHash {value : Value} (read : value.asSubject = some subject) :
    (value.collapse.get "contentHash").bind asStr = some subject.contentHash := by
  cases value with
  | object entries =>
    simp only [asSubject, Option.bind_eq_bind, Option.bind_eq_some_iff] at read
    obtain ⟨_, -, _, -, text, hash, rest⟩ := read
    have same : subject.contentHash = text := by
      obtain ⟨_, -, _, -, _, -, _, -, _, -, last⟩ := rest
      cases last
      rfl
    rw [same]
    simp [collapse, get, lookup_of_required_asStr hash, asStr]
  | _ => simp [asSubject] at read

theorem asCredential_document {text : Value} (read : text.asCredential = some credential) :
    ∃ object subject, text.collapse = .object object ∧ documentIssuer object = some credential.issuer ∧
      lookup "credentialSubject" object = some subject ∧
      (subject.get "contentHash").bind asStr = some credential.credentialSubject.contentHash := by
  cases text with
  | object entries =>
    simp only [asCredential, Option.bind_eq_bind, Option.bind_eq_some_iff] at read
    obtain ⟨_, -, _, -, _, -, issuer, issued, _, -, subject, carried, _, -, _, -, last⟩ := read
    cases last
    obtain ⟨value, found, typed⟩ := required_eq_some carried
    refine ⟨_, _, rfl, ?_, lookup_collect_of_field found, asSubject_contentHash typed⟩
    simp [documentIssuer, lookup_of_required_asStr issued, asStr]
  | _ => simp [asCredential] at read

end Value

theorem lookup_removeEntry (apart : other ≠ key) (entries : List (String × Value)) :
    Value.lookup other (removeEntry key entries) = Value.lookup other entries := by
  induction entries with
  | nil => rfl
  | cons entry entries ih =>
    unfold removeEntry at ih ⊢
    rw [Value.lookup_cons, ← ih]
    by_cases own : entry.1 = key
    · have skipped : entry.1 ≠ other := fun same => apart (same.symm.trans own)
      simp [own, apart.symm]
    · simp [own, Value.lookup_cons]

theorem removeEntry_idem (key : String) (entries : List (String × Value)) :
    removeEntry key (removeEntry key entries) = removeEntry key entries := by
  simp [removeEntry]

/-! ### Keys and their identifiers -/

theorem verifyingKey_eq_ok (valid : verifyingKey lib bytes = .ok key) :
    bytes = key ∧ verifyingKey lib key = .ok key := by
  unfold verifyingKey at valid ⊢
  cases checked : lib.fromBytes bytes with
  | error message => simp [checked, Except.map] at valid
  | ok done =>
    simp only [checked, Except.map, Except.ok.injEq] at valid
    subst valid
    simp [checked, Except.map]

theorem ed25519FromDidKey_didKey (lawful : lib.Lawful) (key : Array32) :
    ed25519FromDidKey lib (didKeyFromEd25519 lib key) = .ok key := by
  have sized : (ED25519_MULTICODEC ++ key.val).drop 2 = key.val := rfl
  have begins : ED25519_MULTICODEC.isPrefixOf (ED25519_MULTICODEC ++ key.val) = true :=
    isPrefixOf_iff_prefix.mpr (prefix_append _ _)
  unfold ed25519FromDidKey didKeyFromEd25519
  rw [stripStart_append]
  unfold ed25519Multikey
  simp only [lawful.base58, begins, sized, Array32.tryFrom, key.property]
  simp

theorem beforeFragment_of_resolves (lawful : lib.Lawful) (resolves : ed25519FromDidKey lib did = .ok key) :
    beforeFragment did = did := by
  unfold ed25519FromDidKey at resolves
  split at resolves
  · cases resolves
  rename_i rest stripped
  have plain : '#' ∉ rest.toList := by
    split at resolves
    · cases resolves
    rename_i decoded
    unfold ed25519Multikey at decoded
    split at decoded
    · cases decoded
    rename_i base bytes read
    by_cases known : base = .base58Btc
    · subst known
      exact lawful.alphabet _ _ read
    · simp [known] at decoded
  have whole : ∀ c ∈ did.toList, (c != '#') = true := by
    intro c member
    rw [stripStart_eq_some stripped, mem_append] at member
    rcases member with inStart | inRest
    · have each : ∀ c ∈ "did:key:".toList, (c != '#') = true := all_eq_true.mp (by rfl)
      exact each c inStart
    · simp only [bne_iff_ne]
      rintro rfl
      exact plain inRest
  unfold beforeFragment
  rw [takeWhile_eq_self_iff.mpr whole, String.ofList_toList]

theorem methodKey_eq_ok (found : methodKey lib issuer proof = .ok key) :
    ed25519FromDidKey lib (beforeFragment issuer) = .ok key ∧ verifyingKey lib key = .ok key := by
  unfold methodKey at found
  obtain ⟨_, same, found⟩ := bind_eq_ok.mp found
  rw [ensure_eq_ok] at same
  split at found
  · obtain ⟨_, -, found⟩ := bind_eq_ok.mp found
    obtain ⟨bytes, resolved, found⟩ := bind_eq_ok.mp found
    rw [mapError_eq_ok] at found
    obtain ⟨rfl, valid⟩ := verifyingKey_eq_ok found
    exact ⟨by rw [← same, resolved], valid⟩
  · cases found

/-- A document is signed with a key: the one its proof's verification method identifies. -/
def DocumentSignedBy (lib : Libraries) (key : Array32) (object : List (String × Value)) (issuer : String)
    (proof : DataIntegrityProof) : Prop :=
  ∃ signature hashed, methodKey lib issuer proof = .ok key ∧ proofSignature lib proof = .ok signature ∧
    signedContext (removeEntry "proof" object) proof (proofOptions proof) = .ok hashed ∧
    ((∃ hashData, proofHashData lib (.object hashed.1) (.object hashed.2) = .ok hashData ∧
        lib.verify key hashData signature = true) ∨
      (proof.context = none ∧ lib.verify key (legacyProofHashData lib hashed.1 (.object hashed.2)) signature = true))

theorem verifyDocument_signed (verified : verifyDocument lib object issuer proof = .ok key) :
    DocumentSignedBy lib key object issuer proof := by
  unfold verifyDocument at verified
  obtain ⟨_, -, verified⟩ := bind_eq_ok.mp verified
  obtain ⟨_, -, verified⟩ := bind_eq_ok.mp verified
  obtain ⟨own, method, verified⟩ := bind_eq_ok.mp verified
  obtain ⟨signature, decoded, verified⟩ := bind_eq_ok.mp verified
  obtain ⟨hashed, context, verified⟩ := bind_eq_ok.mp verified
  obtain ⟨hashData, hashes, verified⟩ := bind_eq_ok.mp verified
  split at verified
  · rename_i signed
    cases verified
    refine ⟨signature, hashed, method, decoded, context, ?_⟩
    rcases signed with current | ⟨bare, legacy⟩
    · exact .inl ⟨hashData, hashes, current⟩
    · exact .inr ⟨Option.isNone_iff_eq_none.mp bare, legacy⟩
  · cases verified

theorem verifyCredentialJson_signed (verified : verifyCredentialJson lib json = .ok key) :
    ∃ text object issuer, lib.fromStr json = .ok text ∧ text.collapse = .object object ∧
      documentIssuer object = some issuer ∧ CredentialSignedBy lib key json (removeEntry "proof" object) ∧
      ed25519FromDidKey lib (beforeFragment issuer) = .ok key ∧ verifyingKey lib key = .ok key := by
  unfold verifyCredentialJson at verified
  obtain ⟨text, parsed, verified⟩ := bind_eq_ok.mp verified
  split at verified
  · rename_i object collapsed
    split at verified
    · rename_i issuer issued
      split at verified
      · rename_i proofValue carried
        split at verified
        · rename_i proof typed
          obtain ⟨_, -, verified⟩ := bind_eq_ok.mp verified
          obtain ⟨signature, hashed, method, decoded, context, signed⟩ := verifyDocument_signed verified
          rw [removeEntry_idem] at context
          refine ⟨text, object, issuer, parsed, collapsed, issued, ?_, methodKey_eq_ok method⟩
          exact ⟨text, object, issuer, proofValue, proof, signature, hashed.1, hashed.2, parsed, collapsed, rfl,
            issued, carried, typed, method, decoded, context, signed.imp_right And.right⟩
        · cases verified
      · cases verified
    · cases verified
  · cases verified

theorem CredentialSignedBy.unique (one : CredentialSignedBy lib first json document)
    (two : CredentialSignedBy lib second json other) : first = second := by
  obtain ⟨text, object, issuer, value, proof, _, _, _, parsed, collapsed, -, issued, carried, typed, method, -⟩ := one
  obtain ⟨text', object', issuer', value', proof', _, _, _, parsed', collapsed', -, issued', carried', typed',
    method', -⟩ := two
  obtain rfl : text = text' := by simpa [parsed] using parsed'
  obtain rfl : object = object' := by simpa [collapsed] using collapsed'
  obtain rfl : issuer = issuer' := by simpa [issued] using issued'
  obtain rfl : value = value' := by simpa [carried] using carried'
  obtain rfl : proof = proof' := by simpa [typed] using typed'
  simpa [method] using method'

/-! ### Binding -/

theorem checkInclusion_eq_ok {hashing : MerkleHashing} {hash : Array32} {proof : Option (List (Bool × Array32))}
    {root : Bytes} {size : Option Nat} (included : checkInclusion lib hashing hash proof root size = .ok ()) :
    ∃ path, proof = some path ∧ (merkleRootFromProof lib hashing (hashing.leaf lib hash) path).val = root := by
  unfold checkInclusion at included
  split at included
  · rename_i path
    refine ⟨path, rfl, ?_⟩
    split at included
    · obtain ⟨_, -, included⟩ := bind_eq_ok.mp included
      exact ensure_eq_ok.mp included
    · exact ensure_eq_ok.mp included
  · cases included

theorem checkEnvelope_names {hash : Array32} {payload : Bytes} {hasCredential : Bool}
    {id : Option String} (bound : checkEnvelope lib record hash payload hasCredential = .ok id) :
    Names lib record.merkleProof hash payload := by
  unfold checkEnvelope at bound
  split at bound
  · obtain ⟨_, included, -⟩ := bind_eq_ok.mp bound
    obtain ⟨path, carried, root⟩ := checkInclusion_eq_ok included
    exact .legacy path carried root
  · obtain ⟨parsed, root, bound⟩ := bind_eq_ok.mp bound
    cases parsed with
    | some claim =>
      obtain ⟨_, included, -⟩ := bind_eq_ok.mp bound
      obtain ⟨path, carried, same⟩ := checkInclusion_eq_ok included
      exact .batch path carried claim.1 claim.2 root (Subtype.ext same)
    | none =>
      obtain ⟨claim, parsed, bound⟩ := bind_eq_ok.mp bound
      obtain ⟨_, -, bound⟩ := bind_eq_ok.mp bound
      obtain ⟨_, same, -⟩ := bind_eq_ok.mp bound
      exact .claim claim parsed (ensure_eq_ok.mp same)

theorem checkCredential_eq_ok {hash : Array32} {signer : Option Array32}
    {id : Option String} {credential : FactCredential}
    (bound : checkCredential lib record hash signer id credential = .ok ()) :
    credential.credentialSubject.contentHash = hexEncode hash.val ∧
      (∀ issuer, record.issuerDid = some issuer → issuer = credential.issuer) ∧
      ∀ key, signer = some key → didKeyFromEd25519 lib key = credential.issuer := by
  unfold checkCredential at bound
  obtain ⟨_, hash, bound⟩ := bind_eq_ok.mp bound
  obtain ⟨_, -, bound⟩ := bind_eq_ok.mp bound
  obtain ⟨_, issuers, bound⟩ := bind_eq_ok.mp bound
  obtain ⟨_, signers, -⟩ := bind_eq_ok.mp bound
  rw [ensure_eq_ok] at hash issuers signers
  refine ⟨hash, ?_, ?_⟩
  · rintro issuer carried
    simpa [carried] using issuers
  · rintro key rfl
    simpa using signers

theorem checkBinding_eq_ok (bound : checkBinding lib record envelope credential = .ok ()) :
    ∃ hash, record.sourceHash = some hash ∧
      (∀ payload key, envelope = some (payload, key) → Names lib record.merkleProof hash payload) ∧
      ∀ own, credential = some own → own.credentialSubject.contentHash = hexEncode hash.val ∧
        (∀ issuer, record.issuerDid = some issuer → issuer = own.issuer) ∧
        ∀ payload key, envelope = some (payload, key) → didKeyFromEd25519 lib key = own.issuer := by
  unfold checkBinding at bound
  split at bound
  · rename_i hash carried
    refine ⟨hash, carried, ?_, ?_⟩
    · rintro payload key rfl
      obtain ⟨id, named, -⟩ := bind_eq_ok.mp bound
      exact checkEnvelope_names named
    · rintro own rfl
      have checked : ∃ id, checkCredential lib record hash (envelope.map (·.2)) id own = .ok () := by
        cases envelope with
        | none => exact ⟨none, bound⟩
        | some pair =>
          obtain ⟨id, -, bound⟩ := bind_eq_ok.mp bound
          exact ⟨id, bound⟩
      obtain ⟨id, checked⟩ := checked
      obtain ⟨same, issuers, signers⟩ := checkCredential_eq_ok checked
      refine ⟨same, issuers, ?_⟩
      rintro payload key rfl
      exact signers key rfl
  · cases bound

/-! ### The verifiers -/

/-- A credential that passes its own checks, and the key that signed it. -/
structure CredentialAccepted (lib : Libraries) (clock : Clock) (requireList : Bool)
    (lookup : String → Nat → StatusLookup) (json : String) (credential : FactCredential) (key : Array32) : Prop where
  typed : ∃ text, lib.fromStr json = .ok text ∧ text.asCredential = some credential
  signed : verifyCredentialJson lib json = .ok key
  semantics : validateFactCredential lib clock.validation credential = .ok ()
  standing : (revocationDetail lib credential requireList lookup).passed = true

theorem credentialDetails_passed
    (passed : ∀ detail ∈ (credentialDetails lib clock requireList lookup json).1, detail.passed = true) :
    ∃ credential key, CredentialAccepted lib clock requireList lookup json credential key ∧
      (credentialDetails lib clock requireList lookup json).2 = some credential := by
  unfold credentialDetails at passed ⊢
  cases parsed : lib.fromStr json with
  | error message => simp [parsed] at passed
  | ok text =>
    cases typed : text.asCredential with
    | none => simp [parsed, typed] at passed
    | some credential =>
      simp only [parsed, typed, mem_cons, not_mem_nil, or_false, forall_eq_or_imp, forall_eq,
        outcomeDetail_passed] at passed
      obtain ⟨⟨key, signed⟩, ⟨_, semantics⟩, standing⟩ := passed
      exact ⟨credential, key, ⟨⟨text, parsed, typed⟩, signed, semantics, standing⟩, by simp [typed]⟩

theorem CredentialAccepted.details (accepted : CredentialAccepted lib clock requireList lookup json credential key) :
    (∀ detail ∈ (credentialDetails lib clock requireList lookup json).1, detail.passed = true) ∧
      (credentialDetails lib clock requireList lookup json).2 = some credential := by
  obtain ⟨text, parsed, typed⟩ := accepted.typed
  unfold credentialDetails
  simp [parsed, typed, accepted.signed, accepted.semantics, accepted.standing]

theorem CredentialAccepted.document {lib : Libraries} {requireList : Bool} {lookup : String → Nat → StatusLookup}
    {json : String} {credential : FactCredential} {key : Array32}
    (accepted : CredentialAccepted lib clock requireList lookup json credential key) :
    ∃ document subject, CredentialSignedBy lib key json document ∧
      Value.lookup "credentialSubject" document = some subject ∧
      (subject.get "contentHash").bind Value.asStr = some credential.credentialSubject.contentHash ∧
      ed25519FromDidKey lib (beforeFragment credential.issuer) = .ok key ∧ verifyingKey lib key = .ok key := by
  obtain ⟨text, parsed, typed⟩ := accepted.typed
  obtain ⟨object, subject, collapsed, issued, carried, hash⟩ := Value.asCredential_document typed
  obtain ⟨text', object', issuer, parsed', collapsed', issued', signed, resolves, valid⟩ :=
    verifyCredentialJson_signed accepted.signed
  obtain rfl : text = text' := by simpa [parsed] using parsed'
  obtain rfl : object = object' := by simpa [collapsed] using collapsed'
  obtain rfl : credential.issuer = issuer := by simpa [issued] using issued'
  have apart : "credentialSubject" ≠ "proof" := by decide
  exact ⟨removeEntry "proof" object, subject, signed, by rw [lookup_removeEntry apart, carried], hash, resolves, valid⟩

theorem credentialDetails_ne_nil (lib : Libraries) (clock : Clock) (requireList : Bool)
    (lookup : String → Nat → StatusLookup) (json : String) :
    (credentialDetails lib clock requireList lookup json).1 ≠ [] := by
  unfold credentialDetails
  cases lib.fromStr json with
  | error message => simp
  | ok text => cases typed : text.asCredential <;> simp [typed]

theorem signedDetails_eq (carries : envelope ≠ none ∨ record.vcJson ≠ none) :
    signedDetails lib clock requireList lookup record envelope =
      (envelope.toList.map fun outcome => outcomeDetail "cose_signature" outcome.1) ++
        (credentialPart lib clock requireList lookup record).1 ++
        [outcomeDetail "record_binding" (checkBinding lib record (verifiedPayload envelope)
          (credentialPart lib clock requireList lookup record).2)] := by
  unfold signedDetails
  rw [if_neg]
  rcases carries with envelopes | credentials
  · cases envelope with
    | none => exact absurd rfl envelopes
    | some outcome => simp
  · cases carried : record.vcJson with
    | none => exact absurd carried credentials
    | some json => simp [credentialPart, carried, credentialDetails_ne_nil]

theorem signedDetails_passed
    (passed : ∀ detail ∈ signedDetails lib clock requireList lookup record envelope, detail.passed = true)
    (carries : envelope ≠ none ∨ record.vcJson ≠ none) :
    ∃ hash, record.sourceHash = some hash ∧
      (∀ outcome key, envelope = some (outcome, key) → ∃ payload, outcome = .ok payload ∧
        Names lib record.merkleProof hash payload) ∧
      ∀ json, record.vcJson = some json → ∃ credential key,
        CredentialAccepted lib clock requireList lookup json credential key ∧
        credential.credentialSubject.contentHash = hexEncode hash.val ∧
        (∀ issuer, record.issuerDid = some issuer → issuer = credential.issuer) ∧
        ∀ outcome signer, envelope = some (outcome, signer) → didKeyFromEd25519 lib signer = credential.issuer := by
  rw [signedDetails_eq carries] at passed
  simp only [forall_mem_append, forall_mem_map, Option.mem_toList, mem_singleton, forall_eq,
    outcomeDetail_passed] at passed
  obtain ⟨⟨envelopes, credentials⟩, _, bound⟩ := passed
  obtain ⟨hash, content, names, agrees⟩ := checkBinding_eq_ok bound
  have verified (outcome : Except String Bytes) (key : Array32) (given : envelope = some (outcome, key)) :
      ∃ payload, outcome = .ok payload ∧ verifiedPayload envelope = some (payload, key) := by
    subst given
    obtain ⟨payload, done⟩ := envelopes _ rfl
    refine ⟨payload, done, ?_⟩
    simp only at done
    simp [verifiedPayload, done, Except.toOption]
  refine ⟨hash, content, ?_, ?_⟩
  · intro outcome key given
    obtain ⟨payload, done, carried⟩ := verified outcome key given
    exact ⟨payload, done, names payload key carried⟩
  · intro json carried
    simp only [credentialPart, carried] at credentials agrees
    obtain ⟨credential, key, accepted, read⟩ := credentialDetails_passed credentials
    obtain ⟨same, issuers, signers⟩ := agrees credential read
    refine ⟨credential, key, accepted, same, issuers, ?_⟩
    intro outcome signer given
    obtain ⟨payload, -, delivered⟩ := verified outcome signer given
    exact signers payload signer delivered

def issuerKey (lib : Libraries) (record : ProvenanceRecord) : Option Array32 :=
  (record.issuerDid.bind fun did => (ed25519FromDidKey lib did).toOption).bind fun pk => (verifyingKey lib pk).toOption

/-- The anchor is tied to no signature: the record carries no signed part, or only a credential
that passes under an untrusted key while its issuer is not named by the record. -/
def Unanchored (lib : Libraries) (clock : Clock) (manager : Verifier) (record : ProvenanceRecord)
    (trust : TrustStore) : Prop :=
  record.coseEnvelope = none ∧
    ((record.vcJson = none ∧ trust.isTrusted ((issuerKey lib record).getD manager.verifyingKey) = true) ∨
      ∃ json credential key, record.vcJson = some json ∧ issuerKey lib record = none ∧
        trust.isTrusted manager.verifyingKey = true ∧ trust.isTrusted key = false ∧
        CredentialAccepted lib clock trust.requireStatusLists (manager.lookup clock (some trust)) json credential key ∧
        checkBinding lib record none (some credential) = .ok ())

def AuthenticWhenValid (lib : Libraries) (clock : Clock) (manager : Verifier) (record : ProvenanceRecord)
    (trust : TrustStore) : Prop :=
  (∀ result, verifyRecord lib clock record trust = .ok result → result.valid = true →
    ∃ hash, Authentic lib trust record hash) ∧
  ((manager.verifyFactProvenance lib clock record trust).valid = true → ∃ hash, Authentic lib trust record hash)

theorem CredentialAccepted.key_eq (lawful : lib.Lawful)
    (accepted : CredentialAccepted lib clock requireList lookup json credential own)
    (resolves : ed25519FromDidKey lib credential.issuer = .ok key) : own = key := by
  obtain ⟨_, _, -, -, -, found, -⟩ := accepted.document
  rw [beforeFragment_of_resolves lawful resolves, resolves] at found
  cases found
  rfl

theorem authentic_of_passed (lawful : lib.Lawful)
    (passed : ∀ detail ∈ signedDetails lib clock requireList lookup record envelope, detail.passed = true)
    (carries : record.coseEnvelope ≠ none ∨ record.vcJson ≠ none)
    (checked : ∀ bytes, record.coseEnvelope = some bytes → ∃ key, envelope = some (verifyAndExtract lib key bytes, key) ∧ trust.isTrusted key = true)
    (anchored : record.coseEnvelope = none → ∀ json credential key, record.vcJson = some json → CredentialAccepted lib clock requireList lookup json credential key → (∀ issuer, record.issuerDid = some issuer → issuer = credential.issuer) → trust.isTrusted key = true) :
    ∃ hash, Authentic lib trust record hash := by
  have present : envelope ≠ none ∨ record.vcJson ≠ none := by
    rcases carries with envelopes | credentials
    · obtain ⟨bytes, given⟩ := Option.ne_none_iff_exists'.mp envelopes
      obtain ⟨key, outcome, -⟩ := checked bytes given
      exact .inl (by simp [outcome])
    · exact .inr credentials
  obtain ⟨hash, content, names, credentials⟩ := signedDetails_passed passed present
  refine ⟨hash, content, carries, ?_, ?_⟩
  · intro bytes given
    obtain ⟨key, outcome, trusted⟩ := checked bytes given
    obtain ⟨payload, verified, named⟩ := names _ _ outcome
    exact ⟨key, payload, trusted, verifyAndExtract_signed verified, named⟩
  · intro json given
    obtain ⟨credential, key, accepted, same, issuers, signers⟩ := credentials json given
    have trusted : trust.isTrusted key = true := by
      cases bytes : record.coseEnvelope with
      | none => exact anchored bytes json credential key given accepted issuers
      | some bytes' =>
        obtain ⟨signer, outcome, trusted⟩ := checked bytes' bytes
        have resolves := ed25519FromDidKey_didKey lawful signer
        rw [signers _ _ outcome] at resolves
        rwa [accepted.key_eq lawful resolves]
    obtain ⟨document, subject, signed, carried, hashed, -, -⟩ := accepted.document
    exact ⟨key, document, subject, trusted, signed, carried, by rw [hashed, same]⟩

theorem issuerKey_eq_some (found : issuerKey lib record = some key) :
    ∃ did, record.issuerDid = some did ∧ ed25519FromDidKey lib did = .ok key := by
  unfold issuerKey at found
  obtain ⟨pk, resolved, valid⟩ := Option.bind_eq_some_iff.mp found
  obtain ⟨did, given, resolved⟩ := Option.bind_eq_some_iff.mp resolved
  refine ⟨did, given, ?_⟩
  cases resolves : ed25519FromDidKey lib did with
  | error message => simp [resolves, Except.toOption] at resolved
  | ok own =>
    obtain rfl : own = pk := by simpa [resolves, Except.toOption] using resolved
    cases checked : verifyingKey lib own with
    | error message => simp [checked, Except.toOption] at valid
    | ok same =>
      obtain rfl : same = key := by simpa [checked, Except.toOption] using valid
      rw [(verifyingKey_eq_ok checked).1]

theorem signerKey_of_credential (bare : record.coseEnvelope = none) : signerKey lib record = issuerKey lib record := by
  simp [signerKey, issuerKey, bare]

theorem resolveCoseVerifyingKey_of_credential (bare : record.coseEnvelope = none) :
    resolveCoseVerifyingKey lib record fallback = (issuerKey lib record).getD fallback := by
  simp [resolveCoseVerifyingKey, issuerKey, bare]

theorem CredentialAccepted.trusted_of_issuer {clock : Clock} {requireList : Bool} {lookup : String → Nat → StatusLookup}
    {json : String} {credential : FactCredential} {own key : Array32} {trust : TrustStore}
    (lawful : lib.Lawful) (accepted : CredentialAccepted lib clock requireList lookup json credential own)
    (issuers : ∀ issuer, record.issuerDid = some issuer → issuer = credential.issuer)
    (found : issuerKey lib record = some key) (trusted : trust.isTrusted key = true) : trust.isTrusted own = true := by
  obtain ⟨did, given, resolves⟩ := issuerKey_eq_some found
  rw [issuers did given] at resolves
  rwa [accepted.key_eq lawful resolves]

theorem signerKey_of_envelope (given : record.coseEnvelope = some envelope) (found : envelopeKey lib envelope = .ok key) :
    signerKey lib record = some key := by
  unfold envelopeKey at found
  obtain ⟨kid, extracted, found⟩ := bind_eq_ok.mp found
  split at found
  · rename_i pk sized
    rw [mapError_eq_ok] at found
    obtain ⟨rfl, valid⟩ := verifyingKey_eq_ok found
    simp [signerKey, given, extracted, Except.toOption, sized, valid]
  · cases found

theorem verifyRecord_authentic (lawful : lib.Lawful) (clock : Clock) (record : ProvenanceRecord) (trust : TrustStore)
    (result : VerificationResult) (done : verifyRecord lib clock record trust = .ok result)
    (valid : result.valid = true) : ∃ hash, Authentic lib trust record hash := by
  unfold verifyRecord at done
  have outcome : ∃ envelope : Option (Except String Bytes × Array32),
      (∀ bytes, record.coseEnvelope = some bytes →
        ∃ key, envelopeKey lib bytes = .ok key ∧ envelope = some (verifyAndExtract lib key bytes, key)) ∧
      (record.coseEnvelope = none → envelope = none) ∧
      (let signed := signedDetails lib clock trust.requireStatusLists (trust.statusLookup clock.status) record envelope
       result.details = if signed.isEmpty then []
        else signed ++ [trustAnchorDetail ((signerKey lib record).any trust.isTrusted)]) ∧
      result.valid = allPassed result.details := by
    cases given : record.coseEnvelope with
    | none =>
      rw [given] at done
      cases done
      exact ⟨none, by simp, by simp, rfl, rfl⟩
    | some bytes =>
      rw [given] at done
      obtain ⟨key, own, done⟩ := bind_eq_ok.mp done
      cases done
      refine ⟨some (verifyAndExtract lib key bytes, key), ?_, by simp, rfl, rfl⟩
      intro bytes' same
      cases same
      exact ⟨key, own, rfl⟩
  obtain ⟨envelope, keyed, absent, details, validity⟩ := outcome
  rw [validity, allPassed_iff] at valid
  obtain ⟨nonempty, passed⟩ := valid
  dsimp only at details
  split at details
  · exact absurd details nonempty
  rename_i listed
  rw [details] at passed
  simp only [forall_mem_append, mem_singleton, forall_eq, trustAnchorDetail_passed] at passed
  obtain ⟨signed, anchor⟩ := passed
  obtain ⟨key, found, trusted⟩ : ∃ key, signerKey lib record = some key ∧ trust.isTrusted key = true := by
    simpa [Option.any_eq_true] using anchor
  apply authentic_of_passed lawful signed
  · by_contra neither
    simp only [ne_eq, not_or, not_not] at neither
    apply listed
    simp [signedDetails, credentialPart, neither.2, absent neither.1]
  · intro bytes given
    obtain ⟨own, extracted, outcome⟩ := keyed bytes given
    obtain rfl : own = key := by simpa [signerKey_of_envelope given extracted] using found
    exact ⟨own, outcome, trusted⟩
  · intro bare json credential own given accepted issuers
    rw [signerKey_of_credential bare] at found
    exact accepted.trusted_of_issuer lawful issuers found trusted

theorem verifyFactProvenance_valid {clock : Clock} {manager : Verifier} {trust : TrustStore} :
    (manager.verifyFactProvenance lib clock record trust).valid = true ↔
      trust.isTrusted (resolveCoseVerifyingKey lib record manager.verifyingKey) = true ∧
      ∀ detail ∈ signedDetails lib clock trust.requireStatusLists (manager.lookup clock (some trust)) record
        (record.coseEnvelope.map fun envelope =>
          (verifyAndExtract lib (resolveCoseVerifyingKey lib record manager.verifyingKey) envelope,
            resolveCoseVerifyingKey lib record manager.verifyingKey)), detail.passed = true := by
  unfold Verifier.verifyFactProvenance Verifier.verifySignatures
  simp only [Option.any_some]
  simp only [allPassed_iff, forall_mem_append, mem_singleton, forall_eq, trustAnchorDetail_passed]
  constructor
  · rintro ⟨-, signed, trusted⟩
    exact ⟨trusted, signed⟩
  · rintro ⟨trusted, signed⟩
    exact ⟨by simp, signed, trusted⟩

theorem verifyFactProvenance_authentic (lawful : lib.Lawful) {clock : Clock} {manager : Verifier}
    {trust : TrustStore} (anchored : ¬ Unanchored lib clock manager record trust)
    (valid : (manager.verifyFactProvenance lib clock record trust).valid = true) :
    ∃ hash, Authentic lib trust record hash := by
  obtain ⟨trusted, signed⟩ := verifyFactProvenance_valid.mp valid
  have signed' := signed
  apply authentic_of_passed lawful signed
  · by_contra neither
    simp only [ne_eq, not_or, not_not] at neither
    refine anchored ⟨neither.1, .inl ⟨neither.2, ?_⟩⟩
    rwa [resolveCoseVerifyingKey_of_credential neither.1] at trusted
  · intro bytes given
    exact ⟨_, by simp [given], trusted⟩
  · intro bare json credential own given accepted issuers
    rw [resolveCoseVerifyingKey_of_credential bare] at trusted
    cases found : issuerKey lib record with
    | some key =>
      rw [found] at trusted
      exact accepted.trusted_of_issuer lawful issuers found trusted
    | none =>
      by_contra untrusted
      rw [found] at trusted
      refine anchored ⟨bare, .inr ⟨json, credential, own, given, found, trusted, by simpa using untrusted, accepted, ?_⟩⟩
      have passed := signed'
      simp only [bare, Option.map_none] at passed
      rw [signedDetails_eq (.inr (by simp [given]))] at passed
      have bound := passed (outcomeDetail "record_binding" (checkBinding lib record (verifiedPayload none)
        (credentialPart lib clock trust.requireStatusLists (manager.lookup clock (some trust)) record).2)) (by simp)
      obtain ⟨_, bound⟩ := (outcomeDetail_passed _ _).mp bound
      have read := accepted.details.2
      simp only [credentialPart, given] at bound
      rw [read] at bound
      exact bound

theorem Unanchored.valid_not_authentic (exposed : Unanchored lib clock manager record trust) :
    (manager.verifyFactProvenance lib clock record trust).valid = true ∧
      ¬ ∃ hash, Authentic lib trust record hash := by
  obtain ⟨bare, cases⟩ := exposed
  rw [verifyFactProvenance_valid, resolveCoseVerifyingKey_of_credential bare]
  rcases cases with ⟨plain, trusted⟩ | ⟨json, credential, key, given, unresolved, trusted, untrusted, accepted, bound⟩
  · refine ⟨⟨trusted, ?_⟩, ?_⟩
    · simp [signedDetails, credentialPart, bare, plain]
    · rintro ⟨hash, authentic⟩
      rcases authentic.carries with envelopes | credentials
      · exact envelopes bare
      · exact credentials plain
  · refine ⟨⟨by rwa [unresolved], ?_⟩, ?_⟩
    · obtain ⟨passed, read⟩ := accepted.details
      simp only [bare, Option.map_none]
      rw [signedDetails_eq (.inr (by simp [given]))]
      simp only [credentialPart, given]
      intro detail member
      simp only [Option.toList_none, map_nil, nil_append, mem_append, mem_singleton] at member
      rcases member with own | rfl
      · exact passed detail own
      · rw [outcomeDetail_passed]
        exact ⟨(), by rw [read]; exact bound⟩
    · rintro ⟨hash, authentic⟩
      obtain ⟨other, document, _, otherTrusted, signed, -⟩ := authentic.credential json given
      obtain ⟨_, _, own, -⟩ := accepted.document
      rw [signed.unique own, untrusted] at otherTrusted
      cases otherTrusted

/-- Both verifiers report only authentic records valid, except for the records whose anchor is tied
to no signature. -/
theorem authenticWhenValid_iff {lib : Libraries} (lawful : lib.Lawful) (clock : Clock) (manager : Verifier)
    (record : ProvenanceRecord) (trust : TrustStore) :
    AuthenticWhenValid lib clock manager record trust ↔ ¬ Unanchored lib clock manager record trust := by
  constructor
  · rintro ⟨-, sound⟩ exposed
    obtain ⟨valid, forged⟩ := exposed.valid_not_authentic
    exact forged (sound valid)
  · intro anchored
    exact ⟨verifyRecord_authentic lawful clock record trust, verifyFactProvenance_authentic lawful anchored⟩

/-! ### A signed envelope and an empty record -/

namespace Sample

def key : Array32 := ⟨[0xd7, 0x5a, 0x98, 0x01, 0x82, 0xb1, 0x0a, 0xb7, 0xd5, 0x4b, 0xfe, 0xd3, 0xc9, 0x64, 0x07, 0x3a,
  0x0e, 0xe1, 0x72, 0xf3, 0xda, 0xa6, 0x23, 0x25, 0xaf, 0x02, 0x1a, 0x68, 0xf7, 0x07, 0x51, 0x1a], by decide⟩

/-- The SHA-256 of the empty text. -/
def content : Array32 := ⟨[0xe3, 0xb0, 0xc4, 0x42, 0x98, 0xfc, 0x1c, 0x14, 0x9a, 0xfb, 0xf4, 0xc8, 0x99, 0x6f, 0xb9, 0x24,
  0x27, 0xae, 0x41, 0xe4, 0x64, 0x9b, 0x93, 0x4c, 0xa4, 0x95, 0x99, 0x1b, 0x78, 0x52, 0xb8, 0x55], by decide⟩

def protectedBytes : Bytes := [0xa2, 0x01, 0x27, 0x04, 0x58, 0x20] ++ key.val

def payload : Bytes := [0xa3, 0x62, 0x69, 0x64, 0x61, 0x66, 0x6c, 0x63, 0x6f, 0x6e, 0x74, 0x65, 0x6e, 0x74, 0x5f, 0x68,
  0x61, 0x73, 0x68, 0x58, 0x20] ++ content.val ++
  [0x6c, 0x74, 0x69, 0x6d, 0x65, 0x73, 0x74, 0x61, 0x6d, 0x70, 0x5f, 0x6d, 0x73, 0x00]

def signature : Bytes := [0xf3, 0x81, 0xf6, 0x01, 0x42, 0x8a, 0x96, 0x18, 0x45, 0x3b, 0xc9, 0xf9, 0x9a, 0x54, 0xaf, 0xc1,
  0x67, 0x6c, 0xb4, 0xb7, 0xa2, 0x79, 0x31, 0x89, 0xf0, 0x6b, 0x9a, 0x0e, 0x38, 0x31, 0x37, 0xfb, 0x3a, 0xc2, 0x97, 0x0a,
  0x79, 0x24, 0x14, 0xb8, 0x94, 0x69, 0xec, 0x1f, 0xcd, 0x2f, 0xa1, 0x5b, 0xf0, 0x8c, 0xc3, 0x07, 0x2f, 0x4b, 0x28, 0xda,
  0x0d, 0x0d, 0xa9, 0x04, 0x0f, 0xa7, 0xa3, 0x0e]

def envelope : Bytes := [0x84, 0x58, 0x26] ++ protectedBytes ++ [0xa0, 0x58, 0x43] ++ payload ++ [0x58, 0x40] ++ signature

/-- The `Sig_structure` of the envelope. -/
def signedData : Bytes :=
  [0x84, 0x6a] ++ utf8 "Signature1" ++ [0x58, 0x26] ++ protectedBytes ++ [0x40, 0x58, 0x43] ++ payload

def headers : List (Cbor × Cbor) := [(.integer 1, .integer (-8)), (.integer 4, .bytes key.val)]

def claims : List (Cbor × Cbor) :=
  [(.text "id", .text "f"), (.text "content_hash", .bytes content.val), (.text "timestamp_ms", .integer 0)]

/-- The libraries on the sample's own bytes. Multibase is stood for by a code with the same laws. -/
def libraries : Libraries where
  sha256 _ := content
  fromBytes bytes := if bytes = key then .ok () else .error "Cannot decompress Edwards point"
  verify _ _ _ := false
  verifyStrict own data sealed := own = key ∧ data = signedData ∧ sealed = signature
  encodeBase58 bytes := String.ofList (bytes.map fun byte => Char.ofNat (0x4e00 + byte.toNat))
  decodeMultibase text :=
    if text.toList.all fun c => 0x4e00 ≤ c.toNat then
      .ok (.base58Btc, text.toList.map fun c => UInt8.ofNat (c.toNat - 0x4e00))
    else .error "Unknown base code"
  fromReader bytes := if bytes = payload then .ok (.map claims, bytes.length) else .error "Io"
  fromReaderLimited bytes :=
    if bytes = envelope then
      .ok (.array [.bytes protectedBytes, .map [], .bytes payload, .bytes signature], bytes.length)
    else if bytes = protectedBytes then .ok (.map headers, bytes.length)
    else .error "Io"
  coseSign1 bytes :=
    if bytes = envelope then
      .ok ⟨⟨true, true, [], key.val, .ok headers⟩, ⟨false, false, [], [], .ok []⟩, some payload, signature, signedData⟩
    else .error "decode error"
  fromStr _ := .error "expected value at line 1 column 1"
  credentialError _ := "expected value at line 1 column 1"
  jcs _ := .error "unsupported"
  toVec _ := []
  uri _ := .error "invalid uri character"
  debug text := text

theorem libraries_lawful : libraries.Lawful where
  base58 := by
    intro bytes
    have valid (byte : UInt8) : (Char.ofNat (0x4e00 + byte.toNat)).toNat = 0x4e00 + byte.toNat := by
      have each : ∀ n < 256, (Char.ofNat (0x4e00 + n)).toNat = 0x4e00 + n := by decide +kernel
      exact each _ byte.toNat_lt
    have back : (bytes.map fun byte => Char.ofNat (0x4e00 + byte.toNat)).map
        (fun c => UInt8.ofNat (c.toNat - 0x4e00)) = bytes := by
      rw [map_map]
      conv => rhs; rw [← map_id bytes]
      apply map_congr_left
      intro byte _
      simp [valid]
    simp only [libraries, String.toList_ofList, back]
    rw [if_pos]
    simp [valid]
  alphabet := by
    intro text bytes decoded member
    simp only [libraries] at decoded
    split at decoded
    · rename_i high
      have above := all_eq_true.mp high '#' member
      simp at above
    · cases decoded

def clock : Clock := ⟨(0, []), none⟩

def manager : Verifier := ⟨key, "did:key:z6MktwupdmLXVVqTzCw4i46r4uGyosGXRnR3XjN4Zq7oMMsw", "https://issuer/status/1", 0, []⟩

def trust : TrustStore := ⟨[key], [], false, none⟩

/-- A record that carries the envelope alone. -/
def signed : ProvenanceRecord := ⟨none, some content, 0, 0, none, some envelope, none, none, none⟩

/-- `ProvenanceRecord::now()` at the epoch. -/
def empty : ProvenanceRecord := ⟨none, none, 0, 0, none, none, none, none, none⟩

end Sample

/-- The hypotheses hold of an envelope that verifies. -/
theorem authenticWhenValid_signed :
    (verifyRecord Sample.libraries Sample.clock Sample.signed Sample.trust).map (·.valid) = .ok true ∧
      AuthenticWhenValid Sample.libraries Sample.clock Sample.manager Sample.signed Sample.trust := by
  refine ⟨by decide +kernel, (authenticWhenValid_iff Sample.libraries_lawful _ _ _ _).mpr ?_⟩
  rintro ⟨bare, -⟩
  cases bare

/-- A record without any signed part is valid for a manager whose own key is trusted. -/
theorem authenticWhenValid_empty :
    (Sample.manager.verifyFactProvenance Sample.libraries Sample.clock Sample.empty Sample.trust).valid = true ∧
      ¬ AuthenticWhenValid Sample.libraries Sample.clock Sample.manager Sample.empty Sample.trust := by
  have exposed : Unanchored Sample.libraries Sample.clock Sample.manager Sample.empty Sample.trust :=
    ⟨rfl, .inl ⟨rfl, by decide⟩⟩
  obtain ⟨valid, forged⟩ := exposed.valid_not_authentic
  exact ⟨valid, fun sound => forged (sound.2 valid)⟩

end Warm.Provenance
