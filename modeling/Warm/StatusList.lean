import Warm.AgentRegistry

/-! Signed revocation lists. A list is published most significant bit first, padded, compressed and
signed; reading it back reports the indexes the list reports. -/
namespace Warm.Provenance

open List hiding below count length lookup lookup_cons map max tails toString

open Bytes Binary

/-- The compression and the second multibase alphabet that status lists use. `gunzip` stops after its
first argument's number of bytes. -/
structure ListLibraries extends Libraries where
  gzip : Bytes → Bytes
  gunzip : Nat → Bytes → Except String Bytes
  encodeBase64Url : Bytes → String

def BASE64URL : Base := .other 'u'

structure SigningKey where
  publicKey : Array32
  sign : Bytes → Bytes

structure StatusListSubject where
  id : String
  subjectType : String
  statusPurpose : String
  encodedList : String
  extra : List (String × Value)

structure StatusListCredential where
  context : List String
  credentialType : List String
  id : String
  issuer : String
  validFrom : String
  credentialSubject : StatusListSubject
  proof : Option DataIntegrityProof
  extra : List (String × Value)

/-- `serde_json::to_value` of the credential without its proof. -/
def StatusListCredential.unsigned (credential : StatusListCredential) : List (String × Value) :=
  let subject := credential.credentialSubject
  Value.collect ([("@context", Value.array (credential.context.map .string)),
    ("type", .array (credential.credentialType.map .string)), ("id", .string credential.id),
    ("issuer", .string credential.issuer), ("validFrom", .string credential.validFrom),
    ("credentialSubject", .object (Value.collect ([("id", Value.string subject.id),
      ("type", .string subject.subjectType), ("statusPurpose", .string subject.statusPurpose),
      ("encodedList", .string subject.encodedList)] ++ subject.extra)))] ++ credential.extra)

/-- `sign_document`, when the clock reads `created`. -/
def signDocument (lib : Libraries) (signingKey : SigningKey) (created : String) (unsigned : List (String × Value)) :
    Except String DataIntegrityProof := do
  let object := removeEntry "proof" unsigned
  let context := Value.lookup "@context" object
  let multikey := lib.encodeBase58 (ED25519_MULTICODEC ++ signingKey.publicKey.val)
  let verificationMethod := didKeyFromEd25519 lib signingKey.publicKey ++ "#" ++ multikey
  let options := Value.collect ([("type", .string PROOF_TYPE), ("cryptosuite", .string CRYPTOSUITE),
    ("created", .string created), ("verificationMethod", .string verificationMethod),
    ("proofPurpose", .string PROOF_PURPOSE)] ++ (context.toList.map fun value => ("@context", value)))
  let hashData ← proofHashData lib (.object object) (.object options)
  .ok ⟨context, PROOF_TYPE, CRYPTOSUITE, created, verificationMethod, PROOF_PURPOSE,
    lib.encodeBase58 (signingKey.sign hashData), []⟩

/-- `u8::reverse_bits`. -/
def reverseBits (byte : UInt8) : UInt8 :=
  UInt8.ofNat ((List.range 8).foldl (fun value k => 2 * value + (byte.toNat >>> k) % 2) 0)

def publishedBits (bits : Bytes) (length : Nat) : Bytes :=
  bits.map reverseBits ++ List.replicate (length - bits.length) 0

/-- `create_status_list_credential`, when the clock reads `now` and, at the signature, `created`. -/
def createStatusListCredential (lib : ListLibraries) (signingKey : SigningKey) (now created url : String)
    (revocationBits : Bytes) (highestIssuedIndex : Nat) : Except String StatusListCredential := do
  validateUrl lib.toLibraries url
  let length := max (max MIN_BYTES (highestIssuedIndex / 8 + 1)) revocationBits.length
  ensure (length ≤ MAX_BYTES) ("status list exceeds " ++ toString MAX_BYTES ++ " bytes")
  let encoded := lib.encodeBase64Url (lib.gzip (publishedBits revocationBits length))
  let credential : StatusListCredential := {
    context := ["https://www.w3.org/ns/credentials/v2"]
    credentialType := ["VerifiableCredential", "BitstringStatusListCredential"]
    id := url
    issuer := didKeyFromEd25519 lib.toLibraries signingKey.publicKey
    validFrom := now
    credentialSubject := ⟨url ++ "#list", "BitstringStatusList", "revocation", encoded, []⟩
    proof := none
    extra := [] }
  let proof ← signDocument lib.toLibraries signingKey created credential.unsigned
  .ok { credential with proof := some proof }

def StatusListCredential.validUntil (credential : StatusListCredential) : Except String (Option StatusTime) :=
  match Value.lookup "validUntil" credential.extra with
  | none => .ok none
  | some value => do
    let some text := value.asStr | .error "status list validUntil must be a dateTimeStamp string"
    .ok (some (← parseDatetimeStamp text))

/-- The list a credential's subject carries. -/
def decodeStatusList (lib : ListLibraries) (encoded : String) : Except String Bytes := do
  ensure ((utf8 encoded).length ≤ MAX_BYTES * 2 ∧ '=' ∉ encoded.toList) "encoded status list exceeds size limit"
  let (base, compressed) ← (lib.decodeMultibase encoded).mapError fun e => "status list multibase decode failed: " ++ e
  ensure (base = BASE64URL) "status list must use unpadded base64url multibase"
  let wire ← (lib.gunzip (MAX_BYTES + 1) compressed).mapError fun e => "status list GZIP decode failed: " ++ e
  ensure (MIN_BYTES ≤ wire.length ∧ wire.length ≤ MAX_BYTES) "status list uncompressed size is out of range"
  .ok (wire.map reverseBits)

/-- The end of a credential's validity, when it has one, comes after its start and after `now`. -/
def StatusListCredential.checkEnd (credential : StatusListCredential) (validFrom now : StatusTime) : Except String Unit := do
  match ← credential.validUntil with
  | none => .ok ()
  | some stop => do
    ensure (StatusTime.le validFrom stop) "status list validity interval is inverted"
    ensure (StatusTime.le now stop) "status list has expired"

def verifyStatusListCredentialAt (lib : ListLibraries) (credential : StatusListCredential) (now : StatusTime) :
    Except String (Array32 × Bytes) := do
  validateUrl lib.toLibraries credential.id
  let validFrom ← parseDatetimeStamp credential.validFrom
  ensure (StatusTime.le validFrom now) "status list is not yet valid"
  credential.checkEnd validFrom now
  let subject := credential.credentialSubject
  ensure (credential.context.head? = some "https://www.w3.org/ns/credentials/v2" ∧
    "VerifiableCredential" ∈ credential.credentialType ∧ "BitstringStatusListCredential" ∈ credential.credentialType ∧
    subject.id = credential.id ++ "#list" ∧ subject.subjectType = "BitstringStatusList" ∧
    subject.statusPurpose = "revocation") "invalid status list credential fields"
  let some proof := credential.proof | .error "status list credential has no proof"
  let key ← verifyDocument lib.toLibraries credential.unsigned credential.issuer proof
  let bits ← decodeStatusList lib subject.encodedList
  .ok (key, bits)

/-- Documented behaviour of the compression, the encodings and the signatures: what was written reads
back, compression adds little, and a signature verifies under its own key. -/
structure ListLibraries.Lawful (lib : ListLibraries) (signingKey : SigningKey) : Prop where
  multibase : lib.toLibraries.Lawful
  base58_code : ∀ bytes, startsWith (lib.encodeBase58 bytes) "z" = true
  base64 : ∀ bytes, lib.decodeMultibase (lib.encodeBase64Url bytes) = .ok (BASE64URL, bytes)
  base64_unpadded : ∀ bytes, '=' ∉ (lib.encodeBase64Url bytes).toList
  base64_length : ∀ bytes, (utf8 (lib.encodeBase64Url bytes)).length ≤ 4 * bytes.length / 3 + 4
  gzip : ∀ bytes limit, bytes.length ≤ limit → lib.gunzip limit (lib.gzip bytes) = .ok bytes
  gzip_length : ∀ bytes, (lib.gzip bytes).length ≤ bytes.length + bytes.length / 8 + 256
  key : lib.fromBytes signingKey.publicKey = .ok ()
  signature_length : ∀ data, (signingKey.sign data).length = 64
  signature : ∀ data, lib.verify signingKey.publicKey data (signingKey.sign data) = true

/-! ### Bits -/

theorem reverseBits_reverseBits (byte : UInt8) : reverseBits (reverseBits byte) = byte := by
  have each : ∀ n < 256, reverseBits (reverseBits (UInt8.ofNat n)) = UInt8.ofNat n := by decide +kernel
  simpa using each byte.toNat byte.toNat_lt

theorem statusBit_append_zeros (bits : Bytes) (count index : Nat) :
    statusBit (bits ++ List.replicate count 0) index = statusBit bits index := by
  unfold statusBit
  by_cases inside : index / 8 < bits.length
  · rw [getElem?_append_left inside]
  · rw [getElem?_append_right (Nat.le_of_not_lt inside), getElem?_eq_none (Nat.le_of_not_lt inside),
      getElem?_replicate]
    split <;> simp [byteBit]

theorem publishedBits_reversed (bits : Bytes) (length : Nat) :
    (publishedBits bits length).map reverseBits = bits ++ List.replicate (length - bits.length) 0 := by
  have zero : reverseBits 0 = 0 := by decide
  have back : reverseBits ∘ reverseBits = id := funext reverseBits_reverseBits
  simp [publishedBits, zero, back]

theorem length_publishedBits (fits : bits.length ≤ length) : (publishedBits bits length).length = length := by
  simp [publishedBits, fits]

/-! ### Objects in key order -/

namespace Value

def Ordered (entries : List (String × Value)) : Prop := entries.Pairwise fun first second => first.1 < second.1

theorem mem_insertEntry (member : entry ∈ insertEntry key value entries) : entry.1 = key ∨ entry ∈ entries := by
  induction entries with
  | nil => simp_all [insertEntry]
  | cons first entries ih =>
    unfold insertEntry at member
    split at member
    · rcases mem_cons.mp member with rfl | member
      · exact .inl rfl
      · exact .inr member
    · split at member
      · rcases mem_cons.mp member with rfl | member
        · exact .inl rfl
        · exact .inr (mem_cons_of_mem _ member)
      · rcases mem_cons.mp member with rfl | member
        · exact .inr mem_cons_self
        · exact (ih member).imp_right (mem_cons_of_mem _)

theorem Ordered.insertEntry (ordered : Ordered entries) : Ordered (insertEntry key value entries) := by
  induction entries with
  | nil => simp [Ordered, Value.insertEntry]
  | cons first entries ih =>
    obtain ⟨least, rest⟩ := pairwise_cons.mp ordered
    unfold Value.insertEntry
    split
    · rename_i below
      refine pairwise_cons.mpr ⟨fun entry member => ?_, ordered⟩
      rcases mem_cons.mp member with rfl | member
      · exact below
      · exact below.trans (least entry member)
    · rename_i notBelow
      split
      · rename_i same
        exact pairwise_cons.mpr ⟨fun entry member => same ▸ least entry member, rest⟩
      · rename_i different
        refine pairwise_cons.mpr ⟨fun entry member => ?_, ih rest⟩
        rcases mem_insertEntry member with same | member
        · rw [same]
          exact lt_of_le_of_ne (not_lt.mp notBelow) different
        · exact least entry member

theorem ordered_collect (entries : List (String × Value)) : Ordered (collect entries) := by
  unfold collect
  have each (map : List (String × Value)) (ordered : Ordered map) :
      Ordered (entries.foldl (fun map entry => Value.insertEntry entry.1 entry.2 map) map) := by
    induction entries generalizing map with
    | nil => exact ordered
    | cons entry entries ih => exact ih _ ordered.insertEntry
  exact each [] List.Pairwise.nil

theorem Ordered.removeEntry (ordered : Ordered entries) : Ordered (removeEntry key entries) :=
  List.Pairwise.filter _ ordered

theorem lookup_eq_none_of_lt (above : ∀ entry ∈ entries, key < entry.1) : lookup key entries = none := by
  simp only [lookup, Option.map_eq_none_iff, find?_eq_none, decide_eq_true_eq]
  exact fun entry member => (above entry member).ne'

theorem Ordered.ext (left : Ordered first) (right : Ordered second) (same : ∀ key, lookup key first = lookup key second) :
    first = second := by
  induction first generalizing second with
  | nil =>
    cases second with
    | nil => rfl
    | cons entry second =>
      have found := same entry.1
      simp [lookup_cons] at found
  | cons entry first ih =>
    cases second with
    | nil =>
      have found := same entry.1
      simp [lookup_cons] at found
    | cons other second =>
      obtain ⟨leastLeft, restLeft⟩ := pairwise_cons.mp left
      obtain ⟨leastRight, restRight⟩ := pairwise_cons.mp right
      have heads : entry.1 = other.1 := by
        rcases lt_trichotomy entry.1 other.1 with below | equal | above
        · have found := same entry.1
          rw [lookup_cons, if_pos rfl, lookup_eq_none_of_lt] at found
          · cases found
          · exact forall_mem_cons.mpr ⟨below, fun later member => below.trans (leastRight later member)⟩
        · exact equal
        · have found := (same other.1).symm
          rw [lookup_cons, if_pos rfl, lookup_eq_none_of_lt] at found
          · cases found
          · exact forall_mem_cons.mpr ⟨above, fun later member => above.trans (leastLeft later member)⟩
      have values : entry.2 = other.2 := by
        have found := same entry.1
        rw [lookup_cons, if_pos rfl, lookup_cons, if_pos heads.symm] at found
        exact Option.some.inj found
      have tails : ∀ key, lookup key first = lookup key second := by
        intro key
        have found := same key
        rw [lookup_cons, lookup_cons, heads] at found
        by_cases own : other.1 = key
        · rw [lookup_eq_none_of_lt fun later member => own ▸ heads ▸ leastLeft later member,
            lookup_eq_none_of_lt fun later member => own ▸ leastRight later member]
        · simpa [own] using found
      rw [ih restLeft restRight tails, Prod.ext heads values]

theorem Ordered.insertEntry_of_lookup (ordered : Ordered entries) (found : lookup key entries = some value) :
    Value.insertEntry key value entries = entries := by
  refine ordered.insertEntry.ext ordered fun other => ?_
  rw [lookup_insertEntry]
  split
  · rename_i same
    rw [← same, found]
  · rfl

end Value

/-! ### Reading back what was published -/

section
variable {lib : ListLibraries} {signingKey : SigningKey}

theorem decodeStatusList_published (lawful : lib.Lawful signingKey) (fits : bits.length ≤ length)
    (low : MIN_BYTES ≤ length) (high : length ≤ MAX_BYTES) :
    decodeStatusList lib (lib.encodeBase64Url (lib.gzip (publishedBits bits length))) =
      .ok (bits ++ List.replicate (length - bits.length) 0) := by
  have own := length_publishedBits fits
  have packed := lawful.gzip_length (publishedBits bits length)
  have short := lawful.base64_length (lib.gzip (publishedBits bits length))
  have sized : (utf8 (lib.encodeBase64Url (lib.gzip (publishedBits bits length)))).length ≤ MAX_BYTES * 2 := by
    rw [own] at packed
    unfold MAX_BYTES at high ⊢
    omega
  have whole : lib.gunzip (MAX_BYTES + 1) (lib.gzip (publishedBits bits length)) = .ok (publishedBits bits length) :=
    lawful.gzip _ _ (by omega)
  unfold decodeStatusList
  refine bind_eq_ok.mpr ⟨(), ensure_eq_ok.mpr ⟨sized, lawful.base64_unpadded _⟩, ?_⟩
  refine bind_eq_ok.mpr ⟨_, mapError_eq_ok.mpr (lawful.base64 _), ?_⟩
  refine bind_eq_ok.mpr ⟨(), ensure_eq_ok.mpr rfl, ?_⟩
  refine bind_eq_ok.mpr ⟨_, mapError_eq_ok.mpr whole, ?_⟩
  refine bind_eq_ok.mpr ⟨(), ensure_eq_ok.mpr (by omega), ?_⟩
  rw [publishedBits_reversed]

theorem lookup_removeEntry_same (key : String) (entries : List (String × Value)) :
    Value.lookup key (removeEntry key entries) = none := by
  simp [Value.lookup, removeEntry]

theorem proofOptions_signed (context : Value) (proofType cryptosuite created method purpose proofValue : String) :
    proofOptions ⟨some context, proofType, cryptosuite, created, method, purpose, proofValue, []⟩ =
      Value.collect [("type", .string proofType), ("cryptosuite", .string cryptosuite), ("created", .string created),
        ("verificationMethod", .string method), ("proofPurpose", .string purpose), ("@context", context)] := by
  unfold proofOptions Value.ofProof
  refine (Value.ordered_collect _).removeEntry.ext (Value.ordered_collect _) fun key => ?_
  by_cases own : key = "proofValue"
  · subst own
    rw [lookup_removeEntry_same]
    simp [Value.collect, Value.lookup_insertEntry]
  · rw [lookup_removeEntry own]
    simp only [Value.collect, cons_append, nil_append, append_nil, foldl_cons, foldl_nil,
      Value.lookup_insertEntry, Value.lookup_nil]
    by_cases context : "@context" = key
    · subst context
      simp
    · simp [context, Ne.symm own]


theorem beforeFragment_append (text rest : String) : beforeFragment (text ++ "#" ++ rest) = beforeFragment text := by
  have each (characters : List Char) : (characters ++ '#' :: rest.toList).takeWhile (fun c => c != '#') =
      characters.takeWhile fun c => c != '#' := by
    induction characters with
    | nil => rfl
    | cons c characters ih =>
      rw [cons_append, takeWhile_cons, takeWhile_cons, ih]
  have split : (text ++ "#" ++ rest).toList = text.toList ++ '#' :: rest.toList := by simp
  unfold beforeFragment
  rw [split, each]

theorem isPrefixOf_strings (texts : List String) :
    (texts.map Value.string).isPrefixOf (texts.map Value.string) = true := by
  induction texts with
  | nil => rfl
  | cons text texts ih =>
    have same : (Value.string text == Value.string text) = true := by
      change Value.beq _ _ = true
      simp [Value.beq]
    simp [List.isPrefixOf, same, ih]

theorem verifyDocument_signDocument (lawful : lib.Lawful signingKey) {time : StatusTime}
    (stamped : parseDatetimeStamp created = .ok time) {object : List (String × Value)} (ordered : Value.Ordered object)
    {context : List String} (carried : Value.lookup "@context" object = some (.array (context.map .string)))
    {proof : DataIntegrityProof} (signed : signDocument lib.toLibraries signingKey created object = .ok proof) :
    verifyDocument lib.toLibraries object (didKeyFromEd25519 lib.toLibraries signingKey.publicKey) proof =
      .ok signingKey.publicKey := by
  have kept : Value.lookup "@context" (removeEntry "proof" object) = some (.array (context.map .string)) := by
    rw [lookup_removeEntry (by decide), carried]
  unfold signDocument at signed
  obtain ⟨hashData, hashed, signed⟩ := bind_eq_ok.mp signed
  cases signed
  simp only [kept, Option.toList_some, map_cons, map_nil, cons_append, nil_append] at hashed ⊢
  have resolves := ed25519FromDidKey_didKey lawful.multibase signingKey.publicKey
  have whole := beforeFragment_of_resolves lawful.multibase resolves
  have method : methodKey lib.toLibraries (didKeyFromEd25519 lib.toLibraries signingKey.publicKey)
      ⟨some (.array (context.map .string)), PROOF_TYPE, CRYPTOSUITE, created, didKeyFromEd25519 lib.toLibraries signingKey.publicKey ++
        "#" ++ lib.encodeBase58 (ED25519_MULTICODEC ++ signingKey.publicKey.val), PROOF_PURPOSE,
        lib.encodeBase58 (signingKey.sign hashData), []⟩ = .ok signingKey.publicKey := by
    unfold methodKey
    rw [beforeFragment_append, whole]
    refine bind_eq_ok.mpr ⟨(), ensure_eq_ok.mpr rfl, ?_⟩
    have multikey : stripStart "did:key:" (didKeyFromEd25519 lib.toLibraries signingKey.publicKey) =
        some (lib.encodeBase58 (ED25519_MULTICODEC ++ signingKey.publicKey.val)) := stripStart_append _ _
    rw [multikey]
    refine bind_eq_ok.mpr ⟨(), ensure_eq_ok.mpr (.inl rfl), bind_eq_ok.mpr ⟨_, resolves, ?_⟩⟩
    rw [mapError_eq_ok, verifyingKey, lawful.key]
    rfl
  have signature : proofSignature lib.toLibraries
      ⟨some (.array (context.map .string)), PROOF_TYPE, CRYPTOSUITE, created, didKeyFromEd25519 lib.toLibraries signingKey.publicKey ++
        "#" ++ lib.encodeBase58 (ED25519_MULTICODEC ++ signingKey.publicKey.val), PROOF_PURPOSE,
        lib.encodeBase58 (signingKey.sign hashData), []⟩ = .ok (signingKey.sign hashData) := by
    unfold proofSignature
    refine bind_eq_ok.mpr ⟨(), ensure_eq_ok.mpr (lawful.base58_code _), ?_⟩
    refine bind_eq_ok.mpr ⟨_, mapError_eq_ok.mpr (lawful.multibase.base58 _), ?_⟩
    exact bind_eq_ok.mpr ⟨(), ensure_eq_ok.mpr (lawful.signature_length _), rfl⟩
  unfold verifyDocument
  refine bind_eq_ok.mpr ⟨(), ensure_eq_ok.mpr ⟨rfl, rfl, rfl⟩, bind_eq_ok.mpr ⟨time, stamped, ?_⟩⟩
  refine bind_eq_ok.mpr ⟨_, method, bind_eq_ok.mpr ⟨_, signature, ?_⟩⟩
  have options := proofOptions_signed (.array (context.map .string)) PROOF_TYPE CRYPTOSUITE created
    (didKeyFromEd25519 lib.toLibraries signingKey.publicKey ++ "#" ++
      lib.encodeBase58 (ED25519_MULTICODEC ++ signingKey.publicKey.val)) PROOF_PURPOSE
    (lib.encodeBase58 (signingKey.sign hashData))
  rw [options]
  have placed : Value.lookup "@context" (Value.collect [("type", .string PROOF_TYPE), ("cryptosuite", .string CRYPTOSUITE),
      ("created", .string created), ("verificationMethod", .string (didKeyFromEd25519 lib.toLibraries signingKey.publicKey ++
        "#" ++ lib.encodeBase58 (ED25519_MULTICODEC ++ signingKey.publicKey.val))), ("proofPurpose", .string PROOF_PURPOSE),
      ("@context", .array (context.map .string))]) = some (.array (context.map .string)) := by
    simp [Value.collect, Value.lookup_insertEntry]
  have sorted := Value.ordered_collect [("type", .string PROOF_TYPE), ("cryptosuite", .string CRYPTOSUITE),
      ("created", .string created), ("verificationMethod", .string (didKeyFromEd25519 lib.toLibraries signingKey.publicKey ++
        "#" ++ lib.encodeBase58 (ED25519_MULTICODEC ++ signingKey.publicKey.val))), ("proofPurpose", .string PROOF_PURPOSE),
      ("@context", .array (context.map .string))]
  generalize Value.collect _ = options at hashed placed sorted ⊢
  have unchanged : signedContext (removeEntry "proof" object) ⟨some (.array (context.map .string)), PROOF_TYPE, CRYPTOSUITE, created,
      didKeyFromEd25519 lib.toLibraries signingKey.publicKey ++ "#" ++
        lib.encodeBase58 (ED25519_MULTICODEC ++ signingKey.publicKey.val), PROOF_PURPOSE,
      lib.encodeBase58 (signingKey.sign hashData), []⟩ options = .ok (removeEntry "proof" object, options) := by
    unfold signedContext
    rw [kept]
    dsimp only
    rw [if_pos (isPrefixOf_strings context), ordered.removeEntry.insertEntry_of_lookup kept, sorted.insertEntry_of_lookup placed]
  refine bind_eq_ok.mpr ⟨_, unchanged, bind_eq_ok.mpr ⟨hashData, hashed, ?_⟩⟩
  rw [if_pos (.inl (lawful.signature hashData))]

theorem lookup_unsigned_context (credential : StatusListCredential) (plain : credential.extra = []) :
    Value.lookup "@context" credential.unsigned = some (.array (credential.context.map .string)) := by
  simp [StatusListCredential.unsigned, plain, Value.collect, Value.lookup_insertEntry]

variable {now created url : String} {bits : Bytes} {highest : Nat} {credential : StatusListCredential}

theorem createStatusListCredential_eq_ok
    (done : createStatusListCredential lib signingKey now created url bits highest = .ok credential) :
    ∃ length proof, validateUrl lib.toLibraries url = .ok () ∧ bits.length ≤ length ∧ MIN_BYTES ≤ length ∧
      length ≤ MAX_BYTES ∧ signDocument lib.toLibraries signingKey created credential.unsigned = .ok proof ∧
      credential = ⟨["https://www.w3.org/ns/credentials/v2"], ["VerifiableCredential", "BitstringStatusListCredential"],
        url, didKeyFromEd25519 lib.toLibraries signingKey.publicKey, now, ⟨url ++ "#list", "BitstringStatusList",
        "revocation", lib.encodeBase64Url (lib.gzip (publishedBits bits length)), []⟩, some proof, []⟩ := by
  unfold createStatusListCredential at done
  obtain ⟨_, valid, done⟩ := bind_eq_ok.mp done
  obtain ⟨_, small, done⟩ := bind_eq_ok.mp done
  obtain ⟨proof, signed, done⟩ := bind_eq_ok.mp done
  cases done
  exact ⟨_, proof, valid, le_max_right _ _, (le_max_left _ _).trans (le_max_left _ _), ensure_eq_ok.mp small, signed, rfl⟩

section

variable (lawful : lib.Lawful signingKey) (done : createStatusListCredential lib signingKey now created url bits highest = .ok credential)
include lawful done

theorem verify_published_bits
    (verified : verifyStatusListCredentialAt lib credential time = .ok (key, recovered)) :
    ∃ count, recovered = bits ++ List.replicate count 0 := by
  obtain ⟨length, proof, -, fits, low, high, -, rfl⟩ := createStatusListCredential_eq_ok done
  unfold verifyStatusListCredentialAt at verified
  iterate 6 obtain ⟨_, -, verified⟩ := bind_eq_ok.mp verified
  obtain ⟨read, decoded, verified⟩ := bind_eq_ok.mp verified
  cases verified
  rw [decodeStatusList_published lawful fits low high] at decoded
  cases decoded
  exact ⟨_, rfl⟩

theorem verify_published_ok
    {start signed time : StatusTime} (begun : parseDatetimeStamp now = .ok start)
    (stamped : parseDatetimeStamp created = .ok signed) (later : StatusTime.le start time = true) :
    ∃ recovered, verifyStatusListCredentialAt lib credential time = .ok (signingKey.publicKey, recovered) := by
  obtain ⟨length, proof, valid, fits, low, high, signs, rfl⟩ := createStatusListCredential_eq_ok done
  have verified := verifyDocument_signDocument lawful stamped (Value.ordered_collect _)
    (lookup_unsigned_context _ rfl) signs
  refine ⟨bits ++ List.replicate (length - bits.length) 0, ?_⟩
  unfold verifyStatusListCredentialAt
  refine bind_eq_ok.mpr ⟨(), valid, bind_eq_ok.mpr ⟨start, begun, bind_eq_ok.mpr ⟨(), ensure_eq_ok.mpr later, ?_⟩⟩⟩
  refine bind_eq_ok.mpr ⟨(), rfl, bind_eq_ok.mpr ⟨(), ensure_eq_ok.mpr ?_, ?_⟩⟩
  · simp
  · exact bind_eq_ok.mpr ⟨_, verified, bind_eq_ok.mpr ⟨_, decodeStatusList_published lawful fits low high, rfl⟩⟩

end

end

end Warm.Provenance
