import Warm.AuditStream
import Warm.Document
import Warm.Shard

/-! Transactions: every kind of mutation, and the checks a transaction passes before it is
serialized and again when it is replayed. -/
namespace Warm

open Binary Audit

structure TripleRecord where
  subjectId : String
  relationId : String
  objectId : String
  compositeId : String
  deleted : Bool
  deriving DecidableEq, Repr

/-- An `f64` by its bits. -/
structure F64 where
  bits : UInt64
  deriving DecidableEq, Repr

namespace F64

def magnitude (x : F64) : Nat := x.bits.toNat % 2 ^ 63
def isFinite (x : F64) : Bool := decide (x.magnitude / 2 ^ 52 < 2047)
/-- `x == 0.0`, which minus zero is too. -/
def isZero (x : F64) : Bool := decide (x.magnitude = 0)
/-- `x >= 0.0` of a finite number. -/
def nonNegative (x : F64) : Bool := decide (x.bits.toNat < 2 ^ 63) || x.isZero

end F64

structure Relation where
  sourceId : String
  relationType : String
  targetId : String
  properties : Option String
  validFrom : F64
  validTo : F64
  deriving DecidableEq, Repr

structure RelationType where
  name : String
  transitive : Bool
  symmetric : Bool
  deriving DecidableEq, Repr

structure CompositionRule where
  name : String
  inputRelations : List String
  outputRelation : String
  deriving DecidableEq, Repr

inductive Mutation where
  | auditPending (intent : AuditIntent)
  | auditAcknowledged (id : Octets 16)
  | vector (id : String) (vector : VectorRecord)
  | atom (id : String) (vector : VectorRecord)
  | composite (id : String) (vector : VectorRecord)
  | deleteAtom (id : String)
  | deleteComposite (id : String)
  | refreshMeaningIndices
  | storedTriple (record : TripleRecord)
  | document (document : StoredDocument)
  | encodeDocument (id version : String) (fingerprint : UInt64) (vectors : List VectorRecord)
  | derived (id : String) (children : List String)
  | deleteDocument (id : String)
  | delete (id : String)
  | triplet (id subject relation object : String)
  | relation (relation : Relation)
  | removeRelation (source relation target : String)
  | relationType (relationType : RelationType)
  | rule (rule : CompositionRule)
  deriving DecidableEq

/-- What the store's schema and configuration fix for validation. `embeddingDimensions` is 0
without an embedding space. -/
structure Config where
  dimensions : Nat
  schema : Nat
  meaningEnabled : Bool
  embeddingDimensions : Nat
  deriving DecidableEq, Repr

def AUDIT_EFFECTS_SCHEMA_VERSION : Nat := 6
def MEANING_MAINTENANCE_SCHEMA_VERSION : Nat := 5
def MEANING_PREFIX : String := "hms:meaning:"

inductive ValidationError where
  | id
  | reservedId
  | auditSchema
  | auditIdentity
  | vector
  | chunkCount
  | wholeDocument
  | documentVector
  | embedding
  | deferredEncoding
  | derivedOwnership
  | meaningSchema
  | meaningDisabled
  | validityInterval
  | ruleInputs
  | operationCount
  deriving DecidableEq, Repr

def ensure (condition : Bool) (error : ValidationError) : Except ValidationError Unit :=
  if condition then .ok () else .error error

theorem ensure_bind_ok : (ensure condition error >>= next) = .ok a ↔ condition = true ∧ next () = .ok a := by
  cases condition <;> simp [ensure, bind, Except.bind]

def startsWith (text front : String) : Bool := (utf8 front).isPrefixOf (utf8 text)

/-- A vector of the store's dimensions with ascending indices below them. -/
def VectorRecord.valid (dimensions : Nat) (vector : VectorRecord) : Bool :=
  decide (vector.dim.toNat = dimensions) &&
    vector.indices.getLast?.all (fun i => decide (i.toNat < dimensions)) && vector.ascending

def validatePublicId (id : String) : Except ValidationError Unit := do
  ensure (validateId id) .id
  ensure (!startsWith id MEANING_PREFIX && !startsWith id CHUNK_PREFIX) .reservedId

/-- Whether `normalize_embedding` accepts the values: as many as the space has, finite, not all zero. -/
def validEmbedding (dimensions : Nat) (values : List UInt32) : Bool :=
  decide (values.length = dimensions) &&
    values.all (fun v => decide (v.toNat % 2 ^ 31 / 2 ^ 23 < 255)) &&
    values.any (fun v => decide (v.toNat % 2 ^ 31 ≠ 0))

def chunkByteLimit (wholeDocument : Bool) (chunkCount startByte : Nat) (lexical : Bool) : Option Nat :=
  if wholeDocument then
    if lexical ∧ chunkCount = 1 ∧ startByte = 0 then some MAX_DOCUMENT_BYTES else none
  else some MAX_CHUNK_BYTES

def validateChunk (config : Config) (chunkCount : Nat) (chunk : StoredChunk) :
    Except ValidationError Unit := do
  ensure (validateId chunk.id) .id
  match chunkByteLimit chunk.terms.isWholeDocument chunkCount chunk.startByte.toNat
      (chunk.vectorState == .lexical) with
  | none => .error .wholeDocument
  | some limit =>
    let length := chunk.endByte.toNat - chunk.startByte.toNat
    ensure (chunk.vector.valid config.dimensions && decide (chunk.startByte < chunk.endByte) &&
      decide (chunk.endByte.toNat ≤ MAX_DOCUMENT_BYTES) && decide (length ≤ limit) &&
      chunk.text.all (fun text => decide (text.utf8ByteSize = length))) .documentVector
    ensure (chunk.embedding.all (validEmbedding config.embeddingDimensions)) .embedding

def validateMutation (config : Config) : Mutation → Except ValidationError Unit
  | .auditPending intent => do
    ensure (decide (AUDIT_EFFECTS_SCHEMA_VERSION ≤ config.schema)) .auditSchema
    ensure intent.id.isSome .auditIdentity
  | .auditAcknowledged _ => ensure (decide (AUDIT_EFFECTS_SCHEMA_VERSION ≤ config.schema)) .auditSchema
  | .vector id vector | .atom id vector | .composite id vector => do
    ensure (validateId id) .id
    ensure (vector.valid config.dimensions) .vector
  | .document document => do
    ensure (validateId document.id) .id
    ensure (!document.chunks.isEmpty && decide (document.chunks.length ≤ 4096)) .chunkCount
    document.chunks.forM (validateChunk config document.chunks.length)
  | .encodeDocument id version _ vectors => do
    ensure (validateId id) .id
    ensure (version != "" && decide (version.utf8ByteSize ≤ 1024) && !vectors.isEmpty &&
      decide (vectors.length ≤ 4096) && vectors.all (·.valid config.dimensions)) .deferredEncoding
  | .derived id children => do
    validatePublicId id
    let front := MEANING_PREFIX ++ toString id.utf8ByteSize ++ ":" ++ id ++ ":"
    ensure (decide (children.length ≤ 4094) && children.all (startsWith · front)) .derivedOwnership
    ensure (children.all validateId) .id
  | .deleteDocument id | .delete id => ensure (validateId id) .id
  | .deleteAtom id | .deleteComposite id => do
    ensure (validateId id) .id
    ensure (decide (MEANING_MAINTENANCE_SCHEMA_VERSION ≤ config.schema)) .meaningSchema
    ensure config.meaningEnabled .meaningDisabled
  | .refreshMeaningIndices => do
    ensure (decide (MEANING_MAINTENANCE_SCHEMA_VERSION ≤ config.schema)) .meaningSchema
    ensure config.meaningEnabled .meaningDisabled
  | .storedTriple t => do
    ensure config.meaningEnabled .meaningDisabled
    ensure ([t.subjectId, t.relationId, t.objectId, t.compositeId].all validateId) .id
  | .triplet id subject relation object => do
    ensure ([id, subject, relation, object].all validateId) .id
    ensure config.meaningEnabled .meaningDisabled
  | .relation r => do
    ensure ([r.sourceId, r.relationType, r.targetId].all validateId) .id
    ensure (r.validFrom.isFinite && r.validTo.isFinite && r.validFrom.nonNegative && r.validTo.nonNegative &&
      (r.validTo.isZero || decide (r.validFrom.magnitude ≤ r.validTo.magnitude))) .validityInterval
  | .removeRelation source relation target => ensure ([source, relation, target].all validateId) .id
  | .relationType r => ensure (validateId r.name) .id
  | .rule r => do
    ensure config.meaningEnabled .meaningDisabled
    ensure (validateId r.name && validateId r.outputRelation) .id
    ensure (!r.inputRelations.isEmpty) .ruleInputs
    ensure (r.inputRelations.all validateId) .id

/-- The bounds and the checks of every mutation; a batch reports its first failure. -/
def validateTransaction (config : Config) (mutations : List Mutation) : Except ValidationError Unit := do
  ensure (!mutations.isEmpty && decide (mutations.length ≤ 4096)) .operationCount
  mutations.forM (validateMutation config)

end Warm
