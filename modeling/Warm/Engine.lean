import Warm.AuditQueue
import Warm.DocumentStore
import Warm.Knowledge
import Warm.ShardSet

/-! The live state of the engine and what a transaction does to it. A commit prepares its batch
against the documents it sees, validates it, appends it to the journal and installs it; a store
that opens replays the journal in chunks through the same installation. -/
namespace Warm.Engine

open Binary Audit

/-- The text encoder and the role binding of the meaning memory, functions of their arguments that
give vectors of the store's dimensions. -/
structure Encoder (dimensions : Nat) where
  encodeText : String → VectorRecord
  composeTriple : VectorRecord → VectorRecord → VectorRecord → VectorRecord
  encodeText_valid : ∀ text, (encodeText text).valid dimensions = true
  composeTriple_valid : ∀ s r o, s.valid dimensions = true → r.valid dimensions = true → o.valid dimensions = true →
    (composeTriple s r o).valid dimensions = true

/-- The stores that exist when the meaning memory is enabled. -/
structure Meaning where
  atoms : IndexedMemory
  composites : IndexedMemory
  triples : TripleStore
  rules : RuleStore

def Meaning.empty : Meaning := ⟨.empty, .empty, ⟨[]⟩, .empty⟩

/-- `serving` says that the documents are served from a checkpoint, `otherState` that a mutation
other than a document's or an audit's was applied. -/
structure WarmCore where
  shards : ShardSet
  meaning : Option Meaning
  derived : Table String (List String)
  graph : RelationStore
  documents : DocumentStore
  auditPending : List AuditIntent
  serving : Bool
  otherState : Bool
  revision : Nat

def hashU64 (a b : UInt64) : UInt64 :=
  let z := a * 0x9E3779B97F4A7C15 + b
  let z := (z ^^^ (z >>> 30)) * 0xBF58476D1CE4E5B9
  let z := (z ^^^ (z >>> 27)) * 0x94D049BB133111EB
  z ^^^ (z >>> 31)

def hashStrSeed (text : String) (level : UInt64) : UInt64 :=
  (utf8 text).foldl (fun h byte => hashU64 h byte.toUInt64) level

/-- The content deferred encoding reads: version, byte spans and text of every chunk. -/
def documentFingerprint (document : StoredDocument) : Option UInt64 :=
  document.chunks.foldlM (fun h chunk => chunk.text.map fun text =>
    hashStrSeed text (hashU64 (hashU64 h chunk.startByte.toUInt64) chunk.endByte.toUInt64))
    (hashStrSeed document.version 0x5EEDD0C5F1A60001)

def encodedChunks (document : StoredDocument) : List (String × VectorRecord) :=
  (document.chunks.filter fun chunk => chunk.vectorState == .encoded).map fun chunk => (chunk.id, chunk.vector)

/-- Chunk ids of `previous` that `document` carries no encoded vector for. -/
def staleChunks (previous : Option StoredDocument) (document : StoredDocument) : List String :=
  match previous with
  | none => []
  | some previous =>
    (previous.chunks.map StoredChunk.id).filter fun id => id ∉ (encodedChunks document).map Prod.fst

inductive Prepared where
  | none
  | vector (id : String) (vector : VectorRecord)
  | document (document : StoredDocument) (previous : Option StoredDocument) (stale : List String)
      (chunks : List (String × VectorRecord))

/-- What installing a mutation needs that is computed before its exclusive window, against the
documents `store` holds then. -/
def prepareMutation (store : DocumentStore) : Mutation → Prepared
  | .vector id vector | .composite id vector => .vector id vector
  | .document document =>
    let previous := store.get document.id
    .document document previous (staleChunks previous document) (encodedChunks document)
  | _ => .none

def prepareMutations (store : DocumentStore) (mutations : List Mutation) : List Prepared :=
  mutations.map (prepareMutation store)

def removeMemoryId (core : WarmCore) (id : String) : WarmCore :=
  { core with
    shards := core.shards.remove id
    meaning := core.meaning.map fun meaning =>
      { meaning with
        atoms := meaning.atoms.delete id
        composites := meaning.composites.delete id
        triples := meaning.triples.removeComposite id } }

def removeDerivedFromMemory (core : WarmCore) (id : String) : WarmCore :=
  match core.derived[id]? with
  | none => core
  | some children => children.foldl removeMemoryId { core with derived := core.derived.erase id }

def removeDocumentFromMemory (core : WarmCore) (id : String) : WarmCore :=
  let (documents, removed) := core.documents.remove id
  let chunks := (removed.map fun document => document.chunks.map StoredChunk.id).getD []
  { core with documents, shards := chunks.foldl ShardSet.remove core.shards }

/-- A pending chunk takes its vector. -/
def encodeChunk (chunk : StoredChunk) (vector : VectorRecord) : StoredChunk :=
  if chunk.vectorState = .pending then { chunk with vector, vectorState := .encoded } else chunk

/-- Whether the vectors were computed for the stored revision and some chunk awaits them. -/
def applicable (document : StoredDocument) (version : String) (fingerprint : UInt64) (vectors : List VectorRecord) :
    Bool :=
  document.version == version && document.chunks.length == vectors.length &&
    document.chunks.any (·.vectorState == .pending) && documentFingerprint document == some fingerprint

def pendingVectors (document : StoredDocument) (vectors : List VectorRecord) : List (String × VectorRecord) :=
  ((document.chunks.zip vectors).filter fun pair => pair.1.vectorState == .pending).map fun pair => (pair.1.id, pair.2)

def encodedDocument (document : StoredDocument) (vectors : List VectorRecord) : StoredDocument :=
  { document with chunks := document.chunks.zipWith encodeChunk vectors }

def insertAll (shards : ShardSet) (vectors : List (String × VectorRecord)) : ShardSet :=
  vectors.foldl (fun shards entry => shards.insert entry.1 entry.2) shards

def installDeferredEncoding (core : WarmCore) (id version : String) (fingerprint : UInt64)
    (vectors : List VectorRecord) : WarmCore :=
  match core.documents.get id with
  | none => core
  | some document =>
    if applicable document version fingerprint vectors then
      { core with
        shards := insertAll core.shards (pendingVectors document vectors)
        documents := core.documents.insert (encodedDocument document vectors) }
    else core

def getOrInsert (encoder : Encoder dimensions) (atoms : IndexedMemory) (id : String) : VectorRecord × IndexedMemory :=
  match atoms.get id with
  | some vector => (vector, atoms)
  | none => (encoder.encodeText id, atoms.insert id (encoder.encodeText id))

/-- A batch while it is installed: documents of a run wait in `pending`. -/
structure Applying where
  core : WarmCore
  pending : List StoredDocument
  pendingIds : List String

def Applying.install (state : Applying) : Applying :=
  ⟨{ state.core with documents := state.core.documents.insertBatch state.pending }, [], []⟩

def withMeaning (core : WarmCore) (change : Meaning → Meaning) : WarmCore :=
  { core with meaning := core.meaning.map change }

def applyTriplet (encoder : Encoder dimensions) (core : WarmCore) (id subject relation object : String) : WarmCore :=
  let core := removeDerivedFromMemory core id
  match core.meaning with
  | none => core
  | some meaning =>
    let (s, atoms) := getOrInsert encoder meaning.atoms subject
    let (r, atoms) := getOrInsert encoder atoms relation
    let (o, atoms) := getOrInsert encoder atoms object
    let vector := encoder.composeTriple s r o
    { core with
      meaning := some { meaning with
        atoms
        composites := meaning.composites.insert id vector
        triples := (meaning.triples.removeComposite id).add subject relation object id }
      shards := core.shards.insert id vector }

def applyDocument (state : Applying) (document : StoredDocument) (previous : Option StoredDocument)
    (stale : List String) (chunks : List (String × VectorRecord)) : Applying :=
  let state := if document.id ∈ state.pendingIds then state.install else state
  let current := state.core.documents.get document.id
  -- `Arc::ptr_eq` compares the allocations. Equal ones hold the same document, and equal documents in
  -- different ones give the same stale chunks.
  let stale := if previous = current then stale else staleChunks current document
  { core := { state.core with shards := insertAll (stale.foldl ShardSet.remove state.core.shards) chunks }
    pending := state.pending ++ [document]
    pendingIds := document.id :: state.pendingIds }

/-- One mutation that is not a document; a failure leaves the state as it was. -/
def applyOther (encoder : Encoder dimensions) (core : WarmCore) : Mutation → Except AuditError WarmCore
  | .auditPending intent => do
    let auditPending ← applyAudit core.auditPending (.auditPending intent)
    .ok { core with auditPending }
  | .auditAcknowledged id => do
    let auditPending ← applyAudit core.auditPending (.auditAcknowledged id)
    .ok { core with auditPending }
  | .vector id vector =>
    let core := withMeaning (removeDerivedFromMemory core id) fun meaning =>
      { meaning with composites := meaning.composites.delete id, triples := meaning.triples.removeComposite id }
    let core := { core with shards := core.shards.insert id vector }
    .ok (withMeaning core fun meaning => { meaning with atoms := meaning.atoms.insert id vector })
  | .atom id vector => .ok (withMeaning core fun meaning => { meaning with atoms := meaning.atoms.insert id vector })
  | .deleteAtom id => .ok (withMeaning core fun meaning => { meaning with atoms := meaning.atoms.delete id })
  | .deleteComposite id =>
    .ok (withMeaning core fun meaning => { meaning with composites := meaning.composites.delete id })
  | .refreshMeaningIndices => .ok core
  | .composite id vector =>
    let core := withMeaning core fun meaning => { meaning with composites := meaning.composites.insert id vector }
    .ok { core with shards := core.shards.insert id vector }
  | .storedTriple record =>
    .ok (withMeaning core fun meaning => { meaning with triples := meaning.triples.loadTriple record })
  | .document _ => .ok core
  | .encodeDocument id version fingerprint vectors =>
    .ok (installDeferredEncoding core id version fingerprint vectors)
  | .derived id children => .ok { core with derived := core.derived.insert id children }
  | .deleteDocument id => .ok (removeDocumentFromMemory core id)
  | .delete id => .ok (removeMemoryId (removeDerivedFromMemory core id) id)
  | .triplet id subject relation object => .ok (applyTriplet encoder core id subject relation object)
  | .relation relation =>
    .ok { core with
      graph := (core.graph.remove relation.sourceId relation.relationType relation.targetId).add relation }
  | .removeRelation source relation target => .ok { core with graph := core.graph.remove source relation target }
  | .relationType relationType => .ok { core with graph := core.graph.declareType relationType }
  | .rule rule => .ok (withMeaning core fun meaning => { meaning with rules := meaning.rules.addRule rule })

/-- Documents, their encodings and deletes, and audit intents: what a store served from a
checkpoint takes without being rebuilt. -/
def isDocumentOrAudit : Mutation → Bool
  | .document _ | .deleteDocument _ | .encodeDocument .. | .auditPending _ | .auditAcknowledged _ => true
  | _ => false

/-- One mutation of a batch. Only a document leaves the run of documents before it waiting. -/
def applyMutation (encoder : Encoder dimensions) (state : Applying) (mutation : Mutation) (prepared : Prepared) :
    Applying × Option AuditError :=
  let state := { state with
    core := { state.core with otherState := state.core.otherState || !isDocumentOrAudit mutation } }
  match mutation, prepared with
  | .document _, .document document previous stale chunks => (applyDocument state document previous stale chunks, none)
  | mutation, _ =>
    let state := state.install
    match applyOther encoder state.core mutation with
    | .ok core => ({ state with core }, none)
    | .error error => (state, some error)

/-- The batch is in the journal already, so a failure does not stop the rest; the first is reported. -/
def applyLoop (encoder : Encoder dimensions) (state : Applying) (failure : Option AuditError) :
    List (Mutation × Prepared) → WarmCore × Option AuditError
  | [] => (state.install.core, failure)
  | (mutation, prepared) :: rest =>
    let (state, failed) := applyMutation encoder state mutation prepared
    applyLoop encoder state (failure.or failed) rest

def applyMutations (encoder : Encoder dimensions) (core : WarmCore) (mutations : List Mutation)
    (prepared : List Prepared) : WarmCore × Option AuditError :=
  applyLoop encoder ⟨core, [], []⟩ none (mutations.zip prepared)

inductive EngineError where
  | invalid (error : ValidationError)
  | audit (error : AuditError)
  | checkpointLost
  | append
  | livePublication (error : AuditError)
  deriving DecidableEq, Repr

def checkpointAccepts (core : WarmCore) (mutations : List Mutation) : Bool :=
  core.serving && mutations.all isDocumentOrAudit

def hydrateDocuments (core : WarmCore) : Except EngineError WarmCore :=
  if core.serving then
    match core.documents.base with
    | none => .error .checkpointLost
    | some base => .ok { core with documents := core.documents.hydrate base, serving := false }
  else .ok core

/-- Before a batch: a store served from a checkpoint takes document and audit mutations as it is and
is rebuilt for any other. -/
def hydrateUnlessAccepted (core : WarmCore) (mutations : List Mutation) : Except EngineError WarmCore :=
  if checkpointAccepts core mutations then .ok core else hydrateDocuments core

/-- `commit_payload_at_revision`: `seen` is the document store the batch was prepared against, which
other writers may have changed since, and `appends` whether the journal takes the frame. -/
def commitPayload (encoder : Encoder dimensions) (core : WarmCore) (seen : DocumentStore) (expected : Option Nat)
    (appends : Bool) (mutations : List Mutation) : Except EngineError (WarmCore × Bool × Option AuditError) := do
  if expected.any (· != core.revision) then .ok (core, false, none)
  else
    (validateAuditTransitions core.auditPending mutations).mapError .audit
    if appends then
      let (core, failure) := applyMutations encoder core mutations (prepareMutations seen mutations)
      .ok ({ core with revision := core.revision + 1 }, true, failure)
    else .error .append

def replayMutations (config : Config) (encoder : Encoder dimensions) (core : WarmCore) (chunk : List Mutation) :
    Except EngineError WarmCore := do
  (chunk.forM (validateMutation config)).mapError .invalid
  let core ← hydrateUnlessAccepted core chunk
  (validateAuditTransitions core.auditPending chunk).mapError .audit
  match applyMutations encoder core chunk (prepareMutations core.documents chunk) with
  | (core, none) => .ok core
  | (_, some error) => .error (.audit error)

def replayFrameFrom (config : Config) (encoder : Encoder dimensions) (chunk : List Mutation) (core : WarmCore) :
    List Mutation → Except EngineError WarmCore
  | [] => if chunk.isEmpty then .ok core else replayMutations config encoder core chunk
  | mutation :: rest =>
    let chunk := chunk ++ [mutation]
    if chunk.length = REPLAY_CHUNK then do
      let core ← replayMutations config encoder core chunk
      replayFrameFrom config encoder [] core rest
    else replayFrameFrom config encoder chunk core rest

def replayFrame (config : Config) (encoder : Encoder dimensions) (core : WarmCore) (frame : List Mutation) :
    Except EngineError WarmCore := replayFrameFrom config encoder [] core frame

/-- A journal generation: the checkpoint it starts from, if any, and the transactions after it. -/
structure Generation where
  checkpoint : Option ServingImage
  frames : List (List Mutation)

def opened (config : Config) (more : Nat) (checkpoint : Option ServingImage) : WarmCore where
  shards := .new more
  meaning := if config.meaningEnabled then some .empty else none
  derived := ∅
  graph := .empty
  documents := (checkpoint.map DocumentStore.over).getD .empty
  auditPending := []
  serving := checkpoint.isSome
  otherState := false
  revision := 0

/-- Opening a store: the checkpoint is served, then every frame is replayed. -/
def loadFromLog (config : Config) (encoder : Encoder dimensions) (more : Nat) (generation : Generation) :
    Except EngineError WarmCore :=
  generation.frames.foldlM (replayFrame config encoder) (opened config more generation.checkpoint)

/-- An open engine and the journal generation it appends to. -/
structure Store where
  core : WarmCore
  generation : Generation

/-- `commit` and its variants for a payload that is serialized already. -/
def Store.commit (config : Config) (encoder : Encoder dimensions) (store : Store) (seen : DocumentStore)
    (expected : Option Nat) (appends : Bool) (mutations : List Mutation) : Store × Except EngineError Bool :=
  match hydrateUnlessAccepted store.core mutations with
  | .error error => (store, .error error)
  | .ok core =>
    let store := { store with core }
    match validateTransaction config mutations with
    | .error error => (store, .error (.invalid error))
    | .ok () =>
      match commitPayload encoder core seen expected appends mutations with
      | .error error => (store, .error error)
      | .ok (_, false, _) => (store, .ok false)
      | .ok (core, true, failure) =>
        (⟨core, { store.generation with frames := store.generation.frames ++ [mutations] }⟩,
          match failure with
          | none => .ok true
          | some error => .error (.livePublication error))

/-- What happens to a store: a writer's commit, a read that needs the documents rebuilt, or a close
and an open with another number of shards. -/
inductive Action where
  | commit (seen : DocumentStore) (expected : Option Nat) (appends : Bool) (mutations : List Mutation)
  | read
  | reopen (more : Nat)

/-- A read or an open that fails leaves the store. -/
def act (config : Config) (encoder : Encoder dimensions) (store : Store) : Action → Store
  | .commit seen expected appends mutations => (store.commit config encoder seen expected appends mutations).1
  | .read =>
    match hydrateDocuments store.core with
    | .ok core => { store with core }
    | .error _ => store
  | .reopen more =>
    match loadFromLog config encoder more store.generation with
    | .ok core => { store with core }
    | .error _ => store

/-- The store of a new generation, just opened. -/
def Store.start (config : Config) (more : Nat) (checkpoint : Option ServingImage) : Store :=
  ⟨opened config more checkpoint, ⟨checkpoint, []⟩⟩

def run (config : Config) (encoder : Encoder dimensions) (store : Store) (actions : List Action) : Store :=
  actions.foldl (act config encoder) store

end Warm.Engine
