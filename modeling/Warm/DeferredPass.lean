import Warm.Ingest

/-! Encoding passes among writers. A pass takes a snapshot of the documents that await their vectors, computes
these without a lock and commits them in batches; writers and other passes commit in between. -/
namespace Warm.Ingest

open Binary Engine

/-! ### A pass -/

/-- Documents of one `EncodeDocument` transaction. -/
def ENCODE_BATCH : Nat := 1024

/-- A document of the snapshot, with the texts of its pending chunks. -/
structure PendingDocument where
  document : StoredDocument
  fingerprint : UInt64
  texts : List (Option String)

def isPending (document : StoredDocument) : Bool := document.chunks.any (·.vectorState == .pending)

def pendingText (document : StoredDocument) (chunk : StoredChunk) : Except String (Option String) :=
  if chunk.vectorState = .pending then
    match chunk.text with
    | some text => .ok (some text)
    | none => .error ("document " ++ document.id ++ " awaits deferred encoding but has no stored text")
  else .ok none

def pendingDocument (document : StoredDocument) : Except String PendingDocument := do
  let texts ← document.chunks.mapM (pendingText document)
  match documentFingerprint document with
  | some fingerprint => .ok ⟨document, fingerprint, texts⟩
  | none => .error ("document " ++ document.id ++ " has no stored text")

def pendingVectorCount (store : DocumentStore) : Nat :=
  ((DocumentStore.values store.documents).map fun document =>
    document.chunks.countP (·.vectorState == .pending)).sum

/-- What a pass finds to do. -/
def takeSnapshot (analysis : Analysis) (store : DocumentStore) : Except String (List PendingDocument) :=
  if pendingVectorCount store = 0 then .ok []
  else do
    ensure (analysis.isEmbedding = false) ("deferred encoding needs a text encoder, not " ++ analysis.name)
    ((DocumentStore.values store.documents).filter isPending).mapM pendingDocument

section Pass

variable {config : Config} (encoder : Encoder config.dimensions)

/-- The vectors of a document of the snapshot: a chunk that was encoded keeps its own. -/
def encodeMutation (pending : PendingDocument) : Mutation :=
  .encodeDocument pending.document.id pending.document.version pending.fingerprint
    (List.zipWith (fun chunk text => (text.map encoder.encodeText).getD chunk.vector) pending.document.chunks pending.texts)

def commitBatch (store : Store) (seen : DocumentStore) (appends : Bool) (pending : List PendingDocument) :
    Store × Except EngineError Bool :=
  store.commit config encoder seen none appends ((pending.take ENCODE_BATCH).map (encodeMutation encoder))

inductive PassError where
  | snapshot (message : String)
  | commit (error : EngineError)

/-- The batches of a pass that nothing comes between; `appends` says which the journal takes. -/
def encodeBatches (appends : Nat → Bool) (store : Store) (encoded : Nat) (pending : List PendingDocument) :
    Store × Except PassError Nat :=
  if pending.isEmpty then (store, .ok encoded)
  else
    match commitBatch encoder store store.core.documents (appends encoded) pending with
    | (store, .ok _) => encodeBatches appends store (encoded + (pending.take ENCODE_BATCH).length) (pending.drop ENCODE_BATCH)
    | (store, .error error) => (store, .error (.commit error))
termination_by pending.length
decreasing_by
  rename_i some
  have := List.length_pos_iff.mpr (fun empty => some (List.isEmpty_iff.mpr empty))
  rw [List.length_drop, ENCODE_BATCH]
  omega

def encodePendingDocuments (analysis : Analysis) (appends : Nat → Bool) (store : Store) : Store × Except PassError Nat :=
  match takeSnapshot analysis store.core.documents with
  | .error message => (store, .error (.snapshot message))
  | .ok pending => encodeBatches encoder appends store 0 pending

end Pass

/-! ### Writers and passes -/

/-- A store and the passes in progress, each with the documents it has not committed yet. -/
structure System where
  store : Store
  passes : List (List PendingDocument)

/-- A write commits against the documents `seen`, which others may have changed since. A pass begins with its
snapshot and installs a batch at a time. A document write replaces the document of that id. -/
inductive Event where
  | put (inputs : List DocumentInput) (options : IngestOptions) (seen : DocumentStore) (appends : Bool)
  | delete (id : String) (seen : DocumentStore) (appends : Bool)
  | begin
  | install (pass : Nat) (seen : DocumentStore) (appends : Bool)
  | read
  | reopen (more : Nat)

section System

variable {config : Config} (encoder : Encoder config.dimensions) (analysis : Analysis)

def embeddingSpace (config : Config) : Option Nat :=
  if config.embeddingDimensions = 0 then none else some config.embeddingDimensions

/-- `memorize_documents_with`, and `memorize_document_with` of one input. -/
def prepareBatch (inputs : List DocumentInput) (options : IngestOptions) : Except String (List StoredDocument) :=
  inputs.mapM fun input => prepareWithOptions encoder analysis input (embeddingSpace config) none options

/-- A call that fails leaves the store; a reopen ends the passes. -/
def System.step (system : System) : Event → System
  | .put inputs options seen appends =>
    match prepareBatch encoder analysis inputs options with
    | .error _ => system
    | .ok documents =>
      { system with store := (system.store.commit config encoder seen none appends (documents.map .document)).1 }
  | .delete id seen appends =>
    { system with store := (system.store.commit config encoder seen none appends [.deleteDocument id]).1 }
  | .begin =>
    match takeSnapshot analysis system.store.core.documents with
    | .error _ => system
    | .ok pending => { system with passes := system.passes ++ [pending] }
  | .install pass seen appends =>
    match system.passes[pass]? with
    | none => system
    | some pending =>
      if pending.isEmpty then system
      else
        match commitBatch encoder system.store seen appends pending with
        | (store, .ok _) => ⟨store, system.passes.set pass (pending.drop ENCODE_BATCH)⟩
        | (store, .error _) => ⟨store, system.passes.eraseIdx pass⟩
  | .read => { system with store := act config encoder system.store .read }
  | .reopen more => ⟨act config encoder system.store (.reopen more), []⟩

def System.run (system : System) (events : List Event) : System := events.foldl (step encoder analysis) system

def System.start (config : Config) (more : Nat) (checkpoint : Option ServingImage) : System :=
  ⟨.start config more checkpoint, []⟩

def written (events : List Event) : List StoredDocument :=
  events.flatMap fun
    | .put inputs options _ _ => (prepareBatch encoder analysis inputs options).toOption.getD []
    | _ => []

/-- What an eager writer does instead: the same accepted inputs, and no passes. -/
def Event.eager : Event → Option Event
  | .put inputs options seen appends =>
    match prepareBatch encoder analysis inputs options with
    | .error _ => none
    | .ok _ => some (.put inputs options.eager seen appends)
  | .begin | .install .. => none
  | event => some event

end System

def contentOf (document : StoredDocument) : String × List (UInt32 × UInt32 × Option String) :=
  (document.version, document.chunks.map fun chunk => (chunk.startByte, chunk.endByte, chunk.text))

/-- Among these documents, different contents have different fingerprints. -/
def FingerprintInjective (documents : List StoredDocument) : Prop :=
  ∀ a ∈ documents, ∀ b ∈ documents, ∀ fingerprint,
    documentFingerprint a = some fingerprint → documentFingerprint b = some fingerprint → contentOf a = contentOf b

end Warm.Ingest
