import Warm.VectorIndexMaintain

/-! The documents of a tenant next to its vector index: what `store_docs` and `delete_doc` do to both,
one write at a time, with a step for each point where they may fail or the process may stop. The
normalisation of a vector is floating point and a parameter; so is the embedder a server may have. -/
namespace Warm.Server.VectorStore

open VectorIndex

/-- The values of a vector, as `f64::to_bits` gives them. -/
abbrev Values := List UInt64

/-- A document as the engine holds it. Every document of the server is one chunk, and its embedding is
kept here as the values it was made of. -/
structure Record where
  version : String
  embedding : Option Values

abbrev Core := Table String Record

/-- `document_embedding_count`. -/
def embeddingCount (core : Core) : Nat := (core.toList.filter fun entry => entry.2.embedding.isSome).length

structure Server where
  crc : Bytes → UInt32
  dim : Nat
  normalize : Values → Option Vector
  embedder : Option (String → Values)
  dim_pos : 0 < dim

/-- `"hv1:{token:016x}"`. -/
def versionStamp (token : UInt64) : String :=
  String.ofList ("hv1:".toList ++ (List.range 16).map fun i => Nat.digitChar (token.toNat / 16 ^ (15 - i) % 16))

/-- The version of a document that comes without one. -/
def defaultVersion : String := "1"

structure DocIn where
  id : String
  text : String
  vector : Option Values

/-- Only a server that embeds text takes a document without a vector. -/
def DocIn.valid (server : Server) (doc : DocIn) : Bool :=
  match doc.vector with
  | none => server.embedder.isSome
  | some values => values.length == server.dim

/-- Of the documents of one id the last. -/
def finalDocs (docs : List DocIn) : List DocIn :=
  docs.foldl (fun final doc => final.filter (·.id ≠ doc.id) ++ [doc]) []

/-- A document on its way into the engine, and the row staged for it. -/
structure Prepared where
  id : String
  record : Record
  row : Option (UInt64 × Vector)

def Prepared.staged (doc : Prepared) : Option (String × UInt64 × Vector) := doc.row.map fun row => (doc.id, row)

def stagedRows (docs : List Prepared) : List (String × UInt64 × Vector) := docs.filterMap Prepared.staged

/-- The loop that draws a token and normalises the vector of each document that has one, where the
index is open. -/
def prepare (server : Server) (indexed : Bool) (token : UInt64) : List DocIn → Option (List Prepared) × UInt64
  | [] => (some [], token)
  | doc :: docs =>
    match doc.vector.filter fun _ => indexed with
    | none =>
      let (rest, next) := prepare server indexed token docs
      (rest.map (⟨doc.id, ⟨defaultVersion, doc.vector.or (server.embedder.map (· doc.text))⟩, none⟩ :: ·), next)
    | some values =>
      match server.normalize values with
      | none => (none, token + 1)
      | some row =>
        let (rest, next) := prepare server indexed (token + 1) docs
        (rest.map (⟨doc.id, ⟨versionStamp token, some values⟩, some (token, row)⟩ :: ·), next)

/-- Where a write is: nothing under way, the engine's commit outstanding, the rows of a failed commit to
be taken out, or the row of a deleted document. -/
inductive Write where
  | idle
  | storing (docs : List Prepared)
  | undoing (ids : List String)
  | deleting (id : String)

structure Tenant where
  core : Core
  index : World
  token : UInt64
  write : Write

/-- How an engine commit ends; a committed error is reported for a transaction that stands. -/
inductive Commit where
  | committed
  | reported
  | failed
  deriving DecidableEq

inductive Event where
  | opened (fault : Option OpenFault) (dropped : Option AppendFault) (cleared : Option ClearFault) (token : UInt64)
  | store (docs : List DocIn) (fault : Option AppendFault)
  | commit (result : Commit)
  | undo (fault : Option AppendFault)
  | delete (id : String) (result : Commit)
  | unindex (fault : Option AppendFault)
  | settle (cleared : Option ClearFault)
  | maintain (step : Step)
  | crashStore (docs : List DocIn) (written : Nat)
  | crashRemove (written : Nat)
  | stop

/-- What `reconcile` keeps: the documents the engine holds at the version of the row. -/
def keep (core : Core) (id : String) (token : UInt64) : Bool :=
  core[id]?.any fun record => record.version = versionStamp token

def covers (state : State) (core : Core) : Bool :=
  state.base.any (·.graph) && state.live == embeddingCount core

namespace Tenant

/-- A maintenance pass holds the log lock. -/
def blocked (tenant : Tenant) : Bool := tenant.index.memory.any fun memory => memory.build.any (·.holdsLog)

/-- `VectorIndex::open`; a tenant whose index does not open goes without one. -/
def openVectors (server : Server) (tenant : Tenant) (fault : Option OpenFault) (dropped : Option AppendFault)
    (cleared : Option ClearFault) : World :=
  let world := openIndex server.crc server.dim fault tenant.index.disk
  match world.memory with
  | none => world
  | some memory =>
    if world.disk.dirty then (reconcile server.crc server.dim world.disk memory (keep tenant.core) dropped cleared).1
    else world

/-- `vectors.stage` and `vectors.remove`, and whether they returned. -/
def call (server : Server) (tenant : Tenant) (request : Call) (fault : Option AppendFault) : World × Bool :=
  match tenant.index.memory with
  | none => (tenant.index, true)
  | some memory =>
    match runCall server.dim server.crc tenant.index.disk memory request fault with
    | (disk, memory, done) => (⟨disk, some memory⟩, done)

/-- The process stops in the middle of the append of a call. -/
def crashed (server : Server) (tenant : Tenant) (request : Call) (written : Nat) : World :=
  match tenant.index.memory with
  | none => ⟨tenant.index.disk, none⟩
  | some memory => ⟨crashCall server.dim server.crc tenant.index.disk memory request written, none⟩

def prepared (server : Server) (tenant : Tenant) (docs : List DocIn) : Option (List Prepared) × UInt64 :=
  prepare server tenant.index.memory.isSome tenant.token (finalDocs docs)

/-- `store_docs` up to the engine's commit. -/
def store (server : Server) (tenant : Tenant) (docs : List DocIn) (fault : Option AppendFault) : Tenant :=
  match tenant.prepared server docs with
  | (none, token) => { tenant with token }
  | (some docs, token) =>
    if (stagedRows docs).isEmpty then { tenant with token, write := .storing docs }
    else
      match tenant.call server (.stage (stagedRows docs)) fault with
      | (index, false) => { tenant with index, token }
      | (index, true) => { tenant with index, token, write := .storing docs }

/-- The engine's commit of the documents, one transaction. -/
def commit (tenant : Tenant) (docs : List Prepared) (result : Commit) : Tenant :=
  if result = .failed then
    { tenant with
      write := if (stagedRows docs).isEmpty then .idle else .undoing ((stagedRows docs).map Prod.fst) }
  else
    { tenant with
      core := docs.foldl (fun core doc => core.insert doc.id doc.record) tenant.core
      write := .idle }

/-- `delete_doc` up to the index: a committed error returns before it. -/
def delete (tenant : Tenant) (id : String) (result : Commit) : Tenant :=
  if result = .failed then tenant
  else
    { tenant with
      core := tenant.core.erase id
      write := if result = .committed ∧ tenant.core[id]?.isSome ∧ tenant.index.memory.isSome then .deleting id else .idle }

/-- One step; a request whose checks refuse it takes none. No append begins while a pass holds the log
lock. -/
def step (server : Server) (tenant : Tenant) (event : Event) : Tenant :=
  match tenant.write, event with
  | .idle, .opened fault dropped cleared token =>
    match tenant.index.memory with
    | none => { tenant with index := tenant.openVectors server fault dropped cleared, token }
    | some _ => tenant
  | .idle, .store docs fault =>
    if docs.all (·.valid server) && !tenant.blocked then tenant.store server docs fault else tenant
  | .storing docs, .commit result => tenant.commit docs result
  | .undoing ids, .undo fault =>
    if tenant.blocked then tenant
    else { tenant with index := (tenant.call server (.remove ids) fault).1, write := .idle }
  | .idle, .delete id result => tenant.delete id result
  | .deleting id, .unindex fault =>
    if tenant.blocked then tenant
    else { tenant with index := (tenant.call server (.remove [id]) fault).1, write := .idle }
  | .idle, .settle cleared =>
    match tenant.index.memory with
    | none => tenant
    | some memory =>
      let (disk, memory) := clearDirty tenant.index.disk memory cleared
      { tenant with index := ⟨disk, some memory⟩ }
  | _, .maintain step =>
    match tenant.index.memory with
    | none => tenant
    | some memory =>
      match VectorIndex.maintain server.crc server.dim tenant.index.disk memory step with
      | none => tenant
      | some (disk, memory) => { tenant with index := ⟨disk, some memory⟩ }
  | .idle, .crashStore docs written =>
    match tenant.prepared server docs with
    | (none, _) => tenant
    | (some docs, _) =>
      if (stagedRows docs).isEmpty || tenant.blocked then tenant
      else { tenant with index := tenant.crashed server (.stage (stagedRows docs)) written }
  | .undoing ids, .crashRemove written =>
    if tenant.blocked then tenant
    else { tenant with index := tenant.crashed server (.remove ids) written, write := .idle }
  | .deleting id, .crashRemove written =>
    if tenant.blocked then tenant
    else { tenant with index := tenant.crashed server (.remove [id]) written, write := .idle }
  | _, .stop => { tenant with index := ⟨tenant.index.disk, none⟩, write := .idle }
  | _, _ => tenant

def empty : Tenant := ⟨∅, .empty, 0, .idle⟩

def run (server : Server) (tenant : Tenant) (events : List Event) : Tenant := events.foldl (step server) tenant

end Tenant

end Warm.Server.VectorStore
