import Warm.DocumentStore
import Warm.Ranking
import Mathlib.Order.Lattice

/-! Vector search over a captured snapshot of the embedded chunks. A document is held through a
shared handle, and two handles are the same when their addresses are; an address is not used again
while a snapshot may hold it. The postings, filters and counters of the store play no part. -/
namespace Warm.VectorSnapshot

abbrev Embedding := List UInt32

/-- `Arc<StoredDocument>`. -/
structure Shared where
  address : Nat
  document : StoredDocument
  deriving DecidableEq

/-- Handles are compared by their addresses. -/
def Shared.ptrEq (a b : Shared) : Bool := a.address == b.address

/-- The live store as vector search reads it; `heap` lists the documents allocated so far. -/
structure Store where
  documents : Table String Shared
  embeddedDocuments : Table String Unit
  embeddedCount : Nat
  slots : SlotTable
  generation : Nat
  heap : List StoredDocument

def embedded (document : StoredDocument) : Bool := document.chunks.any (·.embedding.isSome)

def embeddedChunks (document : StoredDocument) : Nat := document.chunks.countP (·.embedding.isSome)

/-- A document as ingestion prepares it: every embedding is normalised for the store's space. -/
structure Prepared (dim : Nat) where
  document : StoredDocument
  fits : ∀ chunk ∈ document.chunks, ∀ embedding ∈ chunk.embedding, embedding.length = dim

namespace Store

def opened (generation : Nat) : Store := ⟨∅, ∅, 0, .empty, generation, []⟩

def get (store : Store) (id : String) : Option Shared := store.documents[id]?

def values (store : Store) : List Shared := store.documents.toList.map Prod.snd

/-- A new allocation of `document`. -/
def allocate (store : Store) (document : StoredDocument) : Shared × Store :=
  (⟨store.heap.length, document⟩, { store with heap := store.heap ++ [document] })

/-- `install_new` for one document. -/
def install (store : Store) (shared : Shared) : Store :=
  let id := shared.document.id
  { store with
    documents := store.documents.insert id shared
    embeddedDocuments :=
      if embedded shared.document then store.embeddedDocuments.insert id () else store.embeddedDocuments
    embeddedCount := store.embeddedCount + embeddedChunks shared.document
    slots := store.slots.allocate id shared.document.chunks.length
    generation := store.generation + 1 }

/-- `replace_shared`: as many chunks as before, each in its slot. -/
def replaceShared (store : Store) (previous shared : Shared) : Store :=
  let id := shared.document.id
  { store with
    documents := store.documents.insert id shared
    embeddedDocuments :=
      if embedded previous.document && !embedded shared.document then store.embeddedDocuments.erase id
      else if !embedded previous.document && embedded shared.document then store.embeddedDocuments.insert id ()
      else store.embeddedDocuments
    embeddedCount := store.embeddedCount - embeddedChunks previous.document + embeddedChunks shared.document
    generation := store.generation + 1 }

/-- A document whose term table is shared anew has a new allocation. -/
def reinstall (moved : String → Bool) (store : Store) (shared : Shared) : Store :=
  if moved shared.document.id then
    let (shared, store) := store.allocate shared.document
    store.install shared
  else store.install shared

/-- A sparse store indexes its documents anew; `moved` tells which of them are allocated anew. -/
def reindex (store : Store) (moved : String → Bool) : Store :=
  store.values.foldl (reinstall moved)
    { store with documents := ∅, embeddedDocuments := ∅, embeddedCount := 0, slots := .empty }

def unlink (store : Store) (shared : Shared) : Store :=
  let id := shared.document.id
  { store with
    documents := store.documents.erase id
    embeddedDocuments :=
      if embedded shared.document then store.embeddedDocuments.erase id else store.embeddedDocuments
    embeddedCount := store.embeddedCount - embeddedChunks shared.document
    slots := store.slots.release id
    generation := store.generation + 1 }

def remove (store : Store) (id : String) (moved : String → Bool) : Store :=
  match store.get id with
  | none => store
  | some shared =>
    let removed := store.unlink shared
    if removed.slots.sparse then removed.reindex moved else removed

def replace (store : Store) (previous shared : Shared) (moved : String → Bool) : Store :=
  if previous.document.chunks.length = shared.document.chunks.length then store.replaceShared previous shared
  else (store.remove shared.document.id moved).install shared

def insert (store : Store) (document : StoredDocument) (moved : String → Bool) : Store :=
  let (shared, store) := store.allocate document
  match store.get document.id with
  | none => store.install shared
  | some previous => store.replace previous shared moved

end Store

/-- A mutation of the store; `moved` is what a reindexing on the way allocates anew. -/
inductive Mutation (dim : Nat) where
  | insert (document : Prepared dim) (moved : String → Bool)
  | remove (id : String) (moved : String → Bool)

def Store.apply {dim : Nat} (store : Store) : Mutation dim → Store
  | .insert prepared moved => store.insert prepared.document moved
  | .remove id moved => store.remove id moved

def Store.run {dim : Nat} (store : Store) (history : List (Mutation dim)) : Store := history.foldl apply store

def SNAPSHOT_MIN_ROWS : Nat := 1
def MAX_EF : Nat := 4096
def MAX_K : Nat := 1000
def MAX_ROWS : Nat := 2 ^ 22
def MAX_MATRIX_VALUES : Nat := 512 * 1024 * 1024

structure RowRef where
  shared : Shared
  chunk : Nat
  deriving DecidableEq

structure VectorCapture where
  generation : Nat
  dim : Nat
  rows : List RowRef
  embeddings : List Embedding

def captureChunk (count dim : Nat) (shared : Shared) (rows : List (RowRef × Embedding)) (entry : StoredChunk × Nat) :
    Except String (List (RowRef × Embedding)) :=
  match entry.1.embedding with
  | none => .ok rows
  | some embedding =>
    if embedding.length ≠ dim then
      .error s!"stored embedding has {embedding.length} dimensions, the embedding space {dim}"
    else if count ≤ rows.length then .error s!"store counts {count} embedded chunks but holds more"
    else if 2 ^ 32 ≤ entry.2 then .error "chunk index over u32"
    else .ok (rows ++ [(⟨shared, entry.2⟩, embedding)])

def captureDocument (store : Store) (count dim : Nat) (rows : List (RowRef × Embedding)) (id : String) :
    Except String (List (RowRef × Embedding)) :=
  match store.documents[id]? with
  | none => .error s!"embedded document {repr id} is missing from the store"
  | some shared => shared.document.chunks.zipIdx.foldlM (captureChunk count dim shared) rows

def captureVectorRows (store : Store) (dim : Nat) : Except String (Option VectorCapture) :=
  let count := store.embeddedCount
  if dim = 0 ∨ count < SNAPSHOT_MIN_ROWS then .ok none
  else if MAX_ROWS < count then .error s!"vector snapshot exceeds {MAX_ROWS} embedded chunks"
  else if MAX_MATRIX_VALUES < count * dim then
    .error s!"vector snapshot exceeds {MAX_MATRIX_VALUES} embedding values"
  else
    match (store.embeddedDocuments.toList.map Prod.fst).foldlM (captureDocument store count dim) [] with
    | .error message => .error message
    | .ok rows =>
      if rows.length ≠ count then .error s!"store counts {count} embedded chunks but holds {rows.length}"
      else .ok (some ⟨store.generation, dim, rows.map Prod.fst, rows.map Prod.snd⟩)

/-- The snapshot without the graph, which exact search does not read. -/
structure Snapshot where
  generation : Nat
  dim : Nat
  rows : List RowRef
  members : List Nat
  exact : List Embedding

def buildVectorSnapshot (capture : VectorCapture) : Snapshot where
  generation := capture.generation
  dim := capture.dim
  rows := capture.rows
  members := capture.rows.map fun row => row.shared.address
  exact := capture.embeddings

def staleness (storeGeneration snapshotGeneration : Nat) : Nat :=
  if storeGeneration = snapshotGeneration then 0
  else max ((storeGeneration - snapshotGeneration) + (snapshotGeneration - storeGeneration)) 1

/-- The sums of products the scores are made of: over the wide query for the canonical score, over the
narrow one for candidates. -/
structure Metric (α : Type) where
  dot : List UInt64 → Embedding → α
  dot32 : Embedding → Embedding → α

/-- The text of a chunk as a reader of the segment finds it. -/
structure Texts where
  scrubbed : Shared → Nat → Bool
  read : Shared → Nat → Except String (Option String)

structure Options (α : Type) where
  ef : Nat
  minScore : α

structure Hit (α : Type) where
  shared : Shared
  chunk : Nat
  score : α
  deriving DecidableEq

/-- A result names the document and the chunk whose fields it carries. -/
structure DocumentResult (α : Type) where
  document : StoredDocument
  chunk : Nat
  text : Option String
  score : α
  semanticScore : Option α
  deriving DecidableEq

section Search

variable {α : Type} [LinearOrder α]

/-- `f64::clamp` to the range of a cosine. -/
def clamp [One α] [Neg α] (value : α) : α := max (-1) (min 1 value)

def cosine [One α] [Neg α] (metric : Metric α) (query : List UInt64) (embedding : Embedding) : α :=
  clamp (metric.dot query embedding)

/-- The place of a hit in the order of results: score descending, then document id and chunk. -/
abbrev Key (α : Type) := αᵒᵈ ×ₗ (String ×ₗ Nat)

def Hit.key (hit : Hit α) : Key α :=
  toLex (OrderDual.toDual hit.score, toLex (hit.shared.document.id, hit.chunk))

/-- The bounded best-`k` scan over the rows: score descending, then row. -/
def searchCanonical [One α] [Neg α] (metric : Metric α) (rows : List Embedding) (query : List UInt64) (k : Nat) :
    List (Nat × α) :=
  let key (hit : Nat × α) : αᵒᵈ ×ₗ Nat := toLex (OrderDual.toDual hit.2, hit.1)
  TopK.collect key (min k rows.length) (rows.zipIdx.map fun entry => (entry.2, cosine metric query entry.1))

def toHit (snapshot : Snapshot) (found : Nat × α) : Option (Hit α) :=
  snapshot.rows[found.1]?.map fun row => ⟨row.shared, row.chunk, found.2⟩

/-- Whether the store still holds the very document the handle is of. -/
def Store.holds (store : Store) (shared : Shared) : Bool :=
  (store.get shared.document.id).any (·.ptrEq shared)

/-- One chunk of the pass over the documents written since the capture. -/
def deltaChunk (metric : Metric α) (dim : Nat) (query : Embedding) (shared : Shared) (found : List (Hit α))
    (entry : StoredChunk × Nat) : Except String (List (Hit α)) :=
  match entry.1.embedding with
  | none => .ok found
  | some embedding =>
    if embedding.length ≠ dim then .ok found
    else if 2 ^ 32 ≤ entry.2 then .error "chunk index over u32"
    else .ok (found ++ [⟨shared, entry.2, metric.dot32 query embedding⟩])

def deltaDocument (metric : Metric α) (snapshot : Snapshot) (query : Embedding) (found : List (Hit α))
    (shared : Shared) : Except String (List (Hit α)) :=
  if shared.address ∈ snapshot.members then .ok found
  else shared.document.chunks.zipIdx.foldlM (deltaChunk metric snapshot.dim query shared) found

def Hit.rescore [One α] [Neg α] (metric : Metric α) (query : List UInt64) (hit : Hit α) : Hit α :=
  match hit.shared.document.chunks[hit.chunk]?.bind (·.embedding) with
  | some embedding => { hit with score := cosine metric query embedding }
  | none => hit

/-- The end of the ranking: canonical scores, the order of results, the least score and the cut. -/
def rankFound [One α] [Neg α] (metric : Metric α) (query : List UInt64) (k : Nat) (minScore : α)
    (found : List (Hit α)) : List (Hit α) :=
  (((found.map (·.rescore metric query)).insertionSort fun a b => a.key ≤ b.key).filter
    fun hit => minScore ≤ hit.score).take k

def fetchRows (snapshot : Snapshot) (store : Store) (k : Nat) : Nat :=
  min (k + min (staleness store.generation snapshot.generation) (4 * k) + 8) snapshot.rows.length

/-- `rank_vector_snapshot` under `VectorIndexMode::Exact`. -/
def rankVectorSnapshot [One α] [Neg α] (metric : Metric α) (snapshot : Snapshot) (store : Store) (query : Embedding)
    (exactQuery : List UInt64) (k : Nat) (options : Options α) : Except String (Option (List (Hit α))) :=
  if query.length ≠ snapshot.dim then
    .error s!"query has {query.length} dimensions, the index {snapshot.dim}"
  else if exactQuery.length ≠ snapshot.dim then .error "canonical query dimension mismatch"
  else if ¬ (1 ≤ k ∧ k ≤ MAX_K) then .error s!"require 1 <= k <= {MAX_K}"
  else if ¬ (1 ≤ options.ef ∧ options.ef ≤ MAX_EF) then .error s!"require 1 <= ef <= {MAX_EF}"
  else if ¬ (-1 ≤ options.minScore ∧ options.minScore ≤ 1) then .error "minScore must be in [-1,1]"
  else
    let hits := (searchCanonical metric snapshot.exact exactQuery (fetchRows snapshot store k)).filterMap (toHit snapshot)
    if staleness store.generation snapshot.generation = 0 then
      .ok (some (rankFound metric exactQuery k options.minScore hits))
    else
      match store.values.foldlM (deltaDocument metric snapshot query) (hits.filter fun hit => store.holds hit.shared) with
      | .error message => .error message
      | .ok found =>
        if found.length < min k snapshot.rows.length then .ok none
        else .ok (some (rankFound metric exactQuery k options.minScore found))

def toResult [One α] [Neg α] (texts : Texts) (hit : Hit α) : Except String (DocumentResult α) :=
  (texts.read hit.shared hit.chunk).map fun text =>
    ⟨hit.shared.document, hit.chunk, text, clamp hit.score, some (clamp hit.score)⟩

/-- The hits with their text, or `none` when the text of one was scrubbed. -/
def readVectorHits [One α] [Neg α] (texts : Texts) : List (Hit α) → Except String (Option (List (DocumentResult α)))
  | [] => .ok (some [])
  | hit :: hits =>
    if texts.scrubbed hit.shared hit.chunk then .ok none
    else
      match toResult texts hit with
      | .error message => .error message
      | .ok result =>
        match readVectorHits texts hits with
        | .error message => .error message
        | .ok results => .ok (results.map (result :: ·))

def searchVectorSnapshot [One α] [Neg α] (metric : Metric α) (texts : Texts) (snapshot : Snapshot) (store : Store)
    (query : Embedding) (exactQuery : List UInt64) (k : Nat) (options : Options α) :
    Except String (Option (List (DocumentResult α))) :=
  match rankVectorSnapshot metric snapshot store query exactQuery k options with
  | .error message => .error message
  | .ok none => .ok none
  | .ok (some ranked) => readVectorHits texts ranked

end Search

section Scan

variable {α β : Type} [LinearOrder α] [LinearOrder β]

/-- The arithmetic of the blended score: `(value - low) / (high - low)`, and one. -/
structure Blend (α β : Type) [LinearOrder α] [LinearOrder β] where
  ratio : α → α → α → β
  one : β
  increasing : ∀ low high, low < high → StrictMono (ratio low high)

def Blend.exact (K : Type) [Field K] [LinearOrder K] [IsStrictOrderedRing K] : Blend K K where
  ratio low high value := (value - low) / (high - low)
  one := 1
  increasing low high above a b less := by
    have width : 0 < high - low := sub_pos.mpr above
    exact div_lt_div_of_pos_right (sub_lt_sub_right less low) width

/-- The contribution of the one list that ranks, at weight 1. -/
def Blend.normalized (blend : Blend α β) (low high value : α) : β :=
  if low < high then blend.ratio low high value else blend.one

/-- The best `limit` values in order; the keys are distinct. -/
def topRanked {ι κ : Type} [LinearOrder κ] (key : ι → κ) (limit : Nat) (values : List ι) : List ι :=
  (values.insertionSort fun a b => key a ≤ key b).take limit

/-- The chunks of the live documents with their scores, those without an embedding left out. -/
def scored [One α] [Neg α] (metric : Metric α) (query : List UInt64) (shared : Shared) : List (Hit α) :=
  shared.document.chunks.zipIdx.filterMap fun entry =>
    entry.1.embedding.map fun embedding => ⟨shared, entry.2, cosine metric query embedding⟩

def liveHits [One α] [Neg α] (metric : Metric α) (query : List UInt64) (store : Store) : List (Hit α) :=
  store.values.flatMap (scored metric query)

/-- `execute_chunks` for a query without text, filter or trained index, blending one list. -/
def executeChunks [One α] [Neg α] (metric : Metric α) (blend : Blend α β) (store : Store) (query : List UInt64)
    (k limit : Nat) (minimum : α) : List (Hit α) :=
  let semantic := topRanked Hit.key limit ((liveHits metric query store).filter fun hit => minimum ≤ hit.score)
  let fused := match semantic.head?, semantic.getLast? with
    | some first, some last => semantic.map fun hit => (hit, blend.normalized last.score first.score hit.score)
    | _, _ => []
  let fusedKey (entry : Hit α × β) : βᵒᵈ ×ₗ (String ×ₗ Nat) :=
    toLex (OrderDual.toDual entry.2, toLex (entry.1.shared.document.id, entry.1.chunk))
  (topRanked fusedKey k fused).map Prod.fst

/-- A result of the generic path; its score is the semantic one. -/
def readHit (texts : Texts) (hit : Hit α) : Except String (DocumentResult α) :=
  (texts.read hit.shared hit.chunk).map fun text => ⟨hit.shared.document, hit.chunk, text, hit.score, some hit.score⟩

/-- The generic exact path of `search_vectors`. -/
def searchDocuments [One α] [Neg α] (metric : Metric α) (blend : Blend α β) (texts : Texts) (store : Store)
    (query : List UInt64) (k : Nat) (minimum : α) : Except String (List (DocumentResult α)) :=
  (executeChunks metric blend store query k (max k 100) minimum).mapM (readHit texts)

end Scan

end Warm.VectorSnapshot
