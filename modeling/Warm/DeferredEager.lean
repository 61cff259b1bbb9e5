import Warm.DeferredEncoding
import Warm.EngineReload

/-! A store with deferred documents beside one that encodes at once. The second takes the same transactions with
every document settled and no encodings, and stays the settled image of the first. -/
namespace Warm.Ingest

open Binary Engine List

variable {config : Config} {encoder : Encoder config.dimensions} {documents : List StoredDocument}

/-! ### Transactions -/

/-- The mutation of a store that encodes at once, if it makes one. -/
def eagerMutation (encoder : Encoder dimensions) : Mutation → Option Mutation
  | .document document => some (.document (settled encoder document))
  | .deleteDocument id => some (.deleteDocument id)
  | _ => none

theorem forM_map_eq {check : α → Except ε Unit} {items : List α} (same : ∀ item ∈ items, check (f item) = check item) :
    (items.map f).forM check = items.forM check := by
  induction items with
  | nil => rfl
  | cons item items ih =>
    change (check (f item) >>= fun _ => (items.map f).forM check) = (check item >>= fun _ => items.forM check)
    rw [same item mem_cons_self, ih (forall_mem_cons.mp same).2]

theorem validateChunk_settledChunk (count : Nat)
    (awaits : chunk.vectorState = .pending → chunk.vector = noVector config.dimensions) :
    validateChunk config count (settledChunk encoder chunk) = validateChunk config count chunk := by
  by_cases pending : chunk.vectorState = .pending
  · have shaped := encoder.encodeText_valid (chunk.text.getD "")
    have bare : chunk.vector.valid config.dimensions = true := by
      have dims : config.dimensions < 2 ^ 64 := by
        simp only [VectorRecord.valid, Bool.and_eq_true, decide_eq_true_eq] at shaped
        rw [← shaped.1.1]
        exact UInt64.toNat_lt _
      rw [awaits pending]
      simp only [VectorRecord.valid, noVector, getLast?_nil, Option.all_none, Bool.and_true, Bool.and_eq_true,
        decide_eq_true_eq, UInt64.toNat_ofNat']
      exact ⟨Nat.mod_eq_of_lt dims, rfl⟩
    have kind : (VectorState.encoded == VectorState.lexical) = (VectorState.pending == VectorState.lexical) := rfl
    rw [settledChunk, encodeChunk, if_pos pending, validateChunk, validateChunk, bare, pending]
    rw [shaped, kind]
  · rw [settledChunk_of_not_pending pending]

theorem validateMutation_settled {document : StoredDocument} (ready : Ready encoder document) :
    validateMutation config (.document (settled encoder document)) = validateMutation config (.document document) := by
  have each : (settled encoder document).chunks.forM (validateChunk config document.chunks.length) =
      document.chunks.forM (validateChunk config document.chunks.length) :=
    forM_map_eq fun chunk member => validateChunk_settledChunk _ fun pending =>
      (ready.pending chunk member pending chunk member).2.2
  have size : (settled encoder document).chunks.length = document.chunks.length := length_map ..
  have empty : (settled encoder document).chunks.isEmpty = document.chunks.isEmpty := isEmpty_map ..
  rw [validateMutation, validateMutation, size, empty, each]
  rfl

def settledMutation (encoder : Encoder dimensions) : Mutation → Mutation
  | .document document => .document (settled encoder document)
  | mutation => mutation

theorem validateTransaction_settled {mutations : List Mutation}
    (ready : ∀ document, .document document ∈ mutations → Ready encoder document) :
    validateTransaction config (mutations.map (settledMutation encoder)) = validateTransaction config mutations := by
  rw [validateTransaction, validateTransaction, length_map, isEmpty_map, forM_map_eq]
  intro mutation member
  cases mutation with
  | document document => exact validateMutation_settled (ready document member)
  | _ => rfl

/-! ### Documents -/

section

variable (valid : store.Valid) (stored : Stored encoder documents store) (injective : FingerprintInjective documents)
include valid stored injective

theorem mapDocuments_writeDocuments (admissible : Admissible encoder documents mutation) :
    (writeDocuments store mutation).mapDocuments (settled encoder) =
      (eagerMutation encoder mutation).toList.foldl writeDocuments (store.mapDocuments (settled encoder)) := by
  have keeps := keeps_settled encoder
  cases mutation with
  | document document => exact DocumentStore.mapDocuments_insert keeps document
  | deleteDocument id => exact DocumentStore.mapDocuments_remove keeps id
  | encodeDocument id version fingerprint vectors =>
    rw [writeDocuments]
    cases found : store.get id with
    | none => rfl
    | some document =>
      dsimp only
      split
      next applies =>
        -- The image holds the settled document already, which is what the vectors leave.
        obtain ⟨_, settles⟩ := stored.encoded injective admissible found applies
        have own : (settled encoder document).id = id := valid.keyed id document found
        have shown : (store.mapDocuments (settled encoder)).get (settled encoder document).id =
            some (settled encoder document) := by
          rw [own, DocumentStore.get_mapDocuments, found]
          rfl
        rw [DocumentStore.mapDocuments_insert keeps, settles, settled_settled]
        exact DocumentStore.insert_self (valid.mapDocuments keeps) shown
      next => rfl
  | _ => exact admissible.elim

theorem foldl_writeDocuments {mutations : List Mutation}
    (journal : ∀ mutation ∈ mutations, Admissible encoder documents mutation ∧ validateMutation config mutation = .ok ()) :
    (mutations.foldl writeDocuments store).Valid ∧ Stored encoder documents (mutations.foldl writeDocuments store) ∧
      (mutations.foldl writeDocuments store).mapDocuments (settled encoder) =
        (mutations.filterMap (eagerMutation encoder)).foldl writeDocuments (store.mapDocuments (settled encoder)) := by
  induction mutations generalizing store with
  | nil => exact ⟨valid, stored, rfl⟩
  | cons mutation mutations ih =>
    obtain ⟨admissible, checked⟩ := journal mutation mem_cons_self
    have first := mapDocuments_writeDocuments valid stored injective admissible
    obtain ⟨valid', stored', image⟩ := ih (valid_writeDocuments valid mutation)
      (stored.write valid.keyed injective admissible checked) (forall_mem_cons.mp journal).2
    refine ⟨valid', stored', ?_⟩
    rw [foldl_cons, image, first, filterMap_cons]
    cases eagerMutation encoder mutation <;> rfl

end

/-! ### Stores -/

/-- What holds of a store between the steps of writers and passes. -/
structure Tracked (encoder : Encoder config.dimensions) (documents : List StoredDocument) (store : Store) : Prop where
  owned : Owned config store
  valid : store.core.documents.Valid
  stored : Stored encoder documents store.core.documents
  journal : ∀ mutation ∈ store.generation.frames.flatten,
    Admissible encoder documents mutation ∧ validateMutation config mutation = .ok ()

/-- The store that encodes at once holds the settled documents. -/
structure Image (encoder : Encoder config.dimensions) (store twin : Store) : Prop where
  owned : Owned config twin
  documents : twin.core.documents = store.core.documents.mapDocuments (settled encoder)
  serving : twin.core.serving = store.core.serving
  count : twin.core.shards.shards.length = store.core.shards.shards.length
  checkpoint : twin.generation.checkpoint = store.generation.checkpoint
  journal : twin.generation.frames.flatten = store.generation.frames.flatten.filterMap (eagerMutation encoder)

theorem settled_named (named : Named document) : Named (settled encoder document) := by
  intro i chunk found
  obtain ⟨old, inside, rfl⟩ := Option.map_eq_some_iff.mp ((getElem?_map ..).symm.trans found)
  have same : (settledChunk encoder old).id = old.id := by
    rw [settledChunk, encodeChunk]
    split <;> rfl
  rw [same]
  exact named i old inside

section Steps

variable {store twin : Store} {mutations : List Mutation} (ready : ∀ document ∈ documents, Ready encoder document)

include ready

theorem Admissible.issued (admissible : Admissible encoder documents mutation) : Issued mutation := by
  cases mutation with
  | document document => exact (ready document admissible).named
  | deleteDocument | encodeDocument => trivial
  | _ => exact admissible.elim

theorem Admissible.eager (admissible : Admissible encoder documents mutation)
    (checked : validateMutation config mutation = .ok ()) (form : eagerMutation encoder mutation = some other) :
    isDocumentChange other = true ∧ Issued other ∧ validateMutation config other = .ok () := by
  cases mutation with
  | document document =>
    obtain rfl := Option.some.inj form
    exact ⟨rfl, settled_named (ready document admissible).named,
      (validateMutation_settled (ready document admissible)).trans checked⟩
  | deleteDocument id =>
    obtain rfl := Option.some.inj form
    exact ⟨rfl, trivial, checked⟩
  | _ => cases form

theorem Tracked.written (tracked : Tracked encoder documents store) (injective : FingerprintInjective documents)
    (admissible : ∀ mutation ∈ mutations, Admissible encoder documents mutation)
    (checked : validateTransaction config mutations = .ok ()) : Tracked encoder documents (store.written encoder mutations) := by
  have journal : ∀ mutation ∈ mutations, Admissible encoder documents mutation ∧ validateMutation config mutation = .ok () :=
    fun mutation member => ⟨admissible mutation member, validateTransaction_ok checked mutation member⟩
  have committed := commit_documents tracked.valid.keyed config encoder (fun m member => (admissible m member).change)
    store.core.documents true
  rw [checked] at committed
  have owned : Owned config (act config encoder store (.commit store.core.documents none true mutations)) :=
    tracked.owned.act encoder fun mutation member => (admissible mutation member).issued ready
  rw [act, committed] at owned
  obtain ⟨valid, stored, _⟩ := foldl_writeDocuments tracked.valid tracked.stored injective journal
  have documents := (documents_foldl_applyDirect encoder store.core mutations).1
  refine ⟨owned, ?_, ?_, ?_⟩
  · exact documents.symm ▸ valid
  · exact documents.symm ▸ stored
  · intro mutation member
    rw [Store.written, List.flatten_append, flatten_singleton] at member
    rcases mem_append.mp member with old | new
    · exact tracked.journal mutation old
    · exact journal mutation new

theorem Image.written (image : Image encoder store twin) (tracked : Tracked encoder documents store)
    (injective : FingerprintInjective documents)
    (admissible : ∀ mutation ∈ mutations, Admissible encoder documents mutation)
    (checked : ∀ mutation ∈ mutations, validateMutation config mutation = .ok ()) {eager : List Mutation}
    (form : mutations.filterMap (eagerMutation encoder) = eager) (owned : Owned config (twin.written encoder eager)) :
    Image encoder (store.written encoder mutations) (twin.written encoder eager) := by
  have changes : ∀ mutation ∈ eager, isDocumentChange mutation = true := by
    intro other member
    obtain ⟨mutation, inside, own⟩ := mem_filterMap.mp (form ▸ member)
    exact ((admissible mutation inside).eager ready (checked mutation inside) own).1
  obtain ⟨_, _, kept⟩ := foldl_writeDocuments tracked.valid tracked.stored injective fun mutation member =>
    ⟨admissible mutation member, checked mutation member⟩
  obtain ⟨documents, serving⟩ := documents_foldl_applyDirect encoder store.core mutations
  obtain ⟨documents', serving'⟩ := documents_foldl_applyDirect encoder twin.core eager
  refine ⟨owned, ?_, ?_, ?_, image.checkpoint, ?_⟩
  · change (eager.foldl (applyDirect encoder) twin.core).documents =
      (mutations.foldl (applyDirect encoder) store.core).documents.mapDocuments (settled encoder)
    rw [documents', documents, image.documents, kept, form]
  · exact serving'.trans (image.serving.trans serving.symm)
  · refine (length_shards_foldl encoder twin.core changes).trans (image.count.trans ?_)
    exact (length_shards_foldl encoder store.core fun m member => (admissible m member).change).symm
  · rw [Store.written, Store.written, List.flatten_append, List.flatten_append, flatten_singleton,
      flatten_singleton, image.journal, filterMap_append, form]

omit ready

theorem Image.encoded (image : Image encoder store twin) (tracked : Tracked encoder documents store)
    (injective : FingerprintInjective documents)
    (admissible : ∀ mutation ∈ mutations, Admissible encoder documents mutation)
    (checked : ∀ mutation ∈ mutations, validateMutation config mutation = .ok ())
    (form : mutations.filterMap (eagerMutation encoder) = []) : Image encoder (store.written encoder mutations) twin := by
  obtain ⟨_, _, kept⟩ := foldl_writeDocuments tracked.valid tracked.stored injective fun mutation member =>
    ⟨admissible mutation member, checked mutation member⟩
  obtain ⟨documents, serving⟩ := documents_foldl_applyDirect encoder store.core mutations
  refine ⟨image.owned, ?_, ?_, ?_, image.checkpoint, ?_⟩
  · change _ = (mutations.foldl (applyDirect encoder) store.core).documents.mapDocuments (settled encoder)
    rw [documents, kept, form, image.documents]
    rfl
  · exact image.serving.trans serving.symm
  · exact image.count.trans (length_shards_foldl encoder store.core fun m member => (admissible m member).change).symm
  · rw [Store.written, List.flatten_append, flatten_singleton, filterMap_append, form, append_nil,
      image.journal]

theorem Image.read (image : Image encoder store twin) (tracked : Tracked encoder documents store) :
    Tracked encoder documents (act config encoder store .read) ∧
      Image encoder (act config encoder store .read) (act config encoder twin .read) := by
  have owned : Owned config (act config encoder store .read) := tracked.owned.act encoder trivial
  have owned' : Owned config (act config encoder twin .read) := image.owned.act encoder trivial
  have base : twin.core.documents.base = store.core.documents.base := by
    rw [image.documents]
    rfl
  rw [act, hydrateDocuments] at owned owned' ⊢
  rw [act, hydrateDocuments]
  rw [image.serving, base] at owned' ⊢
  cases serving : store.core.serving with
  | false => exact ⟨tracked, image⟩
  | true =>
    rw [serving] at owned owned'
    rw [if_pos rfl] at owned owned' ⊢
    rw [if_pos rfl]
    cases atop : store.core.documents.base with
    | none => exact ⟨tracked, image⟩
    | some base =>
      rw [atop] at owned owned'
      have lexical : ∀ entry ∈ base.image.documents, settled encoder entry.1 = entry.1 := by
        intro entry member
        apply settled_of_not_pending
        intro chunk inside
        rw [base.image.lexical entry member chunk inside]
        simp
      refine ⟨⟨owned, DocumentStore.valid_hydrate _ base, tracked.stored.hydrate tracked.valid.keyed atop, tracked.journal⟩,
        owned', ?_, rfl, image.count, image.checkpoint, image.journal⟩
      rw [DocumentStore.mapDocuments_hydrate (keeps_settled encoder) base lexical, image.documents]

theorem get_opened (config : Config) (more : Nat) (checkpoint : Option ServingImage) (id : String) :
    (opened config more checkpoint).documents.get id = none := by
  cases checkpoint <;> exact DocumentStore.get_empty id

theorem Tracked.start (more : Nat) (named : NamedImage checkpoint) :
    Tracked encoder documents (.start config more checkpoint) where
  owned := ⟨named, by simp [Store.start], indexed_opened config more named⟩
  valid := Generation.valid_documents ⟨checkpoint, []⟩
  stored id document found := absurd ((get_opened config more checkpoint id).symm.trans found) (by simp)
  journal := by simp [Store.start]

theorem Image.start (more : Nat) {checkpoint : Option ServingImage} (named : NamedImage checkpoint) :
    Image encoder (.start config more checkpoint) (.start config more checkpoint) where
  owned := ⟨named, by simp [Store.start], indexed_opened config more named⟩
  documents := (DocumentStore.mapDocuments_eq_self fun id document found =>
    absurd ((get_opened config more checkpoint id).symm.trans found) (by simp)).symm
  serving := rfl
  count := rfl
  checkpoint := rfl
  journal := rfl

include ready

/-- An open replays both journals. Encodings that were skipped when they were committed are skipped again. -/
theorem Image.reopen (image : Image encoder store twin) (tracked : Tracked encoder documents store)
    (injective : FingerprintInjective documents) (more : Nat) :
    Tracked encoder documents (act config encoder store (.reopen more)) ∧
      Image encoder (act config encoder store (.reopen more)) (act config encoder twin (.reopen more)) := by
  have owned : Owned config (act config encoder store (.reopen more)) := tracked.owned.act encoder trivial
  have owned' : Owned config (act config encoder twin (.reopen more)) := image.owned.act encoder trivial
  have changes : ∀ mutation ∈ store.generation.frames.flatten, isDocumentChange mutation = true :=
    fun mutation member => (tracked.journal mutation member).1.change
  have eager : ∀ other ∈ twin.generation.frames.flatten,
      isDocumentChange other = true ∧ Issued other ∧ validateMutation config other = .ok () := by
    intro other member
    rw [image.journal] at member
    obtain ⟨mutation, inside, form⟩ := mem_filterMap.mp member
    obtain ⟨admissible, checked⟩ := tracked.journal mutation inside
    exact admissible.eager ready checked form
  have loaded : loadFromLog config encoder more store.generation =
      .ok (store.generation.frames.flatten.foldl (applyDirect encoder)
        (opened config more store.generation.checkpoint)) :=
    loadFromLog_documents more changes fun m member => (tracked.journal m member).2
  have loaded' : loadFromLog config encoder more twin.generation =
      .ok (twin.generation.frames.flatten.foldl (applyDirect encoder)
        (opened config more twin.generation.checkpoint)) :=
    loadFromLog_documents more (fun m member => (eager m member).1) fun m member => (eager m member).2.2
  rw [act, loaded] at owned ⊢
  rw [act, loaded'] at owned'
  rw [act, loaded']
  rw [image.checkpoint] at owned' ⊢
  have fresh : Tracked encoder documents (.start config more store.generation.checkpoint) :=
    Tracked.start more tracked.owned.image
  have same : Image encoder (.start config more store.generation.checkpoint)
      (.start config more store.generation.checkpoint) := Image.start more tracked.owned.image
  obtain ⟨valid, stored, kept⟩ := foldl_writeDocuments fresh.valid fresh.stored injective tracked.journal
  generalize start : opened config more store.generation.checkpoint = core at owned owned' ⊢
  obtain ⟨written, serving⟩ := documents_foldl_applyDirect encoder core store.generation.frames.flatten
  obtain ⟨written', serving'⟩ := documents_foldl_applyDirect encoder core twin.generation.frames.flatten
  have first : (Store.start config more store.generation.checkpoint).core.documents = core.documents :=
    congrArg WarmCore.documents start
  rw [first] at valid stored kept
  have unchanged : core.documents.mapDocuments (settled encoder) = core.documents := first ▸ same.documents.symm
  rw [unchanged] at kept
  refine ⟨⟨owned, written.symm ▸ valid, written.symm ▸ stored, tracked.journal⟩,
    owned', ?_, serving'.trans serving.symm, ?_, image.checkpoint, image.journal⟩
  · dsimp only
    rw [written', written, kept, image.journal]
  · exact (length_shards_foldl encoder core fun m member => (eager m member).1).trans
      (length_shards_foldl encoder core changes).symm

end Steps

end Warm.Ingest
