import Warm.Document
import Warm.Table
import Mathlib.Data.List.Sort

/-! The live document store: the documents by id, the slots of their chunks, and the checkpoint
the store may be served from. A store over a checkpoint holds the documents written since and
marks the checkpoint documents they replace or delete dead. Postings, filters and counters are
derived from the documents and not part of the model. -/
namespace Warm

open List

variable {documents : Table String StoredDocument} {store : DocumentStore}

/-- The slots of the stored chunks; `free` is ascending. -/
structure SlotTable where
  slots : Table String (List Nat)
  slotCount : Nat
  free : List Nat

namespace SlotTable

def empty : SlotTable := ⟨∅, 0, []⟩

/-- Slots for a number of chunks: the smallest free ones, then new ones. -/
def takeSlots (free : List Nat) (slotCount : Nat) : Nat → List Nat × List Nat × Nat
  | 0 => ([], free, slotCount)
  | chunks + 1 =>
    match free with
    | slot :: rest =>
      let (slots, free, slotCount) := takeSlots rest slotCount chunks
      (slot :: slots, free, slotCount)
    | [] =>
      let (slots, free, count) := takeSlots [] (slotCount + 1) chunks
      (slotCount :: slots, free, count)

def allocate (table : SlotTable) (id : String) (chunks : Nat) : SlotTable :=
  let (slots, free, slotCount) := takeSlots table.free table.slotCount chunks
  ⟨table.slots.insert id slots, slotCount, free⟩

/-- The free slots at the end leave the table. -/
def trim : Nat → List Nat → Nat × List Nat
  | 0, free => (0, free)
  | last + 1, free => if last ∈ free then trim last (free.erase last) else (last + 1, free)

def release (table : SlotTable) (id : String) : SlotTable :=
  let freed := (table.slots[id]?.getD []).foldl (fun free slot => free.orderedInsert (· ≤ ·) slot) table.free
  let (slotCount, free) := trim table.slotCount freed
  ⟨table.slots.erase id, slotCount, free⟩

/-- More than half of more than 1024 slots are free: the store indexes itself anew. -/
def sparse (table : SlotTable) : Bool :=
  decide (1024 < table.slotCount) && decide (table.slotCount / 2 < table.free.length)

/-- The slots after a document of `chunks` chunks is written, unless that indexes the store anew. -/
def put (table : SlotTable) (id : String) (chunks : Nat) : Option SlotTable :=
  match table.slots[id]? with
  | none => some (table.allocate id chunks)
  | some old =>
    if old.length = chunks then some table
    else if (table.release id).sparse then none
    else some ((table.release id).allocate id chunks)

/-- The slots after a document is removed, unless that indexes the store anew. -/
def drop (table : SlotTable) (id : String) : Option SlotTable :=
  match table.slots[id]? with
  | none => some table
  | some _ => if (table.release id).sparse then none else some (table.release id)

theorem takeSlots_nil (slotCount chunks : Nat) :
    takeSlots [] slotCount chunks = (List.range' slotCount chunks, [], slotCount + chunks) := by
  induction chunks generalizing slotCount with
  | zero => rfl
  | succ chunks ih =>
    rw [takeSlots, ih, range'_succ]
    simp only [Prod.mk.injEq, true_and]
    omega

theorem length_takeSlots (free : List Nat) (slotCount chunks : Nat) :
    (takeSlots free slotCount chunks).1.length = chunks := by
  induction chunks generalizing free slotCount with
  | zero => rfl
  | succ chunks ih =>
    cases free with
    | nil => rw [takeSlots, length_cons, ih]
    | cons slot rest => rw [takeSlots, length_cons, ih]

theorem slots_allocate (table : SlotTable) (id a : String) (chunks : Nat) :
    ((table.allocate id chunks).slots[a]?).map List.length =
      if a = id then some chunks else (table.slots[a]?).map List.length := by
  rw [allocate, Table.getElem?_insert]
  split
  · rw [Option.map_some, length_takeSlots]
  · rfl

theorem slots_release (table : SlotTable) (id a : String) :
    (table.release id).slots[a]? = if a = id then none else table.slots[a]? :=
  Table.getElem?_erase ..

end SlotTable

/-- A checkpoint as it is served: the documents in id order with their slots. It holds lexical-only
chunks, so it has no vectors. -/
structure ServingImage where
  documents : List (StoredDocument × List Nat)
  slotCount : Nat
  ordered : (documents.map fun entry => entry.1.id).Pairwise (· < ·)
  sized : ∀ entry ∈ documents, entry.2.length = entry.1.chunks.length
  lexical : ∀ entry ∈ documents, ∀ chunk ∈ entry.1.chunks, chunk.vectorState = .lexical

theorem ServingImage.distinct (image : ServingImage) : (image.documents.map fun entry => entry.1.id).Nodup :=
  image.ordered.imp fun before same => absurd (same ▸ before) (lt_irrefl _)

def ServingImage.find (image : ServingImage) (id : String) : Option StoredDocument :=
  (image.documents.find? fun entry => entry.1.id = id).map Prod.fst

/-- The checkpoint under a store and the ids of its dead documents. -/
structure Base where
  image : ServingImage
  dead : List String

namespace Base

def live (base : Base) (id : String) : Option StoredDocument :=
  if id ∈ base.dead then none else base.image.find id

def kill (base : Base) (id : String) : Base :=
  if (base.live id).isSome then { base with dead := id :: base.dead } else base

def deadIds (base : Base) : List String :=
  (base.image.documents.map fun entry => entry.1.id).filter (· ∈ base.dead)

end Base

namespace Base

theorem live_kill (base : Base) (id a : String) : (base.kill id).live a = if a = id then none else base.live a := by
  rw [kill]
  split
  next alive =>
    by_cases own : a = id
    · simp [live, own]
    · simp [live, own]
  next gone =>
    split
    next own =>
      rw [own]
      simpa using gone
    next => rfl

@[simp] theorem image_kill (base : Base) (id : String) : (base.kill id).image = base.image := by
  rw [kill]
  split <;> rfl

end Base

structure DocumentStore where
  documents : Table String StoredDocument
  table : SlotTable
  base : Option Base

namespace DocumentStore

def empty : DocumentStore := ⟨∅, .empty, none⟩

/-- A store of no documents of its own over a checkpoint. -/
def «over» (image : ServingImage) : DocumentStore := { empty with base := some ⟨image, []⟩ }

def get (store : DocumentStore) (id : String) : Option StoredDocument := store.documents[id]?

/-- The document a reader sees: the store's own, or a live one of the checkpoint. -/
def view (store : DocumentStore) (id : String) : Option StoredDocument :=
  (store.get id).or (store.base.bind (·.live id))

def containsKey (store : DocumentStore) (id : String) : Bool :=
  (store.get id).isSome || (store.base.bind (·.live id)).isSome

/-- Marks a live checkpoint document dead. -/
def killBase (store : DocumentStore) (id : String) : DocumentStore :=
  { store with base := store.base.map (·.kill id) }

/-- `install_new` of one document. -/
def install (store : DocumentStore) (document : StoredDocument) : DocumentStore :=
  { store with
    documents := store.documents.insert document.id document
    table := store.table.allocate document.id document.chunks.length }

def installNew (store : DocumentStore) (group : List StoredDocument) : DocumentStore := group.foldl install store

def values (documents : Table String StoredDocument) : List StoredDocument := documents.toList.map Prod.snd

/-- The store indexed from scratch. Distinct documents go into an empty store, so the batch insert
of the source only installs them. It starts from the default store, which has no checkpoint. -/
def reindexed (documents : Table String StoredDocument) : DocumentStore :=
  empty.installNew (values documents)

def removeWith (store : DocumentStore) (id : String) : DocumentStore × Option StoredDocument :=
  match store.get id with
  | none => (store.killBase id, none)
  | some document =>
    let documents := store.documents.erase id
    let table := store.table.release id
    (if table.sparse then reindexed documents else { store with documents, table }, some document)

def remove (store : DocumentStore) (id : String) : DocumentStore × Option StoredDocument := store.removeWith id

/-- In place when the number of chunks is the same, otherwise by removal and a new insert. -/
def replace (store : DocumentStore) (document : StoredDocument) : DocumentStore :=
  match (store.get document.id).filter fun old => decide (old.chunks.length = document.chunks.length) with
  | some _ => { store with documents := store.documents.insert document.id document }
  | none => (store.remove document.id).1.install document

/-- The loop of `insert_batch`: runs of new documents with distinct ids collect in `group`. -/
def insertLoop (store : DocumentStore) (group : List StoredDocument) (grouped : List String) :
    List StoredDocument → DocumentStore
  | [] => store.installNew group
  | document :: documents =>
    let (store, group, grouped) :=
      if document.id ∈ grouped then (store.installNew group, [], []) else (store, group, grouped)
    let grouped := document.id :: grouped
    if (store.get document.id).isSome then
      insertLoop ((store.installNew group).replace document) [] grouped documents
    else insertLoop store (group ++ [document]) grouped documents

def insertBatch (store : DocumentStore) (documents : List StoredDocument) : DocumentStore :=
  (documents.foldl (fun store document => store.killBase document.id) store).insertLoop [] [] documents

def insert (store : DocumentStore) (document : StoredDocument) : DocumentStore := store.insertBatch [document]

/-- The store a checkpoint recorded, with its slots. -/
def restore (image : ServingImage) : DocumentStore where
  documents := image.documents.foldl (fun documents entry => documents.insert entry.1.id entry.1) ∅
  table :=
    let slots : Table String (List Nat) :=
      image.documents.foldl (fun slots entry => slots.insert entry.1.id entry.2) ∅
    let owned := image.documents.flatMap Prod.snd
    ⟨slots, image.slotCount, (List.range image.slotCount).filter (· ∉ owned)⟩
  base := none

/-- The live store of a checkpoint and the store over it. -/
def hydrate (store : DocumentStore) (base : Base) : DocumentStore :=
  let restored := base.deadIds.foldl (fun store id => (store.removeWith id).1) (restore base.image)
  restored.insertBatch (values store.documents)

/-- Every chunk is lexical-only, without embedding, vector or positions. -/
def representable (store : DocumentStore) : Bool :=
  (values store.documents).all fun document => document.chunks.all fun chunk =>
    chunk.vectorState == .lexical && chunk.embedding.isNone && chunk.vector.indices.isEmpty &&
      chunk.terms.positions.isNone

/-- One document of a batch. -/
def put (store : DocumentStore) (document : StoredDocument) : DocumentStore :=
  if (store.get document.id).isSome then store.replace document else store.install document

/-- Documents under their own ids. -/
def Keyed (documents : Table String StoredDocument) : Prop :=
  ∀ (id : String) (document : StoredDocument), documents[id]? = some document → document.id = id

@[simp] theorem get_empty (id : String) : empty.get id = none := by simp [get, empty]

@[simp] theorem get_install (store : DocumentStore) (document : StoredDocument) (a : String) :
    (store.install document).get a = if a = document.id then some document else store.get a :=
  Table.getElem?_insert ..

@[simp] theorem base_install (store : DocumentStore) (document : StoredDocument) :
    (store.install document).base = store.base := rfl

@[simp] theorem base_installNew (store : DocumentStore) (group : List StoredDocument) :
    (store.installNew group).base = store.base := by
  induction group generalizing store with
  | nil => rfl
  | cons document group ih => exact ih (store.install document)

theorem get_installNew (store : DocumentStore) (group : List StoredDocument) (a : String)
    (distinct : (group.map StoredDocument.id).Nodup) :
    (store.installNew group).get a = (group.find? fun document => document.id = a).or (store.get a) := by
  have read := Table.read_foldl get (fun _ => True) (fun _ _ _ => trivial)
    (fun store document _ a => get_install store document a) distinct store trivial a
  rwa [Option.map_id'] at read

@[simp] theorem get_killBase (store : DocumentStore) (id a : String) : (store.killBase id).get a = store.get a := rfl

theorem killBase_of_bare (id : String) (bare : store.base = none) :
    store.killBase id = store := by
  obtain ⟨documents, table, base⟩ := store
  subst bare
  rfl

section

variable (keyed : Keyed documents)
include keyed

theorem values_distinct :
    ((values documents).map StoredDocument.id).Nodup := by
  have same : (values documents).map StoredDocument.id = documents.toList.map Prod.fst := by
    rw [values, map_map]
    apply map_congr_left
    rintro ⟨id, document⟩ member
    exact keyed id document ((Table.mem_toList documents id document).mp member)
  rw [same]
  exact Table.toList_keys_nodup documents

theorem mem_values (document : StoredDocument) :
    document ∈ values documents ↔ documents[document.id]? = some document := by
  rw [values, mem_map]
  constructor
  · rintro ⟨⟨id, _⟩, member, rfl⟩
    have stored := (Table.mem_toList documents id _).mp member
    rw [keyed id _ stored]
    exact stored
  · intro stored
    exact ⟨_, (Table.mem_toList documents document.id document).mpr stored, rfl⟩

theorem find?_values (a : String) :
    ((values documents).find? fun document => document.id = a) = documents[a]? := by
  apply Option.ext
  intro document
  rw [find?_key_eq_some (values_distinct keyed), mem_values keyed]
  constructor
  · rintro ⟨stored, rfl⟩
    exact stored
  · intro stored
    have own := keyed a document stored
    exact ⟨own.symm ▸ stored, own⟩

theorem get_reindexed (a : String) :
    (reindexed documents).get a = documents[a]? := by
  rw [reindexed, get_installNew _ _ _ (values_distinct keyed), find?_values keyed, get_empty, Option.or_none]

theorem Keyed.erase (id : String) :
    Keyed (documents.erase id) := by
  intro a document stored
  rw [Table.getElem?_erase] at stored
  split at stored
  next => contradiction
  next => exact keyed a document stored

theorem Keyed.insert (document : StoredDocument) :
    Keyed (documents.insert document.id document) := by
  intro a other stored
  rw [Table.getElem?_insert] at stored
  split at stored
  next own => rw [← Option.some.inj stored, own]
  next => exact keyed a other stored

theorem Keyed.of_get (same : ∀ a, store.get a = documents[a]?) : Keyed store.documents := by
  intro a document stored
  exact keyed a document ((same a).symm.trans stored)

end

theorem get_remove (store : DocumentStore) (keyed : Keyed store.documents) (id a : String) :
    (store.remove id).1.get a = if a = id then none else store.get a := by
  rw [remove, removeWith]
  split
  next absent =>
    rw [get_killBase]
    split
    next own => rw [own, absent]
    next => rfl
  next document _ =>
    have erased := Table.getElem?_erase store.documents id a
    dsimp only
    split
    next => rw [get_reindexed (keyed.erase id), erased, get]
    next => exact erased

theorem remove_snd (store : DocumentStore) (id : String) : (store.remove id).2 = store.get id := by
  rw [remove, removeWith]
  split
  next absent => exact absent.symm
  next document stored => exact stored.symm

theorem keyed_remove (keyed : Keyed store.documents) (id : String) :
    Keyed (store.remove id).1.documents :=
  (keyed.erase id).of_get fun a => by
    rw [get_remove store keyed, Table.getElem?_erase, get]

theorem get_replace (store : DocumentStore) (keyed : Keyed store.documents) (document : StoredDocument) (a : String) :
    (store.replace document).get a = if a = document.id then some document else store.get a := by
  rw [replace]
  split
  · exact Table.getElem?_insert ..
  · rw [get_install, get_remove store keyed]
    by_cases own : a = document.id <;> simp [own]

theorem get_put (store : DocumentStore) (keyed : Keyed store.documents) (document : StoredDocument) (a : String) :
    (store.put document).get a = if a = document.id then some document else store.get a := by
  rw [put]
  split
  · exact get_replace store keyed document a
  · exact get_install store document a

theorem keyed_put (keyed : Keyed store.documents) (document : StoredDocument) :
    Keyed (store.put document).documents :=
  (keyed.insert document).of_get fun a => by
    rw [get_put store keyed, Table.getElem?_insert, get]

/-- The runs of new documents that a batch installs together are installed one at a time. -/
theorem insertLoop_eq (store : DocumentStore) (group : List StoredDocument) (grouped : List String)
    (documents : List StoredDocument) (listed : ∀ document ∈ group, document.id ∈ grouped)
    (distinct : (group.map StoredDocument.id).Nodup) (fresh : ∀ document ∈ group, store.get document.id = none) :
    store.insertLoop group grouped documents = documents.foldl put (store.installNew group) := by
  induction documents generalizing store group grouped with
  | nil => rfl
  | cons document documents ih =>
    rw [foldl_cons, insertLoop]
    by_cases repeated : document.id ∈ grouped
    · rw [if_pos repeated]
      dsimp only
      split
      next stored =>
        rw [ih _ _ _ (by simp) (by simp) (by simp)]
        change documents.foldl put ((store.installNew group).replace document) = _
        rw [put, if_pos stored]
      next absent =>
        rw [ih _ _ _ (by simp) (by simp) (by simpa using absent)]
        change documents.foldl put ((store.installNew group).install document) = _
        rw [put, if_neg absent]
    · rw [if_neg repeated]
      dsimp only
      have apart : ∀ other ∈ group, other.id ≠ document.id := fun other member same =>
        repeated (same ▸ listed other member)
      have unseen : (group.find? fun other => other.id = document.id) = none :=
        find?_eq_none.mpr fun other member same => apart other member (of_decide_eq_true same)
      have shown : (store.installNew group).get document.id = store.get document.id := by
        rw [get_installNew _ _ _ distinct, unseen, Option.none_or]
      split
      next stored =>
        rw [ih _ _ _ (by simp) (by simp) (by simp)]
        change documents.foldl put ((store.installNew group).replace document) = _
        rw [put, if_pos (shown ▸ stored)]
      next absent =>
        have joined : store.installNew (group ++ [document]) = (store.installNew group).install document := by
          rw [installNew, foldl_append]
          rfl
        rw [ih store (group ++ [document]) (document.id :: grouped), joined, put, if_neg (shown ▸ absent)]
        · exact forall_mem_append.mpr
            ⟨fun other old => mem_cons_of_mem _ (listed other old), forall_mem_singleton.mpr mem_cons_self⟩
        · rw [map_append, map_singleton, ← concat_eq_append, nodup_concat]
          refine ⟨fun old => ?_, distinct⟩
          obtain ⟨other, member, same⟩ := mem_map.mp old
          exact apart other member same
        · exact forall_mem_append.mpr ⟨fresh, forall_mem_singleton.mpr (by simpa using absent)⟩

theorem put_killBase (store : DocumentStore) (document : StoredDocument) (id : String) :
    (store.killBase id).put document = (store.put document).killBase id := by
  rw [put, put, get_killBase]
  split
  next stored =>
    rw [replace, replace, get_killBase]
    split
    · rfl
    · rw [remove, remove, removeWith, removeWith, get_killBase]
      obtain ⟨old, found⟩ := Option.isSome_iff_exists.mp stored
      rw [found]
      dsimp only
      have released : (store.killBase id).table = store.table := rfl
      rw [released]
      split
      · have bare : (reindexed (store.documents.erase document.id)).base = none := base_installNew ..
        have installed : ((reindexed (store.documents.erase document.id)).install document).base = none := bare
        exact (killBase_of_bare id installed).symm
      · rfl
  next => rfl

theorem insert_eq (store : DocumentStore) (document : StoredDocument) :
    store.insert document = (store.killBase document.id).put document := by
  rw [insert, insertBatch, insertLoop_eq _ _ _ _ (by simp) (by simp) (by simp)]
  rfl

theorem insertBatch_eq (store : DocumentStore) (documents : List StoredDocument) :
    store.insertBatch documents = documents.foldl insert store := by
  have killed (store : DocumentStore) (document : StoredDocument) (others : List StoredDocument) :
      (others.foldl (fun store other => store.killBase other.id) store).put document =
        others.foldl (fun store other => store.killBase other.id) (store.put document) := by
    induction others generalizing store with
    | nil => rfl
    | cons other others ih => rw [foldl_cons, ih, put_killBase, foldl_cons]
  rw [insertBatch, insertLoop_eq _ _ _ _ (by simp) (by simp) (by simp)]
  rw [show ∀ store : DocumentStore, store.installNew [] = store from fun _ => rfl]
  induction documents generalizing store with
  | nil => rfl
  | cons document documents ih =>
    rw [foldl_cons, foldl_cons, foldl_cons, killed, ih, insert_eq]

theorem get_insert (store : DocumentStore) (keyed : Keyed store.documents) (document : StoredDocument) (a : String) :
    (store.insert document).get a = if a = document.id then some document else store.get a := by
  rw [insert_eq, get_put (store.killBase document.id) keyed, get_killBase]

theorem keyed_insert (keyed : Keyed store.documents) (document : StoredDocument) :
    Keyed (store.insert document).documents := by
  rw [insert_eq]
  have unchanged : Keyed (store.killBase document.id).documents := keyed
  exact keyed_put unchanged document

end DocumentStore

end Warm
