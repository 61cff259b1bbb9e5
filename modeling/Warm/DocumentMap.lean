import Warm.DocumentOverlay

/-! A change of every document that keeps ids and chunk counts commutes with what a document store does: slots,
checkpoints and the order of the documents depend on nothing else. -/
namespace Warm

open List

namespace DocumentStore

/-- The change keeps the id and the number of chunks. -/
structure Keeps (f : StoredDocument → StoredDocument) : Prop where
  id : ∀ document, (f document).id = document.id
  chunks : ∀ document, (f document).chunks.length = document.chunks.length

def mapDocuments (f : StoredDocument → StoredDocument) (store : DocumentStore) : DocumentStore :=
  { store with documents := store.documents.map fun _ document => f document }

variable {f : StoredDocument → StoredDocument} {store : DocumentStore}

section

variable (documents : Table String StoredDocument)
include documents

theorem map_insert (id : String) (document : StoredDocument) :
    (documents.insert id document).map (fun _ document => f document) =
      (documents.map fun _ document => f document).insert id (f document) := by
  apply Std.ExtTreeMap.ext_getElem?
  intro a
  rw [Std.ExtTreeMap.getElem?_map, Table.getElem?_insert, Table.getElem?_insert, Std.ExtTreeMap.getElem?_map]
  split <;> rfl

theorem map_erase (id : String) :
    (documents.erase id).map (fun _ document => f document) =
      (documents.map fun _ document => f document).erase id := by
  apply Std.ExtTreeMap.ext_getElem?
  intro a
  rw [Std.ExtTreeMap.getElem?_map, Table.getElem?_erase, Table.getElem?_erase, Std.ExtTreeMap.getElem?_map]
  split <;> rfl

theorem values_map :
    values (documents.map fun _ document => f document) = (values documents).map f := by
  rw [values, values, Std.ExtTreeMap.toList_map, List.map_map, List.map_map]
  rfl

end

@[simp] theorem get_mapDocuments (id : String) : (store.mapDocuments f).get id = (store.get id).map f :=
  Std.ExtTreeMap.getElem?_map

theorem mapDocuments_killBase (id : String) : (store.killBase id).mapDocuments f = (store.mapDocuments f).killBase id := rfl

section

variable (keeps : Keeps f)
include keeps

theorem mapDocuments_install (document : StoredDocument) :
    (store.install document).mapDocuments f = (store.mapDocuments f).install (f document) := by
  simp only [install, mapDocuments, keeps.id, keeps.chunks, map_insert]

theorem mapDocuments_installNew (group : List StoredDocument) :
    (store.installNew group).mapDocuments f = (store.mapDocuments f).installNew (group.map f) := by
  induction group generalizing store with
  | nil => rfl
  | cons document group ih =>
    rw [installNew, foldl_cons, ← installNew, ih, mapDocuments_install keeps]
    rfl

theorem mapDocuments_reindexed (documents : Table String StoredDocument) :
    (reindexed documents).mapDocuments f = reindexed (documents.map fun _ document => f document) := by
  rw [reindexed, reindexed, mapDocuments_installNew keeps, values_map]
  congr 1

theorem mapDocuments_remove (id : String) :
    (store.remove id).1.mapDocuments f = ((store.mapDocuments f).remove id).1 := by
  rw [remove, removeWith, remove, removeWith, get_mapDocuments]
  cases store.get id with
  | none => rfl
  | some document =>
    dsimp only [Option.map_some, mapDocuments]
    split
    · exact (mapDocuments_reindexed keeps _).trans (by rw [map_erase])
    · rw [map_erase]

theorem mapDocuments_put (document : StoredDocument) :
    (store.put document).mapDocuments f = (store.mapDocuments f).put (f document) := by
  rw [put, put, get_mapDocuments, keeps.id, Option.isSome_map]
  split
  · rw [replace, replace, keeps.id, get_mapDocuments]
    cases store.get document.id with
    | none => rw [Option.filter_none, Option.map_none, Option.filter_none, mapDocuments_install keeps, mapDocuments_remove keeps]
    | some old =>
      rw [Option.map_some, Option.filter_some, Option.filter_some, keeps.chunks, keeps.chunks]
      by_cases same : old.chunks.length = document.chunks.length
      · rw [if_pos (decide_eq_true same), if_pos (decide_eq_true same)]
        simp only [mapDocuments, map_insert]
      · rw [if_neg (by simpa using same), if_neg (by simpa using same)]
        rw [mapDocuments_install keeps, mapDocuments_remove keeps]
  · exact mapDocuments_install keeps document

theorem mapDocuments_insert (document : StoredDocument) :
    (store.insert document).mapDocuments f = (store.mapDocuments f).insert (f document) := by
  rw [insert_eq, insert_eq, mapDocuments_put keeps, mapDocuments_killBase, keeps.id]

theorem mapDocuments_insertBatch (documents : List StoredDocument) :
    (store.insertBatch documents).mapDocuments f = (store.mapDocuments f).insertBatch (documents.map f) := by
  rw [insertBatch_eq, insertBatch_eq]
  induction documents generalizing store with
  | nil => rfl
  | cons document documents ih => rw [foldl_cons, ih, mapDocuments_insert keeps, map_cons, foldl_cons]

end

theorem Valid.mapDocuments (valid : Valid store) (keeps : Keeps f) : Valid (store.mapDocuments f) where
  keyed := by
    intro id document found
    obtain ⟨old, stored, rfl⟩ := Option.map_eq_some_iff.mp ((get_mapDocuments id).symm.trans found)
    rw [keeps.id]
    exact valid.keyed id old stored
  sized := by
    intro id
    rw [get_mapDocuments, Option.map_map]
    refine (valid.sized id).trans (congrArg (Option.map · _) ?_)
    funext document
    exact (keeps.chunks document).symm
  shadowed := by
    intro id base own atop
    rw [get_mapDocuments, Option.isSome_map] at own
    exact valid.shadowed id base own atop

theorem insert_self (valid : Valid store) (stored : store.get document.id = some document) :
    store.insert document = store := by
  have placed : store.table.put document.id document.chunks.length = some store.table := by
    have count := valid.sized document.id
    rw [stored, Option.map_some] at count
    obtain ⟨slots, found, size⟩ := Option.map_eq_some_iff.mp count
    rw [SlotTable.put, found]
    dsimp only
    rw [if_pos size]
  have same : store.documents.insert document.id document = store.documents := by
    apply Std.ExtTreeMap.ext_getElem?
    intro a
    rw [Table.getElem?_insert]
    split
    next own =>
      rw [own]
      exact stored.symm
    next => rfl
  have unkilled : store.base.map (·.kill document.id) = store.base := by
    cases atop : store.base with
    | none => rfl
    | some base =>
      rw [Option.map_some, Base.kill, valid.shadowed document.id base (by rw [stored]; rfl) atop]
      rfl
  rw [insert_of_put valid.sized document placed, same, unkilled]

theorem mapDocuments_eq_self (fixed : ∀ id document, store.get id = some document → f document = document) :
    store.mapDocuments f = store := by
  obtain ⟨documents, table, base⟩ := store
  simp only [mapDocuments, DocumentStore.mk.injEq, and_true]
  apply Std.ExtTreeMap.ext_getElem?
  intro id
  rw [Std.ExtTreeMap.getElem?_map]
  cases stored : documents[id]? with
  | none => rfl
  | some document => rw [Option.map_some, fixed id document stored]

theorem mapDocuments_hydrate (keeps : Keeps f) (base : Base) (fixed : ∀ entry ∈ base.image.documents, f entry.1 = entry.1) :
    (store.hydrate base).mapDocuments f = (store.mapDocuments f).hydrate base := by
  have restored : (restore base.image).mapDocuments f = restore base.image := by
    have same (documents : Table String StoredDocument) (entries : List (StoredDocument × List Nat))
        (fixed : ∀ entry ∈ entries, f entry.1 = entry.1) :
        (entries.foldl (fun documents entry => documents.insert entry.1.id entry.1) documents).map
            (fun _ document => f document) =
          entries.foldl (fun documents entry => documents.insert entry.1.id entry.1)
            (documents.map fun _ document => f document) := by
      induction entries generalizing documents with
      | nil => rfl
      | cons entry entries ih =>
        rw [foldl_cons, foldl_cons, ih _ (forall_mem_cons.mp fixed).2,
          map_insert, fixed entry mem_cons_self]
    simp only [mapDocuments, restore, DocumentStore.mk.injEq, and_true]
    exact same ∅ base.image.documents fixed
  have removed (store : DocumentStore) (ids : List String) :
      (ids.foldl (fun store id => (store.removeWith id).1) store).mapDocuments f =
        ids.foldl (fun store id => (store.removeWith id).1) (store.mapDocuments f) := by
    induction ids generalizing store with
    | nil => rfl
    | cons id ids ih =>
      have first : (store.removeWith id).1.mapDocuments f = ((store.mapDocuments f).removeWith id).1 :=
        mapDocuments_remove keeps id
      rw [foldl_cons, foldl_cons, ih, first]
  rw [hydrate, hydrate, mapDocuments_insertBatch keeps, removed, restored]
  congr 1
  exact (values_map _).symm

end DocumentStore

end Warm
