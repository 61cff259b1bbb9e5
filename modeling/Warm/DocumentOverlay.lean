import Warm.DocumentStore

/-! What a document store shows: its own documents and the live ones of the checkpoint under it.
Writes and removals change one document; only a store over a checkpoint that indexes itself anew
loses the checkpoint, and with it every document it did not hold itself. -/
namespace Warm

open List

namespace DocumentStore

variable {store : DocumentStore}

def Sized (store : DocumentStore) : Prop :=
  ∀ id, (store.table.slots[id]?).map List.length = (store.get id).map fun document => document.chunks.length

def Shadowed (store : DocumentStore) : Prop :=
  ∀ id base, (store.get id).isSome = true → store.base = some base → base.live id = none

structure Valid (store : DocumentStore) : Prop where
  keyed : Keyed store.documents
  sized : Sized store
  shadowed : Shadowed store

theorem Sized.install (sized : Sized store) (document : StoredDocument) : Sized (store.install document) := by
  intro id
  rw [get_install, DocumentStore.install, SlotTable.slots_allocate]
  split
  · rfl
  · exact sized id

theorem Sized.installNew (sized : Sized store) (group : List StoredDocument) : Sized (store.installNew group) := by
  induction group generalizing store with
  | nil => exact sized
  | cons document group ih => exact ih (sized.install document)

theorem sized_empty : Sized empty := by
  intro id
  simp [empty, SlotTable.empty, get]

theorem Sized.remove (sized : Sized store) (id : String) : Sized (store.remove id).1 := by
  rw [DocumentStore.remove, removeWith]
  split
  next => exact sized
  next =>
    dsimp only
    split
    next => exact sized_empty.installNew _
    next =>
      intro a
      rw [get, SlotTable.slots_release, Table.getElem?_erase]
      split
      · rfl
      · exact sized a

theorem Sized.put (sized : Sized store) (document : StoredDocument) : Sized (store.put document) := by
  rw [DocumentStore.put]
  split
  next =>
    rw [replace]
    split
    next old found =>
      obtain ⟨stored, same⟩ := Option.filter_eq_some_iff.mp found
      intro a
      rw [get, Table.getElem?_insert]
      split
      next own =>
        have count := sized a
        rw [own, stored, Option.map_some, of_decide_eq_true same] at count
        rw [own]
        exact count
      next => exact sized a
    next => exact (sized.remove document.id).install document
  next => exact sized.install document

theorem base_remove (bare : store.base = none) (id : String) :
    (store.remove id).1.base = none := by
  rw [remove, removeWith]
  split
  next => rw [killBase_of_bare id bare, bare]
  next =>
    dsimp only
    split
    next => exact base_installNew ..
    next => exact bare

theorem base_remove_cases (store : DocumentStore) (id : String) :
    (store.remove id).1.base = none ∨ (store.remove id).1.base = store.base ∨
      (store.remove id).1.base = store.base.map (·.kill id) := by
  rw [remove, removeWith]
  split
  next => exact .inr (.inr rfl)
  next =>
    dsimp only
    split
    next => exact .inl (base_installNew ..)
    next => exact .inr (.inl rfl)

theorem base_put_cases (store : DocumentStore) (document : StoredDocument) :
    (store.put document).base = none ∨ (store.put document).base = store.base := by
  rw [put]
  split
  next stored =>
    rw [replace]
    split
    next => exact .inr rfl
    next =>
      rw [base_install, remove, removeWith]
      split
      next absent =>
        rw [absent] at stored
        contradiction
      next =>
        dsimp only
        split
        next => exact .inl (base_installNew ..)
        next => exact .inr rfl
  next => exact .inr rfl

theorem image_remove {id : String} {base : Base} (atop : (store.remove id).1.base = some base) :
    ∃ old, store.base = some old ∧ base.image = old.image := by
  rcases base_remove_cases store id with lost | kept | killed
  · rw [lost] at atop
    contradiction
  · exact ⟨base, kept ▸ atop, rfl⟩
  · rw [killed] at atop
    obtain ⟨old, found, rfl⟩ := Option.map_eq_some_iff.mp atop
    exact ⟨old, found, Base.image_kill old id⟩

theorem killed_of_insert {base : Base} (atop : (store.insert document).base = some base) :
    ∃ old, store.base = some old ∧ old.kill document.id = base := by
  rw [insert_eq] at atop
  rcases base_put_cases (store.killBase document.id) document with lost | kept
  · rw [lost] at atop
    contradiction
  · rw [kept] at atop
    exact Option.map_eq_some_iff.mp atop

theorem image_insert {base : Base} (atop : (store.insert document).base = some base) :
    ∃ old, store.base = some old ∧ base.image = old.image := by
  obtain ⟨old, found, rfl⟩ := killed_of_insert atop
  exact ⟨old, found, Base.image_kill old document.id⟩

theorem Shadowed.remove (shadowed : Shadowed store) (keyed : Keyed store.documents) (id : String) :
    Shadowed (store.remove id).1 := by
  intro a base shown atop
  rw [get_remove store keyed] at shown
  have own : (store.get a).isSome = true := by
    split at shown
    · contradiction
    · exact shown
  rcases base_remove_cases store id with lost | kept | killed
  · rw [lost] at atop
    contradiction
  · exact shadowed a base own (kept ▸ atop)
  · rw [killed] at atop
    obtain ⟨old, found, rfl⟩ := Option.map_eq_some_iff.mp atop
    rw [Base.live_kill, shadowed a old own found, ite_self]

theorem Shadowed.insert (shadowed : Shadowed store) (keyed : Keyed store.documents) (document : StoredDocument) :
    Shadowed (store.insert document) := by
  intro a base shown atop
  rw [get_insert store keyed] at shown
  obtain ⟨old, found, rfl⟩ := killed_of_insert atop
  rw [Base.live_kill]
  split at shown
  next own => rw [if_pos own]
  next => rw [shadowed a old shown found, ite_self]

theorem Valid.remove (valid : Valid store) (id : String) : Valid (store.remove id).1 :=
  ⟨keyed_remove valid.keyed id, valid.sized.remove id, valid.shadowed.remove valid.keyed id⟩

theorem Valid.insert (valid : Valid store) (document : StoredDocument) : Valid (store.insert document) := by
  refine ⟨keyed_insert valid.keyed document, ?_, valid.shadowed.insert valid.keyed document⟩
  rw [insert_eq]
  have sized : Sized (store.killBase document.id) := valid.sized
  exact sized.put document

theorem Valid.insertBatch (valid : Valid store) (documents : List StoredDocument) :
    Valid (store.insertBatch documents) := by
  rw [insertBatch_eq]
  induction documents generalizing store with
  | nil => exact valid
  | cons document documents ih => exact ih (valid.insert document)

theorem valid_over (image : ServingImage) : Valid (DocumentStore.over image) := by
  refine ⟨?_, sized_empty, ?_⟩
  · intro id document stored
    simp [DocumentStore.over, empty] at stored
  · intro id base shown
    have absent : (DocumentStore.over image).get id = none := get_empty id
    rw [absent] at shown
    contradiction

theorem valid_empty : Valid empty :=
  ⟨fun id document stored => by simp [empty] at stored, sized_empty, fun id base _ atop => by contradiction⟩

theorem insert_of_put {table : SlotTable} (sized : Sized store) (document : StoredDocument)
    (placed : store.table.put document.id document.chunks.length = some table) :
    store.insert document =
      ⟨store.documents.insert document.id document, table, store.base.map (·.kill document.id)⟩ := by
  rw [insert_eq, put, get_killBase]
  have count := sized document.id
  rw [SlotTable.put] at placed
  cases stored : store.get document.id with
  | none =>
    rw [stored, Option.map_none, Option.map_eq_none_iff] at count
    rw [count] at placed
    rw [if_neg (by simp), ← Option.some.inj placed]
    rfl
  | some old =>
    rw [stored, Option.map_some] at count
    obtain ⟨slots, found, size⟩ := Option.map_eq_some_iff.mp count
    rw [found] at placed
    dsimp only at placed
    rw [if_pos (by rfl), replace, get_killBase, stored]
    by_cases same : old.chunks.length = document.chunks.length
    · rw [if_pos (size.trans same)] at placed
      rw [Option.filter_some, if_pos (decide_eq_true same), ← Option.some.inj placed]
      rfl
    · rw [if_neg (size ▸ same)] at placed
      rw [Option.filter_some, if_neg (by simpa using same)]
      split at placed
      next => contradiction
      next dense =>
        have released : (store.killBase document.id).table = store.table := rfl
        rw [remove, removeWith, get_killBase, stored]
        dsimp only
        rw [released, if_neg dense, ← Option.some.inj placed]
        simp only [install, killBase, DocumentStore.mk.injEq, and_true]
        apply Std.ExtTreeMap.ext_getElem?
        intro a
        rw [Table.getElem?_insert, Table.getElem?_insert, Table.getElem?_erase]
        split <;> rfl

theorem remove_of_drop {table : SlotTable} (valid : Valid store) (id : String)
    (dropped : store.table.drop id = some table) :
    (store.remove id).1 = ⟨store.documents.erase id, table, store.base.map (·.kill id)⟩ := by
  have count := valid.sized id
  rw [SlotTable.drop] at dropped
  rw [remove, removeWith]
  cases stored : store.get id with
  | none =>
    rw [stored, Option.map_none, Option.map_eq_none_iff] at count
    rw [count] at dropped
    have same : store.documents.erase id = store.documents := by
      apply Std.ExtTreeMap.ext_getElem?
      intro a
      rw [Table.getElem?_erase]
      split
      next own =>
        rw [own]
        exact stored.symm
      next => rfl
    rw [same, ← Option.some.inj dropped]
    rfl
  | some old =>
    rw [stored, Option.map_some] at count
    obtain ⟨slots, found, _⟩ := Option.map_eq_some_iff.mp count
    rw [found] at dropped
    dsimp only at dropped ⊢
    split at dropped
    next => contradiction
    next dense =>
      rw [if_neg dense, ← Option.some.inj dropped]
      simp only [DocumentStore.mk.injEq, true_and]
      cases atop : store.base with
      | none => rfl
      | some base =>
        -- The document hides no live one, so there is nothing to kill.
        rw [Option.map_some, Base.kill, if_neg]
        rw [valid.shadowed id base (by rw [stored]; rfl) atop]
        simp

theorem remove_of_sparse (sized : Sized store) (id : String) (reset : store.table.drop id = none) :
    (store.remove id).1 = reindexed (store.documents.erase id) := by
  have count := sized id
  rw [SlotTable.drop] at reset
  split at reset
  next => contradiction
  next slots found =>
    rw [found, Option.map_some] at count
    obtain ⟨document, stored, _⟩ := Option.map_eq_some_iff.mp count.symm
    split at reset
    next sparse =>
      rw [remove, removeWith, stored]
      dsimp only
      rw [if_pos sparse]
    next => contradiction

theorem view_of_bare (bare : store.base = none) (a : String) : store.view a = store.get a := by
  rw [view, bare, Option.bind_none, Option.or_none]

theorem view_cases {document : StoredDocument} (shown : store.view a = some document) :
    store.get a = some document ∨ ∃ base, store.base = some base ∧ ∃ entry ∈ base.image.documents, entry.1 = document := by
  rw [view] at shown
  cases stored : store.get a with
  | some own =>
    rw [stored, Option.some_or] at shown
    exact .inl shown
  | none =>
    rw [stored, Option.none_or] at shown
    obtain ⟨base, atop, shown⟩ := Option.bind_eq_some_iff.mp shown
    rw [Base.live] at shown
    split at shown
    · contradiction
    · obtain ⟨entry, found, same⟩ := Option.map_eq_some_iff.mp shown
      exact .inr ⟨base, atop, entry, mem_of_find?_eq_some found, same⟩

theorem view_of_get {document : StoredDocument} (stored : store.get a = some document) :
    store.view a = some document := by
  rw [view, stored, Option.some_or]

theorem base_insert (bare : store.base = none) (document : StoredDocument) :
    (store.insert document).base = none := by
  rw [insert_eq, killBase_of_bare _ bare]
  rcases base_put_cases store document with lost | kept
  · exact lost
  · rw [kept, bare]

theorem view_insert (valid : Valid store) (document : StoredDocument)
    (kept : store.base = none ∨ (store.table.put document.id document.chunks.length).isSome = true) (a : String) :
    (store.insert document).view a = if a = document.id then some document else store.view a := by
  rcases kept with bare | placed
  · rw [view_of_bare (base_insert bare document), get_insert store valid.keyed, view_of_bare bare]
  · obtain ⟨table, placed⟩ := Option.isSome_iff_exists.mp placed
    rw [view, get_insert store valid.keyed, insert_of_put valid.sized document placed, Option.bind_map]
    split
    · rfl
    next apart =>
      rw [view]
      cases store.base with
      | none => rfl
      | some base => rw [Option.bind_some, Option.bind_some, Function.comp_apply, Base.live_kill, if_neg apart]

theorem view_remove (valid : Valid store) (id : String)
    (kept : store.base = none ∨ (store.table.drop id).isSome = true) (a : String) :
    (store.remove id).1.view a = if a = id then none else store.view a := by
  rcases kept with bare | dropped
  · rw [view_of_bare (base_remove bare id), get_remove store valid.keyed, view_of_bare bare]
  · obtain ⟨table, dropped⟩ := Option.isSome_iff_exists.mp dropped
    rw [view, get_remove store valid.keyed, remove_of_drop valid id dropped, Option.bind_map]
    cases atop : store.base with
    | none =>
      rw [view, atop]
      split <;> rfl
    | some base =>
      rw [Option.bind_some, Function.comp_apply, Base.live_kill, view, atop, Option.bind_some]
      split <;> rfl

theorem get_foldl_remove (keyed : Keyed store.documents) (ids : List String) (a : String) :
    (ids.foldl (fun store id => (store.remove id).1) store).get a = if a ∈ ids then none else store.get a := by
  induction ids generalizing store with
  | nil => rfl
  | cons id ids ih =>
    rw [foldl_cons, ih (keyed_remove keyed id), get_remove store keyed]
    by_cases later : a ∈ ids
    · simp [later]
    · by_cases own : a = id <;> simp [later, own]

theorem get_foldl_insert (keyed : Keyed store.documents) {documents : List StoredDocument}
    (distinct : (documents.map StoredDocument.id).Nodup) (a : String) :
    (documents.foldl insert store).get a = (documents.find? fun document => document.id = a).or (store.get a) := by
  have read := Table.read_foldl get (fun store => Keyed store.documents) (fun _ document keyed => keyed_insert keyed document)
    (fun store document keyed a => get_insert store keyed document a) distinct store keyed a
  rwa [Option.map_id'] at read

theorem get_restore (image : ServingImage) (a : String) : (restore image).get a = image.find a := by
  have found := Table.getElem?_foldl_insert (fun entry : StoredDocument × List Nat => entry.1.id)
    Prod.fst image.distinct ∅ a
  rw [get, restore]
  exact found.trans (by simp [ServingImage.find])

theorem keyed_restore (image : ServingImage) : Keyed (restore image).documents := by
  intro a document stored
  change (restore image).get a = some document at stored
  rw [get_restore, ServingImage.find] at stored
  obtain ⟨entry, found, rfl⟩ := Option.map_eq_some_iff.mp stored
  have own := find?_some found
  exact of_decide_eq_true own

theorem sized_restore (image : ServingImage) : Sized (restore image) := by
  intro a
  have found := Table.getElem?_foldl_insert (fun entry : StoredDocument × List Nat => entry.1.id)
    Prod.snd image.distinct ∅ a
  have slots : (restore image).table.slots[a]? =
      (image.documents.find? fun entry => entry.1.id = a).map Prod.snd := found.trans (by simp)
  rw [slots, get_restore, ServingImage.find, Option.map_map, Option.map_map]
  cases entry : image.documents.find? fun entry => entry.1.id = a with
  | none => rfl
  | some entry' => exact congrArg some (image.sized entry' (mem_of_find?_eq_some entry))

theorem mem_deadIds (base : Base) (a : String) :
    a ∈ base.deadIds ↔ a ∈ base.dead ∧ (base.image.find a).isSome = true := by
  rw [Base.deadIds, mem_filter, mem_map, ServingImage.find, Option.isSome_map, find?_isSome]
  simp only [decide_eq_true_eq]
  tauto

theorem get_hydrate {base : Base} (keyed : Keyed store.documents) (atop : store.base = some base)
    (a : String) : (store.hydrate base).get a = store.view a := by
  have pruned : Keyed (base.deadIds.foldl (fun store id => (store.remove id).1) (restore base.image)).documents := by
    have kept (ids : List String) (store : DocumentStore) (keyed : Keyed store.documents) :
        Keyed (ids.foldl (fun store id => (store.remove id).1) store).documents := by
      induction ids generalizing store with
      | nil => exact keyed
      | cons id ids ih => exact ih _ (keyed_remove keyed id)
    exact kept _ _ (keyed_restore base.image)
  rw [hydrate, insertBatch_eq]
  refine (get_foldl_insert pruned (values_distinct keyed) a).trans ?_
  rw [find?_values keyed, get_foldl_remove (keyed_restore base.image), get_restore, view, atop, Option.bind_some, Base.live]
  congr 1
  by_cases dead : a ∈ base.dead
  · cases found : base.image.find a with
    | none => simp [dead]
    | some document => simp [mem_deadIds, dead, found]
  · simp [mem_deadIds, dead]

theorem base_hydrate (store : DocumentStore) (base : Base) : (store.hydrate base).base = none := by
  have removed (ids : List String) (store : DocumentStore) (bare : store.base = none) :
      (ids.foldl (fun store id => (store.remove id).1) store).base = none := by
    induction ids generalizing store with
    | nil => exact bare
    | cons id ids ih => exact ih _ (base_remove bare id)
  have inserted (documents : List StoredDocument) (store : DocumentStore) (bare : store.base = none) :
      (documents.foldl insert store).base = none := by
    induction documents generalizing store with
    | nil => exact bare
    | cons document documents ih => exact ih _ (base_insert bare document)
  rw [hydrate, insertBatch_eq]
  exact inserted _ _ (removed _ _ rfl)

theorem view_hydrate {base : Base} (keyed : Keyed store.documents) (atop : store.base = some base)
    (a : String) : (store.hydrate base).view a = store.view a := by
  rw [view_of_bare (base_hydrate store base), get_hydrate keyed atop]

theorem valid_hydrate (store : DocumentStore) (base : Base) : Valid (store.hydrate base) := by
  have restored : Valid (restore base.image) :=
    ⟨keyed_restore base.image, sized_restore base.image, fun id other _ atop => by contradiction⟩
  have removed (ids : List String) (store : DocumentStore) (valid : Valid store) :
      Valid (ids.foldl (fun store id => (store.remove id).1) store) := by
    induction ids generalizing store with
    | nil => exact valid
    | cons id ids ih => exact ih _ (valid.remove id)
  exact (removed base.deadIds _ restored).insertBatch _

end DocumentStore

end Warm
