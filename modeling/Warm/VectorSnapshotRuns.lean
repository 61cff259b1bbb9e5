import Warm.VectorSnapshot

/-! What every run of mutations keeps of the store: handles are of allocated documents under their
ids, the marked ids are those with embeddings, and only a mutation that advances the generation
changes the documents. -/
namespace Warm.VectorSnapshot

open List

/-- The handle is of an allocated document whose embeddings fit the space. -/
structure Admitted (dim : Nat) (heap : List StoredDocument) (shared : Shared) : Prop where
  allocated : heap[shared.address]? = some shared.document
  fits : ∀ chunk ∈ shared.document.chunks, ∀ embedding ∈ chunk.embedding, embedding.length = dim

theorem Admitted.grow (admitted : Admitted dim heap shared) (grown : heap <+: heap') : Admitted dim heap' shared := by
  refine ⟨?_, admitted.fits⟩
  obtain ⟨more, rfl⟩ := grown
  have inside := (List.getElem?_eq_some_iff.mp admitted.allocated).1
  rw [getElem?_append_left inside, admitted.allocated]

theorem Admitted.same (admitted : Admitted dim heap a) (admitted' : Admitted dim heap b)
    (address : a.address = b.address) : a = b := by
  have document : a.document = b.document :=
    Option.some.inj (admitted.allocated.symm.trans (address ▸ admitted'.allocated))
  cases a
  cases b
  simp_all

structure Sound (dim : Nat) (store : Store) : Prop where
  keyed : ∀ (id : String) (shared : Shared), store.documents[id]? = some shared → shared.document.id = id
  admitted : ∀ (id : String) (shared : Shared), store.documents[id]? = some shared → Admitted dim store.heap shared
  marked : ∀ id : String, store.embeddedDocuments[id]? = some () ↔
    ∃ shared : Shared, store.documents[id]? = some shared ∧ embedded shared.document = true

structure Later (store later : Store) : Prop where
  heap : store.heap <+: later.heap
  generation : store.generation ≤ later.generation
  same : later.generation = store.generation → later.documents = store.documents

theorem Later.refl (store : Store) : Later store store := ⟨prefix_rfl, Nat.le_refl _, fun _ => rfl⟩

theorem Later.trans (first : Later a b) (second : Later b c) : Later a c where
  heap := first.heap.trans second.heap
  generation := Nat.le_trans first.generation second.generation
  same same := by
    have := first.generation
    have := second.generation
    rw [second.same (by omega), first.same (by omega)]

section Tables

variable {dim : Nat} {store : Store} {shared : Shared}

theorem documents_install (id : String) :
    (store.install shared).documents[id]? = if id = shared.document.id then some shared else store.documents[id]? :=
  Table.getElem?_insert ..

theorem sound_install (sound : Sound dim store) (admitted : Admitted dim store.heap shared)
    (absent : store.documents[shared.document.id]? = none) : Sound dim (store.install shared) where
  keyed id other found := by
    rw [documents_install] at found
    split at found
    next own =>
      cases found
      exact own.symm
    next => exact sound.keyed id other found
  admitted id other found := by
    rw [documents_install] at found
    split at found
    next =>
      cases found
      exact admitted
    next => exact sound.admitted id other found
  marked id := by
    have before := sound.marked id
    rw [documents_install]
    change (if embedded shared.document then _ else _ : Table String Unit)[id]? = some () ↔ _
    by_cases own : id = shared.document.id
    · subst own
      rw [absent] at before
      cases marks : embedded shared.document <;> simp [marks, before]
    · cases marks : embedded shared.document <;> simp [own, Table.getElem?_insert, before]

theorem later_install : Later store (store.install shared) where
  heap := prefix_rfl
  generation := Nat.le_succ _
  same same := absurd same (Nat.succ_ne_self _)

theorem sound_replaceShared (sound : Sound dim store) (admitted : Admitted dim store.heap shared)
    (held : store.documents[shared.document.id]? = some previous) : Sound dim (store.replaceShared previous shared) := by
  have documents (id : String) : (store.replaceShared previous shared).documents[id]? =
      if id = shared.document.id then some shared else store.documents[id]? := Table.getElem?_insert ..
  refine ⟨fun id other found => ?_, fun id other found => ?_, fun id => ?_⟩
  · rw [documents] at found
    split at found
    next own =>
      cases found
      exact own.symm
    next => exact sound.keyed id other found
  · rw [documents] at found
    split at found
    next =>
      cases found
      exact admitted
    next => exact sound.admitted id other found
  · have before := sound.marked id
    rw [documents]
    change (if _ then _ else if _ then _ else _ : Table String Unit)[id]? = some () ↔ _
    by_cases own : id = shared.document.id
    · subst own
      rw [held] at before
      cases old : embedded previous.document <;> cases new : embedded shared.document <;>
        simp [old, new, before]
    · cases old : embedded previous.document <;> cases new : embedded shared.document <;>
        simp [own, Table.getElem?_insert, Table.getElem?_erase, before]

theorem later_replaceShared : Later store (store.replaceShared previous shared) where
  heap := prefix_rfl
  generation := Nat.le_succ _
  same same := absurd same (Nat.succ_ne_self _)

theorem documents_unlink (id : String) :
    (store.unlink shared).documents[id]? = if id = shared.document.id then none else store.documents[id]? :=
  Table.getElem?_erase ..

theorem sound_unlink (sound : Sound dim store) (held : store.documents[shared.document.id]? = some shared) :
    Sound dim (store.unlink shared) where
  keyed id other found := by
    rw [documents_unlink, Option.ite_none_left_eq_some] at found
    exact sound.keyed id other found.2
  admitted id other found := by
    rw [documents_unlink, Option.ite_none_left_eq_some] at found
    exact sound.admitted id other found.2
  marked id := by
    have before := sound.marked id
    rw [documents_unlink]
    change (if embedded shared.document then _ else _ : Table String Unit)[id]? = some () ↔ _
    by_cases own : id = shared.document.id
    · subst own
      rw [held] at before
      cases marks : embedded shared.document <;> simp [marks, before]
    · cases marks : embedded shared.document <;> simp [own, Table.getElem?_erase, before]

theorem later_unlink : Later store (store.unlink shared) where
  heap := prefix_rfl
  generation := Nat.le_succ _
  same same := absurd same (Nat.succ_ne_self _)

end Tables

section Steps

variable {dim : Nat} {store : Store}

theorem mem_values (shared : Shared) (sound : Sound dim store) :
    shared ∈ store.values ↔ store.documents[shared.document.id]? = some shared := by
  rw [Store.values, mem_map]
  constructor
  · rintro ⟨⟨id, held⟩, member, rfl⟩
    have found := (Table.mem_toList _ _ _).mp member
    rwa [sound.keyed id held found]
  · intro found
    exact ⟨(shared.document.id, shared), (Table.mem_toList _ _ _).mpr found, rfl⟩

theorem values_distinct (sound : Sound dim store) : (store.values.map fun shared => shared.document.id).Nodup := by
  have keys := Table.toList_keys_nodup store.documents
  have same : store.values.map (fun shared => shared.document.id) = store.documents.toList.map Prod.fst := by
    rw [Store.values, map_map]
    refine map_congr_left ?_
    rintro ⟨id, shared⟩ member
    exact sound.keyed id shared ((Table.mem_toList _ _ _).mp member)
  rw [same]
  exact keys

theorem later_allocate (document : StoredDocument) : Later store (store.allocate document).2 :=
  ⟨prefix_append _ _, Nat.le_refl _, fun _ => rfl⟩

theorem sound_allocate (sound : Sound dim store) (document : StoredDocument) : Sound dim (store.allocate document).2 :=
  ⟨sound.keyed, fun id shared found => (sound.admitted id shared found).grow (prefix_append _ _), sound.marked⟩

theorem admitted_allocate (document : StoredDocument)
    (fits : ∀ chunk ∈ document.chunks, ∀ embedding ∈ chunk.embedding, embedding.length = dim) :
    Admitted dim (store.allocate document).2.heap (store.allocate document).1 :=
  ⟨getElem?_concat_length, fits⟩

section

variable (sound : Sound dim store)
include sound

theorem reinstall_keeps (admitted : Admitted dim store.heap shared)
    (absent : store.documents[shared.document.id]? = none) :
    Sound dim (store.reinstall moved shared) ∧ Later store (store.reinstall moved shared) ∧
      ∀ id, id ≠ shared.document.id → (store.reinstall moved shared).documents[id]? = store.documents[id]? := by
  rw [Store.reinstall]
  split
  next =>
    refine ⟨sound_install (sound_allocate sound _) (admitted_allocate _ admitted.fits) absent,
      (later_allocate _).trans later_install, fun id other => ?_⟩
    exact (documents_install id).trans (if_neg other)
  next =>
    exact ⟨sound_install sound admitted absent, later_install, fun id other => (documents_install id).trans (if_neg other)⟩

theorem reinstalls_keep {rest : List Shared}
    (admitted : ∀ shared ∈ rest, Admitted dim store.heap shared)
    (distinct : (rest.map fun shared => shared.document.id).Nodup)
    (absent : ∀ shared ∈ rest, store.documents[shared.document.id]? = none) :
    Sound dim (rest.foldl (Store.reinstall moved) store) ∧ store.heap <+: (rest.foldl (Store.reinstall moved) store).heap ∧
      store.generation ≤ (rest.foldl (Store.reinstall moved) store).generation := by
  induction rest generalizing store with
  | nil => exact ⟨sound, prefix_rfl, Nat.le_refl _⟩
  | cons shared rest ih =>
    rw [map_cons, nodup_cons] at distinct
    obtain ⟨kept, later, others⟩ :=
      reinstall_keeps sound (admitted shared (by simp)) (absent shared (by simp))
    have next := ih kept
      (fun other member => (admitted other (by simp [member])).grow later.heap) distinct.2
      (fun other member => by
        rw [others _ fun same => distinct.1 (same ▸ mem_map_of_mem member)]
        exact absent other (by simp [member]))
    exact ⟨next.1, later.heap.trans next.2.1, Nat.le_trans later.generation next.2.2⟩

theorem sound_reindex (moved : String → Bool) :
    Sound dim (store.reindex moved) ∧ store.heap <+: (store.reindex moved).heap ∧
      store.generation ≤ (store.reindex moved).generation := by
  refine reinstalls_keep ⟨?_, ?_, ?_⟩ ?_ (values_distinct sound) ?_
  · intro id shared found
    simp at found
  · intro id shared found
    simp at found
  · intro id
    simp
  · intro shared member
    exact sound.admitted _ _ ((mem_values shared sound).mp member)
  · intro shared _
    simp

theorem remove_keeps (id : String) (moved : String → Bool) :
    Sound dim (store.remove id moved) ∧ Later store (store.remove id moved) := by
  rw [Store.remove]
  split
  next => exact ⟨sound, .refl store⟩
  next shared found =>
    have own := sound.keyed id shared found
    have kept : Sound dim (store.unlink shared) := sound_unlink sound (by rw [own]; exact found)
    dsimp only
    split
    next =>
      obtain ⟨whole, heap, generation⟩ := sound_reindex kept moved
      have advanced : store.generation + 1 ≤ ((store.unlink shared).reindex moved).generation := generation
      exact ⟨whole, heap, by omega, fun same => by omega⟩
    next => exact ⟨kept, later_unlink⟩

theorem absent_remove (id : String) (moved : String → Bool) :
    (store.remove id moved).documents[id]? = none := by
  rw [Store.remove]
  split
  next found => exact found
  next shared found =>
    have own := sound.keyed id shared found
    have kept : Sound dim (store.unlink shared) := sound_unlink sound (by rw [own]; exact found)
    have gone : (store.unlink shared).documents[id]? = none := by
      rw [documents_unlink, own, if_pos rfl]
    dsimp only
    split
    next =>
      have elsewhere : ∀ other ∈ (store.unlink shared).values, other.document.id ≠ id := by
        rintro other member rfl
        rw [(mem_values other kept).mp member] at gone
        cases gone
      have run (s : Store) (rest : List Shared) (away : ∀ other ∈ rest, other.document.id ≠ id)
          (absent : s.documents[id]? = none) : (rest.foldl (Store.reinstall moved) s).documents[id]? = none := by
        induction rest generalizing s with
        | nil => exact absent
        | cons other rest ih =>
          refine ih _ (forall_mem_cons.mp away).2 ?_
          rw [Store.reinstall]
          split
          next => exact (documents_install id).trans ((if_neg (away other (by simp)).symm).trans absent)
          next => exact (documents_install id).trans ((if_neg (away other (by simp)).symm).trans absent)
      exact run _ _ elsewhere (by simp)
    next => exact gone

theorem insert_keeps (prepared : Prepared dim) (moved : String → Bool) :
    Sound dim (store.insert prepared.document moved) ∧ Later store (store.insert prepared.document moved) := by
  have own := sound_allocate sound prepared.document
  have admitted : Admitted dim (store.allocate prepared.document).2.heap (store.allocate prepared.document).1 :=
    admitted_allocate prepared.document prepared.fits
  have later : Later store (store.allocate prepared.document).2 := later_allocate prepared.document
  rw [Store.insert]
  dsimp only
  split
  next absent => exact ⟨sound_install own admitted absent, later.trans later_install⟩
  next previous held =>
    rw [Store.replace]
    split
    next => exact ⟨sound_replaceShared own admitted held, later.trans later_replaceShared⟩
    next =>
      obtain ⟨kept, removed⟩ := remove_keeps own prepared.document.id moved
      exact ⟨sound_install kept (admitted.grow removed.heap) (absent_remove own _ moved),
        (later.trans removed).trans later_install⟩

theorem apply_keeps (mutation : Mutation dim) :
    Sound dim (store.apply mutation) ∧ Later store (store.apply mutation) := by
  cases mutation with
  | insert prepared moved => exact insert_keeps sound prepared moved
  | remove id moved => exact remove_keeps sound id moved

theorem run_keeps (history : List (Mutation dim)) :
    Sound dim (store.run history) ∧ Later store (store.run history) := by
  induction history generalizing store with
  | nil => exact ⟨sound, .refl store⟩
  | cons mutation history ih =>
    obtain ⟨kept, later⟩ := apply_keeps sound mutation
    obtain ⟨kept', later'⟩ := ih kept
    exact ⟨kept', later.trans later'⟩

end

theorem sound_opened (generation : Nat) : Sound dim (Store.opened generation) := by
  refine ⟨?_, ?_, ?_⟩
  · intro id shared found
    simp [Store.opened] at found
  · intro id shared found
    simp [Store.opened] at found
  · intro id
    simp [Store.opened]

end Steps

end Warm.VectorSnapshot
