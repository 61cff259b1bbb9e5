import Warm.DocumentOverlay
import Warm.Engine

/-! A batch is installed as its mutations would be one at a time: documents that wait in a run are
diffed against what the run has left stored, whatever the batch was prepared against. -/
namespace Warm.Engine

open Binary Audit

/-- One mutation on its own, against the state its predecessors left. -/
def applyDirect (encoder : Encoder dimensions) (core : WarmCore) (mutation : Mutation) : WarmCore :=
  let core := { core with otherState := core.otherState || !isDocumentOrAudit mutation }
  match mutation with
  | .document document =>
    { core with
      shards := insertAll ((staleChunks (core.documents.get document.id) document).foldl ShardSet.remove core.shards)
        (encodedChunks document)
      documents := core.documents.insert document }
  | mutation =>
    match applyOther encoder core mutation with
    | .ok core => core
    | .error _ => core

/-- The meaning stores without the entries of `ids`. -/
def Meaning.forget (meaning : Meaning) (ids : List String) : Meaning :=
  { meaning with
    atoms := ids.foldl IndexedMemory.delete meaning.atoms
    composites := ids.foldl IndexedMemory.delete meaning.composites
    triples := ids.foldl TripleStore.removeComposite meaning.triples }

theorem foldl_removeMemoryId (core : WarmCore) (ids : List String) :
    ids.foldl removeMemoryId core =
      { core with
        shards := ids.foldl ShardSet.remove core.shards
        meaning := core.meaning.map (·.forget ids) } := by
  induction ids generalizing core with
  | nil =>
    obtain ⟨_, meaning, _⟩ := core
    cases meaning <;> rfl
  | cons id ids ih =>
    rw [List.foldl_cons, ih]
    obtain ⟨_, meaning, _⟩ := core
    cases meaning <;> rfl

def childrenOf (core : WarmCore) (id : String) : List String := (core.derived[id]?).getD []

theorem removeDerivedFromMemory_eq (core : WarmCore) (id : String) :
    removeDerivedFromMemory core id =
      { core with
        shards := (childrenOf core id).foldl ShardSet.remove core.shards
        meaning := core.meaning.map (·.forget (childrenOf core id))
        derived := core.derived.erase id } := by
  rw [removeDerivedFromMemory, childrenOf]
  cases found : core.derived[id]? with
  | none =>
    have same : core.derived.erase id = core.derived := by
      apply Std.ExtTreeMap.ext_getElem?
      intro a
      rw [Table.getElem?_erase]
      split
      next own => rw [own, found]
      next => rfl
    rw [same]
    obtain ⟨_, meaning, _⟩ := core
    cases meaning <;> rfl
  | some children => exact foldl_removeMemoryId _ children

theorem removeDocumentFromMemory_eq (core : WarmCore) (id : String) :
    removeDocumentFromMemory core id =
      { core with
        documents := (core.documents.remove id).1
        shards := (((core.documents.get id).map fun document => document.chunks.map StoredChunk.id).getD []).foldl
          ShardSet.remove core.shards } := by
  rw [← DocumentStore.remove_snd]
  rfl

theorem foldl_insert_keyed (keyed : DocumentStore.Keyed store.documents) (documents : List StoredDocument) :
    DocumentStore.Keyed (documents.foldl DocumentStore.insert store).documents := by
  induction documents generalizing store with
  | nil => exact keyed
  | cons document documents ih => exact ih (DocumentStore.keyed_insert keyed document)

theorem get_foldl_insert_of_not_mem (keyed : DocumentStore.Keyed store.documents) (documents : List StoredDocument)
    (id : String) (absent : id ∉ documents.map StoredDocument.id) :
    (documents.foldl DocumentStore.insert store).get id = store.get id := by
  induction documents generalizing store with
  | nil => rfl
  | cons document documents ih =>
    rw [List.map_cons, List.mem_cons, not_or] at absent
    rw [List.foldl_cons, ih (DocumentStore.keyed_insert keyed document) absent.2,
      DocumentStore.get_insert store keyed, if_neg absent.1]

/-- The stored documents are under their own ids and the waiting ones are listed. -/
structure Applying.Ready (state : Applying) : Prop where
  keyed : DocumentStore.Keyed state.core.documents.documents
  listed : ∀ id, id ∈ state.pending.map StoredDocument.id → id ∈ state.pendingIds

theorem Applying.Ready.install {state : Applying} (ready : state.Ready) : state.install.Ready := by
  refine ⟨?_, by simp [Applying.install]⟩
  rw [Applying.install, DocumentStore.insertBatch_eq]
  exact foldl_insert_keyed ready.keyed state.pending

theorem keyed_applyOther (keyed : DocumentStore.Keyed core.documents.documents)
    (applied : applyOther encoder core mutation = .ok after) : DocumentStore.Keyed after.documents.documents := by
  cases mutation with
  | auditAcknowledged id =>
    rw [applyOther] at applied
    rcases acked : applyAudit core.auditPending (.auditAcknowledged id) with error | rest
    · rw [acked] at applied
      contradiction
    · rw [acked] at applied
      obtain rfl := Except.ok.inj applied
      exact keyed
  | encodeDocument id version fingerprint vectors =>
    obtain rfl := Except.ok.inj applied
    rw [installDeferredEncoding]
    split
    · exact keyed
    · split
      · exact DocumentStore.keyed_insert keyed _
      · exact keyed
  | deleteDocument id =>
    obtain rfl := Except.ok.inj applied
    exact DocumentStore.keyed_remove keyed id
  | triplet id subject relation object =>
    obtain rfl := Except.ok.inj applied
    rw [applyTriplet, removeDerivedFromMemory_eq]
    split <;> exact keyed
  | vector id vector | delete id =>
    obtain rfl := Except.ok.inj applied
    rw [removeDerivedFromMemory_eq]
    exact keyed
  | _ =>
    obtain rfl := Except.ok.inj applied
    exact keyed

def marked (core : WarmCore) (mutation : Mutation) : WarmCore :=
  { core with otherState := core.otherState || !isDocumentOrAudit mutation }

theorem applyDirect_deleteDocument (encoder : Encoder dimensions) (core : WarmCore) (id : String) :
    applyDirect encoder core (.deleteDocument id) = removeDocumentFromMemory (marked core (.deleteDocument id)) id :=
  rfl

theorem applyDirect_other (encoder : Encoder dimensions) (core : WarmCore)
    (other : ∀ document, mutation ≠ .document document) :
    applyDirect encoder core mutation =
      match applyOther encoder (marked core mutation) mutation with
      | .ok core => core
      | .error _ => marked core mutation := by
  cases mutation with
  | document document => exact absurd rfl (other document)
  | _ => rfl

theorem applyMutation_other {state : Applying} (ready : state.Ready) (encoder : Encoder dimensions)
    (mutation : Mutation) (prepared : Prepared) (other : ∀ document, mutation ≠ .document document) :
    (applyMutation encoder state mutation prepared).1.install.core =
        applyDirect encoder state.install.core mutation ∧
      (applyMutation encoder state mutation prepared).1.Ready ∧
      (applyMutation encoder state mutation prepared).2 =
        match applyOther encoder (marked state.install.core mutation) mutation with
        | .ok _ => none
        | .error error => some error := by
  have prepared_by : (applyMutation encoder state mutation prepared) =
      match applyOther encoder (marked state.install.core mutation) mutation with
      | .ok core => (⟨core, [], []⟩, none)
      | .error error => (⟨marked state.install.core mutation, [], []⟩, some error) := by
    cases mutation with
    | document document => exact absurd rfl (other document)
    | _ => rfl
  have keyed : DocumentStore.Keyed (marked state.install.core mutation).documents.documents := ready.install.keyed
  rw [prepared_by, applyDirect_other encoder _ other]
  rcases applied : applyOther encoder (marked state.install.core mutation) mutation with error | core
  · exact ⟨rfl, ⟨keyed, by simp⟩, rfl⟩
  · exact ⟨rfl, ⟨keyed_applyOther keyed applied, by simp⟩, rfl⟩

theorem applyMutation_document {state : Applying} (ready : state.Ready) (encoder : Encoder dimensions)
    (document : StoredDocument) (seen : DocumentStore) :
    (applyMutation encoder state (.document document) (prepareMutation seen (.document document))).1.install.core =
        applyDirect encoder state.install.core (.document document) ∧
      (applyMutation encoder state (.document document) (prepareMutation seen (.document document))).1.Ready := by
  -- The stale chunks are those of the stored document, wherever they were computed.
  have diffed (current : Option StoredDocument) :
      (if seen.get document.id = current then staleChunks (seen.get document.id) document
        else staleChunks current document) = staleChunks current document := by
    split
    next same => rw [same]
    next => rfl
  by_cases waiting : document.id ∈ state.pendingIds
  · have applied : (applyMutation encoder state (.document document) (prepareMutation seen (.document document))).1 =
        ⟨{ marked state.install.core (.document document) with
            shards := insertAll ((staleChunks (state.install.core.documents.get document.id) document).foldl
              ShardSet.remove state.install.core.shards) (encodedChunks document) }, [document], [document.id]⟩ := by
      simp only [applyMutation, prepareMutation, applyDocument, if_pos waiting, diffed]
      rfl
    rw [applied]
    exact ⟨rfl, ready.install.keyed, by simp⟩
  · have shown : state.install.core.documents.get document.id = state.core.documents.get document.id := by
      rw [Applying.install, DocumentStore.insertBatch_eq]
      exact get_foldl_insert_of_not_mem ready.keyed _ _ fun member => waiting (ready.listed _ member)
    have applied : (applyMutation encoder state (.document document) (prepareMutation seen (.document document))).1 =
        ⟨{ marked state.core (.document document) with
            shards := insertAll ((staleChunks (state.core.documents.get document.id) document).foldl
              ShardSet.remove state.core.shards) (encodedChunks document) },
          state.pending ++ [document], document.id :: state.pendingIds⟩ := by
      simp only [applyMutation, prepareMutation, applyDocument, if_neg waiting, diffed]
      rfl
    rw [applied]
    refine ⟨?_, ready.keyed, ?_⟩
    · have joined : state.core.documents.insertBatch (state.pending ++ [document]) =
          (state.core.documents.insertBatch state.pending).insert document := by
        rw [DocumentStore.insertBatch_eq, DocumentStore.insertBatch_eq, List.foldl_append]
        rfl
      rw [applyDirect, shown]
      simp only [Applying.install, marked, joined]
    · intro id member
      rw [List.map_append, List.mem_append, List.map_singleton, List.mem_singleton] at member
      rcases member with old | rfl
      · exact List.mem_cons_of_mem _ (ready.listed id old)
      · exact List.mem_cons_self

theorem applyMutation_install (ready : state.Ready) (encoder : Encoder dimensions) (mutation : Mutation)
    (seen : DocumentStore) :
    (applyMutation encoder state mutation (prepareMutation seen mutation)).1.install.core =
        applyDirect encoder state.install.core mutation ∧
      (applyMutation encoder state mutation (prepareMutation seen mutation)).1.Ready := by
  by_cases put : ∃ document, mutation = .document document
  · obtain ⟨document, rfl⟩ := put
    exact applyMutation_document ready encoder document seen
  · obtain ⟨installed, kept, _⟩ := applyMutation_other ready encoder mutation (prepareMutation seen mutation)
      fun document same => put ⟨document, same⟩
    exact ⟨installed, kept⟩

theorem applyLoop_eq (ready : state.Ready) (encoder : Encoder dimensions) (failure : Option AuditError)
    (mutations : List Mutation) (seen : DocumentStore) :
    (applyLoop encoder state failure (mutations.zip (prepareMutations seen mutations))).1 =
      mutations.foldl (applyDirect encoder) state.install.core := by
  induction mutations generalizing state failure with
  | nil => rfl
  | cons mutation mutations ih =>
    obtain ⟨installed, kept⟩ := applyMutation_install ready encoder mutation seen
    rw [List.foldl_cons, ← installed]
    exact ih kept _

theorem applyMutations_eq (keyed : DocumentStore.Keyed core.documents.documents) (encoder : Encoder dimensions)
    (mutations : List Mutation) (seen : DocumentStore) :
    (applyMutations encoder core mutations (prepareMutations seen mutations)).1 =
      mutations.foldl (applyDirect encoder) core := by
  have ready : (⟨core, [], []⟩ : Applying).Ready := ⟨keyed, by simp⟩
  exact applyLoop_eq ready encoder none mutations seen

theorem auditPending_applyDirect (encoder : Encoder dimensions) (core : WarmCore) (mutation : Mutation) :
    (applyDirect encoder core mutation).auditPending =
      ((applyAudit core.auditPending mutation).toOption).getD core.auditPending := by
  cases mutation with
  | auditAcknowledged id =>
    simp only [applyDirect, applyOther]
    rcases applyAudit core.auditPending (.auditAcknowledged id) with error | rest <;> rfl
  | vector id vector | delete id =>
    simp only [applyDirect, applyOther, removeDerivedFromMemory_eq]
    rfl
  | triplet id subject relation object =>
    simp only [applyDirect, applyOther, applyTriplet, removeDerivedFromMemory_eq]
    split <;> rfl
  | encodeDocument id version fingerprint vectors =>
    simp only [applyDirect, applyOther, installDeferredEncoding]
    split
    · rfl
    · split <;> rfl
  | _ => rfl

theorem auditPending_foldl_applyDirect (encoder : Encoder dimensions) (core : WarmCore) (mutations : List Mutation) :
    (mutations.foldl (applyDirect encoder) core).auditPending = applyAuditBatch core.auditPending mutations := by
  induction mutations generalizing core with
  | nil => rfl
  | cons mutation mutations ih =>
    rw [List.foldl_cons, ih, auditPending_applyDirect]
    rfl

theorem applyLoop_ok (ready : state.Ready) (encoder : Encoder dimensions) (mutations : List Mutation)
    (seen : DocumentStore) (moved : mutations.foldlM advance state.core.auditPending = some after) :
    (applyLoop encoder state none (mutations.zip (prepareMutations seen mutations))).2 = none := by
  induction mutations generalizing state with
  | nil => rfl
  | cons mutation mutations ih =>
    obtain ⟨next, first, rest⟩ := foldlM_cons_eq_some.mp moved
    obtain ⟨installed, kept⟩ := applyMutation_install ready encoder mutation seen
    have audited := applyAudit_of_advance first
    have queued : (applyMutation encoder state mutation (prepareMutation seen mutation)).1.core.auditPending = next := by
      change (applyMutation encoder state mutation (prepareMutation seen mutation)).1.install.core.auditPending = next
      have pending : state.install.core.auditPending = state.core.auditPending := rfl
      rw [installed, auditPending_applyDirect, pending, audited]
      rfl
    have silent : (applyMutation encoder state mutation (prepareMutation seen mutation)).2 = none := by
      by_cases put : ∃ document, mutation = .document document
      · obtain ⟨document, rfl⟩ := put
        rfl
      · obtain ⟨_, _, reported⟩ := applyMutation_other ready encoder mutation (prepareMutation seen mutation)
          fun document same => put ⟨document, same⟩
        rw [reported]
        cases mutation with
        | auditAcknowledged id =>
          have acked : applyAudit (marked state.install.core (.auditAcknowledged id)).auditPending
              (.auditAcknowledged id) = .ok next := audited
          rw [applyOther, acked]
          rfl
        | _ => rfl
    have step : applyLoop encoder state none ((mutation :: mutations).zip (prepareMutations seen (mutation :: mutations))) =
        applyLoop encoder (applyMutation encoder state mutation (prepareMutation seen mutation)).1
          (none.or (applyMutation encoder state mutation (prepareMutation seen mutation)).2)
          (mutations.zip (prepareMutations seen mutations)) := rfl
    rw [step, silent]
    exact ih kept (queued.symm ▸ rest)

end Warm.Engine
