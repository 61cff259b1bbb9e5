import Warm.EngineReplay

/-! Transactions that only write, encode and delete documents. They never have the store rebuilt and the audit
queue takes them, so a commit is decided by validation and the journal, and an open by validation alone. -/
namespace Warm.Engine

open Audit List

variable {config : Config} {encoder : Encoder dimensions} {core : WarmCore} {mutations : List Mutation}

def isDocumentChange : Mutation → Bool
  | .document _ | .deleteDocument _ | .encodeDocument .. => true
  | _ => false

theorem isDocumentOrAudit_of_change (change : isDocumentChange mutation = true) :
    isDocumentOrAudit mutation = true := by
  cases mutation <;> first | rfl | cases change

theorem any_isAudit_of_changes (changes : ∀ mutation ∈ mutations, isDocumentChange mutation = true) :
    mutations.any isAudit = false := by
  rw [any_eq_false]
  intro mutation member
  have change := changes mutation member
  cases mutation <;> first | (cases change; done) | simp [isAudit, intentOf, acknowledgementOf]

theorem standalone_documents (changes : ∀ mutation ∈ frames.flatten, isDocumentChange mutation = true) :
    standalone frames = .empty := by
  rw [standalone]
  generalize frames.flatten = mutations at changes
  induction mutations with
  | nil => rfl
  | cons mutation mutations ih =>
    have change := changes mutation mem_cons_self
    have kept : Standalone.apply .empty mutation = .empty := by
      cases mutation <;> first | rfl | cases change
    rw [foldl_cons, kept]
    exact ih (forall_mem_cons.mp changes).2

theorem length_foldl_remove (set : ShardSet) (ids : List String) :
    (ids.foldl ShardSet.remove set).shards.length = set.shards.length := by
  induction ids generalizing set with
  | nil => rfl
  | cons id ids ih => rw [foldl_cons, ih, ShardSet.length_remove]

theorem length_insertAll (set : ShardSet) (entries : List (String × VectorRecord)) :
    (insertAll set entries).shards.length = set.shards.length := by
  induction entries generalizing set with
  | nil => rfl
  | cons entry entries ih => exact (ih _).trans (ShardSet.length_insert ..)

theorem length_shards_applyDirect (encoder : Encoder dimensions) (core : WarmCore)
    (change : isDocumentChange mutation = true) :
    (applyDirect encoder core mutation).shards.shards.length = core.shards.shards.length := by
  cases mutation with
  | document document => exact (length_insertAll _ _).trans (length_foldl_remove ..)
  | encodeDocument id version fingerprint vectors =>
    simp only [applyDirect, applyOther, installDeferredEncoding]
    cases core.documents.get id with
    | none => rfl
    | some document =>
      dsimp only
      split
      · exact length_insertAll ..
      · rfl
  | deleteDocument id =>
    rw [applyDirect_deleteDocument, removeDocumentFromMemory_eq]
    exact length_foldl_remove ..
  | _ => cases change

theorem length_shards_foldl (encoder : Encoder dimensions) (core : WarmCore)
    (changes : ∀ mutation ∈ mutations, isDocumentChange mutation = true) :
    (mutations.foldl (applyDirect encoder) core).shards.shards.length = core.shards.shards.length := by
  induction mutations generalizing core with
  | nil => rfl
  | cons mutation mutations ih =>
    rw [foldl_cons, ih _ (forall_mem_cons.mp changes).2]
    exact length_shards_applyDirect encoder core (changes mutation mem_cons_self)

theorem documents_foldl_applyDirect (encoder : Encoder dimensions) (core : WarmCore) (mutations : List Mutation) :
    (mutations.foldl (applyDirect encoder) core).documents = mutations.foldl writeDocuments core.documents ∧
      (mutations.foldl (applyDirect encoder) core).serving = core.serving := by
  induction mutations generalizing core with
  | nil => exact ⟨rfl, rfl⟩
  | cons mutation mutations ih =>
    obtain ⟨documents, serving⟩ := documents_applyDirect encoder core mutation
    rw [foldl_cons, foldl_cons, ← documents, ← serving]
    exact ih _

theorem hydrateUnlessAccepted_documents (changes : ∀ mutation ∈ mutations, isDocumentChange mutation = true) :
    hydrateUnlessAccepted core mutations = .ok core := by
  have plain : mutations.all isDocumentOrAudit = true :=
    all_eq_true.mpr fun mutation member => isDocumentOrAudit_of_change (changes mutation member)
  rw [hydrateUnlessAccepted, checkpointAccepts, plain, Bool.and_true]
  cases serving : core.serving with
  | true => rfl
  | false =>
    rw [if_neg (by decide), hydrateDocuments, serving]
    rfl

theorem validateAuditTransitions_documents (changes : ∀ mutation ∈ mutations, isDocumentChange mutation = true)
    (pending : List AuditIntent) : validateAuditTransitions pending mutations = .ok () := by
  rw [validateAuditTransitions, any_isAudit_of_changes changes]
  rfl

theorem applyMutations_documents (keyed : DocumentStore.Keyed core.documents.documents) (encoder : Encoder dimensions)
    (changes : ∀ mutation ∈ mutations, isDocumentChange mutation = true) (seen : DocumentStore) :
    applyMutations encoder core mutations (prepareMutations seen mutations) =
      (mutations.foldl (applyDirect encoder) core, none) := by
  refine Prod.ext (applyMutations_eq keyed encoder mutations seen) ?_
  exact applyLoop_ok ⟨keyed, by simp⟩ encoder mutations seen
    (advance_all_of_not_audit (any_isAudit_of_changes changes) core.auditPending)

/-- The store after a transaction that the journal took. -/
def Store.written (encoder : Encoder dimensions) (store : Store) (mutations : List Mutation) : Store :=
  ⟨{ mutations.foldl (applyDirect encoder) store.core with
      revision := (mutations.foldl (applyDirect encoder) store.core).revision + 1 },
    { store.generation with frames := store.generation.frames ++ [mutations] }⟩

theorem commit_documents {store : Store} (keyed : DocumentStore.Keyed store.core.documents.documents)
    (config : Config) (encoder : Encoder dimensions) (changes : ∀ mutation ∈ mutations, isDocumentChange mutation = true)
    (seen : DocumentStore) (appends : Bool) :
    store.commit config encoder seen none appends mutations =
      match validateTransaction config mutations with
      | .error error => (store, .error (.invalid error))
      | .ok () => if appends then (store.written encoder mutations, .ok true) else (store, .error .append) := by
  rw [Store.commit, hydrateUnlessAccepted_documents changes]
  dsimp only
  cases validateTransaction config mutations with
  | error => rfl
  | ok _ =>
    rw [commitPayload, if_neg (by simp), validateAuditTransitions_documents changes]
    cases appends with
    | false => rfl
    | true =>
      simp only [Except.mapError, bind, Except.bind, if_true, applyMutations_documents keyed encoder changes seen]
      rfl

theorem replayMutations_documents (keyed : DocumentStore.Keyed core.documents.documents)
    (changes : ∀ mutation ∈ mutations, isDocumentChange mutation = true)
    (valid : ∀ mutation ∈ mutations, validateMutation config mutation = .ok ()) :
    replayMutations config encoder core mutations = .ok (mutations.foldl (applyDirect encoder) core) := by
  rw [replayMutations, (forM_ok_iff _ mutations).mpr valid]
  simp only [Except.mapError, bind, Except.bind, hydrateUnlessAccepted_documents changes,
    validateAuditTransitions_documents changes, applyMutations_documents keyed encoder changes]

theorem loadFromLog_documents (more : Nat)
    (changes : ∀ mutation ∈ generation.frames.flatten, isDocumentChange mutation = true)
    (valid : ∀ mutation ∈ generation.frames.flatten, validateMutation config mutation = .ok ()) :
    loadFromLog config encoder more generation =
      .ok (generation.frames.flatten.foldl (applyDirect encoder) (opened config more generation.checkpoint)) := by
  rw [loadFromLog_eq]
  rw [← flatten_chunks] at changes valid ⊢
  have keyed := keyed_opened config more generation.checkpoint
  generalize opened config more generation.checkpoint = core at keyed
  generalize chunks generation.frames = chunks at changes valid
  induction chunks generalizing core with
  | nil => rfl
  | cons chunk chunks ih =>
    rw [flatten_cons] at changes valid
    rw [foldlM_cons, replayMutations_documents keyed (forall_mem_append.mp changes).1
      (forall_mem_append.mp valid).1]
    rw [flatten_cons, foldl_append]
    exact ih _ (keyed_foldl_applyDirect keyed encoder chunk) (forall_mem_append.mp changes).2
      (forall_mem_append.mp valid).2

end Warm.Engine
