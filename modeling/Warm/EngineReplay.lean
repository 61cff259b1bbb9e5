import Warm.EngineView

/-! A replay succeeds and leaves the live state its mutations describe, as long as no write makes
the store over a checkpoint index itself anew. -/
namespace Warm.Engine

open List hiding after all

open Audit
open DocumentStore (base_hydrate base_insert base_remove insert_of_put view_hydrate)

variable {config : Config} {encoder : Encoder dimensions} {core : WarmCore} {documents : DocumentStore}
  {mutation : Mutation} {mutations : List Mutation}

def writeDocuments (documents : DocumentStore) : Mutation → DocumentStore
  | .document document => documents.insert document
  | .encodeDocument id version fingerprint vectors =>
    match documents.get id with
    | none => documents
    | some document =>
      if applicable document version fingerprint vectors then documents.insert (encodedDocument document vectors)
      else documents
  | .deleteDocument id => (documents.remove id).1
  | _ => documents

theorem documents_applyDirect (encoder : Encoder dimensions) (core : WarmCore) (mutation : Mutation) :
    (applyDirect encoder core mutation).documents = writeDocuments core.documents mutation ∧
      (applyDirect encoder core mutation).serving = core.serving := by
  cases mutation with
  | auditAcknowledged id =>
    simp only [applyDirect, applyOther, applyAudit]
    by_cases first : core.auditPending.head?.bind AuditIntent.id = some id
    · rw [if_pos first]
      exact ⟨rfl, rfl⟩
    · rw [if_neg first]
      exact ⟨rfl, rfl⟩
  | vector id vector | delete id =>
    simp only [applyDirect, applyOther, removeDerivedFromMemory_eq]
    exact ⟨rfl, rfl⟩
  | triplet id subject relation object =>
    simp only [applyDirect, applyOther, applyTriplet, removeDerivedFromMemory_eq]
    split <;> exact ⟨rfl, rfl⟩
  | encodeDocument id version fingerprint vectors =>
    simp only [applyDirect, applyOther, installDeferredEncoding, writeDocuments]
    cases core.documents.get id with
    | none => exact ⟨rfl, rfl⟩
    | some document =>
      dsimp only
      split <;> exact ⟨rfl, rfl⟩
  | deleteDocument id =>
    rw [applyDirect_deleteDocument, removeDocumentFromMemory_eq]
    exact ⟨rfl, rfl⟩
  | _ => exact ⟨rfl, rfl⟩

theorem valid_writeDocuments (stored : documents.Valid) (mutation : Mutation) : (writeDocuments documents mutation).Valid := by
  cases mutation with
  | document document => exact stored.insert document
  | encodeDocument id version fingerprint vectors =>
    rw [writeDocuments]
    cases documents.get id with
    | none => exact stored
    | some document =>
      dsimp only
      split
      · exact stored.insert _
      · exact stored
  | deleteDocument id => exact stored.remove id
  | _ => exact stored

theorem base_writeDocuments (bare : documents.base = none) (mutation : Mutation) :
    (writeDocuments documents mutation).base = none := by
  cases mutation with
  | document document => exact base_insert bare document
  | encodeDocument id version fingerprint vectors =>
    rw [writeDocuments]
    cases documents.get id with
    | none => exact bare
    | some document =>
      dsimp only
      split
      · exact base_insert bare _
      · exact bare
  | deleteDocument id => exact base_remove bare id
  | _ => exact bare

theorem writeDocuments_of_calm (stored : documents.Valid) (placed : writeSlots documents.table mutation = some table) :
    (writeDocuments documents mutation).table = table ∧
      (writeDocuments documents mutation).base.isSome = documents.base.isSome := by
  cases mutation with
  | document document =>
    rw [writeDocuments, insert_of_put stored.sized document placed]
    exact ⟨rfl, Option.isSome_map⟩
  | encodeDocument id version fingerprint vectors =>
    obtain rfl := Option.some.inj placed
    rw [writeDocuments]
    cases found : documents.get id with
    | none => exact ⟨rfl, rfl⟩
    | some document =>
      dsimp only
      split
      next fits =>
        have own : document.id = id := stored.keyed id document found
        have kept := put_encodedDocument stored.sized found (length_of_applicable fits)
        rw [← own] at kept
        rw [insert_of_put stored.sized (encodedDocument document vectors) kept]
        exact ⟨rfl, Option.isSome_map⟩
      next => exact ⟨rfl, rfl⟩
  | deleteDocument id =>
    rw [writeDocuments, DocumentStore.remove_of_drop stored id placed]
    exact ⟨rfl, Option.isSome_map⟩
  | _ =>
    obtain rfl := Option.some.inj placed
    exact ⟨rfl, rfl⟩

/-- The mutations, one after the other, are calm. -/
def CalmAll (documents : DocumentStore) (mutations : List Mutation) : Prop :=
  documents.base = none ∨ (mutations.foldlM writeSlots documents.table).isSome = true

theorem CalmAll.cons (calm : CalmAll documents (mutation :: mutations)) (stored : documents.Valid) :
    Calm documents mutation ∧ CalmAll (writeDocuments documents mutation) mutations ∧
      (writeDocuments documents mutation).base.isSome = documents.base.isSome := by
  rcases calm with bare | placed
  · have after := base_writeDocuments bare mutation
    exact ⟨.inl bare, .inl after, by rw [after, bare]⟩
  · rw [foldlM_cons] at placed
    cases first : writeSlots documents.table mutation with
    | none =>
      rw [first] at placed
      contradiction
    | some table =>
      rw [first] at placed
      obtain ⟨same, kept⟩ := writeDocuments_of_calm stored first
      refine ⟨.inr (by rw [first]; rfl), .inr ?_, kept⟩
      rw [same]
      exact placed

/-- A state the engine is in between batches. -/
structure Sound (config : Config) (core : WarmCore) : Prop where
  indexed : ∃ ledger, Indexed config ledger core
  stored : core.documents.Valid
  queue : Queue core.auditPending
  based : core.documents.base.isSome = core.serving

/-- The mutations passed validation and come from callers that issue ids. -/
def Committed (config : Config) (mutations : List Mutation) : Prop :=
  ∀ mutation ∈ mutations, validateMutation config mutation = .ok () ∧ Issued mutation

namespace Sound

section

variable (sound : Sound config core)
include sound

theorem step (encoder : Encoder dimensions)
    (valid : validateMutation config mutation = .ok ()) (issued : Issued mutation)
    (moved : advance core.auditPending mutation = some after)
    (based : (writeDocuments core.documents mutation).base.isSome = core.documents.base.isSome) :
    Sound config (applyDirect encoder core mutation) ∧ (applyDirect encoder core mutation).auditPending = after := by
  obtain ⟨ledger, indexed⟩ := sound.indexed
  obtain ⟨documents, serving⟩ := documents_applyDirect encoder core mutation
  have queued : (applyDirect encoder core mutation).auditPending = after := by
    rw [auditPending_applyDirect, applyAudit_of_advance moved]
    rfl
  refine ⟨⟨⟨_, indexed.step encoder valid issued⟩, ?_, ?_, ?_⟩, queued⟩
  · rw [documents]
    exact valid_writeDocuments sound.stored mutation
  · rw [queued]
    exact sound.queue.advance moved
  · rw [documents, serving, based, sound.based]

theorem steps (encoder : Encoder dimensions) (committed : Committed config mutations)
    (calm : CalmAll core.documents mutations) (moved : mutations.foldlM advance core.auditPending = some after) :
    Sound config (mutations.foldl (applyDirect encoder) core) ∧
      (mutations.foldl (applyDirect encoder) core).view = mutations.foldl (View.apply encoder) core.view ∧
      (mutations.foldl (applyDirect encoder) core).documents = mutations.foldl writeDocuments core.documents := by
  induction mutations generalizing core with
  | nil => exact ⟨sound, rfl, rfl⟩
  | cons mutation mutations ih =>
    obtain ⟨ledger, indexed⟩ := sound.indexed
    obtain ⟨valid, issued⟩ := committed mutation mem_cons_self
    obtain ⟨first, later, based⟩ := calm.cons sound.stored
    obtain ⟨next, taken, rest⟩ := foldlM_cons_eq_some.mp moved
    obtain ⟨kept, queued⟩ := sound.step encoder valid issued taken based
    have documents := (documents_applyDirect encoder core mutation).1
    obtain ⟨done, shown, written⟩ := ih kept (forall_mem_cons.mp committed).2
      (documents ▸ later) (queued ▸ rest)
    refine ⟨done, ?_, ?_⟩
    · rw [foldl_cons, foldl_cons, shown, view_applyDirect indexed sound.stored issued first encoder]
    · rw [foldl_cons, foldl_cons, written, documents]

theorem hydrate :
    ∃ after, hydrateDocuments core = .ok after ∧ Sound config after ∧ after.view = core.view ∧
      after.documents.base = none := by
  obtain ⟨ledger, indexed⟩ := sound.indexed
  cases atop : core.documents.base with
  | none =>
    have idle : core.serving = false := by rw [← sound.based, atop]; rfl
    refine ⟨core, ?_, sound, rfl, atop⟩
    rw [hydrateDocuments, idle]
    rfl
  | some base =>
    have serving : core.serving = true := by rw [← sound.based, atop]; rfl
    have hydrated : hydrateDocuments core =
        .ok { core with documents := core.documents.hydrate base, serving := false } := by
      rw [hydrateDocuments, if_pos serving, atop]
    refine ⟨_, hydrated, ⟨⟨ledger, indexed.hydrate hydrated⟩, DocumentStore.valid_hydrate core.documents base, sound.queue, ?_⟩,
      ?_, base_hydrate core.documents base⟩
    · rw [base_hydrate]
      rfl
    · refine view_eq_of_plain core _ (fun _ _ => rfl) ?_ rfl rfl rfl rfl
      funext a
      exact view_hydrate sound.stored.keyed atop a

theorem hydrateUnlessAccepted (mutations : List Mutation) :
    ∃ ready, Engine.hydrateUnlessAccepted core mutations = .ok ready ∧ Sound config ready ∧ ready.view = core.view ∧
      (ready.documents.base = none ∨ mutations.all isDocumentOrAudit = true ∧ ready = core) := by
  rw [Engine.hydrateUnlessAccepted]
  by_cases accepts : checkpointAccepts core mutations = true
  · rw [if_pos accepts]
    rw [checkpointAccepts, Bool.and_eq_true] at accepts
    exact ⟨core, rfl, sound, rfl, .inr ⟨accepts.2, rfl⟩⟩
  · rw [if_neg accepts]
    obtain ⟨after, hydrated, kept, shown, bare⟩ := sound.hydrate
    exact ⟨after, hydrated, kept, shown, .inl bare⟩

theorem replayMutations (encoder : Encoder dimensions)
    (committed : Committed config mutations) (moved : mutations.foldlM advance core.auditPending = some after)
    (calm : mutations.all isDocumentOrAudit = true → CalmAll core.documents mutations) :
    ∃ ready done, Engine.replayMutations config encoder core mutations = .ok done ∧ Sound config done ∧
      done.view = mutations.foldl (View.apply encoder) core.view ∧ done.auditPending = after ∧
      done.documents = mutations.foldl writeDocuments ready.documents ∧
      (ready.documents.base = none ∨ mutations.all isDocumentOrAudit = true ∧ ready = core) := by
  obtain ⟨ready, readied, kept, shown, base⟩ := sound.hydrateUnlessAccepted mutations
  have pending : ready.auditPending = core.auditPending := congrArg View.auditPending shown
  have steady : CalmAll ready.documents mutations := by
    rcases base with bare | ⟨plain, rfl⟩
    · exact .inl bare
    · exact calm plain
  rw [← pending] at moved
  obtain ⟨done, state, written⟩ := kept.steps encoder committed steady moved
  have queued : (mutations.foldl (applyDirect encoder) ready).auditPending = after := by
    rw [auditPending_foldl_applyDirect, applyAuditBatch_eq moved]
  refine ⟨ready, mutations.foldl (applyDirect encoder) ready, ?_, done, ?_, queued, written, base⟩
  · have installed := applyMutations_eq kept.stored.keyed encoder mutations ready.documents
    have quiet : (applyMutations encoder ready mutations (prepareMutations ready.documents mutations)).2 = none :=
      applyLoop_ok ⟨kept.stored.keyed, by simp⟩ encoder mutations ready.documents moved
    rw [Engine.replayMutations, (forM_ok_iff _ mutations).mpr fun m member => (committed m member).1]
    rw [readied]
    change ((validateAuditTransitions ready.auditPending mutations).mapError EngineError.audit >>= _) = _
    rw [(kept.queue.validate_iff mutations).mpr ⟨after, moved⟩]
    have whole : applyMutations encoder ready mutations (prepareMutations ready.documents mutations) =
        (mutations.foldl (applyDirect encoder) ready, none) := Prod.ext installed quiet
    rw [whole]
    rfl
  · rw [state, shown]

end

end Sound

/-- No chunk that is replayed over the checkpoint makes the store index itself anew. A chunk with a
mutation of another kind has the store rebuilt first, and later ones find it so. -/
def CalmReplay (documents : DocumentStore) (chunks : List (List Mutation)) : Prop :=
  CalmAll documents (chunks.takeWhile fun chunk => chunk.all isDocumentOrAudit).flatten

theorem CalmAll.left {front back : List Mutation} (calm : CalmAll documents (front ++ back)) : CalmAll documents front := by
  rcases calm with bare | placed
  · exact .inl bare
  · rw [foldlM_append] at placed
    cases first : front.foldlM writeSlots documents.table with
    | none =>
      rw [first] at placed
      contradiction
    | some table => exact .inr (by rw [first]; rfl)

theorem CalmAll.right {front back : List Mutation} (calm : CalmAll documents (front ++ back)) (stored : documents.Valid) :
    CalmAll (front.foldl writeDocuments documents) back := by
  induction front generalizing documents with
  | nil => exact calm
  | cons mutation front ih => exact ih (CalmAll.cons calm stored).2.1 (valid_writeDocuments stored mutation)

theorem base_foldl_writeDocuments (bare : documents.base = none) (mutations : List Mutation) :
    (mutations.foldl writeDocuments documents).base = none := by
  induction mutations generalizing documents with
  | nil => exact bare
  | cons mutation mutations ih => exact ih (base_writeDocuments bare mutation)

/-- A replay of committed mutations succeeds with the state they describe. -/
theorem Sound.replay (sound : Sound config core) (encoder : Encoder dimensions) {chunks : List (List Mutation)}
    (committed : Committed config chunks.flatten) (moved : chunks.flatten.foldlM advance core.auditPending = some after)
    (calm : CalmReplay core.documents chunks) :
    ∃ done, chunks.foldlM (Engine.replayMutations config encoder) core = .ok done ∧ Sound config done ∧
      done.view = chunks.flatten.foldl (View.apply encoder) core.view ∧
      (done.documents.base = none ∨ chunks.flatten.all isDocumentOrAudit = true ∧
        done.documents = chunks.flatten.foldl writeDocuments core.documents) := by
  induction chunks generalizing core with
  | nil => exact ⟨core, rfl, sound, rfl, .inr ⟨rfl, rfl⟩⟩
  | cons chunk chunks ih =>
    rw [flatten_cons, foldlM_append, Option.bind_eq_bind, Option.bind_eq_some_iff] at moved
    obtain ⟨next, taken, rest⟩ := moved
    rw [flatten_cons] at committed
    have own : Committed config chunk := (forall_mem_append.mp committed).1
    have split : chunk.all isDocumentOrAudit = true →
        CalmAll core.documents chunk ∧ CalmReplay (chunk.foldl writeDocuments core.documents) chunks := by
      intro plain
      rw [CalmReplay, takeWhile_cons, if_pos plain, flatten_cons] at calm
      exact ⟨calm.left, calm.right sound.stored⟩
    obtain ⟨ready, done, replayed, kept, shown, queued, written, base⟩ :=
      sound.replayMutations encoder own taken fun plain => (split plain).1
    have later : CalmReplay done.documents chunks := by
      rw [written]
      rcases base with bare | ⟨plain, rfl⟩
      · exact .inl (base_foldl_writeDocuments bare chunk)
      · exact (split plain).2
    obtain ⟨last, all, final, state, atop⟩ := ih kept (forall_mem_append.mp committed).2
      (queued ▸ rest) later
    refine ⟨last, ?_, final, ?_, ?_⟩
    · rw [foldlM_cons, replayed]
      exact all
    · rw [flatten_cons, foldl_append, state, shown]
    · rcases atop with bare | ⟨others, folded⟩
      · exact .inl bare
      rcases base with bare | ⟨plain, rfl⟩
      · refine .inl ?_
        rw [folded, written]
        exact base_foldl_writeDocuments (base_foldl_writeDocuments bare chunk) chunks.flatten
      · refine .inr ⟨?_, ?_⟩
        · rw [flatten_cons, all_append, plain, others]
          rfl
        · rw [flatten_cons, foldl_append, folded, written]

end Warm.Engine
