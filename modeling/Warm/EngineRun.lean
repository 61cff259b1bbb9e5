import Warm.Checked
import Warm.EngineApply

/-! Replays and runs of a store by their steps: a replay is a fold over the chunks of its frames,
and each chunk and each commit is the fold of its mutations over the state the batch found. -/
namespace Warm.Engine

open Audit List
open DocumentStore (Keyed keyed_insert valid_hydrate valid_over)

variable {config : Config} {encoder : Encoder dimensions} {core after : WarmCore} {mutations : List Mutation}

/-- The chunks a frame is cut into behind those of `chunk`, which were read already. -/
def chunksFrom (chunk : List Mutation) : List Mutation → List (List Mutation)
  | [] => if chunk.isEmpty then [] else [chunk]
  | mutation :: rest =>
    if (chunk ++ [mutation]).length = REPLAY_CHUNK then (chunk ++ [mutation]) :: chunksFrom [] rest
    else chunksFrom (chunk ++ [mutation]) rest

def chunks (frames : List (List Mutation)) : List (List Mutation) := frames.flatMap (chunksFrom [])

theorem flatten_chunksFrom (chunk rest : List Mutation) : (chunksFrom chunk rest).flatten = chunk ++ rest := by
  induction rest generalizing chunk with
  | nil =>
    rw [chunksFrom]
    split
    next empty => rw [List.isEmpty_iff.mp empty]; rfl
    next => simp
  | cons mutation rest ih =>
    rw [chunksFrom]
    split
    · rw [flatten_cons, ih, nil_append, append_assoc, singleton_append]
    · rw [ih, append_assoc, singleton_append]

theorem flatten_chunks (frames : List (List Mutation)) : (chunks frames).flatten = frames.flatten := by
  induction frames with
  | nil => rfl
  | cons frame frames ih =>
    rw [chunks, flatMap_cons, List.flatten_append, flatten_chunksFrom, ← chunks, ih, nil_append,
      flatten_cons]

theorem replayFrameFrom_eq (chunk rest : List Mutation) (core : WarmCore) :
    replayFrameFrom config encoder chunk core rest =
      (chunksFrom chunk rest).foldlM (replayMutations config encoder) core := by
  induction rest generalizing chunk core with
  | nil =>
    by_cases empty : chunk.isEmpty
    · rw [replayFrameFrom, chunksFrom, if_pos empty, if_pos empty]
      rfl
    · rw [replayFrameFrom, chunksFrom, if_neg empty, if_neg empty, foldlM_cons]
      exact (bind_pure _).symm
  | cons mutation rest ih =>
    by_cases full : (chunk ++ [mutation]).length = REPLAY_CHUNK
    · rw [replayFrameFrom, chunksFrom, if_pos full, if_pos full, foldlM_cons]
      congr 1
      funext next
      exact ih [] next
    · rw [replayFrameFrom, chunksFrom, if_neg full, if_neg full]
      exact ih _ core

theorem loadFromLog_eq (more : Nat) (generation : Generation) :
    loadFromLog config encoder more generation =
      (chunks generation.frames).foldlM (replayMutations config encoder) (opened config more generation.checkpoint) := by
  rw [loadFromLog]
  generalize opened config more generation.checkpoint = core
  induction generation.frames generalizing core with
  | nil => rfl
  | cons frame frames ih =>
    rw [chunks, flatMap_cons, foldlM_append, foldlM_cons, replayFrame, replayFrameFrom_eq, ← chunks]
    congr 1
    funext next
    exact ih next

theorem hydrateDocuments_ok (hydrated : hydrateDocuments core = .ok after) :
    after = core ∧ core.serving = false ∨
      ∃ base, core.documents.base = some base ∧
        after = { core with documents := core.documents.hydrate base, serving := false } := by
  rw [hydrateDocuments] at hydrated
  split at hydrated
  next =>
    split at hydrated
    next => contradiction
    next base atop => exact .inr ⟨base, atop, (Except.ok.inj hydrated).symm⟩
  next idle => exact .inl ⟨(Except.ok.inj hydrated).symm, by simpa using idle⟩

theorem keyed_hydrateUnlessAccepted (keyed : Keyed core.documents.documents)
    (ready : hydrateUnlessAccepted core mutations = .ok after) : Keyed after.documents.documents := by
  rw [hydrateUnlessAccepted] at ready
  split at ready
  · exact Except.ok.inj ready ▸ keyed
  · rcases hydrateDocuments_ok ready with ⟨rfl, _⟩ | ⟨base, _, rfl⟩
    · exact keyed
    · exact (valid_hydrate core.documents base).keyed

theorem replayMutations_ok (keyed : Keyed core.documents.documents)
    (replayed : replayMutations config encoder core mutations = .ok after) :
    (∀ mutation ∈ mutations, validateMutation config mutation = .ok ()) ∧
      ∃ ready, hydrateUnlessAccepted core mutations = .ok ready ∧
        after = mutations.foldl (applyDirect encoder) ready := by
  rw [replayMutations] at replayed
  obtain ⟨_, checked, replayed⟩ := bind_eq_ok.mp replayed
  obtain ⟨ready, readied, replayed⟩ := bind_eq_ok.mp replayed
  obtain ⟨_, -, replayed⟩ := bind_eq_ok.mp replayed
  refine ⟨(forM_ok_iff _ mutations).mp (mapError_eq_ok.mp checked), ready, readied, ?_⟩
  have installed := applyMutations_eq (keyed_hydrateUnlessAccepted keyed readied) encoder mutations ready.documents
  rcases applied : applyMutations encoder ready mutations (prepareMutations ready.documents mutations) with ⟨core, _ | error⟩
  · rw [applied] at replayed installed
    exact (Except.ok.inj replayed).symm.trans installed
  · rw [applied] at replayed
    cases replayed

theorem validateTransaction_ok (valid : validateTransaction config mutations = .ok ()) :
    ∀ mutation ∈ mutations, validateMutation config mutation = .ok () := by
  rw [validateTransaction, ensure_bind_ok] at valid
  exact (forM_ok_iff _ mutations).mp valid.2

theorem commit_cases (config : Config) (encoder : Encoder dimensions) (store : Store) (keyed : Keyed store.core.documents.documents) (seen : DocumentStore)
    (expected : Option Nat) (appends : Bool) (mutations : List Mutation) :
    (store.commit config encoder seen expected appends mutations).1 = store ∨
      ∃ ready, hydrateUnlessAccepted store.core mutations = .ok ready ∧
        ((store.commit config encoder seen expected appends mutations).1 = { store with core := ready } ∨
          validateTransaction config mutations = .ok () ∧
            validateAuditTransitions ready.auditPending mutations = .ok () ∧
            (store.commit config encoder seen expected appends mutations).1 =
              ⟨{ mutations.foldl (applyDirect encoder) ready with
                  revision := (mutations.foldl (applyDirect encoder) ready).revision + 1 },
                { store.generation with frames := store.generation.frames ++ [mutations] }⟩) := by
  rw [Store.commit]
  rcases readied : hydrateUnlessAccepted store.core mutations with error | ready
  · exact .inl rfl
  refine .inr ⟨ready, rfl, ?_⟩
  dsimp only
  rcases checked : validateTransaction config mutations with error | _
  · exact .inl rfl
  rw [commitPayload]
  by_cases stale : expected.any (· != ready.revision) = true
  · rw [if_pos stale]
    exact .inl rfl
  rw [if_neg stale]
  rcases audited : validateAuditTransitions ready.auditPending mutations with error | _
  · exact .inl rfl
  cases appends with
  | false => exact .inl rfl
  | true =>
    refine .inr ⟨rfl, rfl, ?_⟩
    have installed := applyMutations_eq (keyed_hydrateUnlessAccepted keyed readied) encoder mutations seen
    rw [← installed]
    rfl

theorem keyed_applyDirect (keyed : Keyed core.documents.documents) (encoder : Encoder dimensions)
    (mutation : Mutation) : Keyed (applyDirect encoder core mutation).documents.documents := by
  by_cases put : ∃ document, mutation = .document document
  · obtain ⟨document, rfl⟩ := put
    exact keyed_insert keyed document
  · have unchanged : Keyed (marked core mutation).documents.documents := keyed
    rw [applyDirect_other encoder core fun document same => put ⟨document, same⟩]
    split
    next applied => exact keyed_applyOther unchanged applied
    next => exact unchanged

theorem keyed_foldl_applyDirect (keyed : Keyed core.documents.documents) (encoder : Encoder dimensions)
    (mutations : List Mutation) :
    Keyed (mutations.foldl (applyDirect encoder) core).documents.documents := by
  induction mutations generalizing core with
  | nil => exact keyed
  | cons mutation mutations ih => exact ih (keyed_applyDirect keyed encoder mutation)

theorem keyed_opened (config : Config) (more : Nat) (checkpoint : Option ServingImage) :
    Keyed (opened config more checkpoint).documents.documents := by
  cases checkpoint with
  | none => exact DocumentStore.valid_empty.keyed
  | some image => exact (valid_over image).keyed

theorem keyed_replay (keyed : Keyed core.documents.documents) {chunks : List (List Mutation)}
    (replayed : chunks.foldlM (replayMutations config encoder) core = .ok after) :
    Keyed after.documents.documents := by
  induction chunks generalizing core with
  | nil =>
    obtain rfl := Except.ok.inj replayed
    exact keyed
  | cons chunk chunks ih =>
    rw [foldlM_cons] at replayed
    obtain ⟨next, first, replayed⟩ := bind_eq_ok.mp replayed
    obtain ⟨_, ready, readied, rfl⟩ := replayMutations_ok keyed first
    exact ih (keyed_foldl_applyDirect (keyed_hydrateUnlessAccepted keyed readied) encoder chunk) replayed

theorem keyed_act {store : Store} (keyed : Keyed store.core.documents.documents) (config : Config)
    (encoder : Encoder dimensions) (action : Action) :
    Keyed (act config encoder store action).core.documents.documents := by
  cases action with
  | commit seen expected appends mutations =>
    have done := commit_cases config encoder store keyed seen expected appends mutations
    rcases done with same | ⟨ready, readied, same | ⟨_, _, same⟩⟩
    · rw [act, same]
      exact keyed
    · rw [act, same]
      exact keyed_hydrateUnlessAccepted keyed readied
    · rw [act, same]
      exact keyed_foldl_applyDirect (keyed_hydrateUnlessAccepted keyed readied) encoder mutations
  | read =>
    rw [act]
    split
    next core hydrated =>
      rcases hydrateDocuments_ok hydrated with ⟨rfl, _⟩ | ⟨base, _, rfl⟩
      · exact keyed
      · exact (valid_hydrate store.core.documents base).keyed
    next => exact keyed
  | reopen more =>
    rw [act]
    split
    next core loaded =>
      rw [loadFromLog_eq] at loaded
      exact keyed_replay (keyed_opened config more store.generation.checkpoint) loaded
    next => exact keyed

theorem keyed_run (keyed : Keyed store.core.documents.documents) (config : Config)
    (encoder : Encoder dimensions) (actions : List Action) :
    Keyed (run config encoder store actions).core.documents.documents := by
  induction actions generalizing store with
  | nil => exact keyed
  | cons action actions ih => exact ih (keyed_act keyed config encoder action)

/-- One mutation as a batch of its own, prepared against the state it finds. -/
def applyAlone (encoder : Encoder dimensions) (core : WarmCore) (mutation : Mutation) : WarmCore :=
  (applyMutations encoder core [mutation] (prepareMutations core.documents [mutation])).1

theorem foldl_applyAlone (keyed : Keyed core.documents.documents) (encoder : Encoder dimensions)
    (mutations : List Mutation) :
    mutations.foldl (applyAlone encoder) core = mutations.foldl (applyDirect encoder) core := by
  induction mutations generalizing core with
  | nil => rfl
  | cons mutation mutations ih =>
    have alone : applyAlone encoder core mutation = applyDirect encoder core mutation :=
      applyMutations_eq keyed encoder [mutation] core.documents
    rw [foldl_cons, foldl_cons, alone, ih (keyed_applyDirect keyed encoder mutation)]

/-- In every state a run reaches, a batch leaves what its mutations leave one at a time, each
prepared against the state before it. The batch may have been prepared against other documents. -/
theorem applyMutations_eq_foldl (config : Config) (encoder : Encoder dimensions) (more : Nat)
    (checkpoint : Option ServingImage) (actions : List Action) (seen : DocumentStore) (mutations : List Mutation) :
    (applyMutations encoder (run config encoder (.start config more checkpoint) actions).core mutations
        (prepareMutations seen mutations)).1 =
      mutations.foldl (applyAlone encoder) (run config encoder (.start config more checkpoint) actions).core := by
  have start : Keyed (Store.start config more checkpoint).core.documents.documents :=
    keyed_opened config more checkpoint
  have keyed := keyed_run start config encoder actions
  rw [applyMutations_eq keyed encoder mutations seen, foldl_applyAlone keyed encoder mutations]

end Warm.Engine
