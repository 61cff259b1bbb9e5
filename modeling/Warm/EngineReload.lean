import Mathlib.Data.List.TakeWhile
import Warm.EngineReplay

/-! A store holds what its journal describes: every commit that appends a transaction changes the
live state as the transaction's mutations do, and a replay of the journal does the same from the
checkpoint on. -/
namespace Warm.Engine

open Audit

variable {config : Config} {encoder : Encoder dimensions} {core : WarmCore} {store : Store} {generation : Generation}

theorem view_opened (config : Config) (more : Nat) (checkpoint : Option ServingImage) :
    (opened config more checkpoint).view = (opened config 0 checkpoint).view := by
  refine view_eq_of_plain (opened config 0 checkpoint) _ ?_ rfl rfl rfl rfl rfl
  intro a _
  simp [opened]

theorem sound_opened (config : Config) (more : Nat) (named : NamedImage checkpoint) :
    Sound config (opened config more checkpoint) := by
  refine ⟨⟨_, indexed_opened config more named⟩, ?_, Queue.nil, ?_⟩
  · cases checkpoint with
    | none => exact DocumentStore.valid_empty
    | some image => exact DocumentStore.valid_over image
  · cases checkpoint <;> rfl

theorem liveState_eq (sound : Sound config core) (sound' : Sound config other) (same : other.view = core.view) :
    other.liveState = core.liveState := by
  obtain ⟨_, indexed⟩ := sound.indexed
  obtain ⟨_, indexed'⟩ := sound'.indexed
  have documents : other.documents.view = core.documents.view := congrArg View.documents same
  have vectors : other.shards.getVector = core.shards.getVector := by
    funext id
    cases kind : isChunk id with
    | false =>
      have shown := congrFun (congrArg View.vectors same) id
      simpa only [WarmCore.view, kind, Bool.false_eq_true, if_false] using shown
    | true =>
      apply Option.ext
      intro vector
      rw [indexed.chunks id vector kind, indexed'.chunks id vector kind, ← shows_iff, ← shows_iff, Shows, Shows, documents]
  rw [WarmCore.liveState, WarmCore.liveState, same, vectors]

namespace Generation

/-- The documents an open starts from. -/
def documents (generation : Generation) : DocumentStore := (generation.checkpoint.map DocumentStore.over).getD .empty

/-- The live state a generation describes. -/
def view (config : Config) (encoder : Encoder dimensions) (generation : Generation) : View :=
  generation.frames.flatten.foldl (View.apply encoder) (opened config 0 generation.checkpoint).view

/-- A replay does not make the store over the checkpoint index itself anew. -/
def Steady (generation : Generation) : Prop := CalmReplay generation.documents (chunks generation.frames)

/-- The transactions passed their checks when they were committed. -/
structure Written (config : Config) (generation : Generation) : Prop where
  image : NamedImage generation.checkpoint
  committed : Committed config generation.frames.flatten
  queued : ∃ pending, generation.frames.flatten.foldlM advance [] = some pending

theorem Written.load (written : generation.Written config) (steady : generation.Steady) (encoder : Encoder dimensions)
    (more : Nat) :
    ∃ done, loadFromLog config encoder more generation = .ok done ∧ Sound config done ∧
      done.view = generation.view config encoder ∧
      (done.documents.base = none ∨ generation.frames.flatten.all isDocumentOrAudit = true ∧
        done.documents = generation.frames.flatten.foldl writeDocuments generation.documents) := by
  obtain ⟨pending, queued⟩ := written.queued
  have start := sound_opened config more written.image
  have committed := written.committed
  rw [← flatten_chunks] at committed queued
  have documents : (opened config more generation.checkpoint).documents = generation.documents := rfl
  obtain ⟨done, replayed, sound, shown, atop⟩ := start.replay encoder committed queued (documents ▸ steady)
  rw [flatten_chunks] at shown atop
  refine ⟨done, ?_, sound, ?_, atop⟩
  · rw [loadFromLog_eq]
    exact replayed
  · rw [shown, view_opened, Generation.view]

end Generation

/-- An open store and its journal agree. -/
structure Recorded (config : Config) (encoder : Encoder dimensions) (store : Store) : Prop where
  written : store.generation.Written config
  sound : Sound config store.core
  shown : store.core.view = store.generation.view config encoder
  atop : store.core.documents.base = none ∨ store.generation.frames.flatten.all isDocumentOrAudit = true ∧
    store.core.documents = store.generation.frames.flatten.foldl writeDocuments store.generation.documents

def Generation.extend (generation : Generation) (more : List (List Mutation)) : Generation :=
  { generation with frames := generation.frames ++ more }

theorem Generation.extend_extend (generation : Generation) (more others : List (List Mutation)) :
    (generation.extend more).extend others = generation.extend (more ++ others) := by
  simp only [extend, List.append_assoc]

theorem Generation.drop_extend (generation : Generation) (more : List (List Mutation)) :
    (generation.extend more).frames.drop generation.frames.length = more := List.drop_left

theorem Generation.view_extend (generation : Generation) (more : List (List Mutation)) :
    (generation.extend more).view config encoder =
      more.flatten.foldl (View.apply encoder) (generation.view config encoder) := by
  simp only [view, extend, List.flatten_append, List.foldl_append]

def Generation.append (generation : Generation) (mutations : List Mutation) : Generation := generation.extend [mutations]

theorem Generation.flatten_append (generation : Generation) (mutations : List Mutation) :
    (generation.append mutations).frames.flatten = generation.frames.flatten ++ mutations := by
  rw [append, extend, List.flatten_append, List.flatten_singleton]

theorem auditPending_apply (encoder : Encoder dimensions) {view : View} {after : List AuditIntent}
    (moved : advance view.auditPending mutation = some after) : (view.apply encoder mutation).auditPending = after := by
  cases mutation with
  | auditPending intent =>
    rw [advance] at moved
    split at moved
    · exact Option.some.inj moved
    · contradiction
  | auditAcknowledged id =>
    rw [advance] at moved
    split at moved
    next first =>
      rw [View.apply, if_pos first]
      exact Option.some.inj moved
    next => contradiction
  | encodeDocument id version fingerprint vectors =>
    rw [View.apply]
    split
    · exact Option.some.inj moved
    · split <;> exact Option.some.inj moved
  | triplet id subject relation object =>
    rw [View.apply]
    split <;> exact Option.some.inj moved
  | _ => exact Option.some.inj moved

theorem auditPending_foldl (encoder : Encoder dimensions) {mutations : List Mutation} {after : List AuditIntent}
    (moved : mutations.foldlM advance view.auditPending = some after) :
    (mutations.foldl (View.apply encoder) view).auditPending = after := by
  induction mutations generalizing view with
  | nil => exact Option.some.inj moved
  | cons mutation mutations ih =>
    obtain ⟨next, taken, rest⟩ := foldlM_cons_eq_some.mp moved
    rw [← auditPending_apply encoder taken] at rest
    exact ih rest

theorem Generation.Written.pending (written : generation.Written config) (encoder : Encoder dimensions) :
    generation.frames.flatten.foldlM advance [] = some (generation.view config encoder).auditPending := by
  obtain ⟨pending, queued⟩ := written.queued
  rw [queued, view, auditPending_foldl encoder queued]

theorem Generation.Written.extend (written : generation.Written config) (encoder : Encoder dimensions)
    (more : List (List Mutation)) (committed : Committed config more.flatten)
    (moved : more.flatten.foldlM advance (generation.view config encoder).auditPending = some after) :
    (generation.extend more).Written config := by
  refine ⟨written.image, ?_, after, ?_⟩
  · intro mutation member
    rw [Generation.extend, List.flatten_append] at member
    rcases List.mem_append.mp member with old | new
    · exact written.committed mutation old
    · exact committed mutation new
  · rw [Generation.extend, List.flatten_append, List.foldlM_append, written.pending encoder]
    exact moved

theorem Generation.Steady.calm (steady : generation.Steady)
    (plain : generation.frames.flatten.all isDocumentOrAudit = true) :
    CalmAll generation.documents generation.frames.flatten := by
  have whole : (chunks generation.frames).takeWhile (fun chunk => chunk.all isDocumentOrAudit) =
      chunks generation.frames := by
    rw [← flatten_chunks, List.all_flatten] at plain
    rw [List.takeWhile_eq_self_iff]
    exact List.all_eq_true.mp plain
  rw [Steady, CalmReplay, whole, flatten_chunks] at steady
  exact steady

theorem Generation.valid_documents (generation : Generation) : generation.documents.Valid := by
  rw [documents]
  cases generation.checkpoint with
  | none => exact DocumentStore.valid_empty
  | some image => exact DocumentStore.valid_over image

namespace Recorded

theorem start (config : Config) (encoder : Encoder dimensions) (more : Nat) (named : NamedImage checkpoint) :
    Recorded config encoder (.start config more checkpoint) := by
  refine ⟨⟨named, ?_, [], rfl⟩, sound_opened config more named, view_opened config more checkpoint, .inr ⟨rfl, rfl⟩⟩
  intro mutation member
  simp [Store.start] at member

theorem hydrate (recorded : Recorded config encoder store) :
    ∃ core, hydrateDocuments store.core = .ok core ∧ Recorded config encoder { store with core } ∧
      core.documents.base = none := by
  obtain ⟨core, hydrated, sound, shown, bare⟩ := recorded.sound.hydrate
  exact ⟨core, hydrated, ⟨recorded.written, sound, shown.trans recorded.shown, .inl bare⟩, bare⟩

/-- A batch that passed its checks changes the store as the journal says. -/
theorem commit (recorded : Recorded config encoder store)
    (readied : hydrateUnlessAccepted store.core mutations = .ok ready) (committed : Committed config mutations)
    (audited : validateAuditTransitions ready.auditPending mutations = .ok ())
    (steady : store.core.documents.base = none ∨ (store.generation.append mutations).Steady) :
    Recorded config encoder
      ⟨{ mutations.foldl (applyDirect encoder) ready with
          revision := (mutations.foldl (applyDirect encoder) ready).revision + 1 },
        store.generation.append mutations⟩ := by
  obtain ⟨core, again, sound, shown, base⟩ := recorded.sound.hydrateUnlessAccepted mutations
  obtain rfl := Except.ok.inj (readied.symm.trans again)
  obtain ⟨after, moved⟩ := (sound.queue.validate_iff mutations).mp audited
  have described : ready.view = store.generation.view config encoder := shown.trans recorded.shown
  have pending : ready.auditPending = (store.generation.view config encoder).auditPending := congrArg View.auditPending described
  have calm : CalmAll ready.documents mutations := by
    rcases base with bare | ⟨plain, rfl⟩
    · exact .inl bare
    rcases recorded.atop with bare | ⟨others, folded⟩
    · exact .inl bare
    rcases steady with bare | steady
    · exact .inl bare
    have steady := steady.calm (by
      rw [Generation.flatten_append, List.all_append, plain, others]
      rfl)
    rw [Generation.flatten_append] at steady
    rw [folded]
    exact CalmAll.right steady store.generation.valid_documents
  obtain ⟨done, state, written⟩ := sound.steps encoder committed calm moved
  refine ⟨?_, ⟨?_, done.stored, done.queue, done.based⟩, ?_, ?_⟩
  · rw [pending] at moved
    rw [← List.flatten_singleton (l := mutations)] at committed moved
    exact recorded.written.extend encoder [mutations] committed moved
  · obtain ⟨ledger, indexed⟩ := done.indexed
    exact ⟨ledger, indexed.congr rfl rfl rfl rfl⟩
  · rw [Generation.append, Generation.view_extend, List.flatten_singleton, ← described]
    exact state
  · rcases base with bare | ⟨plain, rfl⟩
    · refine .inl ?_
      rw [written]
      exact base_foldl_writeDocuments bare mutations
    rcases recorded.atop with bare | ⟨others, folded⟩
    · refine .inl ?_
      rw [written]
      exact base_foldl_writeDocuments bare mutations
    · refine .inr ⟨?_, ?_⟩
      · rw [Generation.flatten_append, List.all_append, plain, others]
        rfl
      · rw [Generation.flatten_append, List.foldl_append]
        rw [written, folded]
        rfl

end Recorded

end Warm.Engine
