import Warm.ArenaReplay
import Warm.EngineIndex
import Warm.EngineRun

/-! A commit against the files of its journal. Whatever makes it fail (a check, another revision, the
append or its sync), the live state is as it was and the journal replays what it replayed before. -/
namespace Warm.Engine

open Binary Audit List

/-- The live state of an engine and the journal its commits append to. -/
structure Journaled where
  core : WarmCore
  arena : Arena

section Commit

variable (codec : Codec) (format : Format)

/-- `arena_write`, with what `maybe_encrypt` makes of the payload. -/
def arenaWrite (arena : Arena) (encrypted : Option Bytes) (faults : Arena.Faults) : Arena × Bool :=
  match encrypted with
  | none => (arena, false)
  | some payload =>
    match Arena.writeFrame codec format arena payload true faults with
    | (arena, .ok _) => (arena, true)
    | (arena, .error _) => (arena, false)

variable (encoder : Encoder dimensions) (encrypt : Bytes → Option Bytes)

/-- `commit_payload_at_revision` with the append to the arena as its closure; `seen` is the document
store the batch was prepared against. -/
def commitPayloadAtRevision (journaled : Journaled) (seen : DocumentStore) (mutations : List Mutation)
    (payload : Bytes) (revision : Option Nat) (faults : Arena.Faults) : Journaled × Except EngineError Bool :=
  if revision.any (· != journaled.core.revision) then (journaled, .ok false)
  else
    match validateAuditTransitions journaled.core.auditPending mutations with
    | .error error => (journaled, .error (.audit error))
    | .ok () =>
      match arenaWrite codec format journaled.arena (encrypt payload) faults with
      | (arena, false) => ({ journaled with arena }, .error .append)
      | (arena, true) =>
        let (core, failure) := applyMutations encoder journaled.core mutations (prepareMutations seen mutations)
        (⟨{ core with revision := core.revision + 1 }, arena⟩,
          match failure with
          | none => .ok true
          | some error => .error (.livePublication error))

/-- `commit_serialized` and `commit_serialized_if_revision`, once the documents are ready for the batch. -/
def commitSerialized (config : Config) (journaled : Journaled) (seen : DocumentStore) (mutations : List Mutation)
    (payload : Bytes) (revision : Option Nat) (faults : Arena.Faults) : Journaled × Except EngineError Bool :=
  match validateTransaction config mutations with
  | .error error => (journaled, .error (.invalid error))
  | .ok () => commitPayloadAtRevision codec format encoder encrypt journaled seen mutations payload revision faults

end Commit

variable {codec : Codec} {format : Format} {encoder : Encoder dimensions} {encrypt : Bytes → Option Bytes}
  {pending after : List AuditIntent} {ids ids' : List EffectId} {mutation : Mutation} {mutations : List Mutation}

/-! ### Installing a checked batch reports no failure -/

theorem applyAudit_of_transition (known : pending.mapM identify = .ok ids) (moved : auditTransition ids mutation = .ok ids') :
    ∃ after, applyAudit pending mutation = .ok after ∧ after.mapM identify = .ok ids' := by
  rw [mapM_eq_ok] at known
  cases mutation with
  | auditPending intent =>
    obtain ⟨id, own, moved⟩ := bind_eq_ok.mp moved
    split at moved
    · split at moved
      · cases moved
      · cases moved
        exact ⟨pending ++ [intent], rfl, mapM_eq_ok.mpr (rel_append known (.cons own .nil))⟩
    · cases moved
  | auditAcknowledged id =>
    rw [auditTransition] at moved
    split at moved
    next first =>
      cases moved
      cases known with
      | nil => cases first
      | @cons intent head rest ids own others =>
        cases first
        have named : intent.id = some id := by
          rw [identify] at own
          split at own
          next found => rw [found, Except.ok.inj own]
          next => cases own
        refine ⟨rest, ?_, mapM_eq_ok.mpr others⟩
        rw [applyAudit, if_pos (by simpa using named)]
        rfl
    next => cases moved
  | _ =>
    cases moved
    exact ⟨pending, rfl, mapM_eq_ok.mpr known⟩

theorem applyAudit_of_validated (valid : validateAuditTransitions pending mutations = .ok ()) :
    ∃ after, mutations.foldlM applyAudit pending = .ok after := by
  have walk (ids last : List EffectId) (known : pending.mapM identify = .ok ids)
      (moved : mutations.foldlM auditTransition ids = .ok last) : ∃ after, mutations.foldlM applyAudit pending = .ok after := by
    clear valid
    induction mutations generalizing pending ids with
    | nil => exact ⟨pending, rfl⟩
    | cons mutation mutations ih =>
      rw [foldlM_cons] at moved ⊢
      obtain ⟨next, first, rest⟩ := bind_eq_ok.mp moved
      obtain ⟨after, applied, same⟩ := applyAudit_of_transition known first
      rw [applied]
      exact ih next same rest
  rw [validateAuditTransitions] at valid
  split at valid
  · obtain ⟨ids, known, valid⟩ := bind_eq_ok.mp valid
    obtain ⟨last, moved, _⟩ := bind_eq_ok.mp valid
    exact walk ids last known moved
  next none =>
    refine ⟨pending, ?_⟩
    clear valid walk
    induction mutations with
    | nil => rfl
    | cons mutation mutations ih =>
      rw [any_cons, Bool.or_eq_true, not_or] at none
      rw [foldlM_cons]
      have still : applyAudit pending mutation = .ok pending := by
        cases mutation with
        | auditPending intent => exact absurd rfl none.1
        | auditAcknowledged id => exact absurd rfl none.1
        | _ => rfl
      rw [still]
      exact ih none.2

variable (encoder) in
theorem applyOther_audit (core : WarmCore) (moved : applyAudit core.auditPending mutation = .ok after) :
    ∃ next, applyOther encoder core mutation = .ok next ∧ next.auditPending = after := by
  cases mutation with
  | auditPending intent | auditAcknowledged id =>
    rw [applyOther, moved]
    exact ⟨_, rfl, rfl⟩
  | vector id vector | delete id =>
    cases moved
    refine ⟨_, rfl, ?_⟩
    simp only [removeDerivedFromMemory_eq]
    rfl
  | deleteDocument id =>
    cases moved
    refine ⟨_, rfl, ?_⟩
    simp only [removeDocumentFromMemory_eq]
  | triplet id subject relation object =>
    cases moved
    refine ⟨_, rfl, ?_⟩
    simp only [applyTriplet, removeDerivedFromMemory_eq]
    split <;> rfl
  | encodeDocument id version fingerprint vectors =>
    cases moved
    refine ⟨_, rfl, ?_⟩
    rw [installDeferredEncoding]
    split
    · rfl
    · split <;> rfl
  | _ =>
    cases moved
    exact ⟨_, rfl, rfl⟩

variable (encoder) in
theorem applyMutation_audit (prepared : Prepared) (moved : applyAudit state.core.auditPending mutation = .ok after) :
    (applyMutation encoder state mutation prepared).2 = none ∧
      (applyMutation encoder state mutation prepared).1.core.auditPending = after := by
  unfold applyMutation
  dsimp only
  split
  · cases moved
    refine ⟨rfl, ?_⟩
    rw [applyDocument]
    split <;> rfl
  · obtain ⟨next, applied, same⟩ := applyOther_audit encoder
      { state.install.core with otherState := state.core.otherState || !isDocumentOrAudit mutation } moved
    have applied' : applyOther encoder (Applying.install { state with
        core := { state.core with otherState := state.core.otherState || !isDocumentOrAudit mutation } }).core
        mutation = .ok next := applied
    rw [applied']
    exact ⟨rfl, same⟩

variable (encoder) in
theorem applyLoop_audit (state : Applying) (prepared : List Prepared)
    (moved : mutations.foldlM applyAudit state.core.auditPending = .ok after) :
    (applyLoop encoder state none (mutations.zip prepared)).2 = none := by
  induction mutations generalizing state prepared with
  | nil => rfl
  | cons mutation mutations ih =>
    cases prepared with
    | nil => rfl
    | cons first prepared =>
      rw [foldlM_cons] at moved
      obtain ⟨next, one, rest⟩ := bind_eq_ok.mp moved
      obtain ⟨silent, same⟩ := applyMutation_audit encoder first one
      rw [zip_cons_cons, applyLoop]
      dsimp only
      rw [silent]
      exact ih _ prepared (same.symm ▸ rest)

/-! ### What a failed append leaves of the arena -/

/-- The active segment and the offset in it where the next frame goes. -/
def position (arena : Arena) : Nat × Nat := (arena.activeId, arena.writeOffset)

variable {arena : Arena} {payload frame : Bytes} {faults : Arena.Faults} {durable : Bool} {error : Arena.AppendError}

theorem commitSerialized_append (checked : validateTransaction config mutations = .ok ())
    (current : ¬revision.any (· != journaled.core.revision) = true)
    (valid : validateAuditTransitions journaled.core.auditPending mutations = .ok ()) :
    (commitSerialized codec format encoder encrypt config journaled seen mutations payload revision faults).1.arena =
        (arenaWrite codec format journaled.arena (encrypt payload) faults).1 ∧
      (commitSerialized codec format encoder encrypt config journaled seen mutations payload revision faults).2 =
        if (arenaWrite codec format journaled.arena (encrypt payload) faults).2 then .ok true else .error .append := by
  rw [commitSerialized, checked]
  rw [commitPayloadAtRevision, if_neg current, valid]
  dsimp only
  rcases arenaWrite codec format journaled.arena (encrypt payload) faults with ⟨arena, _ | _⟩
  · exact ⟨rfl, rfl⟩
  · obtain ⟨after, moved⟩ := applyAudit_of_validated valid
    have silent := applyLoop_audit encoder ⟨journaled.core, [], []⟩
      (prepareMutations seen mutations) moved
    change (applyMutations encoder journaled.core mutations (prepareMutations seen mutations)).2 = none at silent
    rw [silent]
    exact ⟨rfl, rfl⟩

theorem commitSerialized_refused
    (refused : (commitSerialized codec format encoder encrypt config journaled seen mutations payload revision faults).2 ≠ .ok true) :
    (commitSerialized codec format encoder encrypt config journaled seen mutations payload revision faults).1 = journaled ∨
      (commitSerialized codec format encoder encrypt config journaled seen mutations payload revision faults).1 =
          { journaled with arena := (arenaWrite codec format journaled.arena (encrypt payload) faults).1 } ∧
        (arenaWrite codec format journaled.arena (encrypt payload) faults).2 = false := by
  cases checked : validateTransaction config mutations with
  | error error =>
    rw [commitSerialized, checked]
    exact .inl rfl
  | ok =>
    by_cases stale : revision.any (· != journaled.core.revision) = true
    · rw [commitSerialized, checked]
      rw [commitPayloadAtRevision, if_pos stale]
      exact .inl rfl
    cases valid : validateAuditTransitions journaled.core.auditPending mutations with
    | error error =>
      rw [commitSerialized, checked]
      rw [commitPayloadAtRevision, if_neg stale, valid]
      exact .inl rfl
    | ok =>
      rw [(commitSerialized_append checked stale valid).2] at refused
      have failed : (arenaWrite codec format journaled.arena (encrypt payload) faults).2 = false := by
        by_contra taken
        rw [if_pos (by simpa using taken)] at refused
        exact refused rfl
      refine .inr ⟨?_, failed⟩
      rw [commitSerialized, checked]
      rw [commitPayloadAtRevision, if_neg stale, valid]
      dsimp only
      split
      next arena found => rw [found]
      next arena found =>
        rw [found] at failed
        cases failed

def deletion : List Mutation := [.delete "a"]

/-- After `n` commits the segment holds `n` frames of 49 bytes. -/
structure Filled (n : Nat) (arena : Arena) : Prop where
  position : position arena = (0, 49 * n)
  mapped : arena.mapLen = Arena.SEGMENT_SIZE
  idle : arena.rotationPending = false

end Warm.Engine
