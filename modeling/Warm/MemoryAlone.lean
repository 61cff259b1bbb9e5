import Warm.MemoryWorld

/-! Calls that run with nothing in between: every read finds one state, the planning revision is the store's own, and a
transaction meets the revision it was planned at. -/
namespace Warm.Memory

open Interleaving
open Program (run_bind run_pure)

section Refresh

variable (world : World) (memory : Nat)

@[simp] theorem refreshed_revision : (refreshed world memory).revision = world.revision := by
  unfold refreshed
  split <;> rfl

@[simp] theorem refreshed_history : (refreshed world memory).history = world.history := by
  unfold refreshed
  split <;> rfl

@[simp] theorem refreshed_documents : (refreshed world memory).documents = world.documents := by
  rw [World.documents, refreshed_history, refreshed_revision, World.documents]

theorem refreshed_index_revision : ((refreshed world memory).index memory).revision = some world.revision := by
  unfold refreshed
  split
  · assumption
  · simp [World.setIndex, Index.rebuild]

theorem refreshed_eq_self (fresh : (world.index memory).revision = some world.revision) : refreshed world memory = world :=
  if_pos fresh

end Refresh

theorem World.Sound.describes_refreshed {world : World} (sound : world.Sound) (memory : Nat) :
    ((Memory.refreshed world memory).index memory).Describes world.documents := by
  have held := (sound.refreshed memory memory _ (refreshed_index_revision world memory)).2
  rwa [refreshed_history] at held

section Run

variable (fault : Fault) (memory : Nat) (world : World)

theorem run_readPlan (plan : Plan α) :
    (readPlan memory plan).run execute fault world = (plan.eval (answer world.documents (world.index memory)), world) :=
  Program.run_lift _ _ fault (fun _ _ => rfl) plan world

@[simp] theorem run_coreRevision : (perform .coreRevision).run execute fault world = (world.revision, world) :=
  rfl

@[simp] theorem run_indexRevision :
    (perform (.indexRevision memory)).run execute fault world = ((world.index memory).revision, world) :=
  rfl

@[simp] theorem run_refresh : (perform (.refresh memory)).run execute fault world = ((), refreshed world memory) :=
  rfl

@[simp] theorem run_change (transaction : Transaction) (revision : Nat) :
    (perform (.change transaction revision)).run execute fault world = changed world transaction revision fault :=
  rfl

@[simp] theorem run_settle (before after commits : Nat) (apply : Index → Option Index) :
    (perform (.settle memory before after commits apply)).run execute fault world =
      ((), world.setIndex memory (settled (world.index memory) before after commits apply)) :=
  rfl

@[simp] theorem run_revisionMatches (revision : Nat) :
    (perform (.revisionMatches revision)).run execute fault world = (world.revision == revision, world) :=
  rfl

@[simp] theorem run_summarize (revision : Nat) (withText : Bool) (now : Millis) :
    (perform (.summarize memory revision withText now)).run execute fault world =
      (summarized world memory revision withText now, world) :=
  rfl

theorem run_ensureFresh : (ensureFresh memory).run execute fault world = ((), refreshed world memory) := by
  unfold ensureFresh
  rw [run_bind, run_coreRevision, run_bind, run_indexRevision]
  split
  · next fresh => rw [refreshed_eq_self world memory fresh, run_pure]
  · rw [run_refresh]

theorem run_planningRevision :
    (planningRevision memory).run execute fault world = (some world.revision, refreshed world memory) := by
  unfold planningRevision
  rw [run_bind, run_ensureFresh, run_bind, run_coreRevision, run_bind, run_indexRevision,
    run_pure, refreshed_index_revision, refreshed_revision, if_pos rfl]

end Run

section Remember

variable (settings : WriteSettings) (fault : Fault) (memory : Nat) (world : World) (inputs : List RememberInput) (now : Millis)

theorem run_commitPlanned (planned : List Planned) :
    (commitPlanned memory world.revision planned).run execute fault world =
      match changed world (.remember (planned.filterMap Planned.entry)) world.revision fault with
      | (.error error, after) => (.error error, after)
      | (.ok false, after) => (.ok none, after)
      | (.ok true, after) => (.ok (some (planned.map Planned.outcome)),
          if (planned.filter fun fact => !fact.idempotent).isEmpty then after
          else after.setIndex memory (settled (after.index memory) world.revision after.revision
            (if (planned.filterMap Planned.entry).isEmpty then 0 else 1)
            (settleWritten (planned.filter fun fact => !fact.idempotent)))) := by
  unfold commitPlanned
  rw [run_bind, run_change]
  generalize changed world _ world.revision fault = result
  obtain ⟨reply, after⟩ := result
  cases reply with
  | error error => rfl
  | ok landed =>
    cases landed with
    | false => rfl
    | true =>
      by_cases idle : (planned.filter fun fact => !fact.idempotent).isEmpty = true
      · simp only [idle, Bool.not_true, Bool.false_eq_true, if_false, if_true, run_pure]
      · simp only [idle, Bool.not_false, if_true, Bool.false_eq_true, if_false]
        rw [run_bind, run_coreRevision, run_bind, run_settle, run_pure]

theorem run_rememberAtRevision (batch : batchCheck inputs = true)
    (fresh : (world.index memory).revision = some world.revision) :
    (rememberAtRevision settings memory inputs now world.revision).run execute fault world =
      match (planAll settings now inputs []).eval (answer world.documents (world.index memory)) with
      | .error error => (.error error, world)
      | .ok planned => (commitPlanned memory world.revision planned).run execute fault world := by
  unfold rememberAtRevision
  rw [batch, Bool.not_true, if_neg Bool.false_ne_true, run_bind, run_indexRevision, fresh,
    if_neg (not_not_intro rfl), run_bind, run_readPlan]
  cases (planAll settings now inputs []).eval (answer world.documents (world.index memory)) with
  | error error => exact congrArg (fun result => (result, world)) (if_neg (not_not_intro rfl))
  | ok planned => rfl

theorem run_commitPlanned_ok
    (ran : (commitPlanned memory world.revision planned).run execute fault world = (.ok outcomes, after)) :
    outcomes = some (planned.map Planned.outcome) ∧
      after.documents = (Transaction.remember (planned.filterMap Planned.entry)).apply (fun _ => true) world.documents := by
  rw [run_commitPlanned] at ran
  have cases := World.changed_cases world (.remember (planned.filterMap Planned.entry)) world.revision fault
  generalize changed world _ world.revision fault = result at ran cases
  obtain ⟨reply, landed⟩ := result
  match reply with
  | .error error => simp at ran
  | .ok false =>
    rcases cases with ⟨-, late, -⟩ | ⟨-, -, installed, -, ⟨done, -⟩ | failed⟩
    · exact absurd rfl (late rfl)
    · simp at done
    · simp at failed
  | .ok true =>
    simp only [Prod.mk.injEq, Except.ok.injEq] at ran
    obtain ⟨rfl, rfl⟩ := ran
    refine ⟨rfl, ?_⟩
    have settles : ∀ index, (if (planned.filter fun fact => !fact.idempotent).isEmpty = true then landed
        else landed.setIndex memory index).documents = landed.documents := by
      intro index
      split <;> rfl
    rw [settles]
    rcases cases with ⟨same, -, nothing, -⟩ | ⟨-, -, installed, written, ⟨-, whole⟩ | failed⟩
    · obtain ⟨empty, -, -⟩ := nothing rfl
      simp only [Transaction.inputs] at empty
      rw [show landed = world from same, empty]
      rfl
    · rw [show landed = world.commit _ installed from written, whole]
      simp [World.documents, World.commit]
    · simp at failed

variable {settings fault memory world inputs now}

theorem run_rememberMany_ok
    (ran : (rememberMany settings memory inputs now).run execute fault world = (.ok outcomes, after)) :
    batchCheck inputs = true ∧ ∃ planned,
      (planAll settings now inputs []).eval (answer world.documents ((refreshed world memory).index memory)) = .ok planned ∧
        outcomes = planned.map Planned.outcome ∧
        after.documents = (Transaction.remember (planned.filterMap Planned.entry)).apply (fun _ => true) world.documents := by
  unfold rememberMany at ran
  split at ran
  · next batch =>
    refine ⟨batch, ?_⟩
    unfold WRITE_ATTEMPTS rememberAttempts at ran
    rw [run_bind, run_planningRevision] at ran
    simp only at ran
    have fresh := refreshed_index_revision world memory
    rw [run_bind, ← refreshed_revision world memory,
      run_rememberAtRevision _ _ _ _ _ _ batch (by rw [fresh, refreshed_revision]), refreshed_documents] at ran
    cases plan : (planAll settings now inputs []).eval (answer world.documents ((refreshed world memory).index memory)) with
    | error error => simp [plan] at ran
    | ok planned =>
      simp only [plan] at ran
      cases committed : (commitPlanned memory (refreshed world memory).revision planned).run execute fault
          (refreshed world memory) with
      | mk reply landed =>
        rw [committed] at ran
        cases reply with
        | error error => simp at ran
        | ok reply =>
          obtain ⟨rfl, documents⟩ := run_commitPlanned_ok _ _ _ committed
          simp only [run_pure, Prod.mk.injEq, Except.ok.injEq] at ran
          obtain ⟨rfl, rfl⟩ := ran
          exact ⟨planned, rfl, rfl, by rw [documents, refreshed_documents]⟩
  · simp at ran

theorem run_rememberMany_idle (batch : batchCheck inputs = true)
    (plan : (planAll settings now inputs []).eval (answer world.documents ((refreshed world memory).index memory)) = .ok planned)
    (stored : ∀ fact ∈ planned, fact.idempotent = true ∧ fact.document = none) :
    (rememberMany settings memory inputs now).run execute fault world =
      (.ok (planned.map Planned.outcome), refreshed world memory) := by
  have entries : planned.filterMap Planned.entry = [] := by
    rw [List.filterMap_eq_nil_iff]
    intro fact member
    rw [Planned.entry, (stored fact member).2, Option.map_none]
  have written : (planned.filter fun fact => !fact.idempotent) = [] := by
    rw [List.filter_eq_nil_iff]
    intro fact member
    simp [(stored fact member).1]
  have fresh := refreshed_index_revision world memory
  unfold rememberMany
  rw [if_pos batch]
  unfold WRITE_ATTEMPTS rememberAttempts
  rw [run_bind, run_planningRevision]
  simp only
  rw [run_bind, ← refreshed_revision world memory,
    run_rememberAtRevision _ _ _ _ _ _ batch (by rw [fresh, refreshed_revision]), refreshed_documents, plan]
  simp only
  rw [run_commitPlanned, entries, written]
  simp [changed, Transaction.inputs, Transaction.deleted]

end Remember

end Warm.Memory
