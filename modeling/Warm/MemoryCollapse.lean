import Warm.MemoryMerged
import Warm.MemoryRetry

/-! Collapsing duplicates twice. Once the merged facts are in force each group has one current fact at most, and a second
run at the same time finds nothing to merge. -/
namespace Warm.Memory

open Interleaving World List
open Program (run_bind)
open FactSummary (of)

section Status

variable {documents : Documents} {index : Index} {withText : Bool} {now : Millis}

theorem mem_summaries (fact : FactSummary) : fact ∈ summaries documents index withText now ↔
    ∃ (id : String) (parts : DocumentParts) (stamp : Stamp), documents[id]? = some parts ∧ parts.stamp = some stamp ∧
      fact = of index withText now id parts stamp := by
  unfold summaries
  rw [mem_filterMap]
  constructor
  · rintro ⟨⟨id, parts⟩, member, made⟩
    obtain ⟨stamp, stamped, rfl⟩ := Option.map_eq_some_iff.mp made
    exact ⟨id, parts, stamp, (Table.mem_toList documents id parts).mp member, stamped, rfl⟩
  · rintro ⟨id, parts, stamp, found, stamped, rfl⟩
    exact ⟨(id, parts), (Table.mem_toList documents id parts).mpr found, by rw [stamped]; rfl⟩

theorem summaries_distinct : ((summaries documents index withText now).map (·.id)).Nodup := by
  have keys := Table.toList_keys_nodup documents
  refine keys.sublist ?_
  unfold summaries
  induction documents.toList with
  | nil => exact List.Sublist.slnil
  | cons entry entries ih =>
    cases stamped : entry.2.stamp with
    | none =>
      rw [filterMap_cons_none (by rw [stamped, Option.map_none])]
      exact ih.cons _
    | some stamp =>
      rw [filterMap_cons_some (by rw [stamped, Option.map_some])]
      exact ih.cons_cons _

theorem status_eq_superseded (id : String) (parts : DocumentParts) (stamp : Stamp) :
    (of index withText now id parts stamp).status = .superseded ↔
      ∃ edge ∈ index.edges id, edge.effective ≤ now := by
  have holds : (index.edges id).any (·.holds now none) = true ↔ ∃ edge ∈ index.edges id, edge.effective ≤ now := by
    simp [Edge.holds]
  rw [← holds]
  simp only [of, evaluate, Stamp.unknownAt, Bool.false_eq_true, if_false]
  split
  · next some => simp [some]
  · next none =>
    simp only [none]
    split
    · simp
    · split <;> simp

theorem status_eq_current (id : String) (parts : DocumentParts) (stamp : Stamp) :
    (of index withText now id parts stamp).status = .current ↔
      (∀ edge ∈ index.edges id, now < edge.effective) ∧ evaluate (some stamp) [] now none = some .current := by
  have holds : (index.edges id).any (·.holds now none) = false ↔ ∀ edge ∈ index.edges id, now < edge.effective := by
    simp [Edge.holds]
  rw [← holds]
  simp only [of, evaluate, Stamp.unknownAt, Bool.false_eq_true, if_false, any_nil]
  split
  · next some => simp [some]
  · next none =>
    have open_ : (index.edges id).any (·.holds now Option.none) = false := by simpa using none
    simp only [open_, true_and]
    split
    · simp
    · split <;> simp

end Status

section Run

variable {settings : WriteSettings} {policy : ConsolidationPolicy} {options : ConsolidateOptions} {fault : Fault}
  {memory : Nat} {world after : World} {now : Millis} {report : ConsolidationReport}

theorem run_summariesSnapshot (fault : Fault) (memory : Nat) (world : World) (withText : Bool) (now : Millis) (attempts : Nat) :
    (summariesSnapshot memory withText now (attempts + 1)).run execute fault world =
      (.ok (world.revision, summaries world.documents ((refreshed world memory).index memory) withText now),
        refreshed world memory) := by
  unfold summariesSnapshot
  rw [run_bind, run_planningRevision]
  simp only
  have found : summarized (refreshed world memory) memory world.revision withText now =
      some (.ok (world.revision, summaries world.documents ((refreshed world memory).index memory) withText now)) := by
    have marked := refreshed_index_revision world memory
    unfold summarized
    rw [marked, if_neg (not_not_intro rfl), refreshed_documents, refreshed_revision]
    simp [check, bind, Except.bind, pure, Except.pure]
  rw [run_bind, run_summarize, found]
  simp only
  rw [run_bind, run_revisionMatches, refreshed_revision, beq_self_eq_true]
  rfl

theorem run_consolidate_idle (fault : Fault) (nothing : mergedInputs settings (policy.plan (summaries world.documents
    ((refreshed world memory).index memory) policy.needsText now) now) = []) :
    (consolidate settings policy memory options now).run execute fault world =
      (.ok ⟨[], [], options.dryRun⟩, refreshed world memory) := by
  unfold consolidate WRITE_ATTEMPTS consolidateAttempts WRITE_ATTEMPTS
  rw [run_bind, run_summariesSnapshot]
  simp only [nothing]
  rw [isEmpty_nil, Bool.true_or, if_pos rfl, run_bind, run_revisionMatches, refreshed_revision,
    beq_self_eq_true]
  rfl

theorem run_rememberAtRevision_ok (fresh : (world.index memory).revision = some world.revision)
    (ran : (rememberAtRevision settings memory inputs now world.revision).run execute fault world = (.ok outcomes, after)) :
    ∃ planned, (planAll settings now inputs []).eval (answer world.documents (world.index memory)) = .ok planned ∧
      (commitPlanned memory world.revision planned).run execute fault world = (.ok outcomes, after) ∧
      outcomes = some (planned.map Planned.outcome) := by
  by_cases batch : batchCheck inputs = true
  · rw [run_rememberAtRevision settings fault memory world inputs now batch fresh] at ran
    cases plan : (planAll settings now inputs []).eval (answer world.documents (world.index memory)) with
    | error error => simp [plan] at ran
    | ok planned =>
      rw [plan] at ran
      exact ⟨planned, rfl, ran, (run_commitPlanned_ok fault memory world ran).1⟩
  · unfold rememberAtRevision at ran
    simp [batch] at ran

theorem run_consolidate_ok (wet : options.dryRun = false) (gentle : doomedSources options (policy.plan (summaries
      world.documents ((refreshed world memory).index memory) policy.needsText now) now) = [])
    (filled : mergedInputs settings (policy.plan (summaries world.documents ((refreshed world memory).index memory)
      policy.needsText now) now) ≠ [])
    (ran : (consolidate settings policy memory options now).run execute fault world = (.ok report, after)) :
    ∃ planned, (planAll settings now (mergedInputs settings (policy.plan (summaries world.documents
        ((refreshed world memory).index memory) policy.needsText now) now)) []).eval
        (answer world.documents ((refreshed world memory).index memory)) = .ok planned ∧
      (commitPlanned memory (refreshed world memory).revision planned).run execute fault (refreshed world memory) =
        (.ok (some (planned.map Planned.outcome)), after) ∧ report = ⟨planned.map Planned.outcome, [], false⟩ := by
  unfold consolidate WRITE_ATTEMPTS consolidateAttempts WRITE_ATTEMPTS at ran
  rw [run_bind, run_summariesSnapshot] at ran
  simp only [wet, gentle, Bool.or_false] at ran
  rw [if_neg (by simpa using filled), run_bind] at ran
  cases attempt : (rememberAtRevision settings memory (mergedInputs settings (policy.plan (summaries world.documents
      ((refreshed world memory).index memory) policy.needsText now) now)) now world.revision).run execute fault
      (refreshed world memory) with
  | mk reply last =>
    rw [attempt] at ran
    match reply with
    | .error error => simp at ran
    | .ok outcomes =>
      rw [← refreshed_revision world memory] at attempt
      obtain ⟨planned, plan, committed, rfl⟩ := run_rememberAtRevision_ok
        (by rw [refreshed_index_revision, refreshed_revision]) attempt
      rw [refreshed_documents] at plan
      unfold consolidateCleanup at ran
      simp only [isEmpty_nil, if_true] at ran
      obtain ⟨rfl, rfl⟩ := ran
      exact ⟨planned, plan, committed, rfl⟩

theorem refreshed_commitPlanned (fresh : (world.index memory).revision = some world.revision)
    (ran : (commitPlanned memory world.revision planned).run execute fault world = (.ok outcomes, after))
    (written : writtenFacts planned ≠ []) (entries : planned.filterMap Planned.entry ≠ []) :
    (∃ updated, settleWritten (writtenFacts planned) (world.index memory) = some updated ∧
        (refreshed after memory).index memory = { updated with revision := some after.revision }) ∨
      (refreshed after memory).index memory = Index.rebuild after.documents after.revision := by
  rw [run_commitPlanned] at ran
  cases changes : changed world (.remember (planned.filterMap Planned.entry)) world.revision fault with
  | mk reply landed =>
    rw [changes] at ran
    match reply with
    | .error error => simp at ran
    | .ok _ =>
      have filled : (Transaction.remember (planned.filterMap Planned.entry)).inputs ≠ [] := entries
      obtain ⟨rfl, rfl⟩ := changed_alone (.inl filled) changes
      have some : (planned.filter fun fact => !fact.idempotent).isEmpty = false := by
        rw [isEmpty_eq_false_iff]
        exact written
      have several : (planned.filterMap Planned.entry).isEmpty = false := by
        rw [isEmpty_eq_false_iff]
        exact entries
      simp only [some, several, Bool.false_eq_true, if_false, Prod.mk.injEq] at ran
      obtain ⟨-, rfl⟩ := ran
      have own : (world.commit (.remember (planned.filterMap Planned.entry)) fun _ => true).index memory = world.index memory :=
        rfl
      have next : (world.commit (.remember (planned.filterMap Planned.entry)) fun _ => true).revision = world.revision + 1 :=
        rfl
      rw [own, next, settled, if_pos ⟨fresh, rfl⟩]
      cases applied : settleWritten (planned.filter fun fact => !fact.idempotent) (world.index memory) with
      | none =>
        right
        unfold refreshed
        rw [if_neg (by simp [World.setIndex])]
        simp [World.setIndex, World.documents]
      | some updated =>
        left
        refine ⟨updated, applied, ?_⟩
        rw [refreshed_eq_self _ _ (by simp [World.setIndex, next])]
        simp [World.setIndex, next]

/-- What a remember leaves whose written facts all have memory fields the index takes up. -/
theorem commitPlanned_grown (fresh : (world.index memory).revision = some world.revision)
    (mirrors : (world.index memory).Mirrors world.documents)
    (plan : (planAll settings now inputs []).eval (answer world.documents (world.index memory)) = .ok planned)
    (tracked : ∀ fact ∈ writtenFacts planned, fact.stamp.tracked = true)
    (ran : (commitPlanned memory world.revision planned).run execute fault world = (.ok outcomes, after)) :
    With world.documents after.documents (writtenFacts planned) ∧
      Grown world.documents (writtenFacts planned) (world.index memory) ((refreshed after memory).index memory) := by
  have from_ : PlannedFrom world.documents (world.index memory) settings now inputs planned := by
    simpa using planAll_ok .nil plan
  have writes := from_.writes mirrors
  have idle : ∀ fact ∈ planned, fact.idempotent = true → fact.document = none := by
    intro fact member idempotent
    rcases from_.fact member with kept | ⟨_, _, _, _, _, _, new⟩
    · exact kept.document
    · rw [new.idempotent] at idempotent
      simp at idempotent
  obtain ⟨-, documents⟩ := run_commitPlanned_ok fault memory world ran
  have with_ := apply_remember_with writes idle
  rw [← documents] at with_
  refine ⟨with_, ?_⟩
  by_cases written : writtenFacts planned = []
  · have entries : planned.filterMap Planned.entry = [] := by
      rw [filterMap_eq_nil_iff]
      intro fact member
      have idempotent := filter_eq_nil_iff.mp written fact member
      rw [Planned.entry, idle fact member (by simpa using idempotent), Option.map_none]
    have same : after = world := by
      rw [run_commitPlanned, entries] at ran
      unfold writtenFacts at written
      simpa [changed, Transaction.inputs, Transaction.deleted, written, eq_comm] using (Prod.mk.inj ran).2
    rw [same, refreshed_eq_self world memory fresh, written]
    exact ⟨fun id _ edge member _ => ⟨edge, member, rfl⟩, forall_mem_nil _,
      fun id _ edge' member => .inl ⟨edge', member, rfl⟩⟩
  · have entries : planned.filterMap Planned.entry ≠ [] := by
      obtain ⟨fact, member⟩ := exists_mem_of_ne_nil _ written
      obtain ⟨parts, own, -⟩ := writes.document fact member
      have listed : (fact.id, parts) ∈ planned.filterMap Planned.entry :=
        mem_filterMap.mpr ⟨fact, (mem_filter.mp member).1, by rw [Planned.entry, own, Option.map_some]⟩
      exact ne_nil_of_mem listed
    rcases refreshed_commitPlanned fresh ran written entries with ⟨updated, applied, own⟩ | rebuilt
    · have grown := grown_of_settle mirrors writes tracked with_ applied
      rw [own]
      exact ⟨grown.old, grown.new, grown.only⟩
    · rw [rebuilt]
      exact grown_of_mirrors mirrors (Index.rebuild_mirrors _ _) writes tracked with_

end Run

section Merged

variable {settings : WriteSettings} {documents : Documents} {index : Index} {earlier : List Planned} {now : Millis}
  {group : List FactSummary} {newest : FactSummary} {fact : Planned}

/-- The fact that a group is merged into, as it is written. -/
structure MergedAs (settings : WriteSettings) (now : Millis) (group : List FactSummary) (newest : FactSummary)
    (fact : Planned) : Prop where
  idempotent : fact.idempotent = false
  sources : ∀ source ∈ group, source.id ∈ fact.stamp.supersedes
  only : settings.supersessionActive = false → ∀ old ∈ fact.stamp.supersedes, ∃ source ∈ group, source.id = old
  effective : fact.stamp.effectiveFrom = (newest.validFrom.or newest.eventTime).getD now
  subject : fact.stamp.subject = newest.subject.map trim
  text : ∃ parts, fact.document = some parts ∧ parts.text = some (newest.text.getD "")

theorem planOne_merged
    (planned : (planOne settings earlier (mergedFact settings group newest) now).eval (answer documents index) = .ok fact) :
    fact.id = mergedId settings group ∧ ((fact.idempotent = true ∧ ∃ parts checked, documents[fact.id]? = some parts ∧
      checkInput settings (mergedFact settings group newest) = .ok checked ∧
        parts.stamp.bind (·.hash) = some checked.hash) ∨
      (MergedAs settings now group newest fact ∧ (settings.onIdConflict = .reject → documents[fact.id]? = none))) := by
  obtain ⟨checked, passed, same, hashed, found⟩ := planOne_ok planned
  obtain ⟨-, -, about, named, own⟩ := checkInput_ok passed
  have listed := collectExplicit_ok named
  refine ⟨same.trans own, ?_⟩
  rcases found with kept | new
  · obtain ⟨parts, stored, stamped⟩ := kept.stored
    exact .inl ⟨kept.idempotent, parts, checked, stored, passed, by rw [stamped]; exact hashed⟩
  · obtain ⟨links, linked, stamp⟩ := new.stamp
    have explicit (id : String) : id ∈ checked.explicit ↔ ∃ source ∈ group, source.id = id := by
      rw [listed]
      change id ∈ orderedIds (group.map (·.id)) ↔ _
      rw [mem_orderedIds, mem_map]
    refine .inr ⟨⟨new.idempotent, ?_, ?_, ?_, ?_, ?_⟩, new.reject⟩
    · intro source member
      rw [stamp]
      exact (planLinks_ok linked).2.2 _ ((explicit _).mpr ⟨source, member, rfl⟩)
    · intro inactive old member
      unfold planLinks at linked
      rw [inactive] at linked
      simp only [Plan.eval_pure, Except.ok.injEq] at linked
      rw [stamp, ← linked] at member
      exact (explicit old).mp member
    · rw [stamp]
      rfl
    · rw [stamp]
      exact about
    · exact planOne_text planned new.idempotent

end Merged

end Warm.Memory
