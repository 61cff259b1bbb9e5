import Warm.MemoryCollapsed

/-! When consolidation is idempotent, and a store on which it is not. -/
namespace Warm.Memory

open Interleaving World List
open Plan (eval_ask eval_bind_eq_ok)

section Completes

variable {settings : WriteSettings} {lowercase : String → String} {memory : Nat} {options : ConsolidateOptions}
  {now : Millis} {fault : Fault} {world after : World} {documents : Documents} {index : Index} {input : RememberInput}
  {earlier : List Planned}

theorem planKnown_stored (stored : ∀ id ∈ ids, documents.contains id = true) :
    (planKnown settings earlier ids).eval (answer documents index) = .ok () := by
  induction ids with
  | nil => rfl
  | cons id ids ih =>
    have found : (answer documents index (.hasDocument id) : Bool) = true := stored id mem_cons_self
    unfold planKnown
    refine (eval_bind_eq_ok _).mpr ⟨true, by rw [eval_ask]; exact congrArg Except.ok found, ?_⟩
    exact (eval_bind_eq_ok _).mpr ⟨(), (Plan.eval_require_eq_ok _).mpr rfl, ih fun other member =>
      stored other (mem_cons_of_mem id member)⟩

theorem planNoChain_free (free : ∀ id ∈ ids, index.supersedesTransitively (source id) (target id) = false) :
    (planNoChain message source target ids).eval (answer documents index) = .ok () := by
  induction ids with
  | nil => rfl
  | cons id ids ih =>
    have reaches : (answer documents index (.supersedesTransitively (source id) (target id)) : Bool) = false :=
      free id mem_cons_self
    unfold planNoChain
    refine (eval_bind_eq_ok _).mpr ⟨false, by rw [eval_ask]; exact congrArg Except.ok reaches, ?_⟩
    exact (eval_bind_eq_ok _).mpr ⟨(), (Plan.eval_require_eq_ok _).mpr rfl, ih fun other member =>
      free other (mem_cons_of_mem id member)⟩

theorem planOne_fresh (inactive : settings.supersessionActive = false)
    (one : ∀ document, settings.chunkCount document = .ok 1) (passed : checkInput settings input = .ok checked)
    (absent : documents[checked.id]? = none) (stored : ∀ id ∈ checked.explicit, documents.contains id = true)
    (free : ∀ id ∈ checked.explicit, index.supersedesTransitively id checked.id = false) :
    ∃ fact, (planOne settings earlier input now).eval (answer documents index) = .ok fact ∧ fact.id = checked.id := by
  have nothing : (planExisting settings checked).eval (answer documents index) = .ok .nothing := by
    unfold planExisting
    refine (eval_bind_eq_ok _).mpr ⟨none, by rw [eval_ask]; exact congrArg Except.ok absent, rfl⟩
  have linked : (planLinks settings earlier input checked now).eval (answer documents index) = .ok ⟨checked.explicit, []⟩ := by
    unfold planLinks
    rw [inactive]
    rfl
  have acyclic : (planAcyclic settings checked.id ⟨checked.explicit, []⟩).eval (answer documents index) = .ok () :=
    (eval_bind_eq_ok _).mpr ⟨(), planNoChain_free free, rfl⟩
  obtain ⟨document, made⟩ : ∃ document, planDocument settings input checked ⟨now, input.eventTime, input.validFrom,
      input.validTo, checked.subject, checked.explicit, [], checked.entities, some checked.hash⟩ = .ok document := by
    unfold planDocument
    simp only [one]
    exact ⟨_, rfl⟩
  obtain ⟨stamp, written⟩ : ∃ stamp, (planOne.planFact settings earlier input now checked false none).eval
      (answer documents index) = .ok ⟨checked.id, stamp, false, false, none, some document⟩ := by
    unfold planOne.planFact
    exact ⟨_, (eval_bind_eq_ok _).mpr ⟨(), planKnown_stored stored, (eval_bind_eq_ok _).mpr ⟨_, linked,
      (eval_bind_eq_ok _).mpr ⟨(), acyclic, (eval_bind_eq_ok _).mpr ⟨document, made, rfl⟩⟩⟩⟩⟩
  exact ⟨_, (eval_bind_eq_ok _).mpr ⟨checked, passed, (eval_bind_eq_ok _).mpr ⟨.nothing, nothing, written⟩⟩, rfl⟩

theorem planAll_fresh
    (each : ∀ input ∈ inputs, ∃ id, input.id = some id ∧ ∀ earlier, ∃ fact, (planOne settings earlier input now).eval (answer documents index) = .ok fact ∧ fact.id = id)
    (distinct : (inputs.map (·.id)).Nodup) (apart : ∀ input ∈ inputs, ∀ fact ∈ earlier, input.id ≠ some fact.id) :
    ∃ planned, (planAll settings now inputs earlier).eval (answer documents index) = .ok planned ∧
      planned.length = earlier.length + inputs.length := by
  induction inputs generalizing earlier with
  | nil => exact ⟨earlier, rfl, rfl⟩
  | cons input inputs ih =>
    obtain ⟨id, named, plans⟩ := each input mem_cons_self
    obtain ⟨fact, own, rfl⟩ := plans earlier
    rw [map_cons, nodup_cons] at distinct
    have fresh : (!earlier.any fun other => other.id == fact.id) = true := by
      rw [Bool.not_eq_true', any_eq_false]
      intro other member same
      exact apart input mem_cons_self other member (by rw [named, beq_iff_eq.mp same])
    have apart' : ∀ other ∈ inputs, ∀ known ∈ earlier ++ [fact], other.id ≠ some known.id := by
      intro other member known listed
      rcases mem_append.mp listed with old | new
      · exact apart other (mem_cons_of_mem input member) known old
      · rw [mem_singleton.mp new]
        exact fun same => distinct.1 (mem_map.mpr ⟨other, member, same.trans named.symm⟩)
    obtain ⟨planned, rest, length⟩ := ih (forall_mem_cons.mp each).2 distinct.2 apart'
    unfold planAll
    refine ⟨planned, (eval_bind_eq_ok _).mpr ⟨fact, own, (eval_bind_eq_ok _).mpr ⟨(), ?_, rest⟩⟩, ?_⟩
    · exact (Plan.eval_require_eq_ok _).mpr fresh
    · rw [length, length_append, length_singleton, length_cons]
      omega

theorem consolidate_completes (wet : options.dryRun = false)
    (filled : batchCheck (mergedInputs settings ((collapseDuplicates lowercase).plan (factsOf world memory now) now)) = true)
    (plan : (planAll settings now (mergedInputs settings ((collapseDuplicates lowercase).plan (factsOf world memory now) now)) []).eval (answer world.documents ((refreshed world memory).index memory)) = .ok planned)
    (few : planned.length ≤ MAX_BATCH) :
    ∃ report after, (consolidate settings (collapseDuplicates lowercase) memory options now).run execute .none world =
      (.ok report, after) := by
  have some : (mergedInputs settings ((collapseDuplicates lowercase).plan (factsOf world memory now) now)).isEmpty = false := by
    have nonempty := ((Bool.and_eq_true _ _).mp filled).1
    simpa using nonempty
  have small : ¬MAX_BATCH < (Transaction.remember (planned.filterMap Planned.entry)).inputs.length +
      (Transaction.remember (planned.filterMap Planned.entry)).deleted.length :=
    not_lt.mpr ((length_filterMap_le _ _).trans few)
  have landed : ∃ after, changed (refreshed world memory) (.remember (planned.filterMap Planned.entry))
      (refreshed world memory).revision .none = (.ok true, after) := by
    unfold changed
    rw [if_neg small]
    split
    · exact ⟨_, by rw [beq_self_eq_true]⟩
    · exact ⟨_, by rw [if_pos rfl]⟩
  obtain ⟨after, landed⟩ := landed
  have fresh : ((refreshed world memory).index memory).revision = Option.some (refreshed world memory).revision := by
    rw [refreshed_index_revision, refreshed_revision]
  unfold consolidate WRITE_ATTEMPTS consolidateAttempts WRITE_ATTEMPTS
  rw [Program.run_bind, run_summariesSnapshot]
  have text : (collapseDuplicates lowercase).needsText = true := rfl
  simp only [text, wet, Bool.or_false]
  rw [doomedSources_collapse]
  unfold factsOf at some filled plan
  rw [if_neg (by rw [some]; exact Bool.false_ne_true), Program.run_bind, ← refreshed_revision world memory,
    run_rememberAtRevision _ _ _ _ _ _ filled fresh, refreshed_documents, plan]
  simp only
  rw [run_commitPlanned, landed]
  unfold consolidateCleanup
  exact ⟨_, _, rfl⟩

end Completes

section Iff

variable {settings : WriteSettings} {lowercase : String → String} {memory : Nat} {options : ConsolidateOptions}
  {now : Millis} {fault : Fault} {world after : World} {report : ConsolidationReport}

/-- Consolidation is idempotent where its merges take effect; with conflicts rejected and only explicit supersession, only
there. -/
theorem consolidate_collapses_iff (sound : world.Sound) (trimmed : Trimmed world.documents) (wet : options.dryRun = false)
    (ran : (consolidate settings (collapseDuplicates lowercase) memory options now).run execute fault world =
      (.ok report, after)) :
    (Mergeable settings lowercase world.documents ((refreshed world memory).index memory) now →
      Collapsed settings lowercase memory options now world after) ∧
    (settings.onIdConflict = .reject → settings.supersessionActive = false →
      Unhinted settings lowercase world.documents ((refreshed world memory).index memory) now →
      (Collapsed settings lowercase memory options now world after ↔
        Mergeable settings lowercase world.documents ((refreshed world memory).index memory) now)) := by
  have enough := collapsed_of_mergeable sound trimmed wet ran
  refine ⟨enough, fun reject inactive unhinted => ⟨fun collapsed => ?_, enough⟩⟩
  have mirrors : ((refreshed world memory).index memory).Mirrors world.documents := by
    have held := (sound.refreshed memory memory _ (refreshed_index_revision world memory)).2
    rw [refreshed_history] at held
    exact held.mirrors
  have taken : ∀ key newest, Duplicated lowercase (factsOf world memory now) key →
      newestOf (duplicatesOf lowercase (factsOf world memory now) key) = some newest →
      world.documents[mergedId settings (duplicatesOf lowercase (factsOf world memory now) key)]? = none ∧
        (newest.validFrom.or newest.eventTime).getD now ≤ now := by
    intro key newest duplicated last
    rcases run_collapse_ok sound wet ran with ⟨alone, -⟩ | ⟨planned, merges, -, -, grown⟩
    · exact absurd duplicated (alone key)
    · obtain ⟨-, fact, listed, own, superseded⟩ := collapsed.history key duplicated newest (newestOf_mem last)
      obtain ⟨id, parts, stamp, -, -, rfl⟩ := (mem_summaries fact).mp listed
      have edges := (status_eq_superseded id parts stamp).mp superseded
      rw [show id = newest.id from own] at edges
      exact merges.superseded grown reject inactive unhinted last (newestOf_mem last) edges
  simp only [factsOf] at taken
  refine ⟨fun key newest duplicated last => (taken key newest duplicated last).2, fun key newest parts duplicated last stored => ?_,
    fun id parts stamp _ _ _ ⟨edge, linked, effective⟩ => ⟨edge, linked, effective, fun key duplicated same => ?_⟩⟩
  · exact absurd stored (by rw [(taken key newest duplicated last).1]; simp)
  · obtain ⟨newest, last⟩ := duplicated_newest duplicated
    have timed := mirrors.coherent.timed id edge linked
    unfold Index.known trackedStamp at timed
    rw [same, (taken key newest duplicated last).1] at timed
    simp at timed

/-- Two facts of one text; `event` is the time of both. -/
def Sample.teas (event : Millis) : World :=
  let fact (text : String) : DocumentParts := ⟨some text, none, .object ∅, none, some ⟨10, some event, none, none, none, [], [], [], none⟩⟩
  ⟨fun _ => ((∅ : Documents).insert "a" (fact "tea is hot")).insert "b" (fact " tea  is hot"), 0, fun _ => Index.empty⟩

/-- A run over the two facts at 50. -/
def Sample.collapseTeas : Code (Except MemoryError ConsolidationReport) :=
  consolidate hashing (collapseDuplicates id) 0 ⟨false, false⟩ 50

def Sample.teaSummary (event : Millis) (id text : String) : FactSummary :=
  ⟨id, some text, .current, some 10, some event, none, none, event, none, none⟩

theorem Sample.teas_facts (known : event = 40 ∨ event = 100) : factsOf (teas event) 0 50 =
    [teaSummary event "a" "tea is hot", teaSummary event "b" " tea  is hot"] := by
  rcases known with rfl | rfl <;> decide

theorem Sample.teas_group (known : event = 40 ∨ event = 100) (key : DuplicateKey) :
    duplicatesOf id (factsOf (teas event) 0 50) key = if key = (none, "tea is hot") then
      [teaSummary event "a" "tea is hot", teaSummary event "b" " tea  is hot"] else [] := by
  have folded : foldText id "tea is hot" = "tea is hot" ∧ foldText id " tea  is hot" = "tea is hot" := by decide
  rw [teas_facts known]
  by_cases own : key = (none, "tea is hot")
  · simp [duplicatesOf, FactSummary.duplicateKey, teaSummary, folded, own]
  · simp [duplicatesOf, FactSummary.duplicateKey, teaSummary, folded, own, Ne.symm own]

theorem Sample.teas_duplicated (known : event = 40 ∨ event = 100) :
    Duplicated id (factsOf (teas event) 0 50) (none, "tea is hot") := by
  rw [Duplicated, teas_group known, if_pos rfl]
  simp

theorem Sample.teas_key (known : event = 40 ∨ event = 100)
    (duplicated : Duplicated id (factsOf (teas event) 0 50) key) : key = (none, "tea is hot") := by
  by_contra apart
  rw [Duplicated, teas_group known, if_neg apart] at duplicated
  simp at duplicated

theorem Sample.teas_newest (known : event = 40 ∨ event = 100) :
    newestOf (duplicatesOf id (factsOf (teas event) 0 50) (none, "tea is hot")) =
      some (teaSummary event "b" " tea  is hot") := by
  rw [teas_group known, if_pos rfl, newestOf, mergeSort_of_pairwise]
  · rfl
  · rcases known with rfl | rfl <;> decide

theorem orderedIds_of_sorted (sorted : ids.Pairwise (· < ·)) : orderedIds ids = ids := by
  unfold orderedIds
  rw [dedup_eq_self.mpr (sorted.imp fun below => below.ne), mergeSort_of_pairwise]
  exact sorted.imp fun below => decide_eq_true below.le

def Sample.teasId : String := "mem:merged:41c80da72d0aec94c778c076c4c03d99"

theorem Sample.teas_id (known : event = 40 ∨ event = 100) :
    mergedId hashing (duplicatesOf id (factsOf (teas event) 0 50) (none, "tea is hot")) = teasId := by
  rw [teas_group known, if_pos rfl, mergedId]
  simp only [map_cons, map_nil, teaSummary]
  rw [orderedIds_of_sorted (by decide)]
  decide

/-- The merged fact of the example. -/
def Sample.teaMerge (event : Millis) : RememberInput :=
  ⟨some teasId, " tea  is hot", some event, none, none, none, some ["a", "b"], none, none, none, none⟩

theorem Sample.teas_merge (known : event = 40 ∨ event = 100) :
    mergedFact hashing (duplicatesOf id (factsOf (teas event) 0 50) (none, "tea is hot"))
      (teaSummary event "b" " tea  is hot") = teaMerge event := by
  rw [mergedFact, teas_id known, teas_group known, if_pos rfl]
  simp only [map_cons, map_nil, teaSummary]
  rw [orderedIds_of_sorted (by decide)]
  rfl

theorem Sample.teaMerge_checked (event : Millis) : ∃ checked, checkInput hashing (teaMerge event) = .ok checked := by
  have text : (!(trim " tea  is hot").toList.isEmpty && decide (" tea  is hot".utf8ByteSize ≤ MAX_TEXT_BYTES)) = true := by
    decide
  have valid : validId "a" = true ∧ validId "b" = true ∧ validId teasId = true := by decide
  have explicit : collectExplicit (teaMerge event) = .ok (sortIds ["a", "b"]) := by
    simp [collectExplicit, teaMerge, check, valid, pushUnique, bind, Except.bind, pure, Except.pure, MAX_LINKS]
  have apart : (!(sortIds ["a", "b"]).contains teasId) = true := by
    rw [Bool.not_eq_true', ← Bool.not_eq_true, contains_iff_mem, mem_sortIds]
    decide
  have entities : collectEntities hashing (teaMerge event) = .ok [] := by
    simp [collectEntities, teaMerge, hashing, check, bind, Except.bind, pure, Except.pure]
  have reserved : (!(∅ : Table String Json).contains KEY) = true := by simp
  unfold checkInput
  rw [explicit, show (teaMerge event).text = " tea  is hot" from rfl, text,
    show userMetadata (teaMerge event).metadata = .ok ∅ from rfl, entities,
    show (teaMerge event).subject = none from rfl, show (teaMerge event).id = some teasId from rfl,
    show (teaMerge event).validFrom = none from rfl]
  simp only [check, if_true, bind, Except.bind]
  rw [reserved]
  simp only [Option.mapM_none, if_true, pure, Except.pure, valid, apart]
  exact ⟨_, rfl⟩

theorem Sample.teas_found {id : String} {parts : DocumentParts}
    (found : (teas event).documents[id]? = some parts) : (id = "a" ∨ id = "b") ∧
      parts.stamp = some ⟨10, some event, none, none, none, [], [], [], none⟩ := by
  simp only [World.documents, teas, Table.getElem?_insert] at found
  split at found
  · next same => exact ⟨.inr same, by rw [← Option.some.inj found]⟩
  split at found
  · next same => exact ⟨.inl same, by rw [← Option.some.inj found]⟩
  · simp at found

theorem Sample.teas_trimmed (event : Millis) : Trimmed (teas event).documents := by
  intro id parts stamp subject found stamped about
  rw [(teas_found found).2, Option.some.injEq] at stamped
  rw [← stamped] at about
  simp at about

theorem Sample.teas_untracked (event : Millis) (id : String) : trackedStamp (teas event).documents id = none := by
  cases tracked : trackedStamp (teas event).documents id with
  | none => rfl
  | some stamp =>
    obtain ⟨⟨parts, found, stamped⟩, taken⟩ := Index.trackedStamp_eq_some.mp tracked
    rw [(teas_found found).2, Option.some.injEq] at stamped
    rw [← stamped] at taken
    simp [Stamp.tracked, Stamp.windowed] at taken

theorem Sample.teas_edges (event : Millis) (id : String) : ((refreshed (teas event) 0).index 0).edges id = [] := by
  have mirrors : ((refreshed (teas event) 0).index 0).Mirrors (teas event).documents :=
    Index.rebuild_mirrors _ _
  rw [eq_nil_iff_forall_not_mem]
  intro edge member
  have linked := (mirrors.links id edge.by_).mp ⟨edge, member, rfl⟩
  simp [Supersedes, teas_untracked] at linked

theorem Sample.teas_run {event : Millis} (known : event = 40 ∨ event = 100) :
    ∃ report after, collapseTeas.run execute .none (teas event) = (.ok report, after) := by
  have keys : duplicateKeys id (factsOf (teas event) 0 50) = [(none, "tea is hot")] := by
    rw [teas_facts known]
    rcases known with rfl | rfl <;> decide +kernel
  have inputs : mergedInputs hashing ((collapseDuplicates id).plan (factsOf (teas event) 0 50) 50) =
      [teaMerge event] := by
    rw [mergedInputs_collapse, keys]
    have several := teas_duplicated known
    rw [Duplicated] at several
    simp [several, teas_newest known, teas_merge known]
  obtain ⟨checked, passed⟩ := teaMerge_checked event
  obtain ⟨-, -, -, named, own⟩ := checkInput_ok passed
  have own : checked.id = (teaMerge 0).id.getD "" := own
  have listed := collectExplicit_ok named
  have absent : (teas event).documents[checked.id]? = none := by
    cases found : (teas event).documents[checked.id]? with
    | none => rfl
    | some parts =>
      have either := (teas_found found).1
      rw [own] at either
      exact absurd either (by decide)
  have sources : ∀ id ∈ checked.explicit, id = "a" ∨ id = "b" := by
    intro id member
    simpa [teaMerge] using (listed id).mp member
  have stored : ∀ id ∈ checked.explicit, (teas event).documents.contains id = true := by
    intro id member
    rcases sources id member with rfl | rfl <;> rfl
  have free : ∀ id ∈ checked.explicit, ((refreshed (teas event) 0).index 0).supersedesTransitively id checked.id =
      false := by
    intro id member
    rw [own]
    rcases sources id member with rfl | rfl <;> rcases known with rfl | rfl <;> decide
  have each : ∀ input ∈ [teaMerge event], ∃ id, input.id = some id ∧ ∀ earlier, ∃ fact,
      (planOne hashing earlier input 50).eval (answer (teas event).documents
        ((refreshed (teas event) 0).index 0)) = .ok fact ∧ fact.id = id := by
    intro input member
    rw [mem_singleton.mp member]
    exact ⟨checked.id, congrArg some own.symm, fun earlier => planOne_fresh rfl (fun _ => rfl) passed absent stored free⟩
  obtain ⟨planned, plan, length⟩ := planAll_fresh each (by simp) fun _ _ fact member => absurd member not_mem_nil
  rw [← inputs] at plan
  exact consolidate_completes rfl (by rw [inputs]; rfl) plan (by rw [length]; simp [MAX_BATCH])

theorem consolidate_collapses_iff_past : ∃ report after,
    Sample.collapseTeas.run execute .none (Sample.teas 40) = (.ok report, after) ∧
      Collapsed Sample.hashing id 0 ⟨false, false⟩ 50 (Sample.teas 40) after := by
  obtain ⟨report, after, ran⟩ := Sample.teas_run (.inl rfl)
  refine ⟨report, after, ran, (consolidate_collapses_iff (sound_of_unread rfl) (Sample.teas_trimmed 40) rfl ran).1 ⟨?_, ?_, ?_⟩⟩
  · intro key newest duplicated last
    obtain rfl := Sample.teas_key (.inl rfl) duplicated
    obtain rfl := Option.some.inj ((Sample.teas_newest (.inl rfl)).symm.trans last)
    decide
  · intro key newest parts duplicated _ stored
    obtain rfl := Sample.teas_key (.inl rfl) duplicated
    have either := (Sample.teas_found stored).1
    have same := Sample.teas_id (.inl (rfl : (40 : Millis) = 40))
    unfold factsOf at same
    rw [same] at either
    exact absurd either (by decide)
  · intro id parts stamp _ _ _ ⟨edge, member, _⟩
    rw [Sample.teas_edges] at member
    exact absurd member not_mem_nil

/-- Two duplicates with a time still to come: the merged fact takes that time, so it supersedes nothing yet. Its sources
stay current, and a second run that returns has merged them again. -/
theorem consolidate_repeats : (Sample.teas 100).Sound ∧ Trimmed (Sample.teas 100).documents ∧ ∃ report after,
    Sample.collapseTeas.run execute .none (Sample.teas 100) = (.ok report, after) ∧
      1 < (duplicatesOf id (factsOf after 0 50) (none, "tea is hot")).length ∧
      ∀ fault second last, Sample.collapseTeas.run execute fault after = (.ok second, last) → second.created ≠ [] := by
  obtain ⟨report, after, ran⟩ := Sample.teas_run (.inr rfl)
  have unhinted : Unhinted Sample.hashing id (Sample.teas 100).documents ((refreshed (Sample.teas 100) 0).index 0) 50 := by
    intro key _ id stamp tracked
    rw [Sample.teas_untracked] at tracked
    simp at tracked
  have several := duplicated_of_late (sound_of_unread rfl) rfl rfl rfl unhinted ran (Sample.teas_duplicated (.inr rfl))
    (Sample.teas_newest (.inr rfl)) (by decide)
  exact ⟨sound_of_unread rfl, Sample.teas_trimmed 100, report, after, ran, several, fun fault second last => run_created rfl several⟩

end Iff

end Warm.Memory
