import Warm.MemoryCollapse

/-! Consolidation is idempotent, exactly when every group's merged fact is in force once it is written. -/
namespace Warm.Memory

open Interleaving World List
open FactSummary (of)

section Conditions

/-- The facts a maintenance policy finds. -/
def factsOf (world : World) (memory : Nat) (now : Millis) : List FactSummary :=
  summaries world.documents ((refreshed world memory).index memory) true now

/-- Every fact's subject is stored trimmed, as a remember stores it. -/
def Trimmed (documents : Documents) : Prop :=
  ∀ (id : String) (parts : DocumentParts) (stamp : Stamp) (subject : String), documents[id]? = some parts →
    parts.stamp = some stamp → stamp.subject = some subject → trim subject = subject

/-- The merges of a run take effect: the newest fact of each group has taken effect itself, no merged fact is stored
already or overwrites a source, and none that is overwritten was alone in superseding a fact. -/
structure Mergeable (settings : WriteSettings) (lowercase : String → String) (documents : Documents) (index : Index)
    (now : Millis) : Prop where
  timely : ∀ key newest, Duplicated lowercase (summaries documents index true now) key →
    newestOf (duplicatesOf lowercase (summaries documents index true now) key) = some newest →
    (newest.validFrom.or newest.eventTime).getD now ≤ now
  unmerged : ∀ key newest parts, Duplicated lowercase (summaries documents index true now) key →
    newestOf (duplicatesOf lowercase (summaries documents index true now) key) = some newest →
    documents[mergedId settings (duplicatesOf lowercase (summaries documents index true now) key)]? = some parts →
    (∀ checked, checkInput settings (mergedFact settings
        (duplicatesOf lowercase (summaries documents index true now) key) newest) = .ok checked →
      parts.stamp.bind (·.hash) ≠ some checked.hash) ∧
    ∀ other, Duplicated lowercase (summaries documents index true now) other →
      ∀ source ∈ duplicatesOf lowercase (summaries documents index true now) other,
        source.id ≠ mergedId settings (duplicatesOf lowercase (summaries documents index true now) key)
  outlived : ∀ (id : String) (parts : DocumentParts) (stamp : Stamp), documents[id]? = some parts → parts.stamp = some stamp →
    evaluate (some stamp) [] now none = some .current → (∃ edge ∈ index.edges id, edge.effective ≤ now) →
    ∃ edge ∈ index.edges id, edge.effective ≤ now ∧ ∀ key, Duplicated lowercase (summaries documents index true now) key →
      edge.by_ ≠ mergedId settings (duplicatesOf lowercase (summaries documents index true now) key)

/-- What consolidation leaves: no group has several current facts, every source is kept as superseded history, and a
second run at the same time creates nothing. -/
structure Collapsed (settings : WriteSettings) (lowercase : String → String) (memory : Nat) (options : ConsolidateOptions)
    (now : Millis) (world after : World) : Prop where
  single : ∀ key, (duplicatesOf lowercase (factsOf after memory now) key).length ≤ 1
  history : ∀ key, Duplicated lowercase (factsOf world memory now) key →
    ∀ source ∈ duplicatesOf lowercase (factsOf world memory now) key,
      after.documents[source.id]? = world.documents[source.id]? ∧
        ∃ fact ∈ factsOf after memory now, fact.id = source.id ∧ fact.status = .superseded
  again : ∀ fault, ((consolidate settings (collapseDuplicates lowercase) memory options now).run execute fault after).1 =
    .ok ⟨[], [], options.dryRun⟩

end Conditions

section Merging

variable {settings : WriteSettings} {lowercase : String → String} {documents documents' : Documents} {index index' : Index}
  {now : Millis} {planned : List Planned}

structure Merges (settings : WriteSettings) (lowercase : String → String) (documents : Documents) (index : Index)
    (now : Millis) (planned : List Planned) : Prop where
  each : ∀ fact ∈ planned, ∃ key newest, Duplicated lowercase (summaries documents index true now) key ∧
    newestOf (duplicatesOf lowercase (summaries documents index true now) key) = some newest ∧
    ∃ earlier, (planOne settings earlier (mergedFact settings
      (duplicatesOf lowercase (summaries documents index true now) key) newest) now).eval (answer documents index) = .ok fact
  all : ∀ key newest, Duplicated lowercase (summaries documents index true now) key →
    newestOf (duplicatesOf lowercase (summaries documents index true now) key) = some newest →
    ∃ fact ∈ planned, ∃ earlier, (planOne settings earlier (mergedFact settings
      (duplicatesOf lowercase (summaries documents index true now) key) newest) now).eval (answer documents index) = .ok fact

theorem planAll_merges (plan : (planAll settings now (mergedInputs settings ((collapseDuplicates lowercase).plan
    (summaries documents index true now) now)) []).eval (answer documents index) = .ok planned) :
    Merges settings lowercase documents index now planned := by
  obtain ⟨_, rfl, each⟩ := planAll_forall plan
  constructor
  · intro fact member
    obtain ⟨input, listed, made⟩ := mem_right_of_forall₂ each member
    obtain ⟨key, newest, duplicated, last, rfl⟩ := (mem_mergedInputs settings now input).mp listed
    exact ⟨key, newest, duplicated, last, made⟩
  · intro key newest duplicated last
    have listed := (mem_mergedInputs settings now _).mpr ⟨key, newest, duplicated, last, rfl⟩
    exact mem_left_of_forall₂ each listed

theorem Merges.written (merges : Merges settings lowercase documents index now planned)
    (member : fact ∈ writtenFacts planned) : ∃ key newest, Duplicated lowercase (summaries documents index true now) key ∧
      newestOf (duplicatesOf lowercase (summaries documents index true now) key) = some newest ∧
      fact.id = mergedId settings (duplicatesOf lowercase (summaries documents index true now) key) ∧
      MergedAs settings now (duplicatesOf lowercase (summaries documents index true now) key) newest fact ∧
      (settings.onIdConflict = .reject → documents[fact.id]? = none) := by
  obtain ⟨inside, new⟩ := mem_filter.mp member
  obtain ⟨key, newest, duplicated, last, earlier, made⟩ := merges.each fact inside
  obtain ⟨own, ⟨old, -⟩ | ⟨merged, reject⟩⟩ := planOne_merged made
  · simp [old] at new
  · exact ⟨key, newest, duplicated, last, own, merged, reject⟩

theorem duplicated_newest (duplicated : Duplicated lowercase facts key) :
    ∃ newest, newestOf (duplicatesOf lowercase facts key) = some newest := by
  refine exists_newestOf fun empty => ?_
  rw [Duplicated, empty] at duplicated
  simp at duplicated

theorem Merges.tracked (merges : Merges settings lowercase documents index now planned) :
    ∀ fact ∈ writtenFacts planned, fact.stamp.tracked = true := by
  intro fact member
  obtain ⟨key, newest, -, last, -, merged, -⟩ := merges.written member
  have named := merged.sources newest (newestOf_mem last)
  have filled : fact.stamp.supersedes.isEmpty = false := isEmpty_eq_false_iff_exists_mem.mpr ⟨_, named⟩
  simp [Stamp.tracked, filled]

theorem Merges.writes (merges : Merges settings lowercase documents index now planned)
    (mergeable : Mergeable settings lowercase documents index now)
    (duplicated : Duplicated lowercase (summaries documents index true now) key) :
    ∃ fact ∈ writtenFacts planned, fact.id = mergedId settings (duplicatesOf lowercase (summaries documents index true now) key) ∧
      (∀ source ∈ duplicatesOf lowercase (summaries documents index true now) key, source.id ∈ fact.stamp.supersedes) ∧
      fact.stamp.effectiveFrom ≤ now := by
  obtain ⟨newest, last⟩ := duplicated_newest duplicated
  obtain ⟨fact, inside, earlier, made⟩ := merges.all key newest duplicated last
  obtain ⟨own, ⟨-, parts, checked, stored, passed, same⟩ | ⟨merged, -⟩⟩ := planOne_merged made
  · rw [own] at stored
    exact absurd same ((mergeable.unmerged key newest parts duplicated last stored).1 checked passed)
  · refine ⟨fact, mem_filter.mpr ⟨inside, by rw [merged.idempotent]; rfl⟩, own, merged.sources, ?_⟩
    rw [merged.effective]
    exact mergeable.timely key newest duplicated last

variable (with_ : With documents documents' (writtenFacts planned))
  (grown : Grown documents (writtenFacts planned) index index')

include with_ grown

section

variable (merges : Merges settings lowercase documents index now planned) (mergeable : Mergeable settings lowercase documents index now)
include merges mergeable

theorem Merges.history
    (duplicated : Duplicated lowercase (summaries documents index true now) key)
    (member : source ∈ duplicatesOf lowercase (summaries documents index true now) key) :
    documents'[source.id]? = documents[source.id]? ∧
      ∃ fact ∈ summaries documents' index' true now, fact.id = source.id ∧ fact.status = .superseded := by
  obtain ⟨listed, current, own⟩ := (mem_duplicatesOf source).mp member
  obtain ⟨id, parts, stamp, found, stamped, rfl⟩ := (mem_summaries source).mp listed
  have apart : id ∉ (writtenFacts planned).map (·.id) := by
    intro written
    obtain ⟨fact, inside, same⟩ := mem_map.mp written
    obtain ⟨key', newest, duplicated', last, merged, -⟩ := merges.written inside
    have stored : documents[mergedId settings (duplicatesOf lowercase (summaries documents index true now) key')]? =
        some parts := by rw [← merged, same, found]
    exact (mergeable.unmerged key' newest parts duplicated' last stored).2 key duplicated _ member (same.symm.trans merged)
  have kept : documents'[id]? = some parts := (with_.2 id apart).trans found
  refine ⟨with_.2 id apart, _, (mem_summaries _).mpr ⟨id, parts, stamp, kept, stamped, rfl⟩, rfl, ?_⟩
  obtain ⟨fact, inside, -, sources, effective⟩ := merges.writes mergeable duplicated
  obtain ⟨edge, linked, same⟩ := grown.new fact inside id (sources _ member)
  exact (status_eq_superseded id parts stamp).mpr ⟨edge, linked, same ▸ effective⟩

theorem Merges.current_other
    (member : fact ∈ duplicatesOf lowercase (summaries documents' index' true now) key)
    (apart : fact.id ∉ (writtenFacts planned).map (·.id)) :
    ¬Duplicated lowercase (summaries documents index true now) key ∧
      ∃ before ∈ duplicatesOf lowercase (summaries documents index true now) key, before.id = fact.id := by
  obtain ⟨listed, current, own⟩ := (mem_duplicatesOf fact).mp member
  obtain ⟨id, parts, stamp, found, stamped, rfl⟩ := (mem_summaries fact).mp listed
  have stored : documents[id]? = some parts := (with_.2 id apart).symm.trans found
  obtain ⟨free, open_⟩ := (status_eq_current id parts stamp).mp current
  have before : of index true now id parts stamp ∈
      duplicatesOf lowercase (summaries documents index true now) key := by
    refine (mem_duplicatesOf _).mpr ⟨(mem_summaries _).mpr ⟨id, parts, stamp, stored, stamped, rfl⟩, ?_, own⟩
    refine (status_eq_current id parts stamp).mpr ⟨fun edge linked => ?_, open_⟩
    by_contra begun
    obtain ⟨other, inside, effective, unmerged⟩ :=
      mergeable.outlived id parts stamp stored stamped open_ ⟨edge, linked, not_lt.mp begun⟩
    have byApart : other.by_ ∉ (writtenFacts planned).map (·.id) := by
      intro written
      obtain ⟨fact, inside, same⟩ := mem_map.mp written
      obtain ⟨key', newest, duplicated', -, merged, -⟩ := merges.written inside
      exact unmerged key' duplicated' (same.symm.trans merged)
    obtain ⟨edge', linked', same⟩ := grown.old id apart other inside byApart
    exact absurd (free edge' linked') (not_lt.mpr (same ▸ effective))
  refine ⟨fun duplicated => ?_, _, before, rfl⟩
  obtain ⟨fact, inside, -, sources, effective⟩ := merges.writes mergeable duplicated
  obtain ⟨edge', linked', same⟩ := grown.new fact inside id (sources _ before)
  exact absurd (free edge' linked') (not_lt.mpr (same ▸ effective))

end

omit grown in
theorem Merges.current_written (merges : Merges settings lowercase documents index now planned)
    (writes : Writes documents (writtenFacts planned)) (trimmed : Trimmed documents)
    (member : fact ∈ duplicatesOf lowercase (summaries documents' index' true now) key)
    (own : fact.id ∈ (writtenFacts planned).map (·.id)) :
    Duplicated lowercase (summaries documents index true now) key ∧
      fact.id = mergedId settings (duplicatesOf lowercase (summaries documents index true now) key) := by
  obtain ⟨listed, -, keyed⟩ := (mem_duplicatesOf fact).mp member
  obtain ⟨id, parts, stamp, found, stamped, rfl⟩ := (mem_summaries fact).mp listed
  obtain ⟨written, inside, rfl⟩ := mem_map.mp own
  obtain ⟨key', newest, duplicated, last, same, merged, -⟩ := merges.written inside
  obtain ⟨parts', document, text⟩ := merged.text
  obtain ⟨parts'', document', stamped'⟩ := writes.document written inside
  have content : some parts = some parts' := found.symm.trans ((with_.1 written inside).trans document)
  obtain rfl := Option.some.inj content
  have stamps : stamp = written.stamp := by
    rw [document, Option.some.injEq] at document'
    rw [← document', stamped, Option.some.injEq] at stamped'
    exact stamped'
  -- the group's key is read off its newest fact
  obtain ⟨before, -, keyed'⟩ := (mem_duplicatesOf newest).mp (newestOf_mem last)
  obtain ⟨id', parts', stamp', stored, stampedNewest, rfl⟩ := (mem_summaries newest).mp before
  have subject : stamp'.subject.map trim = stamp'.subject := by
    cases about : stamp'.subject with
    | none => rfl
    | some subject => rw [Option.map_some, trimmed id' parts' stamp' subject stored stampedNewest about]
  have sameKey : key = key' := by
    have words : (of index true now id' parts' stamp').text = parts'.text := rfl
    obtain ⟨content, worded, named⟩ := Option.map_eq_some_iff.mp keyed'
    rw [words] at worded text
    rw [worded, Option.getD_some] at text
    have here : (of index' true now written.id parts stamp).duplicateKey lowercase =
        some (stamp.subject, foldText lowercase content) := by
      simp [FactSummary.duplicateKey, of, text]
    rw [here, Option.some.injEq] at keyed
    rw [← keyed, ← named, stamps, merged.subject]
    exact congrArg (·, foldText lowercase content) subject
  rw [sameKey]
  exact ⟨duplicated, same⟩

theorem Merges.single (merges : Merges settings lowercase documents index now planned)
    (mergeable : Mergeable settings lowercase documents index now) (writes : Writes documents (writtenFacts planned))
    (trimmed : Trimmed documents) (key : DuplicateKey) : ¬Duplicated lowercase (summaries documents' index' true now) key := by
  intro duplicated
  obtain ⟨a, first, b, second, apart⟩ := exists_apart_of_duplicated summaries_distinct duplicated
  by_cases own : a.id ∈ (writtenFacts planned).map (·.id)
  · obtain ⟨several, same⟩ := merges.current_written with_ writes trimmed first own
    by_cases own' : b.id ∈ (writtenFacts planned).map (·.id)
    · exact apart (same.trans (merges.current_written with_ writes trimmed second own').2.symm)
    · exact (merges.current_other with_ grown mergeable second own').1 several
  · obtain ⟨alone, a', first', same⟩ := merges.current_other with_ grown mergeable first own
    by_cases own' : b.id ∈ (writtenFacts planned).map (·.id)
    · exact alone (merges.current_written with_ writes trimmed second own').1
    · obtain ⟨-, b', second', same'⟩ := merges.current_other with_ grown mergeable second own'
      exact alone (duplicated_of_apart first' second' (by rw [same, same']; exact apart))

end Merging

section Twice

variable {settings : WriteSettings} {lowercase : String → String} {memory : Nat} {options : ConsolidateOptions}
  {now : Millis} {fault : Fault} {world after : World} {report : ConsolidationReport}

theorem run_again (options : ConsolidateOptions) (single : ∀ key, ¬Duplicated lowercase (factsOf world memory now) key)
    (fault : Fault) : (consolidate settings (collapseDuplicates lowercase) memory options now).run execute fault world =
      (.ok ⟨[], [], options.dryRun⟩, refreshed world memory) :=
  run_consolidate_idle fault (mergedInputs_eq_nil settings now single)

theorem factsOf_refreshed (world : World) (memory : Nat) (now : Millis) :
    factsOf (refreshed world memory) memory now = factsOf world memory now := by
  unfold factsOf
  rw [refreshed_documents, refreshed_eq_self (refreshed world memory) memory
    ((refreshed_index_revision world memory).trans (congrArg some (refreshed_revision world memory).symm))]

theorem run_collapse_ok (sound : world.Sound) (wet : options.dryRun = false)
    (ran : (consolidate settings (collapseDuplicates lowercase) memory options now).run execute fault world =
      (.ok report, after)) :
    ((∀ key, ¬Duplicated lowercase (factsOf world memory now) key) ∧ after = refreshed world memory) ∨
    ∃ planned, Merges settings lowercase world.documents ((refreshed world memory).index memory) now planned ∧
      Writes world.documents (writtenFacts planned) ∧ With world.documents after.documents (writtenFacts planned) ∧
      Grown world.documents (writtenFacts planned) ((refreshed world memory).index memory)
        ((refreshed after memory).index memory) := by
  by_cases filled : mergedInputs settings ((collapseDuplicates lowercase).plan (factsOf world memory now) now) = []
  · left
    constructor
    · intro key duplicated
      obtain ⟨newest, last⟩ := duplicated_newest duplicated
      have listed := (mem_mergedInputs settings now _).mpr ⟨key, newest, duplicated, last, rfl⟩
      rw [filled] at listed
      exact absurd listed not_mem_nil
    · exact (Prod.mk.inj (ran.symm.trans (run_consolidate_idle fault filled))).2
  · right
    obtain ⟨planned, plan, committed, -⟩ := run_consolidate_ok wet (doomedSources_collapse options now) filled ran
    have mirrors := (sound.describes_refreshed memory).mirrors
    have merges := planAll_merges plan
    have writes : Writes world.documents (writtenFacts planned) :=
      PlannedFrom.writes mirrors (by simpa using planAll_ok .nil plan)
    have fresh : ((refreshed world memory).index memory).revision = some (refreshed world memory).revision := by
      rw [refreshed_index_revision, refreshed_revision]
    rw [← refreshed_documents world memory] at mirrors plan
    obtain ⟨with_, grown⟩ := commitPlanned_grown fresh mirrors plan merges.tracked committed
    rw [refreshed_documents] at with_ grown
    exact ⟨planned, merges, writes, with_, grown⟩

theorem collapsed_of_mergeable (sound : world.Sound) (trimmed : Trimmed world.documents) (wet : options.dryRun = false)
    (ran : (consolidate settings (collapseDuplicates lowercase) memory options now).run execute fault world =
      (.ok report, after))
    (mergeable : Mergeable settings lowercase world.documents ((refreshed world memory).index memory) now) :
    Collapsed settings lowercase memory options now world after := by
  rcases run_collapse_ok sound wet ran with ⟨alone, rfl⟩ | ⟨planned, merges, writes, with_, grown⟩
  · have alone' : ∀ key, ¬Duplicated lowercase (factsOf (refreshed world memory) memory now) key := by
      rw [factsOf_refreshed]
      exact alone
    refine ⟨fun key => not_lt.mp (alone' key), fun key duplicated => absurd duplicated (alone key), fun fault' => ?_⟩
    rw [run_again options alone']
  · have alone : ∀ key, ¬Duplicated lowercase (factsOf after memory now) key :=
      merges.single with_ grown mergeable writes trimmed
    refine ⟨fun key => not_lt.mp (alone key), fun key duplicated source member => ?_, fun fault' => ?_⟩
    · exact merges.history with_ grown mergeable duplicated member
    · rw [run_again options alone]

/-- No stored fact says by a hint that a merged fact supersedes it. -/
def Unhinted (settings : WriteSettings) (lowercase : String → String) (documents : Documents) (index : Index) (now : Millis) :
    Prop :=
  ∀ key, Duplicated lowercase (summaries documents index true now) key → ∀ id stamp, trackedStamp documents id = some stamp →
    mergedId settings (duplicatesOf lowercase (summaries documents index true now) key) ∉ stamp.supersededBy

theorem Merges.unwritten {documents : Documents} {index : Index} {id : String}
    (merges : Merges settings lowercase documents index now planned) (reject : settings.onIdConflict = .reject)
    (found : documents[id]? = some parts) : id ∉ (writtenFacts planned).map (·.id) := by
  intro written
  obtain ⟨fact, inside, same⟩ := mem_map.mp written
  obtain ⟨_, _, _, _, _, _, rejected⟩ := merges.written inside
  have absent := rejected reject
  rw [same, found] at absent
  simp at absent

theorem Merges.superseded {documents : Documents} {index index' : Index}
    (merges : Merges settings lowercase documents index now planned)
    (grown : Grown documents (writtenFacts planned) index index') (reject : settings.onIdConflict = .reject)
    (inactive : settings.supersessionActive = false) (unhinted : Unhinted settings lowercase documents index now)
    {key : DuplicateKey} {newest source : FactSummary}
    (last : newestOf (duplicatesOf lowercase (summaries documents index true now) key) = some newest)
    (member : source ∈ duplicatesOf lowercase (summaries documents index true now) key)
    (superseded : ∃ edge' ∈ index'.edges source.id, edge'.effective ≤ now) :
    documents[mergedId settings (duplicatesOf lowercase (summaries documents index true now) key)]? = none ∧
      (newest.validFrom.or newest.eventTime).getD now ≤ now := by
  obtain ⟨listed, current, own⟩ := (mem_duplicatesOf source).mp member
  obtain ⟨id, parts, stamp, found, stamped, rfl⟩ := (mem_summaries source).mp listed
  obtain ⟨free, -⟩ := (status_eq_current id parts stamp).mp current
  obtain ⟨edge', linked', begun⟩ := superseded
  rcases grown.only id (merges.unwritten reject found) edge' linked' with ⟨edge, linked, same⟩ | ⟨fact, inside, same, named⟩
  · exact absurd (free edge linked) (not_lt.mpr (same ▸ begun))
  · obtain ⟨key', newest', duplicated', last', merged, mergedAs, rejected⟩ := merges.written inside
    rcases named with named | ⟨stamp', tracked, hint⟩
    · -- the groups of two keys share no fact
      obtain ⟨source', member', sameId⟩ := mergedAs.only inactive id named
      obtain ⟨listed', -, own'⟩ := (mem_duplicatesOf source').mp member'
      obtain rfl := inj_on_of_nodup_map summaries_distinct listed' listed sameId
      obtain rfl : key' = key := by rw [own, Option.some.injEq] at own'; exact own'.symm
      obtain rfl : newest' = newest := by rw [last, Option.some.injEq] at last'; exact last'.symm
      exact ⟨merged ▸ rejected reject, by rw [← mergedAs.effective, ← same]; exact begun⟩
    · rw [merged] at hint
      exact absurd hint (unhinted key' duplicated' id stamp' tracked)

theorem duplicated_of_late (sound : world.Sound) (wet : options.dryRun = false)
    (reject : settings.onIdConflict = .reject) (inactive : settings.supersessionActive = false)
    (unhinted : Unhinted settings lowercase world.documents ((refreshed world memory).index memory) now)
    (ran : (consolidate settings (collapseDuplicates lowercase) memory options now).run execute fault world = (.ok report, after))
    {newest : FactSummary} (duplicated : Duplicated lowercase (factsOf world memory now) key)
    (last : newestOf (duplicatesOf lowercase (factsOf world memory now) key) = some newest)
    (late : now < (newest.validFrom.or newest.eventTime).getD now) :
    Duplicated lowercase (factsOf after memory now) key := by
  rcases run_collapse_ok sound wet ran with ⟨alone, -⟩ | ⟨planned, merges, -, with_, grown⟩
  · exact absurd duplicated (alone key)
  have stays : ∀ source ∈ duplicatesOf lowercase (factsOf world memory now) key,
      ∃ fact ∈ duplicatesOf lowercase (factsOf after memory now) key, fact.id = source.id := by
    intro source member
    obtain ⟨listed, current, own⟩ := (mem_duplicatesOf source).mp member
    obtain ⟨id, parts, stamp, found, stamped, rfl⟩ := (mem_summaries source).mp listed
    have kept : after.documents[id]? = some parts := (with_.2 id (merges.unwritten reject found)).trans found
    refine ⟨of ((refreshed after memory).index memory) true now id parts stamp,
      (mem_duplicatesOf _).mpr ⟨(mem_summaries _).mpr ⟨id, parts, stamp, kept, stamped, rfl⟩, ?_, own⟩, rfl⟩
    refine (status_eq_current id parts stamp).mpr ⟨fun edge linked => ?_, ((status_eq_current id parts stamp).mp current).2⟩
    by_contra begun
    have taken := (merges.superseded grown reject inactive unhinted last member ⟨edge, linked, not_lt.mp begun⟩).2
    exact absurd late (not_lt.mpr taken)
  obtain ⟨a, first, b, second, apart⟩ := exists_apart_of_duplicated summaries_distinct duplicated
  obtain ⟨a', first', same⟩ := stays a first
  obtain ⟨b', second', same'⟩ := stays b second
  exact duplicated_of_apart first' second' (by rw [same, same']; exact apart)

theorem run_created (wet : options.dryRun = false) (duplicated : Duplicated lowercase (factsOf world memory now) key)
    (ran : (consolidate settings (collapseDuplicates lowercase) memory options now).run execute fault world = (.ok report, after)) :
    report.created ≠ [] := by
  obtain ⟨newest, last⟩ := duplicated_newest duplicated
  have listed := (mem_mergedInputs settings now _).mpr ⟨key, newest, duplicated, last, rfl⟩
  obtain ⟨planned, plan, -, rfl⟩ := run_consolidate_ok wet (doomedSources_collapse options now) (ne_nil_of_mem listed) ran
  obtain ⟨fact, member, -⟩ := (planAll_merges plan).all key newest duplicated last
  intro empty
  rw [map_eq_nil_iff] at empty
  rw [empty] at member
  exact absurd member not_mem_nil

end Twice

end Warm.Memory
