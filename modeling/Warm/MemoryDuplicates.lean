import Warm.MemorySurvivors

/-! Collapsing duplicates: current facts of one subject whose texts are the same after trimming and case folding are
merged into one fact that supersedes them all. -/
namespace Warm.Memory

open Interleaving World List
open Binary (utf8)

section Policy

/-- `str::split_whitespace`. -/
def splitWhitespace (text : String) : List String :=
  ((text.toList.splitOnP whitespace).filter fun word => !word.isEmpty).map String.ofList

/-- A subject and a folded text. -/
abbrev DuplicateKey := Option String × String

variable (lowercase : String → String)

def foldText (text : String) : String :=
  lowercase (" ".intercalate (splitWhitespace text))

def FactSummary.duplicateKey (fact : FactSummary) : Option DuplicateKey :=
  fact.text.map fun text => (fact.subject, foldText lowercase text)

def DuplicateKey.upTo : DuplicateKey → DuplicateKey → Bool
  | (none, a), (none, b) => decide (a ≤ b)
  | (none, _), (some _, _) => true
  | (some _, _), (none, _) => false
  | (some subject, a), (some subject', b) => decide (subject < subject') || (subject == subject' && decide (a ≤ b))

/-- The current facts of a subject with a folded text. -/
def duplicatesOf (facts : List FactSummary) (key : DuplicateKey) : List FactSummary :=
  facts.filter fun fact => fact.status == .current && fact.duplicateKey lowercase == some key

def duplicateKeys (facts : List FactSummary) : List DuplicateKey :=
  (((facts.filter fun fact => fact.status == .current).filterMap (·.duplicateKey lowercase)).dedup).mergeSort
    DuplicateKey.upTo

/-- The order of optional times: none comes first. -/
def timeBefore : Option Millis → Option Millis → Bool
  | _, none => false
  | none, some _ => true
  | some a, some b => decide (a < b)

/-- Whether the first fact comes no later in the order by effect, ingest, id. -/
def FactSummary.upTo (a b : FactSummary) : Bool :=
  decide (a.effectiveFrom < b.effectiveFrom) || (a.effectiveFrom == b.effectiveFrom &&
    (timeBefore a.ingestTime b.ingestTime || (a.ingestTime == b.ingestTime && decide (a.id ≤ b.id))))

def newestOf (group : List FactSummary) : Option FactSummary :=
  (group.mergeSort FactSummary.upTo).getLast?

def collapse (group : List FactSummary) : Option ConsolidationAction :=
  (newestOf group).map fun newest =>
    let sources := (group.mergeSort FactSummary.upTo).map (·.id)
    ⟨sources, ⟨none, newest.text.getD "", newest.eventTime, newest.validFrom, newest.validTo, newest.subject, some sources,
      none, none, none, none⟩, false⟩

/-- Merges current facts whose text is identical after trimming and case folding and that share a subject. -/
def collapseDuplicates : ConsolidationPolicy where
  needsText := true
  plan facts _ := (((duplicateKeys lowercase facts).map (duplicatesOf lowercase facts)).filter fun group =>
    decide (1 < group.length)).filterMap collapse

end Policy

section Groups

variable {lowercase : String → String} {facts : List FactSummary} {key : DuplicateKey}

theorem mem_duplicatesOf (fact : FactSummary) : fact ∈ duplicatesOf lowercase facts key ↔
    fact ∈ facts ∧ fact.status = .current ∧ fact.duplicateKey lowercase = some key := by
  simp [duplicatesOf]

theorem mem_duplicateKeys : key ∈ duplicateKeys lowercase facts ↔ duplicatesOf lowercase facts key ≠ [] := by
  unfold duplicateKeys
  rw [mem_mergeSort, List.mem_dedup, mem_filterMap]
  constructor
  · rintro ⟨fact, member, own⟩ empty
    obtain ⟨inside, current⟩ := mem_filter.mp member
    have listed : fact ∈ duplicatesOf lowercase facts key := (mem_duplicatesOf fact).mpr ⟨inside, beq_iff_eq.mp current, own⟩
    rw [empty] at listed
    exact absurd listed not_mem_nil
  · intro filled
    obtain ⟨fact, listed⟩ := exists_mem_of_ne_nil _ filled
    obtain ⟨inside, current, own⟩ := (mem_duplicatesOf fact).mp listed
    exact ⟨fact, mem_filter.mpr ⟨inside, beq_iff_eq.mpr current⟩, own⟩

theorem newestOf_mem (last : newestOf group = some newest) : newest ∈ group :=
  mem_mergeSort.mp (mem_of_getLast? last)

theorem exists_newestOf (filled : group ≠ []) : ∃ newest, newestOf group = some newest := by
  unfold newestOf
  rw [← Option.isSome_iff_exists, getLast?_isSome]
  exact fun empty => filled (by simpa using congrArg List.length empty)

def Duplicated (lowercase : String → String) (facts : List FactSummary) (key : DuplicateKey) : Prop :=
  1 < (duplicatesOf lowercase facts key).length

def mergedId (settings : WriteSettings) (group : List FactSummary) : String :=
  "mem:merged:" ++ settings.stableHash ((orderedIds (group.map (·.id))).map utf8)

/-- The fact that a group of duplicates is merged into; all but its id and its links comes from the newest. -/
def mergedFact (settings : WriteSettings) (group : List FactSummary) (newest : FactSummary) : RememberInput :=
  ⟨some (mergedId settings group), newest.text.getD "", newest.eventTime, newest.validFrom, newest.validTo, newest.subject,
    some (orderedIds (group.map (·.id))), none, none, none, none⟩

theorem mergedInputs_collapse (settings : WriteSettings) (facts : List FactSummary) (now : Millis) :
    mergedInputs settings ((collapseDuplicates lowercase).plan facts now) =
      ((duplicateKeys lowercase facts).filter fun key => decide (1 < (duplicatesOf lowercase facts key).length)).filterMap
        fun key => (newestOf (duplicatesOf lowercase facts key)).map (mergedFact settings (duplicatesOf lowercase facts key)) := by
  have merges (group : List FactSummary) :
      ((collapse group).filter fun action => !action.sources.isEmpty).map (mergedInput settings) =
        (newestOf group).map (mergedFact settings group) := by
    cases last : newestOf group with
    | none => simp [collapse, last]
    | some newest =>
      have filled : ((group.mergeSort FactSummary.upTo).map (·.id)).isEmpty = false := by
        rw [isEmpty_eq_false_iff]
        intro empty
        have nothing : group = [] := by simpa using congrArg List.length empty
        rw [nothing] at last
        simp [newestOf] at last
      have same : orderedIds ((group.mergeSort FactSummary.upTo).map (·.id)) = orderedIds (group.map (·.id)) :=
        orderedIds_congr fun id => by simp
      simp only [collapse, last, Option.map_some, Option.filter_some, filled, Bool.not_false, if_true, mergedInput, mergedFact,
        mergedId, same, Option.getD_none]
  unfold mergedInputs collapseDuplicates
  simp only
  rw [filter_map, filter_filterMap, map_filterMap, filterMap_map]
  exact congrArg (List.filterMap · _) (funext fun key => merges _)

theorem mem_mergedInputs (settings : WriteSettings) (now : Millis) (input : RememberInput) :
    input ∈ mergedInputs settings ((collapseDuplicates lowercase).plan facts now) ↔
      ∃ key newest, Duplicated lowercase facts key ∧ newestOf (duplicatesOf lowercase facts key) = some newest ∧
        input = mergedFact settings (duplicatesOf lowercase facts key) newest := by
  rw [mergedInputs_collapse, mem_filterMap]
  constructor
  · rintro ⟨key, member, merged⟩
    obtain ⟨newest, last, rfl⟩ := Option.map_eq_some_iff.mp merged
    exact ⟨key, newest, by simpa [Duplicated] using (mem_filter.mp member).2, last, rfl⟩
  · rintro ⟨key, newest, several, last, rfl⟩
    refine ⟨key, mem_filter.mpr ⟨mem_duplicateKeys.mpr fun empty => ?_, ?_⟩, by rw [last, Option.map_some]⟩
    · rw [Duplicated, empty] at several
      simp at several
    · simpa [Duplicated] using several

theorem mergedInputs_eq_nil (settings : WriteSettings) (now : Millis)
    (none : ∀ key, ¬Duplicated lowercase facts key) :
    mergedInputs settings ((collapseDuplicates lowercase).plan facts now) = [] := by
  rw [eq_nil_iff_forall_not_mem]
  intro input member
  obtain ⟨key, newest, duplicated, -⟩ := (mem_mergedInputs settings now input).mp member
  exact none key duplicated

theorem exists_apart_of_duplicated (distinct : (facts.map (·.id)).Nodup) (duplicated : Duplicated lowercase facts key) :
    ∃ a ∈ duplicatesOf lowercase facts key, ∃ b ∈ duplicatesOf lowercase facts key, a.id ≠ b.id := by
  have ids := distinct.sublist ((filter_sublist (l := facts) (p := fun fact => fact.status == .current &&
    fact.duplicateKey lowercase == some key)).map (·.id))
  change ((duplicatesOf lowercase facts key).map (·.id)).Nodup at ids
  unfold Duplicated at duplicated
  match group : duplicatesOf lowercase facts key with
  | [] => simp [group] at duplicated
  | [_] => simp [group] at duplicated
  | a :: b :: rest =>
    rw [group, map_cons, nodup_cons] at ids
    refine ⟨a, mem_cons_self, b, mem_cons_of_mem _ mem_cons_self, fun same => ids.1 ?_⟩
    rw [same]
    exact mem_map_of_mem mem_cons_self

theorem duplicated_of_apart (first : a ∈ duplicatesOf lowercase facts key)
    (second : b ∈ duplicatesOf lowercase facts key) (apart : a.id ≠ b.id) : Duplicated lowercase facts key := by
  unfold Duplicated
  match group : duplicatesOf lowercase facts key with
  | [] => simp [group] at first
  | [only] =>
    rw [group, mem_singleton] at first second
    rw [first, second] at apart
    exact absurd rfl apart
  | _ :: _ :: rest => simp

theorem doomedSources_collapse (options : ConsolidateOptions) (now : Millis) :
    doomedSources options ((collapseDuplicates lowercase).plan facts now) = [] := by
  unfold doomedSources
  have gentle : (((collapseDuplicates lowercase).plan facts now).filter fun action =>
      action.forgetSources && options.allowDestructive) = [] := by
    rw [filter_eq_nil_iff]
    intro action member
    obtain ⟨group, -, merged⟩ := mem_filterMap.mp member
    obtain ⟨newest, -, rfl⟩ := Option.map_eq_some_iff.mp merged
    simp
  rw [gentle]
  rfl

end Groups

end Warm.Memory
