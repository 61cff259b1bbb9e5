import Warm.EngineCompaction

/-! Which rule a pair of relations leads to. The index holds one rule for each chain, which may be
the chain of several; the index of a store that is filled again from its rules holds the last one. -/
namespace Warm.RuleStore

open List hiding after

open Warm.Engine (latest latest_append latest_lt)

variable {rules : List CompositionRule}

def addRules (rules : List CompositionRule) : RuleStore := rules.foldl addRule empty

/-- What a caller of `find_rule` relies on, with the journal compacted or not. -/
structure Answers (store : RuleStore) : Prop where
  found : ∀ first second, (store.findRule first second).isSome ↔
    ∃ rule ∈ store.rules, rule.inputRelations = [first, second]
  own : ∀ first second rule, store.findRule first second = some rule →
    rule ∈ store.rules ∧ rule.inputRelations = [first, second]
  replayed : ∀ first second, (addRules store.rules).findRule first second = store.findRule first second

/-- What the call asks of the rules before it, when it replaces one: its chain is not that of a
later rule, and a chain that it gives up was that of no earlier rule, or is that of a later one. -/
def Steady (rules : List CompositionRule) (rule : CompositionRule) : Prop :=
  ∀ before old after, rules = before ++ old :: after → old.name = rule.name → ∀ first second,
    (rule.inputRelations = [first, second] → ∀ other ∈ after, other.inputRelations ≠ [first, second]) ∧
    (rule.inputRelations ≠ [first, second] → old.inputRelations = [first, second] →
      (∃ other ∈ before, other.inputRelations = [first, second]) →
      ∃ other ∈ after, other.inputRelations = [first, second])

@[simp] theorem rules_addRule (store : RuleStore) (rule : CompositionRule) :
    (store.addRule rule).rules = putRule store.rules rule := rfl

theorem addRules_append (calls : List CompositionRule) (rule : CompositionRule) :
    addRules (calls ++ [rule]) = (addRules calls).addRule rule := by
  simp [addRules]

theorem rules_addRules (calls : List CompositionRule) : (addRules calls).rules = calls.foldl putRule [] := by
  induction calls using List.reverseRecOn with
  | nil => rfl
  | append_singleton calls rule ih => simp [addRules_append, ih]

theorem putRule_split (named : ((before ++ old :: after).map CompositionRule.name).Nodup)
    (same : old.name = rule.name) :
    rulePosition (before ++ old :: after) rule.name = before.length ∧
      putRule (before ++ old :: after) rule = before ++ rule :: after := by
  have position : rulePosition (before ++ old :: after) rule.name = before.length := by
    have missed : ¬∃ other ∈ before, other.name = rule.name := by
      rintro ⟨other, member, equal⟩
      rw [map_append, nodup_append] at named
      exact named.2.2 _ (mem_map_of_mem member) old.name (by simp) (equal.trans same.symm)
    simp [rulePosition, findIdx_append, findIdx_cons, same, missed]
  refine ⟨position, ?_⟩
  rw [putRule, position, if_neg (by simp)]
  simp

theorem fresh_or_split (rules : List CompositionRule) (name : String) :
    name ∉ rules.map CompositionRule.name ∨ ∃ before old after, rules = before ++ old :: after ∧ old.name = name := by
  by_cases listed : name ∈ rules.map CompositionRule.name
  · obtain ⟨old, member, same⟩ := mem_map.mp listed
    obtain ⟨before, after, split⟩ := append_of_mem member
    exact .inr ⟨before, old, after, split, same⟩
  · exact .inl listed

section Latest

theorem latest_eq_none (rules : List CompositionRule) (chain : String × String) :
    latest rules chain = none ↔ ∀ rule ∈ rules, rule.inputRelations ≠ [chain.1, chain.2] := by
  induction rules using List.reverseRecOn with
  | nil => simp [latest]
  | append_singleton rules rule ih =>
    rw [latest_append]
    split
    next own => simp [own]
    next other => simp [ih, other, or_imp, forall_and]

theorem latest_own (last : latest rules chain = some index) :
    ∃ rule, rules[index]? = some rule ∧ rule.inputRelations = [chain.1, chain.2] := by
  induction rules using List.reverseRecOn with
  | nil => simp [latest] at last
  | append_singleton rules rule ih =>
    rw [latest_append] at last
    split at last
    next own =>
      obtain rfl := Option.some.inj last
      exact ⟨rule, by simp, own⟩
    next =>
      rw [getElem?_append_left (latest_lt last)]
      exact ih last

theorem latest_here (absent : ∀ other ∈ after, other.inputRelations ≠ [chain.1, chain.2]) :
    latest (before ++ rule :: after) chain =
      if rule.inputRelations = [chain.1, chain.2] then some before.length else latest before chain := by
  induction after using List.reverseRecOn with
  | nil => exact latest_append before rule chain
  | append_singleton after other ih =>
    rw [← cons_append, ← append_assoc, latest_append, if_neg (absent other (by simp))]
    exact ih (forall_mem_append.mp absent).1

theorem latest_behind (present : ∃ other ∈ after, other.inputRelations = [chain.1, chain.2]) :
    ∃ index > before.length, ∀ rule, latest (before ++ rule :: after) chain = some index := by
  induction after using List.reverseRecOn with
  | nil => simp at present
  | append_singleton after other ih =>
    by_cases own : other.inputRelations = [chain.1, chain.2]
    · refine ⟨before.length + (after.length + 1), by omega, fun rule => ?_⟩
      rw [← cons_append, ← append_assoc, latest_append, if_pos own]
      simp
    · obtain ⟨index, behind, last⟩ := ih (by simpa [own] using present)
      refine ⟨index, behind, fun rule => ?_⟩
      rw [← cons_append, ← append_assoc, latest_append, if_neg own, last]

end Latest

theorem addRules_distinct (named : (rules.map CompositionRule.name).Nodup) :
    (addRules rules).rules = rules ∧ (addRules rules).owner = latest rules := by
  induction rules using List.reverseRecOn with
  | nil => exact ⟨rfl, rfl⟩
  | append_singleton rules rule ih =>
    rw [map_append, map_singleton, ← concat_eq_append, nodup_concat] at named
    obtain ⟨stored, owned⟩ := ih named.2
    obtain ⟨position, put⟩ := putRule_of_fresh named.1
    rw [addRules_append, owner_addRule, stored, owned, position]
    refine ⟨by rw [rules_addRule, stored, put], ?_⟩
    funext chain
    rw [reown, latest_append]
    split
    · rfl
    · exact if_neg fun last => absurd (latest_lt last) (lt_irrefl _)

theorem owner_own (calls : List CompositionRule) (found : (addRules calls).owner chain = some index) :
    ∃ rule, (addRules calls).rules[index]? = some rule ∧ rule.inputRelations = [chain.1, chain.2] := by
  induction calls using List.reverseRecOn generalizing chain index with
  | nil => cases found
  | append_singleton calls rule ih =>
    rw [addRules_append] at found ⊢
    generalize addRules calls = store at found ih ⊢
    rw [owner_addRule, reown] at found
    rw [rules_addRule]
    rcases fresh_or_split store.rules rule.name with fresh | ⟨before, old, after, split, same⟩
    · obtain ⟨position, put⟩ := putRule_of_fresh fresh
      rw [position] at found
      rw [put]
      split_ifs at found with own held
      · obtain rfl := Option.some.inj found
        exact ⟨rule, by simp, own⟩
      · obtain ⟨other, here, own⟩ := ih found
        rw [getElem?_append_left (List.getElem?_eq_some_iff.mp here).1]
        exact ⟨other, here, own⟩
    · obtain ⟨position, put⟩ := putRule_split (split ▸ store.named) same
      rw [split, position] at found
      rw [split, put]
      split_ifs at found with own held
      · obtain rfl := Option.some.inj found
        exact ⟨rule, by simp, own⟩
      · obtain ⟨other, here, own⟩ := ih found
        have apart : index ≠ before.length := fun equal => held (equal ▸ found)
        rw [split] at here
        refine ⟨other, ?_, own⟩
        rcases Nat.lt_or_gt_of_ne apart with low | high
        · rw [getElem?_append_left low] at here ⊢
          exact here
        · rw [getElem?_append_right high.le, getElem?_cons, if_neg (by omega)] at here ⊢
          exact here

theorem answers_iff_latest (calls : List CompositionRule) :
    Answers (addRules calls) ↔ (addRules calls).owner = latest (addRules calls).rules := by
  have sound (chain index) := @owner_own chain index calls
  generalize addRules calls = store at sound
  obtain ⟨stored, owned⟩ := addRules_distinct store.named
  constructor
  · intro answers
    funext ⟨first, second⟩
    have replayed := answers.replayed first second
    rw [findRule, findRule, stored, owned] at replayed
    cases found : store.owner (first, second) with
    | none =>
      cases last : latest store.rules (first, second) with
      | none => rfl
      | some index =>
        obtain ⟨rule, here, -⟩ := latest_own last
        simp [found, last, here] at replayed
    | some index =>
      obtain ⟨rule, here, -⟩ := sound _ _ found
      cases last : latest store.rules (first, second) with
      | none => simp [found, last, here] at replayed
      | some other =>
        rw [found, last, Option.bind_some, Option.bind_some] at replayed
        rw [(getElem?_inj (latest_lt last) store.named.of_map).mp replayed]
  · intro every
    have found (first second : String) (rule : CompositionRule) (hit : store.findRule first second = some rule) :
        rule ∈ store.rules ∧ rule.inputRelations = [first, second] := by
      obtain ⟨index, owns, here⟩ := Option.bind_eq_some_iff.mp hit
      obtain ⟨other, there, own⟩ := sound _ _ owns
      obtain rfl := Option.some.inj (here.symm.trans there)
      exact ⟨mem_of_getElem? here, own⟩
    refine ⟨fun first second => ⟨fun hit => ?_, fun ⟨rule, member, own⟩ => ?_⟩, found, fun first second => ?_⟩
    · obtain ⟨rule, hit⟩ := Option.isSome_iff_exists.mp hit
      exact ⟨rule, found first second rule hit⟩
    · cases last : latest store.rules (first, second) with
      | none => exact absurd own ((latest_eq_none _ _).mp last rule member)
      | some index =>
        obtain ⟨other, here, -⟩ := latest_own last
        simp [findRule, every, last, here]
    · rw [findRule, findRule, stored, owned, every]

/-- The step: a call leaves every chain with the last rule exactly if it is steady. -/
theorem latest_addRule (store : RuleStore) (rule : CompositionRule) (every : store.owner = latest store.rules) :
    (store.addRule rule).owner = latest (store.addRule rule).rules ↔ Steady store.rules rule := by
  rw [owner_addRule, every, rules_addRule]
  rcases fresh_or_split store.rules rule.name with fresh | ⟨before, old, after, split, same⟩
  · obtain ⟨position, put⟩ := putRule_of_fresh fresh
    rw [position, put]
    apply iff_of_true
    · funext chain
      rw [reown, latest_append]
      split
      · rfl
      · exact if_neg fun last => absurd (latest_lt last) (lt_irrefl _)
    · intro before old after split same
      exact absurd (by simp [split, same]) fresh
  · have named := store.named
    obtain ⟨position, put⟩ := putRule_split (split ▸ store.named) same
    rw [split] at named ⊢
    rw [position, put]
    have only (first : List CompositionRule) (other : CompositionRule) (rest : List CompositionRule)
        (equal : before ++ old :: after = first ++ other :: rest) (name : other.name = rule.name) :
        first = before ∧ other = old ∧ rest = after := by
      have places := (putRule_split (equal ▸ named) name).1
      rw [← equal, position] at places
      obtain ⟨front, back⟩ := append_inj equal places
      exact ⟨front.symm, (List.cons.inj back).1.symm, (List.cons.inj back).2.symm⟩
    have each (chain : String × String) :
        reown (latest (before ++ old :: after)) before.length rule chain = latest (before ++ rule :: after) chain ↔
          (rule.inputRelations = [chain.1, chain.2] → ∀ other ∈ after, other.inputRelations ≠ [chain.1, chain.2]) ∧
          (rule.inputRelations ≠ [chain.1, chain.2] → old.inputRelations = [chain.1, chain.2] →
            (∃ other ∈ before, other.inputRelations = [chain.1, chain.2]) →
            ∃ other ∈ after, other.inputRelations = [chain.1, chain.2]) := by
      rw [reown]
      by_cases present : ∃ other ∈ after, other.inputRelations = [chain.1, chain.2]
      · obtain ⟨index, behind, last⟩ := @latest_behind _ _ before present
        obtain ⟨other, member, own⟩ := present
        rw [last, last]
        by_cases takes : rule.inputRelations = [chain.1, chain.2]
        · rw [if_pos takes, Option.some.injEq]
          exact iff_of_false behind.ne fun steady => steady.1 takes other member own
        · rw [if_neg takes, if_neg (by simp; omega)]
          exact iff_of_true rfl ⟨fun own => absurd own takes, fun _ _ _ => ⟨other, member, own⟩⟩
      · have absent : ∀ other ∈ after, other.inputRelations ≠ [chain.1, chain.2] := by
          intro other member own
          exact present ⟨other, member, own⟩
        rw [latest_here absent, latest_here absent]
        by_cases takes : rule.inputRelations = [chain.1, chain.2]
        · rw [if_pos takes, if_pos takes]
          exact iff_of_true rfl ⟨fun _ => absent, fun other => absurd takes other⟩
        · rw [if_neg takes, if_neg takes]
          by_cases gives : old.inputRelations = [chain.1, chain.2]
          · rw [if_pos gives, if_pos rfl, eq_comm, latest_eq_none]
            constructor
            · intro none
              refine ⟨fun own => absurd own takes, fun _ _ held => ?_⟩
              obtain ⟨other, member, own⟩ := held
              exact absurd own (none other member)
            · intro steady other member own
              exact present (steady.2 takes gives ⟨other, member, own⟩)
          · rw [if_neg gives, if_neg fun last => absurd (latest_lt last) (lt_irrefl _)]
            exact iff_of_true rfl ⟨fun own => absurd own takes, fun _ own => absurd own gives⟩
    constructor
    · intro equal first other rest parts name a b
      obtain ⟨rfl, rfl, rfl⟩ := only first other rest parts name
      exact (each (a, b)).mp (congrFun equal (a, b))
    · intro steady
      funext chain
      obtain ⟨a, b⟩ := chain
      exact (each (a, b)).mpr (steady before old after rfl same a b)

theorem answers_iff_steady (calls : List CompositionRule) :
    (∀ made, made <+: calls → Answers (addRules made)) ↔
      ∀ made rule, made ++ [rule] <+: calls → Steady (made.foldl putRule []) rule := by
  simp only [answers_iff_latest]
  constructor
  · intro every made rule part
    rw [← rules_addRules, ← latest_addRule _ _ (every made ((prefix_append _ _).trans part)), ← addRules_append]
    exact every _ part
  · intro steady made
    induction made using List.reverseRecOn with
    | nil => exact fun _ => rfl
    | append_singleton made rule ih =>
      intro part
      rw [addRules_append, latest_addRule _ _ (ih ((prefix_append _ _).trans part)), rules_addRules]
      exact steady made rule part

theorem answers_replaced_owner :
    ¬Answers (addRules [⟨"uncle", ["father", "brother"], "uncle"⟩, ⟨"kin", ["father", "brother"], "kin"⟩,
      ⟨"kin", ["mother", "brother"], "kin"⟩]) := by
  intro answers
  have found := (answers.found "father" "brother").mpr ⟨⟨"uncle", ["father", "brother"], "uncle"⟩, by decide, rfl⟩
  exact absurd found (by decide)

end Warm.RuleStore
