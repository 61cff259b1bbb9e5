import Warm.LexicalScores

/-! The selection: the bounded heap and the candidates at its moving floor keep enough of the positive scores for the first
`limit` of them, and every score that is read leaves a zero. -/
namespace Warm.Lexical

open Panics List
open Leads (both get_bind ite pure set_bind)
open UInt64 (le_iff_toNat_le le_refl lt_iff_toNat_lt)

/-- What the selection has of the positive scores it has seen. -/
structure Selected (limit : Nat) (seen : List (UInt64 × Nat)) (floor : UInt64) (candidates : List (UInt64 × Nat))
    (best : List UInt64) : Prop where
  positive : ∀ item ∈ seen, isPositive item.1 = true
  heap : best = TopK.collect heapKey limit (seen.map Prod.fst)
  floor_eq : floor = if best.length < limit then 1 else best.getLast?.getD 1
  admitted : ∀ item ∈ candidates, item ∈ seen
  kept : ∀ bar, floor ≤ bar →
    candidates.filter (fun item => bar ≤ item.1) = seen.filter fun item => bar ≤ item.1

theorem isPositive_iff (bits : UInt64) : isPositive bits = true ↔ 1 ≤ bits ∧ bits ≤ infinity := by
  rw [isPositive, Bool.and_eq_true, decide_eq_true_eq, decide_eq_true_eq, lt_iff_toNat_lt, le_iff_toNat_le]
  exact Iff.rfl

theorem admits_iff {floor score : UInt64} (low : 1 ≤ floor) (high : floor ≤ infinity) :
    ¬infinity - floor < score - floor ↔ floor ≤ score ∧ isPositive score = true := by
  have top : infinity.toNat = 0x7FF0000000000000 := rfl
  have size := score.toNat_lt
  rw [isPositive_iff, lt_iff_toNat_lt, UInt64.toNat_sub_of_le _ _ high, UInt64.toNat_sub]
  rw [le_iff_toNat_le] at low high
  rw [le_iff_toNat_le, le_iff_toNat_le, le_iff_toNat_le]
  have small : (1 : UInt64).toNat = 1 := rfl
  omega

theorem heapKey_lt_iff (a b : UInt64) : heapKey a < heapKey b ↔ b < a := by
  rw [heapKey, heapKey, OrderDual.toDual_lt_toDual, lt_iff_toNat_lt]

theorem heapKey_le_iff (a b : UInt64) : heapKey a ≤ heapKey b ↔ b ≤ a := by
  rw [heapKey, heapKey, OrderDual.toDual_le_toDual, le_iff_toNat_le]

namespace Selected

variable {limit slot : Nat} {seen candidates : List (UInt64 × Nat)} {floor score : UInt64} {best : List UInt64}

theorem fresh : Selected limit [] 1 [] [] where
  positive := by simp
  heap := rfl
  floor_eq := by split <;> rfl
  admitted := by simp
  kept := fun _ _ => rfl

section

variable (selected : Selected limit seen floor candidates best)
include selected

theorem mem_best (member : bits ∈ best) :
    isPositive bits = true := by
  rw [selected.heap] at member
  obtain ⟨item, inside, rfl⟩ := mem_map.mp (TopK.mem_collect member)
  exact selected.positive item inside

theorem length_le : best.length ≤ limit := by
  rw [selected.heap, TopK.length_collect]
  exact Nat.min_le_left _ _

theorem getLast (positive : 0 < limit)
    (full : ¬best.length < limit) : best.getLast? = some floor := by
  have floored := selected.floor_eq
  rw [if_neg full] at floored
  cases last : best.getLast? with
  | none =>
    rw [getLast?_eq_none_iff.mp last] at full
    exact absurd positive full
  | some top => rw [floored, last, Option.getD_some]

theorem floor_positive : isPositive floor = true := by
  have floored := selected.floor_eq
  split at floored
  · rw [floored]
    decide
  · cases last : best.getLast? with
    | none =>
      rw [floored, last]
      decide
    | some top =>
      rw [floored, last]
      exact selected.mem_best (mem_of_getLast? last)

theorem floor_le (positive : 0 < limit)
    (full : ¬best.length < limit) (member : bits ∈ best) : floor ≤ bits := by
  have last := selected.getLast positive full
  rw [selected.heap] at last member
  exact (heapKey_le_iff _ _).mp (TopK.le_getLast_collect last member)

theorem length_offer (score : UInt64) :
    (TopK.offer heapKey limit best score).length = min limit (best.length + 1) := by
  rw [selected.heap, ← TopK.collect_append, TopK.length_collect, TopK.length_collect, length_append,
    length_singleton]
  omega

theorem le_offer (positive : 0 < limit) (above : floor ≤ score)
    (member : bits ∈ TopK.offer heapKey limit best score) : floor ≤ bits := by
  rcases TopK.mem_offer member with rfl | old
  · exact above
  by_cases full : best.length < limit
  · have floored := selected.floor_eq
    rw [if_pos full] at floored
    rw [floored]
    exact ((isPositive_iff _).mp (selected.mem_best old)).1
  · exact selected.floor_le positive full old

theorem extend {next} (own : isPositive score = true)
    (heap : best' = TopK.offer heapKey limit best score)
    (floor_eq : next = if best'.length < limit then 1 else best'.getLast?.getD 1) (rises : floor ≤ next)
    (listed : candidates' = candidates ++ [(score, slot)] ∨ candidates' = candidates ∧ score < next) :
    Selected limit (seen ++ [(score, slot)]) next candidates' best' where
  positive := forall_mem_append.mpr ⟨selected.positive, forall_mem_singleton.mpr own⟩
  heap := by
    rw [heap, selected.heap, map_append, map_cons, map_nil, TopK.collect_append]
  floor_eq := floor_eq
  admitted := by
    intro item member
    rcases listed with rfl | ⟨rfl, -⟩
    · rcases mem_append.mp member with old | new
      · exact mem_append_left _ (selected.admitted item old)
      · exact mem_append_right _ new
    · exact mem_append_left _ (selected.admitted item member)
  kept := by
    intro bar above
    rw [filter_append, ← selected.kept bar (UInt64.le_trans rises above)]
    rcases listed with rfl | ⟨rfl, below⟩
    · rw [filter_append]
    · have out : ¬bar ≤ score := fun le => (UInt64.not_le.mpr below) (UInt64.le_trans above le)
      rw [filter_cons_of_neg (by simpa using out), filter_nil, append_nil]

end

end Selected

section Consider

variable {limit slot : Nat} {floor score : UInt64} {scratch : LexicalScratch}

theorem consider_frame : Leads (· = scratch) (consider limit floor slot score)
    (fun _ next => ∃ candidates best, next = { scratch with candidates, best })
    (fun next => ∃ candidates best, next = { scratch with candidates, best }) := by
  unfold consider
  refine ite (fun _ => pure ?_) fun _ => Leads.modify_bind (get_bind ?_)
  · rintro _ rfl
    exact ⟨_, _, rfl⟩
  have ends {next : LexicalScratch} (same : ∃ candidates best, next = { scratch with candidates, best }) :
      Leads (· = next) (do
        let scratch ← get
        if scratch.best.length = limit then demand scratch.best.getLast? else return floor)
      (fun _ next => ∃ candidates best, next = { scratch with candidates, best })
      (fun next => ∃ candidates best, next = { scratch with candidates, best }) := by
    refine get_bind (ite (fun _ => demand_known (fun _ _ => same) fun _ => same) fun _ => pure ?_)
    rintro _ rfl
    exact same
  refine ite (fun _ => set_bind (ends ⟨_, _, rfl⟩)) fun _ => ite (fun _ => ?_) fun _ => pure ?_
  · exact demand_bind (fun _ _ => set_bind (ends ⟨_, _, rfl⟩)) fun _ => ⟨_, _, rfl⟩
  · rintro _ rfl
    exact ⟨_, _, rfl⟩

theorem consider_selected {seen : List (UInt64 × Nat)} (room : 0 < limit) (small : slot < 2 ^ 32)
    (selected : Selected limit seen floor scratch.candidates scratch.best) :
    Leads (· = scratch) (consider limit floor slot score)
      (fun floor next => Selected limit (if isPositive score then seen ++ [(score, slot)] else seen) floor next.candidates
        next.best)
      (fun _ => False) := by
  have low := (isPositive_iff _).mp selected.floor_positive
  unfold consider
  refine ite (fun refused => pure ?_) fun admitted => Leads.modify_bind (get_bind ?_)
  · rintro scratch rfl
    have outside := mt (admits_iff low.1 low.2).mpr (not_not.mpr refused)
    split
    next own =>
      have below : score < floor := UInt64.not_le.mp fun above => outside ⟨above, own⟩
      have full : ¬scratch.best.length < limit := by
        intro short
        have floored := selected.floor_eq
        rw [if_pos short] at floored
        rw [floored] at below
        exact UInt64.not_le.mpr below ((isPositive_iff _).mp own).1
      refine selected.extend own ?_ selected.floor_eq (le_refl _) (.inr ⟨rfl, below⟩)
      rw [TopK.offer, if_neg full, selected.getLast room full]
      exact (if_neg fun less => UInt64.lt_asymm below ((heapKey_lt_iff _ _).mp less)).symm
    next => exact selected
  obtain ⟨above, own⟩ := (admits_iff low.1 low.2).mp admitted
  rw [if_pos own, Nat.mod_eq_of_lt small]
  -- after the heap has taken the score its least is the next floor
  have ends {best : List UInt64} (heap : best = TopK.offer heapKey limit scratch.best score) :
      Leads (· = { scratch with candidates := scratch.candidates ++ [(score, slot)], best }) (do
        let scratch ← get
        if scratch.best.length = limit then demand scratch.best.getLast? else return floor)
      (fun floor next => Selected limit (seen ++ [(score, slot)]) floor next.candidates next.best)
      (fun _ => False) := by
    have length := selected.length_offer score
    rw [← heap] at length
    refine get_bind (ite (fun full => demand_known (fun top last => ?_) fun empty => ?_) fun short =>
      pure ?_)
    · refine selected.extend own heap ?_ (selected.le_offer room above ?_) (.inl rfl)
      · rw [if_neg (Nat.not_lt.mpr (Nat.le_of_eq full.symm)), last, Option.getD_some]
      · rw [← heap]
        exact mem_of_getLast? last
    · rw [getLast?_eq_none_iff] at empty
      rw [empty] at full
      exact Nat.ne_of_lt room full
    · rintro _ rfl
      have few : best.length < limit := by
        have := selected.length_le
        dsimp only at short
        omega
      have old : scratch.best.length < limit := by omega
      have floored := selected.floor_eq
      rw [if_pos old] at floored
      exact selected.extend own heap (by rw [if_pos few, floored]) (le_refl _) (.inl rfl)
  refine ite (fun short => set_bind (ends ?_)) fun full => ite (fun less => ?_) fun same =>
    pure ?_
  · rw [TopK.offer, if_pos short]
  · have last := selected.getLast room full
    refine demand_bind (fun _ _ => set_bind (ends ?_)) fun empty => ?_
    · rw [TopK.offer, if_neg full, last]
      exact (if_pos ((heapKey_lt_iff _ _).mpr less)).symm
    · rw [last] at empty
      cases empty
  · rintro _ rfl
    refine selected.extend own ?_ selected.floor_eq (le_refl _) (.inl rfl)
    rw [TopK.offer, if_neg full, selected.getLast room full]
    exact (if_neg fun less => same ((heapKey_lt_iff _ _).mp less)).symm

end Consider

section Drain

variable {F : Floats} {stores : Set LexicalSource} {store : LexicalSource} {prepared : PreparedSearch}

/-- The selection under way over the scores `given`: those of the slots that are done have been read and are zero. -/
structure Draining (F : Floats) (store : LexicalSource) (prepared : PreparedSearch) (given : Nat → UInt64) (done : List Nat)
    (floor : UInt64) (scratch : LexicalScratch) : Prop where
  keyed : Keyed F store prepared.bm25 scratch
  drained : ∀ (slot : Nat) score, scratch.scores[slot]? = some score → score = if slot ∈ done then 0 else given slot
  selected : 0 < prepared.limit → ∃ seen : List (UInt64 × Nat), seen.Nodup ∧
    (∀ item, item ∈ seen ↔ item.2 ∈ done ∧ item.1 = given item.2 ∧ isPositive item.1 = true) ∧
    Selected prepared.limit seen floor scratch.candidates scratch.best

variable (names : StatesName stores) (member : store ∈ stores)
include names member

theorem take_leads (inside : slot < store.slotCount) :
    Leads (Draining F store prepared given done floor) (take store prepared.limit floor slot)
      (Draining F store prepared given (done ++ [slot])) (Panicked F stores store prepared) := by
  refine Leads.of_known fun scratch draining => ?_
  have keyed := draining.keyed
  unfold take
  refine get_bind (demand_bind (fun score own => ?_) fun missing => ?_)
  rotate_left
  · exact absurd missing (getElem?_take_ne_none keyed.room inside)
  obtain ⟨-, own⟩ := getElem?_take_eq_some own
  have value := draining.drained slot score own
  have drained (other : Nat) (score : UInt64) (written : (scratch.scores.set slot 0)[other]? = some score) :
      score = if other ∈ done ++ [slot] then 0 else given other := by
    by_cases same : slot = other
    · rw [← same, getElem?_set_self (List.getElem?_eq_some_iff.mp own).1, Option.some.injEq] at written
      rw [← same, if_pos (mem_append_right _ (mem_singleton_self _)), written]
    · rw [getElem?_set_ne same] at written
      rw [draining.drained other score written]
      refine if_congr ?_ rfl rfl
      rw [mem_append, mem_singleton]
      exact ⟨.inl, fun found => found.resolve_right fun equal => same equal.symm⟩
  have frame {next : LexicalScratch}
      (same : ∃ candidates best, next = { scratch with scores := scratch.scores.set slot 0, candidates, best }) :
      Keyed F store prepared.bm25 next ∧ next.scores = scratch.scores.set slot 0 := by
    obtain ⟨candidates, best, rfl⟩ := same
    exact ⟨keyed.congr (length_set ..) rfl rfl rfl rfl rfl rfl, rfl⟩
  refine set_bind ?_
  rcases Nat.eq_zero_or_pos prepared.limit with none | room
  · refine consider_frame.mono (fun _ known => known) (fun floor next same => ?_) fun next same => ?_
    · obtain ⟨keyed, scores⟩ := frame same
      exact ⟨keyed, by rw [scores]; exact drained, fun room => absurd room (by omega)⟩
    · exact ⟨(frame same).1.sound names member, fun serves => absurd serves.limit (by omega)⟩
  obtain ⟨seen, distinct, mem_seen, selected⟩ := draining.selected room
  have considered : Leads (· = { scratch with scores := scratch.scores.set slot 0 })
      (consider prepared.limit floor slot score) _ _ :=
    consider_selected room (lt_of_lt_of_le inside store.fits) selected
  refine (both considered consider_frame).mono (fun _ known => known) ?_ fun _ failed => failed.1.elim
  rintro floor next ⟨chosen, same⟩
  obtain ⟨keyed, scores⟩ := frame same
  refine ⟨keyed, by rw [scores]; exact drained, fun _ => ⟨_, ?_, ?_, chosen⟩⟩
  · split
    next own =>
      refine nodup_append'.mpr ⟨distinct, nodup_singleton _, ?_⟩
      rintro item old new
      rw [mem_singleton] at new
      rw [new, mem_seen] at old
      rw [value, if_pos old.1] at own
      cases own
    next => exact distinct
  · intro item
    rw [mem_append, mem_singleton]
    split
    next own =>
      have fresh : slot ∉ done := by
        intro old
        rw [value, if_pos old] at own
        cases own
      rw [if_neg fresh] at value
      rw [mem_append, mem_singleton, mem_seen]
      constructor
      · rintro (⟨old, rest⟩ | rfl)
        · exact ⟨.inl old, rest⟩
        · exact ⟨.inr rfl, value, own⟩
      · rintro ⟨old | new, same, positive⟩
        · exact .inl ⟨old, same, positive⟩
        · exact .inr (Prod.ext (by rw [same, new, value]) new)
    next nothing =>
      rw [mem_seen]
      refine ⟨fun found => ⟨.inl found.1, found.2⟩, ?_⟩
      rintro ⟨old | new, same, positive⟩
      · exact ⟨old, same, positive⟩
      · by_cases old : slot ∈ done
        · exact ⟨new ▸ old, same, positive⟩
        · rw [if_neg old] at value
          rw [same, new, ← value] at positive
          exact absurd positive nothing

end Drain

section Ranked

variable {F : Floats} {store : LexicalSource} {prepared : PreparedSearch} {seen : List (UInt64 × Nat)} {floor : UInt64}
  {candidates : List (UInt64 × Nat)} {best : List UInt64}

theorem totalKey_le (own : isPositive a = true) (own' : isPositive b = true) : totalKey a ≤ totalKey b ↔ a ≤ b := by
  have top : infinity.toNat = 0x7FF0000000000000 := rfl
  rw [isPositive_iff, le_iff_toNat_le, le_iff_toNat_le] at own own'
  rw [totalKey, totalKey, if_pos (by omega), if_pos (by omega), Int.ofNat_le, le_iff_toNat_le]

theorem rankKey_injective (own : isPositive a.1 = true) (own' : isPositive b.1 = true)
    (placed : store.slotOrder a.2 ≠ none) (placed' : store.slotOrder b.2 ≠ none)
    (distinct : store.slotOrder a.2 = store.slotOrder b.2 → a.2 = b.2) (same : rankKey store a = rankKey store b) : a = b := by
  obtain ⟨order, named⟩ := Option.ne_none_iff_exists'.mp placed
  obtain ⟨order', named'⟩ := Option.ne_none_iff_exists'.mp placed'
  simp only [rankKey, named, named', Option.getD_some, EmbeddingLike.apply_eq_iff_eq, Prod.mk.injEq] at same
  obtain ⟨keys, orders⟩ := same
  refine Prod.ext ?_ (distinct (by rw [named, named', orders]))
  exact UInt64.le_antisymm ((totalKey_le own own').mp (le_of_eq keys)) ((totalKey_le own' own).mp (le_of_eq keys.symm))

/-- At the bar of the full heap there are `limit` scores, and they come before the ones below it. -/
theorem Selected.topRanked (selected : Selected prepared.limit seen floor candidates best) (room : 0 < prepared.limit)
    (distinct : ∀ a ∈ seen, ∀ b ∈ seen, rankKey store a = rankKey store b → a = b) {bar : UInt64}
    (barred : if best.length < prepared.limit then bar = 0 else best.getLast? = some bar) :
    topRanked store prepared.limit (candidates.filter fun item => bar ≤ item.1) = topRanked store prepared.limit seen := by
  split at barred
  next short =>
    have low : floor = 1 := by rw [selected.floor_eq, if_pos short]
    have all : seen.filter (fun item => floor ≤ item.1) = seen := by
      refine filter_eq_self.mpr fun item member => decide_eq_true ?_
      rw [low]
      exact ((isPositive_iff _).mp (selected.positive item member)).1
    have whole : candidates.filter (fun item => floor ≤ item.1) = candidates := by
      refine filter_eq_self.mpr fun item member => decide_eq_true ?_
      rw [low]
      exact ((isPositive_iff _).mp (selected.positive item (selected.admitted item member))).1
    have same : candidates = seen := by rw [← whole, selected.kept floor (le_refl _), all]
    have any : candidates.filter (fun item => bar ≤ item.1) = candidates := by
      refine filter_eq_self.mpr fun item _ => decide_eq_true ?_
      rw [barred]
      exact UInt64.zero_le
    rw [any, same]
  next full =>
    have last := selected.getLast room full
    rw [last, Option.some.injEq] at barred
    rw [selected.kept bar (by rw [barred]; exact le_refl _), ← barred]
    have parts := filter_append_perm (fun item : UInt64 × Nat => decide (floor ≤ item.1)) seen
    have many : prepared.limit ≤ (seen.filter fun item => floor ≤ item.1).length := by
      have length := selected.length_le
      rw [selected.heap] at last full length
      have count := TopK.collect_full last (by omega)
      rw [filter_map, length_map] at count
      refine le_trans count (le_of_eq (congrArg List.length (filter_congr fun item _ => ?_)))
      exact decide_eq_decide.mpr (heapKey_le_iff _ _)
    have inside {item : UInt64 × Nat} (member : item ∈ (seen.filter fun item => floor ≤ item.1) ++
        seen.filter fun item => !decide (floor ≤ item.1)) : item ∈ seen := parts.mem_iff.mp member
    have apart : ∀ x ∈ seen.filter (fun item => floor ≤ item.1), ∀ y ∈ seen.filter (fun item => !decide (floor ≤ item.1)),
        rankKey store x ≤ rankKey store y := by
      intro x left y right
      obtain ⟨left, above⟩ := mem_filter.mp left
      obtain ⟨right, below⟩ := mem_filter.mp right
      rw [decide_eq_true_eq] at above
      rw [Bool.not_eq_true', decide_eq_false_iff_not] at below
      refine le_of_lt (Prod.Lex.toLex_lt_toLex.mpr (.inl (OrderDual.toDual_lt_toDual.mpr ?_)))
      rw [← not_le, totalKey_le (selected.positive x left) (selected.positive y right)]
      exact fun le => below (UInt64.le_trans above le)
    unfold Lexical.topRanked
    rw [← TopK.sortBy_perm (fun a left b right => distinct a (inside left) b (inside right)) parts,
      TopK.sortBy_append (fun a left b right => distinct a (inside left) b (inside right)) apart, take_append_of_le_length]
    rw [length_insertionSort]
    exact many

theorem posted_of_total (read : lists F store (terms prepared) = some collected)
    (scored : total F store prepared (visits collected) slot ≠ 0) : Posted store prepared slot := by
  have run (all : List (UInt64 × Option (Nat × Nat))) (start : UInt64)
      (absent : ∀ visit ∈ all, ∀ frequency, visit.2 ≠ some (slot, frequency)) :
      all.foldl (addVisit F store prepared slot) start = start := by
    induction all with
    | nil => rfl
    | cons visit rest ih =>
      have same : addVisit F store prepared slot start visit = start := by
        unfold addVisit
        split
        next at' frequency own =>
          refine if_neg fun equal => ?_
          rw [equal] at own
          exact absent visit mem_cons_self frequency own
        next => rfl
      rw [foldl_cons, same]
      exact ih (forall_mem_cons.mp absent).2
  by_contra missing
  refine scored (run _ 0 fun visit member frequency own => missing ?_)
  obtain ⟨list, inside, listed⟩ := mem_visits member
  obtain ⟨term, named, postings⟩ := mem_lists read inside
  exact ⟨term, named, list.2, postings, frequency, own ▸ listed⟩

end Ranked

end Warm.Lexical
