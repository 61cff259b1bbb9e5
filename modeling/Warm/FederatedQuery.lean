import Mathlib.Data.List.Dedup
import Mathlib.Data.List.Induction
import Mathlib.Data.List.Perm.Subperm
import Warm.Shard

/-! Merging the results of a store and of its peers: a bounded heap of the best results, and the
similarity each id was last taken with. -/
namespace Warm.Federated

open List hiding after all below insert merge

/-- The heap by its contents, its top last. -/
structure Merge where
  heap : List RetrievalResult
  seen : String → Option ℚ

namespace Merge

def empty : Merge := ⟨[], fun _ => none⟩

def dominated (merge : Merge) (r : RetrievalResult) : Bool := (merge.seen r.id).any fun prev => r.similarity ≤ prev

/-- The closure `insert` of `federated_query`: an eviction forgets the id, whichever of its results it was. -/
def insert (k : Nat) (merge : Merge) (r : RetrievalResult) : Merge :=
  if merge.dominated r then merge
  else
    let seen := Function.update merge.seen r.id (some r.similarity)
    let heap := TopK.push RetrievalResult.rank r merge.heap
    if k < heap.length then
      match heap.getLast? with
      | some evicted => ⟨heap.dropLast, Function.update seen evicted.id none⟩
      | none => ⟨heap, seen⟩
    else ⟨heap, seen⟩

end Merge

/-- The results as they arrive; a failed peer has none. -/
def arrivals (local_ : List RetrievalResult) (peers : List (Except String (List RetrievalResult))) :
    List RetrievalResult :=
  local_ ++ peers.flatMap fun outcome => outcome.toOption.getD []

def merged (k : Nat) (results : List RetrievalResult) : Merge := results.foldl (Merge.insert k) .empty

/-- `federated_query` on what the store and its peers answered. -/
def federatedQuery (k : Nat) (local_ : List RetrievalResult) (peers : List (Except String (List RetrievalResult))) :
    List RetrievalResult :=
  let merge := local_.foldl (Merge.insert k) .empty
  let merge := peers.foldl (fun merge outcome =>
    match outcome with
    | .ok results => results.foldl (Merge.insert k) merge
    | .error _ => merge) merge
  merge.heap

theorem federatedQuery_eq (k : Nat) (local_ : List RetrievalResult) (peers : List (Except String (List RetrievalResult))) :
    federatedQuery k local_ peers = (merged k (arrivals local_ peers)).heap := by
  have each (merge : Merge) : peers.foldl (fun merge outcome =>
      match outcome with
      | .ok results => results.foldl (Merge.insert k) merge
      | .error _ => merge) merge =
        (peers.flatMap fun outcome => outcome.toOption.getD []).foldl (Merge.insert k) merge := by
    induction peers generalizing merge with
    | nil => rfl
    | cons outcome peers ih =>
      rw [foldl_cons, flatMap_cons, foldl_append, ih]
      cases outcome <;> rfl
  rw [federatedQuery, each, merged, arrivals, foldl_append]

/-! ### What the merge is for -/

def IsBest (results : List RetrievalResult) (r : RetrievalResult) : Prop :=
  r ∈ results ∧ ∀ other ∈ results, other.id = r.id → other.similarity ≤ r.similarity

instance (results : List RetrievalResult) (r : RetrievalResult) : Decidable (IsBest results r) :=
  inferInstanceAs (Decidable (_ ∧ _))

/-- The union with one result an id, in the order of results. -/
def deduplicated (results : List RetrievalResult) : List RetrievalResult :=
  (results.filter (IsBest results ·)).dedup.insertionSort fun a b => a.rank ≤ b.rank

structure Right (k : Nat) (results out : List RetrievalResult) : Prop where
  distinct : (out.map RetrievalResult.id).Nodup
  highest : ∀ r ∈ out, IsBest results r
  first : out = (deduplicated results).take k

variable {results before rest : List RetrievalResult} {r : RetrievalResult} {k : Nat}

theorem mem_deduplicated : r ∈ deduplicated results ↔ IsBest results r := by
  rw [deduplicated, mem_insertionSort, List.mem_dedup, mem_filter, decide_eq_true_eq]
  exact ⟨And.right, fun best => ⟨best.1, best⟩⟩

theorem IsBest.eq (best : IsBest results r) (own : IsBest results other) (same : other.id = r.id) : other = r := by
  have similarity := le_antisymm (best.2 other own.1 same) (own.2 r best.1 same.symm)
  cases r
  cases other
  simp_all

theorem deduplicated_nodup (results : List RetrievalResult) : (deduplicated results).Nodup :=
  (perm_insertionSort _ _).nodup_iff.mpr (nodup_dedup _)

theorem right_take (k : Nat) (results : List RetrievalResult) : Right k results ((deduplicated results).take k) := by
  have part {r : RetrievalResult} (member : r ∈ (deduplicated results).take k) : IsBest results r :=
    mem_deduplicated.mp (mem_of_mem_take member)
  refine ⟨?_, fun r member => part member, rfl⟩
  refine List.Nodup.map_on ?_ ((deduplicated_nodup results).sublist (take_sublist k _))
  intro a left b right same
  exact (part right).eq (part left) same

/-! ### The heap holds the first of all results taken -/

theorem merged_append (k : Nat) (before rest : List RetrievalResult) :
    merged k (before ++ rest) = rest.foldl (Merge.insert k) (merged k before) := foldl_append

theorem merged_snoc (k : Nat) (before : List RetrievalResult) (r : RetrievalResult) :
    merged k (before ++ [r]) = (merged k before).insert k r := merged_append k before [r]

theorem insert_cases {merge : Merge} (k : Nat) (taken : merge.dominated r = false) :
    ((TopK.push RetrievalResult.rank r merge.heap).length ≤ k ∧
      merge.insert k r = ⟨TopK.push RetrievalResult.rank r merge.heap,
        Function.update merge.seen r.id (some r.similarity)⟩) ∨
    k < (TopK.push RetrievalResult.rank r merge.heap).length ∧
      ∃ evicted, (TopK.push RetrievalResult.rank r merge.heap).getLast? = some evicted ∧
        merge.insert k r = ⟨(TopK.push RetrievalResult.rank r merge.heap).dropLast,
          Function.update (Function.update merge.seen r.id (some r.similarity)) evicted.id none⟩ := by
  have size : (TopK.push RetrievalResult.rank r merge.heap).length = merge.heap.length + 1 := orderedInsert_length _ _ _
  unfold Merge.insert
  rw [taken, if_neg Bool.false_ne_true]
  dsimp only
  split
  next long =>
    refine .inr ⟨long, ?_⟩
    split
    next evicted last => exact ⟨evicted, last, rfl⟩
    next none =>
      rw [getLast?_eq_none_iff] at none
      rw [none] at size
      cases size
  next short => exact .inl ⟨by omega, rfl⟩

theorem heap_insert {merge : Merge} (room : merge.heap.length ≤ k) (taken : merge.dominated r = false) :
    (merge.insert k r).heap = (TopK.push RetrievalResult.rank r merge.heap).take k := by
  have size : (TopK.push RetrievalResult.rank r merge.heap).length = merge.heap.length + 1 := orderedInsert_length _ _ _
  rcases insert_cases k taken with ⟨short, same⟩ | ⟨long, evicted, _, same⟩
  · rw [same, take_of_length_le short]
  · have full : (TopK.push RetrievalResult.rank r merge.heap).length - 1 = k := by omega
    rw [same, dropLast_eq_take, full]

theorem insert_of_dominated {merge : Merge} (skipped : merge.dominated r = true) : merge.insert k r = merge := if_pos skipped

theorem heap_length (k : Nat) (results : List RetrievalResult) : (merged k results).heap.length ≤ k := by
  induction results using List.reverseRecOn with
  | nil => exact Nat.zero_le k
  | append_singleton before r ih =>
    rw [merged_snoc]
    cases taken : (merged k before).dominated r with
    | true => rwa [insert_of_dominated taken]
    | false =>
      rw [heap_insert ih taken]
      exact length_take_le _ _

/-- The first best result of each id, in the order of arrival. -/
def fresh (results : List RetrievalResult) : List RetrievalResult → List RetrievalResult → List RetrievalResult
  | _, [] => []
  | before, r :: rest =>
    if IsBest results r ∧ r ∉ before then r :: fresh results (before ++ [r]) rest
    else fresh results (before ++ [r]) rest

/-- The other results that pass the check for duplicates. -/
def stale (k : Nat) (results : List RetrievalResult) : List RetrievalResult → List RetrievalResult → List RetrievalResult
  | _, [] => []
  | before, r :: rest =>
    if (merged k before).dominated r = false ∧ ¬(IsBest results r ∧ r ∉ before) then
      r :: stale k results (before ++ [r]) rest
    else stale k results (before ++ [r]) rest

theorem mem_fresh : r ∈ fresh results before rest ↔ IsBest results r ∧ r ∈ rest ∧ r ∉ before := by
  induction rest generalizing before with
  | nil => simp [fresh]
  | cons other rest ih =>
    unfold fresh
    by_cases same : r = other
    · subst same
      split
      next new => simp [new]
      next old =>
        rw [ih]
        simp only [mem_append, or_true, not_true_eq_false, and_false, mem_cons, true_or,
          true_and, false_iff]
        exact old
    · have apart : r ∈ before ++ [other] ↔ r ∈ before := by simp [same]
      split
      · rw [mem_cons, ih, apart, mem_cons]
        simp [same]
      · rw [ih, apart, mem_cons]
        simp [same]

theorem fresh_nodup (results before rest : List RetrievalResult) : (fresh results before rest).Nodup := by
  induction rest generalizing before with
  | nil => exact nodup_nil
  | cons other rest ih =>
    unfold fresh
    split
    · refine nodup_cons.mpr ⟨?_, ih _⟩
      rw [mem_fresh]
      simp
    · exact ih _

theorem fresh_perm (results : List RetrievalResult) : (fresh results [] results).Perm (deduplicated results) := by
  rw [perm_ext_iff_of_nodup (fresh_nodup _ _ _) (deduplicated_nodup results)]
  intro r
  rw [mem_fresh, mem_deduplicated]
  exact ⟨And.left, fun best => ⟨best, best.1, not_mem_nil⟩⟩

theorem mem_stale : r ∈ stale k results before rest ↔ ∃ front back, rest = front ++ r :: back ∧
    (merged k (before ++ front)).dominated r = false ∧ ¬(IsBest results r ∧ r ∉ before ++ front) := by
  induction rest generalizing before with
  | nil => simp [stale]
  | cons other rest ih =>
    have step : r ∈ stale k results (before ++ [other]) rest ↔ ∃ front back, other :: rest = (other :: front) ++ r :: back ∧
        (merged k (before ++ other :: front)).dominated r = false ∧ ¬(IsBest results r ∧ r ∉ before ++ other :: front) := by
      rw [ih]
      simp only [append_assoc, cons_append, nil_append, List.cons.injEq, true_and]
    have whole : (∃ front back, other :: rest = front ++ r :: back ∧
        (merged k (before ++ front)).dominated r = false ∧ ¬(IsBest results r ∧ r ∉ before ++ front)) ↔
        (other = r ∧ (merged k before).dominated r = false ∧ ¬(IsBest results r ∧ r ∉ before)) ∨
          r ∈ stale k results (before ++ [other]) rest := by
      rw [step]
      constructor
      · rintro ⟨front, back, split, shown⟩
        cases front with
        | nil =>
          rw [nil_append, List.cons.injEq] at split
          rw [append_nil] at shown
          exact .inl ⟨split.1, shown⟩
        | cons first front =>
          rw [cons_append, List.cons.injEq] at split
          obtain ⟨rfl, split⟩ := split
          exact .inr ⟨front, back, by rw [split]; rfl, shown⟩
      · rintro (⟨rfl, shown⟩ | ⟨front, back, split, shown⟩)
        · exact ⟨[], rest, rfl, by rwa [append_nil]⟩
        · exact ⟨other :: front, back, split, shown⟩
    rw [whole]
    conv => lhs; unfold stale
    by_cases own : (merged k before).dominated other = false ∧ ¬(IsBest results other ∧ other ∉ before)
    · rw [if_pos own, mem_cons]
      constructor
      · rintro (rfl | later)
        · exact .inl ⟨rfl, own⟩
        · exact .inr later
      · rintro (⟨rfl, _⟩ | later)
        · exact .inl rfl
        · exact .inr later
    · rw [if_neg own]
      constructor
      · exact .inr
      · rintro (⟨rfl, shown⟩ | later)
        · exact absurd shown own
        · exact later

theorem fresh_snoc (results before rest : List RetrievalResult) (r : RetrievalResult) :
    fresh results before (rest ++ [r]) =
      fresh results before rest ++ if IsBest results r ∧ r ∉ before ++ rest then [r] else [] := by
  induction rest generalizing before with
  | nil => simp [fresh]
  | cons other rest ih =>
    rw [cons_append, fresh, fresh, ih, append_assoc, singleton_append]
    split <;> rfl

theorem stale_snoc (k : Nat) (results before rest : List RetrievalResult) (r : RetrievalResult) :
    stale k results before (rest ++ [r]) = stale k results before rest ++
      if (merged k (before ++ rest)).dominated r = false ∧ ¬(IsBest results r ∧ r ∉ before ++ rest) then [r] else [] := by
  induction rest generalizing before with
  | nil => simp [stale]
  | cons other rest ih =>
    rw [cons_append, stale, stale, ih, append_assoc, singleton_append]
    split <;> rfl

theorem seen_arrived {id : String} (known : (merged k before).seen id = some similarity) :
    ∃ other ∈ before, other.id = id ∧ other.similarity = similarity := by
  induction before using List.reverseRecOn with
  | nil => cases known
  | append_singleton before r ih =>
    have earlier (known : (merged k before).seen id = some similarity) :
        ∃ other ∈ before ++ [r], other.id = id ∧ other.similarity = similarity := by
      obtain ⟨other, member, same⟩ := ih known
      exact ⟨other, mem_append_left _ member, same⟩
    have noted (known : Function.update (merged k before).seen r.id (some r.similarity) id = some similarity) :
        ∃ other ∈ before ++ [r], other.id = id ∧ other.similarity = similarity := by
      by_cases own : id = r.id
      · subst own
        rw [Function.update_self] at known
        exact ⟨r, by simp, rfl, Option.some.inj known⟩
      · rw [Function.update_of_ne own] at known
        exact earlier known
    rw [merged_snoc] at known
    cases taken : (merged k before).dominated r with
    | true =>
      rw [insert_of_dominated taken] at known
      exact earlier known
    | false =>
      rcases insert_cases k taken with ⟨_, same⟩ | ⟨_, evicted, _, same⟩
      · rw [same] at known
        exact noted known
      · rw [same] at known
        dsimp only at known
        by_cases gone : id = evicted.id
        · rw [gone, Function.update_self] at known
          cases known
        · rw [Function.update_of_ne gone] at known
          exact noted known

theorem taken_of_best (best : IsBest results r) (new : r ∉ before) (part : ∀ other ∈ before, other ∈ results) :
    (merged k before).dominated r = false := by
  rw [Bool.eq_false_iff]
  intro skipped
  obtain ⟨similarity, known, le⟩ := (Option.any_eq_true _ _).mp skipped
  obtain ⟨other, member, same, rfl⟩ := seen_arrived known
  have top := le_antisymm (best.2 other (part other member) same) (of_decide_eq_true le)
  have own : other = r := by
    cases r
    cases other
    simp_all
  exact new (own ▸ member)

theorem map_rank_heap (k : Nat) (part : ∀ other ∈ before, other ∈ results) :
    (merged k before).heap.map RetrievalResult.rank =
      (((fresh results [] before ++ stale k results [] before).map RetrievalResult.rank).insertionSort (· ≤ ·)).take k := by
  induction before using List.reverseRecOn with
  | nil => simp [merged, Merge.empty, fresh, stale]
  | append_singleton before r ih =>
    have earlier : ∀ other ∈ before, other ∈ results := (forall_mem_append.mp part).1
    rw [merged_snoc, fresh_snoc, stale_snoc, nil_append]
    cases taken : (merged k before).dominated r with
    | true =>
      have old : ¬(IsBest results r ∧ r ∉ before) := by
        rintro ⟨best, new⟩
        rw [taken_of_best best new earlier] at taken
        cases taken
      rw [insert_of_dominated taken, if_neg old, if_neg (by simp), append_nil, append_nil]
      exact ih earlier
    | false =>
      have grown : (((fresh results [] before ++ if IsBest results r ∧ r ∉ before then [r] else []) ++
          (stale k results [] before ++ if false = false ∧ ¬(IsBest results r ∧ r ∉ before) then [r] else [])).map
            RetrievalResult.rank).Perm
          (r.rank :: (fresh results [] before ++ stale k results [] before).map RetrievalResult.rank) := by
        rw [← map_cons]
        apply List.Perm.map
        by_cases first : IsBest results r ∧ r ∉ before
        · rw [if_pos first, if_neg (fun apart => apart.2 first), append_nil, append_assoc]
          exact perm_middle
        · rw [if_neg first, if_pos ⟨rfl, first⟩, append_nil, ← append_assoc]
          exact perm_append_comm
      rw [TopK.sort_perm grown, insertionSort_cons, heap_insert (heap_length k before) taken, map_take,
        TopK.map_push, ih earlier]
      exact TopK.take_orderedInsert_take _ k r.rank

/-- As many ids as there are places have a best result up to `r`. -/
def Beyond (k : Nat) (results : List RetrievalResult) (r : RetrievalResult) : Prop :=
  k ≤ (deduplicated results).countP fun other => decide (other.rank ≤ r.rank)

instance (k : Nat) (results : List RetrievalResult) (r : RetrievalResult) : Decidable (Beyond k results r) :=
  inferInstanceAs (Decidable (_ ≤ _))

/-- Every result that passes the check for duplicates, besides the first best one of its id, is beyond the
first `k`. -/
def Quiet (k : Nat) (results : List RetrievalResult) : Prop :=
  ∀ before r after, results = before ++ r :: after → (merged k before).dominated r = false →
    IsBest results r ∧ r ∉ before ∨ Beyond k results r

theorem map_rank_deduplicated (results : List RetrievalResult) :
    (deduplicated results).map RetrievalResult.rank =
      ((fresh results [] results).map RetrievalResult.rank).insertionSort (· ≤ ·) := by
  have ranked : (deduplicated results).map RetrievalResult.rank =
      (((results.filter (IsBest results ·)).dedup).map RetrievalResult.rank).insertionSort (· ≤ ·) :=
    map_insertionSort _ _ RetrievalResult.rank _ fun _ _ _ _ => Iff.rfl
  rw [ranked]
  apply TopK.sort_perm
  exact ((perm_insertionSort _ _).symm.trans (fresh_perm results).symm).map _

theorem right_iff_quiet (k : Nat) (results : List RetrievalResult) :
    Right k results (merged k results).heap ↔ Quiet k results := by
  have exact_ : Right k results (merged k results).heap ↔ (merged k results).heap = (deduplicated results).take k :=
    ⟨Right.first, fun same => same ▸ right_take k results⟩
  rw [exact_, ← (RetrievalResult.rank_injective.list_map).eq_iff, map_rank_heap k fun _ member => member, map_take,
    map_rank_deduplicated, map_append, TopK.take_sort_append_iff]
  have counted (r : RetrievalResult) : ((fresh results [] results).map RetrievalResult.rank).countP (· ≤ r.rank) =
      (deduplicated results).countP fun other => decide (other.rank ≤ r.rank) := by
    rw [countP_map]
    exact (fresh_perm results).countP_eq _
  constructor
  · intro enough before r after split taken
    by_cases first : IsBest results r ∧ r ∉ before
    · exact .inl first
    · have member : r ∈ stale k results [] results := mem_stale.mpr ⟨before, after, split, taken, first⟩
      have own := enough r.rank (mem_map_of_mem member)
      rw [counted] at own
      exact .inr own
  · intro quiet rank member
    obtain ⟨r, listed, rfl⟩ := mem_map.mp member
    obtain ⟨before, after, split, taken, old⟩ := mem_stale.mp listed
    rw [counted]
    exact (quiet before r after split taken).resolve_left old

/-! ### Lists that are merged right for every `k` -/

def FirstBest (results : List RetrievalResult) : Prop :=
  ∀ before r after, results = before ++ r :: after → r.id ∉ before.map RetrievalResult.id → IsBest results r

theorem Beyond.mono (beyond : Beyond k results r) (le : r.rank ≤ other.rank) : Beyond k results other := by
  refine Nat.le_trans beyond (countP_mono_left fun x _ up => ?_)
  rw [decide_eq_true_eq] at up ⊢
  exact le_trans up le

theorem IsBest.rank_le (best : IsBest results r) (member : other ∈ results) (same : other.id = r.id) : r.rank ≤ other.rank := by
  have le := best.2 other member same
  rcases lt_or_eq_of_le le with less | equal
  · exact le_of_lt (Prod.Lex.toLex_lt_toLex.mpr (.inl less))
  · have own : other = r := by
      cases r
      cases other
      simp_all
    rw [own]

theorem FirstBest.best_before (first : FirstBest results) (split : results = before ++ rest)
    (known : r.id ∈ before.map RetrievalResult.id) : ∃ best ∈ before, best.id = r.id ∧ IsBest results best := by
  induction before using List.reverseRecOn generalizing rest with
  | nil => cases known
  | append_singleton before other ih =>
    rw [append_assoc, singleton_append] at split
    by_cases earlier : r.id ∈ before.map RetrievalResult.id
    · obtain ⟨best, member, own⟩ := ih split earlier
      exact ⟨best, mem_append_left _ member, own⟩
    · have same : r.id = other.id := by
        rw [map_append, mem_append] at known
        simpa using known.resolve_left earlier
      exact ⟨other, by simp, same.symm, first before other rest split (same ▸ earlier)⟩

/-- What a merge keeps while the first result of each id is a best one. -/
structure Kept (k : Nat) (results before : List RetrievalResult) (merge : Merge) : Prop where
  seen : ∀ best ∈ before, IsBest results best → merge.seen best.id = some best.similarity ∨ Beyond k results best
  mem : ∀ r ∈ merge.heap, r ∈ before
  heap : ∀ r ∈ merge.heap, IsBest results r ∨ ∀ best, IsBest results best → best.id = r.id → Beyond k results best
  distinct : (merge.heap.filter fun r => !decide (Beyond k results r)).Nodup

theorem Kept.taken (kept : Kept k results before merge) (first : FirstBest results)
    (split : results = before ++ r :: rest) (taken : merge.dominated r = false) :
    IsBest results r ∧ r ∉ before ∨ ∀ best, IsBest results best → best.id = r.id → Beyond k results best := by
  by_cases known : r.id ∈ before.map RetrievalResult.id
  · right
    intro best own same
    obtain ⟨f, arrived, alike, top⟩ := first.best_before split known
    obtain rfl : best = f := top.eq own (same.trans alike.symm)
    have member : r ∈ results := by simp [split]
    rcases kept.seen best arrived own with noted | beyond
    · have skipped : merge.dominated r = true := by
        rw [Merge.dominated, ← same, noted, Option.any_some, decide_eq_true_eq]
        exact own.2 r member same.symm
      rw [skipped] at taken
      cases taken
    · exact beyond
  · refine .inl ⟨first before r rest split known, fun member => known (mem_map_of_mem member)⟩

theorem beyond_of_greatest {heap : List RetrievalResult} (full : k ≤ heap.length)
    (below : ∀ r ∈ heap, r.rank ≤ last.rank)
    (sound : ∀ r ∈ heap, r ∈ results ∧ (IsBest results r ∨ ∀ best, IsBest results best → best.id = r.id → Beyond k results best))
    (served : ∀ r ∈ results, ∃ best, IsBest results best ∧ best.id = r.id)
    (distinct : (heap.filter fun r => !decide (Beyond k results r)).Nodup) : Beyond k results last := by
  by_contra inside
  have near : ∀ r ∈ heap, ¬Beyond k results r := fun r member beyond => inside (beyond.mono (below r member))
  have all : ∀ r ∈ heap, IsBest results r := by
    intro r member
    obtain ⟨arrived, own | gone⟩ := sound r member
    · exact own
    · obtain ⟨best, top, same⟩ := served r arrived
      exact absurd ((gone best top same).mono (top.rank_le arrived same.symm)) (near r member)
  rw [filter_eq_self.mpr fun r member => by simpa using near r member] at distinct
  have part : heap.Subperm ((deduplicated results).filter fun r => decide (r.rank ≤ last.rank)) := by
    refine distinct.subperm fun r member => ?_
    rw [mem_filter, decide_eq_true_eq]
    exact ⟨mem_deduplicated.mpr (all r member), below r member⟩
  apply inside
  rw [Beyond, countP_eq_length_filter]
  exact Nat.le_trans full part.length_le

theorem getLast_push (sorted : heap.Pairwise fun a b => a.rank ≤ b.rank)
    (top : (TopK.push RetrievalResult.rank r heap).getLast? = some last) :
    ∀ other ∈ TopK.push RetrievalResult.rank r heap, other.rank ≤ last.rank := by
  intro other member
  have total : Std.Total fun a b : RetrievalResult => a.rank ≤ b.rank := ⟨fun a b => le_total _ _⟩
  have trans : IsTrans RetrievalResult fun a b => a.rank ≤ b.rank := ⟨fun _ _ _ => le_trans⟩
  have ordered := List.Pairwise.orderedInsert r heap sorted
  obtain ⟨front, split⟩ := getLast?_eq_some_iff.mp top
  rw [TopK.push] at split member
  rw [split] at ordered member
  rcases mem_append.mp member with earlier | same
  · exact (pairwise_append.mp ordered).2.2 other earlier last (mem_singleton_self _)
  · rw [mem_singleton.mp same]

theorem heap_sorted (k : Nat) (results : List RetrievalResult) :
    (merged k results).heap.Pairwise fun a b => a.rank ≤ b.rank := by
  rw [← pairwise_map, map_rank_heap k fun _ member => member]
  exact (pairwise_insertionSort _ _).sublist (take_sublist _ _)

theorem FirstBest.served (first : FirstBest results) (member : r ∈ results) :
    ∃ best, IsBest results best ∧ best.id = r.id := by
  obtain ⟨best, _, same, own⟩ := first.best_before (append_nil results).symm (mem_map_of_mem member)
  exact ⟨best, own, same⟩

theorem Kept.push (kept : Kept k results before merge)
    (new : IsBest results r ∧ r ∉ before ∨ ∀ best, IsBest results best → best.id = r.id → Beyond k results best)
    (served : ∃ best, IsBest results best ∧ best.id = r.id) (member : r ∈ results) :
    Kept k results (before ++ [r])
      ⟨TopK.push RetrievalResult.rank r merge.heap, Function.update merge.seen r.id (some r.similarity)⟩ := by
  have pushed : (TopK.push RetrievalResult.rank r merge.heap).Perm (r :: merge.heap) := perm_orderedInsert _ _ _
  refine ⟨?_, ?_, ?_, ?_⟩
  · intro best arrived own
    dsimp only
    by_cases same : best.id = r.id
    · rw [same, Function.update_self]
      rcases new with ⟨top, _⟩ | gone
      · rw [top.eq own same]
        exact .inl rfl
      · exact .inr (gone best own same)
    · rw [Function.update_of_ne same]
      have earlier : best ∈ before := by
        rcases mem_append.mp arrived with earlier | last
        · exact earlier
        · exact absurd (congrArg RetrievalResult.id (mem_singleton.mp last)) same
      exact kept.seen best earlier own
  · intro other inside
    rcases mem_cons.mp (pushed.mem_iff.mp inside) with rfl | earlier
    · exact mem_append_right _ (mem_singleton_self _)
    · exact mem_append_left _ (kept.mem other earlier)
  · intro other inside
    rcases mem_cons.mp (pushed.mem_iff.mp inside) with rfl | earlier
    · exact new.imp And.left id
    · exact kept.heap other earlier
  · rw [(pushed.filter _).nodup_iff]
    by_cases far : Beyond k results r
    · rw [filter_cons_of_neg (by simpa using far)]
      exact kept.distinct
    · rw [filter_cons_of_pos (by simpa using far), nodup_cons]
      refine ⟨fun inside => ?_, kept.distinct⟩
      rcases new with ⟨_, fresh⟩ | gone
      · exact fresh (kept.mem r (mem_filter.mp inside).1)
      · obtain ⟨best, top, same⟩ := served
        exact far ((gone best top same).mono (top.rank_le member same.symm))

theorem Kept.insert (kept : Kept k results before (merged k before)) (first : FirstBest results)
    (split : results = before ++ r :: rest) : Kept k results (before ++ [r]) (merged k (before ++ [r])) := by
  have part : ∀ other ∈ before ++ [r], other ∈ results := by
    intro other member
    rw [split, append_cons]
    exact mem_append_left _ member
  rw [merged_snoc]
  cases taken : (merged k before).dominated r with
  | true =>
    rw [insert_of_dominated taken]
    refine ⟨?_, fun other inside => mem_append_left _ (kept.mem other inside), kept.heap, kept.distinct⟩
    intro best arrived own
    by_cases earlier : best ∈ before
    · exact kept.seen best earlier own
    · have last : best = r := by simpa [earlier] using arrived
      have new := taken_of_best (k := k) own earlier (forall_mem_append.mp part).1
      rw [last, taken] at new
      cases new
  | false =>
    have new := kept.taken first split taken
    have member : r ∈ results := part r (by simp)
    have grown := kept.push new (first.served member) member
    rcases insert_cases k taken with ⟨_, same⟩ | ⟨long, evicted, last, same⟩
    · rw [same]
      exact grown
    · rw [same]
      have inside : evicted ∈ TopK.push RetrievalResult.rank r (merged k before).heap := mem_of_getLast? last
      have beyond : Beyond k results evicted :=
        beyond_of_greatest (Nat.le_of_lt long) (getLast_push (heap_sorted k before) last)
          (fun other held => ⟨part other (grown.mem other held), grown.heap other held⟩)
          (fun other arrived => first.served arrived) grown.distinct
      have rest := dropLast_subset (TopK.push RetrievalResult.rank r (merged k before).heap)
      refine ⟨?_, fun other held => grown.mem other (rest held), fun other held => grown.heap other (rest held), ?_⟩
      · intro best arrived own
        dsimp only
        by_cases gone : best.id = evicted.id
        · right
          rcases grown.heap evicted inside with top | far
          · rw [top.eq own gone]
            exact beyond
          · exact far best own gone
        · rw [Function.update_of_ne gone]
          exact grown.seen best arrived own
      · exact grown.distinct.sublist ((dropLast_sublist _).filter _)

theorem FirstBest.kept (first : FirstBest results) (split : results = before ++ rest) :
    Kept k results before (merged k before) := by
  induction before using List.reverseRecOn generalizing rest with
  | nil =>
    refine ⟨fun _ member => ?_, fun _ member => ?_, fun _ member => ?_, nodup_nil⟩
    · cases member
    · cases member
    · cases member
  | append_singleton before r ih =>
    rw [append_assoc, singleton_append] at split
    exact (ih split).insert first split

theorem FirstBest.quiet (first : FirstBest results) (k : Nat) : Quiet k results := by
  intro before r after split taken
  rcases (first.kept split).taken first split taken with new | gone
  · exact .inl new
  · have member : r ∈ results := by simp [split]
    obtain ⟨best, top, same⟩ := first.served member
    exact .inr ((gone best top same).mono (top.rank_le member same.symm))

theorem firstBest_of_quiet (quiet : Quiet results.length results) : FirstBest results := by
  intro before r after split new
  have taken : (merged results.length before).dominated r = false := by
    rw [Bool.eq_false_iff]
    intro skipped
    obtain ⟨similarity, known, _⟩ := (Option.any_eq_true _ _).mp skipped
    obtain ⟨other, member, same, _⟩ := seen_arrived known
    exact new (same ▸ mem_map_of_mem member)
  rcases quiet before r after split taken with ⟨own, _⟩ | beyond
  · exact own
  · by_contra worse
    have fewer : (results.filter (IsBest results ·)).length < results.length :=
      length_filter_lt_length_iff_exists.mpr ⟨r, by simp [split], by simpa using worse⟩
    have counted : (deduplicated results).length ≤ (results.filter (IsBest results ·)).length := by
      rw [deduplicated, length_insertionSort]
      exact (dedup_sublist _).length_le
    have enough := Nat.le_trans beyond countP_le_length
    omega

/-- For one `k` the merge is right as long as it takes nothing but the first best result of each id among the
first `k`; it is so for every `k` when the first result of each id is one of its best. -/
theorem federatedQuery_right_iff (local_ : List RetrievalResult)
    (peers : List (Except String (List RetrievalResult))) :
    ((∀ k, Right k (arrivals local_ peers) (federatedQuery k local_ peers)) ↔ FirstBest (arrivals local_ peers)) ∧
      ∀ k, Right k (arrivals local_ peers) (federatedQuery k local_ peers) ↔ Quiet k (arrivals local_ peers) := by
  simp only [federatedQuery_eq, right_iff_quiet]
  exact ⟨⟨fun quiet => firstBest_of_quiet (quiet _), fun first k => first.quiet k⟩, fun _ => trivial⟩

/-- A peer's better copy does not replace the local one. -/
theorem federatedQuery_denies :
    ¬Right 2 (arrivals [⟨"a", 1 / 2⟩] [.ok [⟨"a", 9 / 10⟩]]) (federatedQuery 2 [⟨"a", 1 / 2⟩] [.ok [⟨"a", 9 / 10⟩]]) := by
  have twice : federatedQuery 2 [⟨"a", 1 / 2⟩] [.ok [⟨"a", 9 / 10⟩]] = [⟨"a", 9 / 10⟩, ⟨"a", 1 / 2⟩] := by
    norm_num [federatedQuery, Merge.insert, Merge.dominated, Merge.empty, TopK.push, RetrievalResult.rank,
      Prod.Lex.toLex_le_toLex]
  intro right
  have distinct := right.distinct
  rw [twice] at distinct
  simp at distinct

end Warm.Federated
