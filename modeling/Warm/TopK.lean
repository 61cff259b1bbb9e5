import Mathlib.Data.List.Sort
import Mathlib.Data.Prod.Lex

/-! Keeping the `k` least of a sequence of candidates in a bounded max-heap. The heap is given
by its contents in ascending order of their keys, so that its greatest element is the last. -/
namespace Warm.TopK

open List

variable {α β : Type*} [LinearOrder β] {key : α → β} {l : List β}

def push (key : α → β) (x : α) (heap : List α) : List α :=
  heap.orderedInsert (fun a b => key a ≤ key b) x

/-- Push while there is room; afterwards a candidate less than the greatest replaces it. -/
def offer (key : α → β) (k : Nat) (heap : List α) (x : α) : List α :=
  if heap.length < k then push key x heap
  else
    match heap.getLast? with
    | none => heap
    | some top => if key x < key top then push key x heap.dropLast else heap

def collect (key : α → β) (k : Nat) (xs : List α) : List α := xs.foldl (offer key k) []

theorem map_push (key : α → β) (x : α) (heap : List α) :
    (push key x heap).map key = push id (key x) (heap.map key) := by
  apply map_orderedInsert
  · intro a _
    rfl
  · intro a _
    rfl

theorem map_offer (key : α → β) (k : Nat) (heap : List α) (x : α) :
    (offer key k heap x).map key = offer id k (heap.map key) (key x) := by
  unfold offer
  rw [length_map, getLast?_map]
  by_cases room : heap.length < k
  · rw [if_pos room, if_pos room, map_push]
  rw [if_neg room, if_neg room]
  cases heap.getLast? with
  | none => rfl
  | some top =>
    by_cases less : key x < key top
    · simp only [Option.map_some, id, less, ↓reduceIte]
      rw [map_push, map_dropLast]
    · simp [less]

theorem mem_offer {heap : List α} {x y : α} (member : y ∈ offer key k heap x) : y = x ∨ y ∈ heap := by
  unfold offer push at member
  split at member
  · exact (mem_orderedInsert _).mp member
  split at member
  · exact .inr member
  split at member
  · rcases (mem_orderedInsert _).mp member with same | kept
    · exact .inl same
    · exact .inr (dropLast_subset _ kept)
  · exact .inr member

theorem mem_foldl_offer {xs heap : List α} {y : α} (found : y ∈ xs.foldl (offer key k) heap) :
    y ∈ heap ∨ y ∈ xs := by
  induction xs generalizing heap with
  | nil => exact .inl found
  | cons x xs ih =>
    rcases ih found with kept | later
    · rcases mem_offer kept with rfl | old
      · exact .inr (by simp)
      · exact .inl old
    · exact .inr (by simp [later])

theorem mem_collect {xs : List α} {y : α} (member : y ∈ collect key k xs) : y ∈ xs := by
  rcases mem_foldl_offer member with none | found
  · cases none
  · exact found

theorem orderedInsert_cons_le {ys : List β} (sorted : (y :: ys).Pairwise (· ≤ ·)) (le : y ≤ x) :
    (y :: ys).orderedInsert (· ≤ ·) x = y :: ys.orderedInsert (· ≤ ·) x := by
  by_cases same : x ≤ y
  · obtain rfl := le_antisymm same le
    rw [orderedInsert_cons_of_le _ _ (le_refl x)]
    cases ys with
    | nil => rfl
    | cons z zs =>
      have below : x ≤ z := (pairwise_cons.mp sorted).1 z (by simp)
      rw [orderedInsert_cons_of_le _ _ below]
  · rw [orderedInsert_of_not_le _ _ same]

theorem take_orderedInsert_lt (k : Nat) (inside : k < l.length) (less : x < l[k]) :
    (l.orderedInsert (· ≤ ·) x).take (k + 1) = (l.take k).orderedInsert (· ≤ ·) x := by
  induction l generalizing k with
  | nil => simp at inside
  | cons y ys ih =>
    cases k with
    | zero =>
      have le : x ≤ y := le_of_lt less
      simp [le]
    | succ k =>
      by_cases le : x ≤ y
      · simp [le]
      · simp only [orderedInsert_of_not_le _ _ le, take_succ_cons]
        rw [ih k (by simpa using inside) less]

theorem take_orderedInsert_le (sorted : l.Pairwise (· ≤ ·)) (k : Nat) (inside : k < l.length)
    (le : l[k] ≤ x) : (l.orderedInsert (· ≤ ·) x).take (k + 1) = l.take (k + 1) := by
  induction l generalizing k with
  | nil => simp at inside
  | cons y ys ih =>
    have below : y ≤ x := by
      cases k with
      | zero => exact le
      | succ k =>
        exact le_trans ((pairwise_cons.mp sorted).1 _ (getElem_mem _)) le
    rw [orderedInsert_cons_le sorted below, take_succ_cons, take_succ_cons]
    cases k with
    | zero => rfl
    | succ k => rw [ih (pairwise_cons.mp sorted).2 k (by simpa using inside) le]

theorem offer_take (sorted : l.Pairwise (· ≤ ·)) (k : Nat) (x : β) :
    offer id k (l.take k) x = (l.orderedInsert (· ≤ ·) x).take k := by
  unfold offer
  by_cases room : (l.take k).length < k
  · have short : l.length < k := by
      rw [length_take] at room
      omega
    have total : (l.orderedInsert (· ≤ ·) x).length ≤ k := by
      rw [orderedInsert_length]
      omega
    rw [if_pos room, take_of_length_le (by omega), take_of_length_le total]
    rfl
  rw [if_neg room]
  cases k with
  | zero => simp
  | succ k =>
    have inside : k < l.length := by
      rw [length_take] at room
      omega
    have top : (l.take (k + 1)).getLast? = some l[k] := by
      rw [getLast?_eq_getElem?, length_take, Nat.min_eq_left (by omega)]
      simp [inside]
    rw [top]
    dsimp only [id]
    by_cases less : x < l[k]
    · have rest : (l.take (k + 1)).dropLast = l.take k := by
        rw [dropLast_eq_take, length_take, take_take]
        congr 1
        omega
      rw [if_pos less, rest, take_orderedInsert_lt k inside less]
      rfl
    · rw [if_neg less, take_orderedInsert_le sorted k inside (not_lt.mp less)]

theorem sort_perm {xs ys : List β} (perm : xs.Perm ys) :
    xs.insertionSort (· ≤ ·) = ys.insertionSort (· ≤ ·) :=
  ((perm_insertionSort _ xs).trans (perm.trans (perm_insertionSort _ ys).symm)).eq_of_pairwise'
    (pairwise_insertionSort _ _) (pairwise_insertionSort _ _)

theorem map_collect (key : α → β) (k : Nat) (xs : List α) :
    (collect key k xs).map key = ((xs.map key).insertionSort (· ≤ ·)).take k := by
  have run (heap : List α) (seen : List β)
      (kept : heap.map key = (seen.insertionSort (· ≤ ·)).take k) :
      (xs.foldl (offer key k) heap).map key =
        (((xs.map key).reverse ++ seen).insertionSort (· ≤ ·)).take k := by
    induction xs generalizing heap seen with
    | nil => exact kept
    | cons x xs ih =>
      have next : (offer key k heap x).map key =
          ((key x :: seen).insertionSort (· ≤ ·)).take k := by
        rw [map_offer, kept, offer_take (pairwise_insertionSort _ _), insertionSort_cons]
      rw [foldl_cons, ih _ _ next]
      simp
  have collected := run [] [] (by simp)
  rw [append_nil, sort_perm (reverse_perm _)] at collected
  exact collected

theorem sort_append {xs ys : List β} (apart : ∀ x ∈ xs, ∀ y ∈ ys, x ≤ y) :
    (xs ++ ys).insertionSort (· ≤ ·) = xs.insertionSort (· ≤ ·) ++ ys.insertionSort (· ≤ ·) := by
  refine List.Perm.eq_of_pairwise' (pairwise_insertionSort (· ≤ ·) _) ?_ ?_
  rotate_left
  · exact (perm_insertionSort _ _).trans
      ((perm_insertionSort _ xs).append (perm_insertionSort _ ys)).symm
  · rw [pairwise_append]
    refine ⟨pairwise_insertionSort _ _, pairwise_insertionSort _ _, ?_⟩
    intro x left y right
    exact apart x ((mem_insertionSort _).mp left) y ((mem_insertionSort _).mp right)

section SortBy

variable {key : α → β} {xs ys : List α}

theorem pairwise_sortBy (key : α → β) (xs : List α) :
    (xs.insertionSort fun a b => key a ≤ key b).Pairwise fun a b => key a ≤ key b := by
  have total : Std.Total fun a b : α => key a ≤ key b := ⟨fun a b => le_total _ _⟩
  have trans : IsTrans α fun a b => key a ≤ key b := ⟨fun _ _ _ => le_trans⟩
  exact pairwise_insertionSort _ _

theorem sortBy_perm (distinct : ∀ a ∈ xs, ∀ b ∈ xs, key a = key b → a = b) (perm : xs.Perm ys) :
    (xs.insertionSort fun a b => key a ≤ key b) = ys.insertionSort fun a b => key a ≤ key b := by
  refine List.Perm.eq_of_pairwise ?_ (pairwise_sortBy key xs) (pairwise_sortBy key ys) ?_
  · intro a b left right first second
    rw [mem_insertionSort] at left right
    exact distinct a left b (perm.mem_iff.mpr right) (le_antisymm first second)
  · exact (perm_insertionSort _ _).trans (perm.trans (perm_insertionSort _ _).symm)

theorem sortBy_append (distinct : ∀ a ∈ xs ++ ys, ∀ b ∈ xs ++ ys, key a = key b → a = b)
    (apart : ∀ x ∈ xs, ∀ y ∈ ys, key x ≤ key y) :
    ((xs ++ ys).insertionSort fun a b => key a ≤ key b) =
      (xs.insertionSort fun a b => key a ≤ key b) ++ ys.insertionSort fun a b => key a ≤ key b := by
  have parts := (perm_insertionSort (fun a b => key a ≤ key b) xs).append
    (perm_insertionSort (fun a b => key a ≤ key b) ys)
  refine List.Perm.eq_of_pairwise ?_ (pairwise_sortBy key _) ?_ ((perm_insertionSort _ _).trans parts.symm)
  · intro a b left right first second
    rw [mem_insertionSort] at left
    exact distinct a left b (parts.mem_iff.mp right) (le_antisymm first second)
  · refine pairwise_append.mpr ⟨pairwise_sortBy key xs, pairwise_sortBy key ys, ?_⟩
    intro x left y right
    rw [mem_insertionSort] at left right
    exact apart x left y right

end SortBy

theorem length_collect (key : α → β) (k : Nat) (xs : List α) : (collect key k xs).length = min k xs.length := by
  have mapped := congrArg List.length (map_collect key k xs)
  rw [length_map, length_take, length_insertionSort, length_map] at mapped
  exact mapped

theorem collect_append (key : α → β) (k : Nat) (xs : List α) (x : α) :
    collect key k (xs ++ [x]) = offer key k (collect key k xs) x := by
  rw [collect, collect, foldl_append, foldl_cons, foldl_nil]

theorem collect_pairwise (key : α → β) (k : Nat) (xs : List α) :
    (collect key k xs).Pairwise fun a b => key a ≤ key b := by
  rw [← pairwise_map, map_collect]
  exact (pairwise_insertionSort _ _).sublist (take_sublist _ _)

theorem le_getLast_collect {xs : List α} {top x : α} (last : (collect key k xs).getLast? = some top)
    (member : x ∈ collect key k xs) : key x ≤ key top := by
  have sorted := collect_pairwise key k xs
  obtain ⟨front, split⟩ := getLast?_eq_some_iff.mp last
  rw [split] at member sorted
  rcases mem_append.mp member with before | same
  · exact (pairwise_append.mp sorted).2.2 x before top (mem_singleton_self _)
  · rw [mem_singleton.mp same]

theorem collect_full {xs : List α} {top : α} (last : (collect key k xs).getLast? = some top)
    (full : (collect key k xs).length = k) : k ≤ (xs.filter fun x => key x ≤ key top).length := by
  have below : ∀ y ∈ (collect key k xs).map key, decide (y ≤ key top) = true := by
    intro y member
    obtain ⟨x, inside, rfl⟩ := mem_map.mp member
    exact decide_eq_true (le_getLast_collect last inside)
  have heap := filter_eq_self.mpr below
  rw [map_collect] at heap
  have part : (((xs.map key).insertionSort (· ≤ ·)).take k).length ≤
      (((xs.map key).insertionSort (· ≤ ·)).filter fun y => y ≤ key top).length := by
    rw [← heap]
    exact ((take_sublist _ _).filter _).length_le
  rw [← map_collect, length_map, full, ((perm_insertionSort _ _).filter _).length_eq, filter_map,
    length_map] at part
  exact part

theorem countP_take (sorted : l.Pairwise (· ≤ ·)) (k : Nat) (x : β) :
    (l.take k).countP (· ≤ x) = min k (l.countP (· ≤ x)) := by
  induction l generalizing k with
  | nil => simp
  | cons y ys ih =>
    rw [pairwise_cons] at sorted
    cases k with
    | zero => simp
    | succ k =>
      rw [take_succ_cons]
      by_cases below : y ≤ x
      · rw [countP_cons_of_pos (by simpa using below), countP_cons_of_pos (by simpa using below),
          ih sorted.2, Nat.succ_min_succ]
      · have none (zs : List β) (part : ∀ z ∈ zs, z ∈ ys) : zs.countP (· ≤ x) = 0 := by
          rw [countP_eq_zero]
          intro z member
          have beyond := sorted.1 z (part z member)
          rw [decide_eq_true_eq]
          exact fun le => below (le_trans beyond le)
        rw [countP_cons_of_neg (by simpa using below), countP_cons_of_neg (by simpa using below),
          none _ fun z => mem_of_mem_take, none ys fun z => id, Nat.min_zero]

theorem take_orderedInsert_of_count (sorted : l.Pairwise (· ≤ ·)) {x : β} (full : k ≤ l.countP (· ≤ x)) :
    (l.orderedInsert (· ≤ ·) x).take k = l.take k := by
  cases k with
  | zero => rfl
  | succ k =>
    have inside : k < l.length := Nat.lt_of_lt_of_le full countP_le_length
    refine take_orderedInsert_le sorted k inside ?_
    have all : (l.take (k + 1)).countP (· ≤ x) = (l.take (k + 1)).length := by
      rw [countP_take sorted, length_take]
      omega
    have below := countP_eq_length.mp all l[k] (mem_take_iff_getElem.mpr ⟨k, by omega, rfl⟩)
    exact of_decide_eq_true below

theorem take_sort_append_iff (k : Nat) (old new : List β) :
    ((old ++ new).insertionSort (· ≤ ·)).take k = (old.insertionSort (· ≤ ·)).take k ↔
      ∀ x ∈ new, k ≤ old.countP (· ≤ x) := by
  have counted (xs : List β) (x : β) : (xs.insertionSort (· ≤ ·)).countP (· ≤ x) = xs.countP (· ≤ x) :=
    (perm_insertionSort _ xs).countP_eq _
  constructor
  · intro same x member
    by_contra few
    have counts := congrArg (List.countP (· ≤ x)) same
    rw [countP_take (pairwise_insertionSort _ _), countP_take (pairwise_insertionSort _ _), counted, counted,
      countP_append] at counts
    have one : 0 < new.countP (· ≤ x) := countP_pos_iff.mpr ⟨x, member, by simp⟩
    omega
  · intro enough
    induction new with
    | nil => rw [append_nil]
    | cons x new ih =>
      rw [sort_perm perm_middle, insertionSort_cons, take_orderedInsert_of_count (pairwise_insertionSort _ _)]
      · exact ih (forall_mem_cons.mp enough).2
      · have own := enough x mem_cons_self
        rw [counted, countP_append]
        omega

theorem take_sort_append_take (k : Nat) (old part : List β) :
    ((old ++ (part.insertionSort (· ≤ ·)).take k).insertionSort (· ≤ ·)).take k =
      ((old ++ part).insertionSort (· ≤ ·)).take k := by
  have sorted := pairwise_insertionSort (· ≤ ·) part
  have whole := (perm_insertionSort (· ≤ ·) part).append_left old
  rw [← take_append_drop k (part.insertionSort (· ≤ ·))] at sorted whole
  rw [← append_assoc] at whole
  rw [← sort_perm whole, eq_comm, take_sort_append_iff]
  intro x late
  -- What the cut leaves out is above all that it keeps.
  have below : ((part.insertionSort (· ≤ ·)).take k).countP (· ≤ x) = ((part.insertionSort (· ≤ ·)).take k).length :=
    countP_eq_length.mpr fun y early => decide_eq_true ((pairwise_append.mp sorted).2.2 y early x late)
  have longer := length_pos_of_mem late
  rw [length_drop] at longer
  rw [countP_append, below, length_take]
  omega

theorem take_sort_flatten (k : Nat) (old : List β) (parts : List (List β)) :
    ((old ++ (parts.map fun part => (part.insertionSort (· ≤ ·)).take k).flatten).insertionSort (· ≤ ·)).take k =
      ((old ++ parts.flatten).insertionSort (· ≤ ·)).take k := by
  induction parts generalizing old with
  | nil => rfl
  | cons part parts ih =>
    have last (cut : List β) : (old ++ cut ++ parts.flatten).Perm (old ++ parts.flatten ++ cut) := by
      rw [append_assoc, append_assoc]
      exact perm_append_comm.append_left old
    rw [map_cons, flatten_cons, flatten_cons, ← append_assoc, ih, sort_perm (last _), take_sort_append_take,
      ← sort_perm (last _), append_assoc]

theorem take_orderedInsert_take (l : List β) (k : Nat) (x : β) :
    ((l.take k).orderedInsert (· ≤ ·) x).take k = (l.orderedInsert (· ≤ ·) x).take k := by
  induction l generalizing k with
  | nil => simp
  | cons y ys ih =>
    cases k with
    | zero => simp
    | succ k =>
      rw [take_succ_cons]
      by_cases le : x ≤ y
      · rw [orderedInsert_cons_of_le _ _ le, orderedInsert_cons_of_le _ _ le, take_succ_cons,
          take_succ_cons]
        congr 1
        cases k with
        | zero => rfl
        | succ k => rw [take_succ_cons, take_succ_cons, take_take, Nat.min_eq_left (Nat.le_succ k)]
      · rw [orderedInsert_of_not_le _ _ le, orderedInsert_of_not_le _ _ le, take_succ_cons,
          take_succ_cons, ih]

end Warm.TopK
