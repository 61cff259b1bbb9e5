import Mathlib.Data.List.GetD
import Mathlib.Data.List.Count
import Mathlib.Tactic.Linarith

/-! Counting sort into one array with an offset for each key: the keys are counted, the counts
summed up, and each item is put where the offset of its key points, which then moves on. The items
of a key come out next to each other in the order they had. -/
namespace Warm.CountingSort

open List
open Prod (fst snd)

variable {α : Type*}

/-- `counts[key + 1] += 1` for each key, over `keys + 1` zeros. -/
def countKeys (keys : Nat) (items : List Nat) : List Nat :=
  items.foldl (fun counts key => counts.modify (key + 1) (· + 1)) (List.replicate (keys + 1) 0)

/-- `counts[i + 1] += counts[i]` for `i` below `keys`. -/
def accumulate (keys : Nat) (counts : List Nat) : List Nat :=
  (List.range keys).foldl (fun counts i => counts.modify (i + 1) (· + counts.getD i 0)) counts

def offsets (keys : Nat) (items : List Nat) : List Nat := accumulate keys (countKeys keys items)

/-- `out[fill[key]] = item; fill[key] += 1` for each item. -/
def scatter (fill : List Nat) : List (Nat × α) → List α → List α
  | [], out => out
  | (key, item) :: items, out =>
    scatter (fill.modify key (· + 1)) items (out.set (fill.getD key 0) item)

def below (items : List Nat) (key : Nat) : Nat := items.countP (· < key)

theorem below_succ (items : List Nat) (key : Nat) : below items (key + 1) = below items key + items.count key := by
  induction items with
  | nil => rfl
  | cons a items ih =>
    simp only [below, countP_cons, count_cons] at ih ⊢
    rw [ih]
    by_cases less : a < key
    · have apart : (a == key) = false := by simpa using Nat.ne_of_lt less
      simp [less, Nat.lt_succ_of_lt less, apart]
      omega
    · by_cases same : a = key
      · subst same
        simp
        omega
      · have above : ¬ a < key + 1 := by omega
        simp [less, above, same]

theorem below_mono (items : List Nat) (le : a ≤ b) : below items a ≤ below items b := by
  apply countP_mono_left
  intro key _ less
  rw [decide_eq_true_eq] at less ⊢
  omega

theorem getD_modify (l : List Nat) (i j : Nat) (f : Nat → Nat) (inside : i < l.length) :
    (l.modify i f).getD j 0 = if j = i then f (l.getD j 0) else l.getD j 0 := by
  simp only [getD_eq_getElem?_getD, getElem?_modify]
  by_cases same : j = i
  · subst same
    simp [inside]
  · simp [same, Ne.symm same]

theorem countKeys_length (keys : Nat) (items : List Nat) : (countKeys keys items).length = keys + 1 := by
  have run (counts : List Nat) :
      (items.foldl (fun counts key => counts.modify (key + 1) (· + 1)) counts).length = counts.length := by
    induction items generalizing counts with
    | nil => rfl
    | cons key items ih => rw [foldl_cons, ih, length_modify]
  rw [countKeys, run, length_replicate]

theorem countKeys_getD {keys} (bounded : ∀ key ∈ items, key < keys) (j : Nat) :
    (countKeys keys items).getD j 0 = if j = 0 then 0 else items.count (j - 1) := by
  have run (counts : List Nat) (size : counts.length = keys + 1) :
      (items.foldl (fun counts key => counts.modify (key + 1) (· + 1)) counts).getD j 0 =
        counts.getD j 0 + if j = 0 then 0 else items.count (j - 1) := by
    induction items generalizing counts with
    | nil => simp
    | cons key items ih =>
      have own := bounded key mem_cons_self
      rw [foldl_cons, ih (forall_mem_cons.mp bounded).2 _
        (by rw [length_modify, size]), getD_modify _ _ _ _ (by omega), count_cons]
      by_cases first : j = 0
      · simp [first]
      · by_cases same : j = key + 1
        · subst same
          simp
          omega
        · have apart : ¬ key = j - 1 := by omega
          simp [first, same, apart]
  have none : (List.replicate (keys + 1) 0).getD j 0 = 0 := by
    rw [getD_eq_getElem?_getD, getElem?_replicate]
    split <;> rfl
  rw [countKeys, run _ length_replicate, none, Nat.zero_add]

theorem accumulate_length (keys : Nat) (counts : List Nat) : (accumulate keys counts).length = counts.length := by
  induction keys with
  | zero => rfl
  | succ keys ih =>
    rw [accumulate, range_succ, foldl_append, foldl_cons, foldl_nil, length_modify]
    exact ih

theorem accumulate_getD (keys : Nat) (counts : List Nat) (room : keys < counts.length) (j : Nat) (inside : j ≤ keys) :
    (accumulate keys counts).getD j 0 = ((List.range (j + 1)).map fun i => counts.getD i 0).sum := by
  have run (k : Nat) (most : k < counts.length) (j : Nat) : (accumulate k counts).getD j 0 =
      if j ≤ k then ((List.range (j + 1)).map fun i => counts.getD i 0).sum else counts.getD j 0 := by
    induction k generalizing j with
    | zero =>
      by_cases first : j = 0
      · simp [accumulate, first]
      · simp [accumulate, first]
    | succ k ih =>
      have before := ih (by omega)
      have step : accumulate (k + 1) counts =
          (accumulate k counts).modify (k + 1) (· + (accumulate k counts).getD k 0) := by
        rw [accumulate, range_succ, foldl_append, foldl_cons, foldl_nil]
        rfl
      rw [step, getD_modify _ _ _ _ (by rw [accumulate_length]; exact most), before j, before k,
        if_pos (Nat.le_refl k)]
      by_cases last : j = k + 1
      · subst last
        rw [if_pos rfl, if_neg (by omega), if_pos (Nat.le_refl _), range_succ (n := k + 1), map_append,
          sum_append]
        simp only [map_cons, map_nil, sum_cons, sum_nil, Nat.add_zero]
        exact Nat.add_comm _ _
      · rw [if_neg last]
        by_cases within : j ≤ k
        · rw [if_pos within, if_pos (by omega)]
        · rw [if_neg within, if_neg (by omega)]
  rw [run keys room j, if_pos inside]

theorem offsets_length (keys : Nat) (items : List Nat) : (offsets keys items).length = keys + 1 := by
  rw [offsets, accumulate_length, countKeys_length]

theorem offsets_getD {keys} (bounded : ∀ key ∈ items, key < keys) (j : Nat) (inside : j ≤ keys) :
    (offsets keys items).getD j 0 = below items j := by
  rw [offsets, accumulate_getD keys _ (by rw [countKeys_length]; omega) j inside]
  induction j with
  | zero =>
    have first := countKeys_getD bounded 0
    rw [below, countP_eq_zero.mpr (by simp)]
    simpa using first
  | succ j ih =>
    have next := countKeys_getD bounded (j + 1)
    rw [range_succ, map_append, sum_append, ih (by omega), below_succ]
    simpa using next

theorem take_drop_set_of_outside (out : List α) (x : α) (outside : p < a ∨ a + m ≤ p) :
    ((out.set p x).drop a).take m = (out.drop a).take m := by
  apply ext_getElem?
  intro i
  by_cases inside : i < m
  · rw [getElem?_take_of_lt inside, getElem?_take_of_lt inside, getElem?_drop, getElem?_drop,
      getElem?_set_ne (by omega)]
  · rw [getElem?_take_eq_none (by omega), getElem?_take_eq_none (by omega)]

theorem take_drop_set_last (out : List α) (x : α) (inside : a + m < out.length) :
    ((out.set (a + m) x).drop a).take (m + 1) = (out.drop a).take m ++ [x] := by
  have last : m < ((out.set (a + m) x).drop a).length := by
    rw [length_drop, length_set]
    omega
  rw [take_succ_eq_append_getElem last, take_drop_set_of_outside out x (.inr (Nat.le_refl _))]
  simp

theorem scatter_length (fill : List Nat) (items : List (Nat × α)) (out : List α) :
    (scatter fill items out).length = out.length := by
  induction items generalizing fill out with
  | nil => rfl
  | cons item items ih => rw [scatter, ih, length_set]

/-- The items of a key stand between its offset and the next, in their order. -/
theorem scatter_slice {keys : Nat} {items : List (Nat × α)} (bounded : ∀ item ∈ items, item.1 < keys) (out : List α)
    (room : out.length = items.length) (key : Nat) (inside : key < keys) :
    ((scatter (offsets keys (items.map fst)) items out).drop (below (items.map fst) key)).take
        ((items.map fst).count key) =
      (items.filter fun item => item.1 = key).map snd := by
  let ks := items.map fst
  have bounded' : ∀ k ∈ ks, k < keys := by
    intro k member
    obtain ⟨item, within, rfl⟩ := mem_map.mp member
    exact bounded item within
  -- What the loop keeps of the items it has placed, `done`.
  have run (done rest : List (Nat × α)) (split : items = done ++ rest) (fill : List Nat) (out : List α)
      (room : out.length = items.length) (size : fill.length = keys + 1)
      (filled : ∀ k < keys, fill.getD k 0 = below ks k + (done.map fst).count k)
      (placed : ∀ k < keys, (out.drop (below ks k)).take ((done.map fst).count k) =
        (done.filter fun item => item.1 = k).map snd) :
      ((scatter fill rest out).drop (below ks key)).take (ks.count key) =
        (items.filter fun item => item.1 = key).map snd := by
    induction rest generalizing done fill out with
    | nil =>
      rw [append_nil] at split
      subst split
      exact placed key inside
    | cons item rest ih =>
      obtain ⟨k, x⟩ := item
      have own : k < keys := bounded (k, x) (by rw [split]; simp)
      have split' : items = (done ++ [(k, x)]) ++ rest := by rw [split]; simp
      have counts (j : Nat) : ((done ++ [(k, x)]).map fst).count j =
          (done.map fst).count j + if k = j then 1 else 0 := by
        by_cases same : k = j
        · simp [same]
        · simp [same]
      have total (j : Nat) : (done.map fst).count j + (if k = j then 1 else 0) ≤ ks.count j := by
        have sum : ks.count j = (done.map fst).count j + (((k, x) :: rest).map fst).count j := by
          simp only [ks]
          rw [split, map_append, count_append]
        rw [sum, map_cons, count_cons]
        by_cases same : k = j
        · simp [same]
        · simp [same]
      have up (j : Nat) : below ks j + ks.count j = below ks (j + 1) := (below_succ ks j).symm
      have here := total k
      rw [if_pos rfl] at here
      have up_k := up k
      have limit : below ks (k + 1) ≤ items.length := by
        rw [← length_map (f := fst)]
        exact countP_le_length
      rw [scatter, filled k own]
      refine ih (done ++ [(k, x)]) split' _ _ (by rw [length_set, room]) (by rw [length_modify, size]) ?_ ?_
      · intro j within
        rw [getD_modify _ _ _ _ (by omega), filled j within, counts j]
        by_cases same : j = k
        · simp [same]
          omega
        · simp [same, Ne.symm same]
      · intro j within
        rw [counts j]
        by_cases same : k = j
        · subst same
          rw [if_pos rfl, take_drop_set_last out x (by omega), placed k own]
          simp
        · have apart : below ks k + (done.map fst).count k < below ks j ∨
              below ks j + (done.map fst).count j ≤ below ks k + (done.map fst).count k := by
            have there := total j
            rw [if_neg same] at there
            have up_j := up j
            rcases Nat.lt_or_gt_of_ne same with less | greater
            · have order := below_mono ks (a := k + 1) (b := j) less
              exact .inl (by omega)
            · have order := below_mono ks (a := j + 1) (b := k) greater
              exact .inr (by omega)
          rw [if_neg same, Nat.add_zero, take_drop_set_of_outside out x apart, placed j within]
          simp [same]
  refine run [] items rfl _ out room (offsets_length _ _) (fun k within => ?_) fun k within => by simp
  rw [offsets_getD bounded' k (Nat.le_of_lt within)]
  simp [ks]

theorem flatMap_filter_perm {keys} {items : List (Nat × α)} (bounded : ∀ item ∈ items, item.1 < keys) :
    ((List.range keys).flatMap fun key => (items.filter fun item => item.1 = key).map snd).Perm
      (items.map snd) := by
  have run (k : Nat) : ((List.range k).flatMap fun key => (items.filter fun item => item.1 = key).map snd).Perm
      ((items.filter fun item => item.1 < k).map snd) := by
    induction k with
    | zero => simp
    | succ k ih =>
      have earlier : (items.filter fun item => item.1 < k + 1).filter (fun item => decide (item.1 < k)) =
          items.filter fun item => item.1 < k := by
        rw [filter_filter]
        apply filter_congr
        intro item _
        rw [← Bool.decide_and, decide_eq_decide]
        omega
      have last : (items.filter fun item => item.1 < k + 1).filter (fun item => !decide (item.1 < k)) =
          items.filter fun item => item.1 = k := by
        rw [filter_filter]
        apply filter_congr
        intro item _
        rw [← decide_not, ← Bool.decide_and, decide_eq_decide]
        omega
      have both := filter_append_perm (fun item => decide (item.1 < k)) (items.filter fun item => item.1 < k + 1)
      rw [earlier, last] at both
      rw [range_succ, flatMap_append, flatMap_singleton]
      refine (ih.append_right _).trans ?_
      rw [← map_append]
      exact both.map snd
  have all : items.filter (fun item => decide (item.1 < keys)) = items :=
    filter_eq_self.mpr fun item member => decide_eq_true (bounded item member)
  have total := run keys
  rwa [all] at total

end Warm.CountingSort
