import Mathlib.Data.Finset.Card
import Mathlib.Data.List.GetD
import Mathlib.Data.List.Nodup
import Mathlib.Tactic.Linarith

/-! Counting the common elements of two ascending index lists: a sorted merge, or a galloping
search of the long list when the other is less than an eighth of it. Loops carry fuel that
their measure never exhausts. -/
namespace Warm.Intersection

open List

def mergeLoop : Nat → List Nat → List Nat → Nat
  | fuel + 1, x :: xs, y :: ys =>
    if x < y then mergeLoop fuel xs (y :: ys)
    else if y < x then mergeLoop fuel (x :: xs) ys
    else mergeLoop fuel xs ys + 1
  | _, _, _ => 0

def mergeIntersectionCount (a b : List Nat) : Nat := mergeLoop (a.length + b.length) a b

def searchLoop (slice : List Nat) (target : Nat) : Nat → Nat → Nat → Nat
  | 0, lo, _ => lo
  | fuel + 1, lo, hi =>
    if lo < hi then
      let mid := lo + (hi - lo) / 2
      if slice.getD mid 0 < target then searchLoop slice target fuel (mid + 1) hi
      else searchLoop slice target fuel lo mid
    else lo

/-- The leftmost position of `slice` whose element is at least `target`. -/
def binarySearchLeft (slice : List Nat) (target : Nat) : Nat :=
  searchLoop slice target slice.length 0 slice.length

/-- Doubles the step while the element it reaches is less than `val`. -/
def expandStep (large : List Nat) (lo val : Nat) : Nat → Nat → Nat
  | 0, step => step
  | fuel + 1, step =>
    if lo + step < large.length ∧ large.getD (lo + step) 0 < val then
      expandStep large lo val fuel (step * 2)
    else step

/-- The cursor at the first element of `large` from `lo` on that is at least `val`. -/
def gallop (large : List Nat) (lo val : Nat) : Nat :=
  let step := expandStep large lo val large.length 1
  let hi := min (lo + step) large.length
  binarySearchLeft ((large.drop lo).take (hi - lo)) val + lo

def gallopLoop (large : List Nat) : List Nat → Nat → Nat
  | [], _ => 0
  | val :: small, lo =>
    let lo := gallop large lo val
    if lo < large.length ∧ large.getD lo 0 = val then gallopLoop large small (lo + 1) + 1
    else gallopLoop large small lo

def gallopingIntersectionCount (small large : List Nat) : Nat := gallopLoop large small 0

def sparseIntersectionCount (a b : List Nat) : Nat :=
  if a.isEmpty ∨ b.isEmpty then 0
  else
    let (small, large) := if a.length ≤ b.length then (a, b) else (b, a)
    if small.length * 8 < large.length then gallopingIntersectionCount small large
    else mergeIntersectionCount small large

/-- The AVX2 kernel: blocks of eight, each element of one against each of the other, then the merge of the
rest. -/
def blockLoop : Nat → List Nat → List Nat → Nat
  | 0, a, b => mergeIntersectionCount a b
  | fuel + 1, a, b =>
    if 8 ≤ a.length ∧ 8 ≤ b.length then
      let maxA := a.getD 7 0
      let maxB := b.getD 7 0
      if maxA < b.getD 0 0 then blockLoop fuel (a.drop 8) b
      else if maxB < a.getD 0 0 then blockLoop fuel a (b.drop 8)
      else ((a.take 8).filter fun x => (b.take 8).any (x == ·)).length +
        blockLoop fuel (if maxA ≤ maxB then a.drop 8 else a) (if maxB ≤ maxA then b.drop 8 else b)
    else mergeIntersectionCount a b

def simdIntersectionCount (avx2 : Bool) (a b : List Nat) : Option Nat :=
  if avx2 ∧ 8 ≤ a.length ∧ 8 ≤ b.length then some (blockLoop (a.length + b.length) a b) else none

/-- `sparse_intersection_count` as it is built for x86-64. -/
def sparseIntersectionCountX86 (avx2 : Bool) (a b : List Nat) : Nat :=
  if a.isEmpty ∨ b.isEmpty then 0
  else
    let (small, large) := if a.length ≤ b.length then (a, b) else (b, a)
    if small.length * 8 < large.length then gallopingIntersectionCount small large
    else (simdIntersectionCount avx2 small large).getD (mergeIntersectionCount small large)

/-- The number of elements of `a` that are in `b`. -/
def overlap (a b : List Nat) : Nat := (a.filter (· ∈ b)).length

theorem overlap_cons_of_mem (x : Nat) (a : List Nat) (member : x ∈ b) :
    overlap (x :: a) b = overlap a b + 1 := by
  simp [overlap, member]

theorem overlap_cons_of_not_mem (x : Nat) (a : List Nat) (absent : x ∉ b) :
    overlap (x :: a) b = overlap a b := by
  simp [overlap, absent]

theorem overlap_congr (same : ∀ x ∈ a, x ∈ b ↔ x ∈ c) : overlap a b = overlap a c := by
  unfold overlap
  rw [filter_congr]
  intro x member
  simpa using same x member

theorem mergeLoop_eq (fuel : Nat) (a b : List Nat) (ascending : a.Pairwise (· < ·))
    (other : b.Pairwise (· < ·)) (enough : a.length + b.length ≤ fuel) :
    mergeLoop fuel a b = overlap a b := by
  induction fuel generalizing a b with
  | zero =>
    obtain rfl : a = [] := length_eq_zero_iff.mp (by omega)
    simp [mergeLoop, overlap]
  | succ fuel ih =>
    cases a with
    | nil => simp [mergeLoop, overlap]
    | cons x xs =>
      cases b with
      | nil => simp [mergeLoop, overlap]
      | cons y ys =>
        obtain ⟨aboveX, restX⟩ := pairwise_cons.mp ascending
        obtain ⟨aboveY, restY⟩ := pairwise_cons.mp other
        simp only [length_cons] at enough
        rw [mergeLoop]
        by_cases less : x < y
        · have absent : x ∉ y :: ys := by
            intro member
            rcases mem_cons.mp member with rfl | later
            · omega
            · have := aboveY x later
              omega
          rw [if_pos less, ih xs (y :: ys) restX other (by simp only [length_cons]; omega),
            overlap_cons_of_not_mem x xs absent]
        rw [if_neg less]
        -- No element of `x :: xs` is below `x`, so dropping a smaller head of `b` changes nothing.
        have skip (z : Nat) (member : z ∈ x :: xs) (smaller : y < z) : z ∈ y :: ys ↔ z ∈ ys := by
          constructor
          · intro inside
            rcases mem_cons.mp inside with rfl | later
            · omega
            · exact later
          · exact mem_cons_of_mem y
        have least (z : Nat) (member : z ∈ x :: xs) : x ≤ z := by
          rcases mem_cons.mp member with rfl | later
          · exact Nat.le_refl z
          · exact Nat.le_of_lt (aboveX z later)
        by_cases greater : y < x
        · rw [if_pos greater, ih (x :: xs) ys ascending restY (by simp only [length_cons]; omega)]
          apply overlap_congr
          intro z member
          exact (skip z member (Nat.lt_of_lt_of_le greater (least z member))).symm
        · obtain rfl : x = y := by omega
          rw [if_neg greater, ih xs ys restX restY (by omega), overlap_cons_of_mem x xs (by simp)]
          congr 1
          apply overlap_congr
          intro z member
          exact (skip z (mem_cons_of_mem x member) (aboveX z member)).symm

theorem searchLoop_spec (slice : List Nat) (target fuel lo hi : Nat) (bound : hi ≤ slice.length)
    (order : lo ≤ hi) (enough : hi - lo ≤ fuel)
    (ascending : ∀ i j, i < j → j < slice.length → slice.getD i 0 < slice.getD j 0)
    (below : ∀ i, i < lo → slice.getD i 0 < target)
    (above : ∀ i, hi ≤ i → i < slice.length → target ≤ slice.getD i 0) :
    searchLoop slice target fuel lo hi ≤ slice.length ∧
      (∀ i, i < searchLoop slice target fuel lo hi → slice.getD i 0 < target) ∧
      (∀ i, searchLoop slice target fuel lo hi ≤ i → i < slice.length → target ≤ slice.getD i 0) := by
  induction fuel generalizing lo hi with
  | zero =>
    obtain rfl : lo = hi := by omega
    exact ⟨bound, below, above⟩
  | succ fuel ih =>
    rw [searchLoop]
    by_cases open_ : lo < hi
    case neg =>
      obtain rfl : lo = hi := by omega
      rw [if_neg open_]
      exact ⟨bound, below, above⟩
    rw [if_pos open_]
    by_cases left : slice.getD (lo + (hi - lo) / 2) 0 < target
    · rw [if_pos left]
      apply ih (lo + (hi - lo) / 2 + 1) hi bound (by omega) (by omega) _ above
      intro i before
      by_cases last : i = lo + (hi - lo) / 2
      · exact last ▸ left
      · exact Nat.lt_trans (ascending i _ (by omega) (by omega)) left
    · rw [if_neg left]
      apply ih lo (lo + (hi - lo) / 2) (by omega) (by omega) (by omega) below
      intro i after inside
      by_cases first : i = lo + (hi - lo) / 2
      · rw [first]
        omega
      · have := ascending (lo + (hi - lo) / 2) i (by omega) inside
        omega

theorem expandStep_spec (large : List Nat) (lo val fuel step : Nat) (positive : 1 ≤ step)
    (enough : large.length < step + fuel) :
    large.length ≤ lo + expandStep large lo val fuel step ∨
      val ≤ large.getD (lo + expandStep large lo val fuel step) 0 := by
  induction fuel generalizing step with
  | zero =>
    left
    rw [expandStep]
    omega
  | succ fuel ih =>
    rw [expandStep]
    by_cases more : lo + step < large.length ∧ large.getD (lo + step) 0 < val
    · rw [if_pos more]
      exact ih (step * 2) (by omega) (by omega)
    · rw [if_neg more]
      omega

theorem getD_ascending {list : List Nat} (ascending : list.Pairwise (· < ·)) (i j : Nat) (order : i < j)
    (inside : j < list.length) : list.getD i 0 < list.getD j 0 := by
  rw [getD_eq_getElem _ _ inside, getD_eq_getElem _ _ (by omega)]
  exact pairwise_iff_getElem.mp ascending i j (by omega) inside order

/-- The cursor stops at the first element of the whole list that is at least `val`. -/
theorem gallop_spec (large : List Nat) (ascending : large.Pairwise (· < ·)) (lo val : Nat)
    (start : lo ≤ large.length) (below : ∀ i, i < lo → large.getD i 0 < val) :
    gallop large lo val ≤ large.length ∧
      (∀ i, i < gallop large lo val → large.getD i 0 < val) ∧
      (∀ i, gallop large lo val ≤ i → i < large.length → val ≤ large.getD i 0) := by
  have step := expandStep_spec large lo val large.length 1 (Nat.le_refl 1) (by omega)
  unfold gallop
  dsimp only
  generalize expandStep large lo val large.length 1 = reach at step
  generalize top : min (lo + reach) large.length = hi
  generalize window : (large.drop lo).take (hi - lo) = slice
  have length : slice.length = hi - lo := by
    rw [← window, length_take, length_drop]
    omega
  have element (i : Nat) (inside : i < slice.length) : slice.getD i 0 = large.getD (lo + i) 0 := by
    have entry : slice[i]? = large[lo + i]? := by
      rw [← window, getElem?_take_of_lt (by omega), getElem?_drop]
    rw [getD_eq_getElem?_getD, getD_eq_getElem?_getD, entry]
  have found := searchLoop_spec slice val slice.length 0 slice.length (Nat.le_refl _) (Nat.zero_le _)
    (by omega)
    (by
      intro i j order inside
      rw [element i (by omega), element j inside]
      exact getD_ascending ascending _ _ (by omega) (by omega))
    (by intro i before; omega) (by intro i after inside; omega)
  change binarySearchLeft slice val ≤ _ ∧ (∀ i, i < binarySearchLeft slice val → _) ∧
    (∀ i, binarySearchLeft slice val ≤ i → _) at found
  generalize binarySearchLeft slice val = at_ at found
  obtain ⟨bound, left, right⟩ := found
  refine ⟨by omega, ?_, ?_⟩
  · intro i before
    by_cases first : i < lo
    · exact below i first
    · have := left (i - lo) (by omega)
      rwa [element _ (by omega), Nat.add_sub_cancel' (by omega)] at this
  · intro i after inside
    by_cases within : i < hi
    · have := right (i - lo) (by omega) (by omega)
      rwa [element _ (by omega), Nat.add_sub_cancel' (by omega)] at this
    · -- Behind the window lies the element that ended the doubling.
      rcases step with short | reached
      · omega
      · by_cases last : i = lo + reach
        · exact last ▸ reached
        · have := getD_ascending ascending (lo + reach) i (by omega) inside
          omega

theorem gallopLoop_eq (large : List Nat) (ascending : large.Pairwise (· < ·)) (small : List Nat)
    (order : small.Pairwise (· < ·)) (lo : Nat) (start : lo ≤ large.length)
    (below : ∀ val ∈ small, ∀ i, i < lo → large.getD i 0 < val) :
    gallopLoop large small lo = overlap small large := by
  induction small generalizing lo with
  | nil => rfl
  | cons val small ih =>
    obtain ⟨above, rest⟩ := pairwise_cons.mp order
    obtain ⟨bound, left, right⟩ := gallop_spec large ascending lo val start (below val (by simp))
    rw [gallopLoop]
    generalize gallop large lo val = cursor at bound left right
    by_cases hit : cursor < large.length ∧ large.getD cursor 0 = val
    · have member : val ∈ large := by
        rw [← hit.2, getD_eq_getElem _ _ hit.1]
        exact getElem_mem _
      rw [if_pos hit, overlap_cons_of_mem val small member, ih rest (cursor + 1) (by omega)]
      intro next later i before
      have greater := above next later
      by_cases last : i = cursor
      · rw [last, hit.2]
        exact greater
      · exact Nat.lt_trans (left i (by omega)) greater
    · have absent : val ∉ large := by
        intro member
        obtain ⟨j, inside, value⟩ := mem_iff_getElem.mp member
        have entry : large.getD j 0 = val := by
          rw [getD_eq_getElem _ _ inside, value]
        by_cases before : j < cursor
        · have := left j before
          omega
        · by_cases here : j = cursor
          · exact hit ⟨here ▸ inside, here ▸ entry⟩
          · have := right cursor (Nat.le_refl _) (by omega)
            have := getD_ascending ascending cursor j (by omega) inside
            omega
      rw [if_neg hit, overlap_cons_of_not_mem val small absent, ih rest cursor bound]
      intro next later i before
      exact Nat.lt_trans (left i before) (above next later)

theorem overlap_comm (a b : List Nat) (left : a.Nodup) (right : b.Nodup) : overlap a b = overlap b a := by
  have perm : (a.filter (· ∈ b)).Perm (b.filter (· ∈ a)) := by
    rw [perm_ext_iff_of_nodup (left.filter _) (right.filter _)]
    intro x
    simp [and_comm]
  exact perm.length_eq

theorem mergeIntersectionCount_overlap (left : a.Pairwise (· < ·)) (right : b.Pairwise (· < ·)) :
    mergeIntersectionCount a b = overlap a b :=
  mergeLoop_eq _ a b left right (Nat.le_refl _)

/-- Whatever counts the smaller list against the larger one, the choice of the smaller one changes nothing. -/
theorem smaller_overlap {K : List Nat → List Nat → Nat}
    (counts : ∀ small large, small.Pairwise (· < ·) → large.Pairwise (· < ·) → K small large = overlap small large)
    (left : a.Pairwise (· < ·)) (right : b.Pairwise (· < ·)) :
    (if a.isEmpty ∨ b.isEmpty then 0
      else K (if a.length ≤ b.length then (a, b) else (b, a)).1 (if a.length ≤ b.length then (a, b) else (b, a)).2) =
      overlap a b := by
  by_cases empty : a.isEmpty ∨ b.isEmpty
  · rw [if_pos empty]
    rcases empty with none | none
    · rw [isEmpty_iff.mp none]
      rfl
    · rw [isEmpty_iff.mp none]
      simp [overlap]
  rw [if_neg empty]
  by_cases shorter : a.length ≤ b.length
  · rw [if_pos shorter]
    exact counts a b left right
  · rw [if_neg shorter, overlap_comm a b left.nodup right.nodup]
    exact counts b a right left

theorem gallopingIntersectionCount_overlap (left : a.Pairwise (· < ·)) (right : b.Pairwise (· < ·)) :
    gallopingIntersectionCount a b = overlap a b :=
  gallopLoop_eq b right a left 0 (Nat.zero_le _) (by intro _ _ i before; omega)

theorem sparseIntersectionCount_overlap (a b : List Nat) (left : a.Pairwise (· < ·))
    (right : b.Pairwise (· < ·)) : sparseIntersectionCount a b = overlap a b := by
  refine smaller_overlap (K := fun small large => if small.length * 8 < large.length then
    gallopingIntersectionCount small large else mergeIntersectionCount small large) ?_ left right
  intro small large left right
  split
  · exact gallopingIntersectionCount_overlap left right
  · exact mergeIntersectionCount_overlap left right

section Blocks

variable {a b : List Nat}

theorem overlap_append_left (a a' b : List Nat) : overlap (a ++ a') b = overlap a b + overlap a' b := by
  simp [overlap]

theorem overlap_append_right (apart : ∀ x ∈ b, x ∉ b') (a : List Nat) :
    overlap a (b ++ b') = overlap a b + overlap a b' := by
  induction a with
  | nil => rfl
  | cons x a ih =>
    by_cases front : x ∈ b
    · rw [overlap_cons_of_mem x a (mem_append_left _ front), overlap_cons_of_mem x a front,
        overlap_cons_of_not_mem x a (apart x front), ih]
      omega
    · by_cases back : x ∈ b'
      · rw [overlap_cons_of_mem x a (mem_append_right _ back), overlap_cons_of_not_mem x a front,
          overlap_cons_of_mem x a back, ih]
        omega
      · rw [overlap_cons_of_not_mem x a (by simp [front, back]), overlap_cons_of_not_mem x a front,
          overlap_cons_of_not_mem x a back, ih]

theorem overlap_eq_zero (apart : ∀ x ∈ a, x ∉ b) : overlap a b = 0 := by
  rw [overlap, length_eq_zero_iff, filter_eq_nil_iff]
  simpa using apart

theorem mem_take_bounds (ascending : a.Pairwise (· < ·)) (long : 8 ≤ a.length) (member : x ∈ a.take 8) :
    a.getD 0 0 ≤ x ∧ x ≤ a.getD 7 0 := by
  obtain ⟨i, inside, rfl⟩ := mem_iff_getElem.mp member
  rw [length_take] at inside
  rw [getElem_take, ← getD_eq_getElem a 0 (by omega)]
  refine ⟨?_, ?_⟩
  · rcases Nat.eq_zero_or_pos i with rfl | later
    · exact Nat.le_refl _
    · exact Nat.le_of_lt (getD_ascending ascending 0 i later (by omega))
  · by_cases last : i = 7
    · rw [last]
    · exact Nat.le_of_lt (getD_ascending ascending i 7 (by omega) (by omega))

theorem lt_of_mem_drop (ascending : a.Pairwise (· < ·)) (member : x ∈ a.drop 8) : a.getD 7 0 < x := by
  obtain ⟨i, inside, rfl⟩ := mem_iff_getElem.mp member
  rw [length_drop] at inside
  rw [getElem_drop, ← getD_eq_getElem a 0 (by omega)]
  exact getD_ascending ascending 7 (8 + i) (by omega) (by omega)

theorem blockLoop_eq (fuel : Nat) (left : a.Pairwise (· < ·)) (right : b.Pairwise (· < ·)) :
    blockLoop fuel a b = overlap a b := by
  induction fuel generalizing a b with
  | zero => exact mergeIntersectionCount_overlap left right
  | succ fuel ih =>
    rw [blockLoop]
    by_cases long : 8 ≤ a.length ∧ 8 ≤ b.length
    case neg =>
      rw [if_neg long]
      exact mergeIntersectionCount_overlap left right
    rw [if_pos long]
    have lowA : ∀ x ∈ a.take 8, _ := fun x => mem_take_bounds left long.1
    have lowB : ∀ x ∈ b.take 8, _ := fun x => mem_take_bounds right long.2
    have highA : ∀ x ∈ a.drop 8, _ := fun x => lt_of_mem_drop left
    have highB : ∀ x ∈ b.drop 8, _ := fun x => lt_of_mem_drop right
    have apart : ∀ x ∈ b.take 8, x ∉ b.drop 8 := by
      intro x front back
      have := lowB x front
      have := highB x back
      omega
    -- Of the four pairs of a front and a rest, only those that can share an element are counted.
    have pairs : overlap a b = overlap (a.take 8) (b.take 8) + overlap (a.take 8) (b.drop 8) +
        (overlap (a.drop 8) (b.take 8) + overlap (a.drop 8) (b.drop 8)) := by
      rw [← overlap_append_right apart, ← overlap_append_right apart, ← overlap_append_left, take_append_drop,
        take_append_drop]
    have whole (list : List Nat) : overlap list b = overlap list (b.take 8) + overlap list (b.drop 8) := by
      rw [← overlap_append_right apart, take_append_drop]
    have front (none : a.getD 7 0 ≤ b.getD 7 0) : overlap (a.take 8) (b.drop 8) = 0 := by
      refine overlap_eq_zero fun x mine other => ?_
      have := lowA x mine
      have := highB x other
      omega
    have rest (none : b.getD 7 0 ≤ a.getD 7 0) : overlap (a.drop 8) (b.take 8) = 0 := by
      refine overlap_eq_zero fun x mine other => ?_
      have := highA x mine
      have := lowB x other
      omega
    have rightRest := right.sublist (drop_sublist 8 b)
    have leftRest := left.sublist (drop_sublist 8 a)
    have orderA := getD_ascending left 0 7 (by omega) (by omega)
    have orderB := getD_ascending right 0 7 (by omega) (by omega)
    have none (gap : a.getD 7 0 < b.getD 0 0 ∨ b.getD 7 0 < a.getD 0 0) : overlap (a.take 8) (b.take 8) = 0 := by
      refine overlap_eq_zero fun x mine other => ?_
      have := lowA x mine
      have := lowB x other
      omega
    by_cases below : a.getD 7 0 < b.getD 0 0
    · rw [if_pos below, ih leftRest right, pairs, none (.inl below), front (by omega), whole]
      omega
    rw [if_neg below]
    by_cases above : b.getD 7 0 < a.getD 0 0
    · rw [if_pos above, ih left rightRest, pairs, none (.inr above), rest (by omega),
        ← take_append_drop 8 a, overlap_append_left, take_append_drop]
      omega
    have lanes : ((a.take 8).filter fun x => (b.take 8).any (x == ·)).length = overlap (a.take 8) (b.take 8) := by
      simp [overlap, any_beq]
    rw [if_neg above, lanes, pairs]
    by_cases notLess : a.getD 7 0 ≤ b.getD 7 0
    · rw [if_pos notLess, front notLess]
      by_cases notGreater : b.getD 7 0 ≤ a.getD 7 0
      · rw [if_pos notGreater, ih leftRest rightRest, rest notGreater]
        omega
      · rw [if_neg notGreater, ih leftRest right, whole]
        omega
    · rw [if_neg notLess, if_pos (by omega), ih left rightRest, rest (by omega),
        show overlap a (b.drop 8) = overlap (a.take 8) (b.drop 8) + overlap (a.drop 8) (b.drop 8) by
          rw [← overlap_append_left, take_append_drop]]
      omega

theorem sparseIntersectionCountX86_overlap (avx2 : Bool) (left : a.Pairwise (· < ·)) (right : b.Pairwise (· < ·)) :
    sparseIntersectionCountX86 avx2 a b = overlap a b := by
  refine smaller_overlap (K := fun small large => if small.length * 8 < large.length then
    gallopingIntersectionCount small large
    else (simdIntersectionCount avx2 small large).getD (mergeIntersectionCount small large)) ?_ left right
  intro small large left right
  rw [simdIntersectionCount, mergeIntersectionCount_overlap left right, blockLoop_eq _ left right]
  split
  · exact gallopingIntersectionCount_overlap left right
  · split <;> rfl

end Blocks

theorem overlap_eq_card (left : a.Nodup) : overlap a b = (a.toFinset ∩ b.toFinset).card := by
  rw [overlap, ← toFinset_card_of_nodup (left.filter _)]
  congr 1
  ext x
  simp

/-- With or without the block kernel, the count is the size of the intersection. -/
theorem sparseIntersectionCount_card (left : a.Pairwise (· < ·)) (right : b.Pairwise (· < ·)) :
    sparseIntersectionCount a b = (a.toFinset ∩ b.toFinset).card ∧
      ∀ avx2, sparseIntersectionCountX86 avx2 a b = (a.toFinset ∩ b.toFinset).card := by
  rw [← overlap_eq_card left.nodup]
  exact ⟨sparseIntersectionCount_overlap a b left right, fun avx2 => sparseIntersectionCountX86_overlap avx2 left right⟩

theorem sparseIntersectionCount_card_three :
    sparseIntersectionCount [1, 3, 5] [3, 5, 7] = ([1, 3, 5].toFinset ∩ [3, 5, 7].toFinset).card ∧
      ∀ avx2, sparseIntersectionCountX86 avx2 [1, 3, 5] [3, 5, 7] = ([1, 3, 5].toFinset ∩ [3, 5, 7].toFinset).card :=
  sparseIntersectionCount_card (by decide) (by decide)

end Warm.Intersection
