import Warm.TopK

/-! The first elements of a list without repetitions in a linear order: which elements they are by
the number of elements before them, and when a part of the list has the same first elements. -/
namespace Warm.Ranking

open List

variable {β : Type*} [LinearOrder β]

/-- How many elements of the list come before `x`. -/
def rank (xs : List β) (x : β) : Nat := (xs.filter (· < x)).length

/-- The first `k` elements in order. -/
def first (k : Nat) (xs : List β) : List β := (xs.insertionSort (· ≤ ·)).take k

theorem rank_perm (perm : xs.Perm ys) (x : β) : rank xs x = rank ys x :=
  (perm.filter _).length_eq

theorem rank_mono (distinct : xs.Nodup) (part : ∀ x ∈ xs, x ∈ ys) (x : β) : rank xs x ≤ rank ys x := by
  refine (subperm_of_subset (distinct.filter _) ?_).length_le
  intro y member
  rw [mem_filter] at member ⊢
  exact ⟨part y member.1, member.2⟩

theorem rank_lt {x y : β} (member : x ∈ xs) (less : x < y) : rank xs x < rank xs y := by
  have sublist : (xs.filter (· < x)).Sublist (xs.filter (· < y)) :=
    monotone_filter_right xs fun z before => by
      simp only [decide_eq_true_eq] at before ⊢
      exact lt_trans before less
  refine lt_of_le_of_ne sublist.length_le fun same => ?_
  have equal := sublist.eq_of_length same
  have inside : x ∈ xs.filter (· < y) := mem_filter.mpr ⟨member, decide_eq_true less⟩
  rw [← equal] at inside
  exact lt_irrefl x (of_decide_eq_true (mem_filter.mp inside).2)

theorem rank_lt_length {x : β} (member : x ∈ xs) : rank xs x < xs.length :=
  length_filter_lt_length_iff_exists.mpr ⟨x, member, by simp⟩

theorem rank_filter {keep : β → Bool} {x : β} (kept : ∀ y ∈ xs, y < x → keep y = true) :
    rank (xs.filter keep) x = rank xs x := by
  rw [rank, filter_filter]
  congr 1
  apply filter_congr
  intro y member
  by_cases before : y < x
  · simp [before, kept y member before]
  · simp [before]

theorem sort_ascending {xs : List β} (distinct : xs.Nodup) : (xs.insertionSort (· ≤ ·)).Pairwise (· < ·) := by
  have sorted := pairwise_insertionSort (· ≤ ·) xs
  have different : (xs.insertionSort (· ≤ ·)).Nodup := (perm_insertionSort (· ≤ ·) xs).nodup_iff.mpr distinct
  exact (sorted.and different).imp fun pair => lt_of_le_of_ne pair.1 pair.2

theorem rank_getElem {l : List β} (ascending : l.Pairwise (· < ·)) (i : Nat) (inside : i < l.length) :
    rank l l[i] = i := by
  have split : l.filter (· < l[i]) = l.take i := by
    have before : (l.take i).filter (· < l[i]) = l.take i := by
      refine filter_eq_self.mpr fun y member => ?_
      obtain ⟨j, bound, rfl⟩ := mem_take_iff_getElem.mp member
      exact decide_eq_true (pairwise_iff_getElem.mp ascending j i _ _ (by omega))
    have behind : (l.drop i).filter (· < l[i]) = [] := by
      refine filter_eq_nil_iff.mpr fun y member less => ?_
      obtain ⟨j, bound, rfl⟩ := mem_drop_iff_getElem.mp member
      rw [decide_eq_true_eq] at less
      rcases Nat.eq_zero_or_pos j with rfl | later
      · exact lt_irrefl _ less
      · exact lt_asymm less (pairwise_iff_getElem.mp ascending i (i + j) _ _ (by omega))
    have parts := filter_append (p := (· < l[i])) (l.take i) (l.drop i)
    rw [take_append_drop] at parts
    rw [parts, before, behind, append_nil]
  rw [rank, split, length_take]
  omega

section

variable {xs : List β} (distinct : xs.Nodup) (k : Nat)
include distinct k

theorem mem_first (x : β) :
    x ∈ first k xs ↔ x ∈ xs ∧ rank xs x < k := by
  have ascending := sort_ascending distinct
  have perm := perm_insertionSort (· ≤ ·) xs
  rw [first, ← rank_perm perm, ← perm.mem_iff]
  generalize xs.insertionSort (· ≤ ·) = l at ascending
  rw [mem_take_iff_getElem]
  constructor
  · rintro ⟨i, bound, rfl⟩
    have inside : i < l.length := by omega
    rw [rank_getElem ascending i inside]
    exact ⟨getElem_mem inside, by omega⟩
  · rintro ⟨member, before⟩
    obtain ⟨i, inside, rfl⟩ := getElem_of_mem member
    rw [rank_getElem ascending i inside] at before
    exact ⟨i, by omega, rfl⟩

theorem first_ascending : (first k xs).Pairwise (· < ·) :=
  (sort_ascending distinct).sublist (take_sublist _ _)

theorem first_nodup : (first k xs).Nodup :=
  (first_ascending distinct k).imp ne_of_lt

end

theorem first_eq_iff {xs ys : List β} (distinct : xs.Nodup) (distinct' : ys.Nodup) (part : ∀ x ∈ xs, x ∈ ys) (k : Nat) :
    first k xs = first k ys ↔ ∀ y ∈ ys, rank ys y < k → y ∈ xs := by
  constructor
  · intro same y member before
    have listed : y ∈ first k ys := (mem_first distinct' k y).mpr ⟨member, before⟩
    rw [← same] at listed
    exact ((mem_first distinct k y).mp listed).1
  intro held
  have same (x : β) : x ∈ first k xs ↔ x ∈ first k ys := by
    rw [mem_first distinct, mem_first distinct']
    constructor
    · rintro ⟨member, before⟩
      refine ⟨part x member, ?_⟩
      by_contra late
      -- the first `k` of the whole are all in the part and all before `x`
      have listed : ∀ y ∈ first k ys, y ∈ xs.filter (· < x) := by
        intro y member'
        have place := (mem_first distinct' k y).mp member'
        refine mem_filter.mpr ⟨held y place.1 place.2, decide_eq_true ?_⟩
        rcases lt_trichotomy y x with less | rfl | more
        · exact less
        · exact absurd place.2 late
        · have := rank_lt (part x member) more
          have := place.2
          omega
      have many := (subperm_of_subset (first_nodup distinct' k) listed).length_le
      have whole : (first k ys).length = min k ys.length := by
        rw [first, length_take, length_insertionSort]
      have short : rank ys x ≤ ys.length := length_filter_le _ _
      have few : (xs.filter (· < x)).length < k := before
      omega
    · rintro ⟨member, before⟩
      exact ⟨held x member before, lt_of_le_of_lt (rank_mono distinct part x) before⟩
  refine List.Perm.eq_of_pairwise' (r := (· < ·)) (first_ascending distinct k) (first_ascending distinct' k) ?_
  exact (perm_ext_iff_of_nodup (first_nodup distinct k) (first_nodup distinct' k)).mpr same

end Warm.Ranking
