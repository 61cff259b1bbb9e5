import Mathlib.Data.UInt
import Mathlib.Order.Basic
import Mathlib.Data.List.Basic
import Mathlib.Data.List.Sort
import Mathlib.Tactic.Tauto

/-! Strictly ascending lists as finite sets: what decides that two are equal, the merge that takes
their symmetric difference, and sorting. -/
namespace Warm.Ascending

open List

variable [LinearOrder α] {a b : List α}

theorem ext (left : a.Pairwise (· < ·)) (right : b.Pairwise (· < ·)) (same : ∀ x, x ∈ a ↔ x ∈ b) :
    a = b :=
  left.eq_of_mem_iff right same

theorem sort_ascending {list : List α} (distinct : list.Nodup) :
    (list.mergeSort fun x y => decide (x ≤ y)).Pairwise (· < ·) := by
  have sorted := @pairwise_mergeSort α (fun x y => decide (x ≤ y))
    (fun x y z first second => by
      rw [decide_eq_true_iff] at *
      exact first.trans second)
    (fun x y => by simpa using le_total x y) list
  have apart : (list.mergeSort fun x y => decide (x ≤ y)).Nodup := (mergeSort_perm list _).nodup_iff.mpr distinct
  refine (sorted.and apart).imp fun {x y} both => ?_
  exact lt_of_le_of_ne (of_decide_eq_true both.1) both.2

/-- The loop over both lists, for as many rounds as they have elements. -/
def mergeLoop : Nat → List α → List α → List α
  | _, [], b => b
  | _, a, [] => a
  | 0, a, b => a ++ b
  | fuel + 1, x :: a, y :: b =>
    if x < y then x :: mergeLoop fuel a (y :: b)
    else if y < x then y :: mergeLoop fuel (x :: a) b
    else mergeLoop fuel a b

/-- `sorted_symmetric_difference`. -/
def symmetricDifference (a b : List α) : List α := mergeLoop (a.length + b.length) a b

theorem mergeLoop_spec (fuel : Nat) (left : a.Pairwise (· < ·)) (right : b.Pairwise (· < ·))
    (enough : a.length + b.length ≤ fuel) :
    (mergeLoop fuel a b).Pairwise (· < ·) ∧ ∀ x, x ∈ mergeLoop fuel a b ↔ ¬(x ∈ a ↔ x ∈ b) := by
  induction fuel generalizing a b with
  | zero =>
    obtain rfl : a = [] := eq_nil_of_length_eq_zero (by omega)
    obtain rfl : b = [] := eq_nil_of_length_eq_zero (by omega)
    simp [mergeLoop]
  | succ fuel ih =>
    rcases a with _ | ⟨x, a⟩
    · simpa [mergeLoop] using right
    rcases b with _ | ⟨y, b⟩
    · refine ⟨left, fun z => ?_⟩
      change z ∈ x :: a ↔ ¬(z ∈ x :: a ↔ z ∈ [])
      rw [iff_false_right not_mem_nil, not_not]
    obtain ⟨first, left'⟩ := pairwise_cons.mp left
    obtain ⟨second, right'⟩ := pairwise_cons.mp right
    rw [length_cons, length_cons] at enough
    rw [mergeLoop]
    split_ifs with less greater
    · -- `x` is below all of `b`, so only the first list has it
      obtain ⟨sorted, members⟩ := ih left' right (by rw [length_cons]; omega)
      have below : ∀ z ∈ y :: b, x < z := forall_mem_cons.mpr ⟨less, fun z member => less.trans (second z member)⟩
      refine ⟨pairwise_cons.mpr ⟨fun z member => ?_, sorted⟩, fun z => ?_⟩
      · by_cases inside : z ∈ a
        · exact first z inside
        · exact below z (by have := (members z).mp member; tauto)
      · have absent : x ∉ y :: b := fun member => lt_irrefl x (below x member)
        have apart : x ∉ a := fun member => lt_irrefl x (first x member)
        rw [mem_cons, members, mem_cons (l := a)]
        by_cases same : z = x
        · subst same
          tauto
        · tauto
    · obtain ⟨sorted, members⟩ := ih left right' (by rw [length_cons]; omega)
      have below : ∀ z ∈ x :: a, y < z :=
        forall_mem_cons.mpr ⟨greater, fun z member => greater.trans (first z member)⟩
      refine ⟨pairwise_cons.mpr ⟨fun z member => ?_, sorted⟩, fun z => ?_⟩
      · by_cases inside : z ∈ b
        · exact second z inside
        · exact below z (by have := (members z).mp member; tauto)
      · have absent : y ∉ x :: a := fun member => lt_irrefl y (below y member)
        have apart : y ∉ b := fun member => lt_irrefl y (second y member)
        rw [mem_cons, members, mem_cons (l := b)]
        by_cases same : z = y
        · subst same
          tauto
        · tauto
    · obtain rfl : x = y := le_antisymm (not_lt.mp greater) (not_lt.mp less)
      obtain ⟨sorted, members⟩ := ih left' right' (by omega)
      have apart : x ∉ a := fun member => lt_irrefl x (first x member)
      have apart' : x ∉ b := fun member => lt_irrefl x (second x member)
      refine ⟨sorted, fun z => ?_⟩
      rw [members, mem_cons, mem_cons]
      by_cases same : z = x
      · subst same
        tauto
      · tauto

theorem symmetricDifference_ascending (left : a.Pairwise (· < ·)) (right : b.Pairwise (· < ·)) :
    (symmetricDifference a b).Pairwise (· < ·) :=
  (mergeLoop_spec _ left right le_rfl).1

theorem mem_symmetricDifference (left : a.Pairwise (· < ·)) (right : b.Pairwise (· < ·)) (x : α) :
    x ∈ symmetricDifference a b ↔ ¬(x ∈ a ↔ x ∈ b) :=
  (mergeLoop_spec _ left right le_rfl).2 x

end Warm.Ascending
