import Mathlib.Data.List.Nodup
import Mathlib.Data.List.Perm.Basic
import Mathlib.Data.String.Basic
import Mathlib.Tactic.Linarith

/-! Finite maps over an ordered key type: lookups after updates by equality of keys, and the
entries as a list without repetitions. -/
namespace Warm

open List

/-- A finite map that is determined by its lookups. -/
abbrev Table (κ α : Type) [Ord κ] := Std.ExtTreeMap κ α

theorem find?_key_eq_some [DecidableEq κ] {key : α → κ} {items : List α} (distinct : (items.map key).Nodup) (a : κ)
    (item : α) : (items.find? fun other => key other = a) = some item ↔ item ∈ items ∧ key item = a := by
  constructor
  · intro found
    have own := find?_some found
    exact ⟨mem_of_find?_eq_some found, of_decide_eq_true own⟩
  · rintro ⟨member, rfl⟩
    cases found : items.find? fun other => key other = key item with
    | none =>
      have absent := find?_eq_none.mp found item member
      simp at absent
    | some other =>
      have own := find?_some found
      rw [inj_on_of_nodup_map distinct (mem_of_find?_eq_some found) member (of_decide_eq_true own)]

namespace Table

variable {κ α : Type} [Ord κ] [Std.TransOrd κ] [Std.LawfulEqOrd κ]

theorem getElem?_insert [DecidableEq κ] (table : Table κ α) (k a : κ) (v : α) :
    (table.insert k v)[a]? = if a = k then some v else table[a]? := by
  rw [Std.ExtTreeMap.getElem?_insert]
  by_cases same : a = k
  · simp [same]
  · have apart : compare k a ≠ .eq := fun equal => same (Std.LawfulEqOrd.eq_of_compare equal).symm
    simp [same, apart]

theorem getElem?_erase [DecidableEq κ] (table : Table κ α) (k a : κ) :
    (table.erase k)[a]? = if a = k then none else table[a]? := by
  rw [Std.ExtTreeMap.getElem?_erase]
  by_cases same : a = k
  · simp [same]
  · have apart : compare k a ≠ .eq := fun equal => same (Std.LawfulEqOrd.eq_of_compare equal).symm
    simp [same, apart]

theorem read_foldl [DecidableEq κ] {σ : Type} {step : σ → ι → σ} {key : ι → κ} {value : ι → α}
    {items : List ι} (read : σ → κ → Option α) (holds : σ → Prop) (kept : ∀ state item, holds state → holds (step state item))
    (written : ∀ state item, holds state → ∀ a,
      read (step state item) a = if a = key item then some (value item) else read state a)
    (distinct : (items.map key).Nodup) (state : σ) (start : holds state) (a : κ) :
    read (items.foldl step state) a = ((items.find? fun item => key item = a).map value).or (read state a) := by
  induction items generalizing state with
  | nil => rfl
  | cons item items ih =>
    rw [map_cons, nodup_cons] at distinct
    rw [foldl_cons, ih distinct.2 _ (kept state item start), written state item start, find?_cons]
    by_cases own : key item = a
    · subst own
      have absent : (items.find? fun other => decide (key other = key item)) = none :=
        find?_eq_none.mpr fun other member same =>
          distinct.1 (mem_map.mpr ⟨other, member, of_decide_eq_true same⟩)
      simp [absent]
    · simp [own, Ne.symm own]

theorem getElem?_foldl_insert [DecidableEq κ] (key : ι → κ) (value : ι → α) {items : List ι}
    (distinct : (items.map key).Nodup) (table : Table κ α) (a : κ) :
    (items.foldl (fun table item => table.insert (key item) (value item)) table)[a]? =
      ((items.find? fun item => key item = a).map value).or table[a]? :=
  read_foldl (·[·]?) (fun _ => True) (fun _ _ _ => trivial)
    (fun table item _ a => getElem?_insert table (key item) a (value item)) distinct table trivial a

theorem mem_toList (table : Table κ α) (k : κ) (v : α) : (k, v) ∈ table.toList ↔ table[k]? = some v :=
  Std.ExtTreeMap.mem_toList_iff_getElem?_eq_some

theorem toList_keys_nodup (table : Table κ α) : (table.toList.map Prod.fst).Nodup := by
  rw [List.Nodup, pairwise_map]
  apply Std.ExtTreeMap.distinct_keys_toList.imp
  intro a b apart same
  exact apart (same ▸ Std.ReflCmp.compare_self)

end Table

end Warm
