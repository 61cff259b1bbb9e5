import Mathlib.Algebra.GroupWithZero.Nat
import Mathlib.Data.List.AList

/-! The sum of a weight over the entries of a finite map, and what the map's operations do to it. -/
namespace Warm.KeyedTotals

variable {κ β : Type} [DecidableEq κ]

def total (weight : β → Nat) (map : AList fun _ : κ => β) : Nat :=
  (map.entries.map fun entry => weight entry.2).sum

theorem total_erase (weight : β → Nat) {key : κ} {value : β} (present : map.lookup key = some value) :
    total weight (map.erase key) + weight value = total weight map := by
  have member : key ∈ map.entries.keys := AList.mem_keys.mp (AList.lookup_isSome.mp (by simp [present]))
  obtain ⟨found, front, back, _, entries, erased⟩ := List.exists_of_kerase member
  have same : found = value := by
    have listed : (⟨key, found⟩ : Sigma fun _ : κ => β) ∈ map.entries := by simp [entries]
    exact Option.some.inj ((AList.mem_lookup_iff.mpr listed).symm.trans present)
  subst same
  change ((List.kerase key map.entries).map _).sum + _ = (map.entries.map _).sum
  rw [erased, entries]
  simp only [List.map_append, List.map_cons, List.sum_append, List.sum_cons]
  omega

theorem erase_absent {map : AList fun _ : κ => β} (absent : map.lookup key = none) : map.erase key = map :=
  AList.ext (List.kerase_of_notMem_keys (AList.lookup_eq_none.mp absent))

theorem total_insert (weight : β → Nat) (map : AList fun _ : κ => β) (key : κ) (value : β) :
    total weight (map.insert key value) = weight value + total weight (map.erase key) :=
  rfl

theorem size_insert (map : AList fun _ : κ => β) (key : κ) (value : β) :
    (map.insert key value).entries.length = (map.erase key).entries.length + 1 :=
  rfl

theorem size_erase {map : AList fun _ : κ => β} {value : β} (present : map.lookup key = some value) :
    (map.erase key).entries.length + 1 = map.entries.length := by
  have counted := total_erase (fun _ => 1) present
  simpa [total] using counted

theorem size_erase_le (map : AList fun _ : κ => β) (key : κ) : (map.erase key).entries.length ≤ map.entries.length :=
  (List.kerase_sublist key map.entries).length_le

end Warm.KeyedTotals
