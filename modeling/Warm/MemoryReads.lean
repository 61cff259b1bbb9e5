import Mathlib.Algebra.Order.BigOperators.Group.Finset
import Mathlib.Data.List.Sort
import Mathlib.Data.Prod.Lex
import Warm.MemorySettle

/-! What reads of an index find depends only on the documents it mirrors: the searches over its links find what is
reachable, and what comes back as a list comes back in order. -/
namespace Warm.Memory

open Interleaving List
open Reachability (Arrow mem_explore_iff)

variable {index : Index}

theorem mergeSort_congr {upTo : α → α → Bool} (trans : ∀ a b c, upTo a b = true → upTo b c = true → upTo a c = true)
    (total : ∀ a b, (upTo a b || upTo b a) = true) (antisymm : ∀ a b, upTo a b = true → upTo b a = true → a = b)
    {a b : List α} (perm : a.Perm b) : a.mergeSort upTo = b.mergeSort upTo := by
  apply List.Perm.eq_of_pairwise (fun x y _ _ first second => antisymm x y first second)
  · exact pairwise_mergeSort trans total a
  · exact pairwise_mergeSort trans total b
  · exact (mergeSort_perm a upTo).trans (perm.trans (mergeSort_perm b upTo).symm)

theorem orderedIds_congr {a b : List String} (same : ∀ id, id ∈ a ↔ id ∈ b) : orderedIds a = orderedIds b := by
  unfold orderedIds
  apply mergeSort_congr
  · intro x y z first second
    exact decide_eq_true (le_trans (of_decide_eq_true first) (of_decide_eq_true second))
  · intro x y
    simpa using le_total x y
  · intro x y first second
    exact le_antisymm (of_decide_eq_true first) (of_decide_eq_true second)
  · rw [perm_ext_iff_of_nodup (nodup_dedup a) (nodup_dedup b)]
    intro id
    rw [List.mem_dedup, List.mem_dedup, same]

namespace Index

section Order

/-- Effect, ingest, id, compared in this order. -/
def Member.key (member : Member) : Int ×ₗ Int ×ₗ String :=
  toLex (member.effective, toLex (member.ingest, member.id))

theorem Member.upTo_iff (a b : Member) : upTo a b = true ↔ key a ≤ key b := by
  simp [upTo, key, Prod.Lex.le_iff]

theorem Member.key_injective (same : key a = key b) : a = b := by
  obtain ⟨id, effective, ingest⟩ := a
  obtain ⟨id', effective', ingest'⟩ := b
  simp only [key, EmbeddingLike.apply_eq_iff_eq, Prod.mk.injEq] at same
  obtain ⟨rfl, rfl, rfl⟩ := same
  rfl

theorem members_congr {a b : Index} (perm : (a.group subject).Perm (b.group subject)) :
    a.members subject = b.members subject := by
  unfold members
  apply mergeSort_congr ?_ ?_ ?_ perm
  · intro x y z first second
    rw [Member.upTo_iff] at *
    exact le_trans first second
  · intro x y
    rw [Bool.or_eq_true, Member.upTo_iff, Member.upTo_iff]
    exact le_total _ _
  · intro x y first second
    rw [Member.upTo_iff] at first second
    exact Member.key_injective (le_antisymm first second)

end Order

section Tidy

/-- No subject group lists a member twice. -/
def Tidy (index : Index) : Prop :=
  ∀ subject, (index.group subject).Nodup

theorem tidy_empty : empty.Tidy := by
  intro subject
  simp [empty, group]

theorem Tidy.congr {a b : Index} (tidy : a.Tidy) (same : ∀ subject, b.group subject = a.group subject) : b.Tidy := by
  intro subject
  rw [same]
  exact tidy subject

theorem Tidy.insert (tidy : index.Tidy) (id : String) (stamp : Stamp)
    (lookup : String → Option (Millis × Millis)) : (index.insert id stamp lookup).Tidy := by
  have base : (((index.countWindow stamp).addSuperseded id stamp).addHints id stamp lookup).Tidy := by
    refine tidy.congr fun subject => ((linked_sameEntries index id stamp lookup).group subject).trans ?_
    unfold countWindow
    split <;> rfl
  intro subject
  unfold Index.insert
  rw [addEntities_group]
  unfold addMember
  cases stamp.subject with
  | none => exact base subject
  | some mine =>
    simp only [group, Table.getElem?_insert]
    split
    · rw [Option.getD_some, ← concat_eq_append, nodup_concat]
      exact ⟨by simp, (base mine).filter _⟩
    · exact base subject

theorem Tidy.remove (tidy : index.Tidy) (id : String) (stamp : Stamp) : (index.remove id stamp).Tidy := by
  have base : (((index.dropWindow stamp).dropSuperseded id).dropSuperseders id).Tidy := by
    refine tidy.congr fun subject => ?_
    simp only [dropSuperseders, dropSuperseded, dropWindow]
    split <;> rfl
  intro subject
  unfold Index.remove
  rw [dropEntities_group]
  unfold dropMember
  cases stamp.subject with
  | none => exact base subject
  | some mine =>
    simp only [group, getD_retain]
    split
    · exact (base mine).filter _
    · exact base subject

theorem Tidy.insertAll (tidy : index.Tidy) (lookup : String → String → Option (Millis × Millis))
    (entries : List (String × Stamp)) : (index.insertAll lookup entries).Tidy := by
  unfold Index.insertAll
  induction entries generalizing index with
  | nil => exact tidy
  | cons entry entries ih => exact ih (tidy.insert entry.1 entry.2 _)

theorem Tidy.removeAll (tidy : index.Tidy) (entries : List (String × Stamp)) :
    (index.removeAll entries).Tidy := by
  unfold Index.removeAll
  induction entries generalizing index with
  | nil => exact tidy
  | cons entry entries ih => exact ih (tidy.remove entry.1 entry.2)

theorem rebuild_tidy (documents : Documents) (revision : Nat) : (rebuild documents revision).Tidy :=
  (tidy_empty.insertAll (fun _ => known documents) (stamps documents)).congr fun _ => rfl

end Tidy

section Searches

variable (index : Index)

theorem mem_linkedIds_predecessor {id old : String} (member : old ∈ index.directPredecessors id) :
    old ∈ index.linkedIds := by
  unfold directPredecessors at member
  cases found : index.predecessors[id]? with
  | none => simp [found] at member
  | some olds =>
    rw [found, Option.getD_some] at member
    refine mem_append_left _ (mem_flatMap.mpr ⟨(id, olds), (Table.mem_toList _ id olds).mpr found, ?_⟩)
    exact mem_cons_of_mem id member

theorem mem_linkedIds_superseder {id : String} (member : edge ∈ index.edges id) : edge.by_ ∈ index.linkedIds := by
  unfold edges at member
  cases found : index.supersededBy[id]? with
  | none => simp [found] at member
  | some edges =>
    rw [found, Option.getD_some] at member
    refine mem_append_right _ (mem_flatMap.mpr ⟨(id, edges), (Table.mem_toList _ id edges).mpr found, ?_⟩)
    exact mem_cons_of_mem id (mem_map_of_mem member)

theorem card_linkedIds_lt : index.linkedIds.toFinset.card < index.linkedIds.length + 1 :=
  Nat.lt_succ_of_le (toFinset_card_le index.linkedIds)

theorem supersedesTransitively_iff (source target : String) :
    index.supersedesTransitively source target = true ↔ target ≠ source ∧
      Relation.ReflTransGen (Arrow index.directPredecessors) source target := by
  unfold supersedesTransitively walk
  rw [contains_iff_mem, mem_filter, bne_iff_ne, and_comm, mem_explore_iff _
    index.linkedIds.toFinset (fun _ _ member => mem_toFinset.mpr (index.mem_linkedIds_predecessor member)) _ _
    index.card_linkedIds_lt]

theorem mem_component_iff (id other : String) :
    other ∈ index.component id ↔ Relation.ReflTransGen (Arrow index.neighbours) id other := by
  unfold component
  apply mem_explore_iff _ index.linkedIds.toFinset ?_ _ _ index.card_linkedIds_lt
  intro a b member
  rw [mem_toFinset]
  rcases mem_append.mp member with old | by_
  · exact index.mem_linkedIds_predecessor old
  · obtain ⟨edge, inside, rfl⟩ := mem_map.mp by_
    exact index.mem_linkedIds_superseder inside

theorem sum_passOn_le (dead : String → Bool) (domain : Finset String) :
    ∑ id ∈ domain, (index.passOn dead id).length ≤ (index.predecessors.toList.map fun entry => entry.2.length).sum := by
  have keyed : ∀ id, (index.passOn dead id).length ≤ (index.directPredecessors id).length := by
    intro id
    unfold passOn
    split <;> simp
  calc ∑ id ∈ domain, (index.passOn dead id).length
      ≤ ∑ id ∈ domain, (index.directPredecessors id).length := Finset.sum_le_sum fun id _ => keyed id
    _ ≤ ∑ id ∈ (index.predecessors.toList.map Prod.fst).toFinset, (index.directPredecessors id).length := by
        apply Finset.sum_le_sum_of_ne_zero
        intro id _ some
        rw [mem_toFinset, mem_map]
        unfold directPredecessors at some
        cases found : index.predecessors[id]? with
        | none => simp [found] at some
        | some olds => exact ⟨(id, olds), (Table.mem_toList _ id olds).mpr found, rfl⟩
    _ = (index.predecessors.toList.map fun entry => entry.2.length).sum := by
        rw [sum_toFinset _ (Table.toList_keys_nodup index.predecessors), map_map]
        congr 1
        apply map_congr_left
        intro entry member
        have found := (Table.mem_toList index.predecessors entry.1 entry.2).mp member
        simp [directPredecessors, found]

theorem mem_bridge_iff (start : String) (dead : String → Bool) (id : String) :
    id ∈ index.bridge start dead ↔ dead id = false ∧
      ∃ first ∈ index.directPredecessors start, Relation.ReflTransGen (Arrow (index.passOn dead)) first id := by
  unfold bridge
  rw [mem_filter, Bool.not_eq_true', and_comm, Reachability.mem_drain_iff _ index.linkedIds.toFinset]
  · simp only [mem_reverse]
  · intro a b member
    rw [mem_toFinset]
    unfold passOn at member
    split at member
    · exact index.mem_linkedIds_predecessor member
    · exact absurd member not_mem_nil
  · intro x member
    exact mem_toFinset.mpr (index.mem_linkedIds_predecessor (mem_reverse.mp member))
  · rw [length_reverse]
    exact Nat.add_le_add_left (index.sum_passOn_le dead _) _

end Searches

end Index

section Answers

variable {documents : Documents} {a b : Index}

theorem arrow_congr (same : ∀ x y, y ∈ first x ↔ y ∈ second x) :
    Arrow first = Arrow second := by
  funext x y
  exact propext (same x y)

/-- Every read finds the same in two indexes that mirror the same documents. -/
theorem answer_congr (first : a.Mirrors documents) (second : b.Mirrors documents) (tidy : a.Tidy) (tidy' : b.Tidy)
    (query : Query) : answer documents a query = answer documents b query := by
  have same := first.same second
  have arrows : Arrow a.directPredecessors = Arrow b.directPredecessors :=
    arrow_congr same.predecessors
  cases query with
  | snapshot id => rfl
  | hasDocument id => rfl
  | scan keep => rfl
  | members subject =>
    exact Index.members_congr ((perm_ext_iff_of_nodup (tidy subject) (tidy' subject)).mpr (same.group subject))
  | superseded id =>
    have none : a.edges id = [] ↔ b.edges id = [] := by
      simp only [eq_nil_iff_forall_not_mem, same.edges]
    simp only [answer]
    rw [Bool.eq_iff_iff]
    simpa using not_congr none
  | supersedesTransitively source target =>
    simp only [answer]
    rw [Bool.eq_iff_iff, Index.supersedesTransitively_iff, Index.supersedesTransitively_iff, arrows]
  | subjectIds subject =>
    apply orderedIds_congr
    intro id
    rw [first.mem_subjectIds, second.mem_subjectIds]
  | entityIds entity =>
    apply orderedIds_congr
    intro id
    rw [first.mem_entityIds, second.mem_entityIds]
  | component id =>
    apply orderedIds_congr
    intro other
    have neighbours : Arrow a.neighbours = Arrow b.neighbours := by
      apply arrow_congr
      intro x y
      simp only [Index.neighbours, mem_append, mem_map, same.predecessors, same.edges]
    rw [Index.mem_component_iff, Index.mem_component_iff, neighbours]
  | superseders id =>
    apply orderedIds_congr
    intro other
    simp only [mem_map, same.edges]
  | bridge start dead =>
    apply orderedIds_congr
    intro other
    have passes : Arrow (a.passOn dead.contains) = Arrow (b.passOn dead.contains) := by
      apply arrow_congr
      intro x y
      unfold Index.passOn
      split
      · exact same.predecessors x y
      · rfl
    rw [Index.mem_bridge_iff, Index.mem_bridge_iff, passes]
    simp only [same.predecessors]

end Answers

end Warm.Memory
