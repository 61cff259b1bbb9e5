import Warm.ShardQuery

/-! Several shards against one. Every shard answers with its own best `k`, by the route that its size
and the query choose, and a bounded heap merges the answers. The live vectors are the same wherever
they lie, so the merged list is the list of the single shard. No trained index is part of the model. -/
namespace Warm

open List

variable {dimensions dim : Nat} {orders : List (List (String × EntangledHVec dimensions))}
  {order : List (String × EntangledHVec dimensions)}

def BRUTE_FORCE_THRESHOLD : Nat := 1000
def SPARSE_INDEX_THRESHOLD : Nat := 4
def INVERTED_SPARSITY_DENOM : Nat := 32

inductive IndexRoute where
  | nsg
  | inverted
  | ivf
  | bruteForce

structure QueryPlanner where
  nsgAvailable : Bool
  invertedAvailable : Bool
  ivfAvailable : Bool
  vectorCount : Nat
  dimensions : Nat

/-- The route of the plan; its search widths are for the trained indexes alone. -/
def QueryPlanner.plan (planner : QueryPlanner) (query : EntangledHVec dim) : IndexRoute :=
  let s := query.indices.length
  if planner.vectorCount < BRUTE_FORCE_THRESHOLD then .bruteForce
  else if planner.invertedAvailable ∧
      (s ≤ SPARSE_INDEX_THRESHOLD ∨ s < planner.dimensions / INVERTED_SPARSITY_DENOM) then .inverted
  else if planner.nsgAvailable then .nsg
  else if planner.ivfAvailable then .ivf
  else .bruteForce

namespace Shard

/-- `query` of a shard without a trained index, which the two routes to one fall through. -/
def query (shard : Shard dimensions) (order : List (String × EntangledHVec dimensions))
    (query : EntangledHVec dim) (k : Nat) : List RetrievalResult :=
  match QueryPlanner.plan ⟨false, decide (0 < shard.vectorCount), false, shard.vectorCount, dimensions⟩ query with
  | .inverted => (shard.queryInverted order query k).1
  | .nsg | .ivf | .bruteForce => bruteForceScan order query k

theorem query_eq_scan (inv : Invariant shard) (probe : EntangledHVec dim) (k : Nat)
    (perm : order.Perm shard.vectors.toList) :
    shard.query order probe k = bruteForceScan order probe k := by
  unfold query
  split
  · exact queryInverted_eq_scan inv probe k order perm
  all_goals rfl

/-- What an operation does to the live vectors. -/
def Op.onVectors (vectors : Table String (EntangledHVec dimensions)) : Op dimensions → Table String (EntangledHVec dimensions)
  | .insert id vector => vectors.insert id.text vector
  | .remove id => vectors.erase id
  | .rebuild | .query .. => vectors

theorem vectors_step (shard : Shard dimensions) (op : Op dimensions) :
    (shard.step op).vectors = op.onVectors shard.vectors := by
  cases op with
  | insert id vector => rfl
  | remove id =>
    simp only [step, remove, Op.onVectors]
    split
    next absent =>
      apply Std.ExtTreeMap.ext_getElem?
      intro other
      rw [Table.getElem?_erase]
      split
      next same => rw [same, absent]
      next => rfl
    next => split <;> rfl
  | rebuild => rfl
  | query dim probe k => rw [step, queryInverted_state]; rfl

end Shard

/-- Two shards or more. -/
structure ShardManager (dimensions : Nat) where
  shards : List (Shard dimensions)
  enough : 2 ≤ shards.length

namespace ShardManager

open Shard (Op Invariant scored)

variable {hash : String → Nat} {manager : ShardManager dimensions}

def new (shardCount dimensions : Nat) (enough : 2 ≤ shardCount) : ShardManager dimensions :=
  ⟨replicate shardCount (Shard.new dimensions), by rwa [length_replicate]⟩

/-- The shard of an id, by any hash. -/
def shardFor (hash : String → Nat) (manager : ShardManager dimensions) (id : String) : Nat :=
  hash id % manager.shards.length

/-- Inserts and removals go to the shard of their id, rebuilds and queries to every shard. -/
def step (hash : String → Nat) (manager : ShardManager dimensions) (op : Op dimensions) : ShardManager dimensions where
  shards := match op with
    | .insert id _ => manager.shards.modify (manager.shardFor hash id.text) (·.step op)
    | .remove id => manager.shards.modify (manager.shardFor hash id) (·.step op)
    | .rebuild | .query .. => manager.shards.map (·.step op)
  enough := by split <;> simpa using manager.enough

def run (hash : String → Nat) (manager : ShardManager dimensions) (ops : List (Op dimensions)) :
    ShardManager dimensions := ops.foldl (step hash) manager

/-- Push a result; past `k` the greatest goes. -/
def merge (k : Nat) (heap : List RetrievalResult) (r : RetrievalResult) : List RetrievalResult :=
  let heap := TopK.push RetrievalResult.rank r heap
  if k < heap.length then heap.dropLast else heap

/-- `query`, with the order in which the vectors of each shard are read. -/
def query (manager : ShardManager dimensions) (orders : List (List (String × EntangledHVec dimensions)))
    (query : EntangledHVec dim) (k : Nat) : List RetrievalResult :=
  (zipWith (fun shard order => shard.query order query k) manager.shards orders).flatten.foldl (merge k) []

/-- The shards are sound and share the vectors of the single shard out by the hash of their ids. -/
structure Split (hash : String → Nat) (manager : ShardManager dimensions)
    (vectors : Table String (EntangledHVec dimensions)) : Prop where
  sound : ∀ shard ∈ manager.shards, Invariant shard
  placed : ∀ (i : Nat) shard, manager.shards[i]? = some shard → ∀ id : String,
    shard.vectors[id]? = if manager.shardFor hash id = i then vectors[id]? else none

theorem Split.modify (split : Split hash manager vectors) (id : String) {op : Op dimensions}
    (routed : (manager.step hash op).shards = manager.shards.modify (manager.shardFor hash id) (·.step op))
    (apart : ∀ held, ∀ a : String, a ≠ id → (op.onVectors held)[a]? = held[a]?)
    (own : ∀ held held', (op.onVectors held)[id]? = (op.onVectors held')[id]?) :
    Split hash (manager.step hash op) (op.onVectors vectors) where
  sound := by
    intro shard member
    obtain ⟨i, at_i⟩ := mem_iff_getElem?.mp member
    rw [routed, getElem?_modify] at at_i
    obtain ⟨old, at_old, rfl⟩ := Option.map_eq_some_iff.mp at_i
    have sound := split.sound old (mem_of_getElem? at_old)
    split
    · exact Shard.step_invariant sound op
    · exact sound
  placed := by
    intro i shard at_i a
    have same : (manager.step hash op).shardFor hash a = manager.shardFor hash a := by
      rw [shardFor, routed, length_modify, shardFor]
    rw [routed, getElem?_modify] at at_i
    obtain ⟨old, at_old, rfl⟩ := Option.map_eq_some_iff.mp at_i
    have placed := split.placed i old at_old a
    rw [same]
    by_cases named : a = id
    · subst named
      split
      next => rw [Shard.vectors_step, own old.vectors vectors]
      next elsewhere => rw [placed, if_neg elsewhere]
    · rw [apart vectors a named, ← placed]
      split
      · rw [Shard.vectors_step, apart old.vectors a named]
      · rfl

theorem Split.every (split : Split hash manager vectors) {op : Op dimensions}
    (routed : (manager.step hash op).shards = manager.shards.map (·.step op))
    (same : ∀ held : Table String (EntangledHVec dimensions), op.onVectors held = held) :
    Split hash (manager.step hash op) vectors where
  sound := by
    intro shard member
    rw [routed] at member
    obtain ⟨old, held, rfl⟩ := mem_map.mp member
    exact Shard.step_invariant (split.sound old held) op
  placed := by
    intro i shard at_i a
    rw [shardFor, routed, length_map]
    rw [routed, getElem?_map] at at_i
    obtain ⟨old, at_old, rfl⟩ := Option.map_eq_some_iff.mp at_i
    rw [Shard.vectors_step, same]
    exact split.placed i old at_old a

theorem Split.step (split : Split hash manager vectors) (op : Op dimensions) :
    Split hash (manager.step hash op) (op.onVectors vectors) := by
  cases op with
  | insert id vector | remove id =>
    refine split.modify _ rfl (fun held a named => ?_) fun held held' => ?_
    · simp [Op.onVectors, Table.getElem?_insert, Table.getElem?_erase, named]
    · simp [Op.onVectors, Table.getElem?_insert, Table.getElem?_erase]
  | rebuild => exact split.every rfl fun _ => rfl
  | query dim probe k => exact split.every rfl fun _ => rfl

theorem Split.run {single : Shard dimensions} (split : Split hash manager single.vectors) (ops : List (Op dimensions)) :
    Split hash (manager.run hash ops) (single.run ops).vectors := by
  induction ops generalizing manager single with
  | nil => exact split
  | cons op ops ih => exact ih (Shard.vectors_step single op ▸ split.step op)

theorem Split.new (shardCount : Nat) (enough : 2 ≤ shardCount) :
    Split hash (new shardCount dimensions enough) (Shard.new dimensions).vectors where
  sound := by
    intro shard member
    rw [eq_of_mem_replicate member]
    exact Shard.new_invariant dimensions
  placed := by
    intro i shard at_i a
    rw [eq_of_mem_replicate (mem_of_getElem? at_i)]
    simp [Shard.new]

/-- The shards hold the vectors of the single one, each once. -/
theorem Split.perm (split : Split hash manager vectors) :
    (manager.shards.map (·.vectors.toList)).flatten.Perm vectors.toList := by
  have once (table : Table String (EntangledHVec dimensions)) : table.toList.Nodup :=
    List.Nodup.of_map Prod.fst (Table.toList_keys_nodup table)
  rw [perm_ext_iff_of_nodup]
  · rintro ⟨id, vector⟩
    rw [Table.mem_toList, mem_flatten]
    constructor
    · rintro ⟨part, listed, member⟩
      obtain ⟨shard, held, rfl⟩ := mem_map.mp listed
      obtain ⟨i, at_i⟩ := mem_iff_getElem?.mp held
      rw [Table.mem_toList, split.placed i shard at_i] at member
      split at member
      · exact member
      · contradiction
    · intro stored
      have inside : manager.shardFor hash id < manager.shards.length :=
        Nat.mod_lt _ (Nat.lt_of_lt_of_le Nat.zero_lt_two manager.enough)
      have at_i := getElem?_eq_getElem inside
      refine ⟨_, mem_map_of_mem (mem_of_getElem? at_i), ?_⟩
      rw [Table.mem_toList, split.placed _ _ at_i, if_pos rfl, stored]
  · rw [nodup_flatten]
    refine ⟨forall_mem_map.mpr fun shard _ => once shard.vectors, pairwise_iff_getElem.mpr ?_⟩
    intro i j first second less
    rw [getElem_map, getElem_map]
    rintro ⟨id, vector⟩ here there
    rw [length_map] at first second
    rw [Table.mem_toList, split.placed _ _ (getElem?_eq_getElem first)] at here
    rw [Table.mem_toList, split.placed _ _ (getElem?_eq_getElem second)] at there
    split at here
    · split at there
      · omega
      · contradiction
    · contradiction
  · exact once vectors

theorem merge_rank {heap : List RetrievalResult} {seen : List (ℚᵒᵈ ×ₗ String)} (k : Nat) (r : RetrievalResult)
    (kept : heap.map RetrievalResult.rank = (seen.insertionSort (· ≤ ·)).take k) :
    (merge k heap r).map RetrievalResult.rank = ((r.rank :: seen).insertionSort (· ≤ ·)).take k := by
  have length : (TopK.push RetrievalResult.rank r heap).length = heap.length + 1 := orderedInsert_length ..
  have bound : heap.length ≤ k := by
    rw [← length_map, kept, length_take]
    exact Nat.min_le_left _ _
  have cut : merge k heap r = (TopK.push RetrievalResult.rank r heap).take k := by
    unfold merge
    dsimp only
    split
    · rw [dropLast_eq_take, length]
      congr 1
      omega
    · rw [take_of_length_le (by omega)]
  rw [cut, map_take, TopK.map_push, kept, insertionSort_cons]
  exact TopK.take_orderedInsert_take _ k _

theorem foldl_merge_rank (k : Nat) (results : List RetrievalResult) :
    (results.foldl (merge k) []).map RetrievalResult.rank =
      ((results.map RetrievalResult.rank).insertionSort (· ≤ ·)).take k := by
  induction results using List.reverseRecOn with
  | nil => simp
  | append_singleton results r ih =>
    rw [foldl_append, foldl_cons, foldl_nil, merge_rank k r ih, map_append,
      TopK.sort_perm (perm_append_singleton r.rank _).symm]
    rfl

/-- The first `k` live vectors in the order of the results. -/
def best (probe : EntangledHVec dim) (k : Nat) (order : List (String × EntangledHVec dimensions)) : List RetrievalResult :=
  ((order.map (scored probe)).insertionSort fun a b => a.rank ≤ b.rank).take k

theorem best_rank (probe : EntangledHVec dim) (k : Nat) (order : List (String × EntangledHVec dimensions)) :
    (best probe k order).map RetrievalResult.rank =
      (((order.map (scored probe)).map RetrievalResult.rank).insertionSort (· ≤ ·)).take k := by
  rw [best, map_take, map_insertionSort _ (· ≤ ·) RetrievalResult.rank _ fun _ _ _ _ => Iff.rfl]

theorem answers_eq {shards : List (Shard dimensions)} (sound : ∀ shard ∈ shards, Invariant shard)
    (probe : EntangledHVec dim) (k : Nat)
    (perms : Forall₂ (fun order shard => order.Perm shard.vectors.toList) orders shards) :
    zipWith (fun shard order => shard.query order probe k) shards orders = orders.map (Shard.bruteForceScan · probe k) := by
  induction perms with
  | nil => rfl
  | cons own _ ih =>
    rw [zipWith_cons_cons, map_cons, Shard.query_eq_scan (sound _ mem_cons_self) probe k own,
      ih (forall_mem_cons.mp sound).2]

theorem query_eq_best (split : Split hash manager vectors) (probe : EntangledHVec dim) (k : Nat)
   
    (perms : Forall₂ (fun order shard => order.Perm shard.vectors.toList) orders manager.shards)
    (perm : order.Perm vectors.toList) :
    manager.query orders probe k = best probe k order := by
  have union : orders.flatten.Perm order :=
    (Perm.flatten_congr (forall₂_map_right_iff.mpr perms)).trans (split.perm.trans perm.symm)
  apply RetrievalResult.rank_injective.list_map
  rw [query, answers_eq split.sound probe k perms, foldl_merge_rank, best_rank, map_flatten, map_map]
  have cut : orders.map (map RetrievalResult.rank ∘ (Shard.bruteForceScan · probe k)) =
      (orders.map fun order => (order.map (scored probe)).map RetrievalResult.rank).map
        fun part => (part.insertionSort (· ≤ ·)).take k := by
    rw [map_map]
    exact map_congr_left fun order _ => Shard.bruteForceScan_rank order probe k
  have whole := TopK.take_sort_flatten k [] (orders.map fun order => (order.map (scored probe)).map RetrievalResult.rank)
  rw [nil_append, nil_append] at whole
  rw [cut, whole]
  have live := (union.map (scored probe)).map RetrievalResult.rank
  rw [map_flatten, map_flatten, map_map] at live
  exact congrArg (take k) (TopK.sort_perm live)

/-- After any history the shards, whatever the hash that places the ids, answer a query as the single
shard does: with the first `k` live ids in the order of the results. -/
theorem query_sharded (hash : String → Nat) (shardCount : Nat) (enough : 2 ≤ shardCount) (ops : List (Op dimensions))
    (probe : EntangledHVec dim) (k : Nat)
    (perms : Forall₂ (fun order shard => order.Perm shard.vectors.toList) orders
      ((new shardCount dimensions enough).run hash ops).shards)
   
    (perm : order.Perm ((Shard.new dimensions).run ops).vectors.toList) :
    ((new shardCount dimensions enough).run hash ops).query orders probe k =
        ((Shard.new dimensions).run ops).query order probe k ∧
      ((Shard.new dimensions).run ops).query order probe k = best probe k order := by
  have single : ((Shard.new dimensions).run ops).query order probe k = best probe k order := by
    rw [Shard.query_eq_scan (Shard.run_invariant ops (Shard.new_invariant dimensions)) probe k perm]
    apply RetrievalResult.rank_injective.list_map
    rw [Shard.bruteForceScan_rank, best_rank]
  exact ⟨(query_eq_best (.run (.new shardCount enough) ops) probe k perms perm).trans single.symm, single⟩

/-- Two ids of one similarity and one without overlap in two shards, and a replaced vector. -/
theorem query_sharded_two :
    let hash (id : String) := id.length
    let ops : List (Op 8) := [.insert ⟨"b", by decide⟩ ⟨[1, 3], by decide, by decide⟩,
      .insert ⟨"aa", by decide⟩ ⟨[5], by decide, by decide⟩, .insert ⟨"c", by decide⟩ ⟨[7], by decide, by decide⟩,
      .insert ⟨"aa", by decide⟩ ⟨[2, 3], by decide, by decide⟩, .remove "d"]
    let many := (new 2 8 (by decide)).run hash ops
    let single := (Shard.new 8).run ops
    let probe : EntangledHVec 8 := ⟨[3], by decide, by decide⟩
    many.query (many.shards.map (·.vectors.toList)) probe 1 = single.query single.vectors.toList probe 1 ∧
      single.query single.vectors.toList probe 1 = best probe 1 single.vectors.toList :=
  query_sharded _ 2 _ _ _ 1 (forall₂_map_left_iff.mpr (forall₂_same.mpr fun _ _ => .refl _)) (.refl _)

end ShardManager

end Warm
