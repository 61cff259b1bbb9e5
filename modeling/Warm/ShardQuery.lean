import Warm.ShardIndex

/-! The inverted route returns what the exact scan returns. Every slot it touches shares a
dimension with the query and every other live vector has similarity zero, so the `k` best
touched slots are the `k` best vectors whenever there are enough of them; otherwise the route
itself falls back to the scan. -/
namespace Warm.Shard

open Intersection List
open SparseInvertedIndex (accumulate_counted count_postings epsilon queryWithTies)

variable {dimensions dim : Nat}

inductive Op (dimensions : Nat) where
  | insert (id : ValidId) (vector : EntangledHVec dimensions)
  | remove (id : String)
  | rebuild
  | query (dim : Nat) (query : EntangledHVec dim) (k : Nat)

def step (shard : Shard dimensions) : Op dimensions → Shard dimensions
  | .insert id vector => shard.insert id.text vector
  | .remove id => (shard.remove id).1
  | .rebuild => shard.rebuildInvertedIndex
  | .query _ query k => (shard.queryInverted shard.vectors.toList query k).2

def run (shard : Shard dimensions) (ops : List (Op dimensions)) : Shard dimensions := ops.foldl step shard

theorem similarity_eq (a : EntangledHVec dim) (b : EntangledHVec dimensions) :
    a.similarity b = if a.indices.length + b.indices.length - overlap a.indices b.indices = 0 then 1
      else (overlap a.indices b.indices : ℚ) /
        (a.indices.length + b.indices.length - overlap a.indices b.indices : Nat) := by
  rw [EntangledHVec.similarity, sparseIntersectionCount_overlap _ _ a.ascending b.ascending]

theorem overlap_le (a b : List Nat) : overlap a b ≤ a.length := length_filter_le _ _

theorem similarity_pos (a : EntangledHVec dim) (b : EntangledHVec dimensions)
    (shared : 0 < overlap a.indices b.indices) : 0 < a.similarity b := by
  rw [similarity_eq]
  split
  · exact one_pos
  · rename_i union
    apply div_pos
    · exact_mod_cast shared
    · exact_mod_cast Nat.pos_of_ne_zero union

theorem similarity_zero (a : EntangledHVec dim) (b : EntangledHVec dimensions) (nonempty : a.indices ≠ [])
    (apart : overlap a.indices b.indices = 0) : a.similarity b = 0 := by
  have length := length_pos_of_ne_nil nonempty
  rw [similarity_eq, apart, if_neg (by omega)]
  simp

theorem hit_similarity (index : SparseInvertedIndex) (query : EntangledHVec dim)
    (vector : EntangledHVec dimensions) (acc : Accumulator)
    (count : acc.getCount slot = overlap query.indices vector.indices)
    (length : index.lengths.getD slot 0 = vector.indices.length)
    (shared : 0 < overlap query.indices vector.indices) :
    index.hit query.indices acc slot = ⟨slot, query.similarity vector⟩ := by
  have bound := overlap_le query.indices vector.indices
  have other := overlap_le vector.indices query.indices
  rw [overlap_comm _ _ vector.ascending.nodup query.ascending.nodup] at other
  have union : ((query.indices.length + vector.indices.length -
      overlap query.indices vector.indices : Nat) : ℚ) =
      query.indices.length + vector.indices.length - overlap query.indices vector.indices := by
    rw [Nat.cast_sub (by omega), Nat.cast_add]
  have large : (1 : ℚ) ≤ query.indices.length + vector.indices.length -
      overlap query.indices vector.indices := by
    rw [← union]
    exact_mod_cast (by omega : 1 ≤ query.indices.length + vector.indices.length -
      overlap query.indices vector.indices)
  have small : epsilon < 1 := by
    unfold epsilon
    norm_num
  unfold SparseInvertedIndex.hit
  simp only [count, length]
  rw [if_pos (lt_of_lt_of_le small large), similarity_eq, if_neg (by omega), union]

theorem queryWithTies_ready [LinearOrder β] (index : SparseInvertedIndex) (queryDims : List Nat) (k : Nat)
    (ready : acc.Ready) (tie : Nat → β) : (index.queryWithTies queryDims k acc tie).2.Ready := by
  unfold queryWithTies
  split
  · exact ready
  · exact (accumulate_counted index queryDims ready).ready

theorem queryInverted_state (shard : Shard dimensions) (order : List (String × EntangledHVec dimensions))
    (query : EntangledHVec dim) (k : Nat) :
    (shard.queryInverted order query k).2 = { shard with
      accumulator := (shard.inverted.queryWithTies query.indices k shard.accumulator
        (fun slot => shard.registry.getD slot "")).2 } := by
  unfold queryInverted
  dsimp only
  split <;> rfl

theorem step_invariant (inv : Invariant shard) (op : Op dimensions) : Invariant (shard.step op) := by
  cases op with
  | insert id vector => exact insert_invariant inv id.text id.nonempty vector
  | remove id => exact remove_invariant inv id
  | rebuild => exact rebuildInvertedIndex_invariant inv
  | query dim query k =>
    rw [step, queryInverted_state]
    exact { inv with ready := queryWithTies_ready _ _ _ inv.ready _ }

theorem run_invariant (ops : List (Op dimensions)) (inv : Invariant shard) : Invariant (shard.run ops) := by
  induction ops generalizing shard with
  | nil => exact inv
  | cons op ops ih => exact ih (step_invariant inv op)

def scored (query : EntangledHVec dim) (entry : String × EntangledHVec dimensions) : RetrievalResult :=
  ⟨entry.1, query.similarity entry.2⟩

def shares (query : EntangledHVec dim) (entry : String × EntangledHVec dimensions) : Bool :=
  decide (0 < overlap query.indices entry.2.indices)

theorem Invariant.bounded (inv : Invariant shard) {slot : Nat} :
    ∀ dims, shard.live slot = some dims → ∀ i ∈ dims, i < shard.inverted.dimensions := by
  intro dims held i member
  obtain ⟨id, vector, _, _, rfl⟩ := (live_iff shard slot dims).mp held
  rw [inv.width]
  exact vector.bounded i member

theorem touched_iff (inv : Invariant shard) (query : EntangledHVec dim) (slot : Nat) :
    slot ∈ (shard.inverted.accumulate query.indices shard.accumulator).touched ↔
      ∃ (id : String) (vector : EntangledHVec dimensions), shard.registry[slot]? = some id ∧
        shard.vectors[id]? = some vector ∧ 0 < overlap query.indices vector.indices := by
  have counted := accumulate_counted shard.inverted query.indices inv.ready
  rw [counted.touched, ← count_pos_iff, count_postings inv.index query.indices inv.bounded]
  constructor
  · intro positive
    cases held : shard.live slot with
    | none => simp [held] at positive
    | some dims =>
      obtain ⟨id, vector, entry, present, rfl⟩ := (live_iff shard slot dims).mp held
      rw [held] at positive
      exact ⟨id, vector, entry, present, positive⟩
  · rintro ⟨id, vector, entry, present, positive⟩
    have held := (live_iff shard slot vector.indices).mpr ⟨id, vector, entry, present, rfl⟩
    rw [held]
    exact positive

theorem touched_hit (inv : Invariant shard) (query : EntangledHVec dim) {slot : Nat} {id : String}
    {vector : EntangledHVec dimensions} (entry : shard.registry[slot]? = some id)
    (present : shard.vectors[id]? = some vector) (shared : 0 < overlap query.indices vector.indices) :
    shard.inverted.hit query.indices (shard.inverted.accumulate query.indices shard.accumulator) slot =
      ⟨slot, query.similarity vector⟩ := by
  have counted := accumulate_counted shard.inverted query.indices inv.ready
  have held := (live_iff shard slot vector.indices).mpr ⟨id, vector, entry, present, rfl⟩
  apply hit_similarity _ _ _ _ _ (inv.index.lengths slot _ held) shared
  rw [counted.getCount, count_postings inv.index query.indices inv.bounded, held]
  rfl

theorem resolve_entry (inv : Invariant shard) (resolved : shard.resolve hit = some result) :
    shard.registry[hit.slot]? = some result.id ∧ result.id ≠ "" := by
  unfold resolve at resolved
  split at resolved
  · cases resolved
  rename_i id entry
  split at resolved
  case isFalse => cases resolved
  rename_i present
  cases resolved
  refine ⟨entry, ?_⟩
  rintro rfl
  simp [Std.ExtTreeMap.contains_eq_isSome_getElem?, inv.nonempty] at present

/-- The results of the touched slots are those of the vectors that share a dimension. -/
theorem touched_perm (inv : Invariant shard) (query : EntangledHVec dim)
    {order : List (String × EntangledHVec dimensions)} (perm : order.Perm shard.vectors.toList) :
    ((shard.inverted.accumulate query.indices shard.accumulator).touched.filterMap fun slot =>
      shard.resolve (shard.inverted.hit query.indices
        (shard.inverted.accumulate query.indices shard.accumulator) slot)).Perm
      ((order.filter (shares query)).map (scored query)) := by
  have counted := accumulate_counted shard.inverted query.indices inv.ready
  have resolved {slot : Nat} {id : String} {vector : EntangledHVec dimensions}
      (entry : shard.registry[slot]? = some id) (present : shard.vectors[id]? = some vector)
      (shared : 0 < overlap query.indices vector.indices) :
      shard.resolve (shard.inverted.hit query.indices
        (shard.inverted.accumulate query.indices shard.accumulator) slot) =
        some (scored query (id, vector)) := by
    rw [touched_hit inv query entry present shared]
    simp [resolve, entry, Std.ExtTreeMap.contains_eq_isSome_getElem?, present, scored]
  have keys : (order.map Prod.fst).Nodup := (perm.map _).nodup_iff.mpr (Table.toList_keys_nodup _)
  rw [perm_ext_iff_of_nodup]
  · intro result
    simp only [mem_filterMap, mem_map, mem_filter]
    constructor
    · rintro ⟨slot, touched, same⟩
      obtain ⟨id, vector, entry, present, shared⟩ := (touched_iff inv query slot).mp touched
      rw [resolved entry present shared] at same
      refine ⟨(id, vector), ⟨?_, by simpa [shares] using shared⟩, Option.some.inj same⟩
      exact perm.mem_iff.mpr ((Table.mem_toList _ _ _).mpr present)
    · rintro ⟨⟨id, vector⟩, ⟨member, shared⟩, rfl⟩
      have present := (Table.mem_toList _ _ _).mp (perm.mem_iff.mp member)
      have shared : 0 < overlap query.indices vector.indices := by simpa [shares] using shared
      obtain ⟨slot, held⟩ : ∃ slot, shard.slots[id]? = some slot := by
        rw [← Option.isSome_iff_exists, inv.keys, present]
        rfl
      have entry := inv.registered id slot held
      exact ⟨slot, (touched_iff inv query slot).mpr ⟨id, vector, entry, present, shared⟩,
        resolved entry present shared⟩
  · -- Distinct touched slots have distinct ids.
    apply List.Nodup.filterMap _ counted.once
    intro a b result first second
    obtain ⟨entry, named⟩ := resolve_entry inv first
    obtain ⟨entry', _⟩ := resolve_entry inv second
    have left := inv.named a result.id entry named
    have right := inv.named b result.id entry' named
    rw [left] at right
    exact Option.some.inj right
  · apply List.Nodup.of_map RetrievalResult.id
    rw [map_map]
    exact (filter_sublist.map Prod.fst).nodup keys

theorem scored_apart (query : EntangledHVec dim) (nonempty : query.indices ≠ []) (left : shares query a = true)
    (right : shares query b = false) : (scored query a).rank ≤ (scored query b).rank := by
  have positive := similarity_pos query a.2 (by simpa [shares] using left)
  have zero := similarity_zero query b.2 nonempty (by simpa [shares] using right)
  apply le_of_lt
  rw [RetrievalResult.rank, RetrievalResult.rank, Prod.Lex.toLex_lt_toLex]
  left
  change query.similarity b.2 < query.similarity a.2
  rw [zero]
  exact positive

theorem bruteForceScan_rank (order : List (String × EntangledHVec dimensions)) (query : EntangledHVec dim)
    (k : Nat) :
    (bruteForceScan order query k).map RetrievalResult.rank =
      (((order.map (scored query)).map RetrievalResult.rank).insertionSort (· ≤ ·)).take k := by
  unfold bruteForceScan
  by_cases trivial_ : k = 0 ∨ order.isEmpty
  · rw [if_pos trivial_]
    rcases trivial_ with rfl | empty
    · simp
    · rw [List.isEmpty_iff.mp empty]
      simp
  · rw [if_neg trivial_, TopK.map_collect]
    rfl

theorem filterMap_resolve_rank {shard : Shard dimensions} (key : SlotHit → β) (rank : RetrievalResult → β)
    (hits : List SlotHit) (resolves : ∀ hit ∈ hits, ∃ result, shard.resolve hit = some result ∧ rank result = key hit) :
    (hits.filterMap shard.resolve).map rank = hits.map key := by
  induction hits with
  | nil => rfl
  | cons hit hits ih =>
    obtain ⟨result, resolved, same⟩ := resolves hit (by simp)
    rw [filterMap_cons_some resolved, map_cons, map_cons, same,
      ih (forall_mem_cons.mp resolves).2]

theorem mapped_rank {shard : Shard dimensions} (inv : Invariant shard) (query : EntangledHVec dim) (k : Nat)
    {order : List (String × EntangledHVec dimensions)} (perm : order.Perm shard.vectors.toList) :
    ((TopK.collect (fun h : SlotHit => toLex (OrderDual.toDual h.similarity, shard.registry.getD h.slot "")) k
        ((shard.inverted.accumulate query.indices shard.accumulator).touched.map
          (shard.inverted.hit query.indices
            (shard.inverted.accumulate query.indices shard.accumulator)))).filterMap shard.resolve).map
        RetrievalResult.rank =
      ((((order.filter (shares query)).map (scored query)).map RetrievalResult.rank).insertionSort
        (· ≤ ·)).take k := by
  have touched := touched_perm inv query perm
  generalize acc : shard.inverted.accumulate query.indices shard.accumulator = counters at touched
  have resolves : ∀ hit ∈ counters.touched.map (shard.inverted.hit query.indices counters),
      ∃ result, shard.resolve hit = some result ∧
        result.rank = toLex (OrderDual.toDual hit.similarity, shard.registry.getD hit.slot "") := by
    intro hit member
    obtain ⟨slot, reached, rfl⟩ := mem_map.mp member
    obtain ⟨id, vector, entry, present, shared⟩ := (touched_iff inv query slot).mp (acc ▸ reached)
    have found := touched_hit inv query entry present shared
    rw [acc] at found
    refine ⟨scored query (id, vector), ?_, ?_⟩
    · rw [found]
      simp [resolve, entry, Std.ExtTreeMap.contains_eq_isSome_getElem?, present, scored]
    · rw [found, RetrievalResult.rank, getD_eq_getElem?_getD, entry]
      rfl
  rw [filterMap_resolve_rank _ _ _ (fun hit member => resolves hit (TopK.mem_collect member)),
    TopK.map_collect, ← filterMap_resolve_rank _ _ _ resolves, filterMap_map]
  congr 1
  exact TopK.sort_perm (touched.map _)

/-- In every state of a shard, the inverted route gives the list of the exact scan: for every
query, every `k` and every order in which the map of live vectors is read. -/
theorem queryInverted_eq_scan (inv : Invariant shard) (query : EntangledHVec dim) (k : Nat)
    (order : List (String × EntangledHVec dimensions)) (perm : order.Perm shard.vectors.toList) :
    (shard.queryInverted order query k).1 = bruteForceScan order query k := by
  have size : order.length = shard.vectors.size := by
    rw [perm.length_eq, Std.ExtTreeMap.length_toList]
  unfold queryInverted
  dsimp only
  split
  case isFalse => rfl
  rename_i enough
  unfold queryWithTies at enough ⊢
  by_cases early : k = 0 ∨ query.indices.isEmpty ∨ shard.inverted.docCount = 0
  · -- Nothing was found and nothing is missing: the scan returns nothing either.
    simp only [early, ↓reduceIte, filterMap_nil, length_nil] at enough ⊢
    have trivial_ : k = 0 ∨ order.isEmpty := by
      rcases Nat.eq_zero_or_pos k with zero | positive
      · exact .inl zero
      · have : order.length = 0 := by omega
        exact .inr (by simpa using this)
    rw [bruteForceScan, if_pos trivial_]
  simp only [early, ↓reduceIte] at enough ⊢
  have nonempty : query.indices ≠ [] := by
    intro empty
    exact early (.inr (.inl (by simp [empty])))
  apply RetrievalResult.rank_injective.list_map
  have mapped := mapped_rank inv query k perm
  have found := congrArg List.length mapped
  change List.map _ (List.filterMap shard.resolve _) = _
  rw [mapped, bruteForceScan_rank]
  rw [length_map] at found
  change (List.filterMap shard.resolve _).length = _ at enough
  rw [found] at enough
  -- Splitting the live vectors by whether they share a dimension splits the sorted results.
  have split := filter_append_perm (shares query) order
  have sorted := TopK.sort_perm ((split.map (scored query)).map RetrievalResult.rank)
  rw [map_append, map_append] at sorted
  rw [← sorted, TopK.sort_append]
  · generalize left : ((order.filter (shares query)).map (scored query)).map RetrievalResult.rank = near
      at enough
    generalize right : ((order.filter (fun entry => !shares query entry)).map (scored query)).map
      RetrievalResult.rank = far
    have total : near.length + far.length = order.length := by
      rw [← left, ← right, ← split.length_eq]
      simp
    have nearLength : (near.insertionSort (· ≤ ·)).length = near.length := length_insertionSort _ _
    rw [length_take, nearLength, ← size] at enough
    by_cases many : k ≤ near.length
    · rw [take_append_of_le_length (by omega)]
    · have none : far = [] := length_eq_zero_iff.mp (by omega)
      simp [none]
  · intro x close y distant
    obtain ⟨_, listed, rfl⟩ := mem_map.mp close
    obtain ⟨a, first, rfl⟩ := mem_map.mp listed
    obtain ⟨_, listed', rfl⟩ := mem_map.mp distant
    obtain ⟨b, second, rfl⟩ := mem_map.mp listed'
    exact scored_apart query nonempty (mem_filter.mp first).2 (by simpa using (mem_filter.mp second).2)

/-- After any sequence of inserts, replacements, removals, rebuilds and queries, the inverted
route of a query returns the list of the exact scan over the live vectors. -/
theorem queryInverted_run (ops : List (Op dimensions)) (query : EntangledHVec dim) (k : Nat)
    (order : List (String × EntangledHVec dimensions))
    (perm : order.Perm ((new dimensions).run ops).vectors.toList) :
    (((new dimensions).run ops).queryInverted order query k).1 = bruteForceScan order query k :=
  queryInverted_eq_scan (run_invariant ops (new_invariant dimensions)) query k order perm

/-- A removal and a reused slot, then a query that shares a dimension with one of two vectors. -/
theorem queryInverted_run_reused_slot :
    ∃ order : List (String × EntangledHVec 8),
      order.Perm ((new 8).run
        [.insert ⟨"a", by decide⟩ ⟨[1, 3], by decide, by decide⟩,
          .insert ⟨"b", by decide⟩ ⟨[2], by decide, by decide⟩, .remove "a",
          .insert ⟨"c", by decide⟩ ⟨[3, 5], by decide, by decide⟩]).vectors.toList ∧
      (((new 8).run
        [.insert ⟨"a", by decide⟩ ⟨[1, 3], by decide, by decide⟩,
          .insert ⟨"b", by decide⟩ ⟨[2], by decide, by decide⟩, .remove "a",
          .insert ⟨"c", by decide⟩ ⟨[3, 5], by decide, by decide⟩]).queryInverted order
            (⟨[3, 4], by decide, by decide⟩ : EntangledHVec 8) 1).1 =
        bruteForceScan order (⟨[3, 4], by decide, by decide⟩ : EntangledHVec 8) 1 :=
  ⟨_, List.Perm.refl _, queryInverted_run _ _ 1 _ (List.Perm.refl _)⟩

end Warm.Shard
