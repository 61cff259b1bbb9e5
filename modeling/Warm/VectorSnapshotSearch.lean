import Warm.VectorSnapshotExact
import Mathlib.Data.List.Flatten

/-! The search over a captured snapshot gives the nearest live chunks, and the list of the generic
scan, exactly when no live row that few chunks come before was left unfetched. -/
namespace Warm.VectorSnapshot

open Ranking List

section Ranked

variable {α : Type} [LinearOrder α] [One α] [Neg α]

/-- The first `k` of the live embedded chunks that score at least `minScore`. -/
def nearest (metric : Metric α) (query : List UInt64) (store : Store) (k : Nat) (minScore : α) : List (Hit α) :=
  (((liveHits metric query store).filter fun hit => minScore ≤ hit.score).insertionSort fun a b => a.key ≤ b.key).take k

/-- No captured row that is still live and has fewer than `k` live chunks before it has as many captured
rows before it as are fetched. -/
def Covers (metric : Metric α) (query : List UInt64) (snapshot : Snapshot) (store : Store) (k : Nat) (minScore : α) :
    Prop :=
  ∀ hit ∈ snapshotHits metric query snapshot, store.holds hit.shared = true → minScore ≤ hit.score →
    rank ((liveHits metric query store).map Hit.key) hit.key < k →
      rank ((snapshotHits metric query snapshot).map Hit.key) hit.key <
        k + min (staleness store.generation snapshot.generation) (4 * k) + 8

omit [One α] [Neg α] in
theorem filter_keys (hits : List (Hit α)) (minScore : α) :
    (hits.filter fun hit => minScore ≤ hit.score).map Hit.key =
      (hits.map Hit.key).filter fun key => decide (minScore ≤ OrderDual.ofDual (ofLex key).1) := by
  rw [filter_map]
  rfl

omit [One α] [Neg α] in
theorem map_key_cut (hits : List (Hit α)) (k : Nat) (minScore : α) :
    (((hits.insertionSort fun a b => a.key ≤ b.key).filter fun hit => minScore ≤ hit.score).take k).map Hit.key =
      first k ((hits.filter fun hit => minScore ≤ hit.score).map Hit.key) := by
  rw [map_take, first, filter_keys, filter_keys, map_key_sort]
  congr 1
  have perm := perm_insertionSort (· ≤ ·) (hits.map Hit.key)
  refine List.Perm.eq_of_pairwise' (r := (· ≤ ·)) ((pairwise_insertionSort _ _).filter _)
    (pairwise_insertionSort _ _) ?_
  exact (perm.filter _).trans (perm_insertionSort _ _).symm

variable {metric : Metric α} {query : List UInt64} {dim : Nat} {store : Store}

theorem map_key_nearest (k : Nat) (minScore : α) : (nearest metric query store k minScore).map Hit.key =
    first k (((liveHits metric query store).filter fun hit => minScore ≤ hit.score).map Hit.key) := by
  rw [nearest, map_take, map_key_sort, first]

theorem mem_nearest (member : hit ∈ nearest metric query store k minScore) : hit ∈ liveHits metric query store :=
  (mem_filter.mp ((mem_insertionSort _).mp (mem_of_mem_take member))).1

theorem map_key_inj (sound : Sound dim store) {xs ys : List (Hit α)} (own : ∀ hit ∈ xs, hit ∈ liveHits metric query store)
    (own' : ∀ hit ∈ ys, hit ∈ liveHits metric query store) (same : xs.map Hit.key = ys.map Hit.key) : xs = ys := by
  induction xs generalizing ys with
  | nil => exact (map_eq_nil_iff.mp same.symm).symm
  | cons x xs ih =>
    cases ys with
    | nil => cases same
    | cons y ys =>
      rw [map_cons, map_cons, List.cons.injEq] at same
      rw [key_injective sound (own x (by simp)) (own' y (by simp)) same.1,
        ih (forall_mem_cons.mp own).2 (forall_mem_cons.mp own').2 same.2]

/-- What the ranking finds, scored: live chunks, none twice, and all of them but the captured rows beyond
those fetched. -/
structure Finds (metric : Metric α) (query : List UInt64) (snapshot : Snapshot) (store : Store) (k : Nat)
    (found : List (Hit α)) : Prop where
  distinct : (found.map Hit.key).Nodup
  live : ∀ hit ∈ found, hit ∈ liveHits metric query store
  found_iff : ∀ hit ∈ liveHits metric query store, hit ∈ found ↔
    (hit ∈ snapshotHits metric query snapshot →
      rank ((snapshotHits metric query snapshot).map Hit.key) hit.key < fetchRows snapshot store k)

theorem ranked_eq_nearest_iff (sound : Sound dim store) {k : Nat} {found : List (Hit α)}
    (finds : Finds metric query snapshot store k found)
    (captures : ∀ hit ∈ snapshotHits metric query snapshot, hit ∈ liveHits metric query store ↔ store.holds hit.shared = true)
    (paired : snapshot.exact.length = snapshot.rows.length) (minScore : α) :
    (((found.insertionSort fun a b => a.key ≤ b.key).filter fun hit => minScore ≤ hit.score).take k =
        nearest metric query store k minScore) ↔ Covers metric query snapshot store k minScore := by
  have distinct : ((liveHits metric query store).map Hit.key).Nodup := liveHits_distinct sound
  have keys (hits : List (Hit α)) (nodup : (hits.map Hit.key).Nodup) :
      ((hits.filter fun hit => minScore ≤ hit.score).map Hit.key).Nodup := by
    rw [filter_keys]
    exact nodup.filter _
  have cut : (((found.insertionSort fun a b => a.key ≤ b.key).filter fun hit => minScore ≤ hit.score).take k =
      nearest metric query store k minScore) ↔
      first k ((found.filter fun hit => minScore ≤ hit.score).map Hit.key) =
        first k (((liveHits metric query store).filter fun hit => minScore ≤ hit.score).map Hit.key) := by
    rw [← map_key_cut, ← map_key_nearest]
    refine ⟨congrArg _, map_key_inj sound (fun hit member => ?_) fun hit member => mem_nearest member⟩
    have kept := (mem_filter.mp (mem_of_mem_take member)).1
    exact finds.live hit ((mem_insertionSort _).mp kept)
  have part : ∀ key ∈ (found.filter fun hit => minScore ≤ hit.score).map Hit.key,
      key ∈ ((liveHits metric query store).filter fun hit => minScore ≤ hit.score).map Hit.key := by
    intro key member
    obtain ⟨hit, kept, rfl⟩ := mem_map.mp member
    rw [mem_filter] at kept
    exact mem_map_of_mem (mem_filter.mpr ⟨finds.live hit kept.1, kept.2⟩)
  -- chunks before an eligible chunk are eligible
  have eligible {hit : Hit α} (enough : minScore ≤ hit.score) :
      rank (((liveHits metric query store).filter fun hit => minScore ≤ hit.score).map Hit.key) hit.key =
        rank ((liveHits metric query store).map Hit.key) hit.key := by
    rw [filter_keys]
    refine rank_filter fun key _ before => decide_eq_true ?_
    rcases Prod.Lex.lt_iff.mp before with higher | ⟨level, _⟩
    · exact le_trans enough (le_of_lt (OrderDual.ofDual_lt_ofDual.mpr higher))
    · exact le_trans enough (le_of_eq (congrArg OrderDual.ofDual level).symm)
  have listed (hit : Hit α) (member : hit ∈ liveHits metric query store) (enough : minScore ≤ hit.score) :
      hit.key ∈ (found.filter fun hit => minScore ≤ hit.score).map Hit.key ↔ hit ∈ found := by
    rw [mem_map]
    constructor
    · rintro ⟨other, kept, same⟩
      rw [mem_filter] at kept
      exact key_injective sound (finds.live other kept.1) member same ▸ kept.1
    · intro inside
      exact ⟨hit, mem_filter.mpr ⟨inside, decide_eq_true enough⟩, rfl⟩
  have bound {hit : Hit α} (captured : hit ∈ snapshotHits metric query snapshot) :
      rank ((snapshotHits metric query snapshot).map Hit.key) hit.key < snapshot.rows.length := by
    have listed : hit.key ∈ (snapshotHits metric query snapshot).map Hit.key := mem_map_of_mem captured
    have inside := rank_lt_length listed
    rw [length_map, snapshotHits, length_map, length_zip, paired, Nat.min_self] at inside
    exact inside
  rw [cut, first_eq_iff (keys found finds.distinct) (keys _ distinct) part]
  constructor
  · intro complete hit captured held enough few
    have live := (captures hit captured).mpr held
    have key : hit.key ∈ ((liveHits metric query store).filter fun hit => minScore ≤ hit.score).map Hit.key :=
      mem_map_of_mem (mem_filter.mpr ⟨live, decide_eq_true enough⟩)
    have inside := (listed hit live enough).mp (complete hit.key key (by rw [eligible enough]; exact few))
    exact lt_of_lt_of_le ((finds.found_iff hit live).mp inside captured) (Nat.min_le_left _ _)
  · intro covers key member few
    obtain ⟨hit, kept, rfl⟩ := mem_map.mp member
    rw [mem_filter, decide_eq_true_eq] at kept
    rw [eligible kept.2] at few
    rw [listed hit kept.1 kept.2, finds.found_iff hit kept.1]
    intro captured
    have before := covers hit captured ((captures hit captured).mp kept.1) kept.2 few
    exact lt_min before (bound captured)

end Ranked

section Found

variable {α : Type} [LinearOrder α] [One α] [Neg α]
variable {metric : Metric α} {query : List UInt64} {dim : Nat} {earlier store : Store} {snapshot : Snapshot}

/-- The snapshot is of the embedded chunks of an earlier state. -/
structure Captured (earlier : Store) (dim : Nat) (snapshot : Snapshot) : Prop where
  generation : snapshot.generation = earlier.generation
  dim : snapshot.dim = dim
  rows : snapshot.rows = (capturedPairs earlier).map Prod.fst
  exact : snapshot.exact = (capturedPairs earlier).map Prod.snd
  members : snapshot.members = (capturedPairs earlier).map fun pair => pair.1.shared.address

theorem captured_build (captured : captureVectorRows earlier dim = .ok (some capture)) :
    Captured earlier dim (buildVectorSnapshot capture) := by
  rw [captureVectorRows_ok captured]
  exact ⟨rfl, rfl, rfl, rfl, map_map⟩

section

variable (captured : Captured earlier dim snapshot)
include captured

theorem snapshotHits_eq :
    snapshotHits metric query snapshot = (capturedPairs earlier).map (pairHit metric query) := by
  rw [snapshotHits, captured.rows, captured.exact, zip_map']
  congr 1
  exact map_id _

section

variable (sound : Sound dim earlier)
include sound

theorem mem_snapshotHits :
    hit ∈ snapshotHits metric query snapshot ↔ hit ∈ liveHits metric query earlier := by
  rw [snapshotHits_eq captured, mem_liveHits sound, mem_map]
  constructor
  · rintro ⟨pair, member, rfl⟩
    obtain ⟨found, held⟩ := (mem_capturedPairs sound).mp member
    exact ⟨found, pair.2, held, rfl⟩
  · rintro ⟨found, embedding, held, score⟩
    refine ⟨(⟨hit.shared, hit.chunk⟩, embedding), (mem_capturedPairs sound).mpr ⟨found, held⟩, ?_⟩
    rw [pairHit, ← score]

theorem snapshotHits_distinct :
    ((snapshotHits metric query snapshot).map Hit.key).Nodup := by
  rw [snapshotHits_eq captured, List.Nodup, pairwise_map, pairwise_map]
  refine (capturedPairs_ascending sound).imp fun {a b} before same => ?_
  have level : place a.1 = place b.1 := congrArg toLex (Prod.ext (key_eq same).2.1 (key_eq same).2.2)
  exact lt_irrefl (place b.1) (level ▸ before)

theorem captured_admitted
    (member : hit ∈ snapshotHits metric query snapshot) : Admitted dim earlier.heap hit.shared :=
  sound.admitted _ _ ((mem_liveHits sound).mp ((mem_snapshotHits captured sound).mp member)).1

theorem captured_live_iff
    (sound' : Sound dim store) (later : Later earlier store) (member : hit ∈ snapshotHits metric query snapshot) :
    hit ∈ liveHits metric query store ↔ store.holds hit.shared = true := by
  rw [holds_iff sound' later.heap (captured_admitted captured sound member), mem_liveHits sound']
  exact and_iff_left ((mem_liveHits sound).mp ((mem_snapshotHits captured sound).mp member)).2

theorem mem_members_iff
    (sound' : Sound dim store) (later : Later earlier store) (live : hit ∈ liveHits metric query store) :
    hit.shared.address ∈ snapshot.members ↔ hit ∈ snapshotHits metric query snapshot := by
  obtain ⟨found, scored⟩ := (mem_liveHits sound').mp live
  constructor
  · intro member
    rw [captured.members, mem_map] at member
    obtain ⟨pair, row, address⟩ := member
    have held := ((mem_capturedPairs sound).mp row).1
    have same : hit.shared = pair.1.shared :=
      (sound'.admitted _ _ found).same ((sound.admitted _ _ held).grow later.heap) address.symm
    rw [mem_snapshotHits captured sound, mem_liveHits sound, same]
    rw [same] at scored
    exact ⟨held, scored⟩
  · intro member
    rw [snapshotHits_eq captured, mem_map] at member
    obtain ⟨pair, row, rfl⟩ := member
    rw [captured.members]
    exact mem_map_of_mem row

theorem map_key_fetched (count : Nat) :
    (fetched metric query snapshot count).map Hit.key =
      first (min count snapshot.rows.length) ((snapshotHits metric query snapshot).map Hit.key) := by
  rw [fetched_eq captured.rows captured.exact (capturedPairs_ascending sound), map_take, map_key_sort,
    snapshotHits_eq captured, captured.rows, length_map, first]

theorem mem_fetched (count : Nat) :
    hit ∈ fetched metric query snapshot count ↔ hit ∈ snapshotHits metric query snapshot ∧
      rank ((snapshotHits metric query snapshot).map Hit.key) hit.key < min count snapshot.rows.length := by
  have within {other : Hit α} (member : other ∈ fetched metric query snapshot count) :
      other ∈ snapshotHits metric query snapshot := by
    rw [fetched_eq captured.rows captured.exact (capturedPairs_ascending sound)] at member
    rw [snapshotHits_eq captured]
    exact (mem_insertionSort _).mp (mem_of_mem_take member)
  have distinct : ((snapshotHits metric query snapshot).map Hit.key).Nodup := snapshotHits_distinct captured sound
  have keys := mem_first distinct (min count snapshot.rows.length) hit.key
  rw [← map_key_fetched captured sound count] at keys
  constructor
  · intro member
    exact ⟨within member, (keys.mp (mem_map_of_mem member)).2⟩
  · rintro ⟨member, before⟩
    obtain ⟨other, inside, same⟩ := mem_map.mp (keys.mpr ⟨mem_map_of_mem member, before⟩)
    have live (x : Hit α) (listed : x ∈ snapshotHits metric query snapshot) := (mem_snapshotHits captured sound).mp listed
    exact key_injective sound (live other (within inside)) (live hit member) same ▸ inside

end

end

theorem rescore_live (sound : Sound dim store) (live : hit ∈ liveHits metric query store) :
    hit.rescore metric query = hit := by
  obtain ⟨_, embedding, held, score⟩ := (mem_liveHits sound).mp live
  rw [Hit.rescore, held]
  cases hit
  cases score
  rfl

/-- The candidates of the pass over the documents written since, before they are scored anew. -/
def deltaHits (metric : Metric α) (narrow : Embedding) (shared : Shared) : List (Hit α) :=
  (pairsOf shared).map fun pair => ⟨pair.1.shared, pair.1.chunk, metric.dot32 narrow pair.2⟩

omit [LinearOrder α] [One α] [Neg α] in
theorem deltaDocument_ok
    (fits : ∀ chunk ∈ shared.document.chunks, ∀ embedding ∈ chunk.embedding, embedding.length = snapshot.dim)
    (done : deltaDocument metric snapshot narrow seen shared = .ok out) :
    out = seen ++ if shared.address ∈ snapshot.members then [] else deltaHits metric narrow shared := by
  rw [deltaDocument] at done
  split at done
  next known =>
    cases done
    rw [if_pos known, append_nil]
  next fresh =>
    rw [if_neg fresh, deltaHits, pairsOf, map_filterMap, filterMap_eq_flatMap_toList]
    refine foldlM_push (fun seen entry member out pushed => ?_) done
    have listed : entry.1 ∈ shared.document.chunks :=
      mem_of_getElem? (mk_mem_zipIdx_iff_getElem?.mp member)
    rw [deltaChunk] at pushed
    split at pushed
    next absent =>
      cases pushed
      simp [absent]
    next embedding found =>
      rw [if_neg (not_not.mpr (fits entry.1 listed embedding found))] at pushed
      split at pushed
      next => cases pushed
      cases pushed
      simp [found]

theorem rescore_deltaHits (shared : Shared) :
    (deltaHits metric narrow shared).map (·.rescore metric query) = scored metric query shared := by
  rw [deltaHits, scored_eq, map_map]
  refine map_congr_left fun pair member => ?_
  obtain ⟨rfl, held⟩ := mem_pairsOf.mp member
  rw [Function.comp_apply, Hit.rescore]
  rw [held]
  rfl

/-- The chunks of the documents that were not captured. -/
def uncaptured (metric : Metric α) (query : List UInt64) (snapshot : Snapshot) (store : Store) : List (Hit α) :=
  store.values.flatMap fun shared => if shared.address ∈ snapshot.members then [] else scored metric query shared

theorem mem_uncaptured : hit ∈ uncaptured metric query snapshot store ↔
    hit ∈ liveHits metric query store ∧ hit.shared.address ∉ snapshot.members := by
  have own {shared : Shared} (member : hit ∈ scored metric query shared) : hit.shared = shared := by
    rw [scored_eq, mem_map] at member
    obtain ⟨pair, listed, rfl⟩ := member
    exact (mem_pairsOf.mp listed).1
  rw [uncaptured, liveHits, mem_flatMap, mem_flatMap]
  constructor
  · rintro ⟨shared, member, listed⟩
    split at listed
    next => cases listed
    next fresh => exact ⟨⟨shared, member, listed⟩, by rw [own listed]; exact fresh⟩
  · rintro ⟨⟨shared, member, listed⟩, fresh⟩
    rw [own listed] at fresh
    exact ⟨shared, member, by rw [if_neg fresh]; exact listed⟩

theorem uncaptured_distinct (sound : Sound dim store) : ((uncaptured metric query snapshot store).map Hit.key).Nodup := by
  have part : (uncaptured metric query snapshot store).Sublist (liveHits metric query store) := by
    refine List.Sublist.flatMap_right _ fun shared _ => ?_
    split
    next => exact nil_sublist _
    next => exact List.Sublist.refl _
  exact (liveHits_distinct sound).sublist (part.map _)

theorem rescore_delta : (store.values.flatMap fun shared =>
    if shared.address ∈ snapshot.members then [] else deltaHits metric narrow shared).map (·.rescore metric query) =
      uncaptured metric query snapshot store := by
  rw [map_flatMap, uncaptured]
  refine flatMap_congr fun shared _ => ?_
  split
  next => rfl
  next => exact rescore_deltaHits shared

section

variable (captured : Captured earlier dim snapshot) (sound : Sound dim earlier) (sound' : Sound dim store)
include captured sound sound'

theorem finds_current
    (current : store.documents = earlier.documents) (k : Nat) :
    Finds metric query snapshot store k
      ((fetched metric query snapshot (fetchRows snapshot store k)).map (·.rescore metric query)) := by
  have same (hit : Hit α) : hit ∈ liveHits metric query store ↔ hit ∈ liveHits metric query earlier := by
    rw [mem_liveHits sound', mem_liveHits sound, current]
  have live {hit : Hit α} (member : hit ∈ fetched metric query snapshot (fetchRows snapshot store k)) :
      hit ∈ liveHits metric query store :=
    (same hit).mpr ((mem_snapshotHits captured sound).mp ((mem_fetched captured sound _).mp member).1)
  have kept : (fetched metric query snapshot (fetchRows snapshot store k)).map (·.rescore metric query) =
      fetched metric query snapshot (fetchRows snapshot store k) :=
    (map_congr_left fun hit member => rescore_live sound' (live member)).trans (map_id _)
  rw [kept]
  refine ⟨?_, fun hit member => live member, fun hit inside => ?_⟩
  · rw [map_key_fetched captured sound]
    exact first_nodup (snapshotHits_distinct captured sound) _
  · have listed := (mem_snapshotHits captured sound).mpr ((same hit).mp inside)
    rw [mem_fetched captured sound, fetchRows, Nat.min_assoc, Nat.min_self]
    exact ⟨fun found _ => found.2, fun found => ⟨listed, found listed⟩⟩

/-- On a stale snapshot the ranking finds the fetched rows that are live and every chunk written since. -/
theorem finds_stale
    (later : Later earlier store)
    (done : store.values.foldlM (deltaDocument metric snapshot narrow) ((fetched metric query snapshot (fetchRows snapshot store k)).filter fun hit => store.holds hit.shared) = .ok found) :
    Finds metric query snapshot store k (found.map (·.rescore metric query)) := by
  have pushed := foldlM_push (fun seen shared member out pushed =>
    deltaDocument_ok (captured.dim ▸ (sound'.admitted _ _ ((mem_values shared sound').mp member)).fits) pushed) done
  have survivor {hit : Hit α} :
      hit ∈ (fetched metric query snapshot (fetchRows snapshot store k)).filter (fun hit => store.holds hit.shared) ↔
        hit ∈ liveHits metric query store ∧ hit ∈ snapshotHits metric query snapshot ∧
          rank ((snapshotHits metric query snapshot).map Hit.key) hit.key < fetchRows snapshot store k := by
    rw [mem_filter, mem_fetched captured sound, fetchRows, Nat.min_assoc, Nat.min_self]
    constructor
    · rintro ⟨⟨member, before⟩, held⟩
      exact ⟨(captured_live_iff captured sound sound' later member).mpr held, member, before⟩
    · rintro ⟨live, member, before⟩
      exact ⟨⟨member, before⟩, (captured_live_iff captured sound sound' later member).mp live⟩
  have kept : ((fetched metric query snapshot (fetchRows snapshot store k)).filter
      fun hit => store.holds hit.shared).map (·.rescore metric query) =
      (fetched metric query snapshot (fetchRows snapshot store k)).filter fun hit => store.holds hit.shared :=
    (map_congr_left fun hit member => rescore_live sound' (survivor.mp member).1).trans (map_id _)
  rw [pushed, map_append, kept, rescore_delta]
  refine ⟨?_, fun hit member => ?_, fun hit live => ?_⟩
  · rw [map_append, nodup_append]
    refine ⟨?_, uncaptured_distinct sound', ?_⟩
    · refine List.Nodup.sublist (filter_sublist.map _) ?_
      rw [map_key_fetched captured sound]
      exact first_nodup (snapshotHits_distinct captured sound) _
    · rintro key member _ member' rfl
      obtain ⟨hit, own, rfl⟩ := mem_map.mp member
      obtain ⟨other, own', same⟩ := mem_map.mp member'
      obtain ⟨live, row, _⟩ := survivor.mp own
      obtain ⟨live', fresh⟩ := mem_uncaptured.mp own'
      rw [key_injective sound' live' live same] at fresh
      exact fresh ((mem_members_iff captured sound sound' later live).mpr row)
  · rcases mem_append.mp member with old | new
    · exact (survivor.mp old).1
    · exact (mem_uncaptured.mp new).1
  · rw [mem_append, survivor, mem_uncaptured, mem_members_iff captured sound sound' later live]
    by_cases row : hit ∈ snapshotHits metric query snapshot
    · simp [row, live]
    · simp [row, live]

end

end Found

end Warm.VectorSnapshot
