import Warm.VectorSnapshotRuns
import Warm.DocumentListing

/-! What a captured snapshot covers of the live documents, and when the search over it gives the
nearest live chunks: the rows beyond those fetched must not be among them. -/
namespace Warm.VectorSnapshot

open List hiding count min

open Ranking
open Prod (ext fst mk.inj snd)

section Capture

variable {dim : Nat} {store : Store}

theorem foldlM_push {step : List τ → σ → Except ε (List τ)} {pushed : σ → List τ} {xs : List σ}
    (pushes : ∀ seen, ∀ x ∈ xs, ∀ out, step seen x = .ok out → out = seen ++ pushed x) {seen out : List τ}
    (done : xs.foldlM step seen = .ok out) : out = seen ++ xs.flatMap pushed := by
  induction xs generalizing seen with
  | nil =>
    cases done
    simp
  | cons x xs ih =>
    rw [foldlM_cons] at done
    cases first : step seen x with
    | error message =>
      rw [first] at done
      cases done
    | ok next =>
      rw [first] at done
      have rest := ih (fun seen y member => pushes seen y (by simp [member])) done
      rw [rest, pushes seen x (by simp) next first, flatMap_cons, append_assoc]

/-- The embedded chunks of one document with their embeddings. -/
def pairsOf (shared : Shared) : List (RowRef × Embedding) :=
  shared.document.chunks.zipIdx.filterMap fun entry =>
    entry.1.embedding.map fun embedding => (⟨shared, entry.2⟩, embedding)

def capturedPairs (store : Store) : List (RowRef × Embedding) :=
  (store.embeddedDocuments.toList.map fst).flatMap fun id => (store.documents[id]?.map pairsOf).getD []

theorem captureDocument_ok {rows out : List (RowRef × Embedding)} {id : String}
    (done : captureDocument store count dim rows id = .ok out) :
    out = rows ++ (store.documents[id]?.map pairsOf).getD [] := by
  rw [captureDocument] at done
  split at done
  next => cases done
  next shared found =>
    rw [found, Option.map_some, Option.getD_some, pairsOf, filterMap_eq_flatMap_toList]
    refine foldlM_push (fun seen entry _ out pushed => ?_) done
    rw [captureChunk] at pushed
    split at pushed
    next absent =>
      cases pushed
      simp [absent]
    next embedding found =>
      split at pushed
      next => cases pushed
      split at pushed
      next => cases pushed
      split at pushed
      next => cases pushed
      cases pushed
      simp [found]

theorem captureVectorRows_ok {capture : VectorCapture} (captured : captureVectorRows store dim = .ok (some capture)) :
    capture = ⟨store.generation, dim, (capturedPairs store).map fst, (capturedPairs store).map snd⟩ := by
  rw [captureVectorRows] at captured
  split at captured
  next => cases captured
  split at captured
  next => cases captured
  split at captured
  next => cases captured
  split at captured
  next => cases captured
  next rows done =>
    have listed := foldlM_push (fun _ _ _ _ pushed => captureDocument_ok pushed) done
    rw [nil_append] at listed
    split at captured
    next => cases captured
    cases captured
    rw [listed, capturedPairs]

theorem mem_pairsOf :
    pair ∈ pairsOf shared ↔ pair.1.shared = shared ∧ (shared.document.chunks[pair.1.chunk]?).bind (·.embedding) = some pair.2 := by
  obtain ⟨⟨owner, i⟩, embedding⟩ := pair
  rw [pairsOf, mem_filterMap]
  constructor
  · rintro ⟨⟨chunk, j⟩, member, made⟩
    obtain ⟨own, found, same⟩ := Option.map_eq_some_iff.mp made
    cases same
    refine ⟨rfl, ?_⟩
    rw [mk_mem_zipIdx_iff_getElem?.mp member]
    exact found
  · rintro ⟨rfl, found⟩
    obtain ⟨chunk, held, own⟩ := Option.bind_eq_some_iff.mp found
    refine ⟨(chunk, i), mk_mem_zipIdx_iff_getElem?.mpr held, ?_⟩
    rw [own]
    rfl

theorem mem_capturedPairs (sound : Sound dim store) :
    pair ∈ capturedPairs store ↔ store.documents[pair.1.shared.document.id]? = some pair.1.shared ∧
      (pair.1.shared.document.chunks[pair.1.chunk]?).bind (·.embedding) = some pair.2 := by
  rw [capturedPairs, mem_flatMap]
  constructor
  · rintro ⟨id, _, member⟩
    cases found : store.documents[id]? with
    | none => simp [found] at member
    | some shared =>
      rw [found, Option.map_some, Option.getD_some, mem_pairsOf] at member
      obtain ⟨rfl, held⟩ := member
      rw [sound.keyed id _ found]
      exact ⟨found, held⟩
  · rintro ⟨found, held⟩
    have embeds : embedded pair.1.shared.document = true := by
      obtain ⟨chunk, listed, own⟩ := Option.bind_eq_some_iff.mp held
      exact any_eq_true.mpr ⟨chunk, mem_of_getElem? listed, by rw [own]; rfl⟩
    have marked := (sound.marked pair.1.shared.document.id).mpr ⟨_, found, embeds⟩
    refine ⟨pair.1.shared.document.id, mem_map.mpr ⟨_, (Table.mem_toList _ _ _).mpr marked, rfl⟩, ?_⟩
    rw [found, Option.map_some, Option.getD_some, mem_pairsOf]
    exact ⟨rfl, held⟩

/-- Where a row stands among rows of one score. -/
def place (row : RowRef) : String ×ₗ Nat := toLex (row.shared.document.id, row.chunk)

theorem pairsOf_ascending (shared : Shared) : (pairsOf shared).Pairwise fun a b => place a.1 < place b.1 := by
  rw [pairsOf, pairwise_filterMap]
  have indices : (shared.document.chunks.zipIdx).Pairwise fun a b => a.2 < b.2 := by
    rw [← pairwise_map (f := snd) (R := (· < ·)), zipIdx_map_snd]
    exact pairwise_lt_range'
  refine indices.imp fun {a b} before => ?_
  rintro pair made pair' made'
  obtain ⟨_, _, rfl⟩ := Option.map_eq_some_iff.mp made
  obtain ⟨_, _, rfl⟩ := Option.map_eq_some_iff.mp made'
  exact Prod.Lex.toLex_lt_toLex.mpr (.inr ⟨rfl, before⟩)

theorem capturedPairs_ascending (sound : Sound dim store) :
    (capturedPairs store).Pairwise fun a b => place a.1 < place b.1 := by
  have ids : (store.embeddedDocuments.toList.map fst).Pairwise (· < ·) := by
    rw [pairwise_map]
    exact Std.ExtTreeMap.ordered_keys_toList.imp fun before => DocumentStore.lt_of_compare before
  have owner {id : String} {pair : RowRef × Embedding} (member : pair ∈ (store.documents[id]?.map pairsOf).getD []) :
      pair.1.shared.document.id = id := by
    cases found : store.documents[id]? with
    | none => simp [found] at member
    | some shared =>
      rw [found, Option.map_some, Option.getD_some, mem_pairsOf] at member
      rw [member.1]
      exact sound.keyed id shared found
  rw [capturedPairs, pairwise_flatMap]
  constructor
  · intro id _
    cases store.documents[id]? with
    | none => exact .nil
    | some shared => exact pairsOf_ascending shared
  · refine ids.imp fun {a b} before pair member pair' member' => ?_
    rw [place, place, owner member, owner member']
    exact Prod.Lex.toLex_lt_toLex.mpr (.inl before)

end Capture

section Rows

variable {α : Type} [LinearOrder α] [One α] [Neg α]

def pairHit (metric : Metric α) (query : List UInt64) (pair : RowRef × Embedding) : Hit α :=
  ⟨pair.1.shared, pair.1.chunk, cosine metric query pair.2⟩

/-- The captured rows with their scores. -/
def snapshotHits (metric : Metric α) (query : List UInt64) (snapshot : Snapshot) : List (Hit α) :=
  (snapshot.rows.zip snapshot.exact).map (pairHit metric query)

def fetched (metric : Metric α) (query : List UInt64) (snapshot : Snapshot) (count : Nat) : List (Hit α) :=
  (searchCanonical metric snapshot.exact query count).filterMap (toHit snapshot)

theorem insertionSort_congr {r s : ι → ι → Prop} [DecidableRel r] [DecidableRel s] {l : List ι}
    (same : ∀ a ∈ l, ∀ b ∈ l, r a b ↔ s a b) : l.insertionSort r = l.insertionSort s := by
  have mapped := map_insertionSort r s id l same
  rwa [map_id, map_id] at mapped

theorem map_key_sort [LinearOrder κ] (key : ι → κ) (l : List ι) :
    (l.insertionSort fun a b => key a ≤ key b).map key = (l.map key).insertionSort (· ≤ ·) :=
  map_insertionSort _ _ key l fun _ _ _ _ => Iff.rfl

/-- The order of the rows among equal scores. -/
def rowKey (hit : Nat × α) : αᵒᵈ ×ₗ Nat := toLex (OrderDual.toDual hit.2, hit.1)

omit [One α] [Neg α] in
theorem rowKey_injective : Function.Injective (rowKey (α := α)) := by
  rintro ⟨i, a⟩ ⟨j, b⟩ same
  cases same
  rfl

section Scan

variable {metric : Metric α} {query : List UInt64} {pairs : List (RowRef × Embedding)}

def numberedRow (metric : Metric α) (query : List UInt64) (entry : (RowRef × Embedding) × Nat) : Nat × α :=
  (entry.2, cosine metric query entry.1.2)

theorem rowKey_le_iff (metric : Metric α) (query : List UInt64) (ascending : pairs.Pairwise fun a b => place a.1 < place b.1) :
    ∀ a ∈ pairs.zipIdx, ∀ b ∈ pairs.zipIdx,
      rowKey (numberedRow metric query a) ≤ rowKey (numberedRow metric query b) ↔
        (pairHit metric query a.1).key ≤ (pairHit metric query b.1).key := by
  rintro ⟨a, i⟩ member ⟨b, j⟩ member'
  obtain ⟨inside, rfl⟩ := List.getElem?_eq_some_iff.mp (mk_mem_zipIdx_iff_getElem?.mp member)
  obtain ⟨inside', rfl⟩ := List.getElem?_eq_some_iff.mp (mk_mem_zipIdx_iff_getElem?.mp member')
  have order : i ≤ j ↔ place pairs[i].1 ≤ place pairs[j].1 := by
    constructor
    · intro le
      rcases Nat.lt_or_eq_of_le le with less | rfl
      · exact le_of_lt (pairwise_iff_getElem.mp ascending i j inside inside' less)
      · exact le_refl _
    · intro le
      by_contra less
      exact absurd le (not_le_of_gt (pairwise_iff_getElem.mp ascending j i inside' inside (by omega)))
  rw [rowKey, rowKey, Prod.Lex.toLex_le_toLex, Hit.key, Hit.key, Prod.Lex.toLex_le_toLex]
  exact or_congr Iff.rfl (and_congr Iff.rfl order)

theorem searchCanonical_eq (count : Nat) : searchCanonical metric (pairs.map snd) query count =
    ((pairs.zipIdx.insertionSort fun a b => rowKey (numberedRow metric query a) ≤ rowKey (numberedRow metric query b)).map
      (numberedRow metric query)).take (min count pairs.length) := by
  have candidates : ((pairs.map snd).zipIdx.map fun entry => (entry.2, cosine metric query entry.1)) =
      pairs.zipIdx.map (numberedRow metric query) := by
    rw [zipIdx_map, map_map]
    rfl
  have sorted := map_key_sort (fun entry => rowKey (numberedRow metric query entry)) pairs.zipIdx
  apply rowKey_injective.list_map
  rw [searchCanonical, candidates, length_map]
  refine (TopK.map_collect _ _ _).trans ?_
  rw [map_take, map_map, map_map]
  exact congrArg (List.take _) sorted.symm

theorem fetched_eq {snapshot : Snapshot} (rows : snapshot.rows = pairs.map fst)
    (exact : snapshot.exact = pairs.map snd) (ascending : pairs.Pairwise fun a b => place a.1 < place b.1)
    (count : Nat) : fetched metric query snapshot count =
      ((pairs.map (pairHit metric query)).insertionSort fun a b => a.key ≤ b.key).take (min count pairs.length) := by
  have resolve (entries : List ((RowRef × Embedding) × Nat)) (listed : ∀ entry ∈ entries, entry ∈ pairs.zipIdx) :
      (entries.map (numberedRow metric query)).filterMap (toHit snapshot) =
        entries.map fun entry => pairHit metric query entry.1 := by
    rw [filterMap_map, ← filterMap_eq_map]
    refine filterMap_congr fun entry member => ?_
    have held := mk_mem_zipIdx_iff_getElem?.mp (listed entry member)
    simp [toHit, numberedRow, rows, held, pairHit]
  have sorted : (pairs.zipIdx.insertionSort fun a b =>
        (pairHit metric query a.1).key ≤ (pairHit metric query b.1).key).map (fun entry => pairHit metric query entry.1) =
      (pairs.map (pairHit metric query)).insertionSort fun a b => a.key ≤ b.key := by
    have whole : pairs.map (pairHit metric query) = pairs.zipIdx.map fun entry => pairHit metric query entry.1 := by
      conv_lhs => rw [← zipIdx_map_fst 0 pairs, map_map]
      rfl
    rw [whole]
    exact map_insertionSort _ _ _ _ fun _ _ _ _ => Iff.rfl
  rw [fetched, exact, searchCanonical_eq, ← map_take, resolve, insertionSort_congr (rowKey_le_iff metric query ascending),
    map_take, sorted]
  intro entry member
  exact (mem_insertionSort _).mp (mem_of_mem_take member)

end Scan

section Live

variable {dim : Nat} {store : Store} {metric : Metric α} {query : List UInt64}

theorem scored_eq (metric : Metric α) (query : List UInt64) (shared : Shared) :
    scored metric query shared = (pairsOf shared).map (pairHit metric query) := by
  rw [scored, pairsOf, map_filterMap]
  refine filterMap_congr fun entry _ => ?_
  cases entry.1.embedding <;> rfl

theorem mem_liveHits (sound : Sound dim store) :
    hit ∈ liveHits metric query store ↔ store.documents[hit.shared.document.id]? = some hit.shared ∧
      ∃ embedding, (hit.shared.document.chunks[hit.chunk]?).bind (·.embedding) = some embedding ∧
        hit.score = cosine metric query embedding := by
  rw [liveHits, mem_flatMap]
  constructor
  · rintro ⟨shared, member, listed⟩
    rw [scored_eq, mem_map] at listed
    obtain ⟨pair, own, rfl⟩ := listed
    obtain ⟨rfl, held⟩ := mem_pairsOf.mp own
    exact ⟨(mem_values _ sound).mp member, pair.2, held, rfl⟩
  · rintro ⟨found, embedding, held, score⟩
    refine ⟨hit.shared, (mem_values _ sound).mpr found, ?_⟩
    rw [scored_eq, mem_map]
    refine ⟨(⟨hit.shared, hit.chunk⟩, embedding), mem_pairsOf.mpr ⟨rfl, held⟩, ?_⟩
    rw [pairHit, ← score]

omit [One α] [Neg α] in
theorem key_eq {a b : Hit α} (same : a.key = b.key) :
    a.score = b.score ∧ a.shared.document.id = b.shared.document.id ∧ a.chunk = b.chunk := by
  have parts := mk.inj same
  have places := mk.inj parts.2
  exact ⟨parts.1, places.1, places.2⟩

theorem key_injective (sound : Sound dim store) {a b : Hit α} (member : a ∈ liveHits metric query store)
    (member' : b ∈ liveHits metric query store) (same : a.key = b.key) : a = b := by
  obtain ⟨found, _⟩ := (mem_liveHits sound).mp member
  obtain ⟨found', _⟩ := (mem_liveHits sound).mp member'
  obtain ⟨score, id, chunk⟩ := key_eq same
  rw [id, found'] at found
  cases a
  cases b
  simp_all

theorem liveHits_distinct (sound : Sound dim store) : ((liveHits metric query store).map Hit.key).Nodup := by
  have places : (liveHits metric query store).Pairwise fun a b =>
      (a.shared.document.id, a.chunk) ≠ (b.shared.document.id, b.chunk) := by
    rw [liveHits, pairwise_flatMap]
    have own {shared : Shared} {hit : Hit α} (member : hit ∈ scored metric query shared) : hit.shared = shared := by
      rw [scored_eq, mem_map] at member
      obtain ⟨pair, listed, rfl⟩ := member
      exact (mem_pairsOf.mp listed).1
    constructor
    · intro shared _
      rw [scored_eq, pairwise_map]
      refine (pairsOf_ascending shared).imp fun {a b} before same => ?_
      have level : place a.1 = place b.1 := congrArg toLex same
      exact lt_irrefl (place b.1) (level ▸ before)
    · refine (pairwise_map.mp (values_distinct sound)).imp fun {a b} apart hit member hit' member' same => ?_
      rw [own member, own member'] at same
      exact apart (congrArg fst same)
  rw [List.Nodup, pairwise_map]
  exact places.imp fun apart same => apart (ext (key_eq same).2.1 (key_eq same).2.2)

omit [LinearOrder α] [One α] [Neg α] in
theorem holds_iff (sound : Sound dim store) (grown : heap <+: store.heap) (admitted : Admitted dim heap shared) :
    store.holds shared = true ↔ store.documents[shared.document.id]? = some shared := by
  rw [Store.holds, Store.get]
  cases found : store.documents[shared.document.id]? with
  | none => simp
  | some live =>
    rw [Option.any_some, Shared.ptrEq, beq_iff_eq, Option.some.injEq]
    constructor
    · exact (sound.admitted _ _ found).same (admitted.grow grown)
    · rintro rfl
      rfl

end Live

end Rows

end Warm.VectorSnapshot
