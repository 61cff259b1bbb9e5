import Warm.VectorSnapshotSearch

/-! The generic scan ranks the nearest live chunks, and the snapshot search against it. -/
namespace Warm.VectorSnapshot

open Ranking List

section Scan

variable {α β : Type} [LinearOrder α] [LinearOrder β]

theorem normalized_lt (blend : Blend α β) (above : low ≤ a) (below : b ≤ high) (less : a < b) :
    blend.normalized low high a < blend.normalized low high b := by
  have wide : low < high := lt_of_le_of_lt above (lt_of_lt_of_le less below)
  rw [Blend.normalized, Blend.normalized, if_pos wide, if_pos wide]
  exact blend.increasing low high wide less

theorem score_le {a b : Hit α} (le : a.key ≤ b.key) : b.score ≤ a.score := by
  rcases Prod.Lex.le_iff.mp le with less | ⟨level, _⟩
  · exact le_of_lt (OrderDual.ofDual_lt_ofDual.mpr less)
  · exact le_of_eq (congrArg OrderDual.ofDual level).symm

variable [One α] [Neg α] {metric : Metric α} {query : List UInt64} {dim : Nat} {store : Store}

omit [One α] [Neg α] in
theorem fused_take (blend : Blend α β) (k : Nat) {semantic : List (Hit α)}
    (sorted : semantic.Pairwise fun a b => a.key ≤ b.key) :
    (topRanked (fun entry : Hit α × β =>
        (toLex (OrderDual.toDual entry.2, toLex (entry.1.shared.document.id, entry.1.chunk)) : βᵒᵈ ×ₗ (String ×ₗ Nat)))
      k (match semantic.head?, semantic.getLast? with
        | some first, some last => semantic.map fun hit => (hit, blend.normalized last.score first.score hit.score)
        | _, _ => [])).map Prod.fst = semantic.take k := by
  cases semantic with
  | nil => simp [topRanked]
  | cons first rest =>
    obtain ⟨last, ends⟩ : ∃ last, (first :: rest).getLast? = some last := ⟨_, getLast?_eq_some_getLast (by simp)⟩
    have lowest : ∀ hit ∈ first :: rest, last.score ≤ hit.score := by
      intro hit member
      obtain ⟨before, whole⟩ := getLast?_eq_some_iff.mp ends
      rw [whole] at member sorted
      rcases mem_append.mp member with inside | own
      · exact score_le ((pairwise_append.mp sorted).2.2 hit inside last (by simp))
      · rw [mem_singleton.mp own]
    have highest : ∀ hit ∈ first :: rest, hit.score ≤ first.score :=
      forall_mem_cons.mpr ⟨le_refl _, fun _ inside => score_le (rel_of_pairwise_cons sorted inside)⟩
    rw [ends]
    dsimp only [head?_cons]
    -- the blended list is already in the order it is sorted by
    rw [topRanked, List.Pairwise.insertionSort_eq, ← map_take, map_map]
    · exact map_id _
    · rw [pairwise_map]
      refine sorted.imp_of_mem fun {a b} member member' le => ?_
      rw [Prod.Lex.toLex_le_toLex]
      rcases Prod.Lex.le_iff.mp le with less | ⟨level, order⟩
      · exact .inl (OrderDual.toDual_lt_toDual.mpr
          (normalized_lt blend (lowest b member') (highest a member) (OrderDual.ofDual_lt_ofDual.mpr less)))
      · have score : a.score = b.score := congrArg OrderDual.ofDual level
        exact .inr ⟨by rw [score], order⟩

theorem executeChunks_eq (blend : Blend α β) (k limit : Nat) (enough : k ≤ limit) (minimum : α) :
    executeChunks metric blend store query k limit minimum = nearest metric query store k minimum := by
  let eligible := (liveHits metric query store).filter fun hit => minimum ≤ hit.score
  have sorted : (topRanked Hit.key limit eligible).Pairwise fun a b => a.key ≤ b.key :=
    (pairwise_insertionSort (fun a b : Hit α => a.key ≤ b.key) eligible).sublist (take_sublist _ _)
  refine (fused_take blend k sorted).trans ?_
  rw [topRanked, take_take, Nat.min_eq_left enough]
  rfl

omit [One α] [Neg α] in
theorem clamp_clamp [One α] [Neg α] (value : α) : clamp (clamp value) = clamp value := by
  unfold clamp
  rcases le_total (-1 : α) 1 with le | ge
  · rw [min_eq_right (max_le le (min_le_left _ _))]
    simp
  · have low : min (1 : α) value ≤ -1 := le_trans (min_le_left _ _) ge
    rw [max_eq_left low, max_eq_left (min_le_of_left_le ge)]

/-- What tells a result from the others: its document, its chunk and its score. -/
def Hit.placed (hit : Hit α) : StoredDocument × Nat × α := (hit.shared.document, hit.chunk, hit.score)

def DocumentResult.placed (result : DocumentResult α) : StoredDocument × Nat × α :=
  (result.document, result.chunk, result.score)

theorem placed_injective (sound : Sound dim store) {xs ys : List (Hit α)} (own : ∀ hit ∈ xs, hit ∈ liveHits metric query store)
    (own' : ∀ hit ∈ ys, hit ∈ liveHits metric query store) (same : xs.map Hit.placed = ys.map Hit.placed) : xs = ys := by
  refine map_key_inj sound own own' ?_
  have keys (hits : List (Hit α)) : hits.map Hit.key =
      (hits.map Hit.placed).map fun place => toLex (OrderDual.toDual place.2.2, toLex (place.1.id, place.2.1)) := by
    rw [map_map]
    rfl
  rw [keys, keys, same]

theorem readVectorHits_ok {texts : Texts} {hits : List (Hit α)} {results : List (DocumentResult α)}
    (live : ∀ hit ∈ hits, clamp hit.score = hit.score) (done : readVectorHits texts hits = .ok (some results)) :
    hits.mapM (readHit texts) = .ok results ∧ results.map DocumentResult.placed = hits.map Hit.placed := by
  induction hits generalizing results with
  | nil =>
    cases done
    exact ⟨rfl, rfl⟩
  | cons hit hits ih =>
    rw [readVectorHits] at done
    split at done
    next => cases done
    cases read : texts.read hit.shared hit.chunk with
    | error message =>
      rw [toResult, read] at done
      cases done
    | ok text =>
      rw [toResult, read, live hit (by simp)] at done
      cases rest : readVectorHits texts hits with
      | error message =>
        rw [rest] at done
        cases done
      | ok others =>
        rw [rest] at done
        cases others with
        | none => cases done
        | some others =>
          cases done
          obtain ⟨mapped, placed⟩ := ih (forall_mem_cons.mp live).2 rest
          constructor
          · rw [mapM_cons, readHit, read, mapped]
            rfl
          · rw [map_cons, map_cons, placed]
            rfl

theorem liveHits_clamped {hit : Hit α} (sound : Sound dim store) (live : hit ∈ liveHits metric query store) :
    clamp hit.score = hit.score := by
  obtain ⟨_, embedding, _, score⟩ := (mem_liveHits sound).mp live
  rw [score, cosine, clamp_clamp]

end Scan

section Exact

variable {α β : Type} [LinearOrder α] [LinearOrder β] [One α] [Neg α]
variable {metric : Metric α} {query : List UInt64} {dim : Nat} {earlier store : Store} {snapshot : Snapshot}

theorem rankVectorSnapshot_ok (captured : Captured earlier dim snapshot) (sound : Sound dim earlier)
    (sound' : Sound dim store) (later : Later earlier store) {narrow : Embedding} {k : Nat} {options : Options α}
    {ranked : List (Hit α)}
    (done : rankVectorSnapshot metric snapshot store narrow query k options = .ok (some ranked)) :
    ∃ found, Finds metric query snapshot store k found ∧
      ranked = ((found.insertionSort fun a b => a.key ≤ b.key).filter fun hit => options.minScore ≤ hit.score).take k := by
  rw [rankVectorSnapshot] at done
  split at done
  next => cases done
  split at done
  next => cases done
  split at done
  next => cases done
  split at done
  next => cases done
  split at done
  next => cases done
  dsimp only at done
  split at done
  next current =>
    cases done
    have generation : store.generation = earlier.generation := by
      rw [staleness] at current
      split at current
      next same => exact same.trans captured.generation
      next => omega
    exact ⟨_, finds_current captured sound sound' (later.same generation) k, rfl⟩
  next =>
    split at done
    next => cases done
    next found pushed =>
      split at done
      next => cases done
      cases done
      exact ⟨_, finds_stale captured sound sound' later pushed, rfl⟩

/-- An answered search gives the nearest live chunks, the list of the generic scan, exactly when the
fetched rows and the chunks written since cover them. -/
theorem search_exact_iff (metric : Metric α) (blend : Blend α β) (texts : Texts) (dim generation : Nat)
    (before after : List (Mutation dim)) (capture : VectorCapture)
    (captured : captureVectorRows ((Store.opened generation).run before) dim = .ok (some capture))
    (narrow : Embedding) (query : List UInt64) (k : Nat) (options : Options α) (results : List (DocumentResult α))
    (answered : searchVectorSnapshot metric texts (buildVectorSnapshot capture)
      (((Store.opened generation).run before).run after) narrow query k options = .ok (some results)) :
    (results.map DocumentResult.placed =
        (nearest metric query (((Store.opened generation).run before).run after) k options.minScore).map Hit.placed ∧
      searchDocuments metric blend texts (((Store.opened generation).run before).run after) query k options.minScore =
        .ok results) ↔
      Covers metric query (buildVectorSnapshot capture) (((Store.opened generation).run before).run after) k
        options.minScore := by
  have opened : Sound dim (Store.opened generation) := sound_opened generation
  obtain ⟨sound, _⟩ := run_keeps opened before
  obtain ⟨sound', later⟩ := run_keeps sound after
  generalize (Store.opened generation).run before = earlier at *
  generalize earlier.run after = store at *
  have covers := captured_build captured
  rw [searchVectorSnapshot] at answered
  split at answered
  next => cases answered
  next => cases answered
  next ranked done =>
    obtain ⟨found, finds, same⟩ := rankVectorSnapshot_ok covers sound sound' later done
    have paired : (buildVectorSnapshot capture).exact.length = (buildVectorSnapshot capture).rows.length := by
      rw [covers.exact, covers.rows, length_map, length_map]
    have live : ∀ hit ∈ ranked, hit ∈ liveHits metric query store := by
      intro hit member
      rw [same] at member
      have kept := (mem_filter.mp (mem_of_mem_take member)).1
      exact finds.live hit ((mem_insertionSort _).mp kept)
    obtain ⟨read, placed⟩ :=
      readVectorHits_ok (fun hit member => liveHits_clamped sound' (live hit member)) answered
    rw [← ranked_eq_nearest_iff sound' finds (fun hit => captured_live_iff covers sound sound' later) paired, ← same,
      placed, searchDocuments, executeChunks_eq blend k _ (Nat.le_max_left _ _)]
    constructor
    · exact fun whole => placed_injective sound' live (fun hit => mem_nearest) whole.1
    · intro equal
      rw [← equal]
      exact ⟨rfl, read⟩

end Exact

instance {α : Type} [LinearOrder α] [One α] [Neg α] (metric : Metric α) (query : List UInt64) (snapshot : Snapshot)
    (store : Store) (k : Nat) (minScore : α) : Decidable (Covers metric query snapshot store k minScore) :=
  inferInstanceAs (Decidable (∀ hit ∈ snapshotHits metric query snapshot, _ → _ → _ → _))

section Examples

def sampleChunk (embedding : Embedding) : StoredChunk where
  id := ""
  text := none
  startByte := 0
  endByte := 0
  vector := ⟨0, []⟩
  embedding := some embedding
  terms := ⟨[], none, no_terms_sorted, no_positions_checked⟩
  wordCount := 0
  stemmed := false
  vectorState := .encoded

def sample (id : String) (values : List UInt32) : Prepared 1 where
  document := ⟨id, none, "", ⟨[]⟩, values.map fun value => sampleChunk [value]⟩
  fits chunk member embedding found := by
    obtain ⟨value, _, rfl⟩ := mem_map.mp member
    cases found
    rfl

def sampleMetric : Metric ℚ where
  dot _ embedding := ((embedding.headD 0).toNat : ℚ) - 1
  dot32 _ embedding := ((embedding.headD 0).toNat : ℚ) - 1

def unread : Texts := ⟨fun _ _ => false, fun _ _ => .ok none⟩

def sampleBefore : List (Mutation 1) :=
  [.insert (sample "a" (List.replicate 10 2)) fun _ => false, .insert (sample "b" [1]) fun _ => false]

/-- One replacement kills ten rows and fills their places with worse ones. -/
def sampleAfter : List (Mutation 1) := [.insert (sample "a" (List.replicate 10 0)) fun _ => false]

def sampleEarlier : Store := (Store.opened 0).run sampleBefore

def sampleCapture : VectorCapture where
  generation := 2
  dim := 1
  rows := (List.range 10).map (⟨⟨0, (sample "a" (List.replicate 10 2)).document⟩, ·⟩) ++
    [⟨⟨1, (sample "b" [1]).document⟩, 0⟩]
  embeddings := List.replicate 10 [2] ++ [[1]]

/-- The ten rows fetched are dead, the chunks written since make up the number, and the live row that
was not fetched is missed. -/
theorem search_misses_live :
    captureVectorRows sampleEarlier 1 = .ok (some sampleCapture) ∧
      searchVectorSnapshot sampleMetric unread (buildVectorSnapshot sampleCapture) (sampleEarlier.run sampleAfter) [0] [0] 1
          ⟨1, -1⟩ = .ok (some [⟨(sample "a" (List.replicate 10 0)).document, 0, none, -1, some (-1)⟩]) ∧
      (nearest sampleMetric [0] (sampleEarlier.run sampleAfter) 1 (-1)).map Hit.placed =
        [((sample "b" [1]).document, 0, 0)] := by
  refine ⟨rfl, ?_, ?_⟩
  · decide +kernel
  · decide +kernel

def sampleRemoval : List (Mutation 1) := [.remove "b" fun _ => false]

theorem search_exact_iff_removed :
    [(⟨(sample "a" (List.replicate 10 2)).document, 0, none, 1, some 1⟩ : DocumentResult ℚ)].map DocumentResult.placed =
        (nearest sampleMetric [0] (sampleEarlier.run sampleRemoval) 1 (-1)).map
          Hit.placed ∧
      searchDocuments sampleMetric (Blend.exact ℚ) unread
          (sampleEarlier.run sampleRemoval) [0] 1 (-1) =
        .ok [⟨(sample "a" (List.replicate 10 2)).document, 0, none, 1, some 1⟩] :=
  (search_exact_iff sampleMetric (Blend.exact ℚ) unread 1 0 sampleBefore sampleRemoval sampleCapture rfl
    [0] [0] 1 ⟨1, -1⟩ _ (by decide +kernel)).mpr (by decide +kernel)

end Examples

end Warm.VectorSnapshot
