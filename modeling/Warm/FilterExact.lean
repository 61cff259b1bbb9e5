import Warm.FilterSearch

/-! The filtered index is exact. Whatever path a query takes, what it returns are the nearest of the
matching points it scored, with their distances; with a target of all points it scores them all. -/
namespace Warm.Filter

open List hiding all below length min range sum dedup

open FilteredIndex

variable {data : List UInt8} {dim : Nat} {indptr ids deleted : List Nat} {index : FilteredIndex}
  (tables : Tables data dim indptr ids index) (kernels : Kernels) {q : List Int} (query : Row index.stride q)
  {others : List Nat}

def hits (index : FilteredIndex) (q : List Int) (found : List Nat) : List Hit :=
  found.map fun i => hitOf q (index.entry i)

theorem hits_append (index : FilteredIndex) (q : List Int) (left right : List Nat) :
    hits index q (left ++ right) = hits index q left ++ hits index q right := map_append ..

include tables

theorem Tables.label (inside : l < index.labels) : Label index l where
  ascending := tables.posting l inside ▸ members_ascending tables.few l
  bits := tables.bitset l inside

theorem Tables.posting_lt (inside : l < index.labels) (member : i ∈ index.posting l) : i < index.n := by
  rw [tables.posting l inside, mem_members tables.few] at member
  exact member.1

theorem Tables.row_eq (inside : i < index.n) : index.rows.getD i [] = padded index.stride (chunk data dim i) := by
  simp [tables.rows, inside]

theorem Tables.sound (inside : i < index.n) : Sound index.stride (index.entry i) := by
  have width := chunk_length tables.whole inside
  constructor
  · show Row index.stride (index.rows.getD i [])
    rw [tables.row_eq inside]
    exact row_padded (by rw [width]; exact tables.wide)
  · have there : i < index.rows.length := by
      rw [tables.rows, length_map, length_range]
      exact inside
    simp [FilteredIndex.entry, tables.norms, there]

include query

theorem score_entries (k : Nat) (seen : List Hit) (inside : ∀ i ∈ found, i < index.n) :
    score kernels q q.sum k (found.map index.entry) (best k seen) = .ok (best k (seen ++ hits index q found)) := by
  have scored := score_ok tables.narrow query kernels k seen (by
    intro entry member
    obtain ⟨i, within, rfl⟩ := mem_map.mp member
    exact tables.sound (inside i within))
  rw [scored, map_map, hits]
  rfl

theorem scoreMatches_ok (k : Nat) (seen : List Hit) (cursors : List Nat) (inside : ∀ i ∈ items, i < index.n)
    (kept : ∀ i ∈ batch, i < index.n) :
    index.scoreMatches kernels q q.sum k others items cursors batch (best k seen) =
      .ok (best k (seen ++ hits index q (batch ++ index.sift others id items cursors))) := by
  induction items generalizing seen cursors batch with
  | nil =>
    rw [scoreMatches, sift, append_nil]
    exact score_entries tables kernels query k seen kept
  | cons item items ih =>
    have later : ∀ i ∈ items, i < index.n := (forall_mem_cons.mp inside).2
    rw [scoreMatches, sift]
    by_cases gone : index.isDeleted item = true
    · rw [if_pos gone, ih seen cursors later kept]
      simp [gone]
    rw [if_neg gone]
    dsimp only [id]
    rw [if_neg gone]
    generalize index.holds item others cursors = result
    obtain ⟨held, moved⟩ := result
    cases held with
    | false => exact ih seen moved later kept
    | true =>
      have more : ∀ i ∈ batch ++ [item], i < index.n :=
        forall_mem_append.mpr ⟨kept, forall_mem_singleton.mpr (inside item mem_cons_self)⟩
      have together : batch ++ item :: index.sift others id items moved =
          batch ++ [item] ++ index.sift others id items moved := by simp
      rw [if_pos rfl, if_pos rfl, together]
      by_cases full : (batch ++ [item]).length = 128
      · rw [if_pos full, score_entries tables kernels query k seen more]
        dsimp only
        rw [ih _ moved later (by simp), nil_append, append_assoc, ← hits_append]
      · rw [if_neg full]
        exact ih seen moved later more

def matching (index : FilteredIndex) (others points : List Nat) : List Nat := points.filter (matched index others)

variable {rarest : Nat} (rare : rarest < index.labels) (sound : ∀ l ∈ others, Label index l)

omit tables query in
theorem sift_matching (sound : ∀ l ∈ others, Label index l) (ascending : points.Pairwise (· < ·)) :
    index.sift others id points (List.replicate others.length 0) = matching index others points :=
  sift_zero sound (by rwa [map_id])

omit tables query in
theorem matching_all (deletes : Deletes deleted index) (whole : index.live = index.n)
    (inside : ∀ i ∈ points, i < index.n) : matching index [] points = points := by
  have full : ((List.range index.n).filter fun i => i ∉ deleted).length = (List.range index.n).length := by
    rw [← deletes.live, whole, length_range]
  have kept := length_filter_eq_length_iff.mp full
  refine filter_eq_self.mpr fun i member => ?_
  have alive : i ∉ deleted := of_decide_eq_true (kept i (mem_range.mpr (inside i member)))
  simp [matched, deletes.bits i, alive]

include rare sound

theorem scoreIntersection_ok (deletes : Deletes deleted index) (k : Nat) :
    index.scoreIntersection kernels q q.sum k rarest others [] =
      .ok (best k (hits index q (matching index others (index.posting rarest)))) := by
  have inside : ∀ i ∈ index.posting rarest, i < index.n := fun i member => tables.posting_lt rare member
  have ascending := (tables.label rare).ascending
  have empty : ([] : List Hit) = best k [] := by simp [best]
  unfold scoreIntersection
  by_cases plain : others = [] ∧ index.live = index.n
  · obtain ⟨rfl, whole⟩ := plain
    rw [if_pos ⟨rfl, whole⟩, empty, score_entries tables kernels query k [] inside, nil_append,
      matching_all deletes whole inside]
  · rw [if_neg plain, empty, scoreMatches_ok tables kernels query k [] _ inside (by simp), nil_append,
      nil_append, sift_matching sound ascending]

variable {ivf : LabelIvf} (inverted : Inverted index.stride index.rows index.norms (index.posting rarest) ivf)

include inverted

omit query sound in
theorem list_ascending (listed : c < ivf.centroids.length) : (ivf.list c).Pairwise (· < ·) :=
  (tables.label rare).ascending.sublist (inverted.ordered c listed)

omit query sound in
theorem matching_list_lt (listed : c < ivf.centroids.length) :
    ∀ i ∈ matching index others (ivf.list c), i < index.n := fun _ member =>
  tables.posting_lt rare ((inverted.ordered c listed).subset (mem_filter.mp member).1)

omit tables query rare sound in
theorem positions_map (listed : c < ivf.centroids.length) :
    (List.range' (ivf.offsets.getD c 0) (ivf.offsets.getD (c + 1) 0 - ivf.offsets.getD c 0)).map
      (fun pos => ivf.members.getD pos 0) = ivf.list c := by
  obtain ⟨rising, most⟩ := inverted.within c listed
  apply ext_getElem
  · rw [LabelIvf.list, slice_length most, length_map, length_range']
  · intro j left right
    rw [length_map, length_range'] at left
    have there := getD_slice (p := ivf.members) left
    rw [← LabelIvf.list, getD_eq_getElem _ _ right] at there
    rw [there, getElem_map, getElem_range', Nat.one_mul]

omit tables query rare sound in
theorem copiedEntry_eq (copied : ivf.rows ≠ []) (inside : pos < ivf.members.length) :
    copiedEntry ivf pos = index.entry (ivf.members.getD pos 0) := by
  rcases inverted.copies with none | ⟨rows, norms⟩
  · exact absurd none copied
  · simp [copiedEntry, FilteredIndex.entry, rows, norms, inside]

theorem score_copied (copied : ivf.rows ≠ []) (k : Nat) (seen : List Hit) (listed : c < ivf.centroids.length) :
    let batch := index.sift others (fun pos => ivf.members.getD pos 0)
      (List.range' (ivf.offsets.getD c 0) (ivf.offsets.getD (c + 1) 0 - ivf.offsets.getD c 0))
      (List.replicate others.length 0)
    batch.length = (matching index others (ivf.list c)).length ∧
      score kernels q q.sum k (batch.map (copiedEntry ivf)) (best k seen) =
        .ok (best k (seen ++ hits index q (matching index others (ivf.list c)))) := by
  have points := positions_map inverted listed
  have most := (inverted.within c listed).2
  have picked := sift_zero sound
    (by rw [points]; exact list_ascending tables rare inverted listed)
  have found : matching index others (ivf.list c) = ((List.range' (ivf.offsets.getD c 0)
      (ivf.offsets.getD (c + 1) 0 - ivf.offsets.getD c 0)).filter fun pos =>
        matched index others (ivf.members.getD pos 0)).map fun pos => ivf.members.getD pos 0 := by
    rw [← points, matching, filter_map]
    rfl
  rw [picked]
  refine ⟨by rw [found, length_map], ?_⟩
  have entries : ((List.range' (ivf.offsets.getD c 0) (ivf.offsets.getD (c + 1) 0 - ivf.offsets.getD c 0)).filter
      fun pos => matched index others (ivf.members.getD pos 0)).map (copiedEntry ivf) =
        (matching index others (ivf.list c)).map index.entry := by
    rw [found, map_map]
    apply map_congr_left
    intro pos member
    have range := mem_range'_1.mp (mem_filter.mp member).1
    exact copiedEntry_eq inverted copied (by omega)
  rw [entries]
  exact score_entries tables kernels query k seen (matching_list_lt tables rare inverted listed)

theorem probe_ok (k : Nat) (params : SearchParams) (seen : List Nat)
    (listed : ∀ list ∈ lists, (ofLex list).2 < ivf.centroids.length) (probed : Nat) (counted : scored ≤ seen.length) :
    ∃ done, done <+: lists ∧
      index.probe kernels ivf q q.sum k others params lists probed scored (best k (hits index q seen)) =
        .ok (best k (hits index q (seen ++ done.flatMap fun list => matching index others (ivf.list (ofLex list).2)))) ∧
      (done = lists ∨ params.target ≤
        (seen ++ done.flatMap fun list => matching index others (ivf.list (ofLex list).2)).length) := by
  induction lists generalizing seen probed scored with
  | nil => exact ⟨[], prefix_refl [], by simp [probe], .inl rfl⟩
  | cons list lists ih =>
    rw [probe]
    by_cases enough : scored ≥ params.target ∧ probed ≥ params.minLists
    · rw [if_pos enough]
      refine ⟨[], nil_prefix, by simp, .inr ?_⟩
      rw [flatMap_nil, append_nil]
      omega
    rw [if_neg enough]
    dsimp only
    have own := listed list mem_cons_self
    have grown : scored + (matching index others (ivf.list (ofLex list).2)).length ≤
        (seen ++ matching index others (ivf.list (ofLex list).2)).length := by
      rw [length_append]
      omega
    obtain ⟨done, before, ran, reason⟩ := ih (seen ++ matching index others (ivf.list (ofLex list).2))
      (forall_mem_cons.mp listed).2 (probed + 1) grown
    have flat : seen ++ (list :: done).flatMap (fun list => matching index others (ivf.list (ofLex list).2)) =
        seen ++ matching index others (ivf.list (ofLex list).2) ++
          done.flatMap fun list => matching index others (ivf.list (ofLex list).2) := by simp
    refine ⟨list :: done, (prefix_cons_inj list).mpr before, ?_, ?_⟩
    · rw [flat, ← ran, hits_append]
      by_cases copied : ivf.rows = []
      · rw [if_pos copied, ← LabelIvf.list, sift_matching sound (list_ascending tables rare inverted own),
          score_entries tables kernels query k _ (matching_list_lt tables rare inverted own)]
      · obtain ⟨size, added⟩ := score_copied tables kernels query rare sound inverted copied k (hits index q seen) own
        rw [if_neg copied, size, added]
    · rw [flat]
      exact reason.imp_left fun all => by rw [all]

omit query sound inverted in
theorem matching_length_le : (matching index others (index.posting rarest)).length ≤ index.n := by
  have short : (index.posting rarest).length ≤ index.n := by
    rw [tables.posting rarest rare]
    exact members_length_le tables.few rarest
  exact (length_filter_le _ _).trans short

omit tables query rare sound in
theorem flatMap_matching {order : List Hit} (all : (order.map fun list => (ofLex list).2).Perm
    (List.range ivf.centroids.length)) :
    (order.flatMap fun list => matching index others (ivf.list (ofLex list).2)).Perm
      (matching index others (index.posting rarest)) := by
  have listwise : (order.flatMap fun list => matching index others (ivf.list (ofLex list).2)) =
      (order.map fun list => (ofLex list).2).flatMap fun c => matching index others (ivf.list c) := by
    rw [flatMap_map]
  have pointwise : ((List.range ivf.centroids.length).flatMap fun c => matching index others (ivf.list c)) =
      matching index others ((List.range ivf.centroids.length).flatMap ivf.list) := by
    rw [matching, filter_flatMap]
    rfl
  rw [listwise]
  refine (all.flatMap_right _).trans ?_
  rw [pointwise]
  exact inverted.whole.filter _

/-- A path of the search scores some of the matching points, and all of them with a target of all
points. -/
def Finds (index : FilteredIndex) (q : List Int) (k rarest : Nat) (others : List Nat) (params : SearchParams)
    (result : Except Fault (List Hit)) : Prop :=
  ∃ found, found.Subperm (matching index others (index.posting rarest)) ∧
    result = .ok (best k (hits index q found)) ∧
    (index.n ≤ params.target → found.Perm (matching index others (index.posting rarest)))

theorem searchIvf_finds (k : Nat) (params : SearchParams) :
    Finds index q k rarest others params (index.searchIvf kernels ivf q q.sum k others params []) := by
  have keyed := keysOf_ok tables.narrow kernels query inverted.trained.sound
  have empty : ([] : List Hit) = best k (hits index q []) := by simp [best, hits]
  unfold searchIvf
  rw [keyed]
  dsimp only
  have numbers : ((centroidEntries ivf.centroids ivf.centroidNorms).map (hitOf q)).map (fun list => (ofLex list).2) =
      List.range ivf.centroids.length := by
    rw [centroidEntries, map_map, map_map]
    exact map_id _
  generalize (centroidEntries ivf.centroids ivf.centroidNorms).map (hitOf q) = keys at numbers
  have order : ((keys.mergeSort fun a b => decide (a ≤ b)).map fun list => (ofLex list).2).Perm
      (List.range ivf.centroids.length) := by
    rw [← numbers]
    exact (mergeSort_perm keys _).map _
  generalize keys.mergeSort (fun a b => decide (a ≤ b)) = sorted at order
  have listed : ∀ list ∈ sorted, (ofLex list).2 < ivf.centroids.length := by
    intro list member
    exact mem_range.mp (order.subset (mem_map_of_mem member))
  obtain ⟨done, before, ran, reason⟩ :=
    probe_ok tables kernels query rare sound inverted k params [] listed 0 (Nat.zero_le _)
  rw [← empty, nil_append] at ran
  rw [nil_append] at reason
  have all : (sorted.flatMap fun list => matching index others (ivf.list (ofLex list).2)).Perm
      (matching index others (index.posting rarest)) := flatMap_matching inverted order
  have part : (done.flatMap fun list => matching index others (ivf.list (ofLex list).2)).Subperm
      (matching index others (index.posting rarest)) := by
    obtain ⟨rest, rfl⟩ := before
    rw [flatMap_append] at all
    exact (sublist_append_left _ _).subperm.trans all.subperm
  refine ⟨_, part, ran, fun everything => ?_⟩
  rcases reason with rfl | met
  · exact all
  · have most : (matching index others (index.posting rarest)).length ≤ index.n := matching_length_le tables rare
    exact part.perm_of_length_le (by omega)

omit inverted

theorem route_finds (deletes : Deletes deleted index) (k : Nat) (params : SearchParams) :
    Finds index q k rarest others params (index.route kernels q q.sum k rarest others params) := by
  have brute : Finds index q k rarest others params (index.scoreIntersection kernels q q.sum k rarest others []) :=
    ⟨_, .refl _, scoreIntersection_ok tables kernels query rare sound deletes k, fun _ => .refl _⟩
  unfold route
  cases slot : index.ivfSlot.getD rarest none with
  | none => exact brute
  | some place =>
    dsimp only
    split
    · exact brute
    split
    · have ascending := (tables.label rare).ascending
      have empty : ([] : List Hit) = best k [] := by simp [best]
      refine ⟨_, .refl _, ?_, fun _ => .refl _⟩
      have inside : ∀ i ∈ matching index others (index.posting rarest), i < index.n := fun i member =>
        tables.posting_lt rare (mem_filter.mp member).1
      rw [sift_matching sound ascending, empty, score_entries tables kernels query k [] inside, nil_append]
    · exact searchIvf_finds tables kernels query rare sound (tables.inverted rarest rare _ slot) k params

omit tables query rare sound

theorem mem_dedup (l : List Nat) (x : Nat) : x ∈ dedup l ↔ x ∈ l := by
  induction l using dedup.induct with
  | case1 a rest ih =>
    rw [dedup, if_pos rfl, ih]
    simp
  | case2 a b rest apart ih => rw [dedup, if_neg apart, mem_cons, ih, ← mem_cons]
  | case3 l short =>
    rw [dedup]
    exact short

def points (n : Nat) (indptr ids deleted wanted : List Nat) : List Nat :=
  (List.range n).filter fun i => i ∉ deleted ∧ ∀ l ∈ wanted, l ∈ pointLabels indptr ids i

/-- The live points with all the labels, each behind its squared distance from the query. -/
def answers (data : List UInt8) (dim : Nat) (indptr ids deleted : List Nat) (row : List UInt8) (wanted : List Nat) :
    List (Nat ×ₗ Nat) :=
  (points (data.length / dim) indptr ids deleted wanted).map fun i => toLex (distance row (chunk data dim i), i)

section Distances

variable {row : List UInt8} (width : row.length = dim)

include tables width

theorem squared_entry (inside : i < index.n) :
    (ofLex (hitOf (padded index.stride row) (index.entry i))).1 + dot (padded index.stride row) (padded index.stride row) =
      distance row (chunk data dim i) := by
  have same : row.length = (chunk data dim i).length := by rw [width, chunk_length tables.whole inside]
  have wide : row.length ≤ index.stride := width ▸ tables.wide
  have widths : (padded index.stride row).length = (padded index.stride (chunk data dim i)).length := by
    rw [padded_length wide, padded_length (same ▸ wide)]
  rw [← squared_padded index.stride same, squared_eq widths]
  show dot (index.rows.getD i []) (index.rows.getD i []) - 2 * dot _ (index.rows.getD i []) + _ = _
  rw [tables.row_eq inside]

theorem toDistance_ok (inside : i < index.n) :
    toDistance (dot (padded index.stride row) (padded index.stride row)) (hitOf (padded index.stride row) (index.entry i)) =
      .ok (distance row (chunk data dim i), i) := by
  have sum := squared_entry tables width inside
  have most := distance_le row (chunk data dim i)
  have size : dim ≤ 66051 := tables.sized.2
  rw [width] at most
  unfold toDistance
  rw [sum, if_pos ⟨by omega, by omega⟩]
  rfl

theorem mapM_toDistance (k : Nat) (inside : ∀ i ∈ found, i < index.n) :
    ∃ result, (best k (hits index (padded index.stride row) found)).mapM
        (toDistance (dot (padded index.stride row) (padded index.stride row))) = .ok result ∧
      result.map toLex = ((found.map fun i => toLex (distance row (chunk data dim i), i)).insertionSort
        (· ≤ ·)).take k := by
  let back : Hit → Nat ×ₗ Nat := fun hit =>
    toLex (((ofLex hit).1 + dot (padded index.stride row) (padded index.stride row)).toNat, (ofLex hit).2)
  have own (i : Nat) (member : i ∈ found) : back (hitOf (padded index.stride row) (index.entry i)) =
      toLex (distance row (chunk data dim i), i) := by
    simp only [back]
    rw [squared_entry tables width (inside i member)]
    rfl
  have each : ∀ hit ∈ best k (hits index (padded index.stride row) found),
      toDistance (dot (padded index.stride row) (padded index.stride row)) hit = .ok (ofLex (back hit)) := by
    intro hit member
    have listed := (mem_insertionSort _).mp (mem_of_mem_take member)
    obtain ⟨i, within, rfl⟩ := mem_map.mp listed
    rw [own i within, toDistance_ok tables width (inside i within)]
    rfl
  refine ⟨_, mapM_ok each, ?_⟩
  have order : ∀ a ∈ hits index (padded index.stride row) found, ∀ b ∈ hits index (padded index.stride row) found,
      a ≤ b ↔ back a ≤ back b := by
    intro a left b right
    obtain ⟨i, first, rfl⟩ := mem_map.mp left
    obtain ⟨j, second, rfl⟩ := mem_map.mp right
    have low := squared_entry tables width (inside i first)
    have high := squared_entry tables width (inside j second)
    rw [own i first, own j second, Prod.Lex.le_iff, Prod.Lex.le_iff]
    dsimp only [ofLex_toLex]
    have ids_eq (m : Nat) : (ofLex (hitOf (padded index.stride row) (index.entry m))).2 = m := rfl
    rw [ids_eq, ids_eq]
    omega
  have sorted := map_insertionSort (· ≤ ·) (· ≤ ·) back (hits index (padded index.stride row) found) order
  have images : (hits index (padded index.stride row) found).map back =
      found.map fun i => toLex (distance row (chunk data dim i), i) := by
    rw [hits, map_map]
    exact map_congr_left own
  rw [best, map_map, ← images, ← sorted, map_take]
  rfl

end Distances

section Search

variable (deletes : Deletes deleted index) {wanted : List Nat}

include tables deletes

theorem mem_matching (same : ∀ l, l ∈ wanted ↔ l ∈ rarest :: others) (known : ∀ l ∈ wanted, l < index.labels) (i : Nat) :
    i ∈ matching index others (index.posting rarest) ↔
      i < index.n ∧ i ∉ deleted ∧ ∀ l ∈ wanted, l ∈ pointLabels indptr ids i := by
  have listed (l : Nat) (member : l ∈ wanted) : i ∈ index.posting l ↔ i < index.n ∧ l ∈ pointLabels indptr ids i := by
    rw [tables.posting l (known l member), mem_members tables.few]
  have rare : rarest ∈ wanted := (same rarest).mpr mem_cons_self
  rw [matching, mem_filter, matched, Bool.and_eq_true, Bool.not_eq_true', deletes.bits i, decide_eq_false_iff_not,
    decide_eq_true_eq, listed rarest rare]
  constructor
  · rintro ⟨⟨inside, held⟩, alive, rest⟩
    refine ⟨inside, fun gone => alive ⟨inside, gone⟩, fun l member => ?_⟩
    rcases mem_cons.mp ((same l).mp member) with rfl | other
    · exact held
    · exact ((listed l member).mp (rest l other)).2
  · rintro ⟨inside, alive, all⟩
    refine ⟨⟨inside, all rarest rare⟩, fun gone => alive gone.2, fun l other => ?_⟩
    have member := (same l).mpr (mem_cons_of_mem rarest other)
    exact (listed l member).mpr ⟨inside, all l member⟩

omit tables deletes in
theorem mem_points {n i : Nat} : i ∈ points n indptr ids deleted wanted ↔
    i < n ∧ i ∉ deleted ∧ ∀ l ∈ wanted, l ∈ pointLabels indptr ids i := by
  rw [points, mem_filter, mem_range, decide_eq_true_eq]

section

variable (same : ∀ l, l ∈ wanted ↔ l ∈ rarest :: others) (known : ∀ l ∈ wanted, l < index.labels)
include same known

theorem matching_perm :
    (matching index others (index.posting rarest)).Perm (points index.n indptr ids deleted wanted) := by
  have rare := known rarest ((same rarest).mpr mem_cons_self)
  have apart : (matching index others (index.posting rarest)).Nodup :=
    ((tables.label rare).ascending.imp Nat.ne_of_lt).filter _
  refine (perm_ext_iff_of_nodup apart (nodup_range.filter _)).mpr fun i => ?_
  rw [mem_matching tables deletes same known, ← mem_points, points]

theorem points_length_le :
    (points index.n indptr ids deleted wanted).length ≤ min index.live (index.labelLen rarest) := by
  have rare := known rarest ((same rarest).mpr mem_cons_self)
  apply Nat.le_min.mpr
  constructor
  · rw [deletes.live, points]
    have weaker := monotone_filter_right (List.range index.n) (p := fun i =>
      decide (i ∉ deleted ∧ ∀ l ∈ wanted, l ∈ pointLabels indptr ids i)) (q := fun i => decide (i ∉ deleted)) (by
        intro i both
        exact decide_eq_true (of_decide_eq_true both).1)
    exact weaker.length_le
  · rw [← (matching_perm tables deletes same known).length_eq, tables.labelLen rarest rare, ← tables.posting rarest rare]
    exact length_filter_le _ _

end

omit tables deletes in
theorem best_min (short : found.length ≤ most) : best (min k most) found = best k found := by
  unfold best
  by_cases less : k ≤ most
  · rw [Nat.min_eq_left less]
  · have length := length_insertionSort (α := Hit) (· ≤ ·) found
    rw [Nat.min_eq_right (by omega), take_of_length_le (by omega), take_of_length_le (by omega)]

/-- A query that looks at labels of the index finds some of the answers, nearest first. -/
theorem search_known (width : row.length = dim) (some : wanted ≠ []) (known : ∀ l ∈ wanted, l < index.labels)
    (positive : k ≠ 0) (params : SearchParams) :
    ∃ (found : List Nat) (result : List (Nat × Nat)), found.Subperm (points index.n indptr ids deleted wanted) ∧
      index.search kernels row wanted k params = .ok result ∧
      result.map toLex = ((found.map fun i => toLex (distance row (chunk data dim i), i)).insertionSort
        (· ≤ ·)).take k ∧
      (index.n ≤ params.target → found.Perm (points index.n indptr ids deleted wanted)) := by
  unfold search
  have inside : ¬ (k = 0 ∨ wanted = [] ∨ wanted.any (fun l => decide (l ≥ index.labels)) = true) := by
    rintro (none | none | high)
    · exact positive none
    · exact some none
    · obtain ⟨l, member, above⟩ := any_eq_true.mp high
      have below := known l member
      have outside := of_decide_eq_true above
      omega
  rw [if_neg (by rw [width, tables.dimension]; simp), if_neg inside]
  have members (l : Nat) : l ∈ wanted ↔ l ∈ dedup (wanted.mergeSort fun a b =>
      decide (toLex (index.labelLen a, a) ≤ (toLex (index.labelLen b, b) : Nat ×ₗ Nat))) := by
    rw [mem_dedup, mem_mergeSort]
  generalize dedup (wanted.mergeSort fun a b =>
    decide (toLex (index.labelLen a, a) ≤ (toLex (index.labelLen b, b) : Nat ×ₗ Nat))) = order at members
  obtain ⟨l, member⟩ := exists_mem_of_ne_nil wanted some
  obtain ⟨rarest, others, rfl⟩ := exists_cons_of_ne_nil (ne_nil_of_mem ((members l).mp member))
  have rare := known rarest ((members rarest).mpr mem_cons_self)
  have sound : ∀ l ∈ others, Label index l := fun l member =>
    tables.label (known l ((members l).mpr (mem_cons_of_mem rarest member)))
  have wide : row.length ≤ index.stride := width ▸ tables.wide
  have query : Row index.stride (padded index.stride row) := row_padded wide
  dsimp only [headD_cons, tail_cons]
  have short := points_length_le tables deletes members known
  have all := matching_perm tables deletes members known
  obtain ⟨found, part, ran, whole⟩ := route_finds tables kernels query rare sound deletes
    (min (min k index.live) (index.labelLen rarest)) params
  have few : (hits index (padded index.stride row) found).length ≤ min index.live (index.labelLen rarest) := by
    rw [hits, length_map]
    exact part.length_le.trans (all.length_eq ▸ short)
  rw [Nat.min_assoc, best_min few] at ran
  have within : ∀ i ∈ found, i < index.n := fun i member =>
    (mem_points.mp (all.subset (part.subset member))).1
  obtain ⟨result, converted, ranked⟩ := mapM_toDistance tables width k within
  refine ⟨found, result, part.trans all.subperm, ?_, ranked, fun target => (whole target).trans all⟩
  rw [sum_ok tables.narrow query, squares_ok tables.narrow (by omega) query]
  dsimp only [bind, Except.bind]
  rw [Nat.min_assoc, ran]
  exact converted

end Search

theorem ranked_ascending {found : List Nat} (apart : found.Nodup) (k : Nat) (row : List UInt8) :
    (((found.map fun i => toLex (distance row (chunk data dim i), i)).insertionSort (· ≤ ·)).take k).Pairwise
      (· < ·) := by
  have distinct : (found.map fun i => toLex (distance row (chunk data dim i), i)).Nodup := by
    refine apart.map fun i j same => ?_
    exact (Prod.mk.inj (toLex.injective same)).2
  have sorted := pairwise_insertionSort (· ≤ ·) (found.map fun i => toLex (distance row (chunk data dim i), i))
  have different := (perm_insertionSort (· ≤ ·) _).nodup_iff.mpr distinct
  exact (sorted.and different |>.imp fun both => lt_of_le_of_ne both.1 both.2).sublist (take_sublist _ _)

/-- The filtered index is exact: a search returns live points with all the labels behind their squared
distances, strictly ascending, whatever its parameters; and with a target of all points it returns
the first `k` of them. Neither building nor searching overflows. -/
theorem search_exact (kernels : Kernels) (sampling : Sampling) (data : List UInt8) (dim : Nat) (indptr ids : List Nat)
    (labels : Nat) (params : BuildParams) :
    build kernels sampling data dim indptr ids labels params ≠ .error .overflow ∧
    ∀ index, build kernels sampling data dim indptr ids labels params = .ok index →
      ∀ (deleted : List Nat) (row : List UInt8) (wanted : List Nat) (k : Nat) (search : SearchParams),
      row.length = dim → wanted ≠ [] →
      ∃ result, (index.deleteAll deleted).search kernels row wanted k search = .ok result ∧
        (result.map toLex).Pairwise (· < ·) ∧ result.length ≤ k ∧
        (∀ hit ∈ result, toLex hit ∈ answers data dim indptr ids deleted row wanted) ∧
        (data.length / dim ≤ search.target →
          result.map toLex = ((answers data dim indptr ids deleted row wanted).insertionSort (· ≤ ·)).take k) := by
  rcases build_cases kernels sampling data dim indptr ids labels params with
    ⟨message, refused⟩ | ⟨index, built, tables, fresh⟩
  · rw [refused]
    exact ⟨by rintro ⟨⟩, by rintro _ ⟨⟩⟩
  rw [built]
  refine ⟨by rintro ⟨⟩, ?_⟩
  rintro _ ⟨⟩ deleted row wanted k params width some
  obtain ⟨tables, deletes, -⟩ := deleteAll_spec tables fresh deleted
  rw [nil_append] at deletes
  generalize index.deleteAll deleted = index at tables deletes
  have number : index.n = data.length / dim := by
    rw [← tables.whole, Nat.mul_div_cancel _ tables.sized.1]
  unfold answers
  rw [← number]
  by_cases positive : k = 0
  · refine ⟨[], ?_, .nil, Nat.zero_le k, by simp, by simp [positive]⟩
    rw [FilteredIndex.search, if_neg (by rw [width, tables.dimension]; simp), if_pos (.inl positive)]
  by_cases known : ∀ l ∈ wanted, l < index.labels
  · obtain ⟨found, result, part, ran, ranked, whole⟩ :=
      search_known tables kernels deletes width some known positive params
    have apart : found.Nodup := by
      obtain ⟨copy, perm, sublist⟩ := part
      exact perm.nodup_iff.mp ((nodup_range.filter _).sublist sublist)
    refine ⟨result, ran, ranked ▸ ranked_ascending apart k row, ?_, ?_, ?_⟩
    · have size := congrArg List.length ranked
      rw [length_map] at size
      rw [size]
      exact length_take_le _ _
    · intro hit member
      have listed : toLex hit ∈ result.map toLex := mem_map_of_mem member
      rw [ranked] at listed
      obtain ⟨i, held, same⟩ := mem_map.mp ((mem_insertionSort _).mp (mem_of_mem_take listed))
      exact mem_map.mpr ⟨i, part.subset held, same⟩
    · intro target
      rw [ranked, TopK.sort_perm ((whole target).map _)]
  · push Not at known
    obtain ⟨l, member, above⟩ := known
    have none : points index.n indptr ids deleted wanted = [] := by
      apply eq_nil_iff_forall_not_mem.mpr
      intro i held
      have listed := (mem_points.mp held).2.2 l member
      have below := tables.known l (mem_of_mem_drop (mem_of_mem_take listed))
      omega
    refine ⟨[], ?_, .nil, Nat.zero_le k, by simp, by simp [none]⟩
    rw [FilteredIndex.search, if_neg (by rw [width, tables.dimension]; simp), if_pos]
    exact .inr (.inr (any_eq_true.mpr ⟨l, member, decide_eq_true above⟩))

/-- Four points of two labels, one of them listed twice, with an inverted file for the first label. -/
theorem search_exact_deleted :
    ∃ index, build ⟨.scalar, .biased⟩ ⟨fun members trainN i => i * members / trainN, fun c trainN lists => c * trainN / lists⟩
        [3, 9, 200, 8] 1 [0, 2, 4, 5, 6] [0, 0, 0, 1, 0, 0] 2 ⟨1, 2, 8, 4, 1, 8, 4, 7⟩ = .ok index ∧
      ∃ result, (index.deleteAll [3]).search ⟨.scalar, .biased⟩ [9] [0] 2 ⟨0, 4, 1, 0⟩ = .ok result ∧
        result.map toLex =
          ((answers [3, 9, 200, 8] 1 [0, 2, 4, 5, 6] [0, 0, 0, 1, 0, 0] [3] [9] [0]).insertionSort (· ≤ ·)).take 2 := by
  rcases build_cases ⟨.scalar, .biased⟩
      ⟨fun members trainN i => i * members / trainN, fun c trainN lists => c * trainN / lists⟩
      [3, 9, 200, 8] 1 [0, 2, 4, 5, 6] [0, 0, 0, 1, 0, 0] 2 ⟨1, 2, 8, 4, 1, 8, 4, 7⟩ with
    ⟨message, refused⟩ | ⟨index, built, -⟩
  · have accepted : (build ⟨.scalar, .biased⟩
        ⟨fun members trainN i => i * members / trainN, fun c trainN lists => c * trainN / lists⟩
        [3, 9, 200, 8] 1 [0, 2, 4, 5, 6] [0, 0, 0, 1, 0, 0] 2 ⟨1, 2, 8, 4, 1, 8, 4, 7⟩).isOk = true := by decide +kernel
    rw [refused] at accepted
    cases accepted
  obtain ⟨result, ran, -, -, -, whole⟩ := (search_exact _ _ _ _ _ _ _ _).2 index built [3] [9] [0] 2 ⟨0, 4, 1, 0⟩ rfl
    (by decide)
  exact ⟨index, built, result, ran, whole (by decide)⟩

end Warm.Filter
