import Warm.FilterTraining

/-! What a built index holds, and what deletes keep of it. -/
namespace Warm.Filter

open List

variable {data : List UInt8} {dim : Nat} {indptr ids : List Nat}

structure Tables (data : List UInt8) (dim : Nat) (indptr ids : List Nat) (index : FilteredIndex) : Prop where
  dimension : index.dim = dim
  sized : 1 ≤ dim ∧ dim ≤ maxDimensions
  whole : index.n * dim = data.length
  few : index.n ≤ 4294967294
  wide : dim ≤ index.stride
  narrow : index.stride ≤ maxStride
  rows : index.rows = (List.range index.n).map fun i => padded index.stride (chunk data dim i)
  norms : index.norms = index.rows.map fun row => dot row row
  posting : ∀ l < index.labels, index.posting l = members index.n indptr ids l
  labelLen : ∀ l < index.labels, index.labelLen l = (members index.n indptr ids l).length
  known : ∀ l ∈ ids, l < index.labels
  bitset : ∀ l < index.labels, ∀ set, index.bitset l = some set → ∀ i, bit set i = decide (i ∈ index.posting l)
  inverted : ∀ l < index.labels, ∀ slot, index.ivfSlot.getD l none = some slot →
    Inverted index.stride index.rows index.norms (index.posting l) (index.ivfs.getD slot ⟨[], [], [], [], [], []⟩)

structure Deletes (deleted : List Nat) (index : FilteredIndex) : Prop where
  words : index.deleted.length = (index.n + 63) / 64
  bits : ∀ i, index.isDeleted i = decide (i < index.n ∧ i ∈ deleted)
  live : index.live = ((List.range index.n).filter fun i => i ∉ deleted).length

theorem chunk_length (whole : n * dim = data.length) (inside : i < n) : (chunk data dim i).length = dim := by
  have room : (i + 1) * dim ≤ n * dim := Nat.mul_le_mul_right dim inside
  rw [Nat.succ_mul] at room
  rw [chunk, length_take, length_drop]
  omega

theorem bounded_of_max? (most : ¬ (ids.max?.map (· + 1)).getD 0 > labels) : ∀ l ∈ ids, l < labels := by
  intro l member
  obtain ⟨m, greatest⟩ := Option.isSome_iff_exists.mp (isSome_max?_of_mem member)
  have above := (max?_eq_some_iff.mp greatest).2 l member
  rw [greatest] at most
  simp only [Option.map_some, Option.getD_some] at most
  omega

theorem members_length_le (few : n ≤ 4294967294) (l : Nat) : (members n indptr ids l).length ≤ n := by
  have apart : (members n indptr ids l).Nodup := (members_ascending few l).imp Nat.ne_of_lt
  have inside : members n indptr ids l ⊆ List.range n := fun p member =>
    mem_range.mpr ((mem_members few).mp member).1
  have short := (subperm_of_subset apart inside).length_le
  rwa [length_range] at short

theorem idxOf?_spec {keys : List Nat} (found : keys.idxOf? l = some slot) :
    ∃ inside : slot < keys.length, keys[slot] = l := by
  obtain ⟨inside, same, -⟩ := idxOf?_eq_some_iff.mp found
  exact ⟨inside, by simpa using same⟩

theorem getD_slots (inside : l < labels) (keys : List Nat) :
    ((List.range labels).map fun l => keys.idxOf? l).getD l none = keys.idxOf? l := by
  simp [inside]

theorem bitset_spec {index : FilteredIndex} {dense : List Nat}
    (slots : index.bitsetSlot = (List.range index.labels).map fun l => dense.idxOf? l)
    (sets : index.bitsets = dense.map fun l => setBits words (index.posting l))
    (room : ∀ l < index.labels, ∀ i ∈ index.posting l, i / 64 < words) :
    ∀ l < index.labels, ∀ set, index.bitset l = some set → ∀ i, bit set i = decide (i ∈ index.posting l) := by
  intro l inside set found i
  rw [FilteredIndex.bitset, slots, getD_slots inside, Option.map_eq_some_iff] at found
  obtain ⟨slot, place, rfl⟩ := found
  obtain ⟨there, same⟩ := idxOf?_spec place
  have own : index.bitsets.getD slot [] = setBits words (index.posting l) := by simp [sets, there, same]
  rw [own, bit_setBits (room l inside)]

theorem inverted_spec {index : FilteredIndex} {default : LabelIvf}
    (slots : index.ivfSlot = (List.range index.labels).map fun l => big.idxOf? l)
    (trained : List.Forall₂ (fun l ivf => Inverted index.stride index.rows index.norms (index.posting l) ivf) big index.ivfs) :
    ∀ l < index.labels, ∀ slot, index.ivfSlot.getD l none = some slot →
      Inverted index.stride index.rows index.norms (index.posting l) (index.ivfs.getD slot default) := by
  intro l inside slot found
  rw [slots, getD_slots inside] at found
  obtain ⟨there, same⟩ := idxOf?_spec found
  obtain ⟨length, each⟩ := forall₂_iff_get.mp trained
  have own := each slot there (length ▸ there)
  rw [get_eq_getElem, get_eq_getElem, same] at own
  rwa [getD_eq_getElem _ _ (length ▸ there)]

theorem product_cases (left right : Nat) :
    product left right = .ok (left * right) ∨ ∃ message, product left right = .error (.invalid message) := by
  unfold product
  split
  · exact .inl rfl
  · exact .inr ⟨_, rfl⟩

/-- A build is refused with a message or gives an index; it never overflows. -/
theorem build_cases (kernels : Kernels) (sampling : Sampling) (data : List UInt8) (dim : Nat) (indptr ids : List Nat)
    (labels : Nat) (params : BuildParams) :
    (∃ message, build kernels sampling data dim indptr ids labels params = .error (.invalid message)) ∨
      ∃ index, build kernels sampling data dim indptr ids labels params = .ok index ∧
        Tables data dim indptr ids index ∧ Deletes [] index := by
  unfold build
  dsimp only [bind, Except.bind, throw, throwThe, MonadExceptOf.throw]
  by_cases sized : ¬ (1 ≤ dim ∧ dim ≤ maxDimensions)
  · exact .inl ⟨_, if_pos sized⟩
  rw [if_neg sized]
  by_cases rest : data.length % dim ≠ 0
  · exact .inl ⟨_, if_pos rest⟩
  rw [if_neg rest]
  have whole : data.length / dim * dim = data.length := Nat.div_mul_cancel (Nat.dvd_of_mod_eq_zero (not_not.mp rest))
  generalize data.length / dim = n at whole
  by_cases many : n > 4294967294
  · exact .inl ⟨_, if_pos many⟩
  rw [if_neg many]
  by_cases unordered : monotone n indptr ids = false
  · exact .inl ⟨_, if_pos unordered⟩
  rw [if_neg unordered]
  generalize (if labels = 0 then (ids.max?.map (· + 1)).getD 0 else labels) = labels
  by_cases wide : labels > maxLabels
  · exact .inl ⟨_, if_pos wide⟩
  rw [if_neg wide]
  by_cases outside : (ids.max?.map (· + 1)).getD 0 > labels
  · exact .inl ⟨_, if_pos outside⟩
  rw [if_neg outside]
  by_cases empty : params.clusterSize = 0 ∨ params.maxLists = 0 ∨ params.trainPerList = 0
  · exact .inl ⟨_, if_pos empty⟩
  rw [if_neg empty]
  have few : n ≤ 4294967294 := by omega
  have ordered : monotone n indptr ids = true := by simpa using unordered
  have bounded := bounded_of_max? outside
  have covers : dim ≤ (dim + 15) / 16 * 16 := by omega
  have narrow : (dim + 15) / 16 * 16 ≤ maxStride := by
    have most : dim ≤ 66051 := (not_not.mp sized).2
    have limit : maxStride = 66064 := rfl
    omega
  generalize (dim + 15) / 16 * 16 = stride at covers narrow
  rcases product_cases n stride with capacity | ⟨message, refused⟩
  rotate_left
  · rw [refused]
    exact .inl ⟨message, rfl⟩
  rw [capacity]
  have each : ∀ row ∈ (List.range n).map (fun i => padded stride (chunk data dim i)), Row stride row := by
    intro row member
    obtain ⟨i, inside, rfl⟩ := mem_map.mp member
    exact row_padded (by rw [chunk_length whole (mem_range.mp inside)]; exact covers)
  generalize rows_eq : (List.range n).map (fun i => padded stride (chunk data dim i)) = rows at each
  have count : rows.length = n := by rw [← rows_eq, length_map, length_range]
  have norms : rows.mapM norm = .ok (rows.map fun row => dot row row) :=
    mapM_ok fun row member => norm_ok narrow (each row member)
  rw [norms]
  obtain ⟨size, parts⟩ := buildPostings_spec ordered bounded
  generalize buildPostings n labels indptr ids = built at size parts
  obtain ⟨offsets, postings⟩ := built
  dsimp only at size parts ⊢
  generalize dense_eq : (List.range labels).filter (fun l => decide (offsets.getD (l + 1) 0 - offsets.getD l 0 > 0 ∧
    offsets.getD (l + 1) 0 - offsets.getD l 0 ≥ params.bitsetMin)) = dense
  rcases product_cases dense.length ((n + 63) / 64) with capacity | ⟨message, refused⟩
  rotate_left
  · rw [refused]
    exact .inl ⟨message, rfl⟩
  rw [capacity]
  generalize big_eq : ((List.range labels).filter fun l => decide (offsets.getD (l + 1) 0 - offsets.getD l 0 >
    params.ivfMin)).mergeSort (fun a b => decide (offsets.getD (b + 1) 0 - offsets.getD b 0 ≤
      offsets.getD (a + 1) 0 - offsets.getD a 0)) = big
  have training : ∀ l ∈ big, ∃ ivf, trainLabel kernels sampling rows (rows.map fun row => dot row row) stride
      (slice postings (offsets.getD l 0) (offsets.getD (l + 1) 0)) params (.ofNat l) = .ok ivf ∧
        Inverted stride rows (rows.map fun row => dot row row)
          (slice postings (offsets.getD l 0) (offsets.getD (l + 1) 0)) ivf := by
    intro l member
    rw [← big_eq, mem_mergeSort, mem_filter, mem_range, decide_eq_true_eq] at member
    obtain ⟨inside, long⟩ := member
    obtain ⟨list, length⟩ := parts l inside
    have short : (members n indptr ids l).length ≤ n := members_length_le few l
    rw [list]
    refine trainLabel_ok narrow each kernels sampling ?_ ?_ ?_ ?_ _
    · apply ne_nil_of_length_pos
      omega
    · intro i held
      rw [count]
      exact ((mem_members few).mp held).1
    · omega
    · exact fun none => empty (.inr (.inl none))
  obtain ⟨ivfs, trained, related⟩ := exists_mapM_ok training
  rw [trained]
  refine .inr ⟨_, rfl, ?_, ?_⟩
  · have own : offsets.length - 1 = labels := by omega
    refine {
      dimension := rfl, sized := not_not.mp sized, whole, few, wide := covers, narrow, rows := rows_eq.symm, norms := rfl
      posting := fun l inside => (parts l (own ▸ inside)).1
      labelLen := fun l inside => ?_
      known := fun l member => own ▸ bounded l member
      bitset := bitset_spec ?_ rfl ?_
      inverted := inverted_spec ?_ related }
    · rw [FilteredIndex.labelLen, if_neg (Nat.not_le_of_lt inside)]
      exact (parts l (own ▸ inside)).2
    · exact own ▸ rfl
    · intro l inside i held
      have listed : i ∈ members n indptr ids l := (parts l (own ▸ inside)).1 ▸ held
      have below := ((mem_members few).mp listed).1
      omega
    · exact own ▸ rfl
  · refine ⟨length_replicate, fun i => ?_, ?_⟩
    · rw [FilteredIndex.isDeleted, bit_replicate]
      simp
    · simp

section Delete

variable {index : FilteredIndex} {deleted : List Nat}

theorem Tables.delete (tables : Tables data dim indptr ids index) (i : Nat) :
    Tables data dim indptr ids (index.delete i).1 := by
  unfold FilteredIndex.delete
  split
  · exact tables
  · exact {
      dimension := tables.dimension, sized := tables.sized, whole := tables.whole, few := tables.few, wide := tables.wide
      narrow := tables.narrow, rows := tables.rows, norms := tables.norms, posting := tables.posting
      labelLen := tables.labelLen, known := tables.known, bitset := tables.bitset, inverted := tables.inverted }

theorem delete_n (index : FilteredIndex) (i : Nat) : (index.delete i).1.n = index.n := by
  unfold FilteredIndex.delete
  split
  · rfl
  · rfl

theorem filter_delete (inside : i < n) (deleted : List Nat) :
    ((List.range n).filter fun j => j ∉ deleted ++ [i]).length =
      if i ∈ deleted then ((List.range n).filter fun j => j ∉ deleted).length
      else ((List.range n).filter fun j => j ∉ deleted).length - 1 := by
  have rest : ((List.range n).filter fun j => j ∉ deleted ++ [i]) =
      ((List.range n).filter fun j => j ∉ deleted).erase i := by
    rw [(nodup_range.filter _).erase_eq_filter, filter_filter]
    apply filter_congr
    intro j _
    simp only [mem_append, mem_singleton, not_or, bne, Bool.decide_and]
    rw [Bool.and_comm]
    congr 1
    by_cases same : j = i
    · simp [same]
    · simp [same]
  rw [rest, length_erase]
  by_cases gone : i ∈ deleted
  · simp [gone]
  · simp [gone, inside]

theorem Deletes.delete (deletes : Deletes deleted index) (i : Nat) : Deletes (deleted ++ [i]) (index.delete i).1 := by
  by_cases inside : i < index.n
  · have word : i / 64 < index.deleted.length := by
      rw [deletes.words]
      omega
    have shape : (index.delete i).1 = { index with
        deleted := index.deleted.modify (i / 64) (· ||| 2 ^ (i % 64))
        live := if !index.isDeleted i then index.live - 1 else index.live } := by
      rw [FilteredIndex.delete, if_neg (Nat.not_le_of_lt inside)]
    rw [shape]
    refine ⟨?_, ?_, ?_⟩
    · rw [length_modify]
      exact deletes.words
    · intro j
      have before := deletes.bits j
      rw [FilteredIndex.isDeleted] at before ⊢
      rw [bit_modify _ word, before, ← Bool.decide_or, decide_eq_decide]
      simp only [mem_append, mem_singleton]
      constructor
      · rintro (⟨below, member⟩ | rfl)
        · exact ⟨below, .inl member⟩
        · exact ⟨inside, .inr rfl⟩
      · rintro ⟨below, member | same⟩
        · exact .inl ⟨below, member⟩
        · exact .inr same
    · dsimp only
      rw [filter_delete inside, ← deletes.live, deletes.bits i]
      by_cases gone : i ∈ deleted
      · simp [gone, inside]
      · simp [gone]
  · have same : (index.delete i).1 = index := by rw [FilteredIndex.delete, if_pos (Nat.le_of_not_lt inside)]
    rw [same]
    have absent (j : Nat) (below : j < index.n) : j ∈ deleted ++ [i] ↔ j ∈ deleted := by
      have other : j ≠ i := by omega
      simp [other]
    refine ⟨deletes.words, ?_, ?_⟩
    · intro j
      rw [deletes.bits j, decide_eq_decide]
      exact and_congr_right fun below => (absent j below).symm
    · rw [deletes.live]
      congr 1
      apply filter_congr
      intro j member
      rw [decide_eq_decide, absent j (mem_range.mp member)]

theorem deleteAll_spec (tables : Tables data dim indptr ids index) (deletes : Deletes deleted index) (more : List Nat) :
    Tables data dim indptr ids (index.deleteAll more) ∧ Deletes (deleted ++ more) (index.deleteAll more) ∧
      (index.deleteAll more).n = index.n := by
  induction more generalizing index deleted with
  | nil => exact ⟨tables, by rw [append_nil]; exact deletes, rfl⟩
  | cons i more ih =>
    obtain ⟨kept, marked, size⟩ := ih (tables.delete i) (deletes.delete i)
    rw [append_assoc, singleton_append] at marked
    rw [delete_n] at size
    exact ⟨kept, marked, size⟩

end Delete

end Warm.Filter
