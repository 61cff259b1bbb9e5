import Warm.FilterPostings
import Mathlib.Data.List.Forall2

/-! The k-means of a label and the inverted file it leaves. No sum of it overflows, every member
goes to one list, and the lists keep the order of the posting list. -/
namespace Warm.Filter

open List

section Results

variable {ε : Type} {f : α → Except ε β} {xs : List α}

theorem mapM_ok (each : ∀ x ∈ xs, f x = .ok (g x)) : xs.mapM f = .ok (xs.map g) := by
  induction xs with
  | nil => rfl
  | cons x xs ih =>
    rw [mapM_cons, each x mem_cons_self, ih (forall_mem_cons.mp each).2]
    rfl

theorem exists_mapM_ok (each : ∀ x ∈ xs, ∃ y, f x = .ok y ∧ R x y) :
    ∃ ys, xs.mapM f = .ok ys ∧ List.Forall₂ R xs ys := by
  induction xs with
  | nil => exact ⟨[], rfl, .nil⟩
  | cons x xs ih =>
    obtain ⟨y, first, related⟩ := each x mem_cons_self
    obtain ⟨ys, rest, others⟩ := ih (forall_mem_cons.mp each).2
    refine ⟨y :: ys, ?_, .cons related others⟩
    rw [mapM_cons, first, rest]
    rfl

theorem forall_right {P : β → Prop} (related : List.Forall₂ (fun _ y => P y) xs ys) : ∀ y ∈ ys, P y := by
  induction related with
  | nil => simp
  | cons first _ ih =>
    exact forall_mem_cons.mpr ⟨first, ih⟩

end Results

/-- A row of the index: signed bytes over the kernels' width. -/
structure Row (stride : Nat) (row : List Int) : Prop where
  width : row.length = stride
  octets : ∀ x ∈ row, Octet x

variable {stride : Nat} (narrow : stride ≤ maxStride)

theorem row_padded (wide : row.length ≤ stride) : Row stride (padded stride row) :=
  ⟨padded_length wide, octet_padded stride row⟩

theorem abs_octet (octet : Octet x) : |x| ≤ 128 := abs_le.mpr ⟨octet.1, by linarith [octet.2]⟩

include narrow

theorem sum_ok (own : Row stride row) : sumChecked 32 row = .ok row.sum := by
  refine sumChecked_ok 32 128 row (fun x member => abs_octet (own.octets x member)) ?_
  have most : (row.length : Int) ≤ maxStride := by
    rw [own.width]
    exact_mod_cast narrow
  have room : (maxStride : Int) * 128 < 2 ^ (32 - 1) := by decide
  linarith

theorem squares_ok (wide : 32 ≤ bits) (own : Row stride row) :
    sumChecked bits (row.map fun v => v * v) = .ok (dot row row) := by
  have same : (row.map fun v => v * v) = List.zipWith (· * ·) row row := zipWith_self.symm
  have most := products_length (b := row) (own.width ▸ narrow)
  have room : (maxStride : Int) * 16384 < 2 ^ (32 - 1) := by decide
  have more : (2 : Int) ^ (32 - 1) ≤ 2 ^ (bits - 1) := pow_le_pow_right₀ (by norm_num) (by omega)
  rw [same, sumChecked_ok bits 16384 _ (mem_products own.octets own.octets) (by linarith), dot]

theorem norm_ok (own : Row stride row) : norm row = .ok (dot row row) :=
  squares_ok narrow (Nat.le_refl 32) own

structure Sound (stride : Nat) (entry : Entry) : Prop where
  row : Row stride entry.row
  norm : entry.norm = dot entry.row entry.row

/-- The key of an entry, which orders as its distance does. -/
def hitOf (q : List Int) (entry : Entry) : Hit := toLex (dot entry.row entry.row - 2 * dot q entry.row, entry.id)

theorem keyOf_ok (tier : Tier) (query : Row stride q) (sound : Sound stride entry) :
    keyOf tier q q.sum entry = .ok (hitOf q entry) := by
  have width : q.length = entry.row.length := by rw [query.width, sound.row.width]
  obtain ⟨least, most⟩ := abs_lt.mp (abs_dot_lt query.octets sound.row.octets (query.width ▸ narrow))
  obtain ⟨low, high⟩ := abs_lt.mp (abs_dot_lt sound.row.octets sound.row.octets (sound.row.width ▸ narrow))
  rw [keyOf, dotI8Query_ok tier query.octets sound.row.octets width (query.width ▸ narrow), sound.norm]
  dsimp only
  rw [checked_ok (by norm_num; linarith) (by norm_num; linarith)]
  rfl

theorem keysOf_ok (kernels : Kernels) (query : Row stride q) (sound : ∀ entry ∈ entries, Sound stride entry) :
    keysOf kernels q q.sum entries = .ok (entries.map (hitOf q)) := by
  have key (tier : Tier) (entry : Entry) (member : entry ∈ entries) : keyOf tier q q.sum entry = .ok (hitOf q entry) :=
    keyOf_ok narrow tier query (sound entry member)
  induction entries using keysOf.induct with
  | case1 a b c d rest ih =>
    have others := ih (fun entry member => sound entry (by simp [member])) fun tier entry member =>
      key tier entry (by simp [member])
    rw [keysOf, key _ a (by simp), key _ b (by simp), key _ c (by simp), key _ d (by simp), others]
    rfl
  | case2 a rest few ih =>
    have others := ih (forall_mem_cons.mp sound).2 fun tier entry member =>
      key tier entry (by simp [member])
    rw [keysOf, key _ a (by simp), others]
    · rfl
    · exact few
  | case3 => rfl

omit narrow in
theorem leastKey_mem (hits : List Hit) (best : Hit) :
    leastKey hits best = (ofLex best).2 ∨ ∃ hit ∈ hits, leastKey hits best = (ofLex hit).2 := by
  induction hits generalizing best with
  | nil => exact .inl rfl
  | cons hit hits ih =>
    rw [leastKey]
    rcases ih (if (ofLex hit).1 < (ofLex best).1 then hit else best) with stayed | ⟨other, member, moved⟩
    · by_cases less : (ofLex hit).1 < (ofLex best).1
      · rw [if_pos less] at stayed ⊢
        exact .inr ⟨hit, mem_cons_self, stayed⟩
      · rw [if_neg less] at stayed ⊢
        exact .inl stayed
    · exact .inr ⟨other, mem_cons_of_mem hit member, moved⟩

structure Trained (stride lists : Nat) (model : List (List Int) × List Int) : Prop where
  count : model.1.length = lists
  rows : ∀ c ∈ model.1, Row stride c
  norms : model.2 = model.1.map fun c => dot c c

omit narrow in
theorem Trained.sound (trained : Trained stride lists model) :
    ∀ entry ∈ centroidEntries model.1 model.2, Sound stride entry := by
  intro entry member
  obtain ⟨c, inside, rfl⟩ := mem_map.mp member
  have here := mem_range.mp inside
  have own : model.1.getD c [] ∈ model.1 := by simp [here]
  refine ⟨trained.rows _ own, ?_⟩
  simp [trained.norms, here]

theorem assign_ok (kernels : Kernels) (own : Row stride x) (some : 0 < lists) (trained : Trained stride lists model) :
    ∃ c, assign kernels x model.1 model.2 = .ok c ∧ c < lists := by
  have keys : (centroidEntries model.1 model.2).mapM (keyOf kernels.single x x.sum) =
      .ok ((centroidEntries model.1 model.2).map (hitOf x)) :=
    mapM_ok fun entry member => keyOf_ok narrow _ own (trained.sound entry member)
  refine ⟨_, by rw [assign, sum_ok narrow own]; dsimp only [bind, Except.bind]; rw [keys]; rfl, ?_⟩
  rcases leastKey_mem ((centroidEntries model.1 model.2).map (hitOf x)) (toLex (9223372036854775807, 0))
    with first | ⟨hit, member, found⟩
  · rw [first]
    exact some
  · obtain ⟨entry, within, rfl⟩ := mem_map.mp member
    obtain ⟨c, inside, rfl⟩ := mem_map.mp within
    rw [found]
    have here := mem_range.mp inside
    rw [trained.count] at here
    exact here

omit narrow in
theorem roundedMean_ok {count : Nat} (few : count < 2 ^ 32) (bound : |s| ≤ 2 ^ 32 * 128) :
    ∃ m, roundedMean s count = .ok m ∧ Octet m := by
  have low : 0 ≤ |s| := abs_nonneg s
  have fits : checked 64 (2 * |s| + count) = .ok (2 * |s| + count) :=
    checked_ok (by norm_num; linarith) (by norm_num; linarith)
  refine ⟨_, by rw [roundedMean, fits]; rfl, ?_⟩
  constructor <;> omega

omit narrow in
theorem newCentroid_ok (before : Row stride old) {rows : List (List Int)} (each : ∀ row ∈ rows, Row stride row)
    (few : rows.length < 2 ^ 32) : ∃ c, newCentroid stride old rows = .ok c ∧ Row stride c := by
  unfold newCentroid
  by_cases empty : rows = []
  · exact ⟨old, if_pos empty, before⟩
  rw [if_neg empty]
  have coordinates : ∀ j ∈ List.range stride, ∃ m, (do
      let s ← sumChecked 64 (rows.map fun row : List Int => row.getD j 0)
      roundedMean s rows.length) = .ok m ∧ Octet m := by
    intro j inside
    have here := mem_range.mp inside
    have small : ∀ x ∈ rows.map (fun row => row.getD j 0), |x| ≤ 128 := by
      intro x member
      obtain ⟨row, within, rfl⟩ := mem_map.mp member
      have own := each row within
      apply abs_octet
      apply own.octets
      simp [own.width, here]
    have short : ((rows.map fun row => row.getD j 0).length : Int) < 2 ^ 32 := by
      rw [length_map]
      exact_mod_cast few
    have total := abs_sum_le small
    have room : (2 : Int) ^ 32 * 128 < 2 ^ (64 - 1) := by norm_num
    rw [sumChecked_ok 64 128 _ small (by linarith)]
    exact roundedMean_ok few (by linarith)
  obtain ⟨c, computed, related⟩ := exists_mapM_ok coordinates
  refine ⟨c, computed, ?_, forall_right (P := Octet) related⟩
  rw [← related.length_eq, length_range]

variable {rows : List (List Int)} (each : ∀ row ∈ rows, Row stride row)

include each

omit narrow in
theorem row_getD (inside : i < rows.length) : Row stride (rows.getD i []) := each _ (by simp [inside])

variable (kernels : Kernels) {sample : List Nat} (known : ∀ i ∈ sample, i < rows.length) (few : sample.length < 2 ^ 32)
  {lists : Nat} (some : 0 < lists) {model : List (List Int) × List Int}

include known few some

theorem lloyd_ok (trained : Trained stride lists model) :
    ∃ next, lloyd kernels rows stride sample model.1 model.2 = .ok next ∧ Trained stride lists next := by
  obtain ⟨labels, assigned, -⟩ := exists_mapM_ok (R := fun _ c => c < lists) fun i (member : i ∈ sample) =>
    assign_ok narrow kernels (row_getD each (known i member)) some trained
  obtain ⟨next, moved, related⟩ := exists_mapM_ok
    (f := fun c => newCentroid stride (model.1.getD c [])
      (((sample.zip labels).filter fun entry => entry.2 = c).map fun entry => rows.getD entry.1 []))
    (R := fun _ c => Row stride c) (by
      intro c (inside : c ∈ List.range model.1.length)
      refine newCentroid_ok (row_getD trained.rows (mem_range.mp inside)) ?_ ?_
      · intro row member
        obtain ⟨⟨i, label⟩, within, rfl⟩ := mem_map.mp member
        exact row_getD each (known i (of_mem_zip (mem_filter.mp within).1).1)
      · rw [length_map]
        have filtered := length_filter_le (fun entry : Nat × Nat => decide (entry.2 = c)) (sample.zip labels)
        rw [length_zip] at filtered
        omega)
  have rows_next := forall_right related
  have norms : next.mapM norm = .ok (next.map fun c => dot c c) :=
    mapM_ok fun c member => norm_ok narrow (rows_next c member)
  refine ⟨(next, next.map fun c => dot c c), ?_, ?_, rows_next, rfl⟩
  · rw [lloyd, assigned]
    dsimp only [bind, Except.bind]
    rw [moved]
    dsimp only
    rw [norms]
    rfl
  · rw [← related.length_eq, length_range, trained.count]

theorem iterate_ok (count : Nat) (trained : Trained stride lists model) :
    ∃ last, iterate kernels rows stride sample count model = .ok last ∧ Trained stride lists last := by
  induction count generalizing model with
  | zero => exact ⟨model, rfl, trained⟩
  | succ count ih =>
    obtain ⟨next, stepped, trained⟩ := lloyd_ok narrow each kernels known few some trained
    obtain ⟨last, done, final⟩ := ih trained
    exact ⟨last, by rw [iterate, stepped]; exact done, final⟩

omit narrow each known few some

theorem mem_trainSample (sampling : Sampling) {members : List Nat} (held : members ≠ []) (params : BuildParams)
    (salt : UInt64) (trainN : Nat) : ∀ i ∈ trainSample sampling members params salt trainN, i ∈ members := by
  intro i member
  obtain ⟨t, -, rfl⟩ := mem_map.mp member
  have inside := Nat.mod_lt ((mix (params.seed ^^^ salt)).toNat % members.length + sampling.stride members.length trainN t)
    (length_pos_of_ne_nil held)
  rw [getD_eq_getElem _ _ inside]
  exact getElem_mem _

def LabelIvf.list (ivf : LabelIvf) (c : Nat) : List Nat :=
  slice ivf.members (ivf.offsets.getD c 0) (ivf.offsets.getD (c + 1) 0)

/-- An inverted file over a posting list: its lists are parts of it and together all of it, and
copied rows are those of the members. -/
structure Inverted (stride : Nat) (rows : List (List Int)) (norms : List Int) (posting : List Nat)
    (ivf : LabelIvf) : Prop where
  trained : Trained stride ivf.centroids.length (ivf.centroids, ivf.centroidNorms)
  within : ∀ c < ivf.centroids.length, ivf.offsets.getD c 0 ≤ ivf.offsets.getD (c + 1) 0 ∧
    ivf.offsets.getD (c + 1) 0 ≤ ivf.members.length
  ordered : ∀ c < ivf.centroids.length, (ivf.list c).Sublist posting
  whole : ((List.range ivf.centroids.length).flatMap ivf.list).Perm posting
  copies : ivf.rows = [] ∨ ivf.rows = ivf.members.map (fun i => rows.getD i []) ∧
    ivf.norms = ivf.members.map fun i => norms.getD i 0

theorem inverted_of_grouped {members assignment : List Nat} (size : assignment.length = members.length)
    (bounded : ∀ c ∈ assignment, c < lists) (trained : Trained stride lists model) (copied : Prop) [Decidable copied]
    {grouped : List Nat}
    (grouping : CountingSort.scatter (CountingSort.offsets lists assignment) (assignment.zip members) (List.replicate members.length 0) = grouped) :
    Inverted stride rows norms members {
      centroids := model.1
      centroidNorms := model.2
      offsets := CountingSort.offsets lists assignment
      members := grouped
      rows := if copied then grouped.map fun i => rows.getD i [] else []
      norms := if copied then grouped.map fun i => norms.getD i 0 else [] } := by
  have keys : (assignment.zip members).map Prod.fst = assignment := map_fst_zip (Nat.le_of_eq size)
  have values : (assignment.zip members).map Prod.snd = members := map_snd_zip (Nat.le_of_eq size.symm)
  have sorted : ∀ item ∈ assignment.zip members, item.1 < lists := fun item member =>
    bounded item.1 (of_mem_zip member).1
  have length : grouped.length = members.length := by
    rw [← grouping, CountingSort.scatter_length, length_replicate]
  have offset (c : Nat) (inside : c ≤ lists) := CountingSort.offsets_getD bounded c inside
  have group (c : Nat) (inside : c < lists) : slice grouped ((CountingSort.offsets lists assignment).getD c 0)
      ((CountingSort.offsets lists assignment).getD (c + 1) 0) =
        ((assignment.zip members).filter fun item => item.1 = c).map Prod.snd := by
    have cut := CountingSort.scatter_slice sorted (List.replicate members.length 0) (by simp [size]) c inside
    rw [keys, grouping] at cut
    rw [offset c (by omega), offset (c + 1) inside, slice, CountingSort.below_succ, Nat.add_sub_cancel_left, cut]
  have count := trained.count
  refine ⟨⟨rfl, trained.rows, trained.norms⟩, ?_, ?_, ?_, ?_⟩
  · intro c inside
    rw [count] at inside
    rw [offset c (by omega), offset (c + 1) inside, length, ← size]
    exact ⟨CountingSort.below_mono assignment (by omega), countP_le_length⟩
  · intro c inside
    rw [count] at inside
    rw [LabelIvf.list, group c inside]
    nth_rewrite 2 [← values]
    exact filter_sublist.map Prod.snd
  · have all := CountingSort.flatMap_filter_perm sorted
    rw [values] at all
    have lists_eq : (List.range lists).flatMap (fun c => slice grouped ((CountingSort.offsets lists assignment).getD c 0)
        ((CountingSort.offsets lists assignment).getD (c + 1) 0)) =
        (List.range lists).flatMap fun c => ((assignment.zip members).filter fun item => item.1 = c).map Prod.snd :=
      flatMap_congr fun c inside => group c (mem_range.mp inside)
    rw [count]
    exact lists_eq ▸ all
  · by_cases copy : copied
    · exact .inr ⟨if_pos copy, if_pos copy⟩
    · exact .inl (if_neg copy)

theorem listCount_pos (some_lists : params.maxLists ≠ 0) : 0 < listCount size params := by
  unfold listCount
  omega

include narrow each

theorem trainLabel_ok (sampling : Sampling) {members : List Nat} (held : members ≠ [])
    (inside : ∀ i ∈ members, i < rows.length) (short : members.length < 2 ^ 32) {params : BuildParams}
    (some_lists : params.maxLists ≠ 0) (salt : UInt64) :
    ∃ ivf, trainLabel kernels sampling rows norms stride members params salt = .ok ivf ∧
      Inverted stride rows norms members ivf := by
  have some : 0 < listCount members.length params := listCount_pos some_lists
  unfold trainLabel
  dsimp only [bind, Except.bind]
  generalize listCount members.length params = lists at some
  generalize train : min (lists * params.trainPerList) members.length = trainN
  have within := mem_trainSample sampling held params salt trainN
  have size : (trainSample sampling members params salt trainN).length = trainN := by simp [trainSample]
  generalize trainSample sampling members params salt trainN = sample at within size
  have known : ∀ i ∈ sample, i < rows.length := fun i member => inside i (within i member)
  have first : ∀ c ∈ (List.range lists).map (fun c => rows.getD (sample.getD (sampling.pick c trainN lists) 0) []),
      Row stride c := by
    intro c member
    obtain ⟨j, -, rfl⟩ := mem_map.mp member
    apply row_getD each
    by_cases there : sampling.pick j trainN lists < sample.length
    · exact known _ (by simp [there])
    · obtain ⟨i, member⟩ := exists_mem_of_ne_nil members held
      have least := inside i member
      rw [getD_eq_default _ _ (by omega)]
      omega
  generalize centroids_eq : (List.range lists).map
    (fun c => rows.getD (sample.getD (sampling.pick c trainN lists) 0) []) = centroids at first
  have count : centroids.length = lists := by rw [← centroids_eq, length_map, length_range]
  have norms_ok : centroids.mapM norm = .ok (centroids.map fun c => dot c c) :=
    mapM_ok fun c member => norm_ok narrow (first c member)
  have start : Trained stride lists (centroids, centroids.map fun c => dot c c) := ⟨count, first, rfl⟩
  obtain ⟨model, iterated, trained⟩ := iterate_ok narrow each kernels known (by omega) some params.kmeansIters start
  obtain ⟨assignment, assigned, related⟩ := exists_mapM_ok (R := fun _ c => c < lists) fun i (member : i ∈ members) =>
    assign_ok narrow kernels (row_getD each (inside i member)) some trained
  refine ⟨_, ?_, inverted_of_grouped related.length_eq.symm (forall_right related) trained
    (members.length ≥ params.copyMin) rfl⟩
  rw [norms_ok]
  dsimp only
  rw [iterated]
  dsimp only
  rw [assigned]
  simp only [decide_eq_true_eq]
  rfl

end Warm.Filter
