import Warm.Binding
import Mathlib.Data.List.Dedup

/-! Majority bundling: the counts of the indices of a list of vectors, taken in a histogram that one
thread keeps between calls, or by sorting all indices and measuring their runs. `u32` additions wrap,
as in the release build. -/
namespace Warm.Bundle

open List

def BUNDLE_COUNTING_MAX_DIM : Nat := 65536

/-- The thread's histogram. -/
abbrev Counts := List UInt32

/-- An index and how often it was counted. -/
abbrev Counted := UInt32 × UInt32

def allIndices (vectors : List VectorRecord) : List UInt32 := vectors.flatMap (·.indices)

def resize (counts : Counts) (dim : Nat) : Counts :=
  if counts.length < dim then counts ++ List.replicate (dim - counts.length) 0 else counts

/-- `counts[idx] += 1` for every index. -/
def fill (counts : Counts) (indices : List UInt32) : Counts :=
  indices.foldl (fun counts idx => counts.modify idx.toNat (· + 1)) counts

/-- Takes the counted slots in the order of the indices, each with its count the first time it comes up. -/
def visit (threshold : UInt32) : Counts → List UInt32 → Counts × List Counted
  | counts, [] => (counts, [])
  | counts, idx :: indices =>
    let n := counts.getD idx.toNat 0
    let (counts, selected) := visit threshold (counts.set idx.toNat 0) indices
    (counts, if threshold ≤ n then (idx, n) :: selected else selected)

/-- Takes every slot below the dimension. -/
def sweep (threshold : UInt32) (dim : Nat) (counts : Counts) : Counts × List Counted :=
  (List.replicate (counts.take dim).length 0 ++ counts.drop dim,
    (counts.take dim).zipIdx.filterMap fun (n, idx) => if threshold ≤ n then some (.ofNat idx, n) else none)

/-- `sort_unstable_by_key(|&(idx, _)| idx)`; entries of one index stay in their order. -/
def sortByIndex (selected : List Counted) : List Counted := selected.mergeSort fun x y => decide (x.1 ≤ y.1)

def countMajority (vectors : List VectorRecord) (dim : Nat) (threshold : UInt32) (counts : Counts) :
    Option (List Counted) × Counts :=
  if dim > BUNDLE_COUNTING_MAX_DIM then (none, counts)
  else if (allIndices vectors).any fun idx => decide (dim ≤ idx.toNat) then (none, counts)
  else
    let total := (vectors.map fun v => v.indices.length).sum
    let counts := fill (resize counts dim) (allIndices vectors)
    if total < dim then
      let (counts, selected) := visit threshold counts (allIndices vectors)
      (some (sortByIndex selected), counts)
    else
      let (counts, selected) := sweep threshold dim counts
      (some selected, counts)

/-- The runs of sorted indices, from the one under way. -/
def runLoop (threshold : UInt32) : UInt32 → UInt32 → List UInt32 → List Counted
  | current, count, [] => if threshold ≤ count then [(current, count)] else []
  | current, count, idx :: rest =>
    if idx = current then runLoop threshold current (count + 1) rest
    else (if threshold ≤ count then [(current, count)] else []) ++ runLoop threshold idx 1 rest

def runLengths (vectors : List VectorRecord) (threshold : UInt32) : List Counted :=
  match (allIndices vectors).mergeSort fun x y => decide (x ≤ y) with
  | [] => []
  | current :: rest => runLoop threshold current 1 rest

/-- The indices with their counts that `bundle` goes on with: the histogram's, or those of the runs. -/
def majority (vectors : List VectorRecord) (dim : Nat) (threshold : UInt32) (counts : Counts) : List Counted × Counts :=
  match countMajority vectors dim threshold counts with
  | (some selected, counts) => (selected, counts)
  | (none, counts) => (runLengths vectors threshold, counts)

/-- `(n as u32).div_ceil(2)`. -/
def threshold (n : Nat) : UInt32 := (UInt32.ofNat n) / 2 + (UInt32.ofNat n) % 2

/-- `from_selected`; `mostCounted` is the selection by count and the truncation. -/
def fromSelected (mostCounted : Nat → List Counted → List Counted) (selected : List Counted) (dim : UInt64)
    (targetCount : Nat) : VectorRecord :=
  let selected := if selected.length > targetCount then mostCounted targetCount selected else selected
  ⟨dim, (selected.map Prod.fst).mergeSort fun x y => decide (x ≤ y)⟩

def bundle (mostCounted : Nat → List Counted → List Counted) (vectors : List VectorRecord) (counts : Counts) :
    VectorRecord × Counts :=
  match vectors with
  | [] => (⟨0, []⟩, counts)
  | first :: _ =>
    let targetCount := max (first.dim.toNat / 256) 1
    let (selected, counts) := majority vectors first.dim.toNat (threshold vectors.length) counts
    (fromSelected mostCounted selected first.dim targetCount, counts)

/-! ### What is to be counted -/

/-- One call of `count_majority`. -/
structure Call where
  vectors : List VectorRecord
  dim : Nat
  threshold : UInt32

/-- The histogram after a sequence of calls on one thread. -/
def run (calls : List Call) (counts : Counts) : Counts :=
  calls.foldl (fun counts call => (majority call.vectors call.dim call.threshold counts).2) counts

def Call.count (call : Call) (i : UInt32) : Nat := (allIndices call.vectors).count i

def Zeroed (counts : Counts) : Prop := ∀ n ∈ counts, n = 0

/-- The two counts agree, their indices are the ones counted as often as the threshold says, ascending, and the
histogram is all zero. -/
structure Right (call : Call) (counts : Counts) : Prop where
  agree : (majority call.vectors call.dim call.threshold counts).1 = runLengths call.vectors call.threshold
  ascending : ((runLengths call.vectors call.threshold).map Prod.fst).Pairwise (· < ·)
  members : ∀ i, i ∈ (runLengths call.vectors call.threshold).map Prod.fst ↔
    0 < call.count i ∧ call.threshold.toNat ≤ call.count i
  zeroed : Zeroed (majority call.vectors call.dim call.threshold counts).2

def Call.inHistogram (call : Call) : Bool :=
  decide (call.dim ≤ BUNDLE_COUNTING_MAX_DIM) && (allIndices call.vectors).all fun idx => decide (idx.toNat < call.dim)

/-- No count loses the threshold by wrapping; and where the threshold is zero, the histogram's slots that are
looked at are those of the indices, once each. -/
structure Sound (call : Call) : Prop where
  unwrapped : ∀ i, call.threshold.toNat ≤ call.count i → call.threshold.toNat ≤ call.count i % 2 ^ 32
  positive : call.threshold = 0 → call.inHistogram = true →
    if (allIndices call.vectors).length < call.dim then (allIndices call.vectors).Nodup
    else ∀ i < call.dim, UInt32.ofNat i ∈ allIndices call.vectors

/-! ### The histogram -/

theorem zeroed_iff (counts : Counts) : Zeroed counts ↔ ∀ j, counts.getD j 0 = 0 := by
  constructor
  · intro zeroed j
    rw [getD_eq_getElem?_getD]
    cases found : counts[j]? with
    | none => rfl
    | some n => exact zeroed n (mem_of_getElem? found)
  · intro each n member
    obtain ⟨j, found⟩ := getElem?_of_mem member
    have zero := each j
    rwa [getD_eq_getElem?_getD, found] at zero

theorem Zeroed.resize (zeroed : Zeroed counts) (dim : Nat) : Zeroed (resize counts dim) := by
  unfold Bundle.resize
  split
  · exact forall_mem_append.mpr ⟨zeroed, fun _ => eq_of_mem_replicate⟩
  · exact zeroed

section

variable (counts : Counts)
include counts

theorem length_resize (dim : Nat) : dim ≤ (resize counts dim).length := by
  unfold resize
  split
  · rw [length_append, length_replicate]
    omega
  · omega

theorem getD_modify (i j : Nat) :
    (counts.modify i (· + 1)).getD j 0 = if i = j ∧ j < counts.length then counts.getD j 0 + 1 else counts.getD j 0 := by
  rw [getD_eq_getElem?_getD, getD_eq_getElem?_getD, getElem?_modify]
  by_cases inside : j < counts.length
  · rw [getElem?_eq_getElem inside]
    by_cases same : i = j
    · rw [if_pos ⟨same, inside⟩]
      simp [same]
    · rw [if_neg fun both => same both.1]
      simp [same]
  · rw [getElem?_eq_none (by omega), if_neg fun both => inside both.2]
    rfl

@[simp] theorem length_fill (indices : List UInt32) : (fill counts indices).length = counts.length := by
  induction indices generalizing counts with
  | nil => rfl
  | cons i indices ih => exact (ih _).trans (length_modify ..)

theorem getD_fill (indices : List UInt32) (i : UInt32) (inside : i.toNat < counts.length) :
    (fill counts indices).getD i.toNat 0 = counts.getD i.toNat 0 + .ofNat (indices.count i) := by
  induction indices generalizing counts with
  | nil => exact (add_zero _).symm
  | cons first indices ih =>
    have step := ih (counts.modify first.toNat (· + 1)) (by rwa [length_modify])
    rw [getD_modify] at step
    rw [fill, foldl_cons, ← fill, step]
    by_cases same : first = i
    · subst same
      rw [if_pos ⟨rfl, inside⟩, count_cons_self, UInt32.ofNat_add]
      exact (add_assoc _ _ _).trans (congrArg _ (add_comm _ _))
    · rw [if_neg fun both => same (UInt32.toNat_inj.mp both.1), count_cons_of_ne same]

theorem getD_fill_other (indices : List UInt32) (j : Nat) (apart : ∀ i ∈ indices, i.toNat ≠ j) :
    (fill counts indices).getD j 0 = counts.getD j 0 := by
  induction indices generalizing counts with
  | nil => rfl
  | cons first indices ih =>
    rw [forall_mem_cons] at apart
    rw [fill, foldl_cons, ← fill, ih _ apart.2, getD_modify, if_neg fun both => apart.1 both.1]

theorem getD_set (i j : Nat) : (counts.set i 0).getD j 0 = if i = j then 0 else counts.getD j 0 := by
  rw [getD_eq_getElem?_getD, getD_eq_getElem?_getD, getElem?_set]
  split_ifs with same inside
  · rfl
  · rfl
  · rfl

end

theorem getD_visit (threshold : UInt32) (counts : Counts) (indices : List UInt32) (j : Nat) :
    (visit threshold counts indices).1.getD j 0 = if ∃ i ∈ indices, i.toNat = j then 0 else counts.getD j 0 := by
  induction indices generalizing counts with
  | nil => simp [visit]
  | cons first indices ih =>
    rw [visit]
    rw [ih, getD_set]
    by_cases later : ∃ i ∈ indices, i.toNat = j
    · obtain ⟨i, member, place⟩ := later
      rw [if_pos ⟨i, member, place⟩, if_pos ⟨i, mem_cons_of_mem _ member, place⟩]
    · rw [if_neg later]
      by_cases same : first.toNat = j
      · rw [if_pos same, if_pos ⟨first, mem_cons_self, same⟩]
      · rw [if_neg same, if_neg]
        rintro ⟨i, member, place⟩
        rcases mem_cons.mp member with rfl | member
        · exact same place
        · exact later ⟨i, member, place⟩

theorem zeroed_visit (threshold : UInt32) (indices : List UInt32) (zeroed : Zeroed counts) :
    Zeroed (visit threshold (fill counts indices) indices).1 := by
  rw [zeroed_iff] at zeroed ⊢
  intro j
  rw [getD_visit]
  split
  · rfl
  next apart =>
    rw [getD_fill_other _ _ _ fun i member same => apart ⟨i, member, same⟩]
    exact zeroed j

theorem zeroed_sweep (threshold : UInt32) (zeroed : Zeroed counts) (inside : ∀ i ∈ indices, i.toNat < dim) :
    Zeroed (sweep threshold dim (fill counts indices)).1 := by
  intro n member
  rcases mem_append.mp member with member | member
  · exact eq_of_mem_replicate member
  · obtain ⟨j, found⟩ := getElem?_of_mem member
    rw [getElem?_drop] at found
    have kept := getD_fill_other counts indices (dim + j) fun i member same => by
      have := inside i member
      omega
    rw [getD_eq_getElem?_getD, found, (zeroed_iff counts).mp zeroed] at kept
    exact kept

theorem inHistogram_iff (call : Call) :
    call.inHistogram = true ↔ call.dim ≤ BUNDLE_COUNTING_MAX_DIM ∧ ∀ i ∈ allIndices call.vectors, i.toNat < call.dim := by
  rw [Call.inHistogram, Bool.and_eq_true, decide_eq_true_iff, all_eq_true]
  exact and_congr_right fun _ => forall₂_congr fun _ _ => decide_eq_true_iff

theorem length_allIndices (vectors : List VectorRecord) :
    (vectors.map fun v => v.indices.length).sum = (allIndices vectors).length :=
  length_flatMap.symm

theorem countMajority_outside (call : Call) (counts : Counts) (outside : call.inHistogram = false) :
    countMajority call.vectors call.dim call.threshold counts = (none, counts) := by
  unfold countMajority
  split_ifs with wide found
  · rfl
  · rfl
  · refine absurd ((inHistogram_iff call).mpr ⟨not_lt.mp wide, fun i member => ?_⟩) (by rw [outside]; decide)
    by_contra far
    exact found (any_eq_true.mpr ⟨i, member, decide_eq_true (not_lt.mp far)⟩)

theorem countMajority_inside (call : Call) (counts : Counts) (inside : call.inHistogram = true) :
    countMajority call.vectors call.dim call.threshold counts =
      if (allIndices call.vectors).length < call.dim then
        (some (sortByIndex (visit call.threshold (fill (resize counts call.dim) (allIndices call.vectors))
            (allIndices call.vectors)).2),
          (visit call.threshold (fill (resize counts call.dim) (allIndices call.vectors)) (allIndices call.vectors)).1)
      else
        (some (sweep call.threshold call.dim (fill (resize counts call.dim) (allIndices call.vectors))).2,
          (sweep call.threshold call.dim (fill (resize counts call.dim) (allIndices call.vectors))).1) := by
  obtain ⟨small, below⟩ := (inHistogram_iff call).mp inside
  have found : ¬(allIndices call.vectors).any (fun idx => decide (call.dim ≤ idx.toNat)) = true := by
    rw [any_eq_true]
    rintro ⟨i, member, far⟩
    have := below i member
    have := of_decide_eq_true far
    omega
  rw [countMajority, if_neg (by omega), if_neg found, length_allIndices]

theorem zeroed_majority (call : Call) (zeroed : Zeroed counts) :
    Zeroed (majority call.vectors call.dim call.threshold counts).2 := by
  rw [majority]
  cases inside : call.inHistogram with
  | false =>
    rw [countMajority_outside call counts inside]
    exact zeroed
  | true =>
    rw [countMajority_inside call counts inside]
    split
    next few =>
      split at few
      · cases few
        exact zeroed_visit _ _ (zeroed.resize _)
      · cases few
        exact zeroed_sweep call.threshold (zeroed.resize _) ((inHistogram_iff call).mp inside).2
    next few =>
      split at few <;> cases few

theorem zeroed_run (calls : List Call) (zeroed : Zeroed counts) : Zeroed (run calls counts) := by
  induction calls generalizing counts with
  | nil => exact zeroed
  | cons call calls ih => exact ih (zeroed_majority call zeroed)

/-! ### The runs -/

/-- How often an index was counted, as a `u32`. -/
def counted (indices : List UInt32) (i : UInt32) : UInt32 := .ofNat (indices.count i)

def InOrder (selected : List Counted) : Prop := selected.Pairwise fun x y => x.1 < y.1

theorem InOrder.ext (left : InOrder a) (right : InOrder b) (same : ∀ x, x ∈ a ↔ x ∈ b) : a = b := by
  have : Std.Irrefl fun x y : Counted => x.1 < y.1 := ⟨fun x => lt_irrefl x.1⟩
  have : Std.Antisymm fun x y : Counted => x.1 < y.1 := ⟨fun x y less greater => absurd greater (lt_asymm less)⟩
  exact left.eq_of_mem_iff right same

theorem InOrder.map_fst (ordered : InOrder selected) : (selected.map Prod.fst).Pairwise (· < ·) :=
  pairwise_map.mpr ordered

theorem counted_cons_self (i : UInt32) (indices : List UInt32) : counted (i :: indices) i = 1 + counted indices i := by
  rw [counted, count_cons_self, UInt32.ofNat_add, add_comm]
  rfl

theorem counted_cons_of_ne (indices : List UInt32) (apart : first ≠ i) :
    counted (first :: indices) i = counted indices i := by
  rw [counted, count_cons_of_ne apart, counted]

theorem counted_of_not_mem (absent : i ∉ indices) : counted indices i = 0 := by
  rw [counted, count_eq_zero.mpr absent]
  rfl

theorem mem_run (threshold current count i n : UInt32) :
    (i, n) ∈ (if threshold ≤ count then [(current, count)] else []) ↔ threshold ≤ n ∧ i = current ∧ n = count := by
  split
  next reached =>
    rw [mem_singleton, Prod.mk.injEq]
    exact ⟨fun same => ⟨same.2 ▸ reached, same⟩, fun both => both.2⟩
  next short => exact ⟨fun member => absurd member not_mem_nil, fun both => absurd (both.2.2 ▸ both.1) short⟩

theorem mem_runLoop (threshold current count : UInt32) (sorted : (current :: rest).Pairwise (· ≤ ·)) (i n : UInt32) :
    (i, n) ∈ runLoop threshold current count rest ↔
      threshold ≤ n ∧ (i = current ∧ n = count + counted rest i ∨ i ≠ current ∧ i ∈ rest ∧ n = counted rest i) := by
  induction rest generalizing current count with
  | nil =>
    rw [runLoop, mem_run, counted_of_not_mem not_mem_nil, add_zero]
    refine and_congr_right fun _ => ⟨.inl, ?_⟩
    rintro (own | ⟨_, member, _⟩)
    · exact own
    · exact absurd member not_mem_nil
  | cons idx rest ih =>
    rw [runLoop]
    split
    next same =>
      subst same
      rw [ih idx (count + 1) (pairwise_cons.mp sorted).2]
      refine and_congr_right fun _ => or_congr (and_congr_right fun own => ?_) (and_congr_right fun apart => ?_)
      · subst own
        rw [counted_cons_self, add_assoc]
      · rw [counted_cons_of_ne rest (Ne.symm apart), mem_cons, or_iff_right apart]
    next apart =>
      obtain ⟨least, sorted'⟩ := pairwise_cons.mp sorted
      have below := lt_of_le_of_ne (least idx mem_cons_self) (Ne.symm apart)
      have absent : current ∉ idx :: rest := by
        intro member
        rcases mem_cons.mp member with same | member
        · exact apart same.symm
        · exact absurd ((pairwise_cons.mp sorted').1 current member) (not_le.mpr below)
      rw [mem_append, mem_run, ih idx 1 sorted', ← and_or_left]
      refine and_congr_right fun _ => or_congr (and_congr_right fun own => ?_) ?_
      · subst own
        rw [counted_of_not_mem absent, add_zero]
      · by_cases own : i = idx
        · subst own
          rw [counted_cons_self]
          have other : i ≠ current := apart
          have inside : i ∈ i :: rest := mem_cons_self
          tauto
        · rw [counted_cons_of_ne rest (Ne.symm own), mem_cons]
          have other (member : i ∈ rest) : i ≠ current := by
            rintro rfl
            exact absent (mem_cons_of_mem _ member)
          tauto

theorem inOrder_runLoop (threshold current count : UInt32) (sorted : (current :: rest).Pairwise (· ≤ ·)) :
    InOrder (runLoop threshold current count rest) := by
  induction rest generalizing current count with
  | nil =>
    rw [runLoop]
    split
    · exact pairwise_singleton _ _
    · exact .nil
  | cons idx rest ih =>
    rw [runLoop]
    split
    next same =>
      subst same
      exact ih idx (count + 1) (pairwise_cons.mp sorted).2
    next apart =>
      obtain ⟨least, sorted'⟩ := pairwise_cons.mp sorted
      have below := lt_of_le_of_ne (least idx mem_cons_self) (Ne.symm apart)
      refine pairwise_append.mpr ⟨?_, ih idx 1 sorted', ?_⟩
      · split
        · exact pairwise_singleton _ _
        · exact .nil
      · rintro ⟨i, n⟩ first ⟨j, m⟩ later
        obtain ⟨_, own, _⟩ := (mem_run threshold current count i n).mp first
        have after := ((mem_runLoop threshold idx 1 sorted' j m).mp later).2
        rw [own]
        rcases after with ⟨same, _⟩ | ⟨_, member, _⟩
        · exact same ▸ below
        · exact below.trans_le ((pairwise_cons.mp sorted').1 j member)

theorem sorted_mergeSort (indices : List UInt32) : (indices.mergeSort fun x y => decide (x ≤ y)).Pairwise (· ≤ ·) := by
  have sorted := @pairwise_mergeSort UInt32 (fun x y => decide (x ≤ y))
    (fun x y z first second => decide_eq_true ((of_decide_eq_true first).trans (of_decide_eq_true second)))
    (fun x y => by simpa using le_total x y) indices
  exact sorted.imp fun least => of_decide_eq_true least

theorem mem_runLengths (vectors : List VectorRecord) (threshold i n : UInt32) :
    (i, n) ∈ runLengths vectors threshold ↔
      threshold ≤ n ∧ i ∈ allIndices vectors ∧ n = counted (allIndices vectors) i := by
  have sorted := sorted_mergeSort (allIndices vectors)
  have perm := mergeSort_perm (allIndices vectors) fun x y => decide (x ≤ y)
  have count : counted (allIndices vectors) i = counted ((allIndices vectors).mergeSort fun x y => decide (x ≤ y)) i :=
    congrArg UInt32.ofNat (perm.count_eq i).symm
  rw [count, ← perm.mem_iff, runLengths]
  split
  next empty =>
    rw [empty]
    exact ⟨fun member => absurd member not_mem_nil, fun both => absurd both.2.1 not_mem_nil⟩
  next current rest found =>
    rw [found] at sorted ⊢
    rw [mem_runLoop threshold current 1 sorted]
    refine and_congr_right fun _ => ?_
    by_cases own : i = current
    · subst own
      rw [counted_cons_self]
      have inside : i ∈ i :: rest := mem_cons_self
      tauto
    · rw [counted_cons_of_ne rest (Ne.symm own), mem_cons]
      tauto

theorem inOrder_runLengths (vectors : List VectorRecord) (threshold : UInt32) : InOrder (runLengths vectors threshold) := by
  have sorted := sorted_mergeSort (allIndices vectors)
  rw [runLengths]
  split
  · exact .nil
  next current rest found =>
    rw [found] at sorted
    exact inOrder_runLoop threshold current 1 sorted

/-! ### What the histogram selects -/

theorem mem_visit {threshold : UInt32} (counts : Counts) (once : threshold ≠ 0 ∨ indices.Nodup) (i n : UInt32) :
    (i, n) ∈ (visit threshold counts indices).2 ↔ threshold ≤ n ∧ i ∈ indices ∧ n = counts.getD i.toNat 0 := by
  induction indices generalizing counts with
  | nil => exact ⟨fun member => absurd member not_mem_nil, fun both => absurd both.2.1 not_mem_nil⟩
  | cons first indices ih =>
    have once' : threshold ≠ 0 ∨ indices.Nodup := once.imp id fun distinct => (nodup_cons.mp distinct).2
    have rest := ih (counts.set first.toNat 0) once'
    rw [getD_set] at rest
    have head : (i, n) ∈ (visit threshold counts (first :: indices)).2 ↔
        threshold ≤ n ∧ i = first ∧ n = counts.getD first.toNat 0 ∨
          (i, n) ∈ (visit threshold (counts.set first.toNat 0) indices).2 := by
      rw [visit]
      dsimp only
      split
      next reached =>
        rw [mem_cons, Prod.mk.injEq]
        exact or_congr ⟨fun same => ⟨same.2 ▸ reached, same⟩, fun both => both.2⟩ Iff.rfl
      next short => exact ⟨.inr, fun either => either.elim (fun both => absurd (both.2.2 ▸ both.1) short) id⟩
    rw [head, rest, mem_cons]
    by_cases own : i = first
    · subst own
      have gone : ¬(threshold ≤ n ∧ i ∈ indices ∧ n = 0) := by
        rintro ⟨reached, member, rfl⟩
        rcases once with positive | distinct
        · exact positive (le_antisymm reached (UInt32.zero_le))
        · exact (nodup_cons.mp distinct).1 member
      rw [if_pos rfl, or_iff_left gone]
      exact and_congr_right fun _ => and_congr_left fun _ => iff_of_true rfl (.inl rfl)
    · rw [if_neg fun same => own (UInt32.toNat_inj.mp same).symm, or_iff_right fun both => own both.2.1,
        or_iff_right own]

theorem nodup_visit {threshold : UInt32} (counts : Counts) (once : threshold ≠ 0 ∨ indices.Nodup) :
    ((visit threshold counts indices).2.map Prod.fst).Nodup := by
  induction indices generalizing counts with
  | nil => exact .nil
  | cons first indices ih =>
    have once' : threshold ≠ 0 ∨ indices.Nodup := once.imp id fun distinct => (nodup_cons.mp distinct).2
    have rest := ih (counts.set first.toNat 0) once'
    rw [visit]
    dsimp only
    split
    · rw [map_cons, nodup_cons]
      refine ⟨fun member => ?_, rest⟩
      obtain ⟨⟨i, n⟩, member, rfl⟩ := mem_map.mp member
      obtain ⟨reached, inside, zero⟩ := (mem_visit _ once' i n).mp member
      rw [getD_set, if_pos rfl] at zero
      rcases once with positive | distinct
      · exact positive (le_antisymm (zero ▸ reached) (UInt32.zero_le))
      · exact (nodup_cons.mp distinct).1 inside
    · exact rest

theorem visit_zero (counts : Counts) (indices : List UInt32) : (visit 0 counts indices).2.map Prod.fst = indices := by
  induction indices generalizing counts with
  | nil => rfl
  | cons first indices ih =>
    rw [visit]
    dsimp only
    rw [if_pos UInt32.zero_le, map_cons, ih]

theorem sortByIndex_perm (selected : List Counted) : (sortByIndex selected).Perm selected := mergeSort_perm ..

theorem inOrder_sortByIndex (distinct : (selected.map Prod.fst).Nodup) : InOrder (sortByIndex selected) := by
  have sorted := @pairwise_mergeSort Counted (fun x y => decide (x.1 ≤ y.1))
    (fun x y z first second => decide_eq_true ((of_decide_eq_true first).trans (of_decide_eq_true second)))
    (fun x y => by simpa using le_total x.1 y.1) selected
  have apart := pairwise_map.mp (((sortByIndex_perm selected).map Prod.fst).nodup_iff.mpr distinct)
  exact (sorted.and apart).imp fun both => lt_of_le_of_ne (of_decide_eq_true both.1) both.2

theorem mem_sweep (threshold : UInt32) (small : dim ≤ BUNDLE_COUNTING_MAX_DIM) (sized : dim ≤ counts.length)
    (i n : UInt32) :
    (i, n) ∈ (sweep threshold dim counts).2 ↔ threshold ≤ n ∧ i.toNat < dim ∧ n = counts.getD i.toNat 0 := by
  have limit : BUNDLE_COUNTING_MAX_DIM < 2 ^ 32 := by decide
  rw [sweep, mem_filterMap]
  constructor
  · rintro ⟨⟨m, j⟩, member, taken⟩
    rw [mem_zipIdx_iff_getElem?] at member
    dsimp only at member taken
    split at taken
    next reached =>
      cases taken
      have inside : j < dim := by
        have := (List.getElem?_eq_some_iff.mp member).1
        rw [length_take] at this
        omega
      have index : (UInt32.ofNat j).toNat = j := UInt32.toNat_ofNat_of_lt' (show j < 2 ^ 32 by omega)
      rw [getElem?_take_of_lt inside] at member
      rw [index, getD_eq_getElem?_getD, member, Option.getD_some]
      exact ⟨reached, inside, rfl⟩
    next => cases taken
  · rintro ⟨reached, inside, rfl⟩
    refine ⟨(counts.getD i.toNat 0, i.toNat), ?_, ?_⟩
    · rw [mem_zipIdx_iff_getElem?]
      rw [getElem?_take_of_lt inside, getD_eq_getElem?_getD, getElem?_eq_getElem (inside.trans_le sized),
        Option.getD_some]
    · dsimp only
      rw [if_pos reached, UInt32.ofNat_toNat]

theorem inOrder_sweep (threshold : UInt32) (counts : Counts) (small : dim ≤ BUNDLE_COUNTING_MAX_DIM) :
    InOrder (sweep threshold dim counts).2 := by
  have limit : BUNDLE_COUNTING_MAX_DIM < 2 ^ 32 := by decide
  have places : ((counts.take dim).zipIdx.map Prod.snd).Pairwise (· < ·) := by
    rw [zipIdx_map_snd]
    exact pairwise_lt_range'
  have bounded : ∀ entry ∈ (counts.take dim).zipIdx, entry.2 < dim := by
    rintro ⟨m, j⟩ member
    have := (List.getElem?_eq_some_iff.mp (mem_zipIdx_iff_getElem?.mp member)).1
    rw [length_take] at this
    exact this.trans_le (min_le_left _ _)
  refine pairwise_filterMap.mpr ((pairwise_map.mp places).imp_of_mem ?_)
  rintro ⟨m, j⟩ ⟨m', j'⟩ first second less ⟨i, n⟩ taken ⟨i', n'⟩ taken'
  have below := bounded _ first
  have below' := bounded _ second
  dsimp only at below below' less taken taken'
  split at taken <;> cases taken
  split at taken' <;> cases taken'
  refine UInt32.lt_iff_toNat_lt.mpr ?_
  rwa [UInt32.toNat_ofNat_of_lt' (show j < 2 ^ 32 by omega), UInt32.toNat_ofNat_of_lt' (show j' < 2 ^ 32 by omega)]

/-! ### When the two counts agree -/

theorem getD_filled (zeroed : Zeroed counts) (indices : List UInt32) (inside : i.toNat < dim) :
    (fill (resize counts dim) indices).getD i.toNat 0 = counted indices i := by
  rw [getD_fill _ _ _ (inside.trans_le (length_resize counts dim)), (zeroed_iff _).mp (zeroed.resize dim), zero_add]
  rfl

theorem visit_agrees_iff (call : Call) {counts : Counts} (zeroed : Zeroed counts) (inside : call.inHistogram = true) :
    sortByIndex (visit call.threshold (fill (resize counts call.dim) (allIndices call.vectors)) (allIndices call.vectors)).2 =
        runLengths call.vectors call.threshold ↔
      (call.threshold = 0 → (allIndices call.vectors).Nodup) := by
  obtain ⟨_, below⟩ := (inHistogram_iff call).mp inside
  constructor
  · intro same zero
    have distinct := (inOrder_runLengths call.vectors call.threshold).map_fst.imp fun less => ne_of_lt less
    rw [← same, zero] at distinct
    have kept := (((sortByIndex_perm _).map Prod.fst).nodup_iff).mp distinct
    rwa [visit_zero] at kept
  · intro condition
    have once : call.threshold ≠ 0 ∨ (allIndices call.vectors).Nodup := by
      by_cases zero : call.threshold = 0
      · exact .inr (condition zero)
      · exact .inl zero
    refine (inOrder_sortByIndex (nodup_visit _ once)).ext (inOrder_runLengths _ _) fun ⟨i, n⟩ => ?_
    rw [(sortByIndex_perm _).mem_iff, mem_visit _ once, mem_runLengths]
    refine and_congr_right fun _ => and_congr_right fun member => ?_
    rw [getD_filled zeroed _ (below i member)]

theorem sweep_agrees_iff (call : Call) (zeroed : Zeroed counts) (inside : call.inHistogram = true) :
    (sweep call.threshold call.dim (fill (resize counts call.dim) (allIndices call.vectors))).2 =
        runLengths call.vectors call.threshold ↔
      (call.threshold = 0 → ∀ i < call.dim, UInt32.ofNat i ∈ allIndices call.vectors) := by
  obtain ⟨small, below⟩ := (inHistogram_iff call).mp inside
  have limit : BUNDLE_COUNTING_MAX_DIM < 2 ^ 32 := by decide
  have sized : call.dim ≤ (fill (resize counts call.dim) (allIndices call.vectors)).length := by
    rw [length_fill]
    exact length_resize counts call.dim
  have swept (i n : UInt32) :
      (i, n) ∈ (sweep call.threshold call.dim (fill (resize counts call.dim) (allIndices call.vectors))).2 ↔
        call.threshold ≤ n ∧ i.toNat < call.dim ∧ n = counted (allIndices call.vectors) i := by
    rw [mem_sweep _ small sized]
    refine and_congr_right fun _ => and_congr_right fun member => ?_
    rw [getD_filled zeroed _ member]
  constructor
  · intro same zero i less
    have index : (UInt32.ofNat i).toNat = i := UInt32.toNat_ofNat_of_lt' (show i < 2 ^ 32 by omega)
    have taken := (swept (.ofNat i) (counted (allIndices call.vectors) (.ofNat i))).mpr
      ⟨zero ▸ UInt32.zero_le, by rwa [index], rfl⟩
    rw [same, mem_runLengths] at taken
    exact taken.2.1
  · intro condition
    refine (inOrder_sweep _ _ small).ext (inOrder_runLengths _ _) fun ⟨i, n⟩ => ?_
    rw [swept, mem_runLengths]
    refine and_congr_right fun reached => and_congr_left fun count => ⟨fun less => ?_, below i⟩
    by_cases zero : call.threshold = 0
    · have member := condition zero i.toNat less
      rwa [UInt32.ofNat_toNat] at member
    · by_contra absent
      rw [count, counted_of_not_mem absent] at reached
      exact zero (le_antisymm reached UInt32.zero_le)

theorem agrees_iff (call : Call) (zeroed : Zeroed counts) :
    (majority call.vectors call.dim call.threshold counts).1 = runLengths call.vectors call.threshold ↔
      (call.threshold = 0 → call.inHistogram = true →
        if (allIndices call.vectors).length < call.dim then (allIndices call.vectors).Nodup
        else ∀ i < call.dim, UInt32.ofNat i ∈ allIndices call.vectors) := by
  rw [majority]
  cases inside : call.inHistogram with
  | false =>
    rw [countMajority_outside call counts inside]
    exact iff_of_true rfl fun _ histogram => absurd histogram (by decide)
  | true =>
    rw [countMajority_inside call counts inside]
    by_cases few : (allIndices call.vectors).length < call.dim
    · rw [if_pos few, if_pos few]
      exact (visit_agrees_iff call zeroed inside).trans ⟨fun known zero _ => known zero, fun known zero => known zero rfl⟩
    · rw [if_neg few, if_neg few]
      exact (sweep_agrees_iff call zeroed inside).trans ⟨fun known zero _ => known zero, fun known zero => known zero rfl⟩

theorem members_iff (call : Call) :
    (∀ i, i ∈ (runLengths call.vectors call.threshold).map Prod.fst ↔
        0 < call.count i ∧ call.threshold.toNat ≤ call.count i) ↔
      ∀ i, call.threshold.toNat ≤ call.count i → call.threshold.toNat ≤ call.count i % 2 ^ 32 := by
  refine forall_congr' fun i => ?_
  have listed : i ∈ (runLengths call.vectors call.threshold).map Prod.fst ↔
      0 < call.count i ∧ call.threshold.toNat ≤ call.count i % 2 ^ 32 := by
    rw [mem_map]
    have count : (counted (allIndices call.vectors) i).toNat = call.count i % 2 ^ 32 := UInt32.toNat_ofNat
    rw [← count, ← UInt32.le_iff_toNat_le, Call.count, count_pos_iff]
    constructor
    · rintro ⟨⟨j, n⟩, member, rfl⟩
      obtain ⟨reached, inside, rfl⟩ := (mem_runLengths _ _ _ _).mp member
      exact ⟨inside, reached⟩
    · rintro ⟨inside, reached⟩
      exact ⟨(i, _), (mem_runLengths _ _ _ _).mpr ⟨reached, inside, rfl⟩, rfl⟩
  rw [listed]
  have wrapped := Nat.mod_le (call.count i) (2 ^ 32)
  constructor
  · intro same reached
    rcases Nat.eq_zero_or_pos (call.count i) with zero | positive
    · rw [zero] at reached ⊢
      exact reached
    · exact (same.mpr ⟨positive, reached⟩).2
  · exact fun known => and_congr_right fun _ => ⟨fun low => low.trans wrapped, known⟩

/-- After any calls on the thread, a call counts right exactly when it is sound. -/
theorem majority_right_iff (earlier : List Call) (call : Call) : Right call (run earlier []) ↔ Sound call := by
  have zeroed : Zeroed (run earlier []) := zeroed_run earlier fun _ member => absurd member not_mem_nil
  constructor
  · exact fun right => ⟨(members_iff call).mp right.members, (agrees_iff call zeroed).mp right.agree⟩
  · exact fun sound => ⟨(agrees_iff call zeroed).mpr sound.positive, (inOrder_runLengths _ _).map_fst,
      (members_iff call).mpr sound.unwrapped, zeroed_majority call zeroed⟩

def Call.ofBundle (first : VectorRecord) (rest : List VectorRecord) : Call :=
  ⟨first :: rest, first.dim.toNat, Bundle.threshold (first :: rest).length⟩

theorem allIndices_replicate (n : Nat) : allIndices (List.replicate n ⟨2, [0]⟩) = List.replicate n 0 := by
  induction n with
  | zero => rfl
  | succ n ih =>
    rw [replicate_succ, allIndices, flatMap_cons, ← allIndices, ih]
    rfl

theorem not_right_replicate (some_ : 0 < n) (zero : threshold (n + 1) = 0) :
    ¬Right (.ofBundle ⟨2, [0]⟩ (List.replicate n ⟨2, [0]⟩)) [] := by
  intro right
  have all : allIndices (⟨2, [0]⟩ :: List.replicate n ⟨2, [0]⟩) = List.replicate (n + 1) 0 :=
    allIndices_replicate (n + 1)
  have inside : (Call.ofBundle ⟨2, [0]⟩ (List.replicate n ⟨2, [0]⟩)).inHistogram = true := by
    refine (inHistogram_iff _).mpr ⟨show 2 ≤ 65536 by decide, fun i member => ?_⟩
    rw [Call.ofBundle, all] at member
    rw [eq_of_mem_replicate member]
    exact Nat.zero_lt_two
  have known := (agrees_iff _ fun _ member => absurd member not_mem_nil).mp right.agree
    (by rw [Call.ofBundle, length_cons, length_replicate, zero]) inside
  rw [if_neg (by rw [Call.ofBundle, all, length_replicate]; exact not_lt.mpr (show 2 ≤ n + 1 by omega))] at known
  have member := known 1 Nat.one_lt_two
  rw [Call.ofBundle, all] at member
  exact absurd (eq_of_mem_replicate member) (by decide)

/-- As a `u32` the number of 2^32 vectors is zero, and so is their majority. -/
theorem bundle_miscounts :
    threshold (2 ^ 32) = 0 ∧ ¬Right (.ofBundle ⟨2, [0]⟩ (List.replicate (2 ^ 32 - 1) ⟨2, [0]⟩)) [] := by
  have zero : threshold (2 ^ 32) = 0 := by decide
  exact ⟨zero, not_right_replicate (by decide) zero⟩

end Warm.Bundle
