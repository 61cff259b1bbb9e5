import Warm.FilterBuild
import Warm.TopK

/-! Searches of the filtered index. The cursors of the other labels move forward only, which is enough
as ids arrive ascending; every path gives the best of the matching points it looked at. -/
namespace Warm.Filter

open FilteredIndex List

section Cursors

variable {p : List Nat} {c : Nat}

/-- A cursor that has passed only postings below the id. -/
structure Reached (p : List Nat) (wanted c : Nat) : Prop where
  inside : c ≤ p.length
  before : ∀ j < c, p.getD j 0 < wanted

theorem Reached.mono (reached : Reached p wanted c) (le : wanted ≤ later) : Reached p later c :=
  ⟨reached.inside, fun j less => Nat.lt_of_lt_of_le (reached.before j less) le⟩

theorem reached_zero (p : List Nat) (wanted : Nat) : Reached p wanted 0 :=
  ⟨Nat.zero_le _, fun j less => absurd less (Nat.not_lt_zero j)⟩

theorem getD_lt_getD (ascending : p.Pairwise (· < ·)) (less : i < j) (inside : j < p.length) :
    p.getD i 0 < p.getD j 0 := by
  have order := pairwise_iff_getElem.mp ascending i j (by omega) inside less
  rwa [getD_eq_getElem _ _ inside, getD_eq_getElem _ _ (by omega)]

theorem gallop_spec (fuel : Nat) {lo step : Nat} (forward : 0 < step) (inside : lo < p.length)
    (low : p.getD lo 0 < wanted) (enough : p.length ≤ lo + fuel) {last stride : Nat}
    (stopped : gallop p wanted fuel lo step = (last, stride)) :
    lo ≤ last ∧ last < p.length ∧ p.getD last 0 < wanted ∧
      ¬ (last + stride < p.length ∧ p.getD (last + stride) 0 < wanted) := by
  induction fuel generalizing lo step with
  | zero => omega
  | succ fuel ih =>
    rw [gallop] at stopped
    by_cases further : lo + step < p.length ∧ p.getD (lo + step) 0 < wanted
    · rw [if_pos further] at stopped
      obtain ⟨above, rest⟩ := ih (by omega) further.1 further.2 (by omega) stopped
      exact ⟨by omega, rest⟩
    · rw [if_neg further] at stopped
      obtain ⟨rfl, rfl⟩ := Prod.mk.inj stopped
      exact ⟨Nat.le_refl _, inside, low, further⟩

theorem partitionPoint_spec (f : Nat → Bool) (l : List Nat) :
    partitionPoint f l ≤ l.length ∧ (∀ j < partitionPoint f l, f (l.getD j 0) = true) ∧
      (partitionPoint f l < l.length → f (l.getD (partitionPoint f l) 0) = false) := by
  induction l with
  | nil => simp [partitionPoint]
  | cons x l ih =>
    by_cases first : f x = true
    · have point : partitionPoint f (x :: l) = partitionPoint f l + 1 := by simp [partitionPoint, first]
      obtain ⟨inside, before, after⟩ := ih
      rw [point]
      refine ⟨Nat.succ_le_succ inside, ?_, ?_⟩
      · intro j less
        cases j with
        | zero => exact first
        | succ j => exact before j (by omega)
      · intro less
        exact after (Nat.lt_of_succ_lt_succ less)
    · have point : partitionPoint f (x :: l) = 0 := by simp [partitionPoint, first]
      rw [point]
      refine ⟨Nat.zero_le _, ?_, ?_⟩
      · intro j less
        exact absurd less (Nat.not_lt_zero j)
      · intro _
        simpa using first

theorem getD_slice (inside : j < b - a) : (slice p a b).getD j 0 = p.getD (a + j) 0 := by
  simp only [slice, getD_eq_getElem?_getD, getElem?_take_of_lt inside, getElem?_drop]

theorem slice_length (inside : b ≤ p.length) : (slice p a b).length = b - a := by
  rw [slice, length_take, length_drop]
  omega

theorem advance_spec (ascending : p.Pairwise (· < ·)) {wanted : Nat} (reached : Reached p wanted c) :
    Reached p wanted (advance p c wanted) ∧
      (advance p c wanted < p.length → wanted ≤ p.getD (advance p c wanted) 0) := by
  unfold advance
  by_cases below : c < p.length ∧ p.getD c 0 < wanted
  · rw [if_pos below]
    generalize stopped : gallop p wanted p.length c 1 = result
    obtain ⟨lo, step⟩ := result
    obtain ⟨-, inside, low, further⟩ := gallop_spec p.length Nat.one_pos below.1 below.2 (by omega) stopped
    dsimp only
    obtain ⟨most, before, after⟩ :=
      partitionPoint_spec (· < wanted) (slice p (lo + 1) (min (lo + step + 1) p.length))
    generalize partitionPoint (· < wanted) (slice p (lo + 1) (min (lo + step + 1) p.length)) = point at most before after
    rw [slice_length (Nat.min_le_right _ _)] at most after
    refine ⟨⟨by omega, ?_⟩, ?_⟩
    · intro j less
      by_cases old : j ≤ lo
      · rcases Nat.lt_or_eq_of_le old with earlier | rfl
        · exact (getD_lt_getD ascending earlier inside).trans low
        · exact low
      · have small := before (j - (lo + 1)) (by omega)
        rw [getD_slice (by omega), Nat.add_sub_cancel' (by omega)] at small
        exact of_decide_eq_true small
    · intro less
      by_cases stop : point < min (lo + step + 1) p.length - (lo + 1)
      · have large := after stop
        rw [getD_slice stop] at large
        exact Nat.le_of_not_lt (of_decide_eq_false large)
      · -- Everything up to where galloping stopped is below the id, which ends at the list's end only.
        exfalso
        have short : lo + step + 1 ≤ p.length := by omega
        by_cases still : step = 0
        · subst still
          exact further ⟨by omega, low⟩
        · have small := before (step - 1) (by omega)
          rw [getD_slice (by omega)] at small
          have place : lo + 1 + (step - 1) = lo + step := by omega
          rw [place] at small
          exact further ⟨by omega, of_decide_eq_true small⟩
  · rw [if_neg below]
    exact ⟨reached, fun inside => Nat.le_of_not_lt fun less => below ⟨inside, less⟩⟩

theorem mem_iff_reached (ascending : p.Pairwise (· < ·)) (reached : Reached p wanted c)
    (stopped : c < p.length → wanted ≤ p.getD c 0) : wanted ∈ p ↔ ¬ (c ≥ p.length ∨ p.getD c 0 ≠ wanted) := by
  constructor
  · intro member
    obtain ⟨i, inside, same⟩ := mem_iff_getElem.mp member
    have value : p.getD i 0 = wanted := by rw [getD_eq_getElem _ _ inside, same]
    have reachable : c ≤ i := by
      by_contra passed
      have less := reached.before i (by omega)
      omega
    rcases Nat.lt_or_eq_of_le reachable with earlier | rfl
    · have order := getD_lt_getD ascending earlier inside
      have least := stopped (by omega)
      omega
    · intro other
      rcases other with past | apart
      · omega
      · exact apart value
  · intro found
    have inside : c < p.length := Nat.lt_of_not_le fun past => found (.inl past)
    have value : p.getD c 0 = wanted := by
      by_contra apart
      exact found (.inr apart)
    rw [← value, getD_eq_getElem _ _ inside]
    exact getElem_mem inside

end Cursors

section Matches

variable {index : FilteredIndex} {others : List Nat}

/-- The posting list and the bitset of a label are in order. -/
structure Label (index : FilteredIndex) (l : Nat) : Prop where
  ascending : (index.posting l).Pairwise (· < ·)
  bits : ∀ set, index.bitset l = some set → ∀ i, bit set i = decide (i ∈ index.posting l)

/-- The cursors have passed only postings below the id. -/
def Behind (index : FilteredIndex) (wanted : Nat) (others cursors : List Nat) : Prop :=
  List.Forall₂ (fun l c => Reached (index.posting l) wanted c) others cursors

theorem behind_zero (index : FilteredIndex) (wanted : Nat) (others : List Nat) :
    Behind index wanted others (List.replicate others.length 0) := by
  induction others with
  | nil => exact .nil
  | cons l others ih => exact .cons (reached_zero _ _) ih

theorem holds_spec (sound : ∀ l ∈ others, Label index l) (behind : Behind index wanted others cursors) :
    (index.holds wanted others cursors).1 = decide (∀ l ∈ others, wanted ∈ index.posting l) ∧
      Behind index wanted others (index.holds wanted others cursors).2 := by
  induction behind with
  | nil => exact ⟨by simp [holds], .nil⟩
  | @cons l c others cursors reached behind ih =>
    obtain ⟨answer, after⟩ := ih (forall_mem_cons.mp sound).2
    have own := sound l mem_cons_self
    rw [holds]
    dsimp only [headD_cons, tail_cons]
    cases found : index.bitset l with
    | some set =>
      dsimp only
      rw [own.bits set found wanted]
      by_cases member : wanted ∈ index.posting l
      · rw [if_pos (decide_eq_true member)]
        refine ⟨?_, .cons reached after⟩
        rw [answer, decide_eq_decide, forall_mem_cons]
        exact ⟨fun rest => ⟨member, rest⟩, fun all => all.2⟩
      · rw [if_neg (by simpa using member)]
        refine ⟨?_, .cons reached behind⟩
        rw [eq_comm, decide_eq_false_iff_not, forall_mem_cons]
        exact fun all => member all.1
    | none =>
      obtain ⟨moved, stopped⟩ := advance_spec own.ascending reached
      have decides := mem_iff_reached own.ascending moved stopped
      by_cases absent : advance (index.posting l) c wanted ≥ (index.posting l).length ∨
          (index.posting l).getD (advance (index.posting l) c wanted) 0 ≠ wanted
      · rw [if_pos absent]
        refine ⟨?_, .cons moved behind⟩
        rw [eq_comm, decide_eq_false_iff_not, forall_mem_cons]
        exact fun all => decides.mp all.1 absent
      · rw [if_neg absent]
        refine ⟨?_, .cons moved after⟩
        rw [answer, decide_eq_decide, forall_mem_cons]
        exact ⟨fun rest => ⟨decides.mpr absent, rest⟩, fun all => all.2⟩

/-- A live point with all the other labels. -/
def matched (index : FilteredIndex) (others : List Nat) (i : Nat) : Bool :=
  !index.isDeleted i && decide (∀ l ∈ others, i ∈ index.posting l)

theorem sift_spec (sound : ∀ l ∈ others, Label index l) (ascending : (items.map idOf).Pairwise (· < ·))
    (behind : ∀ item ∈ items, Behind index (idOf item) others cursors) :
    index.sift others idOf items cursors = items.filter fun item => matched index others (idOf item) := by
  induction items generalizing cursors with
  | nil => rfl
  | cons item items ih =>
    obtain ⟨first, rest⟩ := pairwise_cons.mp ascending
    have later : ∀ other ∈ items, Behind index (idOf other) others cursors := fun other member =>
      behind other (mem_cons_of_mem item member)
    rw [sift, filter_cons, matched]
    by_cases gone : index.isDeleted (idOf item) = true
    · rw [if_pos gone, gone, ih rest later]
      rfl
    · obtain ⟨answer, after⟩ := holds_spec sound (behind item mem_cons_self)
      have next : ∀ other ∈ items, Behind index (idOf other) others (index.holds (idOf item) others cursors).2 := by
        intro other member
        refine after.imp fun l c reached => reached.mono (Nat.le_of_lt (first _ (mem_map_of_mem member)))
      rw [if_neg gone]
      generalize index.holds (idOf item) others cursors = result at answer next
      obtain ⟨held, moved⟩ := result
      dsimp only at answer next ⊢
      rw [answer, ih rest next]
      simp [gone]

theorem sift_zero (sound : ∀ l ∈ others, Label index l) (ascending : (items.map idOf).Pairwise (· < ·)) :
    index.sift others idOf items (List.replicate others.length 0) =
      items.filter fun item => matched index others (idOf item) :=
  sift_spec sound ascending fun item _ => behind_zero index (idOf item) others

end Matches

section Best

/-- The first `k` hits in order. -/
def best (k : Nat) (hits : List Hit) : List Hit := (hits.insertionSort (· ≤ ·)).take k

/-- A key below the one of an empty result, `i64::MAX`. -/
def Small (hit : Hit) : Prop := (ofLex hit).1 < 9223372036854775807

theorem best_perm (perm : hits.Perm others) : best k hits = best k others := by
  rw [best, best, TopK.sort_perm perm]

theorem take_orderedInsert_take (hit : Hit) (l : List Hit) (k : Nat) :
    ((l.take k).orderedInsert (· ≤ ·) hit).take k = (l.orderedInsert (· ≤ ·) hit).take k := by
  induction l generalizing k with
  | nil => simp
  | cons x l ih =>
    cases k with
    | zero => simp
    | succ k =>
      by_cases le : hit ≤ x
      · simp only [take_succ_cons, orderedInsert_cons_of_le _ _ le]
        cases k with
        | zero => rfl
        | succ k => simp [take_take]
      · simp only [take_succ_cons, orderedInsert_of_not_le _ _ le]
        rw [ih k]

theorem insertIdx_partitionPoint (hit : Hit) (items : List Hit) :
    items.insertIdx (partitionPoint (fun e => decide (e < hit)) items) hit = items.orderedInsert (· ≤ ·) hit := by
  induction items with
  | nil => rfl
  | cons x items ih =>
    by_cases less : x < hit
    · have point : partitionPoint (fun e => decide (e < hit)) (x :: items) =
          partitionPoint (fun e => decide (e < hit)) items + 1 := by simp [partitionPoint, less]
      rw [point, insertIdx_succ_cons, ih, orderedInsert_of_not_le _ _ (not_le.mpr less)]
    · have point : partitionPoint (fun e => decide (e < hit)) (x :: items) = 0 := by simp [partitionPoint, less]
      rw [point, insertIdx_zero, orderedInsert_cons_of_le _ _ (not_lt.mp less)]

theorem push_best (k : Nat) (seen : List Hit) (small : Small hit) :
    push k (best k seen) hit = best k (hit :: seen) := by
  have sorted := pairwise_insertionSort (α := Hit) (· ≤ ·) seen
  unfold best
  rw [insertionSort_cons]
  generalize seen.insertionSort (· ≤ ·) = l at sorted
  unfold push
  by_cases full : k = 0 ∨ worst k (l.take k) ≤ hit
  · rw [if_pos full]
    by_cases none : k = 0
    · simp [none]
    have least := full.resolve_left none
    obtain ⟨k, rfl⟩ := Nat.exists_eq_succ_of_ne_zero none
    unfold worst at least
    by_cases room : (l.take (k + 1)).length < k + 1
    · rw [if_pos room] at least
      rw [Prod.Lex.le_iff] at least
      have key : (ofLex hit).1 < 9223372036854775807 := small
      simp only [ofLex_toLex] at least
      omega
    · rw [if_neg room] at least
      have inside : k < l.length := by
        rw [length_take] at room
        omega
      have last : (l.take (k + 1)).getD (k + 1 - 1) (toLex (0, 0)) = l[k] := by
        simp [getD_eq_getElem?_getD, inside]
      rw [last] at least
      exact (TopK.take_orderedInsert_le sorted k inside least).symm
  · rw [if_neg full]
    dsimp only
    rw [insertIdx_partitionPoint, take_orderedInsert_take]

theorem foldl_push (k : Nat) (seen : List Hit) (small : ∀ hit ∈ hits, Small hit) :
    hits.foldl (push k) (best k seen) = best k (seen ++ hits) := by
  induction hits generalizing seen with
  | nil => rw [foldl_nil, append_nil]
  | cons hit hits ih =>
    rw [foldl_cons, push_best k seen (small hit mem_cons_self),
      ih (hit :: seen) (forall_mem_cons.mp small).2]
    apply best_perm
    rw [cons_append]
    exact perm_middle.symm

variable {stride : Nat} (narrow : stride ≤ maxStride) {q : List Int} (query : Row stride q)

include narrow query

theorem small_hitOf {entry : Entry} (row : Row stride entry.row) : Small (hitOf q entry) := by
  obtain ⟨least, -⟩ := abs_lt.mp (abs_dot_lt query.octets row.octets (query.width ▸ narrow))
  obtain ⟨-, high⟩ := abs_lt.mp (abs_dot_lt row.octets row.octets (row.width ▸ narrow))
  show dot entry.row entry.row - 2 * dot q entry.row < 9223372036854775807
  linarith

theorem score_ok (kernels : Kernels) (k : Nat) (seen : List Hit) (sound : ∀ entry ∈ entries, Sound stride entry) :
    score kernels q q.sum k entries (best k seen) = .ok (best k (seen ++ entries.map (hitOf q))) := by
  rw [score, keysOf_ok narrow kernels query sound]
  refine congrArg Except.ok (foldl_push k seen ?_)
  intro hit member
  obtain ⟨entry, within, rfl⟩ := mem_map.mp member
  exact small_hitOf narrow query (sound entry within).row

end Best

end Warm.Filter
