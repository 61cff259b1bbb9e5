import Warm.FilterIndex
import Mathlib.Algebra.BigOperators.Group.List.Lemmas

/-! The postings and bitsets of the filtered index. A posting list holds each point with the label
once, in ascending order, however often the point lists the label. -/
namespace Warm.Filter

open List
open CountingSort (below_mono below_succ getD_modify offsets_getD scatter)

section Collapse

/-- The ids of a run that differ from the one before them. -/
def collapse : Nat → List Nat → List Nat
  | _, [] => []
  | prev, x :: xs => if x ≠ prev then x :: collapse x xs else collapse prev xs

variable {prev : Nat} {xs : List Nat}

section

variable (sorted : xs.Pairwise (· ≤ ·))
include sorted

theorem mem_collapse_of_le (least : ∀ x ∈ xs, prev ≤ x) (y : Nat) :
    y ∈ collapse prev xs ↔ y ∈ xs ∧ y ≠ prev := by
  induction xs generalizing prev with
  | nil => simp [collapse]
  | cons x xs ih =>
    obtain ⟨head, tail⟩ := pairwise_cons.mp sorted
    have own := least x mem_cons_self
    by_cases same : x = prev
    · subst same
      rw [collapse, if_neg (by simp), ih tail head]
      simp only [mem_cons]
      constructor
      · rintro ⟨later, other⟩
        exact ⟨.inr later, other⟩
      · rintro ⟨rfl | later, other⟩
        · exact absurd rfl other
        · exact ⟨later, other⟩
    · rw [collapse, if_pos same, mem_cons, ih tail head, mem_cons]
      constructor
      · rintro (rfl | ⟨later, -⟩)
        · exact ⟨.inl rfl, same⟩
        · have above := head y later
          exact ⟨.inr later, by omega⟩
      · rintro ⟨rfl | later, -⟩
        · exact .inl rfl
        · by_cases equal : y = x
          · exact .inl equal
          · exact .inr ⟨later, equal⟩

theorem collapse_ascending_of_le (least : ∀ x ∈ xs, prev ≤ x) :
    (collapse prev xs).Pairwise (· < ·) := by
  induction xs generalizing prev with
  | nil => exact .nil
  | cons x xs ih =>
    obtain ⟨head, tail⟩ := pairwise_cons.mp sorted
    by_cases same : x = prev
    · subst same
      rw [collapse, if_neg (by simp)]
      exact ih tail head
    · rw [collapse, if_pos same]
      refine pairwise_cons.mpr ⟨?_, ih tail head⟩
      intro y member
      obtain ⟨later, other⟩ := (mem_collapse_of_le tail head y).mp member
      have above := head y later
      omega

theorem mem_collapse (fresh : prev ∉ xs) (y : Nat) : y ∈ collapse prev xs ↔ y ∈ xs := by
  cases xs with
  | nil => simp [collapse]
  | cons x xs =>
    obtain ⟨head, tail⟩ := pairwise_cons.mp sorted
    have other : x ≠ prev := fun same => fresh (same ▸ mem_cons_self)
    rw [collapse, if_pos other, mem_cons, mem_collapse_of_le tail head, mem_cons]
    by_cases equal : y = x
    · simp [equal]
    · simp [equal]

theorem collapse_ascending (fresh : prev ∉ xs) : (collapse prev xs).Pairwise (· < ·) := by
  cases xs with
  | nil => exact .nil
  | cons x xs =>
    obtain ⟨head, tail⟩ := pairwise_cons.mp sorted
    have other : x ≠ prev := fun same => fresh (same ▸ mem_cons_self)
    rw [collapse, if_pos other]
    refine pairwise_cons.mpr ⟨?_, collapse_ascending_of_le tail head⟩
    intro y member
    obtain ⟨later, apart⟩ := (mem_collapse_of_le tail head y).mp member
    have above := head y later
    omega

end

theorem collapse_length_le (prev : Nat) (xs : List Nat) : (collapse prev xs).length ≤ xs.length := by
  induction xs generalizing prev with
  | nil => exact Nat.le_refl 0
  | cons x xs ih =>
    by_cases same : x ≠ prev
    · rw [collapse, if_pos same]
      exact Nat.succ_le_succ (ih x)
    · rw [collapse, if_neg same]
      exact (ih prev).trans (Nat.le_succ _)

/-- What a run of the inner loop keeps: the ids written so far, and everything it has not read. -/
structure Collapsed (finish write : Nat) (out postings : List Nat) (result : List Nat × Nat) : Prop where
  moved : result.2 = write + out.length
  written : result.1.take result.2 = postings.take write ++ out
  unread : result.1.drop finish = postings.drop finish
  length : result.1.length = postings.length

theorem collapseRun_spec (m : Nat) (behind : write ≤ r) (prev : Nat) (postings : List Nat)
    (inside : r + m ≤ postings.length) :
    Collapsed (r + m) write (collapse prev ((postings.drop r).take m)) postings
      (collapseRun (List.range' r m) write prev postings) := by
  induction m generalizing r write prev postings with
  | zero => exact ⟨by simp [collapse, collapseRun], by simp [collapse, collapseRun], rfl, rfl⟩
  | succ m ih =>
    have here : r < postings.length := by omega
    have head : postings.drop r = postings[r] :: postings.drop (r + 1) := drop_eq_getElem_cons here
    have read : postings.getD r 0 = postings[r] := by simp [here]
    rw [range'_succ, collapseRun, read, head, take_succ_cons, collapse]
    have finish : r + (m + 1) = r + 1 + m := by omega
    by_cases same : postings[r] ≠ prev
    · rw [if_pos same, if_pos same]
      have later : (postings.set write postings[r]).drop (r + 1) = postings.drop (r + 1) :=
        drop_set_of_lt (by omega)
      have next := ih (by omega : write + 1 ≤ r + 1) postings[r] (postings.set write postings[r])
        (by rw [length_set]; omega)
      rw [later] at next
      refine ⟨?_, ?_, ?_, ?_⟩
      · rw [next.moved, length_cons]
        omega
      · have front : (postings.set write postings[r]).take (write + 1) = postings.take write ++ [postings[r]] := by
          have last := CountingSort.take_drop_set_last (a := 0) (m := write) postings postings[r] (by omega)
          simpa using last
        rw [next.written, front, append_assoc, singleton_append]
      · rw [finish, next.unread, drop_set_of_lt (by omega)]
      · rw [next.length, length_set]
    · rw [if_neg same, if_neg same]
      have next := ih (by omega : write ≤ r + 1) prev postings (by omega)
      exact ⟨next.moved, next.written, by rw [finish, next.unread], next.length⟩

/-- What the loop over labels keeps: the runs it wrote one after the other, and where each ended. -/
structure Packed (write : Nat) (runs : List (List Nat)) (postings : List Nat)
    (result : List Nat × List Nat × Nat) : Prop where
  ends : result.1 = (List.range runs.length).map fun i => write + ((runs.map List.length).take (i + 1)).sum
  written : result.2.1.take result.2.2 = postings.take write ++ runs.flatten

theorem collapseLabels_spec (offsets : List Nat) (m : Nat) (l write : Nat) (postings : List Nat)
    (rising : ∀ i j, l ≤ i → i ≤ j → j ≤ l + m → offsets.getD i 0 ≤ offsets.getD j 0)
    (behind : write ≤ offsets.getD l 0) (inside : offsets.getD (l + m) 0 ≤ postings.length) :
    Packed write ((List.range' l m).map fun i =>
        collapse 4294967295 (slice postings (offsets.getD i 0) (offsets.getD (i + 1) 0))) postings
      (collapseLabels offsets (List.range' l m) postings write) := by
  induction m generalizing l write postings with
  | zero => exact ⟨rfl, by simp [collapseLabels]⟩
  | succ m ih =>
    have first := rising l (l + 1) (by omega) (by omega) (by omega)
    have last := rising (l + 1) (l + (m + 1)) (by omega) (by omega) (by omega)
    have run := collapseRun_spec (offsets.getD (l + 1) 0 - offsets.getD l 0) behind 4294967295 postings (by omega)
    rw [Nat.add_sub_cancel' first] at run
    have short : (collapse 4294967295 (slice postings (offsets.getD l 0) (offsets.getD (l + 1) 0))).length ≤
        offsets.getD (l + 1) 0 - offsets.getD l 0 :=
      (collapse_length_le _ _).trans (length_take_le _ _)
    rw [range'_succ, map_cons, collapseLabels]
    generalize done : collapseRun (List.range' (offsets.getD l 0) (offsets.getD (l + 1) 0 - offsets.getD l 0)) write
      4294967295 postings = result at run
    obtain ⟨after, written⟩ := result
    obtain ⟨moved, front, unread, length⟩ := run
    dsimp only at moved front unread length ⊢
    rw [← slice] at moved front
    have rest := ih (l + 1) written after
      (fun i j low up high => rising i j (by omega) up (by omega)) (by omega) (by
        rw [length]
        have same : l + 1 + m = l + (m + 1) := by omega
        rw [same]
        exact inside)
    -- The later runs are read as they were.
    have later : (List.range' (l + 1) m).map (fun i =>
          collapse 4294967295 (slice after (offsets.getD i 0) (offsets.getD (i + 1) 0))) =
        (List.range' (l + 1) m).map fun i =>
          collapse 4294967295 (slice postings (offsets.getD i 0) (offsets.getD (i + 1) 0)) := by
      apply map_congr_left
      intro i member
      have range := mem_range'_1.mp member
      have above := rising (l + 1) i (by omega) range.1 (by omega)
      have tail : after.drop (offsets.getD i 0) = postings.drop (offsets.getD i 0) := by
        have both := congrArg (List.drop (offsets.getD i 0 - offsets.getD (l + 1) 0)) unread
        rwa [drop_drop, drop_drop, Nat.add_sub_cancel' above] at both
      rw [slice, slice, tail]
    rw [later] at rest
    generalize runs : (List.range' (l + 1) m).map (fun i =>
      collapse 4294967295 (slice postings (offsets.getD i 0) (offsets.getD (i + 1) 0))) = others at rest ⊢
    refine ⟨?_, ?_⟩
    · rw [length_cons, range_succ_eq_map, map_cons, map_map, rest.ends, map_cons]
      simp only [take_succ_cons, take_zero, sum_cons, sum_nil, moved, Function.comp_def,
        Nat.add_zero, Nat.add_assoc, Nat.succ_eq_add_one]
    · rw [rest.written, front, flatten_cons, append_assoc]

end Collapse

section Postings

variable {n labels : Nat} {indptr ids : List Nat}

theorem monotone_iff : monotone n indptr ids = true ↔ indptr.length = n + 1 ∧ indptr.getD 0 0 = 0 ∧
    (∀ p < n, indptr.getD p 0 ≤ indptr.getD (p + 1) 0) ∧ indptr.getD n 0 = ids.length := by
  simp only [monotone, Bool.and_eq_true, beq_iff_eq, all_eq_true, decide_eq_true_eq, and_assoc]
  refine and_congr_right fun size => and_congr_right fun _ => and_congr_left fun _ => ?_
  constructor
  · intro each p inside
    have here : p < (indptr.zip indptr.tail).length := by
      rw [length_zip, length_tail]
      omega
    have pair := each _ (getElem_mem here)
    rw [getElem_zip, getElem_tail] at pair
    simpa [getD_eq_getElem?_getD, size, Nat.lt_succ_of_lt inside, inside] using pair
  · intro each w member
    obtain ⟨p, here, rfl⟩ := mem_iff_getElem.mp member
    have inside : p < n := by
      rw [length_zip, length_tail] at here
      omega
    have pair := each p inside
    rw [getElem_zip, getElem_tail]
    simpa [getD_eq_getElem?_getD, size, Nat.lt_succ_of_lt inside, inside] using pair

theorem flatMap_pointLabels (rows : monotone n indptr ids = true) (m : Nat) (inside : m ≤ n) :
    (List.range m).flatMap (pointLabels indptr ids) = ids.take (indptr.getD m 0) := by
  obtain ⟨-, zero, rising, -⟩ := monotone_iff.mp rows
  induction m with
  | zero =>
    rw [zero]
    simp
  | succ m ih =>
    have up := rising m inside
    rw [range_succ, flatMap_append, ih (by omega), flatMap_singleton, pointLabels, ← take_add,
      Nat.add_sub_cancel' up]

theorem labelled_fst (rows : monotone n indptr ids = true) : (labelled n indptr ids).map Prod.fst = ids := by
  have last := (monotone_iff.mp rows).2.2.2
  have all := flatMap_pointLabels rows n (Nat.le_refl n)
  rw [last, take_length] at all
  rw [labelled, map_flatMap]
  simpa [Function.comp_def] using all

/-- The points of a label as the counting sort leaves them, with repeats. -/
def holders (n : Nat) (indptr ids : List Nat) (l : Nat) : List Nat :=
  ((labelled n indptr ids).filter fun item => item.1 = l).map Prod.snd

def members (n : Nat) (indptr ids : List Nat) (l : Nat) : List Nat := collapse 4294967295 (holders n indptr ids l)

theorem mem_holders : p ∈ holders n indptr ids l ↔ p < n ∧ l ∈ pointLabels indptr ids p := by
  simp only [holders, labelled, mem_map, mem_filter, mem_flatMap, mem_range, decide_eq_true_eq]
  constructor
  · rintro ⟨_, ⟨⟨q, inside, k, listed, rfl⟩, rfl⟩, rfl⟩
    exact ⟨inside, listed⟩
  · rintro ⟨inside, listed⟩
    exact ⟨(l, p), ⟨⟨p, inside, l, listed, rfl⟩, rfl⟩, rfl⟩

theorem holders_sorted (l : Nat) : (holders n indptr ids l).Pairwise (· ≤ ·) := by
  have points : ((labelled n indptr ids).map Prod.snd).Pairwise (· ≤ ·) := by
    rw [labelled, map_flatMap, pairwise_flatMap]
    refine ⟨?_, ?_⟩
    · intro p _
      rw [map_map, pairwise_map]
      exact pairwise_of_forall fun _ _ => Nat.le_refl p
    · refine pairwise_lt_range.imp fun {p q} less => ?_
      intro x left y right
      simp only [map_map, mem_map, Function.comp_apply] at left right
      obtain ⟨_, -, rfl⟩ := left
      obtain ⟨_, -, rfl⟩ := right
      exact Nat.le_of_lt less
  exact points.sublist (filter_sublist.map Prod.snd)

theorem fresh_holders (few : n ≤ 4294967294) (l : Nat) : 4294967295 ∉ holders n indptr ids l := by
  intro member
  have inside := (mem_holders.mp member).1
  omega

theorem mem_members (few : n ≤ 4294967294) : p ∈ members n indptr ids l ↔ p < n ∧ l ∈ pointLabels indptr ids p := by
  rw [members, mem_collapse (holders_sorted l) (fresh_holders few l), mem_holders]

theorem members_ascending (few : n ≤ 4294967294) (l : Nat) : (members n indptr ids l).Pairwise (· < ·) :=
  collapse_ascending (holders_sorted l) (fresh_holders few l)

theorem buildPostings_spec (rows : monotone n indptr ids = true) (bounded : ∀ l ∈ ids, l < labels) :
    (buildPostings n labels indptr ids).1.length = labels + 1 ∧ ∀ l < labels,
      let offsets := (buildPostings n labels indptr ids).1
      slice (buildPostings n labels indptr ids).2 (offsets.getD l 0) (offsets.getD (l + 1) 0) =
          members n indptr ids l ∧
        offsets.getD (l + 1) 0 - offsets.getD l 0 = (members n indptr ids l).length := by
  have keys := labelled_fst rows
  have sorted : ∀ item ∈ labelled n indptr ids, item.1 < labels := by
    intro item member
    apply bounded
    rw [← keys]
    exact mem_map_of_mem member
  have size : ids.length = (labelled n indptr ids).length := by rw [← length_map (f := Prod.fst), keys]
  generalize sort : scatter (CountingSort.offsets labels ids) (labelled n indptr ids)
    (List.replicate ids.length 0) = postings
  have length : postings.length = ids.length := by rw [← sort, CountingSort.scatter_length, length_replicate]
  have runs (l : Nat) (inside : l < labels) : slice postings ((CountingSort.offsets labels ids).getD l 0)
      ((CountingSort.offsets labels ids).getD (l + 1) 0) = holders n indptr ids l := by
    have cut := CountingSort.scatter_slice sorted (List.replicate ids.length 0) (by simpa using size) l inside
    rw [keys, sort] at cut
    rw [offsets_getD bounded l (by omega), offsets_getD bounded (l + 1) inside, slice,
      below_succ, Nat.add_sub_cancel_left, cut, holders]
  have packed := collapseLabels_spec (CountingSort.offsets labels ids) labels 0 0 postings
    (fun i j _ up high => by
      rw [offsets_getD bounded i (by omega), offsets_getD bounded j (by omega)]
      exact below_mono ids up)
    (Nat.zero_le _) (by
      rw [offsets_getD bounded (0 + labels) (by omega), length]
      exact countP_le_length)
  have lists : (List.range' 0 labels).map (fun i => collapse 4294967295 (slice postings
      ((CountingSort.offsets labels ids).getD i 0) ((CountingSort.offsets labels ids).getD (i + 1) 0))) =
      (List.range labels).map (members n indptr ids) := by
    rw [← range_eq_range']
    apply map_congr_left
    intro l member
    rw [runs l (mem_range.mp member), members]
  rw [lists, ← range_eq_range'] at packed
  simp only [buildPostings, sort]
  generalize collapseLabels (CountingSort.offsets labels ids) (List.range labels) postings 0 = result at packed
  obtain ⟨ends, after, write⟩ := result
  obtain ⟨ends_eq, written⟩ := packed
  dsimp only at ends_eq written ⊢
  generalize outs_eq : (List.range labels).map (members n indptr ids) = outs at ends_eq written
  have count : outs.length = labels := by rw [← outs_eq, length_map, length_range]
  have offset (i : Nat) (inside : i ≤ labels) : (0 :: ends).getD i 0 = ((outs.map List.length).take i).sum := by
    cases i with
    | zero => simp
    | succ i =>
      rw [getD_cons_succ, ends_eq, getD_eq_getElem?_getD, getElem?_map, getElem?_range (by omega)]
      simp
  refine ⟨by rw [length_cons, ends_eq, length_map, length_range, count], fun l inside => ?_⟩
  have own : outs[l] = members n indptr ids l := by simp [← outs_eq]
  have here : l < (outs.map List.length).length := by
    rw [length_map]
    omega
  rw [offset l (by omega), offset (l + 1) inside, slice, ← drop_take, written, take_zero, nil_append,
    drop_take_succ_flatten_eq_getElem outs l (by omega), own, take_succ_eq_append_getElem here,
    sum_append, Nat.add_sub_cancel_left, sum_singleton, getElem_map, own]
  exact ⟨rfl, rfl⟩

end Postings

section Bits

variable {words : List Nat} {added : Nat}

theorem bit_modify (words : List Nat) (inside : added / 64 < words.length) (i : Nat) :
    bit (words.modify (added / 64) (· ||| 2 ^ (added % 64))) i = (bit words i || decide (i = added)) := by
  simp only [bit, getD_modify _ _ _ _ inside]
  by_cases word : i / 64 = added / 64
  · rw [if_pos word, Nat.testBit_or, Nat.testBit_two_pow]
    congr 1
    rw [decide_eq_decide]
    omega
  · have other : i ≠ added := fun same => word (by rw [same])
    rw [if_neg word, decide_eq_false other, Bool.or_false]

theorem bit_foldl_modify (members : List Nat) (words : List Nat) (inside : ∀ m ∈ members, m / 64 < words.length) (i : Nat) :
    bit (members.foldl (fun set m => set.modify (m / 64) (· ||| 2 ^ (m % 64))) words) i =
      (bit words i || decide (i ∈ members)) := by
  induction members generalizing words with
  | nil => simp
  | cons m members ih =>
    have rest : ∀ other ∈ members, other / 64 < (words.modify (m / 64) (· ||| 2 ^ (m % 64))).length := by
      intro other member
      rw [length_modify]
      exact inside other (mem_cons_of_mem m member)
    rw [foldl_cons, ih _ rest, bit_modify words (inside m mem_cons_self), Bool.or_assoc, ← Bool.decide_or]
    simp only [mem_cons]

theorem bit_replicate (words i : Nat) : bit (List.replicate words 0) i = false := by
  have zero : (List.replicate words 0).getD (i / 64) 0 = 0 := by
    rw [getD_eq_getElem?_getD, getElem?_replicate]
    split <;> rfl
  rw [bit, zero, Nat.zero_testBit]

theorem bit_setBits {words : Nat} {members : List Nat} (inside : ∀ m ∈ members, m / 64 < words) (i : Nat) :
    bit (setBits words members) i = decide (i ∈ members) := by
  rw [setBits, bit_foldl_modify members _ (by simpa using inside), bit_replicate, Bool.false_or]

end Bits

end Warm.Filter
