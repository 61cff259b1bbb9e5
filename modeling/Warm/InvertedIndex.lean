import Warm.Accumulator
import Warm.TopK
import Mathlib.Algebra.Order.Field.Rat
import Mathlib.Data.List.Sort

/-! The sparse inverted index: for each dimension the ascending slots whose vector contains it,
and each slot's vector length. A query counts the slots of its dimensions' postings and keeps
the `k` best by Jaccard similarity, taken as an exact rational. -/
namespace Warm

open List
open Function (update update_of_ne update_self)

structure SparseInvertedIndex where
  postings : List (List Nat)
  m : Nat
  dimensions : Nat
  docCount : Nat
  df : List Nat
  lengths : List Nat
  deriving DecidableEq, Repr

structure SlotHit where
  slot : Nat
  similarity : ℚ
  deriving DecidableEq, Repr

namespace SparseInvertedIndex

def new (dimensions m : Nat) : SparseInvertedIndex :=
  ⟨List.replicate dimensions [], m, dimensions, 0, List.replicate dimensions 0, []⟩

/-- `partition_point(|&id| id < doc)` and `insert`. -/
def insertSlot (doc : Nat) (list : List Nat) : List Nat :=
  list.takeWhile (· < doc) ++ doc :: list.dropWhile (· < doc)

def addDim (doc : Nat) (index : SparseInvertedIndex) (dim : Nat) : SparseInvertedIndex :=
  if dim < index.dimensions then
    { index with
      postings := index.postings.modify dim (insertSlot doc)
      df := index.df.modify dim (· + 1) }
  else index

def addDoc (index : SparseInvertedIndex) (doc : Nat) (dims : List Nat) : SparseInvertedIndex :=
  let index := dims.foldl (addDim doc) index
  { index with
    lengths := (Accumulator.resize index.lengths (max index.lengths.length (doc + 1))).set doc dims.length
    docCount := index.docCount + 1 }

/-- `binary_search` finds the slot in an ascending list, wherever it is. -/
def removeDim (doc : Nat) (index : SparseInvertedIndex) (dim : Nat) : SparseInvertedIndex :=
  match index.postings[dim]? with
  | none => index
  | some list =>
    if doc ∈ list then
      { index with
        postings := index.postings.set dim (list.erase doc)
        df := index.df.modify dim (· - 1) }
    else index

def removeDoc (index : SparseInvertedIndex) (doc : Nat) (dims : List Nat) : SparseInvertedIndex :=
  let index := dims.foldl (removeDim doc) index
  { index with
    docCount := index.docCount - 1
    lengths := index.lengths.set doc 0 }

def finalize (index : SparseInvertedIndex) : SparseInvertedIndex :=
  { index with postings := index.postings.map (·.insertionSort (· ≤ ·)) }

/-- `f64::EPSILON`. -/
def epsilon : ℚ := 1 / 2 ^ 52

/-- The query's dimensions in the order of their document frequency. -/
def scanOrder (index : SparseInvertedIndex) (queryDims : List Nat) : List Nat :=
  queryDims.insertionSort (fun a b => index.df.getD a (2 ^ 32 - 1) ≤ index.df.getD b (2 ^ 32 - 1))

def accumulate (index : SparseInvertedIndex) (queryDims : List Nat) (acc : Accumulator) : Accumulator :=
  let dims := index.scanOrder queryDims
  let counted := dims.foldl (fun acc dim => (index.postings.getD dim []).foldl Accumulator.increment acc)
    acc.nextEpoch
  { counted with dims }

def hit (index : SparseInvertedIndex) (queryDims : List Nat) (acc : Accumulator) (doc : Nat) : SlotHit :=
  let inter : ℚ := acc.getCount doc
  let denom : ℚ := queryDims.length + index.lengths.getD doc 0 - inter
  ⟨doc, if denom > epsilon then inter / denom else 1⟩

/-- `compare` orders slots with equal similarity; its key is given here. -/
def queryWithTies {β : Type*} [LinearOrder β] (index : SparseInvertedIndex) (queryDims : List Nat) (k : Nat)
    (acc : Accumulator) (tie : Nat → β) : List SlotHit × Accumulator :=
  if k = 0 ∨ queryDims.isEmpty ∨ index.docCount = 0 then ([], acc)
  else
    let acc := index.accumulate queryDims acc
    (TopK.collect (fun h : SlotHit => toLex (OrderDual.toDual h.similarity, tie h.slot)) k
      (acc.touched.map (index.hit queryDims acc)), acc)

/-- The index holds exactly the vectors of the slots in `live`. -/
structure Represents (index : SparseInvertedIndex) (live : Nat → Option (List Nat)) : Prop where
  size : index.postings.length = index.dimensions
  ascending : ∀ dim, (index.postings.getD dim []).Pairwise (· < ·)
  postings : ∀ dim, dim < index.dimensions → ∀ slot,
    slot ∈ index.postings.getD dim [] ↔ ∃ dims, live slot = some dims ∧ dim ∈ dims
  lengths : ∀ slot dims, live slot = some dims → index.lengths.getD slot 0 = dims.length

theorem new_represents (dimensions m : Nat) : Represents (new dimensions m) (fun _ => none) := by
  have empty (dim : Nat) : (List.replicate dimensions ([] : List Nat)).getD dim [] = [] := by
    rw [getD_eq_getElem?_getD, getElem?_replicate]
    split <;> rfl
  refine ⟨by simp [new], ?_, ?_, by simp⟩
  · intro dim
    simp only [new, empty]
    exact List.Pairwise.nil
  · intro dim _ slot
    simp [new]

theorem insertSlot_eq (doc : Nat) (list : List Nat) :
    insertSlot doc list = list.orderedInsert (· ≤ ·) doc := by
  rw [orderedInsert_eq_take_drop, insertSlot]
  simp

theorem insertSlot_ascending (ascending : list.Pairwise (· < ·)) (absent : doc ∉ list) :
    (insertSlot doc list).Pairwise (· < ·) := by
  rw [insertSlot_eq]
  have sorted := (ascending.imp (fun less => Nat.le_of_lt less)).orderedInsert doc
  have distinct : (list.orderedInsert (· ≤ ·) doc).Nodup :=
    (perm_orderedInsert _ doc list).nodup_iff.mpr (nodup_cons.mpr ⟨absent, ascending.nodup⟩)
  exact sorted.imp₂ (fun _ _ le ne => Nat.lt_of_le_of_ne le ne) distinct

theorem getD_modify (lists : List (List Nat)) (i j : Nat) (f : List Nat → List Nat) (inside : i < lists.length) :
    (lists.modify i f).getD j [] = if j = i then f (lists.getD j []) else lists.getD j [] := by
  rw [getD_eq_getElem?_getD, getD_eq_getElem?_getD, getElem?_modify]
  by_cases same : j = i
  · subst same
    simp [inside]
  · simp [same, Ne.symm same]

theorem foldl_addDim (doc : Nat) (dims : List Nat) (distinct : dims.Nodup) (index : SparseInvertedIndex)
    (size : index.postings.length = index.dimensions) (bounded : ∀ dim ∈ dims, dim < index.dimensions) :
    (dims.foldl (addDim doc) index).postings.length = index.dimensions ∧
      (dims.foldl (addDim doc) index).dimensions = index.dimensions ∧
      (dims.foldl (addDim doc) index).lengths = index.lengths ∧
      ∀ dim, (dims.foldl (addDim doc) index).postings.getD dim [] =
        if dim ∈ dims then insertSlot doc (index.postings.getD dim []) else index.postings.getD dim [] := by
  induction dims generalizing index with
  | nil => simp [size]
  | cons first dims ih =>
    obtain ⟨new, distinct⟩ := nodup_cons.mp distinct
    have inside : first < index.dimensions := bounded first (by simp)
    have step : addDim doc index first =
        { index with
          postings := index.postings.modify first (insertSlot doc)
          df := index.df.modify first (· + 1) } := if_pos inside
    obtain ⟨length, same, lengths, entries⟩ := ih distinct (addDim doc index first)
      (by simpa [step] using size) (fun dim member => by simpa [step] using bounded dim (by simp [member]))
    rw [foldl_cons]
    refine ⟨length.trans (by rw [step]), same.trans (by rw [step]), lengths.trans (by rw [step]), ?_⟩
    intro dim
    rw [entries, step]
    simp only [getD_modify _ _ _ _ (size.symm ▸ inside), mem_cons]
    by_cases here : dim = first
    · subst here
      simp [new]
    · simp [here]

theorem addDoc_represents (index : SparseInvertedIndex) (represents : Represents index live) (doc : Nat)
    (vacant : live doc = none) (dims : List Nat) (distinct : dims.Nodup)
    (bounded : ∀ dim ∈ dims, dim < index.dimensions) :
    Represents (index.addDoc doc dims) (update live doc (some dims)) ∧
      (index.addDoc doc dims).dimensions = index.dimensions := by
  obtain ⟨length, same, lengths, entries⟩ := foldl_addDim doc dims distinct index represents.size bounded
  have fresh (dim : Nat) (inside : dim < index.dimensions) : doc ∉ index.postings.getD dim [] := by
    intro member
    obtain ⟨old, held, _⟩ := (represents.postings dim inside doc).mp member
    simp [vacant] at held
  unfold addDoc
  refine ⟨⟨length.trans same.symm, ?_, ?_, ?_⟩, same⟩
  · intro dim
    simp only [entries]
    split
    · rename_i member
      exact insertSlot_ascending (represents.ascending dim) (fresh dim (bounded dim member))
    · exact represents.ascending dim
  · intro dim inside slot
    simp only [same] at inside
    simp only [entries]
    have old := represents.postings dim inside slot
    by_cases here : slot = doc
    · subst here
      simp only [update_self, Option.some.injEq, exists_eq_left']
      split
      · rename_i member
        simp [insertSlot_eq, mem_orderedInsert, member]
      · rename_i absent
        exact iff_of_false (fresh dim inside) absent
    · rw [update_of_ne here, ← old]
      split
      · simp [insertSlot_eq, mem_orderedInsert, here]
      · rfl
  · intro slot held live'
    have room : doc < (Accumulator.resize index.lengths (max index.lengths.length (doc + 1))).length := by
      rw [Accumulator.resize_length _ _ (Nat.le_max_left _ _)]
      omega
    simp only [lengths, Accumulator.getD_set _ _ _ _ room]
    by_cases here : slot = doc
    · subst here
      rw [update_self] at live'
      simp [Option.some.inj live']
    · rw [update_of_ne here] at live'
      rw [if_neg here, Accumulator.getD_resize _ _ _ (Nat.le_max_left _ _)]
      exact represents.lengths slot held live'

/-- Removing a slot from the postings of its dimensions, one after the other. -/
theorem foldl_removeDim (doc : Nat) (dims : List Nat) (distinct : dims.Nodup) (index : SparseInvertedIndex)
    (held : ∀ dim ∈ dims, dim < index.postings.length → doc ∈ index.postings.getD dim []) :
    (dims.foldl (removeDim doc) index).postings.length = index.postings.length ∧
      (dims.foldl (removeDim doc) index).dimensions = index.dimensions ∧
      (dims.foldl (removeDim doc) index).lengths = index.lengths ∧
      ∀ dim, (dims.foldl (removeDim doc) index).postings.getD dim [] =
        if dim ∈ dims then (index.postings.getD dim []).erase doc else index.postings.getD dim [] := by
  induction dims generalizing index with
  | nil => simp
  | cons first dims ih =>
    obtain ⟨new, distinct⟩ := nodup_cons.mp distinct
    -- One step erases the slot from the posting list of `first`, if there is one.
    have step : (removeDim doc index first).postings.length = index.postings.length ∧
        (removeDim doc index first).dimensions = index.dimensions ∧
        (removeDim doc index first).lengths = index.lengths ∧
        ∀ dim, (removeDim doc index first).postings.getD dim [] =
          if dim = first then (index.postings.getD dim []).erase doc else index.postings.getD dim [] := by
      unfold removeDim
      by_cases inside : first < index.postings.length
      · have entry : index.postings[first]? = some (index.postings.getD first []) := by
          simp [inside]
        have member := held first (by simp) inside
        simp only [entry, member, ↓reduceIte, length_set, true_and]
        intro dim
        rw [getD_eq_getElem?_getD, getElem?_set]
        by_cases here : dim = first
        · subst here
          simp [inside]
        · simp [here, Ne.symm here]
      · have entry : index.postings[first]? = none := getElem?_eq_none (Nat.not_lt.mp inside)
        simp only [entry, true_and]
        intro dim
        split
        · rename_i here
          subst here
          rw [getD_eq_default _ _ (Nat.not_lt.mp inside)]
          rfl
        · rfl
    obtain ⟨size, same, lengths, entries⟩ := step
    obtain ⟨size', same', lengths', entries'⟩ := ih distinct (removeDim doc index first) (by
      intro dim member inside
      have apart : dim ≠ first := fun here => new (here ▸ member)
      rw [entries, if_neg apart]
      exact held dim (by simp [member]) (size ▸ inside))
    rw [foldl_cons]
    refine ⟨size'.trans size, same'.trans same, lengths'.trans lengths, ?_⟩
    intro dim
    rw [entries', entries]
    by_cases here : dim = first
    · subst here
      simp [new]
    · simp [here]

theorem removeDoc_represents (index : SparseInvertedIndex) (represents : Represents index live) (doc : Nat)
    (dims : List Nat) (present : live doc = some dims) (distinct : dims.Nodup) :
    Represents (index.removeDoc doc dims) (update live doc none) ∧
      (index.removeDoc doc dims).dimensions = index.dimensions := by
  obtain ⟨length, same, lengths, entries⟩ := foldl_removeDim doc dims distinct index (by
    intro dim member inside
    exact (represents.postings dim (represents.size ▸ inside) doc).mpr ⟨dims, present, member⟩)
  unfold removeDoc
  refine ⟨⟨(length.trans represents.size).trans same.symm, ?_, ?_, ?_⟩, same⟩
  · intro dim
    simp only [entries]
    split
    · exact (represents.ascending dim).erase doc
    · exact represents.ascending dim
  · intro dim inside slot
    simp only [same] at inside
    simp only [entries]
    have old := represents.postings dim inside slot
    have distinct := (represents.ascending dim).nodup
    by_cases here : slot = doc
    · subst here
      rw [update_self]
      simp only [reduceCtorEq, false_and, exists_false, iff_false]
      split
      · exact distinct.not_mem_erase
      · rename_i absent
        rw [old, present]
        simpa using absent
    · rw [update_of_ne here, ← old]
      split
      · exact mem_erase_of_ne here
      · rfl
  · intro slot held live'
    by_cases here : slot = doc
    · subst here
      simp at live'
    · rw [update_of_ne here] at live'
      rw [← represents.lengths slot held live']
      simp only [lengths, getD_eq_getElem?_getD, getElem?_set, Ne.symm here, ↓reduceIte]

theorem finalize_represents (represents : Represents index live) : Represents index.finalize live := by
  have sorted (dim : Nat) : (index.postings.map (·.insertionSort (· ≤ ·))).getD dim [] =
      index.postings.getD dim [] := by
    have ascending := (represents.ascending dim).imp (fun less => Nat.le_of_lt less)
    rw [getD_eq_getElem?_getD] at ascending ⊢
    rw [getElem?_map, getD_eq_getElem?_getD]
    cases entry : index.postings[dim]? with
    | none => rfl
    | some list =>
      rw [entry] at ascending
      exact ascending.insertionSort_eq
  unfold finalize
  refine ⟨by simpa using represents.size, ?_, ?_, represents.lengths⟩
  · intro dim
    exact (sorted dim).symm ▸ represents.ascending dim
  · intro dim inside slot
    exact (sorted dim).symm ▸ represents.postings dim inside slot

theorem accumulate_counted (index : SparseInvertedIndex) (queryDims : List Nat) (ready : acc.Ready) :
    Accumulator.Counted (index.accumulate queryDims acc)
      ((index.scanOrder queryDims).flatMap (index.postings.getD · [])) := by
  have scan (dims : List Nat) (acc : Accumulator) (docs : List Nat) (counted : acc.Counted docs) :
      Accumulator.Counted
        (dims.foldl (fun acc dim => (index.postings.getD dim []).foldl Accumulator.increment acc) acc)
        (docs ++ dims.flatMap (index.postings.getD · [])) := by
    induction dims generalizing acc docs with
    | nil => simpa using counted
    | cons dim dims ih =>
      have next := Accumulator.foldl_increment_counted (index.postings.getD dim []) counted
      simpa using ih _ _ next
  have counted := scan (index.scanOrder queryDims) acc.nextEpoch [] (Accumulator.nextEpoch_counted ready)
  exact ⟨⟨counted.ready.paired, counted.ready.epoch, counted.ready.stamps⟩, counted.started, counted.stamped,
    counted.counts, counted.touched, counted.once⟩

/-- A live slot is counted as often as the query shares a dimension with its vector. -/
theorem count_postings (represents : Represents index live) (queryDims : List Nat)
    (bounded : ∀ dims, live slot = some dims → ∀ dim ∈ dims, dim < index.dimensions) :
    ((index.scanOrder queryDims).flatMap (index.postings.getD · [])).count slot =
      (queryDims.filter (fun dim => dim ∈ (live slot).getD [])).length := by
  have single (dim : Nat) : (index.postings.getD dim []).count slot =
      if dim ∈ (live slot).getD [] then 1 else 0 := by
    have distinct := (represents.ascending dim).nodup
    by_cases inside : dim < index.dimensions
    · have member := represents.postings dim inside slot
      cases held : live slot with
      | none =>
        rw [held] at member
        have absent : slot ∉ index.postings.getD dim [] := by simpa using member
        rw [count_eq_zero.mpr absent]
        simp
      | some dims =>
        rw [held] at member
        simp only [Option.some.injEq, exists_eq_left'] at member
        by_cases shared : dim ∈ dims
        · rw [count_eq_one_of_mem distinct (member.mpr shared)]
          simp [shared]
        · rw [count_eq_zero.mpr (fun hit => shared (member.mp hit))]
          simp [shared]
    · have none : index.postings.getD dim [] = [] :=
        getD_eq_default _ _ (by rw [represents.size]; omega)
      have apart : dim ∉ (live slot).getD [] := by
        cases held : live slot with
        | none => simp
        | some dims =>
          intro shared
          exact inside (bounded dims held dim shared)
      rw [none, if_neg apart]
      rfl
  have total (dims : List Nat) : (dims.flatMap (index.postings.getD · [])).count slot =
      (dims.filter (fun dim => dim ∈ (live slot).getD [])).length := by
    induction dims with
    | nil => rfl
    | cons dim dims ih =>
      rw [flatMap_cons, count_append, ih, single, filter_cons]
      by_cases shared : dim ∈ (live slot).getD []
      · simp [shared, Nat.add_comm]
      · simp [shared]
  rw [total]
  exact ((perm_insertionSort _ queryDims).filter _).length_eq

end SparseInvertedIndex

end Warm
