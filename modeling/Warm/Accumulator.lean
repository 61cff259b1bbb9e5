import Mathlib.Data.List.GetD
import Mathlib.Data.List.Nodup
import Mathlib.Tactic.Linarith

/-! The reusable counters of the inverted index. A slot's counter is current when its stamp is
the epoch of the running query, so starting a query forgets all counters at once; when the
32-bit epoch wraps, the stamps are cleared. -/
namespace Warm

open List

structure Accumulator where
  counts : List Nat
  seen : List Nat
  epoch : Nat
  touched : List Nat
  dims : List Nat
  deriving DecidableEq, Repr

namespace Accumulator

/-- `Vec::resize(len, 0)`. -/
def resize (list : List Nat) (len : Nat) : List Nat :=
  list.take len ++ List.replicate (len - list.length) 0

def new (maxDocs : Nat) : Accumulator :=
  ⟨List.replicate maxDocs 0, List.replicate maxDocs 0, 0, [], []⟩

def nextEpoch (acc : Accumulator) : Accumulator :=
  let epoch := (acc.epoch + 1) % 2 ^ 32
  if epoch = 0 then
    { acc with epoch := 1, touched := [], seen := List.replicate acc.seen.length 0 }
  else { acc with epoch, touched := [] }

/-- Room for the counter of `doc`. -/
def grow (acc : Accumulator) (doc : Nat) : Accumulator :=
  if doc ≥ acc.seen.length then
    let size := max (doc + 1) (acc.seen.length * 2)
    { acc with seen := resize acc.seen size, counts := resize acc.counts size }
  else acc

def increment (acc : Accumulator) (doc : Nat) : Accumulator :=
  let acc := acc.grow doc
  if acc.seen.getD doc 0 ≠ acc.epoch then
    { acc with
      seen := acc.seen.set doc acc.epoch
      counts := acc.counts.set doc 1
      touched := acc.touched ++ [doc] }
  else { acc with counts := acc.counts.set doc (acc.counts.getD doc 0 + 1) }

def getCount (acc : Accumulator) (doc : Nat) : Nat :=
  if doc < acc.seen.length ∧ acc.seen.getD doc 0 = acc.epoch then acc.counts.getD doc 0 else 0

/-- Between queries: no stamp is ahead of the epoch. -/
structure Ready (acc : Accumulator) : Prop where
  paired : acc.counts.length = acc.seen.length
  epoch : acc.epoch < 2 ^ 32
  stamps : ∀ doc, acc.seen.getD doc 0 ≤ acc.epoch

/-- During a query that has counted `docs`: exactly these are stamped with the epoch. -/
structure Counted (acc : Accumulator) (docs : List Nat) : Prop where
  ready : Ready acc
  started : 0 < acc.epoch
  stamped : ∀ doc, acc.seen.getD doc 0 = acc.epoch ↔ doc ∈ docs
  counts : ∀ doc, doc ∈ docs → acc.counts.getD doc 0 = docs.count doc
  touched : ∀ doc, doc ∈ acc.touched ↔ doc ∈ docs
  once : acc.touched.Nodup

theorem getD_resize (list : List Nat) (len doc : Nat) (longer : list.length ≤ len) :
    (resize list len).getD doc 0 = list.getD doc 0 := by
  rw [resize, take_of_length_le longer, getD_eq_getElem?_getD, getD_eq_getElem?_getD,
    getElem?_append]
  split
  · rfl
  · rename_i outside
    have past : list[doc]? = none := getElem?_eq_none (Nat.not_lt.mp outside)
    rw [past, getElem?_replicate]
    split <;> rfl

theorem resize_length (list : List Nat) (len : Nat) (longer : list.length ≤ len) :
    (resize list len).length = len := by
  rw [resize, take_of_length_le longer, length_append, length_replicate]
  omega

theorem getD_set (list : List Nat) (i j value : Nat) (inside : i < list.length) :
    (list.set i value).getD j 0 = if j = i then value else list.getD j 0 := by
  rw [getD_eq_getElem?_getD, getD_eq_getElem?_getD, getElem?_set]
  by_cases same : i = j
  · simp [same, same ▸ inside]
  · simp [same, Ne.symm same]

theorem new_ready (maxDocs : Nat) : Ready (new maxDocs) := by
  refine ⟨by simp [new], by simp [new], ?_⟩
  intro doc
  simp only [new, getD_eq_getElem?_getD, getElem?_replicate]
  split <;> simp

theorem nextEpoch_counted (ready : Ready acc) : Counted acc.nextEpoch [] := by
  have bound := ready.epoch
  unfold nextEpoch
  by_cases wraps : (acc.epoch + 1) % 2 ^ 32 = 0
  · rw [if_pos wraps]
    have cleared (doc : Nat) : (List.replicate acc.seen.length 0).getD doc 0 = 0 := by
      simp only [getD_eq_getElem?_getD, getElem?_replicate]
      split <;> rfl
    refine ⟨⟨by simpa using ready.paired, by simp, ?_⟩, Nat.one_pos, ?_, by simp, by simp, by simp⟩
    · intro doc
      exact (cleared doc).symm ▸ Nat.zero_le _
    · intro doc
      rw [cleared]
      simp
  · rw [if_neg wraps]
    have next : (acc.epoch + 1) % 2 ^ 32 = acc.epoch + 1 := by omega
    rw [next]
    refine ⟨⟨ready.paired, by dsimp only; omega, ?_⟩, Nat.succ_pos _, ?_, by simp, by simp, by simp⟩
    · intro doc
      exact Nat.le_succ_of_le (ready.stamps doc)
    · intro doc
      have := ready.stamps doc
      simp only [not_mem_nil, iff_false]
      omega

theorem grow_spec (counted : Counted acc docs) (doc : Nat) :
    Counted (acc.grow doc) docs ∧ doc < (acc.grow doc).seen.length := by
  unfold grow
  by_cases outside : doc ≥ acc.seen.length
  · have paired := counted.ready.paired
    rw [if_pos outside]
    generalize size : max (doc + 1) (acc.seen.length * 2) = len
    have longer : acc.seen.length ≤ len := by omega
    have same (other : Nat) : (resize acc.seen len).getD other 0 = acc.seen.getD other 0 :=
      getD_resize _ _ _ longer
    have sameCount (other : Nat) : (resize acc.counts len).getD other 0 = acc.counts.getD other 0 :=
      getD_resize _ _ _ (by omega)
    refine ⟨⟨⟨?_, counted.ready.epoch, ?_⟩, counted.started, ?_, ?_, counted.touched, counted.once⟩, ?_⟩
    · rw [resize_length _ _ longer, resize_length _ _ (by omega)]
    · intro other
      exact (same other).symm ▸ counted.ready.stamps other
    · intro other
      exact (same other).symm ▸ counted.stamped other
    · intro other member
      exact (sameCount other).symm ▸ counted.counts other member
    · rw [resize_length _ _ longer]
      omega
  · rw [if_neg outside]
    exact ⟨counted, by omega⟩

theorem increment_counted (counted : Counted acc docs) (doc : Nat) :
    Counted (acc.increment doc) (docs ++ [doc]) := by
  obtain ⟨counted, inside⟩ := grow_spec counted doc
  unfold increment
  generalize acc.grow doc = acc at counted inside
  have paired := counted.ready.paired
  have stamped := counted.stamped doc
  by_cases fresh : acc.seen.getD doc 0 ≠ acc.epoch
  · have absent : doc ∉ docs := fun member => fresh (stamped.mpr member)
    rw [if_pos fresh]
    refine ⟨⟨by simpa using paired, counted.ready.epoch, ?_⟩, counted.started, ?_, ?_, ?_, ?_⟩
    · intro other
      simp only [getD_set _ _ _ _ inside]
      split
      · exact Nat.le_refl _
      · exact counted.ready.stamps other
    · intro other
      simp only [getD_set _ _ _ _ inside, mem_append, mem_singleton]
      split
      · rename_i same
        simp [same]
      · rename_i apart
        rw [counted.stamped other]
        simp [apart]
    · intro other member
      simp only [getD_set _ _ _ _ (paired ▸ inside)]
      split
      · rename_i same
        simp [same, count_eq_zero.mpr absent]
      · rename_i apart
        rw [counted.counts other (by simpa [apart] using member)]
        simp [Ne.symm apart]
    · intro other
      simp [counted.touched other]
    · simp only [nodup_append, nodup_singleton, mem_singleton]
      refine ⟨counted.once, trivial, ?_⟩
      rintro a old b rfl rfl
      exact absent ((counted.touched a).mp old)
  · have member : doc ∈ docs := stamped.mp (not_not.mp fresh)
    rw [if_neg fresh]
    refine ⟨⟨by simpa using paired, counted.ready.epoch, counted.ready.stamps⟩, counted.started, ?_, ?_, ?_,
      counted.once⟩
    · intro other
      simp only [counted.stamped other, mem_append, mem_singleton]
      constructor
      · exact .inl
      · rintro (old | rfl)
        · exact old
        · exact member
    · intro other _
      simp only [getD_set _ _ _ _ (paired ▸ inside)]
      split
      · rename_i same
        rw [same, counted.counts doc member]
        simp
      · rename_i apart
        have old : other ∈ docs := by simpa [apart] using ‹other ∈ docs ++ [doc]›
        rw [counted.counts other old]
        simp [Ne.symm apart]
    · intro other
      simp only [counted.touched other, mem_append, mem_singleton]
      constructor
      · exact .inl
      · rintro (old | rfl)
        · exact old
        · exact member

theorem foldl_increment_counted (more : List Nat) (counted : Counted acc docs) :
    Counted (more.foldl increment acc) (docs ++ more) := by
  induction more generalizing acc docs with
  | nil => simpa using counted
  | cons doc more ih =>
    have next := ih (increment_counted counted doc)
    simpa using next

theorem Counted.getCount (counted : Counted acc docs) (doc : Nat) :
    acc.getCount doc = docs.count doc := by
  unfold Accumulator.getCount
  by_cases member : doc ∈ docs
  · have stamp := (counted.stamped doc).mpr member
    have inside : doc < acc.seen.length := by
      apply Classical.byContradiction
      intro outside
      rw [getD_eq_default _ _ (by omega)] at stamp
      have := counted.started
      omega
    rw [if_pos ⟨inside, stamp⟩, counted.counts doc member]
  · rw [if_neg (fun current => member ((counted.stamped doc).mp current.2)),
      count_eq_zero.mpr member]

/-- A query counts the documents of the postings it reads. -/
def query (acc : Accumulator) (docs : List Nat) : Accumulator := docs.foldl increment acc.nextEpoch

theorem query_counted (ready : Ready acc) (docs : List Nat) : Counted (acc.query docs) docs :=
  foldl_increment_counted docs (nextEpoch_counted ready)

theorem queries_ready (ready : Ready acc) (queries : List (List Nat)) : Ready (queries.foldl query acc) := by
  induction queries generalizing acc with
  | nil => exact ready
  | cons docs queries ih => exact ih (query_counted ready docs).ready

/-- After any queries a query counts, and touches, what it would with new counters. A count of `u32` is the
number here up to multiples of 2^32, with both alike. -/
theorem query_reused (maxDocs fresh : Nat) (queries : List (List Nat)) (docs : List Nat) :
    (∀ doc, ((queries.foldl query (new maxDocs)).query docs).getCount doc = ((new fresh).query docs).getCount doc) ∧
      ((queries.foldl query (new maxDocs)).query docs).touched.Perm ((new fresh).query docs).touched := by
  have used := query_counted (queries_ready (new_ready maxDocs) queries) docs
  have unused := query_counted (new_ready fresh) docs
  constructor
  · intro doc
    rw [used.getCount, unused.getCount]
  · rw [perm_ext_iff_of_nodup used.once unused.once]
    intro doc
    rw [used.touched, unused.touched]

end Accumulator

end Warm
