import Mathlib.Algebra.Group.Int.Defs
import Mathlib.Algebra.GroupWithZero.Nat
import Mathlib.Data.Prod.Lex
import Mathlib.Data.String.Basic
import Warm.Panics
import Warm.TopK

/-! The ranking of an unfiltered lexical query in a thread's scratch: scores, norms and their epochs live between the queries,
and a query that panics leaves them as they are. A float is its bits; its arithmetic is a parameter. -/
namespace Warm.Lexical

open Panics

structure Floats where
  ofNat : Nat → UInt64
  add : UInt64 → UInt64 → UInt64
  sub : UInt64 → UInt64 → UInt64
  mul : UInt64 → UInt64 → UInt64
  div : UInt64 → UInt64 → UInt64
  max : UInt64 → UInt64 → UInt64
  ln : UInt64 → UInt64

def half : UInt64 := 0x3FE0000000000000

def one : UInt64 := 0x3FF0000000000000

def infinity : UInt64 := 0x7FF0000000000000

/-- `== 0.0`, which the negative zero is too. -/
def isZero (bits : UInt64) : Bool := bits = 0 || bits = 0x8000000000000000

/-- `f64::total_cmp` orders by this key. -/
def totalKey (bits : UInt64) : ℤ :=
  if bits.toNat < 2 ^ 63 then bits.toNat else 2 ^ 63 - 1 - bits.toNat

structure Bm25 where
  k1PlusOne : UInt64
  k1 : UInt64
  oneMinusB : UInt64
  b : UInt64
deriving DecidableEq, Repr

namespace Bm25

def norm (F : Floats) (bm25 : Bm25) (wordCount average : UInt64) : UInt64 :=
  F.mul bm25.k1 (F.add bm25.oneMinusB (F.div (F.mul bm25.b wordCount) average))

def idf (F : Floats) (n df : UInt64) : UInt64 :=
  F.ln (F.add one (F.div (F.add (F.sub n df) half) (F.add df half)))

def weight (F : Floats) (bm25 : Bm25) (idf tf norm : UInt64) : UInt64 :=
  if isZero tf then 0 else F.div (F.mul (F.mul idf tf) bm25.k1PlusOne) (F.add tf norm)

end Bm25

/-- A term's postings: `reads` is what `for_each` passes on, with `none` where it panics. -/
structure PostingSet where
  len : Nat
  reads : List (Option (Nat × Nat))
deriving DecidableEq, Repr

/-- What a ranking reads of a store; a call that panics is `none`. The tables of a query number the slots by `u32`. -/
structure LexicalSource where
  slotCount : Nat
  fits : slotCount ≤ 2 ^ 32
  chunkCount : Nat
  wordCount : Nat
  /-- The instance and generation cached norms are valid for. -/
  state : Nat × Nat
  postings : Nat → String → Option (Option PostingSet)
  slotWordCount : Nat → Option Nat
  /-- Document id and chunk index. -/
  slotOrder : Nat → Option (String × Nat)

structure PreparedSearch where
  /-- The distinct words of form 0 and of form 1, sorted. -/
  queryTerms : List String × List String
  limit : Nat
  bm25 : Bm25
deriving DecidableEq, Repr

structure NormKey where
  store : Nat
  generation : Nat
  k1 : UInt64
  oneMinusB : UInt64
  b : UInt64
deriving DecidableEq, Repr

structure LexicalScratch where
  scores : List UInt64 := []
  norms : List UInt64 := []
  normEpochs : List Nat := []
  epoch : Nat := 0
  key : Option NormKey := none
  complete : Bool := false
  touched : List Nat := []
  candidates : List (UInt64 × Nat) := []
  /-- The heap's contents in its order, the least score last. -/
  best : List UInt64 := []
  dirty : Bool := false
deriving DecidableEq, Repr

abbrev Query := EStateM Unit LexicalScratch

def panicking {α : Type} : Query α := throw ()

/-- The value, or the panic of an index out of range or of a call that gave none. -/
def demand {α : Type} : Option α → Query α
  | some value => pure value
  | none => panicking

namespace LexicalScratch

/-- Scores that a panic left behind are zeroed. -/
def zeroed (scratch : LexicalScratch) : LexicalScratch :=
  if scratch.dirty then { scratch with scores := scratch.scores.map fun _ => 0 } else scratch

/-- The tables grow to the slots of the store. -/
def grown (slots : Nat) (scratch : LexicalScratch) : LexicalScratch :=
  if scratch.scores.length < slots then
    { scratch with
      scores := scratch.scores.rightpad slots 0
      norms := scratch.norms.rightpad slots 0
      normEpochs := scratch.normEpochs.rightpad slots 0
      complete := false }
  else scratch

def enter (slots : Nat) (scratch : LexicalScratch) : LexicalScratch :=
  { scratch.zeroed.grown slots with dirty := true }

/-- A store state or constants the norms do not belong to start a new epoch. -/
def rekey (key : NormKey) (scratch : LexicalScratch) : LexicalScratch :=
  if scratch.key = some key then scratch
  else if scratch.epoch + 1 < 2 ^ 32 then
    { scratch with key := some key, complete := false, epoch := scratch.epoch + 1 }
  else
    { scratch with
      key := some key
      complete := false
      normEpochs := scratch.normEpochs.map fun _ => 0
      epoch := 1 }

end LexicalScratch

section Query

variable (F : Floats) (store : LexicalSource) (prepared : PreparedSearch)

def average : UInt64 := F.max (F.div (F.ofNat store.wordCount) (F.ofNat store.chunkCount)) one

def normKey (bm25 : Bm25) : NormKey :=
  ⟨store.state.1, store.state.2, bm25.k1, bm25.oneMinusB, bm25.b⟩

def terms : List (Nat × String) := prepared.queryTerms.1.map (0, ·) ++ prepared.queryTerms.2.map (1, ·)

/-- The posting lists of the query's terms with their inverse document frequencies. -/
def lists : List (Nat × String) → Option (List (UInt64 × PostingSet))
  | [] => some []
  | (form, word) :: rest => do
    match ← store.postings form word with
    | none => lists rest
    | some list =>
      let later ← lists rest
      return (Bm25.idf F (F.ofNat store.chunkCount) (F.ofNat list.len), list) :: later

/-- The number of postings, added with saturation. -/
def postingTotal (lists : List (UInt64 × PostingSet)) : Nat :=
  lists.foldl (fun total list => min (total + list.2.len) (2 ^ 64 - 1)) 0

/-- What the `for_each` of every list passes on, in order. -/
def visits (lists : List (UInt64 × PostingSet)) : List (UInt64 × Option (Nat × Nat)) :=
  lists.flatMap fun list => list.2.reads.map (list.1, ·)

def isDense (lists : List (UInt64 × PostingSet)) : Bool := store.slotCount / 2 ≤ postingTotal lists

/-- Stamp the slot with the epoch and compute its norm, unless it bears the epoch already. -/
def refreshNorm (slot : Nat) : Query Unit := do
  let scratch ← get
  let stamp ← demand scratch.normEpochs[slot]?
  if stamp = scratch.epoch then return ()
  set { scratch with normEpochs := scratch.normEpochs.set slot scratch.epoch }
  let words ← demand (store.slotWordCount slot)
  let norm := prepared.bm25.norm F (F.ofNat words) (average F store)
  modify fun scratch => { scratch with norms := scratch.norms.set slot norm }

def fillNorms : Query Unit := do
  (List.range store.slotCount).foldlM (fun _ slot => refreshNorm F store prepared slot) ()
  modify fun scratch => { scratch with complete := true }

def addDense (visit : UInt64 × Option (Nat × Nat)) : Query Unit := do
  let (slot, frequency) ← demand visit.2
  let scratch ← get
  let norm ← demand (scratch.norms.take store.slotCount)[slot]?
  let score ← demand (scratch.scores.take store.slotCount)[slot]?
  let weight := prepared.bm25.weight F visit.1 (F.ofNat frequency) norm
  set { scratch with scores := scratch.scores.set slot (F.add score weight) }

/-- A sparse query's visit of a slot whose norm is valid; `reached` counts the slots recorded so far. -/
def recordSparse (idf : UInt64) (slot frequency reached : Nat) : Query Nat := do
  let scratch ← get
  let score ← demand (scratch.scores.take store.slotCount)[slot]?
  let _ ← demand scratch.touched[reached]?
  set { scratch with touched := scratch.touched.set reached (slot % 2 ^ 32) }
  let norm ← demand scratch.norms[slot]?
  let weight := prepared.bm25.weight F idf (F.ofNat frequency) norm
  modify fun scratch => { scratch with scores := scratch.scores.set slot (F.add score weight) }
  return if isZero score then reached + 1 else reached

def addSparse (reached : Nat) (visit : UInt64 × Option (Nat × Nat)) : Query Nat := do
  let (slot, frequency) ← demand visit.2
  let scratch ← get
  if !scratch.complete then refreshNorm F store prepared slot
  recordSparse F store prepared visit.1 slot frequency reached

def addScores (lists : List (UInt64 × PostingSet)) : Query Unit := do
  if isDense store lists then
    (visits lists).foldlM (fun _ visit => addDense F store prepared visit) ()
  else
    modify fun scratch => { scratch with touched := List.replicate (postingTotal lists) 0 }
    let reached ← (visits lists).foldlM (addSparse F store prepared) 0
    modify fun scratch => { scratch with touched := scratch.touched.take reached }

/-- The heap's order: it is a heap of `Reverse`, so its greatest element is the least score. -/
def heapKey (bits : UInt64) : Natᵒᵈ := OrderDual.toDual bits.toNat

/-- One score read for the selection, with the least admissible score so far; the next one is the result. -/
def consider (limit : Nat) (floor : UInt64) (slot : Nat) (score : UInt64) : Query UInt64 := do
  if infinity - floor < score - floor then return floor
  modify fun scratch => { scratch with candidates := scratch.candidates ++ [(score, slot % 2 ^ 32)] }
  let scratch ← get
  if scratch.best.length < limit then
    set { scratch with best := TopK.push heapKey score scratch.best }
  else if floor < score then
    let _ ← demand scratch.best.getLast?
    set { scratch with best := TopK.push heapKey score scratch.best.dropLast }
  else return floor
  let scratch ← get
  if scratch.best.length = limit then demand scratch.best.getLast? else return floor

/-- The slot's score goes to the selection and zero in its place. -/
def take (limit : Nat) (floor : UInt64) (slot : Nat) : Query UInt64 := do
  let scratch ← get
  let score ← demand (scratch.scores.take store.slotCount)[slot]?
  set { scratch with scores := scratch.scores.set slot 0 }
  consider limit floor slot score

/-- Score descending, then document id and chunk index. -/
def rankKey (item : UInt64 × Nat) : ℤᵒᵈ ×ₗ String ×ₗ Nat :=
  let order := (store.slotOrder item.2).getD ("", 0)
  toLex (OrderDual.toDual (totalKey item.1), toLex order)

/-- Whether the order of the candidates asks for the place of a slot that has none: only equal scores ask. -/
def unordered (items : List (UInt64 × Nat)) : Bool :=
  items.any fun item => (store.slotOrder item.2).isNone && 1 < items.countP fun other => other.1 == item.1

/-- The first `limit` items in the order of `rankKey`. -/
def topRanked (limit : Nat) (items : List (UInt64 × Nat)) : List (UInt64 × Nat) :=
  (items.insertionSort fun a b => rankKey store a ≤ rankKey store b).take limit

/-- The least score of a full heap. -/
def bar : Query UInt64 := do
  let scratch ← get
  if scratch.best.length < prepared.limit then return 0 else demand scratch.best.getLast?

def order (bar : UInt64) : Query (List (UInt64 × Nat)) := do
  let scratch ← get
  let kept := scratch.candidates.filter fun item => bar ≤ item.1
  set { scratch with candidates := kept }
  if unordered store kept then panicking else
    modify fun scratch => { scratch with candidates := topRanked store prepared.limit kept, dirty := false }
    return topRanked store prepared.limit kept

def select (dense : Bool) : Query (List (UInt64 × Nat)) := do
  modify fun scratch => { scratch with candidates := [], best := [] }
  let scratch ← get
  let slots := if dense then List.range store.slotCount else scratch.touched
  let _ ← slots.foldlM (take store prepared.limit) 1
  order store prepared (← bar prepared)

/-- The query's top `limit` chunks with a positive score, as score and slot. -/
def rank : Query (List (UInt64 × Nat)) := do
  modify (LexicalScratch.enter store.slotCount)
  let lists ← demand (lists F store (terms prepared))
  modify (LexicalScratch.rekey (normKey store prepared.bm25))
  let scratch ← get
  if !scratch.complete && isDense store lists then fillNorms F store prepared
  modify fun scratch => { scratch with touched := [] }
  addScores F store prepared lists
  select store prepared (isDense store lists)

end Query

end Warm.Lexical
