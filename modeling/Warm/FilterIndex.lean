import Warm.CountingSort
import Warm.FilterArithmetic
import Mathlib.Data.Prod.Lex

/-! The label-filtered index: postings of every label, bitsets of the common labels, and an inverted
file for each label with many members, whose lists come from a k-means over that label alone. The
sample positions of the k-means are float expressions, so they are a parameter, as is the kernel
tier the processor gives. -/
namespace Warm.Filter

structure BuildParams where
  ivfMin : Nat
  clusterSize : Nat
  maxLists : Nat
  bitsetMin : Nat
  kmeansIters : Nat
  trainPerList : Nat
  copyMin : Nat
  seed : UInt64

structure SearchParams where
  bruteMax : Nat
  target : Nat
  minLists : Nat
  intersectMax : Nat

/-- The tiers of the kernels for one row and for four rows. -/
structure Kernels where
  single : Tier
  four : Tier

/-- `(i as f64 * (members / train_n)) as usize` and `(c as f64 * train_n / lists) as usize`. -/
structure Sampling where
  stride : Nat → Nat → Nat → Nat
  pick : Nat → Nat → Nat → Nat

structure LabelIvf where
  centroids : List (List Int)
  centroidNorms : List Int
  offsets : List Nat
  members : List Nat
  /-- The members' rows in the order of `members`, or none. -/
  rows : List (List Int)
  norms : List Int

structure FilteredIndex where
  dim : Nat
  stride : Nat
  n : Nat
  rows : List (List Int)
  norms : List Int
  labelOffsets : List Nat
  postings : List Nat
  /-- The bitset of a label, if it has one. -/
  bitsetSlot : List (Option Nat)
  bitsets : List (List Nat)
  ivfSlot : List (Option Nat)
  ivfs : List LabelIvf
  deleted : List Nat
  live : Nat

def maxLabels : Nat := 1048576

/-- A pair of a ranking key and an id, in the order of tuples. -/
abbrev Hit := Int ×ₗ Nat

/-- A row to be scored, with its norm and the id it stands for. -/
structure Entry where
  row : List Int
  norm : Int
  id : Nat

variable (kernels : Kernels)

def norm (row : List Int) : Except Fault Int := sumChecked 32 (row.map fun v => v * v)

/-- `i64::from(norm) - 2 * i64::from(dot)`. -/
def keyOf (tier : Tier) (q : List Int) (qsum : Int) (entry : Entry) : Except Fault Hit :=
  match dotI8Query tier q entry.row qsum with
  | .error e => .error e
  | .ok d =>
    match checked 64 (entry.norm - 2 * d) with
    | .error e => .error e
    | .ok key => .ok (toLex (key, entry.id))

/-- The keys of rows, four at a time and one at a time at the end. -/
def keysOf (q : List Int) (qsum : Int) : List Entry → Except Fault (List Hit)
  | a :: b :: c :: d :: rest => do
    let ka ← keyOf kernels.four q qsum a
    let kb ← keyOf kernels.four q qsum b
    let kc ← keyOf kernels.four q qsum c
    let kd ← keyOf kernels.four q qsum d
    let keys ← keysOf q qsum rest
    return ka :: kb :: kc :: kd :: keys
  | a :: rest => do
    let ka ← keyOf kernels.single q qsum a
    let keys ← keysOf q qsum rest
    return ka :: keys
  | [] => .ok []

section Train

def mix (z : UInt64) : UInt64 :=
  let z := z + 0x9e3779b97f4a7c15
  let z := (z ^^^ (z >>> 30)) * 0xbf58476d1ce4e5b9
  let z := (z ^^^ (z >>> 27)) * 0x94d049bb133111eb
  z ^^^ (z >>> 31)

/-- The first centroid of least key: `key < best.0` from `i64::MAX`. -/
def leastKey : List Hit → Hit → Nat
  | [], best => (ofLex best).2
  | hit :: hits, best => leastKey hits (if (ofLex hit).1 < (ofLex best).1 then hit else best)

def centroidEntries (centroids : List (List Int)) (norms : List Int) : List Entry :=
  (List.range centroids.length).map fun c => ⟨centroids.getD c [], norms.getD c 0, c⟩

/-- The list of a row: the nearest centroid, the first of several. -/
def assign (x : List Int) (centroids : List (List Int)) (norms : List Int) : Except Fault Nat := do
  let qsum ← sumChecked 32 x
  let hits ← (centroidEntries centroids norms).mapM (keyOf kernels.single x qsum)
  return leastKey hits (toLex (9223372036854775807, 0))

/-- The mean of a coordinate, rounded half away from zero. -/
def roundedMean (s cnt : Int) : Except Fault Int := do
  let twice ← checked 64 (2 * |s| + cnt)
  let m := twice / (2 * cnt)
  return max (-128) (min 127 (if 0 ≤ s then m else -m))

def newCentroid (stride : Nat) (old : List Int) (rows : List (List Int)) : Except Fault (List Int) :=
  if rows = [] then .ok old
  else (List.range stride).mapM fun j => do
    let s ← sumChecked 64 (rows.map fun row => row.getD j 0)
    roundedMean s rows.length

def lloyd (rows : List (List Int)) (stride : Nat) (sample : List Nat) (centroids : List (List Int)) (norms : List Int) :
    Except Fault (List (List Int) × List Int) := do
  let labels ← sample.mapM fun id => assign kernels (rows.getD id []) centroids norms
  let next ← (List.range centroids.length).mapM fun c =>
    newCentroid stride (centroids.getD c [])
      (((sample.zip labels).filter fun entry => entry.2 = c).map fun entry => rows.getD entry.1 [])
  let nextNorms ← next.mapM norm
  return (next, nextNorms)

def iterate (rows : List (List Int)) (stride : Nat) (sample : List Nat) :
    Nat → List (List Int) × List Int → Except Fault (List (List Int) × List Int)
  | 0, model => .ok model
  | count + 1, model =>
    match lloyd kernels rows stride sample model.1 model.2 with
    | .error e => .error e
    | .ok model => iterate rows stride sample count model

def listCount (members : Nat) (params : BuildParams) : Nat :=
  min params.maxLists (max 1 ((members + params.clusterSize - 1) / params.clusterSize))

def trainSample (sampling : Sampling) (members : List Nat) (params : BuildParams) (salt : UInt64) (trainN : Nat) : List Nat :=
  let start := (mix (params.seed ^^^ salt)).toNat % members.length
  (List.range trainN).map fun i => members.getD ((start + sampling.stride members.length trainN i) % members.length) 0

def trainLabel (sampling : Sampling) (rows : List (List Int)) (norms : List Int) (stride : Nat) (members : List Nat)
    (params : BuildParams) (salt : UInt64) : Except Fault LabelIvf := do
  let lists := listCount members.length params
  let trainN := min (lists * params.trainPerList) members.length
  let sample := trainSample sampling members params salt trainN
  let centroids := (List.range lists).map fun c => rows.getD (sample.getD (sampling.pick c trainN lists) 0) []
  let centroidNorms ← centroids.mapM norm
  let model ← iterate kernels rows stride sample params.kmeansIters (centroids, centroidNorms)
  let assignment ← members.mapM fun id => assign kernels (rows.getD id []) model.1 model.2
  let offsets := CountingSort.offsets lists assignment
  let grouped := CountingSort.scatter offsets (assignment.zip members) (List.replicate members.length 0)
  let copied := decide (members.length ≥ params.copyMin)
  return {
    centroids := model.1
    centroidNorms := model.2
    offsets
    members := grouped
    rows := if copied then grouped.map fun id => rows.getD id [] else []
    norms := if copied then grouped.map fun id => norms.getD id 0 else [] }

end Train

section Build

/-- `label_ids[label_indptr[p]..label_indptr[p + 1]]`. -/
def pointLabels (indptr ids : List Nat) (p : Nat) : List Nat :=
  (ids.drop (indptr.getD p 0)).take (indptr.getD (p + 1) 0 - indptr.getD p 0)

def labelled (n : Nat) (indptr ids : List Nat) : List (Nat × Nat) :=
  (List.range n).flatMap fun p => (pointLabels indptr ids p).map fun l => (l, p)

/-- The inner loop over `postings[a..b]`: an id that is not the one before is written back. -/
def collapseRun : List Nat → Nat → Nat → List Nat → List Nat × Nat
  | [], write, _, postings => (postings, write)
  | r :: rs, write, prev, postings =>
    let id := postings.getD r 0
    if id ≠ prev then collapseRun rs (write + 1) id (postings.set write id)
    else collapseRun rs write prev postings

/-- The loop over the labels: the offsets behind each, the postings and the end of what is kept. -/
def collapseLabels (offsets : List Nat) : List Nat → List Nat → Nat → List Nat × List Nat × Nat
  | [], postings, write => ([], postings, write)
  | l :: ls, postings, write =>
    let a := offsets.getD l 0
    let b := offsets.getD (l + 1) 0
    let (postings, write) := collapseRun (List.range' a (b - a)) write 4294967295 postings
    let (ends, postings, last) := collapseLabels offsets ls postings write
    (write :: ends, postings, last)

/-- `set[id >> 6] |= 1 << (id & 63)` for each member. -/
def setBits (words : Nat) (members : List Nat) : List Nat :=
  members.foldl (fun set id => set.modify (id / 64) (· ||| 2 ^ (id % 64))) (List.replicate words 0)

def bit (words : List Nat) (id : Nat) : Bool := (words.getD (id / 64) 0).testBit (id % 64)

def slice (l : List Nat) (a b : Nat) : List Nat := (l.drop a).take (b - a)

def product (left right : Nat) : Except Fault Nat :=
  if left * right < 2 ^ 64 then .ok (left * right) else .error (.invalid "filtered index shape exceeds capacity")

/-- `label_indptr` is a monotone CSR index over `label_ids`. -/
def monotone (n : Nat) (indptr ids : List Nat) : Bool :=
  indptr.length == n + 1 && indptr.getD 0 0 == 0 && (indptr.zip indptr.tail).all (fun w => decide (w.1 ≤ w.2)) &&
    indptr.getD n 0 == ids.length

def chunk (data : List UInt8) (dim i : Nat) : List UInt8 := (data.drop (i * dim)).take dim

def buildPostings (n labels : Nat) (indptr ids : List Nat) : List Nat × List Nat :=
  let offsets := CountingSort.offsets labels ids
  let postings := CountingSort.scatter offsets (labelled n indptr ids) (List.replicate ids.length 0)
  let (ends, postings, write) := collapseLabels offsets (List.range labels) postings 0
  (0 :: ends, postings.take write)

def build (sampling : Sampling) (data : List UInt8) (dim : Nat) (indptr ids : List Nat) (labels : Nat)
    (params : BuildParams) : Except Fault FilteredIndex := do
  if ¬ (1 ≤ dim ∧ dim ≤ maxDimensions) then
    throw (.invalid ("dim must be in 1..=" ++ toString maxDimensions))
  if data.length % dim ≠ 0 then throw (.invalid "data is not a whole number of rows")
  let n := data.length / dim
  if n > 4294967294 then throw (.invalid (toString n ++ " rows exceed u32 ids"))
  if monotone n indptr ids = false then
    throw (.invalid "label_indptr is not a monotone CSR index over label_ids with n + 1 entries")
  let maxLabel := (ids.max?.map (· + 1)).getD 0
  let labels := if labels = 0 then maxLabel else labels
  if labels > maxLabels then throw (.invalid ("labels exceed " ++ toString maxLabels))
  if maxLabel > labels then
    throw (.invalid ("label id " ++ toString (maxLabel - 1) ++ " is out of range for " ++ toString labels ++ " labels"))
  if params.clusterSize = 0 ∨ params.maxLists = 0 ∨ params.trainPerList = 0 then
    throw (.invalid "cluster_size, max_lists and train_per_list must be positive")
  let stride := (dim + 15) / 16 * 16
  let _ ← product n stride
  let rows := (List.range n).map fun i => padded stride (chunk data dim i)
  let norms ← rows.mapM norm
  let (labelOffsets, postings) := buildPostings n labels indptr ids
  let words := (n + 63) / 64
  let members := fun l => slice postings (labelOffsets.getD l 0) (labelOffsets.getD (l + 1) 0)
  let size := fun l => labelOffsets.getD (l + 1) 0 - labelOffsets.getD l 0
  let dense := (List.range labels).filter fun l => size l > 0 ∧ size l ≥ params.bitsetMin
  let _ ← product dense.length words
  let big := ((List.range labels).filter fun l => size l > params.ivfMin).mergeSort fun a b => decide (size b ≤ size a)
  let ivfs ← big.mapM fun l => trainLabel kernels sampling rows norms stride (members l) params (.ofNat l)
  return {
    dim, stride, n, rows, norms, labelOffsets, postings
    bitsetSlot := (List.range labels).map fun l => dense.idxOf? l
    bitsets := dense.map fun l => setBits words (members l)
    ivfSlot := (List.range labels).map fun l => big.idxOf? l
    ivfs
    deleted := List.replicate words 0
    live := n }

end Build

namespace FilteredIndex

def labels (index : FilteredIndex) : Nat := index.labelOffsets.length - 1

def labelLen (index : FilteredIndex) (l : Nat) : Nat :=
  if l ≥ index.labels then 0 else index.labelOffsets.getD (l + 1) 0 - index.labelOffsets.getD l 0

def posting (index : FilteredIndex) (l : Nat) : List Nat :=
  slice index.postings (index.labelOffsets.getD l 0) (index.labelOffsets.getD (l + 1) 0)

def bitset (index : FilteredIndex) (l : Nat) : Option (List Nat) :=
  (index.bitsetSlot.getD l none).map fun slot => index.bitsets.getD slot []

def isDeleted (index : FilteredIndex) (id : Nat) : Bool := bit index.deleted id

/-- Marks an id deleted and says whether it was live. -/
def delete (index : FilteredIndex) (id : Nat) : FilteredIndex × Bool :=
  if id ≥ index.n then (index, false)
  else
    let was := !index.isDeleted id
    ({ index with
      deleted := index.deleted.modify (id / 64) (· ||| 2 ^ (id % 64))
      live := if was then index.live - 1 else index.live }, was)

def deleteAll (index : FilteredIndex) (ids : List Nat) : FilteredIndex :=
  ids.foldl (fun index id => (index.delete id).1) index

/-- `while lo + step < p.len() && p[lo + step] < id { lo += step; step *= 2 }`. The step grows
with each turn, so `fuel` of the length is enough. -/
def gallop (p : List Nat) (id : Nat) : Nat → Nat → Nat → Nat × Nat
  | 0, lo, step => (lo, step)
  | fuel + 1, lo, step =>
    if lo + step < p.length ∧ p.getD (lo + step) 0 < id then gallop p id fuel (lo + step) (step * 2) else (lo, step)

def partitionPoint (p : α → Bool) (l : List α) : Nat := (l.takeWhile p).length

/-- The cursor moved to the first posting that is not below `id`. -/
def advance (p : List Nat) (c id : Nat) : Nat :=
  if c < p.length ∧ p.getD c 0 < id then
    let (lo, step) := gallop p id p.length c 1
    let hi := min (lo + step + 1) p.length
    lo + 1 + partitionPoint (· < id) (slice p (lo + 1) hi)
  else c

/-- Whether `id` holds every label, with the cursors it leaves. -/
def holds (index : FilteredIndex) (id : Nat) : List Nat → List Nat → Bool × List Nat
  | [], cursors => (true, cursors)
  | l :: others, cursors =>
    let c := cursors.headD 0
    match index.bitset l with
    | some set =>
      if bit set id then
        let (held, rest) := index.holds id others cursors.tail
        (held, c :: rest)
      else (false, cursors)
    | none =>
      let p := index.posting l
      let c := advance p c id
      if c ≥ p.length ∨ p.getD c 0 ≠ id then (false, c :: cursors.tail)
      else
        let (held, rest) := index.holds id others cursors.tail
        (held, c :: rest)

/-- The items whose ids are live and hold every label; the cursors run along. -/
def sift (index : FilteredIndex) (others : List Nat) (idOf : Nat → Nat) : List Nat → List Nat → List Nat
  | [], _ => []
  | item :: items, cursors =>
    if index.isDeleted (idOf item) then index.sift others idOf items cursors
    else
      let (held, cursors) := index.holds (idOf item) others cursors
      if held then item :: index.sift others idOf items cursors else index.sift others idOf items cursors

def worst (k : Nat) (items : List Hit) : Hit :=
  if items.length < k then toLex (9223372036854775807, 4294967295) else items.getD (k - 1) (toLex (0, 0))

/-- `TopK::push`. -/
def push (k : Nat) (items : List Hit) (hit : Hit) : List Hit :=
  if k = 0 ∨ worst k items ≤ hit then items
  else
    let at_ := partitionPoint (fun e => decide (e < hit)) items
    (items.insertIdx at_ hit).take k

def entry (index : FilteredIndex) (id : Nat) : Entry := ⟨index.rows.getD id [], index.norms.getD id 0, id⟩

def copiedEntry (ivf : LabelIvf) (pos : Nat) : Entry :=
  ⟨ivf.rows.getD pos [], ivf.norms.getD pos 0, ivf.members.getD pos 0⟩

/-- `score_ids` and `score_copied`: all entries go to the best `k`. -/
def score (q : List Int) (qsum : Int) (k : Nat) (entries : List Entry) (top : List Hit) : Except Fault (List Hit) :=
  match keysOf kernels q qsum entries with
  | .error e => .error e
  | .ok hits => .ok (hits.foldl (push k) top)

/-- The loop of `score_intersection`: matches are scored 128 at a time. -/
def scoreMatches (index : FilteredIndex) (q : List Int) (qsum : Int) (k : Nat) (others : List Nat) :
    List Nat → List Nat → List Nat → List Hit → Except Fault (List Hit)
  | [], _, batch, top => score kernels q qsum k (batch.map index.entry) top
  | id :: ids, cursors, batch, top =>
    if index.isDeleted id then index.scoreMatches q qsum k others ids cursors batch top
    else
      let (held, cursors) := index.holds id others cursors
      if held then
        let batch := batch ++ [id]
        if batch.length = 128 then
          match score kernels q qsum k (batch.map index.entry) top with
          | .error e => .error e
          | .ok top => index.scoreMatches q qsum k others ids cursors [] top
        else index.scoreMatches q qsum k others ids cursors batch top
      else index.scoreMatches q qsum k others ids cursors batch top

def scoreIntersection (index : FilteredIndex) (q : List Int) (qsum : Int) (k rarest : Nat) (others : List Nat)
    (top : List Hit) : Except Fault (List Hit) :=
  if others = [] ∧ index.live = index.n then score kernels q qsum k ((index.posting rarest).map index.entry) top
  else index.scoreMatches kernels q qsum k others (index.posting rarest) (List.replicate others.length 0) [] top

/-- The probes of `search_ivf`, nearest list first. -/
def probe (index : FilteredIndex) (ivf : LabelIvf) (q : List Int) (qsum : Int) (k : Nat) (others : List Nat)
    (params : SearchParams) : List Hit → Nat → Nat → List Hit → Except Fault (List Hit)
  | [], _, _, top => .ok top
  | list :: lists, probed, scored, top =>
    if scored ≥ params.target ∧ probed ≥ params.minLists then .ok top
    else
      let c := (ofLex list).2
      let a := ivf.offsets.getD c 0
      let b := ivf.offsets.getD (c + 1) 0
      let cursors := List.replicate others.length 0
      if ivf.rows = [] then
        let batch := index.sift others id (slice ivf.members a b) cursors
        match score kernels q qsum k (batch.map index.entry) top with
        | .error e => .error e
        | .ok top => index.probe ivf q qsum k others params lists (probed + 1) (scored + batch.length) top
      else
        let batch := index.sift others (fun pos => ivf.members.getD pos 0) (List.range' a (b - a)) cursors
        match score kernels q qsum k (batch.map (copiedEntry ivf)) top with
        | .error e => .error e
        | .ok top => index.probe ivf q qsum k others params lists (probed + 1) (scored + batch.length) top

def searchIvf (index : FilteredIndex) (ivf : LabelIvf) (q : List Int) (qsum : Int) (k : Nat) (others : List Nat)
    (params : SearchParams) (top : List Hit) : Except Fault (List Hit) :=
  match keysOf kernels q qsum (centroidEntries ivf.centroids ivf.centroidNorms) with
  | .error e => .error e
  | .ok keys =>
    index.probe kernels ivf q qsum k others params (keys.mergeSort fun a b => decide (a ≤ b)) 0 0 top

/-- `Vec::dedup`. -/
def dedup : List Nat → List Nat
  | a :: b :: rest => if a = b then dedup (b :: rest) else a :: dedup (b :: rest)
  | l => l

/-- The path of a query, by the size of its rarest label. -/
def route (index : FilteredIndex) (q : List Int) (qsum : Int) (k rarest : Nat) (others : List Nat)
    (params : SearchParams) : Except Fault (List Hit) :=
  match index.ivfSlot.getD rarest none with
  | none => index.scoreIntersection kernels q qsum k rarest others []
  | some slot =>
    if index.labelLen rarest ≤ params.bruteMax then index.scoreIntersection kernels q qsum k rarest others []
    else
      let matched := index.sift others id (index.posting rarest) (List.replicate others.length 0)
      if others ≠ [] ∧ index.labelLen rarest ≤ params.intersectMax ∧ matched.length ≤ params.bruteMax then
        score kernels q qsum k (matched.map index.entry) []
      else
        index.searchIvf kernels (index.ivfs.getD slot ⟨[], [], [], [], [], []⟩) q qsum k others params []

/-- `u32::try_from(key + qnorm)`, whose failure is a panic. -/
def toDistance (qnorm : Int) (hit : Hit) : Except Fault (Nat × Nat) :=
  let d := (ofLex hit).1 + qnorm
  if 0 ≤ d ∧ d < 2 ^ 32 then .ok (d.toNat, (ofLex hit).2) else .error .overflow

def search (index : FilteredIndex) (query : List UInt8) (labels : List Nat) (k : Nat) (params : SearchParams) :
    Except Fault (List (Nat × Nat)) :=
  if query.length ≠ index.dim then
    .error (.invalid ("query has " ++ toString query.length ++ " coordinates, index " ++ toString index.dim))
  else if k = 0 ∨ labels = [] ∨ labels.any (fun l => decide (l ≥ index.labels)) then .ok []
  else
    let order := dedup (labels.mergeSort fun a b =>
      decide (toLex (index.labelLen a, a) ≤ (toLex (index.labelLen b, b) : Nat ×ₗ Nat)))
    let rarest := order.headD 0
    let k := min (min k index.live) (index.labelLen rarest)
    let q := padded index.stride query
    do
      let qsum ← sumChecked 32 q
      let qnorm ← sumChecked 64 (q.map fun v => v * v)
      let top ← index.route kernels q qsum k rarest order.tail params
      top.mapM (toDistance qnorm)

end FilteredIndex

end Warm.Filter
