import Warm.VectorLog
import Warm.Table
import Mathlib.Data.List.Induction

/-! The state an updatable vector index serves: an immutable base with a bitmap of its deleted
slots, and a delta of rows added since. Which neighbours the two graphs link is of no concern to
what is stored, so a graph is its shape and the delta's edges are left out. -/
namespace Warm.Vector

open List hiding all below contains insert map max replace toString

/-- `rows-<sequence>.bin`: the ids in order and their full-precision rows. -/
structure RowsFile where
  dim : Nat
  metric : Metric
  sequence : Nat
  ids : List UInt32
  rows : List Row
  deriving DecidableEq

/-- What `Base::open` asks of a vertex file. -/
structure Shape where
  len : Nat
  dim : Nat
  metric : Metric
  deriving DecidableEq

structure Base where
  ids : List UInt32
  rows : List Row
  dim : Nat
  metric : Metric
  graph : Option Shape
  deriving DecidableEq

namespace Base

/-- `ids.windows(2).any(|p| p[0] >= p[1])` is false. -/
def ordered (ids : List UInt32) : Bool := (ids.zip ids.tail).all fun pair => pair.1 < pair.2

def openFiles (rows : Option RowsFile) (vertex : Option Shape) (m : Manifest) : Except UpdateError Base :=
  match rows with
  | none => .error .io
  | some file =>
    if file.dim ≠ m.dim ∨ file.ids.length ≥ 2 ^ 32 - 1 ∨ file.metric ≠ m.metric ∨ file.sequence ≠ m.sequence then
      .error (.corruptBase "rows header mismatch")
    else if file.rows.length ≠ file.ids.length then .error (.corruptBase "rows length mismatch")
    else if file.ids.getLast? = some reserved ∨ ordered file.ids = false then
      .error (.corruptBase "rows ids not strictly ordered")
    else if file.ids = [] then
      .ok { ids := file.ids, rows := file.rows, dim := m.dim, metric := m.metric, graph := none }
    else
      match vertex with
      | none => .error .io
      | some shape =>
        if shape.len ≠ file.ids.length ∨ shape.dim ≠ m.dim ∨ shape.metric ≠ m.metric then
          .error (.corruptBase "vertex/rows shape mismatch")
        else .ok { ids := file.ids, rows := file.rows, dim := m.dim, metric := m.metric, graph := some shape }

/-- A row is checked each time it is read. -/
def row (kernels : Kernels) (base : Base) (slot : Nat) : Except UpdateError Row :=
  match base.rows[slot]? with
  | none => .error (.corruptBase ("row " ++ toString slot ++ " outside the rows file"))
  | some row => (validateVector kernels row base.dim base.metric).map fun _ => row

end Base

/-- The rows added since the base was written: every slot's id and row, and the slot of each
live id. -/
structure Delta where
  ids : List UInt32
  rows : List Row
  live : Table UInt32 Nat

namespace Delta

def empty : Delta := { ids := [], rows := [], live := ∅ }

def len (delta : Delta) : Nat := delta.ids.length

/-- The slot stays allocated. -/
def remove (delta : Delta) (id : UInt32) : Delta := { delta with live := delta.live.erase id }

def insert (delta : Delta) (id : UInt32) (row : Row) : Delta where
  ids := delta.ids ++ [id]
  rows := delta.rows ++ [row]
  live := delta.live.insert id delta.ids.length

/-- The bulk form: all slots first, then the ids they serve. -/
def insertBatch (delta : Delta) (ids : List UInt32) (rows : List Row) : Delta :=
  if ids.length < 2 then (ids.zip rows).foldl (fun delta entry => delta.insert entry.1 entry.2) delta
  else {
    ids := delta.ids ++ ids
    rows := delta.rows ++ rows
    live := ids.zipIdx.foldl (fun live entry => live.insert entry.1 (delta.ids.length + entry.2)) delta.live }

end Delta

/-- `f32::max` over magnitudes, which skips what is not a number. -/
def largest (row : Row) : Nat :=
  row.foldl (fun m v => if v.toNat % 2 ^ 31 > 0x7F800000 then m else max m (v.toNat % 2 ^ 31)) 0

def normalizeRow (kernels : Kernels) (row : Row) : Row :=
  let squared := kernels.dot row row
  if isFinite squared ∧ squared.toNat < 2 ^ 31 ∧ 0x00800000 ≤ squared.toNat then
    row.map (kernels.div · (kernels.sqrt squared))
  else if 0 < largest row ∧ isFinite (UInt32.ofNat (largest row)) then
    let scaled := row.map (kernels.div · (UInt32.ofNat (largest row)))
    scaled.map (kernels.div · (kernels.sqrt (kernels.dot scaled scaled)))
  else row

/-- What `prepare_rows` does to one row. -/
def prepareRow (kernels : Kernels) (metric : Metric) (row : Row) : Row :=
  match metric with
  | .angular => normalizeRow kernels row
  | .euclidean => row

structure State where
  base : Base
  /-- One bit for each slot of the base, in 64-bit words. -/
  tombstones : List Nat
  deleted : Nat
  delta : Delta
  pending : Batch
  touched : List UInt32
  pendingBytes : Nat
  manifest : Manifest
  sequence : Nat
  logEnd : Nat

/-- What an index is for: a vector for each live id. -/
abbrev Vectors := UInt32 → Option Row

def Operation.effect (kernels : Kernels) (metric : Metric) (map : Vectors) (op : Operation) : Vectors :=
  Function.update map op.id (op.vector.map (prepareRow kernels metric))

/-- Insertions take free ids, deletions and replacements live ones. -/
def Operation.Fits (map : Vectors) : Operation → Prop
  | .insert id _ => map id = none
  | .delete id => (map id).isSome
  | .replace id _ => (map id).isSome

def Batch.effect (kernels : Kernels) (metric : Metric) (map : Vectors) (ops : Batch) : Vectors :=
  ops.foldl (Operation.effect kernels metric) map

/-- The operations of a batch have different ids, so all are judged by the map before it. -/
def Batch.Fits (map : Vectors) (ops : Batch) : Prop := ∀ op ∈ ops, op.Fits map

theorem Operation.Fits.congr {op : Operation} (same : map op.id = other op.id) (fits : op.Fits map) : op.Fits other := by
  cases op with
  | insert id row => exact same.symm.trans fits
  | delete id | replace id row => exact (congrArg Option.isSome same).symm.trans fits

theorem Batch.effect_of_not_mem (kernels : Kernels) (metric : Metric) (map : Vectors) (ops : Batch) (id : UInt32)
    (absent : id ∉ ops.map Operation.id) : effect kernels metric map ops id = map id := by
  induction ops generalizing map with
  | nil => rfl
  | cons op ops ih =>
    rw [map_cons, mem_cons, not_or] at absent
    exact (ih _ absent.2).trans (Function.update_of_ne absent.1 _ _)

theorem Batch.effect_append (kernels : Kernels) (metric : Metric) (map : Vectors) (ops more : Batch) :
    effect kernels metric map (ops ++ more) =
      effect kernels metric (effect kernels metric map ops) more := foldl_append

namespace State

variable (kernels : Kernels)

def new (base : Base) (manifest : Manifest) : State where
  base
  tombstones := List.replicate ((base.ids.length + 63) / 64) 0
  deleted := 0
  delta := .empty
  pending := []
  touched := []
  pendingBytes := 0
  manifest
  sequence := manifest.sequence
  logEnd := logHeaderSize

def dead (s : State) (slot : Nat) : Bool := (s.tombstones[slot / 64]?.getD 0).testBit (slot % 64)

/-- `binary_search` over ids in strict order finds the one place of an id. -/
def baseSlot (s : State) (id : UInt32) : Option Nat := (s.base.ids.idxOf? id).filter fun slot => !s.dead slot

def contains (s : State) (id : UInt32) : Bool := s.delta.live.contains id || (s.baseSlot id).isSome

def len (s : State) : Nat := s.base.ids.length - s.deleted + s.delta.live.size

/-- The last part of `validate_op`. -/
def checkPresence (s : State) : Operation → Except UpdateError Unit
  | .insert id _ => if s.contains id then .error (.alreadyExists id) else .ok ()
  | .delete id => if s.contains id then .ok () else .error (.unknownId id)
  | .replace id _ => if s.contains id then .ok () else .error (.unknownId id)

def validateOp (s : State) (op : Operation) : Except UpdateError Unit :=
  if op.id = reserved then .error .idOutOfRange
  else
    match op.vector.elim (.ok ()) fun row => validateVector kernels row s.manifest.dim s.manifest.metric with
    | .error e => .error e
    | .ok () => s.checkPresence op

def bury (s : State) (slot : Nat) : State :=
  { s with
    tombstones := s.tombstones.modify (slot / 64) (· ||| 2 ^ (slot % 64))
    deleted := s.deleted + 1 }

/-- The part of `apply` that takes the old vector of an id away. -/
def withdraw (s : State) (id : UInt32) : State :=
  let s := { s with delta := s.delta.remove id }
  match s.baseSlot id with
  | some slot => s.bury slot
  | none => s

def addRow (s : State) (id : UInt32) (row : Row) : State :=
  { s with delta := s.delta.insert id (prepareRow kernels s.manifest.metric row) }

def apply (s : State) : Operation → State
  | .insert id row => s.addRow kernels id row
  | .delete id => s.withdraw id
  | .replace id row => (s.withdraw id).addRow kernels id row

def checkAll (s : State) : Batch → Except UpdateError Unit
  | [] => .ok ()
  | op :: ops =>
    match s.validateOp kernels op with
    | .error e => .error e
    | .ok () => s.checkAll ops

/-- A batch of the log is checked whole before any of it is applied. -/
def replay (s : State) (ops : Batch) : Except UpdateError State :=
  match s.checkAll kernels ops with
  | .error e => .error e
  | .ok () => .ok (ops.foldl (State.apply kernels) s)

/-- The vector under an id, as consolidation and reranking look it up. -/
def vector (s : State) (id : UInt32) : Option Row :=
  match s.delta.live[id]? with
  | some slot => s.delta.rows[slot]?
  | none => (s.baseSlot id).bind fun slot => (s.base.row kernels slot).toOption

/-- The ids a consolidation gathers, before it sorts them. -/
def liveIds (s : State) : List UInt32 :=
  ((s.base.ids.zipIdx.filter fun entry => !s.dead entry.2).map Prod.fst) ++ s.delta.live.keys

/-- What holds of the state of an open index between two operations. -/
structure Wf (s : State) : Prop where
  ascending : s.base.ids.Pairwise (· < ·)
  rows : s.base.rows.length = s.base.ids.length
  valid : ∀ row ∈ s.base.rows, validateVector kernels row s.base.dim s.base.metric = .ok ()
  words : s.tombstones.length = (s.base.ids.length + 63) / 64
  counted : s.deleted = (List.range s.base.ids.length).countP s.dead
  slots : s.delta.rows.length = s.delta.ids.length
  inside : ∀ (id : UInt32) (slot : Nat), s.delta.live[id]? = some slot → slot < s.delta.rows.length
  /-- No id is live on both sides. -/
  apart : ∀ id, s.delta.live.contains id → s.baseSlot id = none

variable {kernels} {s : State} {id : UInt32} {slot : Nat}

theorem mem_live (table : Table UInt32 Nat) (id : UInt32) : table.contains id = table[id]?.isSome :=
  Std.ExtTreeMap.contains_eq_isSome_getElem?

theorem baseSlot_eq_some : s.baseSlot id = some slot ↔ s.base.ids.idxOf? id = some slot ∧ s.dead slot = false := by
  simp [baseSlot, Option.filter_eq_some_iff]

theorem idxOf?_lt {ids : List UInt32} (found : ids.idxOf? id = some slot) : slot < ids.length ∧ ids[slot]? = some id := by
  obtain ⟨inside, same, -⟩ := idxOf?_eq_some_iff.mp found
  exact ⟨inside, by rw [getElem?_eq_getElem inside, same]⟩

theorem dead_bury (inside : slot / 64 < s.tombstones.length) (other : Nat) :
    (s.bury slot).dead other = (s.dead other || other == slot) := by
  simp only [dead, bury, getElem?_modify]
  by_cases word : slot / 64 = other / 64
  · have present : other / 64 < s.tombstones.length := word ▸ inside
    rw [getElem?_eq_getElem present]
    simp only [word, ↓reduceIte, Option.map_eq_map, Option.map_some, Option.getD_some, Nat.testBit_or,
      Nat.testBit_two_pow]
    congr 1
    rw [Bool.eq_iff_iff, decide_eq_true_eq, beq_iff_eq]
    omega
  · have apart : (other == slot) = false := by
      rw [beq_eq_false_iff_ne]
      rintro rfl
      exact word rfl
    simp [word, apart]

theorem countP_mark (inside : slot < n) (fresh : p slot = false) :
    (List.range n).countP (fun i => p i || i == slot) = (List.range n).countP p + 1 := by
  induction n with
  | zero => contradiction
  | succ n ih =>
    rw [range_succ, countP_append, countP_append]
    by_cases last : slot = n
    · subst last
      have before : (List.range slot).countP (fun i => p i || i == slot) = (List.range slot).countP p := by
        apply countP_congr
        intro i member
        have below := mem_range.mp member
        simp [Nat.ne_of_lt below]
      simp [before, fresh]
    · have own : (n == slot) = false := by simpa using Ne.symm last
      rw [ih (by omega)]
      simp only [countP_singleton, own, Bool.or_false]
      omega

theorem vector_eq_delta (found : s.delta.live[id]? = some slot) : s.vector kernels id = s.delta.rows[slot]? := by
  rw [vector, found]

section

variable (wf : s.Wf kernels)
include wf

theorem Wf.row_base (inside : slot < s.base.ids.length) :
    ∃ row, s.base.rows[slot]? = some row ∧ s.base.row kernels slot = .ok row := by
  have bound : slot < s.base.rows.length := wf.rows ▸ inside
  refine ⟨s.base.rows[slot], getElem?_eq_getElem bound, ?_⟩
  rw [Base.row, getElem?_eq_getElem bound]
  simp only [wf.valid _ (getElem_mem bound)]
  rfl

theorem Wf.contains_eq (id : UInt32) : s.contains id = (s.vector kernels id).isSome := by
  rw [contains, mem_live]
  cases live : s.delta.live[id]? with
  | some slot =>
    rw [vector_eq_delta live, getElem?_eq_getElem (wf.inside id slot live)]
    rfl
  | none =>
    rw [vector, live]
    cases found : s.baseSlot id with
    | none => rfl
    | some slot =>
      obtain ⟨row, -, read⟩ := wf.row_base (idxOf?_lt (baseSlot_eq_some.mp found).1).1
      simp [read, Except.toOption]

theorem Wf.word_inside (found : s.baseSlot id = some slot) : slot / 64 < s.tombstones.length := by
  have inside := (idxOf?_lt (baseSlot_eq_some.mp found).1).1
  rw [wf.words]
  omega

theorem baseSlot_bury (found : s.baseSlot id = some slot) (other : UInt32) :
    (s.bury slot).baseSlot other = if other = id then none else s.baseSlot other := by
  have own := (baseSlot_eq_some.mp found).1
  have place := (idxOf?_lt own).2
  apply Option.ext
  intro at_slot
  rw [baseSlot_eq_some, dead_bury (wf.word_inside found), Bool.or_eq_false_iff, beq_eq_false_iff_ne]
  show s.base.ids.idxOf? other = some at_slot ∧ _ ↔ _
  by_cases same : other = id
  · subst same
    rw [if_pos rfl, own]
    simp only [Option.some.injEq, reduceCtorEq, iff_false, not_and]
    rintro rfl -
    exact fun apart => apart rfl
  · rw [if_neg same, baseSlot_eq_some]
    refine and_congr_right fun located => and_iff_left ?_
    rintro rfl
    have there := (idxOf?_lt located).2
    rw [place, Option.some.injEq] at there
    exact same there.symm

theorem baseSlot_withdraw (id other : UInt32) :
    (s.withdraw id).baseSlot other = if other = id then none else s.baseSlot other := by
  rw [withdraw]
  split
  · rename_i slot found
    exact baseSlot_bury (s := { s with delta := s.delta.remove id })
      { wf with
        inside := fun a slot live => wf.inside a slot (by
          rw [Delta.remove, Table.getElem?_erase] at live
          split at live
          · contradiction
          · exact live)
        apart := fun a live => wf.apart a (by
          rw [mem_live, Delta.remove, Table.getElem?_erase] at live
          rw [mem_live]
          split at live
          · contradiction
          · exact live) } found other
  · rename_i missing
    by_cases same : other = id
    · subst same
      rw [if_pos rfl]
      exact missing
    · rw [if_neg same]
      rfl

end

theorem live_withdraw (id other : UInt32) :
    (s.withdraw id).delta.live[other]? = if other = id then none else s.delta.live[other]? := by
  rw [withdraw]
  split <;> exact Table.getElem?_erase _ _ _

theorem withdraw_frame (s : State) (id : UInt32) : ∃ tombstones deleted, s.withdraw id =
    { s with tombstones, deleted, delta := s.delta.remove id } := by
  rw [withdraw]
  split <;> exact ⟨_, _, rfl⟩

theorem vector_withdraw (wf : s.Wf kernels) (id other : UInt32) :
    (s.withdraw id).vector kernels other = if other = id then none else s.vector kernels other := by
  have rows : (s.withdraw id).delta.rows = s.delta.rows ∧ (s.withdraw id).base = s.base := by
    obtain ⟨tombstones, deleted, same⟩ := withdraw_frame s id
    rw [same]
    exact ⟨rfl, rfl⟩
  rw [vector, vector, live_withdraw, baseSlot_withdraw wf, rows.1, rows.2]
  by_cases same : other = id
  · simp [same]
  · rw [if_neg same, if_neg same, if_neg same]

theorem Wf.withdraw (wf : s.Wf kernels) (id : UInt32) : (s.withdraw id).Wf kernels := by
  have frame : (s.withdraw id).delta.rows = s.delta.rows ∧ (s.withdraw id).delta.ids = s.delta.ids ∧
      (s.withdraw id).base = s.base := by
    obtain ⟨tombstones, deleted, same⟩ := withdraw_frame s id
    rw [same]
    exact ⟨rfl, rfl, rfl⟩
  obtain ⟨rows, ids, base⟩ := frame
  have marks : (s.withdraw id).tombstones.length = s.tombstones.length ∧
      (s.withdraw id).deleted = (List.range s.base.ids.length).countP (s.withdraw id).dead := by
    rw [State.withdraw]
    split
    · rename_i slot found
      have located := baseSlot_eq_some.mp found
      refine ⟨length_modify _ _ _, ?_⟩
      have dead : ({ s with delta := s.delta.remove id }.bury slot).dead = fun i => s.dead i || i == slot :=
        funext fun i => dead_bury (wf.word_inside found) i
      have counted := countP_mark (idxOf?_lt located.1).1 located.2
      rw [dead]
      exact (congrArg (· + 1) wf.counted).trans counted.symm
    · exact ⟨rfl, wf.counted⟩
  exact {
    ascending := base ▸ wf.ascending
    rows := base ▸ wf.rows
    valid := base ▸ wf.valid
    words := by rw [marks.1, base]; exact wf.words
    counted := by rw [base]; exact marks.2
    slots := by rw [rows, ids]; exact wf.slots
    inside := fun a slot live => by
      rw [live_withdraw] at live
      split at live
      · contradiction
      · rw [rows]
        exact wf.inside a slot live
    apart := fun a live => by
      rw [mem_live, live_withdraw] at live
      rw [baseSlot_withdraw wf]
      split at live
      · contradiction
      · rename_i other
        rw [if_neg other]
        exact wf.apart a ((mem_live _ a).trans live) }

theorem baseSlot_addRow (row : Row) (other : UInt32) : (s.addRow kernels id row).baseSlot other = s.baseSlot other := rfl

theorem live_addRow (row : Row) (other : UInt32) : (s.addRow kernels id row).delta.live[other]? =
    if other = id then some s.delta.ids.length else s.delta.live[other]? :=
  Table.getElem?_insert _ _ _ _

theorem vector_addRow (wf : s.Wf kernels) (id : UInt32) (row : Row) (other : UInt32) :
    (s.addRow kernels id row).vector kernels other =
      if other = id then some (prepareRow kernels s.manifest.metric row) else s.vector kernels other := by
  rw [vector, live_addRow]
  by_cases same : other = id
  · rw [if_pos same, if_pos same]
    show (s.delta.rows ++ [prepareRow kernels s.manifest.metric row])[s.delta.ids.length]? = _
    rw [← wf.slots, getElem?_concat_length]
  · rw [if_neg same, if_neg same, baseSlot_addRow, vector]
    cases live : s.delta.live[other]? with
    | none => rfl
    | some slot => exact getElem?_append_left (wf.inside other slot live)

theorem Wf.addRow (wf : s.Wf kernels) (row : Row) (absent : s.baseSlot id = none) :
    (s.addRow kernels id row).Wf kernels :=
  { wf with
    slots := by
      show (s.delta.rows ++ [_]).length = (s.delta.ids ++ [id]).length
      rw [length_append, length_append, wf.slots]
      rfl
    inside := fun a slot live => by
      show slot < (s.delta.rows ++ [_]).length
      rw [length_append, length_singleton]
      rw [live_addRow] at live
      split at live
      · have last := wf.slots
        cases live
        omega
      · have old := wf.inside a slot live
        omega
    apart := fun a live => by
      rw [baseSlot_addRow]
      rw [mem_live, live_addRow] at live
      by_cases same : a = id
      · exact same ▸ absent
      · rw [if_neg same] at live
        exact wf.apart a ((mem_live _ a).trans live) }

/-- `apply` leaves the batch and the files alone. -/
structure Beside (s t : State) : Prop where
  base : t.base = s.base
  pending : t.pending = s.pending
  touched : t.touched = s.touched
  pendingBytes : t.pendingBytes = s.pendingBytes
  manifest : t.manifest = s.manifest
  sequence : t.sequence = s.sequence
  logEnd : t.logEnd = s.logEnd

theorem Beside.trans {r t : State} (first : r.Beside s) (second : s.Beside t) : r.Beside t where
  base := second.base.trans first.base
  pending := second.pending.trans first.pending
  touched := second.touched.trans first.touched
  pendingBytes := second.pendingBytes.trans first.pendingBytes
  manifest := second.manifest.trans first.manifest
  sequence := second.sequence.trans first.sequence
  logEnd := second.logEnd.trans first.logEnd

theorem apply_beside (s : State) (op : Operation) : s.Beside (s.apply kernels op) := by
  cases op with
  | insert id row => exact ⟨rfl, rfl, rfl, rfl, rfl, rfl, rfl⟩
  | delete id | replace id row =>
    obtain ⟨tombstones, deleted, same⟩ := withdraw_frame s id
    simp only [apply, same]
    exact ⟨rfl, rfl, rfl, rfl, rfl, rfl, rfl⟩

theorem applyAll_beside (s : State) (ops : Batch) : s.Beside (ops.foldl (State.apply kernels) s) := by
  induction ops generalizing s with
  | nil => exact ⟨rfl, rfl, rfl, rfl, rfl, rfl, rfl⟩
  | cons op ops ih => exact (apply_beside s op).trans (ih _)

section

variable (wf : s.Wf kernels)
include wf

theorem Wf.checkPresence_iff (op : Operation) :
    s.checkPresence op = .ok () ↔ op.Fits (s.vector kernels) := by
  cases op with
  | insert id row =>
    show _ ↔ s.vector kernels id = none
    rw [checkPresence, wf.contains_eq]
    cases s.vector kernels id <;> simp
  | delete id | replace id row =>
    show _ ↔ (s.vector kernels id).isSome = true
    rw [checkPresence, wf.contains_eq]
    cases s.vector kernels id <;> simp

theorem Wf.validateOp_iff (op : Operation) :
    s.validateOp kernels op = .ok () ↔
      op.Sound kernels s.manifest.dim s.manifest.metric ∧ op.Fits (s.vector kernels) := by
  unfold validateOp
  by_cases own : op.id = reserved
  · rw [if_pos own]
    exact iff_of_false (by simp) fun sound => sound.1.id own
  · rw [if_neg own]
    have sound : op.Sound kernels s.manifest.dim s.manifest.metric ↔
        (op.vector.elim (.ok ()) fun row => validateVector kernels row s.manifest.dim s.manifest.metric) = .ok () := by
      cases found : op.vector with
      | none => exact ⟨fun _ => rfl, fun _ => ⟨own, fun row some => by simp [found] at some⟩⟩
      | some row =>
        refine ⟨fun sound => sound.vector row found, fun valid => ⟨own, fun other some => ?_⟩⟩
        rw [found] at some
        cases some
        exact valid
    rw [sound, ← wf.checkPresence_iff op]
    split
    · rename_i e rejected
      simp [rejected]
    · rename_i accepted
      simp only [accepted, true_and]

theorem Wf.apply (fits : op.Fits (s.vector kernels)) :
    (s.apply kernels op).Wf kernels ∧
      (s.apply kernels op).vector kernels = op.effect kernels s.manifest.metric (s.vector kernels) := by
  cases op with
  | insert id row =>
    have free : s.contains id = false := by
      have none : s.vector kernels id = none := fits
      rw [wf.contains_eq, none]
      rfl
    rw [contains, Bool.or_eq_false_iff, Option.isSome_eq_false_iff, Option.isNone_iff_eq_none] at free
    refine ⟨wf.addRow row free.2, funext fun other => ?_⟩
    rw [State.apply, vector_addRow wf, Operation.effect, Function.update_apply]
    rfl
  | delete id =>
    refine ⟨wf.withdraw id, funext fun other => ?_⟩
    rw [State.apply, vector_withdraw wf, Operation.effect, Function.update_apply]
    rfl
  | replace id row =>
    have gone : (s.withdraw id).baseSlot id = none := by rw [baseSlot_withdraw wf, if_pos rfl]
    have metric : (s.withdraw id).manifest = s.manifest := by
      obtain ⟨tombstones, deleted, same⟩ := withdraw_frame s id
      rw [same]
    refine ⟨(wf.withdraw id).addRow row gone, funext fun other => ?_⟩
    rw [State.apply, vector_addRow (wf.withdraw id), vector_withdraw wf, metric, Operation.effect,
      Function.update_apply]
    by_cases same : other = id
    · rw [if_pos same, if_pos (show other = (Operation.replace id row).id from same)]
      rfl
    · rw [if_neg same, if_neg same, if_neg (show ¬ other = (Operation.replace id row).id from same)]

theorem Wf.applyAll {ops : Batch} (distinct : (ops.map Operation.id).Nodup)
    (fits : ops.Fits (s.vector kernels)) :
    (ops.foldl (State.apply kernels) s).Wf kernels ∧
      (ops.foldl (State.apply kernels) s).vector kernels =
        ops.effect kernels s.manifest.metric (s.vector kernels) := by
  induction ops generalizing s with
  | nil => exact ⟨wf, rfl⟩
  | cons op ops ih =>
    rw [map_cons, nodup_cons] at distinct
    obtain ⟨kept, changed⟩ := wf.apply (fits op mem_cons_self)
    have rest : Batch.Fits ((s.apply kernels op).vector kernels) ops := by
      intro other member
      refine (fits other (mem_cons_of_mem op member)).congr ?_
      have apart : other.id ≠ op.id := fun same => distinct.1 (mem_map.mpr ⟨other, member, same⟩)
      rw [changed, Operation.effect, Function.update_of_ne apart]
    obtain ⟨wf', all⟩ := ih kept distinct.2 rest
    rw [changed, (apply_beside s op).manifest] at all
    exact ⟨wf', all⟩

theorem Wf.checkAll_ok (sound : ∀ op ∈ ops, op.Sound kernels s.manifest.dim s.manifest.metric)
    (fits : ops.Fits (s.vector kernels)) : s.checkAll kernels ops = .ok () := by
  induction ops with
  | nil => rfl
  | cons op ops ih =>
    have own := (wf.validateOp_iff op).mpr ⟨sound op mem_cons_self, fits op mem_cons_self⟩
    rw [checkAll, own]
    exact ih (forall_mem_cons.mp sound).2
      (forall_mem_cons.mp fits).2

theorem Wf.replay_ok (sound : ops.Sound kernels s.manifest.dim s.manifest.metric)
    (fits : ops.Fits (s.vector kernels)) : s.replay kernels ops = .ok (ops.foldl (State.apply kernels) s) := by
  rw [State.replay, wf.checkAll_ok sound.each fits]

theorem Wf.base_live (id : UInt32) :
    id ∈ (s.base.ids.zipIdx.filter fun entry => !s.dead entry.2).map Prod.fst ↔ (s.baseSlot id).isSome = true := by
  have nodup : s.base.ids.Nodup := wf.ascending.imp fun below => UInt32.ne_of_lt below
  rw [Option.isSome_iff_exists, mem_map]
  constructor
  · rintro ⟨⟨a, slot⟩, member, rfl⟩
    rw [mem_filter, mem_zipIdx_iff_getElem?] at member
    obtain ⟨inside, same⟩ := List.getElem?_eq_some_iff.mp member.1
    refine ⟨slot, baseSlot_eq_some.mpr ⟨idxOf?_eq_some_iff.mpr ⟨inside, same, ?_⟩, by simpa using member.2⟩⟩
    intro j before found
    have place := (List.Nodup.getElem_inj_iff nodup).mp (found.trans same.symm)
    omega
  · rintro ⟨slot, found⟩
    obtain ⟨located, alive⟩ := baseSlot_eq_some.mp found
    exact ⟨(id, slot), mem_filter.mpr
      ⟨mem_zipIdx_iff_getElem?.mpr (idxOf?_lt located).2, by simpa using alive⟩, rfl⟩

theorem Wf.mem_liveIds (id : UInt32) : id ∈ s.liveIds ↔ s.contains id = true := by
  rw [liveIds, mem_append, wf.base_live, Std.ExtTreeMap.mem_keys, contains, Bool.or_eq_true, or_comm]
  rfl

theorem Wf.liveIds_nodup : s.liveIds.Nodup := by
  have nodup : s.base.ids.Nodup := wf.ascending.imp fun below => UInt32.ne_of_lt below
  have first : ((s.base.ids.zipIdx.filter fun entry => !s.dead entry.2).map Prod.fst).Nodup := by
    have whole : (s.base.ids.zipIdx.map Prod.fst).Nodup := by rwa [zipIdx_map_fst]
    exact whole.sublist (filter_sublist.map _)
  refine nodup_append'.mpr ⟨first, Std.ExtTreeMap.nodup_keys, ?_⟩
  intro id base delta
  have none := wf.apart id (Std.ExtTreeMap.mem_keys.mp delta)
  rw [wf.base_live, none] at base
  contradiction

theorem Wf.len_eq : s.len = s.liveIds.length := by
  have zipped (p : Nat → Bool) : s.base.ids.zipIdx.countP (fun entry => p entry.2) =
      (List.range s.base.ids.length).countP p := by
    have slots : s.base.ids.zipIdx.map Prod.snd = List.range s.base.ids.length := by
      rw [zipIdx_map_snd, range_eq_range']
    rw [← slots, countP_map]
    rfl
  have total := length_eq_countP_add_countP s.dead (l := List.range s.base.ids.length)
  have alive := zipped fun slot => !s.dead slot
  have others : (List.range s.base.ids.length).countP (fun slot => decide ¬ s.dead slot = true) =
      (List.range s.base.ids.length).countP (fun slot => !s.dead slot) := by
    apply countP_congr
    intro slot _
    simp
  rw [length_range, others] at total
  rw [len, liveIds, length_append, Std.ExtTreeMap.length_keys, length_map, ← countP_eq_length_filter,
    alive, wf.counted]
  omega

end

end State

end Warm.Vector
