import Warm.VectorState

/-! Staging: operations change the served state at once and wait in a batch for `commit`. Single
operations, checked lists and the bulk insertion all come to the same pushes, and what they leave
is a batch that a frame can hold and that the map before it fits. -/
namespace Warm.Vector.State

open List

variable (kernels : Kernels)

/-- Files an operation under the batch. -/
def note (s : State) (op : Operation) : State :=
  { s with
    touched := op.id :: s.touched
    pending := s.pending ++ [op] }

def push (s : State) (op : Operation) : State := (s.apply kernels op).note op

def addBytes (s : State) (size : Nat) : State := { s with pendingBytes := s.pendingBytes + size }

/-- `insert`, `delete` and `replace` of one id. The state comes back with the outcome, also when
the operation is rejected. -/
def stage (s : State) (op : Operation) : State × Except UpdateError Unit :=
  if op.id = reserved then (s, .error .idOutOfRange)
  else if op.id ∈ s.touched then (s, .error (.duplicateIdInBatch op.id))
  else
    match op.vector.elim (.ok ()) fun row => validateVector kernels row s.manifest.dim s.manifest.metric with
    | .error e => (s, .error e)
    | .ok () =>
      if s.pending.length ≥ maxOps ∨ s.pendingBytes + op.size > maxPayload ∨ s.delta.len ≥ 2 ^ 32 - 2 then
        (s, .error .capacity)
      else
        match s.validateOp kernels op with
        | .error e => (s, .error e)
        | .ok () => ((s.push kernels op).addBytes op.size, .ok ())

/-- The first loop of `stage_all`; `batch` are the ids before. -/
def checkBatch (s : State) : Batch → List UInt32 → Except UpdateError Unit
  | [], _ => .ok ()
  | op :: ops, batch =>
    if op.id ∈ s.touched ∨ op.id ∈ batch then .error (.duplicateIdInBatch op.id)
    else
      match s.validateOp kernels op with
      | .error e => .error e
      | .ok () => s.checkBatch ops (op.id :: batch)

def stageAll (s : State) (ops : Batch) : State × Except UpdateError Unit :=
  let size := (ops.map Operation.size).sum
  if s.pending.length + ops.length > maxOps ∨ s.pendingBytes + size > maxPayload ∨
      s.delta.len + ops.length ≥ 2 ^ 32 - 2 then
    (s, .error .capacity)
  else
    match s.checkBatch kernels ops [] with
    | .error e => (s, .error e)
    | .ok () => ((ops.foldl (State.push kernels) s).addBytes size, .ok ())

/-- `chunks_exact(dim)`. -/
def chunksExact (dim : Nat) (vectors : Row) : List Row :=
  (List.range (vectors.length / dim)).map fun i => (vectors.drop (i * dim)).take dim

def deleteBatch (s : State) (ids : List UInt32) : State × Except UpdateError Unit :=
  s.stageAll kernels (ids.map .delete)

def replaceBatch (s : State) (ids : List UInt32) (vectors : Row) : State × Except UpdateError Unit :=
  let dim := s.manifest.dim
  if vectors.length ≠ ids.length * dim then
    (s, .error (.dimensionMismatch (ids.length * dim) vectors.length))
  else s.stageAll kernels ((ids.zip (chunksExact (max dim 1) vectors)).map fun entry => .replace entry.1 entry.2)

/-- The loop of `insert_batch`. -/
def checkInserts (s : State) : List (UInt32 × Row) → List UInt32 → Except UpdateError Unit
  | [], _ => .ok ()
  | (id, row) :: rest, batch =>
    if id = reserved then .error .idOutOfRange
    else if id ∈ s.touched ∨ id ∈ batch then .error (.duplicateIdInBatch id)
    else if s.contains id then .error (.alreadyExists id)
    else
      match validateVector kernels row s.manifest.dim s.manifest.metric with
      | .error e => .error e
      | .ok () => s.checkInserts rest (id :: batch)

def insertBatch (s : State) (ids : List UInt32) (vectors : Row) : State × Except UpdateError Unit :=
  let dim := s.manifest.dim
  if vectors.length ≠ ids.length * dim then
    (s, .error (.dimensionMismatch (ids.length * dim) vectors.length))
  else
    let size := (5 + 4 * dim) * ids.length
    if s.pending.length + ids.length > maxOps ∨ s.pendingBytes + size > maxPayload ∨
        s.delta.len + ids.length ≥ 2 ^ 32 - 2 then
      (s, .error .capacity)
    else
      let entries := ids.zip (chunksExact dim vectors)
      match s.checkInserts kernels entries [] with
      | .error e => (s, .error e)
      | .ok () =>
        let rows := (chunksExact dim vectors).map (prepareRow kernels s.manifest.metric)
        let linked := { s with delta := s.delta.insertBatch ids rows }
        (((entries.map fun entry => Operation.insert entry.1 entry.2).foldl note linked).addBytes size, .ok ())

/-- The pending batch against the map without it. -/
structure Staged (durable : Vectors) (s : State) : Prop where
  wf : s.Wf kernels
  vector : s.vector kernels = s.pending.effect kernels s.manifest.metric durable
  fits : s.pending.Fits durable
  sound : ∀ op ∈ s.pending, op.Sound kernels s.manifest.dim s.manifest.metric
  distinct : (s.pending.map Operation.id).Nodup
  touched : ∀ id, id ∈ s.touched ↔ id ∈ s.pending.map Operation.id

variable {kernels} {s : State}

/-- The sizes a frame admits. -/
structure Bounded (s : State) : Prop where
  count : s.pending.length ≤ maxOps
  bytes : s.pendingBytes = payloadSize s.manifest.dim s.pending
  size : s.pendingBytes ≤ maxPayload

theorem Staged.push (staged : s.Staged kernels durable) (fresh : op.id ∉ s.touched)
    (accepted : s.validateOp kernels op = .ok ()) : (s.push kernels op).Staged kernels durable := by
  obtain ⟨sound, fits⟩ := (staged.wf.validateOp_iff op).mp accepted
  obtain ⟨wf, changed⟩ := staged.wf.apply fits
  have beside : s.Beside (s.apply kernels op) := apply_beside s op
  have unseen : op.id ∉ s.pending.map Operation.id := fun member => fresh ((staged.touched op.id).mpr member)
  have before : op.Fits durable := by
    refine fits.congr ?_
    rw [staged.vector]
    exact Batch.effect_of_not_mem kernels _ durable s.pending op.id unseen
  have pending : (s.push kernels op).pending = s.pending ++ [op] := congrArg (· ++ [op]) beside.pending
  have manifest : (s.push kernels op).manifest = s.manifest := beside.manifest
  exact {
    wf := { wf with }
    vector := by
      rw [pending, manifest, Batch.effect_append, ← staged.vector]
      exact changed
    fits := by
      rw [pending]
      exact forall_mem_append.mpr ⟨staged.fits, forall_mem_singleton.mpr before⟩
    sound := by
      rw [pending, manifest]
      exact forall_mem_append.mpr ⟨staged.sound, forall_mem_singleton.mpr sound⟩
    distinct := by
      rw [pending, map_append, nodup_append']
      refine ⟨staged.distinct, nodup_singleton _, ?_⟩
      intro id old new
      exact unseen (mem_singleton.mp new ▸ old)
    touched := fun id => by
      show id ∈ op.id :: (s.apply kernels op).touched ↔ _
      rw [pending, map_append, mem_append, beside.touched, mem_cons, staged.touched id, or_comm]
      simp }

/-- The parts of the state that only `commit` and `consolidate` change. -/
structure SameFiles (s t : State) : Prop where
  base : t.base = s.base
  manifest : t.manifest = s.manifest
  sequence : t.sequence = s.sequence
  logEnd : t.logEnd = s.logEnd

theorem SameFiles.trans {r t : State} (first : r.SameFiles s) (second : s.SameFiles t) : r.SameFiles t where
  base := second.base.trans first.base
  manifest := second.manifest.trans first.manifest
  sequence := second.sequence.trans first.sequence
  logEnd := second.logEnd.trans first.logEnd

theorem push_files (s : State) (op : Operation) : s.SameFiles (s.push kernels op) :=
  have beside : s.Beside (s.apply kernels op) := apply_beside s op
  ⟨beside.base, beside.manifest, beside.sequence, beside.logEnd⟩

theorem pushAll_files (s : State) (ops : Batch) : s.SameFiles (ops.foldl (State.push kernels) s) := by
  induction ops generalizing s with
  | nil => exact ⟨rfl, rfl, rfl, rfl⟩
  | cons op ops ih => exact (push_files s op).trans (ih _)

theorem pushAll_pending (s : State) (ops : Batch) :
    (ops.foldl (State.push kernels) s).pending = s.pending ++ ops ∧
      (ops.foldl (State.push kernels) s).pendingBytes = s.pendingBytes := by
  induction ops generalizing s with
  | nil => exact ⟨(append_nil _).symm, rfl⟩
  | cons op ops ih =>
    have beside : s.Beside (s.apply kernels op) := apply_beside s op
    obtain ⟨pending, bytes⟩ := ih (s.push kernels op)
    refine ⟨pending.trans ?_, bytes.trans beside.pendingBytes⟩
    show (s.apply kernels op).pending ++ [op] ++ ops = _
    rw [beside.pending, append_assoc]
    rfl

theorem Staged.pushAll (staged : s.Staged kernels durable) {ops : Batch} (fresh : ∀ op ∈ ops, op.id ∉ s.touched)
    (distinct : (ops.map Operation.id).Nodup) (accepted : ∀ op ∈ ops, s.validateOp kernels op = .ok ()) :
    (ops.foldl (State.push kernels) s).Staged kernels durable := by
  induction ops generalizing s with
  | nil => exact staged
  | cons op ops ih =>
    rw [map_cons, nodup_cons] at distinct
    have head := staged.push (fresh op mem_cons_self) (accepted op mem_cons_self)
    have apart (other : Operation) (member : other ∈ ops) : other.id ≠ op.id := fun same =>
      distinct.1 (mem_map.mpr ⟨other, member, same⟩)
    refine ih head (fun other member seen => ?_) distinct.2 fun other member => ?_
    · have touched : (s.push kernels op).touched = op.id :: s.touched :=
        congrArg (op.id :: ·) (apply_beside s op).touched
      rw [touched, mem_cons] at seen
      rcases seen with same | old
      · exact apart other member same
      · exact fresh other (mem_cons_of_mem op member) old
    · obtain ⟨sound, fits⟩ := (staged.wf.validateOp_iff other).mp (accepted other (mem_cons_of_mem op member))
      have changed := (staged.wf.apply ((staged.wf.validateOp_iff op).mp (accepted op mem_cons_self)).2).2
      have manifest : (s.push kernels op).manifest = s.manifest := (push_files s op).manifest
      refine (head.wf.validateOp_iff other).mpr ⟨manifest ▸ sound, fits.congr ?_⟩
      show _ = (s.apply kernels op).vector kernels other.id
      rw [changed, Operation.effect, Function.update_of_ne (apart other member)]

/-- What a request to stage can do: nothing, or a longer batch. -/
inductive Outcome (kernels : Kernels) (durable : Vectors) (s : State) : State × Except UpdateError Unit → Prop
  | rejected (e : UpdateError) : Outcome kernels durable s (s, .error e)
  | accepted (t : State) (staged : t.Staged kernels durable) (bounded : t.Bounded) (files : s.SameFiles t)
      (nothing : t.pending = [] → s.pending = [] ∧ t.delta = s.delta ∧ t.deleted = s.deleted) :
      Outcome kernels durable s (t, .ok ())

theorem payloadSize_append (dim : Nat) (ops more : Batch) :
    payloadSize dim (ops ++ more) = payloadSize dim ops + payloadSize dim more := by
  rw [payloadSize, map_append, sum_append]
  rfl

theorem sum_size (sound : ∀ op ∈ ops, op.Sound kernels dim metric) :
    (ops.map Operation.size).sum = payloadSize dim ops := by
  rw [payloadSize]
  congr 1
  apply map_congr_left
  intro op member
  rw [Operation.size]
  cases found : op.vector with
  | none => rfl
  | some row =>
    have same := length_of_validateVector ((sound op member).vector row found)
    simp [same]

theorem Outcome.ofPushes (staged : s.Staged kernels durable) (bounded : s.Bounded) {ops : Batch}
    (fresh : ∀ op ∈ ops, op.id ∉ s.touched) (distinct : (ops.map Operation.id).Nodup)
    (accepted : ∀ op ∈ ops, s.validateOp kernels op = .ok ()) {size : Nat}
    (sized : size = payloadSize s.manifest.dim ops) (few : s.pending.length + ops.length ≤ maxOps)
    (room : s.pendingBytes + size ≤ maxPayload) :
    Outcome kernels durable s ((ops.foldl (State.push kernels) s).addBytes size, .ok ()) := by
  have pushed := staged.pushAll fresh distinct accepted
  have files : s.SameFiles (ops.foldl (State.push kernels) s) := pushAll_files s ops
  have staged_all : (ops.foldl (State.push kernels) s).pending = s.pending ++ ops ∧
      (ops.foldl (State.push kernels) s).pendingBytes = s.pendingBytes := pushAll_pending s ops
  obtain ⟨pending, bytes⟩ := staged_all
  refine .accepted _ { pushed with wf := { pushed.wf with } } ⟨?_, ?_, ?_⟩
    ⟨files.base, files.manifest, files.sequence, files.logEnd⟩ ?_
  · show (ops.foldl (State.push kernels) s).pending.length ≤ _
    rw [pending, length_append]
    exact few
  · show (ops.foldl (State.push kernels) s).pendingBytes + size =
      payloadSize (ops.foldl (State.push kernels) s).manifest.dim (ops.foldl (State.push kernels) s).pending
    rw [bytes, pending, files.manifest, payloadSize_append, bounded.bytes, sized]
  · show (ops.foldl (State.push kernels) s).pendingBytes + size ≤ _
    rw [bytes]
    exact room
  · intro empty
    obtain ⟨before, rfl⟩ := append_eq_nil_iff.mp (pending.symm.trans empty)
    exact ⟨before, rfl, rfl⟩

variable {durable : Vectors}

theorem stage_outcome (staged : s.Staged kernels durable) (bounded : s.Bounded) (op : Operation) :
    Outcome kernels durable s (s.stage kernels op) := by
  rw [stage]
  split
  · exact .rejected _
  split
  · exact .rejected _
  rename_i fresh
  split
  · exact .rejected _
  split
  · exact .rejected _
  rename_i limits
  split
  · exact .rejected _
  rename_i accepted
  have sound := ((staged.wf.validateOp_iff op).mp accepted).1
  have each : ∀ other ∈ [op], other.Sound kernels s.manifest.dim s.manifest.metric := fun other member =>
    mem_singleton.mp member ▸ sound
  have sized : op.size = payloadSize s.manifest.dim [op] := by
    rw [← sum_size each]
    exact (Nat.add_zero _).symm
  rw [not_or, not_or] at limits
  have unseen : ∀ other ∈ [op], other.id ∉ s.touched := fun other member => mem_singleton.mp member ▸ fresh
  exact Outcome.ofPushes staged bounded unseen (nodup_singleton _) (fun other member => mem_singleton.mp member ▸ accepted) sized
    (by have := limits.1; rw [length_singleton]; omega) (by omega)

theorem checkBatch_ok (accepted : s.checkBatch kernels ops batch = .ok ()) :
    (∀ op ∈ ops, op.id ∉ s.touched ∧ op.id ∉ batch ∧ s.validateOp kernels op = .ok ()) ∧
      (ops.map Operation.id).Nodup := by
  induction ops generalizing batch with
  | nil => simp
  | cons op ops ih =>
    rw [checkBatch] at accepted
    split at accepted
    · contradiction
    rename_i fresh
    rw [not_or] at fresh
    split at accepted
    · contradiction
    rename_i own
    obtain ⟨each, distinct⟩ := ih accepted
    refine ⟨?_, ?_⟩
    · intro other member
      rcases mem_cons.mp member with rfl | later
      · exact ⟨fresh.1, fresh.2, own⟩
      · obtain ⟨unseen, apart, valid⟩ := each other later
        exact ⟨unseen, fun old => apart (mem_cons_of_mem _ old), valid⟩
    · rw [map_cons, nodup_cons]
      refine ⟨fun again => ?_, distinct⟩
      obtain ⟨other, member, same⟩ := mem_map.mp again
      exact (each other member).2.1 (same ▸ mem_cons_self)

theorem stageAll_outcome (staged : s.Staged kernels durable) (bounded : s.Bounded) (ops : Batch) :
    Outcome kernels durable s (s.stageAll kernels ops) := by
  rw [stageAll]
  split
  · exact .rejected _
  rename_i limits
  split
  · exact .rejected _
  rename_i accepted
  obtain ⟨each, distinct⟩ := checkBatch_ok accepted
  rw [not_or, not_or] at limits
  exact Outcome.ofPushes staged bounded (fun op member => (each op member).1) distinct
    (fun op member => (each op member).2.2)
    (sum_size fun op member => ((staged.wf.validateOp_iff op).mp (each op member).2.2).1)
    (by omega) (by omega)

theorem replaceBatch_outcome (staged : s.Staged kernels durable) (bounded : s.Bounded) (ids : List UInt32)
    (vectors : Row) : Outcome kernels durable s (s.replaceBatch kernels ids vectors) := by
  rw [replaceBatch]
  split
  · exact .rejected _
  · exact stageAll_outcome staged bounded _

theorem checkInserts_ok (accepted : s.checkInserts kernels entries batch = .ok ()) :
    s.checkBatch kernels (entries.map fun entry => .insert entry.1 entry.2) batch = .ok () := by
  induction entries generalizing batch with
  | nil => rfl
  | cons entry entries ih =>
    obtain ⟨id, row⟩ := entry
    rw [checkInserts] at accepted
    split at accepted
    · contradiction
    rename_i usable
    split at accepted
    · contradiction
    rename_i fresh
    split at accepted
    · contradiction
    rename_i free
    split at accepted
    · contradiction
    rename_i valid
    have own : s.validateOp kernels (.insert id row) = .ok () := by
      simp [validateOp, checkPresence, Operation.id, Operation.vector, usable, valid, free]
    simp only [map_cons, checkBatch, own, Operation.id, fresh, ↓reduceIte]
    exact ih accepted

theorem foldl_insert (delta : Delta) (ids : List UInt32) (rows : List Row) (same : ids.length = rows.length)
    (first k : Nat) (start : delta.ids.length = first + k) :
    (ids.zip rows).foldl (fun delta entry => delta.insert entry.1 entry.2) delta = {
      ids := delta.ids ++ ids
      rows := delta.rows ++ rows
      live := (ids.zipIdx k).foldl (fun live entry => live.insert entry.1 (first + entry.2)) delta.live } := by
  induction ids generalizing k delta rows with
  | nil =>
    obtain rfl := length_eq_zero_iff.mp same.symm
    simp
  | cons id ids ih =>
    obtain ⟨row, rows, rfl⟩ := exists_cons_of_length_eq_add_one same.symm
    have later := ih (delta.insert id row) rows (by simpa using same) (k + 1)
      (by simp only [Delta.insert, length_append, length_singleton]; omega)
    rw [zip_cons_cons, foldl_cons, later]
    simp [Delta.insert, start]

theorem insertBatch_eq (delta : Delta) (ids : List UInt32) (rows : List Row) (same : ids.length = rows.length) :
    delta.insertBatch ids rows = (ids.zip rows).foldl (fun delta entry => delta.insert entry.1 entry.2) delta := by
  rw [Delta.insertBatch]
  split
  · rfl
  · exact (foldl_insert delta ids rows same delta.ids.length 0 rfl).symm

theorem pushAll_inserts (s : State) (entries : List (UInt32 × Row)) :
    (entries.map fun entry => Operation.insert entry.1 entry.2).foldl (State.push kernels) s =
      (entries.map fun entry => Operation.insert entry.1 entry.2).foldl note
        { s with delta := entries.foldl (fun delta entry =>
          delta.insert entry.1 (prepareRow kernels s.manifest.metric entry.2)) s.delta } := by
  induction entries generalizing s with
  | nil => rfl
  | cons entry entries ih =>
    rw [map_cons, foldl_cons, ih]
    rfl

theorem payloadSize_inserts (dim : Nat) (entries : List (UInt32 × Row)) :
    payloadSize dim (entries.map fun entry => .insert entry.1 entry.2) = entries.length * (5 + 4 * dim) := by
  induction entries with
  | nil => exact (Nat.zero_mul _).symm
  | cons entry entries ih =>
    have own : payloadSize dim [.insert entry.1 entry.2] = 5 + 4 * dim := by
      simp [payloadSize, Operation.vector, Nat.mul_comm]
    have split := payloadSize_append dim [.insert entry.1 entry.2]
      (entries.map fun entry => .insert entry.1 entry.2)
    rw [map_cons, length_cons, Nat.succ_mul, ← ih, Nat.add_comm, ← own]
    exact split

theorem insertBatch_outcome (staged : s.Staged kernels durable) (bounded : s.Bounded) (positive : 0 < s.manifest.dim)
    (ids : List UInt32) (vectors : Row) : Outcome kernels durable s (s.insertBatch kernels ids vectors) := by
  rw [insertBatch]
  dsimp only
  split
  · exact .rejected _
  rename_i shape
  rw [not_not] at shape
  split
  · exact .rejected _
  rename_i limits
  split
  · exact .rejected _
  rename_i accepted
  let chunks := chunksExact s.manifest.dim vectors
  have count : ids.length = chunks.length := by
    simp only [chunks, chunksExact, length_map, length_range, shape, Nat.mul_div_cancel _ positive]
  have linked : s.delta.insertBatch ids (chunks.map (prepareRow kernels s.manifest.metric)) =
      (ids.zip chunks).foldl (fun delta entry =>
        delta.insert entry.1 (prepareRow kernels s.manifest.metric entry.2)) s.delta := by
    rw [insertBatch_eq _ _ _ (by rw [length_map, count]), zip_map_right, foldl_map]
    rfl
  obtain ⟨each, distinct⟩ := checkBatch_ok (checkInserts_ok accepted)
  rw [not_or, not_or] at limits
  have length : ((ids.zip chunks).map fun entry => Operation.insert entry.1 entry.2).length = ids.length := by
    rw [length_map, length_zip, ← count, Nat.min_self]
  have sized : (5 + 4 * s.manifest.dim) * ids.length =
      payloadSize s.manifest.dim ((ids.zip chunks).map fun entry => Operation.insert entry.1 entry.2) := by
    rw [payloadSize_inserts, ← length, length_map, Nat.mul_comm]
  have outcome := Outcome.ofPushes staged bounded (fun op member => (each op member).1) distinct
    (fun op member => (each op member).2.2) sized (by rw [length]; omega) (by omega)
  rw [pushAll_inserts] at outcome
  rw [← linked] at outcome
  exact outcome

end Warm.Vector.State
