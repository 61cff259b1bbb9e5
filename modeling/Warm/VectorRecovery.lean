import Warm.VectorUpdate

/-! Recovery of an updatable vector index. The directory always stands for a list of whole batches:
a base with the first of them, and a log whose frames hold the rest, perhaps some of the base's
own, and at its end perhaps part of one more frame. Every operation keeps that, wherever it stops,
and opening such a directory serves the map after exactly these batches. -/
namespace Warm.Vector

open Bytes List

variable (kernels : Kernels)

def after (metric : Metric) (start : Vectors) (batches : List Batch) : Vectors :=
  batches.foldl (Batch.effect kernels metric) start

/-- Each batch fits the map that those before it leave. -/
def Admissible (metric : Metric) : Vectors → List Batch → Prop
  | _, [] => True
  | start, ops :: rest => ops.Fits start ∧ Admissible metric (ops.effect kernels metric start) rest

theorem after_append (metric : Metric) (start : Vectors) (batches more : List Batch) :
    after kernels metric start (batches ++ more) = after kernels metric (after kernels metric start batches) more :=
  foldl_append

theorem admissible_append (metric : Metric) (start : Vectors) (batches more : List Batch) :
    Admissible kernels metric start (batches ++ more) ↔
      Admissible kernels metric start batches ∧ Admissible kernels metric (after kernels metric start batches) more := by
  induction batches generalizing start with
  | nil => simp [Admissible, after]
  | cons ops batches ih =>
    rw [cons_append, Admissible, Admissible, ih, and_assoc]
    rfl

section Base

variable {kernels}

theorem openFiles_ok (opened : Base.openFiles (some file) vertex m = .ok base) :
    base.ids = file.ids ∧ base.rows = file.rows ∧ base.dim = m.dim ∧ base.metric = m.metric ∧
      file.rows.length = file.ids.length ∧ Base.ordered file.ids = true := by
  simp only [Base.openFiles] at opened
  split at opened
  · contradiction
  split at opened
  · contradiction
  rename_i lengths
  split at opened
  · contradiction
  rename_i order
  rw [not_or, Bool.not_eq_false] at order
  rw [not_not] at lengths
  split at opened
  · cases opened
    exact ⟨rfl, rfl, rfl, rfl, lengths, order.2⟩
  split at opened
  · contradiction
  split at opened
  · contradiction
  cases opened
  exact ⟨rfl, rfl, rfl, rfl, lengths, order.2⟩

theorem ordered_iff (ids : List UInt32) : Base.ordered ids = true ↔ ids.Pairwise (· < ·) := by
  induction ids with
  | nil => simp [Base.ordered]
  | cons a ids ih =>
    cases ids with
    | nil => simp [Base.ordered]
    | cons b ids =>
      have step : Base.ordered (a :: b :: ids) = (decide (a < b) && Base.ordered (b :: ids)) := rfl
      rw [step, Bool.and_eq_true, ih, decide_eq_true_eq, pairwise_cons (a := a)]
      refine and_congr_left fun ascending => ⟨fun below other member => ?_, fun all => all b mem_cons_self⟩
      rcases mem_cons.mp member with rfl | later
      · exact below
      · exact UInt32.lt_trans below ((pairwise_cons.mp ascending).1 other later)

theorem new_dead (base : Base) (m : Manifest) (slot : Nat) : (State.new base m).dead slot = false := by
  rw [State.dead, State.new]
  simp only [getElem?_replicate]
  split <;> simp

theorem new_baseSlot (base : Base) (m : Manifest) (id : UInt32) : (State.new base m).baseSlot id = base.ids.idxOf? id := by
  apply Option.ext
  intro slot
  rw [State.baseSlot_eq_some, new_dead]
  exact and_iff_left rfl

theorem new_live (base : Base) (m : Manifest) (id : UInt32) : (State.new base m).delta.live[id]? = none :=
  Std.ExtTreeMap.getElem?_empty

theorem new_wf (m : Manifest) (ascending : base.ids.Pairwise (· < ·)) (lengths : base.rows.length = base.ids.length)
    (valid : ∀ row ∈ base.rows, validateVector kernels row base.dim base.metric = .ok ()) :
    (State.new base m).Wf kernels where
  ascending := ascending
  rows := lengths
  valid := valid
  words := length_replicate
  counted := by
    have none : (State.new base m).dead = fun _ => false := funext fun slot => new_dead base m slot
    rw [none, countP_false]
    rfl
  slots := rfl
  inside := fun id slot live => by
    rw [new_live] at live
    contradiction
  apart := fun id live => by
    rw [State.mem_live, new_live] at live
    contradiction

theorem gatherRows_ok {s : State} {rows : List Row} (gathered : s.gatherRows kernels ids = .ok rows) :
    List.Forall₂ (fun id row => s.liveRow kernels id = .ok row ∧
      validateVector kernels row s.manifest.dim s.manifest.metric = .ok ()) ids rows := by
  induction ids generalizing rows with
  | nil =>
    cases gathered
    exact .nil
  | cons id ids ih =>
    rw [State.gatherRows] at gathered
    split at gathered
    · contradiction
    rename_i row found
    split at gathered
    · contradiction
    rename_i valid
    split at gathered
    · contradiction
    rename_i rest later
    cases gathered
    exact .cons ⟨found, valid⟩ (ih later)

theorem liveRow_vector {s : State} {id : UInt32} (wf : s.Wf kernels) (found : s.liveRow kernels id = .ok row) :
    s.vector kernels id = some row := by
  rw [State.liveRow] at found
  split at found
  · rename_i slot live
    have inside := wf.inside id slot live
    rw [getElem?_eq_getElem inside, Option.getD_some] at found
    cases found
    exact (State.vector_eq_delta live).trans (getElem?_eq_getElem inside)
  · rename_i absent
    split at found
    · rename_i slot located
      simp [State.vector, absent, located, found, Except.toOption]
    · contradiction

theorem nextBase {s : State} (wf : s.Wf kernels) {m : Manifest} (dim : m.dim = s.manifest.dim)
    (metric : m.metric = s.manifest.metric) (gathered : s.gatherRows kernels s.nextIds = .ok rows)
    {vertex : Option Shape} {sequence : Nat} {base : Base}
    (opened : Base.openFiles (some ⟨m.dim, m.metric, sequence, s.nextIds, rows⟩) vertex m = .ok base) :
    (State.new base m).Wf kernels ∧ (State.new base m).vector kernels = s.vector kernels := by
  obtain ⟨ids, stored, own_dim, own_metric, lengths, order⟩ := openFiles_ok opened
  have each := gatherRows_ok gathered
  have ascending : base.ids.Pairwise (· < ·) := ids ▸ (ordered_iff _).mp order
  have valid : ∀ row ∈ base.rows, validateVector kernels row base.dim base.metric = .ok () := by
    intro row member
    rw [stored] at member
    obtain ⟨slot, inside, rfl⟩ := mem_iff_getElem.mp member
    have pair := each.get (i := slot) (by rw [each.length_eq]; exact inside) inside
    rw [own_dim, own_metric, dim, metric]
    exact pair.2
  have wf' := new_wf m ascending (by rw [ids, stored]; exact lengths) valid
  refine ⟨wf', funext fun id => ?_⟩
  have members : id ∈ base.ids ↔ (s.vector kernels id).isSome = true := by
    rw [ids, ← wf.contains_eq, ← wf.mem_liveIds]
    exact (mergeSort_perm _ _).mem_iff
  rw [State.vector, new_live, new_baseSlot]
  cases place : base.ids.idxOf? id with
  | none =>
    have absent := mt members.mpr (idxOf?_eq_none_iff.mp place)
    rw [Bool.not_eq_true, Option.isSome_eq_false_iff, Option.isNone_iff_eq_none] at absent
    rw [absent]
    rfl
  | some slot =>
    obtain ⟨inside, same⟩ := State.idxOf?_lt place
    have bound : slot < rows.length := by rw [lengths, ← ids]; exact inside
    obtain ⟨row, present, read⟩ := wf'.row_base inside
    have pair := each.get (i := slot) (by rw [each.length_eq]; exact bound) bound
    have own : s.nextIds[slot]? = some id := by
      rw [ids] at same
      exact same
    obtain ⟨_, at_slot⟩ := List.getElem?_eq_some_iff.mp own
    have served := liveRow_vector wf pair.1
    have row_eq : rows[slot] = row := by
      have here : base.rows[slot]? = some row := present
      rw [stored, getElem?_eq_getElem bound, Option.some.injEq] at here
      exact here
    simp only [get_eq_getElem] at served
    rw [at_slot, row_eq] at served
    rw [served]
    show (base.row kernels slot).toOption = some row
    rw [show base.row kernels slot = .ok row from read]
    rfl

end Base

variable (metric : Metric) (start : Vectors)

/-- The directory stands for `batches`: the base has those up to the checkpoint of `m`, the log
those after `origin`, and behind them lie the bytes of a torn append. -/
structure Stored (m : Manifest) (origin : Nat) (torn : Bytes) (directory : Directory) (batches : List Batch) : Prop where
  valid : m.Valid
  same : m.metric = metric
  current : directory.current = m.encode kernels
  base : ∃ base, Base.openFiles (directory.rows m.sequence) (directory.vertex m.sequence) m = .ok base ∧
    (State.new base m).Wf kernels ∧
    (State.new base m).vector kernels = after kernels metric start (batches.take m.sequence)
  older : origin ≤ m.sequence
  covered : m.sequence ≤ batches.length
  bounded : batches.length < 2 ^ 64
  sound : ∀ ops ∈ batches, ops.Sound kernels m.dim m.metric
  admissible : Admissible kernels metric start batches
  log : directory.log = logHeader kernels { m with sequence := origin } ++
    (frames kernels m.dim origin (batches.drop origin) ++ torn)
  tail : Torn kernels m batches.length torn

/-- The state serves the map after `batches` and its own pending batch. -/
structure Serving (m : Manifest) (batches : List Batch) (s : State) : Prop where
  manifest : s.manifest = m
  sequence : s.sequence = batches.length
  staged : s.Staged kernels (after kernels metric start batches)
  bounded : s.Bounded
  /-- A state with the checkpoint's sequence and nothing pending is the base alone. -/
  clean : s.pending = [] → s.sequence = m.sequence → s.delta.len = 0 ∧ s.deleted = 0

variable {kernels metric start} {m : Manifest}

/-- Replay from the base: frames it has are skipped, the others lead to the last batch. -/
theorem loadAll_ok (wf : s.Wf kernels) (manifest : s.manifest = m) (same : m.metric = metric) (done rest : List Batch)
    (sound : ∀ ops ∈ rest, ops.Sound kernels m.dim m.metric)
    (admissible : Admissible kernels metric (after kernels metric start done) rest)
    (covered : m.sequence ≤ done.length + rest.length)
    (vector : s.vector kernels = after kernels metric start (if done.length < m.sequence then (done ++ rest).take m.sequence else done)) :
    ∃ t, loadAll (State.replay kernels) m.sequence done.length rest s = .ok t ∧ t.Wf kernels ∧
      t.vector kernels = after kernels metric start (done ++ rest) ∧ s.Beside t ∧
      (m.sequence = done.length + rest.length → t = s) := by
  induction rest generalizing done s with
  | nil =>
    refine ⟨s, rfl, wf, ?_, ⟨rfl, rfl, rfl, rfl, rfl, rfl, rfl⟩, fun _ => rfl⟩
    have whole : ¬ done.length < m.sequence := Nat.not_lt.mpr covered
    rw [vector, if_neg whole, append_nil]
  | cons ops rest ih =>
    have split : done ++ ops :: rest = (done ++ [ops]) ++ rest := by simp
    have counted : (done ++ [ops]).length = done.length + 1 := by simp
    have later : ∀ other ∈ rest, other.Sound kernels m.dim m.metric :=
      (forall_mem_cons.mp sound).2
    have admitted : Admissible kernels metric (after kernels metric start (done ++ [ops])) rest := by
      rw [after_append]
      exact admissible.2
    have covered' : m.sequence ≤ (done ++ [ops]).length + rest.length := by
      rw [counted]
      rw [length_cons] at covered
      omega
    rw [loadAll, split, length_cons]
    by_cases skipped : done.length < m.sequence
    · rw [if_pos skipped] at vector
      have known : s.vector kernels = after kernels metric start
          (if (done ++ [ops]).length < m.sequence then ((done ++ [ops]) ++ rest).take m.sequence else done ++ [ops]) := by
        rw [vector]
        split
        · rw [append_assoc]
          rfl
        · have exact_ : m.sequence = (done ++ [ops]).length := by omega
          rw [‹done ++ ops :: rest = _›, exact_, take_left]
      obtain ⟨t, loaded, wf', served, beside, unchanged⟩ := ih wf manifest (done ++ [ops]) later admitted covered' known
      rw [counted] at loaded unchanged
      rw [if_neg (by omega)]
      exact ⟨t, loaded, wf', served, beside, fun total => unchanged (by omega)⟩
    · rw [if_neg skipped] at vector
      have own := sound ops mem_cons_self
      have fits : ops.Fits (s.vector kernels) := vector ▸ admissible.1
      have replayed := wf.replay_ok (manifest ▸ own) fits
      obtain ⟨wf₁, changed⟩ := wf.applyAll own.distinct fits
      have beside₁ : s.Beside (ops.foldl (State.apply kernels) s) := State.applyAll_beside s ops
      have known : (ops.foldl (State.apply kernels) s).vector kernels = after kernels metric start
          (if (done ++ [ops]).length < m.sequence then ((done ++ [ops]) ++ rest).take m.sequence else done ++ [ops]) := by
        rw [if_neg (by omega), changed, vector, manifest, same, after_append]
        rfl
      obtain ⟨t, loaded, wf', served, beside, -⟩ :=
        ih wf₁ (beside₁.manifest.trans manifest) (done ++ [ops]) later admitted covered' known
      rw [counted] at loaded
      rw [if_pos (by omega), replayed]
      exact ⟨t, loaded, wf', served, beside₁.trans beside, fun total => by omega⟩

section

variable (stored : Stored kernels metric start m origin torn directory batches)
include stored

theorem Stored.cleanup (rows vertex : Nat → Bool) :
    Stored kernels metric start m origin torn (directory.cleanup m.sequence rows vertex) batches :=
  { stored with
    base := by
      simpa [Directory.cleanup] using stored.base }

theorem Stored.truncate :
    Stored kernels metric start m origin []
      { directory with
        log := directory.log.take (logHeaderSize + (frames kernels m.dim origin (batches.drop origin)).length) } batches :=
  { stored with
    log := by
      rw [stored.log, ← logHeader_length kernels { m with sequence := origin }, ← append_assoc,
        ← length_append, take_left, append_nil]
    tail := .clean }

theorem Stored.replay {base : Base}
    (opened : Base.openFiles (directory.rows m.sequence) (directory.vertex m.sequence) m = .ok base) :
    ∃ t, Vector.replay kernels (State.replay kernels) m directory.log (.new base m) =
        .ok (t, batches.length, logHeaderSize + (frames kernels m.dim origin (batches.drop origin)).length) ∧
      t.Wf kernels ∧ t.vector kernels = after kernels metric start batches ∧ (State.new base m).Beside t ∧
      (m.sequence = batches.length → t = .new base m) := by
  obtain ⟨base', opened', wf, vector⟩ := stored.base
  obtain rfl : base' = base := Except.ok.inj (opened'.symm.trans opened)
  have inside : origin ≤ batches.length := stored.older.trans stored.covered
  have halves : batches.take origin ++ batches.drop origin = batches := take_append_drop origin batches
  have length : (batches.take origin).length = origin := by rw [length_take]; omega
  have total : origin + (batches.drop origin).length = batches.length := by rw [length_drop]; omega
  have sound : ∀ ops ∈ batches.drop origin, ops.Sound kernels m.dim m.metric :=
    fun ops member => stored.sound ops (mem_of_mem_drop member)
  have admissible : Admissible kernels metric (after kernels metric start (batches.take origin)) (batches.drop origin) := by
    have whole := stored.admissible
    rw [← halves, admissible_append] at whole
    exact whole.2
  have known : (State.new base' m).vector kernels = after kernels metric start
      (if (batches.take origin).length < m.sequence then (batches.take origin ++ batches.drop origin).take m.sequence
        else batches.take origin) := by
    rw [vector, halves, length]
    split
    · rfl
    · have equal : m.sequence = origin := by have := stored.older; omega
      rw [equal]
  obtain ⟨t, loaded, wf', served, beside, unchanged⟩ := loadAll_ok (m := m) wf rfl stored.same (batches.take origin)
    (batches.drop origin) sound admissible (by rw [length, total]; exact stored.covered) known
  rw [length] at loaded unchanged
  have replayed := replay_log kernels (State.replay kernels) m origin stored.older stored.valid (batches.drop origin)
    sound torn (by rw [total]; exact stored.bounded) (by rw [total]; exact stored.tail) (.new base' m) loaded
  rw [total, Nat.max_eq_left stored.covered, ← stored.log] at replayed
  refine ⟨t, replayed, wf', by rw [served, halves], beside, fun equal => unchanged (by omega)⟩

end

/-- What `open` can do to a stored directory: every fault leaves it standing for the same batches,
and without one it serves them. -/
theorem Stored.openIndex {directory : Directory} (stored : Stored kernels metric start m origin torn directory batches)
    (fault : OpenFault) :
    (∃ torn', Stored kernels metric start m origin torn' (openIndex kernels directory fault).1 batches) ∧
      (fault = .none → ∃ session, (openIndex kernels directory fault).2 = .ok session) ∧
      ∀ session, (openIndex kernels directory fault).2 = .ok session →
        session.writer = .idle ∧ Serving kernels metric start m batches session.state ∧
        session.state.pending = [] ∧
        Stored kernels metric start m origin [] (openIndex kernels directory fault).1 batches ∧
        session.state.logEnd = (openIndex kernels directory fault).1.log.length := by
  obtain ⟨base, opened, -⟩ := stored.base
  obtain ⟨t, replayed, wf, vector, beside, unchanged⟩ := stored.replay opened
  have read : Manifest.read kernels directory.current = .ok m := stored.current ▸ stored.valid.read_encode kernels
  have cut := stored.truncate
  rw [Vector.openIndex, read]
  simp only [opened, replayed]
  cases fault with
  | early =>
    refine ⟨⟨torn, stored⟩, nofun, ?_⟩
    rintro session ⟨⟩
  | truncated =>
    refine ⟨⟨[], cut⟩, nofun, ?_⟩
    rintro session ⟨⟩
  | cleanup rows vertex =>
    refine ⟨⟨[], cut.cleanup rows vertex⟩, nofun, ?_⟩
    rintro session ⟨⟩
  | none =>
    have clean := cut.cleanup (fun _ => true) fun _ => true
    refine ⟨⟨[], clean⟩, fun _ => ⟨_, rfl⟩, ?_⟩
    rintro session ⟨⟩
    refine ⟨rfl, ?_, beside.pending, clean, ?_⟩
    · have pending : t.pending = [] := beside.pending
      exact {
        manifest := beside.manifest
        sequence := rfl
        staged := {
          wf := { wf with }
          vector := by
            show t.vector kernels = Batch.effect kernels t.manifest.metric _ t.pending
            rw [pending, vector]
            rfl
          fits := by
            rw [pending]
            exact fun op member => nomatch member
          sound := by
            rw [pending]
            exact fun op member => nomatch member
          distinct := by
            rw [pending]
            exact nodup_nil
          touched := fun id => by
            rw [pending, beside.touched]
            rfl }
        bounded := {
          count := by
            rw [pending]
            exact Nat.zero_le _
          bytes := by
            rw [pending, beside.pendingBytes]
            rfl
          size := by
            rw [beside.pendingBytes]
            exact Nat.zero_le _ }
        clean := fun _ last => by
          have same := unchanged last.symm
          rw [same]
          exact ⟨rfl, rfl⟩ }
    · have length := congrArg List.length clean.log
      rw [length_append, logHeader_length, append_nil] at length
      exact length.symm

section Operations

variable (kernels metric start)

/-- A handle that may write: its state goes with the directory, whose log has no torn end. -/
structure Live (m : Manifest) (origin : Nat) (directory : Directory) (batches : List Batch) (session : Session) : Prop where
  stored : Stored kernels metric start m origin [] directory batches
  serving : Serving kernels metric start m batches session.state
  logEnd : session.state.logEnd = directory.log.length
  idle : session.writer = .idle

/-- A directory and its handle after an operation: ready for the next one, or to be reopened. -/
inductive Leaves (directory : Directory) (session : Session) (batches : List Batch) : Prop
  | live (m : Manifest) (origin : Nat) (live : Live kernels metric start m origin directory batches session)
  | uncertain (m : Manifest) (origin : Nat) (torn : Bytes)
      (stored : Stored kernels metric start m origin torn directory batches) (wf : session.state.Wf kernels)
      (closed : session.writer = .uncertain)

/-- The batches an operation leaves: one that was written counts if `commit` returned. -/
inductive Kept (batches : List Batch) : Option Attempt → List Batch → Prop
  | nothing : Kept batches none batches
  | committed (ops : Batch) : Kept batches (some ⟨ops, true⟩) (batches ++ [ops])
  | lost (ops : Batch) : Kept batches (some ⟨ops, false⟩) batches
  | written (ops : Batch) : Kept batches (some ⟨ops, false⟩) (batches ++ [ops])

variable {kernels metric start} {directory : Directory} {session : Session} {origin : Nat} {batches : List Batch}

theorem write_end (data bytes : Bytes) : write data data.length bytes = data ++ bytes := by
  rw [write, take_length, drop_eq_nil_of_le (Nat.le_add_right _ _), append_nil]

theorem Serving.sound (serving : Serving kernels metric start m batches s) (some : s.pending ≠ []) :
    s.pending.Sound kernels m.dim m.metric where
  nonempty := some
  count := serving.bounded.count
  size := by
    have size := serving.bounded.size
    rw [serving.bounded.bytes, serving.manifest] at size
    exact size
  distinct := serving.staged.distinct
  each := by
    have each := serving.staged.sound
    rwa [serving.manifest] at each

theorem Stored.torn_append (stored : Stored kernels metric start m origin [] directory batches)
    (sound : ops.Sound kernels m.dim m.metric) (next : batches.length + 1 < 2 ^ 64) (torn missing : Bytes)
    (cut : frameBytes kernels ops (batches.length + 1) (payloadSize m.dim ops) = torn ++ missing) (lost : missing ≠ []) :
    Stored kernels metric start m origin torn { directory with log := directory.log ++ torn } batches :=
  { stored with
    log := by
      rw [stored.log, append_nil, append_assoc]
    tail := .cut ops sound next missing cut lost }

theorem Stored.append (stored : Stored kernels metric start m origin [] directory batches)
    (sound : ops.Sound kernels m.dim m.metric) (fits : ops.Fits (after kernels metric start batches))
    (next : batches.length + 1 < 2 ^ 64) :
    Stored kernels metric start m origin []
      { directory with
        log := directory.log ++ frameBytes kernels ops (batches.length + 1) (payloadSize m.dim ops) }
      (batches ++ [ops]) :=
  have inside : origin ≤ batches.length := stored.older.trans stored.covered
  { stored with
    base := by
      obtain ⟨base, opened, wf, vector⟩ := stored.base
      refine ⟨base, opened, wf, ?_⟩
      rw [vector, take_append_of_le_length stored.covered]
    covered := by
      rw [length_append]
      exact Nat.le_add_right_of_le stored.covered
    bounded := by
      rw [length_append]
      exact next
    sound := forall_mem_append.mpr ⟨stored.sound, forall_mem_singleton.mpr sound⟩
    admissible := by
      rw [admissible_append]
      exact ⟨stored.admissible, fits, trivial⟩
    log := by
      have total : origin + (batches.drop origin).length = batches.length := by rw [length_drop]; omega
      rw [stored.log, append_nil, drop_append_of_le_length inside, frames_append, total, append_nil,
        append_assoc]
      simp only [frames, append_nil]
    tail := .clean }

theorem Serving.commit (serving : Serving kernels metric start m batches s) (covered : m.sequence ≤ batches.length)
    (same : m.metric = metric) (logEnd : Nat) :
    Serving kernels metric start m (batches ++ [s.pending])
      { s with sequence := s.sequence + 1, logEnd, pending := [], touched := [], pendingBytes := 0 } where
  manifest := serving.manifest
  sequence := by
    rw [serving.sequence, length_append]
    rfl
  staged := {
    wf := { serving.staged.wf with }
    vector := by
      show s.vector kernels = _
      rw [serving.staged.vector, serving.manifest, same, after_append]
      rfl
    fits := fun _ member => nomatch member
    sound := fun _ member => nomatch member
    distinct := nodup_nil
    touched := fun _ => Iff.rfl }
  bounded := ⟨Nat.zero_le _, rfl, Nat.zero_le _⟩
  clean := fun _ equal => by
    have before := serving.sequence
    have last : s.sequence + 1 = m.sequence := equal
    omega

/-- What a commit can do. When it returns, nothing is pending and the handle stays usable. -/
theorem Live.commitWith (live : Live kernels metric start m origin directory batches session) (fault : Option Nat) :
    ∃ kept, Kept batches (commitWith kernels directory session fault).attempt kept ∧
      Leaves kernels metric start (commitWith kernels directory session fault).directory
        (commitWith kernels directory session fault).session kept ∧
      (∀ a, (commitWith kernels directory session fault).attempt = some a → a.returned = false →
        (commitWith kernels directory session fault).session.writer = .uncertain) ∧
      ((commitWith kernels directory session fault).result = .ok () →
        (commitWith kernels directory session fault).session.writer = .idle ∧
          (commitWith kernels directory session fault).session.state.pending = []) := by
  have serving := live.serving
  unfold Vector.commitWith
  dsimp only
  split
  · rename_i empty
    exact ⟨batches, .nothing, .live m origin live, nofun, fun _ => ⟨live.idle, empty⟩⟩
  rename_i some
  split
  · exact ⟨batches, .nothing, .live m origin live, nofun, nofun⟩
  rename_i room
  have sound := serving.sound some
  have next : batches.length + 1 < 2 ^ 64 := by
    have := serving.sequence
    omega
  have framed : frame kernels session.state.pending (session.state.sequence + 1) session.state.manifest.dim =
      .ok (frameBytes kernels session.state.pending (batches.length + 1) (payloadSize m.dim session.state.pending)) := by
    have size := sound.size
    have count := sound.count
    rw [frame, serving.manifest, serving.sequence]
    exact if_neg (by omega)
  rw [framed]
  rw [live.logEnd]
  simp only [write_end]
  cases fault with
  | some written =>
    dsimp only
    let bytes := frameBytes kernels session.state.pending (batches.length + 1) (payloadSize m.dim session.state.pending)
    by_cases whole : bytes.length ≤ written
    · refine ⟨batches ++ [session.state.pending], .written _, ?_, fun _ _ _ => rfl, nofun⟩
      rw [take_of_length_le whole]
      exact .uncertain m origin [] (live.stored.append sound serving.staged.fits next) serving.staged.wf rfl
    · refine ⟨batches, .lost _, ?_, fun _ _ _ => rfl, nofun⟩
      have lost : bytes.drop written ≠ [] := fun empty => whole (drop_eq_nil_iff.mp empty)
      exact .uncertain m origin _ (live.stored.torn_append sound next _ _ (take_append_drop written bytes).symm lost)
        serving.staged.wf rfl
  | none =>
    refine ⟨batches ++ [session.state.pending], .committed _, .live m origin ?_, ?_, fun _ => ⟨live.idle, rfl⟩⟩
    · exact {
        stored := live.stored.append sound serving.staged.fits next
        serving := serving.commit live.stored.covered live.stored.same _
        logEnd := by
          exact length_append.symm
        idle := live.idle }
    · rintro a ⟨⟩ returned
      contradiction

theorem Stored.beside (stored : Stored kernels metric start m origin torn directory batches)
    (current : other.current = directory.current) (log : other.log = directory.log)
    (rows : other.rows m.sequence = directory.rows m.sequence)
    (vertex : other.vertex m.sequence = directory.vertex m.sequence) :
    Stored kernels metric start m origin torn other batches :=
  { stored with
    current := current.trans stored.current
    log := log.trans stored.log
    base := by
      rw [rows, vertex]
      exact stored.base }

theorem nextManifest_valid {s : State} (valid : s.manifest.Valid) (small : s.sequence < 2 ^ 64) : s.nextManifest.Valid := by
  refine valid.advance small ?_
  have known := valid.idBytes_known
  rw [neighbourIdBytes]
  split
  · split <;> decide
  · exact known

theorem Stored.publish {next : Directory} {base : Base}
    (stored : Stored kernels metric start m origin [] directory batches) (valid : n.Valid)
    (identity : n.identity = m.identity) (dim : n.dim = m.dim) (same : n.metric = m.metric)
    (sequence : n.sequence = batches.length)
    (opened : Base.openFiles (next.rows n.sequence) (next.vertex n.sequence) n = .ok base)
    (wf : (State.new base n).Wf kernels)
    (vector : (State.new base n).vector kernels = after kernels metric start batches) (log : next.log = directory.log) :
    Stored kernels metric start n origin [] (next.publish kernels n) batches where
  valid := valid
  same := same.trans stored.same
  current := rfl
  base := ⟨base, opened, wf, by rw [vector, sequence, take_length]⟩
  older := by
    rw [sequence]
    exact stored.older.trans stored.covered
  covered := Nat.le_of_eq sequence
  bounded := stored.bounded
  sound := by
    rw [dim, same]
    exact stored.sound
  admissible := stored.admissible
  log := by
    have header : logHeader kernels { n with sequence := origin } = logHeader kernels { m with sequence := origin } := by
      simp only [logHeader, identity, dim, same]
    show next.log = _
    rw [log, stored.log, header, dim]
  tail := .clean

theorem Stored.rotate (stored : Stored kernels metric start m origin [] directory batches)
    (sequence : m.sequence = batches.length) :
    Stored kernels metric start m m.sequence [] (directory.rotate kernels m) batches :=
  { stored with
    older := Nat.le_refl _
    log := by
      rw [sequence, drop_length, append_nil]
      show logHeader kernels m = logHeader kernels { m with sequence := batches.length } ++ []
      rw [append_nil, ← sequence] }

theorem serving_new (sequence : m.sequence = batches.length) (wf : (State.new base m).Wf kernels)
    (vector : (State.new base m).vector kernels = after kernels metric start batches) :
    Serving kernels metric start m batches (.new base m) where
  manifest := rfl
  sequence := sequence
  staged := {
    wf := wf
    vector := vector
    fits := fun _ member => nomatch member
    sound := fun _ member => nomatch member
    distinct := nodup_nil
    touched := fun _ => Iff.rfl }
  bounded := ⟨Nat.zero_le _, rfl, Nat.zero_le _⟩
  clean := fun _ _ => ⟨rfl, rfl⟩

/-- A consolidation after its commit, wherever it stops, leaves the same batches. -/
theorem Live.rebase (live : Live kernels metric start m origin directory batches session)
    (empty : session.state.pending = []) (mode : ConsolidationMode) (attempt : Option Attempt) (fault : ConsolidateFault) :
    Leaves kernels metric start (rebase kernels directory session mode attempt fault).directory
        (rebase kernels directory session mode attempt fault).session batches ∧
      (rebase kernels directory session mode attempt fault).attempt = attempt := by
  have serving := live.serving
  have unchanged : Leaves kernels metric start directory session batches := .live m origin live
  let s := session.state
  unfold Vector.rebase
  dsimp only
  split
  · exact ⟨unchanged, rfl⟩
  split
  · exact ⟨unchanged, rfl⟩
  rename_i dirty
  split
  · exact ⟨unchanged, rfl⟩
  rename_i rows written
  have vector : s.vector kernels = after kernels metric start batches := by
    rw [serving.staged.vector, empty]
    rfl
  -- The new generation has a number of its own.
  have fresh : s.nextManifest.sequence ≠ m.sequence := fun equal => dirty (serving.clean empty equal)
  have gathered : s.gatherRows kernels s.nextIds = .ok rows := by
    rw [State.writeRows] at written
    split at written
    · contradiction
    · exact written
  let first := directory.addRows s.nextManifest s.nextIds rows
  let second := first.addVertex s.nextManifest s.nextIds
  have first_stored : Stored kernels metric start m origin [] first batches :=
    live.stored.beside rfl rfl (Function.update_of_ne fresh.symm _ _) rfl
  have kept : second.current = first.current ∧ second.log = first.log ∧ second.rows = first.rows ∧
      second.vertex m.sequence = first.vertex m.sequence := by
    show (first.addVertex s.nextManifest s.nextIds).current = _ ∧ (first.addVertex s.nextManifest s.nextIds).log = _ ∧
      (first.addVertex s.nextManifest s.nextIds).rows = _ ∧ (first.addVertex s.nextManifest s.nextIds).vertex _ = _
    rw [Directory.addVertex]
    split
    · exact ⟨rfl, rfl, rfl, rfl⟩
    · exact ⟨rfl, rfl, rfl, Function.update_of_ne fresh.symm _ _⟩
  have second_stored : Stored kernels metric start m origin [] second batches :=
    first_stored.beside kept.1 kept.2.1 (congrFun kept.2.2.1 _) kept.2.2.2
  have still (other : Directory) (stored : Stored kernels metric start m origin [] other batches)
      (log : other.log = directory.log) : Leaves kernels metric start other session batches :=
    .live m origin ⟨stored, serving, log ▸ live.logEnd, live.idle⟩
  have closed (n : Manifest) (origin : Nat) (other : Directory) (stored : Stored kernels metric start n origin [] other batches) :
      Leaves kernels metric start other { session with writer := .uncertain } batches :=
    .uncertain n origin [] stored serving.staged.wf rfl
  split
  · exact ⟨still first first_stored rfl, rfl⟩
  · exact ⟨still second second_stored kept.2.1, rfl⟩
  split
  · exact ⟨still second second_stored kept.2.1, rfl⟩
  rename_i base opened
  let n := s.nextManifest
  have sequence : n.sequence = batches.length := serving.sequence
  have identity : s.manifest.identity = m.identity := congrArg Manifest.identity serving.manifest
  have dim : s.manifest.dim = m.dim := congrArg Manifest.dim serving.manifest
  have own_metric : s.manifest.metric = m.metric := congrArg Manifest.metric serving.manifest
  have same : n.dim = s.manifest.dim ∧ n.metric = s.manifest.metric := ⟨rfl, rfl⟩
  have file : second.rows n.sequence = some ⟨n.dim, n.metric, n.sequence, s.nextIds, rows⟩ := by
    rw [kept.2.2.1]
    exact Function.update_self _ _ _
  have opened' : Base.openFiles (second.rows n.sequence) (second.vertex n.sequence) n = .ok base := opened
  obtain ⟨wf, served⟩ := nextBase serving.staged.wf same.1 same.2 gathered (file ▸ opened')
  rw [vector] at served
  have valid : n.Valid := nextManifest_valid (serving.manifest ▸ live.stored.valid)
    (by rw [serving.sequence]; exact live.stored.bounded)
  have published : Stored kernels metric start n origin [] (second.publish kernels n) batches :=
    second_stored.publish valid identity dim own_metric sequence opened' wf served rfl
  have rotated := published.rotate sequence
  have renewed (rows vertex : Nat → Bool) (churn : Nat) : Leaves kernels metric start
      (((second.publish kernels n).rotate kernels n).cleanup n.sequence rows vertex)
      { state := .new base n, writer := .idle, churn } batches := by
    refine .live n n.sequence ⟨rotated.cleanup rows vertex, serving_new sequence wf served, ?_, rfl⟩
    exact (logHeader_length kernels n).symm
  unfold publishBase
  split
  · refine ⟨?_, rfl⟩
    split
    · exact closed n origin _ published
    · exact closed m origin _ second_stored
  · refine ⟨?_, rfl⟩
    split
    · exact closed n n.sequence _ rotated
    · exact closed n origin _ published
  · exact ⟨renewed _ _ _, rfl⟩
  · exact ⟨renewed _ _ _, rfl⟩

end Operations

end Warm.Vector
