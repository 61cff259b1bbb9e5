import Warm.PlainCodec
import Warm.VectorRecovery
import Mathlib.Data.List.Forall2

/-! Whole runs of an updatable vector index: processes stage, commit, consolidate, stop anywhere
and open the directory again. What an open serves is the map after a prefix of the batches each
process began to write, one that has every batch whose commit returned. -/
namespace Warm.Vector

open Bytes List

/-- The batches that survive of those a process began to write: the first ones, and among them
all whose commit returned. -/
def Survives (attempts : List Attempt) (kept : List Batch) : Prop :=
  ∃ n, kept = (attempts.take n).map Attempt.ops ∧ ∀ attempt ∈ attempts.drop n, attempt.returned = false

theorem survives_all (attempts : List Attempt) : Survives attempts (attempts.map Attempt.ops) := by
  refine ⟨attempts.length, by rw [take_length], fun attempt member => ?_⟩
  rw [drop_length] at member
  contradiction

theorem survives_lost (attempts : List Attempt) (ops : Batch) :
    Survives (attempts ++ [⟨ops, false⟩]) (attempts.map Attempt.ops) := by
  refine ⟨attempts.length, by rw [take_left], fun attempt member => ?_⟩
  rw [drop_left, mem_singleton] at member
  rw [member]

/-- How an index comes to be. -/
inductive Created (kernels : Kernels) (directory : Directory) (session : Session) : Prop
  | data (params : Manifest) (data : Row) (created : create kernels params data = .ok (directory, session))
  | graph (params : Manifest) (rows : List Row) (vertex : Shape)
      (created : createFromGraph kernels params rows vertex = .ok (directory, session))

variable {kernels : Kernels} {metric : Metric} {start : Vectors}

theorem validateAll_ok (valid : validateAll kernels m rows = .ok ()) :
    ∀ row ∈ rows, validateVector kernels row m.dim m.metric = .ok () := by
  induction rows with
  | nil => exact fun _ member => nomatch member
  | cons row rows ih =>
    rw [validateAll] at valid
    split at valid
    · contradiction
    rename_i own
    exact forall_mem_cons.mpr ⟨own, ih valid⟩

theorem establish_live (established : establish kernels m rows vertex = .ok (directory, session))
    (sequence : m.sequence = 0) (decoded : Manifest.decode kernels (m.encode kernels) = .ok other) :
    Live kernels m.metric (session.state.vector kernels) m 0 directory [] session ∧
      session.state.manifest.metric = m.metric := by
  rw [establish] at established
  split at established
  · contradiction
  rename_i limits
  split at established
  · contradiction
  rename_i checked
  dsimp only at established
  split at established
  · contradiction
  rename_i base opened
  cases established
  rw [not_or, not_or, Nat.not_lt] at limits
  have valid : m.Valid := by
    refine ⟨by rw [sequence]; decide, ?_⟩
    rw [Manifest.decode_encode kernels m limits.2.1 (by rw [sequence]; decide)] at decoded
    exact decoded.trans (congrArg _ (Manifest.ofWords_words decoded))
  have file : (firstFiles kernels m (firstIds rows.length) rows vertex).rows m.sequence =
      some ⟨m.dim, m.metric, m.sequence, firstIds rows.length, rows⟩ := if_pos rfl
  have opened' := opened
  rw [file] at opened'
  obtain ⟨ids, stored, dim, own, lengths, order⟩ := openFiles_ok opened'
  have wf : (State.new base m).Wf kernels := by
    refine new_wf m (ids ▸ (ordered_iff _).mp order) (by rw [ids, stored]; exact lengths) ?_
    rw [stored, dim, own]
    exact validateAll_ok checked
  have taken : ([] : List Batch).take m.sequence = [] := take_nil
  refine ⟨{
    stored := {
      valid := valid
      same := rfl
      current := rfl
      base := ⟨base, opened, wf, by rw [taken]; rfl⟩
      older := Nat.zero_le _
      covered := Nat.le_of_eq sequence
      bounded := by decide
      sound := fun _ member => nomatch member
      admissible := trivial
      log := by
        show logHeader kernels m = logHeader kernels { m with sequence := 0 } ++ []
        rw [append_nil, ← sequence]
      tail := .clean }
    serving := serving_new sequence wf rfl
    logEnd := (logHeader_length kernels m).symm
    idle := rfl }, rfl⟩

theorem Created.live (created : Created kernels directory session) :
    ∃ m, Live kernels session.state.manifest.metric (session.state.vector kernels) m 0 directory [] session := by
  cases created with
  | data params data created | graph params rows vertex created =>
    first
      | rw [create] at created
      | rw [createFromGraph] at created
    dsimp only at created
    split at created
    · contradiction
    split at created
    · contradiction
    rename_i decoded
    split at created
    · contradiction
    obtain ⟨live, same⟩ := establish_live created rfl decoded
    exact ⟨_, same ▸ live⟩

theorem Live.stage (live : Live kernels metric start m origin directory batches session) (contended : Bool)
    (request : Request) :
    Live kernels metric start m origin directory batches (session.stage kernels contended request).1 := by
  have serving := live.serving
  rw [Session.stage]
  split
  · exact live
  split
  · exact live
  have positive : 0 < session.state.manifest.dim := by
    rw [serving.manifest]
    exact live.stored.valid.dim_le.1
  have outcome : State.Outcome kernels (after kernels metric start batches) session.state
      (request.perform kernels session.state) := by
    cases request with
    | insert id row | delete id | replace id row => exact State.stage_outcome serving.staged serving.bounded _
    | deleteBatch ids => exact State.stageAll_outcome serving.staged serving.bounded _
    | replaceBatch ids vectors => exact State.replaceBatch_outcome serving.staged serving.bounded ids vectors
    | insertBatch ids vectors => exact State.insertBatch_outcome serving.staged serving.bounded positive ids vectors
  generalize request.perform kernels session.state = performed at outcome
  cases outcome with
  | rejected e => exact live
  | accepted t staged bounded files nothing =>
    exact {
      stored := live.stored
      serving := {
        manifest := files.manifest.trans serving.manifest
        sequence := files.sequence.trans serving.sequence
        staged := staged
        bounded := bounded
        clean := fun empty equal => by
          obtain ⟨before, delta, deleted⟩ := nothing empty
          rw [delta, deleted]
          exact serving.clean before (files.sequence.symm.trans equal) }
      logEnd := files.logEnd.trans live.logEnd
      idle := live.idle }

theorem stage_refused (session : Session) (contended : Bool) (request : Request)
    (refused : (session.stage kernels contended request).2 ≠ .ok ()) :
    (session.stage kernels contended request).1 = session := by
  have single (s : State) (op : Operation) : (s.stage kernels op).2 ≠ .ok () → (s.stage kernels op).1 = s := by
    rw [State.stage]
    repeat' split
    all_goals first | exact fun _ => rfl | exact fun no => absurd rfl no
  have several (s : State) (ops : Batch) : (s.stageAll kernels ops).2 ≠ .ok () → (s.stageAll kernels ops).1 = s := by
    rw [State.stageAll]
    repeat' split
    all_goals first | exact fun _ => rfl | exact fun no => absurd rfl no
  have kept : (request.perform kernels session.state).2 ≠ .ok () →
      (request.perform kernels session.state).1 = session.state := by
    cases request with
    | insert id row => exact single _ _
    | delete id => exact single _ _
    | replace id row => exact single _ _
    | deleteBatch ids => exact several _ _
    | replaceBatch ids vectors =>
      simp only [Request.perform, State.replaceBatch]
      split
      · exact fun _ => rfl
      · exact several _ _
    | insertBatch ids vectors =>
      simp only [Request.perform, State.insertBatch]
      repeat' split
      all_goals first | exact fun _ => rfl | exact fun no => absurd rfl no
  rw [Session.stage] at refused ⊢
  split at refused
  · rfl
  split at refused
  · rfl
  · show { session with state := (request.perform kernels session.state).1 } = session
    rw [kept refused]

variable (kernels metric start)

/-- What a run keeps: `done` and `last` are the batches that survive of the past handles and of the
latest one. A handle that may write has lost none. -/
structure Holds (run : Run) (done : List (List Batch)) (last : List Batch) : Prop where
  past : List.Forall₂ Survives run.past done
  current : Survives run.current last
  closed : run.index.session = none →
    ∃ m origin torn, Stored kernels metric start m origin torn run.index.directory (done.flatten ++ last)
  opened : ∀ session, run.index.session = some session →
    Leaves kernels metric start run.index.directory session (done.flatten ++ last) ∧
      (session.writer = .idle → last = run.current.map Attempt.ops)

variable {kernels metric start}

section

variable (leaves : Leaves kernels metric start directory session batches)
include leaves

theorem Leaves.stored :
    ∃ m origin torn, Stored kernels metric start m origin torn directory batches := by
  cases leaves with
  | live m origin live => exact ⟨m, origin, [], live.stored⟩
  | uncertain m origin torn stored => exact ⟨m, origin, torn, stored⟩

theorem Leaves.wf : session.state.Wf kernels := by
  cases leaves with
  | live m origin live => exact live.serving.staged.wf
  | uncertain m origin torn stored wf => exact wf

theorem Leaves.acquired
    (free : session.acquire contended = .ok ()) :
    ∃ m origin, Live kernels metric start m origin directory batches session := by
  cases leaves with
  | live m origin live => exact ⟨m, origin, live⟩
  | uncertain m origin torn stored wf closed =>
    rw [Session.acquire, closed] at free
    contradiction

end

theorem Holds.settle {done : List (List Batch)} {last : List Batch} {outcome : Done α} {kept : List Batch}
    (holds : Holds kernels metric start run done last) (whole : last = run.current.map Attempt.ops)
    (written : Kept (done.flatten ++ last) outcome.attempt kept)
    (leaves : Leaves kernels metric start outcome.directory outcome.session kept)
    (uncertain : ∀ a, outcome.attempt = some a → a.returned = false → outcome.session.writer = .uncertain) :
    ∃ last, Holds kernels metric start (run.settle outcome) done last := by
  have resume (last' : List Batch) (survives : Survives (run.settle outcome).current last')
      (same : kept = done.flatten ++ last')
      (all : outcome.session.writer = .idle → last' = (run.settle outcome).current.map Attempt.ops) :
      Holds kernels metric start (run.settle outcome) done last' := {
    past := holds.past
    current := survives
    closed := nofun
    opened := fun session found => by
      cases found
      exact ⟨same ▸ leaves, all⟩ }
  have appended : (run.settle outcome).current = run.current ++ outcome.attempt.toList := rfl
  generalize tried : outcome.attempt = attempt at written appended uncertain
  cases written with
  | nothing =>
    have same : (run.settle outcome).current = run.current := appended.trans (append_nil _)
    exact ⟨last, resume last (same ▸ holds.current) rfl fun _ => same ▸ whole⟩
  | committed ops | written ops =>
    have mapped : (run.settle outcome).current.map Attempt.ops = last ++ [ops] := by
      rw [appended, whole]
      simp
    exact ⟨last ++ [ops], resume _ (mapped ▸ survives_all _) (append_assoc ..) fun _ => mapped.symm⟩
  | lost ops =>
    have closed := uncertain _ rfl rfl
    refine ⟨last, resume last ?_ rfl fun idle => ?_⟩
    · rw [appended, whole]
      exact survives_lost run.current ops
    · rw [closed] at idle
      contradiction

theorem Live.consolidateMode (live : Live kernels metric start m origin directory batches session)
    (mode : ConsolidationMode) (fault : ConsolidateFault) :
    ∃ kept, Kept batches (consolidateMode kernels directory session mode fault).attempt kept ∧
      Leaves kernels metric start (consolidateMode kernels directory session mode fault).directory
        (consolidateMode kernels directory session mode fault).session kept ∧
      ∀ a, (consolidateMode kernels directory session mode fault).attempt = some a → a.returned = false →
        (consolidateMode kernels directory session mode fault).session.writer = .uncertain := by
  unfold Vector.consolidateMode
  dsimp only
  generalize same : Vector.commitWith kernels directory session _ = committed
  obtain ⟨kept, written, leaves, uncertain, returned⟩ := same ▸ live.commitWith _
  split
  · exact ⟨kept, written, leaves, uncertain⟩
  · rename_i result
    obtain ⟨idle, empty⟩ := returned result
    have free : committed.session.acquire false = .ok () := by
      rw [Session.acquire, idle]
      rfl
    obtain ⟨m', origin', live'⟩ := leaves.acquired free
    obtain ⟨after_rebase, same⟩ := live'.rebase empty mode committed.attempt fault
    refine ⟨kept, by rw [same]; exact written, after_rebase, fun a tried lost => ?_⟩
    rw [same] at tried
    have closed := uncertain a tried lost
    rw [idle] at closed
    contradiction

theorem Holds.step {done : List (List Batch)} {last : List Batch} (holds : Holds kernels metric start run done last)
    (event : Event) : ∃ done last, Holds kernels metric start (run.step kernels event) done last := by
  unfold Run.step
  split
  · rename_i contended request session handle
    obtain ⟨leaves, whole⟩ := holds.opened session handle
    refine ⟨done, last, holds.past, holds.current, nofun, ?_⟩
    rintro next ⟨⟩
    cases leaves with
    | live m origin live =>
      have staged := live.stage contended request
      exact ⟨.live m origin staged, fun _ => whole live.idle⟩
    | uncertain m origin torn stored wf closed =>
      have same : (session.stage kernels contended request).1 = session := by
        apply stage_refused
        rw [Session.stage, Session.acquire, closed]
        split <;> nofun
      rw [same]
      exact ⟨.uncertain m origin torn stored wf closed, whole⟩
  · rename_i contended fault session handle
    obtain ⟨leaves, whole⟩ := holds.opened session handle
    split
    · exact ⟨done, last, holds⟩
    rename_i free
    obtain ⟨m, origin, live⟩ := leaves.acquired free
    obtain ⟨kept, written, after_commit, uncertain, -⟩ := live.commitWith fault
    exact ⟨done, holds.settle (whole live.idle) written after_commit uncertain⟩
  · rename_i contended mode fault session handle
    obtain ⟨leaves, whole⟩ := holds.opened session handle
    split
    · exact ⟨done, last, holds⟩
    rename_i free
    obtain ⟨m, origin, live⟩ := leaves.acquired free
    obtain ⟨kept, written, after_rebase, uncertain⟩ := live.consolidateMode mode fault
    exact ⟨done, holds.settle (whole live.idle) written after_rebase uncertain⟩
  · rename_i session handle
    refine ⟨done, last, holds.past, holds.current, fun _ => (holds.opened session handle).1.stored, ?_⟩
    rintro next ⟨⟩
  · rename_i fault handle
    obtain ⟨m, origin, torn, stored⟩ := holds.closed handle
    obtain ⟨⟨torn', left⟩, -, success⟩ := stored.openIndex fault
    split
    · rename_i directory e reopened
      rw [reopened] at left
      refine ⟨done, last, holds.past, holds.current, fun _ => ⟨m, origin, torn', left⟩, ?_⟩
      rintro next ⟨⟩
    · rename_i directory session reopened
      rw [reopened] at success
      obtain ⟨idle, serving, -, clean, logEnd⟩ := success session rfl
      have batches : (done ++ [last]).flatten ++ [] = done.flatten ++ last := by simp
      refine ⟨done ++ [last], [], rel_append holds.past (.cons holds.current .nil), survives_all [], nofun, ?_⟩
      rintro next ⟨⟩
      exact ⟨batches ▸ .live m origin ⟨clean, serving, logEnd, idle⟩, fun _ => rfl⟩
  · exact ⟨done, last, holds⟩

theorem Holds.steps (holds : Holds kernels metric start run done last) (events : List Event) :
    ∃ done last, Holds kernels metric start (run.steps kernels events) done last := by
  induction events generalizing run done last with
  | nil => exact ⟨done, last, holds⟩
  | cons event events ih =>
    obtain ⟨done', last', stepped⟩ := holds.step event
    exact ih stepped

/-- After any run of a new index, opening its directory succeeds and serves the map after the
batches that survive of every process. A handle that is open meanwhile has each id on one side
only and counts its live ids, and what it refuses leaves it as it was. -/
theorem durable_updates {directory : Directory} {session : Session} (created : Created kernels directory session)
    (events : List Event) :
    let run := Run.steps kernels ⟨⟨directory, some session⟩, [], []⟩ events
    (∃ kept reopened, List.Forall₂ Survives (run.past ++ [run.current]) kept ∧
      (openIndex kernels run.index.directory .none).2 = .ok reopened ∧
      reopened.state.vector kernels = after kernels session.state.manifest.metric (session.state.vector kernels) kept.flatten) ∧
    ∀ handle, run.index.session = some handle →
      (∀ id, ¬ (handle.state.delta.live.contains id ∧ (handle.state.baseSlot id).isSome)) ∧
      (∃ ids : List UInt32, ids.Nodup ∧ (∀ id, id ∈ ids ↔ handle.state.contains id) ∧ handle.state.len = ids.length) ∧
      ∀ contended request, (handle.stage kernels contended request).2 ≠ .ok () →
        (handle.stage kernels contended request).1 = handle := by
  obtain ⟨m, live⟩ := created.live
  have first : Holds kernels session.state.manifest.metric (session.state.vector kernels)
      ⟨⟨directory, some session⟩, [], []⟩ [] [] := {
    past := .nil
    current := survives_all []
    closed := nofun
    opened := by
      rintro handle ⟨⟩
      exact ⟨.live m 0 live, fun _ => rfl⟩ }
  obtain ⟨done, last, holds⟩ := first.steps events
  intro run
  refine ⟨?_, fun handle found => ?_⟩
  · have stored : ∃ m origin torn, Stored kernels session.state.manifest.metric (session.state.vector kernels) m origin torn
        run.index.directory (done.flatten ++ last) := by
      cases handle : run.index.session with
      | none => exact holds.closed handle
      | some session => exact (holds.opened session handle).1.stored
    obtain ⟨m, origin, torn, stored⟩ := stored
    obtain ⟨-, succeeds, success⟩ := stored.openIndex .none
    obtain ⟨reopened, opened⟩ := succeeds rfl
    obtain ⟨-, serving, empty, -⟩ := success reopened opened
    refine ⟨done ++ [last], reopened, rel_append holds.past (.cons holds.current .nil), opened, ?_⟩
    have batches : (done ++ [last]).flatten = done.flatten ++ last := by simp
    rw [batches, serving.staged.vector, empty]
    rfl
  · have wf := (holds.opened handle found).1.wf
    refine ⟨?_, ⟨handle.state.liveIds, wf.liveIds_nodup, wf.mem_liveIds, wf.len_eq⟩, stage_refused handle⟩
    rintro id ⟨live, base⟩
    rw [wf.apart id live] at base
    contradiction

/-- CRC-32, with the products and quotients of the vector `[1.0]`. -/
def unitKernels : Kernels where
  crc32 data := UInt32.ofNat (PlainCodec.crc32 data)
  dot _ _ := 0x3F800000
  div v _ := v
  sqrt v := v

theorem unitParams_identity : (List.replicate 16 (7 : UInt8)).length = 16 := rfl

def unitParams : Manifest where
  identity := ⟨List.replicate 16 7, unitParams_identity⟩
  dim := 1
  sequence := 0
  metric := .euclidean
  degree := 32
  buildEf := 128
  alpha := 0x3F800000
  seed := 0x5EED
  quantizedSearch := false
  encoding := {
    bits := 8
    residualBits := 8
    align := true
    reorder := false
    idBytes := 4
    screen := false
    blockBits := 0 }

theorem create_unit : ∃ made, create unitKernels unitParams [0x3F800000] = .ok made := by
  have accepted : (create unitKernels unitParams [0x3F800000]).isOk = true := by decide +kernel
  cases made : create unitKernels unitParams [0x3F800000] with
  | error e =>
    rw [made] at accepted
    contradiction
  | ok index => exact ⟨index, rfl⟩

/-- A commit that stops inside its frame, and the open after it. -/
theorem durable_updates_torn : ∃ directory session, Created unitKernels directory session ∧
    let run := Run.steps unitKernels ⟨⟨directory, some session⟩, [], []⟩
      [.stage false (.insert 1 [0x3F800000]), .commit false (some 30), .stop, .reopen .none]
    ∃ kept reopened, List.Forall₂ Survives (run.past ++ [run.current]) kept ∧
      (openIndex unitKernels run.index.directory .none).2 = .ok reopened ∧
      reopened.state.vector unitKernels =
        after unitKernels session.state.manifest.metric (session.state.vector unitKernels) kept.flatten := by
  obtain ⟨⟨directory, session⟩, made⟩ := create_unit
  exact ⟨directory, session, .data _ _ made, (durable_updates (.data _ _ made) _).1⟩

end Warm.Vector
