import Warm.VectorStage

/-! The directory of an updatable vector index and the operations on it. A fault says where an
operation stops, by an error or by the end of the process; what has reached the directory by then
stays. The manifest and the log are replaced by a rename, so a fault there leaves either file. -/
namespace Warm.Vector

open Bytes

/-- `CURRENT`, the row and vertex files by their sequence, and `updates.log`. -/
structure Directory where
  current : Bytes
  rows : Nat → Option RowsFile
  vertex : Nat → Option Shape
  log : Bytes

/-- The writer flag between two operations. -/
inductive Writer where
  | idle
  | uncertain
  deriving DecidableEq

/-- An open `UpdatableVGraph`. -/
structure Session where
  state : State
  writer : Writer
  churn : Nat

/-- A batch that `commit` began to write, and whether it returned `Ok`. -/
structure Attempt where
  ops : Batch
  returned : Bool

/-- What an operation leaves: the files, the handle, its result and the batch it wrote. -/
structure Done (α : Type) where
  directory : Directory
  session : Session
  result : Except UpdateError α
  attempt : Option Attempt

/-- How a consolidation treats the graph; `within` is the float comparison of the churn with
`rebuild_after` times the live rows. -/
inductive ConsolidationMode where
  | rebuild
  | merge (within : Nat → Nat → Bool)

inductive Consolidation where
  | unchanged
  | merged
  | rebuilt
  deriving DecidableEq

/-- Where a consolidation stops: in the append of its commit after some bytes, before it writes
files, after the row file, after the vertex file, around the rename of `CURRENT` or of the log,
and while it removes old files. -/
inductive ConsolidateFault where
  | none
  | append (written : Nat)
  | snapshot
  | rows
  | vertex
  | current (replaced : Bool)
  | log (replaced : Bool)
  | cleanup (rows vertex : Nat → Bool)

/-- Where `open` stops: before or after it cuts the log, and while it removes old files. -/
inductive OpenFault where
  | none
  | early
  | truncated
  | cleanup (rows vertex : Nat → Bool)

/-- `cleanup_generations`, as far as it came with each kind of file. -/
def Directory.cleanup (directory : Directory) (active : Nat) (rows vertex : Nat → Bool) : Directory :=
  { directory with
    rows := fun n => if n ≠ active ∧ rows n then none else directory.rows n
    vertex := fun n => if n ≠ active ∧ vertex n then none else directory.vertex n }

def Session.acquire (session : Session) (contended : Bool) : Except UpdateError Unit :=
  match session.writer with
  | .uncertain => .error .recoveryRequired
  | .idle => if contended then .error .writerBusy else .ok ()

variable (kernels : Kernels)

/-- `commit_with`. A fault persists the first bytes of the frame and makes the outcome uncertain. -/
def commitWith (directory : Directory) (session : Session) (fault : Option Nat) : Done Unit :=
  let s := session.state
  if s.pending = [] then ⟨directory, session, .ok (), none⟩
  else if s.sequence + 1 ≥ 2 ^ 64 then ⟨directory, session, .error .capacity, none⟩
  else
    match frame kernels s.pending (s.sequence + 1) s.manifest.dim with
    | .error e => ⟨directory, session, .error e, none⟩
    | .ok bytes =>
      match fault with
      | some written =>
        ⟨{ directory with log := write directory.log s.logEnd (bytes.take written) },
          { session with writer := .uncertain }, .error .io, some ⟨s.pending, false⟩⟩
      | none =>
        let s := { s with
          sequence := s.sequence + 1
          logEnd := s.logEnd + bytes.length
          pending := []
          touched := []
          pendingBytes := 0 }
        ⟨{ directory with log := write directory.log session.state.logEnd bytes }, { session with state := s },
          .ok (), some ⟨session.state.pending, true⟩⟩

def neighbourIdBytes (configured : UInt8) (rows : Nat) : UInt8 :=
  if configured = 3 ∨ configured = 4 then if rows < 2 ^ 24 - 1 then 3 else 4 else configured

/-- The row of a live id; that it has one is an `expect` of the source. -/
def State.liveRow (s : State) (id : UInt32) : Except UpdateError Row :=
  match s.delta.live[id]? with
  | some slot => .ok (s.delta.rows[slot]?.getD [])
  | none =>
    match s.baseSlot id with
    | some slot => s.base.row kernels slot
    | none => .error .io

/-- The rows of the next base, each checked by the writer. -/
def State.gatherRows (s : State) : List UInt32 → Except UpdateError (List Row)
  | [] => .ok []
  | id :: ids =>
    match s.liveRow kernels id with
    | .error e => .error e
    | .ok row =>
      match validateVector kernels row s.manifest.dim s.manifest.metric with
      | .error e => .error e
      | .ok () =>
        match s.gatherRows ids with
        | .error e => .error e
        | .ok rows => .ok (row :: rows)

/-- `BaseRowsWriter` over the live rows. -/
def State.writeRows (s : State) (ids : List UInt32) : Except UpdateError (List Row) :=
  if s.manifest.dim = 0 ∨ s.manifest.dim > maxDim ∨ ids.length ≥ 2 ^ 32 - 1 then .error .capacity
  else s.gatherRows kernels ids

def State.nextIds (s : State) : List UInt32 := s.liveIds.mergeSort fun a b => decide (a ≤ b)

def State.nextManifest (s : State) : Manifest :=
  { s.manifest with
    sequence := s.sequence
    encoding := { s.manifest.encoding with
      idBytes := neighbourIdBytes s.manifest.encoding.idBytes s.nextIds.length } }

def Session.merges (session : Session) : ConsolidationMode → Bool
  | .rebuild => false
  | .merge within =>
    let s := session.state
    let liveBase := s.base.ids.length - s.deleted
    s.base.graph.isSome && decide (liveBase > 0) && decide (s.delta.live.size ≤ liveBase) &&
      !s.manifest.encoding.reorder && !s.manifest.encoding.screen && s.manifest.encoding.blockBits == 0 &&
      within (session.churn + (s.delta.live.size + s.deleted)) s.nextIds.length

/-- The new files of a generation. -/
def Directory.addRows (directory : Directory) (m : Manifest) (ids : List UInt32) (rows : List Row) : Directory :=
  { directory with rows := Function.update directory.rows m.sequence (some ⟨m.dim, m.metric, m.sequence, ids, rows⟩) }

def Directory.addVertex (directory : Directory) (m : Manifest) (ids : List UInt32) : Directory :=
  if ids = [] then directory
  else { directory with vertex := Function.update directory.vertex m.sequence (some ⟨ids.length, m.dim, m.metric⟩) }

def Directory.publish (directory : Directory) (m : Manifest) : Directory := { directory with current := m.encode kernels }

def Directory.rotate (directory : Directory) (m : Manifest) : Directory := { directory with log := logHeader kernels m }

/-- The publication, once the new files are in place and open. -/
def publishBase (directory : Directory) (session : Session) (mode : ConsolidationMode) (base : Base) (m : Manifest)
    (attempt : Option Attempt) (fault : ConsolidateFault) : Done Consolidation :=
  let published := directory.publish kernels m
  let rotated := published.rotate kernels m
  let uncertain := { session with writer := .uncertain }
  let merge := session.merges mode
  let changed := session.state.delta.live.size + session.state.deleted
  let renewed : Session := {
    state := .new base m
    writer := .idle
    churn := if merge then session.churn + changed else 0 }
  match fault with
  | .current replaced => ⟨if replaced then published else directory, uncertain, .error .io, attempt⟩
  | .log replaced => ⟨if replaced then rotated else published, uncertain, .error .io, attempt⟩
  | .cleanup rows vertex => ⟨rotated.cleanup m.sequence rows vertex, renewed, .error .io, attempt⟩
  | _ => ⟨rotated.cleanup m.sequence (fun _ => true) fun _ => true, renewed,
      .ok (if merge then .merged else .rebuilt), attempt⟩

/-- `consolidate_mode` after its commit. -/
def rebase (directory : Directory) (session : Session) (mode : ConsolidationMode) (attempt : Option Attempt)
    (fault : ConsolidateFault) : Done Consolidation :=
  let s := session.state
  match fault with
  | .snapshot => ⟨directory, session, .error .io, attempt⟩
  | _ =>
    if s.delta.len = 0 ∧ s.deleted = 0 then ⟨directory, session, .ok .unchanged, attempt⟩
    else
      match s.writeRows kernels s.nextIds with
      | .error e => ⟨directory, session, .error e, attempt⟩
      | .ok rows =>
        let m := s.nextManifest
        let written := directory.addRows m s.nextIds rows
        let complete := written.addVertex m s.nextIds
        match fault with
        | .rows => ⟨written, session, .error .io, attempt⟩
        | .vertex => ⟨complete, session, .error .io, attempt⟩
        | _ =>
          match Base.openFiles (complete.rows m.sequence) (complete.vertex m.sequence) m with
          | .error e => ⟨complete, session, .error e, attempt⟩
          | .ok base => publishBase kernels complete session mode base m attempt fault

def consolidateMode (directory : Directory) (session : Session) (mode : ConsolidationMode) (fault : ConsolidateFault) :
    Done Consolidation :=
  let committed := commitWith kernels directory session (match fault with
    | .append written => some written
    | _ => none)
  match committed.result with
  | .error e => ⟨committed.directory, committed.session, .error e, committed.attempt⟩
  | .ok () => rebase kernels committed.directory committed.session mode committed.attempt fault

def openIndex (directory : Directory) (fault : OpenFault) : Directory × Except UpdateError Session :=
  match Manifest.read kernels directory.current with
  | .error e => (directory, .error e)
  | .ok m =>
    match Base.openFiles (directory.rows m.sequence) (directory.vertex m.sequence) m with
    | .error e => (directory, .error e)
    | .ok base =>
      match replay kernels (State.replay kernels) m directory.log (.new base m) with
      | .error e => (directory, .error e)
      | .ok (s, sequence, end_) =>
        let cut := { directory with log := directory.log.take end_ }
        match fault with
        | .early => (directory, .error .io)
        | .truncated => (cut, .error .io)
        | .cleanup rows vertex => (cut.cleanup m.sequence rows vertex, .error .io)
        | .none => (cut.cleanup m.sequence (fun _ => true) fun _ => true,
            .ok { state := { s with sequence, logEnd := end_ }, writer := .idle, churn := 0 })

/-- The files `create` and `create_from_graph` write, `CURRENT` last. -/
def firstFiles (m : Manifest) (ids : List UInt32) (rows : List Row) (vertex : Option Shape) : Directory where
  current := m.encode kernels
  rows n := if n = m.sequence then some ⟨m.dim, m.metric, m.sequence, ids, rows⟩ else none
  vertex n := if n = m.sequence then vertex else none
  log := logHeader kernels m

def validateAll (m : Manifest) : List Row → Except UpdateError Unit
  | [] => .ok ()
  | row :: rows =>
    match validateVector kernels row m.dim m.metric with
    | .error e => .error e
    | .ok () => validateAll m rows

/-- The ids `0..n` a new index starts with. -/
def firstIds (n : Nat) : List UInt32 := (List.range n).map UInt32.ofNat

/-- The last steps of both: the rows pass the writer and the files open. -/
def establish (m : Manifest) (rows : List Row) (vertex : Option Shape) : Except UpdateError (Directory × Session) :=
  if m.dim = 0 ∨ m.dim > maxDim ∨ rows.length ≥ 2 ^ 32 - 1 then .error .capacity
  else
    match validateAll kernels m rows with
    | .error e => .error e
    | .ok () =>
      let directory := firstFiles kernels m (firstIds rows.length) rows vertex
      match Base.openFiles (directory.rows m.sequence) (directory.vertex m.sequence) m with
      | .error e => .error e
      | .ok base => .ok (directory, { state := .new base m, writer := .idle, churn := 0 })

/-- `create`, given the manifest of its parameters: `m.sequence` is not used. -/
def create (params : Manifest) (data : Row) : Except UpdateError (Directory × Session) :=
  let m := { params with sequence := 0 }
  if m.dim = 0 ∨ m.dim > maxDim ∨ data.length % m.dim ≠ 0 ∨ data.length / m.dim ≥ 2 ^ 32 - 1 then .error .capacity
  else
    match Manifest.decode kernels (m.encode kernels) with
    | .error e => .error e
    | .ok _ =>
      let rows := State.chunksExact m.dim data
      match validateAll kernels m rows with
      | .error e => .error e
      | .ok () =>
        establish kernels m (rows.map (prepareRow kernels m.metric))
          (if rows = [] then none else some ⟨rows.length, m.dim, m.metric⟩)

/-- `create_from_graph`: the rows of a graph with its vertex encoding. -/
def createFromGraph (params : Manifest) (rows : List Row) (vertex : Shape) :
    Except UpdateError (Directory × Session) :=
  let m := { params with sequence := 0 }
  if rows.length ≠ vertex.len ∨ m.dim ≠ vertex.dim ∨ vertex.metric ≠ m.metric then
    .error (.corruptBase "graph and vertex encoding differ")
  else
    match Manifest.decode kernels (m.encode kernels) with
    | .error e => .error e
    | .ok _ =>
      match validateAll kernels m rows with
      | .error e => .error e
      | .ok () => establish kernels m rows (some vertex)

inductive Request where
  | insert (id : UInt32) (row : Row)
  | delete (id : UInt32)
  | replace (id : UInt32) (row : Row)
  | deleteBatch (ids : List UInt32)
  | replaceBatch (ids : List UInt32) (vectors : Row)
  | insertBatch (ids : List UInt32) (vectors : Row)

def Request.perform (s : State) : Request → State × Except UpdateError Unit
  | .insert id row => s.stage kernels (.insert id row)
  | .delete id => s.stage kernels (.delete id)
  | .replace id row => s.stage kernels (.replace id row)
  | .deleteBatch ids => s.deleteBatch kernels ids
  | .replaceBatch ids vectors => s.replaceBatch kernels ids vectors
  | .insertBatch ids vectors => s.insertBatch kernels ids vectors

/-- `replace_batch` looks at its shape before it takes the writer flag. -/
def Request.misshapen (s : State) : Request → Option UpdateError
  | .replaceBatch ids vectors =>
    if vectors.length ≠ ids.length * s.manifest.dim then
      some (.dimensionMismatch (ids.length * s.manifest.dim) vectors.length)
    else none
  | _ => none

def Session.stage (session : Session) (contended : Bool) (request : Request) : Session × Except UpdateError Unit :=
  match request.misshapen session.state with
  | some e => (session, .error e)
  | none =>
    match session.acquire contended with
    | .error e => (session, .error e)
    | .ok () =>
      let outcome := request.perform kernels session.state
      ({ session with state := outcome.1 }, outcome.2)

/-- An index directory, with its handle while a process has one. -/
structure Index where
  directory : Directory
  session : Option Session

/-- What a process does to the index. `contended` says that another thread holds the writer flag;
`stop` is the end of the process or of its handle, wherever the last operation stopped. -/
inductive Event where
  | stage (contended : Bool) (request : Request)
  | commit (contended : Bool) (fault : Option Nat)
  | consolidate (contended : Bool) (mode : ConsolidationMode) (fault : ConsolidateFault)
  | stop
  | reopen (fault : OpenFault)

/-- An index and the batches each of its handles began to commit, oldest first. -/
structure Run where
  index : Index
  past : List (List Attempt)
  current : List Attempt

def Run.settle (run : Run) (done : Done α) : Run :=
  { run with
    index := ⟨done.directory, some done.session⟩
    current := run.current ++ done.attempt.toList }

def Run.step (run : Run) (event : Event) : Run :=
  match event, run.index.session with
  | .stage contended request, some session =>
    { run with index.session := some (session.stage kernels contended request).1 }
  | .commit contended fault, some session =>
    match session.acquire contended with
    | .error _ => run
    | .ok () => run.settle (commitWith kernels run.index.directory session fault)
  | .consolidate contended mode fault, some session =>
    match session.acquire contended with
    | .error _ => run
    | .ok () => run.settle (consolidateMode kernels run.index.directory session mode fault)
  | .stop, some _ => { run with index.session := none }
  | .reopen fault, none =>
    match openIndex kernels run.index.directory fault with
    | (directory, .error _) => { run with index := ⟨directory, none⟩ }
    | (directory, .ok session) => ⟨⟨directory, some session⟩, run.past ++ [run.current], []⟩
  -- Without a handle there is nothing to call, and with one the directory is locked.
  | _, _ => run

def Run.steps (run : Run) (events : List Event) : Run := events.foldl (step kernels) run

end Warm.Vector
