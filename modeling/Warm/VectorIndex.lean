import Warm.BitPacking
import Warm.Binary
import Warm.Table
import Warm.FramedLog
import Mathlib.Logic.Function.Basic

/-! The vector index of a tenant: rows in memory, a log of checksummed frames, and the snapshot
maintenance publishes and rotates the log for. Every step may fail, an append may leave bytes behind,
and the process may stop anywhere. The snapshot files are modelled by what they hold; the checksum is
third-party code and a parameter. -/
namespace Warm.Server.VectorIndex

open Bytes BitPacking Binary

/-- A row, as `f32::to_bits` gives its values. -/
abbrev Vector := List UInt32

def LOG_MAGIC : Bytes := [72, 77, 83, 83, 86, 76, 71, 49]
def ROWS_MAGIC : Bytes := [72, 77, 83, 83, 86, 82, 87, 49]
def LOG_HEADER : Nat := 8 + 4 + 8
def UPSERT : UInt8 := 1
def DELETE : UInt8 := 2
def REBUILD_AFTER_MUTATIONS : Nat := 64

structure Manifest where
  epoch : Nat
  logEpoch : Nat
  covered : Nat
  rows : Nat
  dim : Nat
  rowsCrc : Option UInt32
  deriving DecidableEq

/-- The snapshot's rows; `graph` tells whether its graph reads back. -/
structure Base where
  graph : Bool
  rows : List Vector
  n : Nat

/-- Slots below `baseLen` are the snapshot's; later ones have their vectors in `delta`. -/
structure State where
  dim : Nat
  base : Option Base
  baseLen : Nat
  ids : List (Option String)
  tokens : List UInt64
  byId : Table String Nat
  delta : List UInt32
  live : Nat
  baseDead : Nat
  mutations : Nat

namespace State

def empty (dim : Nat) : State := ⟨dim, none, 0, [], [], ∅, [], 0, 0, 0⟩

def tombstone (state : State) (slot : Nat) : State :=
  match state.ids[slot]? with
  | some (some _) =>
    { state with
      ids := state.ids.set slot none
      live := state.live - 1
      baseDead := if slot < state.baseLen then state.baseDead + 1 else state.baseDead }
  | _ => state

def upsert (state : State) (id : String) (token : UInt64) (vector : Vector) : State :=
  let state := match state.byId[id]? with
    | some previous => state.tombstone previous
    | none => state
  { state with
    ids := state.ids ++ [some id]
    tokens := state.tokens ++ [token]
    delta := state.delta ++ vector
    byId := state.byId.insert id state.ids.length
    live := state.live + 1
    mutations := state.mutations + 1 }

def delete (state : State) (id : String) : State :=
  match state.byId[id]? with
  | some slot =>
    let state := { state with byId := state.byId.erase id }.tombstone slot
    { state with mutations := state.mutations + 1 }
  | none => state

/-- `row_into`: the vector of a slot. -/
def row (state : State) (slot : Nat) : Vector :=
  if slot < state.baseLen then (state.base.elim [] (·.rows)).getD slot []
  else (state.delta.drop ((slot - state.baseLen) * state.dim)).take state.dim

/-- The snapshot with nothing appended. -/
def ofBase (dim : Nat) (base : Base) (ids : List String) (tokens : List UInt64) : State where
  dim := dim
  base := some base
  baseLen := base.n
  ids := ids.map some
  tokens := tokens
  byId := ids.zipIdx.foldl (fun table entry => table.insert entry.1 entry.2) ∅
  delta := []
  live := base.n
  baseDead := 0
  mutations := 0

def liveRows (state : State) : List (String × UInt64 × Vector) :=
  (List.range state.ids.length).filterMap fun slot =>
    (state.ids[slot]?.join).map fun id => (id, state.tokens.getD slot 0, state.row slot)

end State

/-- What an index serves: the token and the row of each id. -/
abbrev Map := String → Option (UInt64 × Vector)

def State.serves (state : State) : Map := fun id =>
  state.byId[id]?.map fun slot => (state.tokens.getD slot 0, state.row slot)

structure Frame where
  kind : UInt8
  id : String
  token : UInt64
  vector : Vector
  deriving DecidableEq

def Frame.body (frame : Frame) : Bytes :=
  frame.kind :: (leBytes (utf8 frame.id).length 2 ++ (utf8 frame.id ++
    (leBytes frame.token.toNat 8 ++ frame.vector.flatMap fun value => leBytes value.toNat 4)))

/-- `as_chunks::<4>` with `from_le_bytes`. -/
def words : Bytes → List UInt32
  | a :: b :: c :: d :: rest => UInt32.ofNat (number [a, b, c, d]) :: words rest
  | _ => []

def pushFrame (crc : Bytes → UInt32) (frame : Frame) : Bytes := frame.body ++ leBytes (crc frame.body).toNat 4

/-- One complete, checksummed frame at the start with its size, or `none` at a torn or damaged tail. -/
def readFrame (crc : Bytes → UInt32) (dim : Nat) (data : Bytes) : Option (Frame × Nat) :=
  if data.length < 3 then none
  else
    let kind := octet data 0
    let idLen := number (slice data 1 2)
    let vectorLen := if kind = UPSERT then some (dim * 4) else if kind = DELETE then some 0 else none
    match vectorLen with
    | none => none
    | some vectorLen =>
      let body := 3 + idLen + 8 + vectorLen
      if data.length < body + 4 then none
      else if (crc (data.take body)).toNat ≠ number (slice data body 4) then none
      else
        match Reader.fromUtf8 (slice data 3 idLen) with
        | none => none
        | some id =>
          some (⟨kind, id, UInt64.ofNat (number (slice data (3 + idLen) 8)),
            words (slice data (3 + idLen + 8) vectorLen)⟩, body + 4)

def applyFrame (state : State) (frame : Frame) : State :=
  if frame.kind = UPSERT then state.upsert frame.id frame.token frame.vector else state.delete frame.id

/-- The loop over the log: every frame takes bytes, so the bytes bound it. -/
def applyFramesFrom (crc : Bytes → UInt32) (dim : Nat) : Nat → State → Bytes → State × Nat
  | 0, state, _ => (state, 0)
  | fuel + 1, state, data =>
    match readFrame crc dim data with
    | none => (state, 0)
    | some (frame, size) =>
      let (state, rest) := applyFramesFrom crc dim fuel (applyFrame state frame) (data.drop size)
      (state, size + rest)

def applyFrames (crc : Bytes → UInt32) (state : State) (data : Bytes) (dim : Nat) : State × Nat :=
  applyFramesFrom crc dim (data.length + 1) state data

def logHeader (dim epoch : Nat) : Bytes := LOG_MAGIC ++ leBytes dim 4 ++ leBytes epoch 8

/-- The files of the index. The rows, ids and graph files are by epoch. -/
structure Disk where
  log : Option Bytes
  current : Option Manifest
  rows : Nat → Option (List Vector)
  ids : Nat → Option (List (String × UInt64))
  graphs : Nat → Bool
  dirty : Bool

def Disk.empty : Disk := ⟨none, none, fun _ => none, fun _ => none, fun _ => false, false⟩

/-- The bytes of a rows file, which the manifest's checksum is over. -/
def rowsBytes (dim : Nat) (rows : List Vector) : Bytes :=
  ROWS_MAGIC ++ leBytes rows.length 8 ++ leBytes dim 8 ++ rows.flatten.flatMap fun value => leBytes value.toNat 4

def loadBase (crc : Bytes → UInt32) (dim : Nat) (disk : Disk) (manifest : Manifest) : Except String State :=
  match disk.rows manifest.epoch with
  | none => .error "no rows file"
  | some rows =>
    if rows.length ≠ manifest.rows then .error "rows file is of another length"
    else if manifest.rowsCrc.any (· ≠ crc (rowsBytes dim rows)) then .error "rows file checksum mismatch"
    else
      match disk.ids manifest.epoch with
      | none => .error "no ids file"
      | some ids =>
        if ids.length ≠ manifest.rows then .error "ids file row count"
        else .ok (.ofBase dim ⟨disk.graphs manifest.epoch, rows, manifest.rows⟩ (ids.map Prod.fst) (ids.map Prod.snd))

/-- The snapshot an open starts from; one that does not read back is ignored. -/
def loadSnapshot (crc : Bytes → UInt32) (dim : Nat) (disk : Disk) : Option Manifest × State :=
  match disk.current.filter (·.dim = dim) with
  | none => (none, .empty dim)
  | some manifest =>
    match loadBase crc dim disk manifest with
    | .error _ => (none, .empty dim)
    | .ok state => (some manifest, state)

def epochOf (manifest : Option Manifest) : Nat := manifest.elim 0 (·.epoch)

/-- The open log: where its frames end and its epoch. After a rotation the handle is of the unlinked
file until the new one is opened. -/
structure Log where
  len : Nat
  epoch : Nat
  unlinked : Option Bytes

inductive Phase where
  | captured
  | rows
  | ids
  | graph
  | published
  | rotated (fresh : State)
  | swapped

/-- A maintenance pass under way. -/
structure Build where
  rows : List (String × UInt64 × Vector)
  covered : Nat
  logEpoch : Nat
  epoch : Nat
  phase : Phase

/-- An open index; `build` is held by the pass that has the build lock. -/
structure Memory where
  state : State
  log : Log
  manifest : Option Manifest
  build : Option Build
  dirty : Bool

structure World where
  disk : Disk
  memory : Option Memory

/-- Where an open fails: before it changes anything, after moving an unreadable log aside, after some
bytes of a new header, or after cutting the torn tail. -/
inductive OpenFault where
  | early
  | aside
  | header (written : Nat)
  | cut
  deriving DecidableEq

/-- The offset from which the log is not in the snapshot. -/
def skipTo (manifest : Option Manifest) (logEpoch : Nat) : Nat :=
  match manifest with
  | some manifest => if manifest.logEpoch = logEpoch then max manifest.covered LOG_HEADER else LOG_HEADER
  | none => LOG_HEADER

def headerOk (dim : Nat) (data : Bytes) : Bool :=
  decide (LOG_HEADER ≤ data.length) && decide (data.take 8 = LOG_MAGIC) &&
    decide (number (slice data 8 4) = dim % 2 ^ 32)

/-- `VectorIndex::open` up to the check against the engine. -/
def openIndex (crc : Bytes → UInt32) (dim : Nat) (fault : Option OpenFault) (disk : Disk) : World :=
  if dim = 0 ∨ fault = some .early then ⟨disk, none⟩
  else
    let (manifest, state) := loadSnapshot crc dim disk
    let data := disk.log.getD []
    if headerOk dim data then
      let epoch := number (slice data 12 8)
      let skip := min (skipTo manifest epoch) data.length
      let (state, applied) := applyFrames crc state (data.drop skip) dim
      let disk := { disk with log := some (data.take (skip + applied)) }
      if fault = some .cut then ⟨disk, none⟩
      else
        let state := { state with mutations := state.ids.length - state.baseLen + state.baseDead }
        ⟨disk, some ⟨state, ⟨skip + applied, epoch, none⟩, manifest, none, false⟩⟩
    else
      let header := logHeader dim (epochOf manifest)
      match fault with
      | some .aside => ⟨if data = [] then disk else { disk with log := none }, none⟩
      | some (.header written) => ⟨{ disk with log := some (header.take written) }, none⟩
      | _ =>
        let (state, _) := applyFrames crc state (header.drop LOG_HEADER) dim
        let state := { state with mutations := state.ids.length - state.baseLen + state.baseDead }
        ⟨{ disk with log := some header }, some ⟨state, ⟨LOG_HEADER, epochOf manifest, none⟩, manifest, none, false⟩⟩

/-- Where an append fails: at the dirty marker, whose file may be there then, or after some of its bytes
are in the file. -/
inductive AppendFault where
  | unmarked (created : Bool)
  | written (count : Nat)

/-- Where `clear_dirty` fails: at the removal of the marker, or behind it. -/
inductive ClearFault where
  | kept
  | removed
  deriving DecidableEq

section Calls

variable (dim : Nat)

/-- The bytes behind the log handle. -/
def logFile (disk : Disk) (memory : Memory) : Bytes := memory.log.unlinked.getD (disk.log.getD [])

/-- A write through the log handle at the logical end. -/
def writeLog (disk : Disk) (memory : Memory) (data : Bytes) : Disk × Memory :=
  let written := Bytes.write (logFile disk memory) memory.log.len data
  match memory.log.unlinked with
  | none => ({ disk with log := some written }, memory)
  | some _ => (disk, { memory with log := { memory.log with unlinked := some written } })

/-- `mark_dirty` makes the marker the first time only. -/
def marked (disk : Disk) (memory : Memory) : Disk := { disk with dirty := disk.dirty || !memory.dirty }

/-- `append`, and whether it returned the guard. -/
def append (disk : Disk) (memory : Memory) (data : Bytes) (fault : Option AppendFault) : Disk × Memory × Bool :=
  match fault with
  | some (.unmarked created) => ({ disk with dirty := disk.dirty || created }, memory, false)
  | some (.written count) =>
    let (disk, memory) := writeLog (marked disk memory) { memory with dirty := true } (data.take count)
    (disk, memory, false)
  | none =>
    let (disk, memory) := writeLog (marked disk memory) { memory with dirty := true } data
    (disk, { memory with log := { memory.log with len := memory.log.len + data.length } }, true)

inductive Call where
  | stage (docs : List (String × UInt64 × Vector))
  | remove (ids : List String)

def upsertFrame (doc : String × UInt64 × Vector) : Frame := ⟨UPSERT, doc.1, doc.2.1, doc.2.2⟩

def deleteFrame (id : String) : Frame := ⟨DELETE, id, 0, []⟩

/-- The checks `stage` makes of its documents before it appends. -/
def Call.valid : Call → Bool
  | .stage docs => docs.all fun doc => decide (doc.2.2.length = dim) && decide ((utf8 doc.1).length ≤ 2 ^ 16 - 1)
  | .remove _ => true

def Call.frames (known : String → Bool) : Call → List Frame
  | .stage docs => docs.map upsertFrame
  | .remove ids => (ids.filter known).map deleteFrame

def known (state : State) (id : String) : Bool := state.byId[id]?.isSome

/-- A call that removes nothing returns before it appends. -/
def Call.idle (state : State) : Call → Bool
  | .stage _ => false
  | .remove ids => (ids.filter (known state)).isEmpty

def Call.apply (state : State) : Call → State
  | .stage docs => docs.foldl (fun state doc => state.upsert doc.1 doc.2.1 doc.2.2) state
  | .remove ids => (ids.filter (known state)).foldl State.delete state

def Call.bytes (crc : Bytes → UInt32) (state : State) (call : Call) : Bytes :=
  (call.frames (known state)).flatMap (pushFrame crc)

/-- What a step tells its caller. -/
inductive Outcome where
  | quiet
  | done (call : Call)
  | failed (call : Call)
  | interrupted (call : Call)

/-- `stage` and `remove`. -/
def runCall (crc : Bytes → UInt32) (disk : Disk) (memory : Memory) (call : Call) (fault : Option AppendFault) :
    Disk × Memory × Bool :=
  if !call.valid dim then (disk, memory, false)
  else if call.idle memory.state then (disk, memory, true)
  else
    match append disk memory (call.bytes crc memory.state) fault with
    | (disk, memory, false) => (disk, memory, false)
    | (disk, memory, true) => (disk, { memory with state := call.apply memory.state }, true)

/-- The process stops in the middle of the append of a call. -/
def crashCall (crc : Bytes → UInt32) (disk : Disk) (memory : Memory) (call : Call) (written : Nat) : Disk :=
  if !call.valid dim || call.idle memory.state then disk
  else (writeLog (marked disk memory) memory ((call.bytes crc memory.state).take written)).1

/-- The documents the engine does not hold at the version the index has. -/
def stale (state : State) (keep : String → UInt64 → Bool) : List String :=
  (state.ids.zip state.tokens).filterMap fun entry => entry.1.filter fun id => !keep id entry.2

end Calls

/-- The end of `maintain`'s checks: what it captures of the state, under the log lock. -/
def capture (memory : Memory) (graphMinRows : Nat) (force : Bool) : Option Build :=
  let checksummed := memory.manifest.any (·.rowsCrc.isSome)
  let hasGraph := checksummed && memory.state.base.any (·.graph)
  if memory.state.live < max graphMinRows 1 then none
  else if hasGraph && (memory.state.mutations == 0 ||
      (!force && decide (memory.state.mutations < REBUILD_AFTER_MUTATIONS))) then none
  else some ⟨memory.state.liveRows, memory.log.len, memory.log.epoch, (epochOf memory.manifest + 1) % 2 ^ 64, .captured⟩

def Build.matrix (build : Build) : List Vector := build.rows.map fun row => row.2.2

def Build.ids (build : Build) : List (String × UInt64) := build.rows.map fun row => (row.1, row.2.1)

def Build.manifest (crc : Bytes → UInt32) (dim : Nat) (build : Build) : Manifest :=
  ⟨build.epoch, build.logEpoch, build.covered, build.rows.length, dim, some (crc (rowsBytes dim build.matrix))⟩

/-- The state a pass starts from: its snapshot, mapped. -/
def Build.state (dim : Nat) (build : Build) : State :=
  .ofBase dim ⟨true, build.matrix, build.rows.length⟩ (build.ids.map Prod.fst) (build.ids.map Prod.snd)

/-- Whether the pass holds the log lock. -/
def Build.holdsLog (build : Build) : Bool := build.phase matches .rotated _

inductive Step where
  | begin (graphMinRows : Nat) (force : Bool)
  | writeRows
  | writeIds
  | writeGraph
  | publish
  | rotate
  | swap
  | sweep (rows ids graph : Bool)
  | fail

/-- One step of a maintenance pass: `none` when the pass is not at it. -/
def maintain (crc : Bytes → UInt32) (dim : Nat) (disk : Disk) (memory : Memory) (step : Step) : Option (Disk × Memory) :=
  match memory.build, step with
  | none, .begin graphMinRows force =>
    (capture memory graphMinRows force).map fun build => (disk, { memory with build := some build })
  | some build, .fail => if build.phase matches .swapped then none else some (disk, { memory with build := none })
  | some build, step =>
    let turn (phase : Phase) : Memory := { memory with build := some { build with phase } }
    match build.phase, step with
    | .captured, .writeRows =>
      some ({ disk with rows := Function.update disk.rows build.epoch (some build.matrix) }, turn .rows)
    | .rows, .writeIds => some ({ disk with ids := Function.update disk.ids build.epoch (some build.ids) }, turn .ids)
    | .ids, .writeGraph => some ({ disk with graphs := Function.update disk.graphs build.epoch true }, turn .graph)
    | .graph, .publish => some ({ disk with current := some (build.manifest crc dim) }, turn .published)
    | .published, .rotate =>
      let tail := slice (logFile disk memory) build.covered (memory.log.len - build.covered)
      let (fresh, applied) := applyFrames crc (build.state dim) tail dim
      if applied ≠ tail.length then some (disk, { memory with build := none })
      else
        let fresh := { fresh with mutations := fresh.ids.length - build.rows.length + fresh.baseDead }
        some ({ disk with log := some (logHeader dim build.epoch ++ tail) },
          { turn (.rotated fresh) with
            log := { memory.log with unlinked := some (logFile disk memory) } })
    | .rotated fresh, .swap =>
      some (disk, { turn .swapped with
        state := fresh
        log := ⟨(disk.log.getD []).length, build.epoch, none⟩
        manifest := some (build.manifest crc dim) })
    | .swapped, .sweep rows ids graph =>
      let old := build.epoch - 1
      let gone {α : Type} (removed : Bool) (files : Nat → α) (absent : α) : Nat → α :=
        if removed && decide (1 < build.epoch) then Function.update files old absent else files
      some ({ disk with
        rows := gone rows disk.rows none
        ids := gone ids disk.ids none
        graphs := gone graph disk.graphs false }, { memory with build := none })
    | _, _ => none
  | _, _ => none

inductive Event where
  | opened (fault : Option OpenFault)
  | call (request : Call) (fault : Option AppendFault)
  | crash (request : Call) (written : Nat)
  | reconcile (keep : String → UInt64 → Bool) (fault : Option AppendFault) (cleared : Option ClearFault)
  | close (cleared : Option ClearFault)
  | maintain (step : Step)
  | stop

/-- `clear_dirty`, which forgets the marker last. -/
def clearDirty (disk : Disk) (memory : Memory) : Option ClearFault → Disk × Memory
  | none => ({ disk with dirty := false }, { memory with dirty := false })
  | some .kept => (disk, memory)
  | some .removed => ({ disk with dirty := false }, memory)

/-- `reconcile`, which ends `open`: an open whose reconciliation fails returns no index. -/
def reconcile (crc : Bytes → UInt32) (dim : Nat) (disk : Disk) (memory : Memory) (keep : String → UInt64 → Bool)
    (fault : Option AppendFault) (cleared : Option ClearFault) : World × Outcome :=
  let call := Call.remove (stale memory.state keep)
  match runCall dim crc disk memory call fault with
  | (disk, _, false) => (⟨disk, none⟩, .failed call)
  | (disk, memory, true) =>
    let (disk, memory) := clearDirty disk memory cleared
    (⟨disk, if cleared = none then some memory else none⟩, .done call)

/-- One event. While a pass holds the log lock no append begins. -/
def World.step (crc : Bytes → UInt32) (dim : Nat) (world : World) (event : Event) : World × Outcome :=
  match world.memory, event with
  | none, .opened fault => (openIndex crc dim fault world.disk, .quiet)
  | some memory, .call request fault =>
    if memory.build.any (·.holdsLog) then (world, .quiet)
    else
      match runCall dim crc world.disk memory request fault with
      | (disk, memory, done) => (⟨disk, some memory⟩, if done then .done request else .failed request)
  | some memory, .crash request written =>
    if memory.build.any (·.holdsLog) then (⟨world.disk, none⟩, .quiet)
    else (⟨crashCall dim crc world.disk memory request written, none⟩, .interrupted request)
  | some memory, .reconcile keep fault cleared =>
    if memory.build.any (·.holdsLog) || !world.disk.dirty then (world, .quiet)
    else reconcile crc dim world.disk memory keep fault cleared
  | some memory, .close cleared =>
    let (disk, memory) := clearDirty world.disk memory cleared
    (⟨disk, some memory⟩, .quiet)
  | some memory, .maintain step =>
    match VectorIndex.maintain crc dim world.disk memory step with
    | none => (world, .quiet)
    | some (disk, memory) => (⟨disk, some memory⟩, .quiet)
  | _, .stop => (⟨world.disk, none⟩, .quiet)
  | _, _ => (world, .quiet)

def World.empty : World := ⟨.empty, none⟩

def World.run (crc : Bytes → UInt32) (dim : Nat) (world : World) : List Event → World × List Outcome
  | [] => (world, [])
  | event :: events =>
    let (next, outcome) := world.step crc dim event
    let (last, outcomes) := next.run crc dim events
    (last, outcome :: outcomes)

end Warm.Server.VectorIndex
