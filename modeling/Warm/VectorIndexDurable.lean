import Warm.VectorIndexState

/-! What the files of the index hold between the steps of a run in which no bytes of a failed append are
read and no pass writes over the published snapshot. -/
namespace Warm.Server.VectorIndex

open Bytes BitPacking List

def Call.framesOn (served : Map) (call : Call) : List Frame := call.frames fun id => (served id).isSome

def Call.effect (served : Map) (call : Call) : Map := (call.framesOn served).foldl Frame.applyTo served

/-- The maps the outcomes of a run account for: exactly the calls that returned are applied, and of one
the process stopped in, some of its first frames. -/
inductive Accounts : Map → List Outcome → Map → Prop where
  | nil {served : Map} : Accounts served [] served
  | quiet {served last : Map} {outcomes : List Outcome} (rest : Accounts served outcomes last) :
    Accounts served (.quiet :: outcomes) last
  | done {served last : Map} {outcomes : List Outcome} {call : Call} (rest : Accounts (call.effect served) outcomes last) :
    Accounts served (.done call :: outcomes) last
  | failed {served last : Map} {outcomes : List Outcome} {call : Call} (rest : Accounts served outcomes last) :
    Accounts served (.failed call :: outcomes) last
  | interrupted {served last : Map} {outcomes : List Outcome} {call : Call} (count : Nat)
    (rest : Accounts (((call.framesOn served).take count).foldl Frame.applyTo served) outcomes last) :
    Accounts served (.interrupted call :: outcomes) last

/-- The bytes of the log file behind its logical end: what appends that failed have left there. -/
def remains (disk : Disk) (memory : Memory) : Bytes := (logFile disk memory).drop memory.log.len

/-- What is behind the logical end once these bytes of an append are in the file. -/
def overwritten (left written : Bytes) : Bytes := written ++ left.drop written.length

def Call.appends (dim : Nat) (state : State) (call : Call) : Prop := call.valid dim = true ∧ call.idle state = false

/-- Nothing of an append that failed reads as a frame behind the end of the log, now or once this call
has written over a part of it, and a call that returns has its frames in the log file itself. -/
def CleanCall (crc : Bytes → UInt32) (dim : Nat) (disk : Disk) (memory : Memory) (call : Call) :
    Option AppendFault → Prop
  | some (.unmarked _) => True
  | some (.written count) => memory.log.unlinked = none →
    readFrame crc dim (overwritten (remains disk memory) ((call.bytes crc memory.state).take count)) = none
  | none => memory.log.unlinked = none ∧
    readFrame crc dim ((remains disk memory).drop (call.bytes crc memory.state).length) = none

/-- What is behind the whole frames of the append the process stops in does not read as a frame either. -/
def CleanCrash (crc : Bytes → UInt32) (dim : Nat) (disk : Disk) (memory : Memory) (call : Call) (count : Nat) : Prop :=
  let written := (call.bytes crc memory.state).take count
  let whole := (applyFrames crc (.empty dim) written dim).2
  memory.log.unlinked = none → readFrame crc dim ((overwritten (remains disk memory) written).drop whole) = none

/-- Appends are clean; no pass writes over the rows of the published snapshot; the epochs have not run
out. -/
def Clean (crc : Bytes → UInt32) (dim : Nat) (world : World) (event : Event) : Prop :=
  match world.memory, event with
  | some memory, .call request fault =>
    request.appends dim memory.state → CleanCall crc dim world.disk memory request fault
  | some memory, .crash request count =>
    request.appends dim memory.state → CleanCrash crc dim world.disk memory request count
  | some memory, .reconcile keep fault _ =>
    Call.appends dim memory.state (.remove (stale memory.state keep)) →
      CleanCall crc dim world.disk memory (.remove (stale memory.state keep)) fault
  | some memory, .maintain .writeRows =>
    ∀ build, memory.build = some build → build.epoch ≠ epochOf world.disk.current
  | some memory, .maintain (.begin _ _) => epochOf memory.manifest + 1 < 2 ^ 64
  | _, _ => True

def CleanRun (crc : Bytes → UInt32) (dim : Nat) : World → List Event → Prop
  | _, [] => True
  | world, event :: events => Clean crc dim world event ∧ CleanRun crc dim (world.step crc dim event).1 events

section Files

variable {crc : Bytes → UInt32} {dim : Nat} {disk : Disk}

/-- The files hold the map: the snapshot reads back, the log holds the frames it covers and those behind
them, and perhaps bytes that do not read. -/
structure Stored (crc : Bytes → UInt32) (dim : Nat) (disk : Disk) (epoch : Nat) (covered tail : List Frame) (torn : Bytes)
    (served : Map) : Prop where
  log : disk.log = some (logHeader dim epoch ++ (logBytes crc dim (covered ++ tail) ++ torn))
  fit : ∀ frame ∈ covered ++ tail, frame.Fits dim
  ends : readFrame crc dim torn = none
  reads : (loadSnapshot crc dim disk).1 = disk.current
  base : ∃ first, Serving dim (loadSnapshot crc dim disk).2 first ∧ served = tail.foldl Frame.applyTo first
  start : skipTo disk.current epoch = LOG_HEADER + (logBytes crc dim covered).length
  epoch_le : epoch ≤ epochOf disk.current
  epoch_lt : epoch < 2 ^ 64

/-- No index was ever created here, or not even its log header is whole. -/
structure Fresh (disk : Disk) (served : Map) : Prop where
  current : disk.current = none
  log : (disk.log.getD []).length < LOG_HEADER
  served : served = fun _ => none

/-- The files between processes. -/
def Closed (crc : Bytes → UInt32) (dim : Nat) (disk : Disk) (served : Map) : Prop :=
  Fresh disk served ∨ ∃ epoch covered tail torn, Stored crc dim disk epoch covered tail torn served

theorem logHeader_length (dim epoch : Nat) : (logHeader dim epoch).length = LOG_HEADER := by
  rw [logHeader, length_append, length_append, leBytes_length, leBytes_length]
  rfl

theorem headerOk_logHeader (dim epoch : Nat) (rest : Bytes) : headerOk dim (logHeader dim epoch ++ rest) = true := by
  have length : LOG_HEADER ≤ (logHeader dim epoch ++ rest).length := by
    rw [length_append, logHeader_length]
    omega
  have magic : (logHeader dim epoch ++ rest).take 8 = LOG_MAGIC := by
    rw [logHeader, append_assoc, append_assoc]
    exact take_left' rfl
  have field : slice (logHeader dim epoch ++ rest) 8 4 = leBytes dim 4 :=
    slice_middle LOG_MAGIC _ (leBytes epoch 8 ++ rest) (by simp [logHeader]) rfl (leBytes_length _ _)
  have size : number (slice (logHeader dim epoch ++ rest) 8 4) = dim % 2 ^ 32 := by
    rw [field, number_leBytes, pow_bytes]
  rw [headerOk, decide_eq_true length, decide_eq_true magic, decide_eq_true size]
  rfl

theorem epoch_logHeader (small : epoch < 2 ^ 64) (rest : Bytes) :
    number (slice (logHeader dim epoch ++ rest) 12 8) = epoch := by
  have field : slice (logHeader dim epoch ++ rest) 12 8 = leBytes epoch 8 :=
    slice_middle (LOG_MAGIC ++ leBytes dim 4) _ rest (by simp [logHeader])
      (by rw [length_append, leBytes_length]; rfl) (leBytes_length _ _)
  rw [field, number_leBytes, pow_bytes]
  exact Nat.mod_eq_of_lt small

variable {served : Map} {epoch : Nat} {covered tail : List Frame} {torn : Bytes}

section

variable (stored : Stored crc dim disk epoch covered tail torn served)
include stored

theorem Stored.skip :
    min (skipTo disk.current epoch) (disk.log.getD []).length = LOG_HEADER + (logBytes crc dim covered).length := by
  rw [stored.start, stored.log, Option.getD_some, length_append, logHeader_length, length_append,
    logBytes_append, length_append]
  omega

theorem Stored.behind :
    (disk.log.getD []).drop (LOG_HEADER + (logBytes crc dim covered).length) = logBytes crc dim tail ++ torn := by
  rw [stored.log, Option.getD_some, logBytes_append, append_assoc, ← append_assoc]
  refine drop_left' ?_
  rw [length_append, logHeader_length]

theorem Stored.before :
    (disk.log.getD []).take (LOG_HEADER + (logBytes crc dim covered).length + (logBytes crc dim tail).length) =
      logHeader dim epoch ++ (logBytes crc dim (covered ++ tail) ++ []) := by
  rw [stored.log, Option.getD_some, ← append_assoc, append_nil]
  refine take_left' ?_
  rw [length_append, logHeader_length, logBytes_append, length_append]
  omega

theorem Stored.marked (dirty : Bool) :
    Stored crc dim { disk with dirty } epoch covered tail torn served :=
  { stored with }

end

theorem serving_mutations (serving : Serving dim state served) (mutations : Nat) :
    Serving dim { state with mutations } served :=
  ⟨⟨serving.agrees.slots, serving.agrees.live⟩, ⟨serving.filled.tokens, serving.filled.base, serving.filled.delta⟩,
    serving.dim, serving.serves⟩

end Files

end Warm.Server.VectorIndex
