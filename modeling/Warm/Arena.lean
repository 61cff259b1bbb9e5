import Warm.JournalLog

/-! The segmented arena. Segment files are mapped shared, so a write through the mapping is a
write to the file; the last file is the active segment, the ones before it are sealed. Every
fallible system call of an append may fail: growth and rotation stop where they are, and a
failed sync takes the frame back out of the log. -/
namespace Warm

open Bytes Journal

namespace Arena

def SEGMENT_SIZE : Nat := 64 * 1024 * 1024
def LEGACY_SEGMENT_SIZE : Nat := 1024 * 1024 * 1024

end Arena

/-- The manifest's format version and `INCREMENTAL_ALLOCATION`, which is false on Windows. -/
structure Format where
  version : Nat
  incremental : Bool
  deriving DecidableEq, Repr

namespace Format

open Arena

/-- Only format 3 declared `SEGMENT_SIZE`. -/
def segmentSize (format : Format) : Nat :=
  if format.version = 3 then SEGMENT_SIZE else LEGACY_SEGMENT_SIZE

/-- The active file grows toward the segment size in steps. -/
def grows (format : Format) : Bool := decide (4 ≤ format.version) && format.incremental

def divCeil (n step : Nat) : Nat := (n + step - 1) / step

def newCapacity (format : Format) : Nat :=
  if format.grows then SEGMENT_SIZE else format.segmentSize

end Format

/-- `files` are `seg_0.bin`, `seg_1.bin`, …; the active mapping is the first `mapLen` bytes of
file `activeId`, and a file after it exists only while a rotation is pending. -/
structure Arena where
  files : List Bytes
  activeId : Nat
  mapLen : Nat
  writeOffset : Nat
  versionCounter : Nat
  rotationPending : Bool
  deriving DecidableEq, Repr

namespace Arena

inductive OpenError where
  | exceedsDeclaredSize
  | corrupt (at_ : Corruption)
  deriving DecidableEq, Repr

inductive AppendError where
  | payloadSize
  | headerCapacity
  | rotation
  | growth
  | sync
  deriving DecidableEq, Repr

inductive ReadError where
  | beyondFinalSegment
  | exceedsSegment
  | outOfBounds (offset len : Nat)
  | truncatedHeader (offset : Nat)
  | emptyFrame (offset : Nat)
  | largeRaw (len offset : Nat)
  | largeCompressed (len offset : Nat)
  | truncatedPayload (offset : Nat)
  | decompression
  | lengthDiffers
  | crcMismatch (offset expected actual : Nat)
  | outOfFuel
  deriving DecidableEq, Repr

/-- Where `rotate_segment_locked` stops: before it sets `rotation_pending`, at the creation of
the next file, at its `set_len`, or at one of the calls after that. -/
inductive RotateFault where
  | beforePending
  | create
  | setLen
  | afterSetLen
  deriving DecidableEq, Repr

/-- Where `grow_segment_locked` stops: up to `set_len`, or after it and before the new mapping. -/
inductive GrowFault where
  | setLen
  | afterSetLen
  deriving DecidableEq, Repr

structure Faults where
  rotate : Option RotateFault
  grow : Option GrowFault
  sync : Bool
  deriving DecidableEq, Repr

def Faults.none : Faults := ⟨Option.none, Option.none, false⟩

/-- `File::set_len`. -/
def setLen (file : Bytes) (len : Nat) : Bytes := file.take len ++ zeros (len - file.length)

def updateActive (arena : Arena) (update : Bytes → Bytes) : Arena :=
  { arena with files := arena.files.modify arena.activeId update }

def usedBytes (format : Format) (arena : Arena) : Nat :=
  arena.activeId * format.segmentSize + arena.writeOffset

def growSegmentLocked (format : Format) (arena : Arena) (required : Nat) (fault : Option GrowFault) :
    Arena × Bool :=
  if format.grows ∧ required ≤ format.segmentSize ∧ required > arena.mapLen then
    let capacity := Format.divCeil required SEGMENT_SIZE * SEGMENT_SIZE
    match fault with
    | some .setLen => (arena, false)
    | some .afterSetLen => (arena.updateActive (setLen · capacity), false)
    | none => ({ arena.updateActive (setLen · capacity) with mapLen := capacity }, true)
  else (arena, false)

/-- The next segment's file, created if it is not there from an earlier attempt. -/
def createNext (arena : Arena) : Arena :=
  if arena.files.length = arena.activeId + 1 then { arena with files := arena.files ++ [[]] } else arena

def rotateSegmentLocked (format : Format) (arena : Arena) (fault : Option RotateFault) :
    Arena × Bool :=
  match fault with
  | some .beforePending => (arena, false)
  | some .create => ({ arena with rotationPending := true }, false)
  | some .setLen => ({ createNext arena with rotationPending := true }, false)
  | some .afterSetLen =>
    let arena := createNext arena
    ({ arena with
      rotationPending := true
      files := arena.files.modify (arena.activeId + 1) (setLen · format.newCapacity) }, false)
  | none =>
    let arena := createNext arena
    ({ arena with
      files := arena.files.modify (arena.activeId + 1) (setLen · format.newCapacity)
      activeId := arena.activeId + 1
      mapLen := format.newCapacity
      writeOffset := 0
      rotationPending := false }, true)

variable (codec : Codec)

/-- The frame and, where it fits in the mapping, the end marker; taken back out when the sync
of their range fails. -/
def writeLocked (format : Format) (arena : Arena) (frame : Bytes) (syncFails : Bool) :
    Arena × Except AppendError Nat :=
  let offset := arena.writeOffset
  let frameEnd := offset + frame.length
  let marker := if frameEnd + headerSize ≤ arena.mapLen then endMarkerBytes else []
  let written := { arena.updateActive (fun file => write (write file offset frame) frameEnd marker) with
    writeOffset := frameEnd }
  if syncFails then
    ({ written.updateActive (fun file => write (write file offset endMarkerBytes) (offset + headerSize)
        (zeros (frameEnd + marker.length - (offset + headerSize)))) with writeOffset := offset },
      .error .sync)
  else (written, .ok (arena.activeId * format.segmentSize + offset))

/-- The active segment has room for the frame by its declared size: map the room and write. -/
def growAndWrite (format : Format) (arena : Arena) (frame : Bytes) (faults : Faults) (durable : Bool) :
    Arena × Except AppendError Nat :=
  let required := arena.writeOffset + frame.length
  let (arena, grown) :=
    if required > arena.mapLen then growSegmentLocked format arena required faults.grow
    else (arena, true)
  if grown then writeLocked format arena frame (durable && faults.sync) else (arena, .error .growth)

def writeFrame (format : Format) (arena : Arena) (data : Bytes) (durable : Bool) (faults : Faults) :
    Arena × Except AppendError Nat :=
  if data.length = 0 ∨ data.length > maxRawFrameSize then (arena, .error .payloadSize)
  else
    let version := arena.versionCounter
    let arena := { arena with versionCounter := version + 1 }
    if data.length ≥ 2 ^ 32 ∨ (stored codec data).length ≥ 2 ^ 32 then (arena, .error .headerCapacity)
    else
      let frame := encodeFrame codec version data
      let (arena, rotated) :=
        if arena.writeOffset + frame.length > format.segmentSize ∨ arena.rotationPending then
          rotateSegmentLocked format arena faults.rotate
        else (arena, true)
      if rotated then growAndWrite format arena frame faults durable else (arena, .error .rotation)

/-- `PersistentArena::new` on the segment files of a directory. -/
def openArena (format : Format) (files : List Bytes) : Except OpenError Arena :=
  let files := if files.isEmpty then [[]] else files
  let activeId := files.length - 1
  let length := (files.getD activeId []).length
  if length > format.segmentSize then .error .exceedsDeclaredSize
  else
    let capacity := if format.grows
      then Format.divCeil (max length SEGMENT_SIZE) SEGMENT_SIZE * SEGMENT_SIZE
      else format.segmentSize
    let active := setLen (files.getD activeId []) capacity
    match discoverOffset codec active with
    | .error e => .error (.corrupt e)
    | .ok (recovered, version) =>
      let active :=
        if recovered + headerSize ≤ active.length ∧ slice active recovered headerSize ≠ endMarkerBytes
        then write active recovered endMarkerBytes else active
      .ok
        { files := files.set activeId active
          activeId
          mapLen := capacity
          writeOffset := recovered
          versionCounter := if recovered > 0 then version + 1 else 0
          rotationPending := false }

/-- `with_mapping`: the bytes of the segment holding `offset`, from that offset on. -/
def mapping (format : Format) (arena : Arena) (offset : Nat) : Except ReadError Bytes :=
  let index := offset / format.segmentSize
  if index > arena.activeId then .error .beyondFinalSegment
  else
    let map := if index < arena.activeId then arena.files.getD index []
      else (arena.files.getD arena.activeId []).take arena.mapLen
    let bounded := map.take format.segmentSize
    if offset % format.segmentSize ≤ bounded.length then .ok (bounded.drop (offset % format.segmentSize))
    else .error .exceedsSegment

def readSlice (format : Format) (arena : Arena) (offset len : Nat) : Except ReadError Bytes := do
  let rest ← mapping format arena offset
  if len ≤ rest.length then .ok (rest.take len) else .error (.outOfBounds offset len)

def readFrame (format : Format) (arena : Arena) (offset : Nat) : Except ReadError (Bytes × Nat) := do
  let rest ← mapping format arena offset
  match headerWords rest with
  | none => .error (.truncatedHeader offset)
  | some h =>
    if h.rawLen = 0 then .error (.emptyFrame offset)
    else if h.rawLen > maxRawFrameSize then .error (.largeRaw h.rawLen offset)
    else if h.compLen = 0 ∨ h.compLen > h.rawLen then .error (.largeCompressed h.compLen offset)
    else if headerSize + h.compLen ≤ rest.length then
      let payload := slice rest headerSize h.compLen
      let data ←
        if h.compLen < h.rawLen then
          match codec.decompress payload h.rawLen with
          | some data => .ok data
          | none => .error .decompression
        else .ok payload
      if data.length ≠ h.rawLen then .error .lengthDiffers
      else if codec.crc32 data ≠ h.crc then .error (.crcMismatch offset h.crc (codec.crc32 data))
      else .ok (data, h.version)
    else .error (.truncatedPayload (offset + headerSize))

def nextOffset (format : Format) (arena : Arena) (offset : Nat) : Except ReadError Nat := do
  let header ← readSlice format arena offset headerSize
  match headerWords header with
  | none => .error (.truncatedHeader offset)
  | some h =>
    if h.compLen = 0 then .error (.emptyFrame offset)
    else
      let next := offset + headerSize + h.compLen
      let segment := offset / format.segmentSize
      if segment < arena.activeId then
        if next % format.segmentSize + headerSize > format.segmentSize then
          .ok ((segment + 1) * format.segmentSize)
        else
          let header ← readSlice format arena next headerSize
          if isLogEnd header then .ok ((segment + 1) * format.segmentSize) else .ok next
      else .ok next

/-- The replay loop: the payloads of the frames from `offset` to the used bytes. -/
def replayFrom (format : Format) (arena : Arena) : Nat → Nat → Except ReadError (List Bytes)
  | 0, _ => .error .outOfFuel
  | fuel + 1, offset =>
    if offset < usedBytes format arena then do
      let (data, _) ← readFrame codec format arena offset
      let next ← nextOffset format arena offset
      let rest ← replayFrom format arena fuel next
      .ok (data :: rest)
    else .ok []

def replay (format : Format) (arena : Arena) : Except ReadError (List Bytes) :=
  replayFrom codec format arena (usedBytes format arena + 1) 0

inductive Op where
  | append (data : Bytes) (durable : Bool) (faults : Faults)
  | reopen
  deriving DecidableEq, Repr

/-- The arena after one operation, with the payload of an append that returned `Ok`. -/
def step (format : Format) (arena : Arena) : Op → Except OpenError (Arena × List Bytes)
  | .append data durable faults =>
    match writeFrame codec format arena data durable faults with
    | (arena, .ok _) => .ok (arena, [data])
    | (arena, .error _) => .ok (arena, [])
  | .reopen => (openArena codec format arena.files).map (·, [])

def run (format : Format) (arena : Arena) : List Op → Except OpenError (Arena × List Bytes)
  | [] => .ok (arena, [])
  | op :: ops => do
    let (next, acknowledged) ← step codec format arena op
    let (last, later) ← run format next ops
    .ok (last, acknowledged ++ later)

end Arena

end Warm
