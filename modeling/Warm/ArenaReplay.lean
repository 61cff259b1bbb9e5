import Warm.Arena
import Mathlib.Data.List.Forall2

/-! Every run of appends and reopenings, with any of their faults, keeps the segment files in
one shape: full sealed segments of whole frames, an active segment of whole frames and a clean
tail, and at most one empty file behind it. A reopened arena therefore replays exactly the
acknowledged payloads. -/
namespace Warm.Arena

open Bytes Journal

variable (codec : Codec)

/-- A segment file: whole frames, then the end marker and zeros or zeros only. -/
def Image (frames : List Frame) (file : Bytes) : Prop :=
  ∃ tail, Tail tail ∧ file = logBytes codec frames ++ tail

structure Sealed (format : Format) (frames : List Frame) (file : Bytes) : Prop where
  image : Image codec frames file
  nonempty : frames ≠ []
  full : file.length = format.segmentSize

/-- Capacities of the active mapping: steps of `SEGMENT_SIZE`, or the whole segment at once. -/
structure Capacity (format : Format) (mapLen fileLen : Nat) : Prop where
  steps : if format.grows then (∃ n, mapLen = SEGMENT_SIZE * (n + 1)) ∧ fileLen ≤ mapLen + SEGMENT_SIZE
    else mapLen = format.segmentSize
  mapped : mapLen ≤ fileLen
  declared : fileLen ≤ format.segmentSize

/-- The file left behind by a rotation that failed. -/
inductive Leftover (format : Format) (pending : Bool) : List Bytes → Prop where
  | absent : Leftover format pending []
  | created (n : Nat) (set : pending = true) (small : n ≤ format.newCapacity) :
      Leftover format pending [zeros n]

/-- The shape of the arena on its files `front`, `active` and `next`. -/
structure Invariant (format : Format) (arena : Arena) (logs : List (List Frame)) (log : List Frame)
    (front : List Bytes) (active : Bytes) (next : List Bytes) : Prop where
  files : arena.files = front ++ active :: next
  position : front.length = arena.activeId
  sealed : List.Forall₂ (Sealed codec format) logs front
  image : Image codec log active
  offset : arena.writeOffset = (logBytes codec log).length
  capacity : Capacity format arena.mapLen active.length
  inside : arena.writeOffset ≤ arena.mapLen
  leftover : Leftover format arena.rotationPending next
  pending : arena.rotationPending = true → log ≠ [] ∧ arena.mapLen = format.segmentSize

def payloads (logs : List (List Frame)) (log : List Frame) : List Bytes :=
  (logs.flatten ++ log).map Frame.data

theorem segmentSize_steps (format : Format) : ∃ n, format.segmentSize = SEGMENT_SIZE * (n + 1) := by
  unfold Format.segmentSize
  split
  · exact ⟨0, rfl⟩
  · exact ⟨15, rfl⟩

theorem newCapacity_le (format : Format) : format.newCapacity ≤ format.segmentSize := by
  obtain ⟨n, size⟩ := segmentSize_steps format
  unfold Format.newCapacity
  split
  · rw [size]
    exact Nat.le_mul_of_pos_right _ (Nat.succ_pos n)
  · exact Nat.le_refl _

theorem segmentSize_ge (format : Format) : SEGMENT_SIZE ≤ format.segmentSize := by
  obtain ⟨n, size⟩ := segmentSize_steps format
  rw [size]
  exact Nat.le_mul_of_pos_right _ (Nat.succ_pos n)

theorem modify_middle (front : List Bytes) (active : Bytes) (next : List Bytes) (update : Bytes → Bytes) :
    (front ++ active :: next).modify front.length update = front ++ update active :: next := by
  simp [List.modify_eq_set_getElem?]

theorem encodeFrame_small (version : Nat) (data : Bytes) (bounded : data.length ≤ maxRawFrameSize) :
    (encodeFrame codec version data).length < SEGMENT_SIZE := by
  have := stored_length_le codec data
  rw [encodeFrame_length]
  unfold maxRawFrameSize at bounded
  unfold SEGMENT_SIZE headerSize
  omega

theorem tail_drop (tail : Tail bytes) (past : headerSize ≤ k) :
    bytes.drop k = zeros (bytes.length - k) := by
  have := headerSize_eq
  cases tail with
  | zeros n => simp
  | marked n =>
    rw [List.drop_append, List.drop_eq_nil_of_le (by simp; omega), List.nil_append, drop_zeros,
      List.length_append, zeros_length, endMarkerBytes_length]
    congr 1
    omega

theorem tail_extend (tail : Tail bytes) (n : Nat) : Tail (bytes ++ zeros n) := by
  cases tail with
  | zeros m => exact zeros_append m n ▸ .zeros (m + n)
  | marked m =>
    rw [List.append_assoc, zeros_append]
    exact .marked (m + n)

theorem Image.setLen (image : Image codec log file) (longer : file.length ≤ len) :
    Image codec log (setLen file len) := by
  obtain ⟨tail, isTail, rfl⟩ := image
  refine ⟨tail ++ zeros (len - (logBytes codec log ++ tail).length), tail_extend isTail _, ?_⟩
  rw [Arena.setLen, List.take_of_length_le longer, List.append_assoc]

theorem setLen_length (file : Bytes) (longer : file.length ≤ len) : (setLen file len).length = len := by
  rw [setLen, List.take_of_length_le longer, List.length_append, zeros_length]
  omega

theorem write_frame_marker (tail : Tail bytes) (log frame marker : Bytes)
    (long : headerSize ≤ frame.length) :
    write (write (log ++ bytes) log.length frame) (log.length + frame.length) marker =
      log ++ (frame ++ (marker ++ zeros (bytes.length - frame.length - marker.length))) := by
  rw [write_append, tail_drop tail long, ← List.append_assoc, ← List.length_append, write_append,
    drop_zeros, List.append_assoc]

theorem write_rollback (log frame marker : Bytes) (n : Nat) (long : headerSize ≤ frame.length) :
    write (write (log ++ (frame ++ (marker ++ zeros n))) log.length endMarkerBytes)
        (log.length + headerSize)
        (zeros (log.length + frame.length + marker.length - (log.length + headerSize))) =
      log ++ (endMarkerBytes ++
        zeros (frame.length + marker.length - headerSize + n)) := by
  have size := headerSize_eq
  have amount : log.length + frame.length + marker.length - (log.length + headerSize) =
      frame.length + marker.length - headerSize := by omega
  have start : log.length + headerSize = (log ++ endMarkerBytes).length := by
    rw [List.length_append, endMarkerBytes_length, size]
  have rest : ((frame ++ (marker ++ zeros n)).drop endMarkerBytes.length).drop
      (frame.length + marker.length - headerSize) = zeros n := by
    rw [List.drop_drop, endMarkerBytes_length, ← List.append_assoc,
      show 16 + (frame.length + marker.length - headerSize) = (frame ++ marker).length by
        rw [List.length_append]; omega, List.drop_left]
  rw [write_append, ← List.append_assoc, amount, start, write_append, zeros_length, rest, zeros_append,
    List.append_assoc]

theorem Invariant.version (inv : Invariant codec format arena logs log front active next) (n : Nat) :
    Invariant codec format { arena with versionCounter := n } logs log front active next :=
  { inv with }

theorem Invariant.update (inv : Invariant codec format arena logs log front active next)
    (update : Bytes → Bytes) :
    (arena.updateActive update).files = front ++ update active :: next := by
  rw [updateActive, inv.files, ← inv.position, modify_middle]

/-- A whole frame is written behind the log; a failed sync leaves the log as it was. -/
theorem writeLocked_invariant (lawful : codec.Lawful)
    (inv : Invariant codec format arena logs log front active next) (idle : arena.rotationPending = false)
    (frame : Frame) (fits : arena.writeOffset + (frame.encode codec).length ≤ arena.mapLen)
    (syncFails : Bool) :
    ∃ active', Invariant codec format (writeLocked format arena (frame.encode codec) syncFails).1 logs
        (if syncFails then log else log ++ [frame]) front active' next ∧
      ((writeLocked format arena (frame.encode codec) syncFails).2.isOk = !syncFails) := by
  have long := encode_pos codec lawful frame
  have size := headerSize_eq
  have mapped := inv.capacity.mapped
  obtain ⟨tail, isTail, rfl⟩ := inv.image
  simp only [List.length_append] at mapped
  have offset := inv.offset
  -- The marker is written only where the mapping holds it.
  obtain ⟨marker, isMarker, room⟩ : ∃ marker,
      (if arena.writeOffset + (frame.encode codec).length + headerSize ≤ arena.mapLen
        then endMarkerBytes else []) = marker ∧
      (frame.encode codec).length + marker.length ≤ tail.length ∧
      (marker = endMarkerBytes ∨ marker = []) := by
    split
    · refine ⟨_, rfl, ?_, .inl rfl⟩
      rw [endMarkerBytes_length]
      omega
    · refine ⟨_, rfl, ?_, .inr rfl⟩
      rw [List.length_nil]
      omega
  obtain ⟨room, kind⟩ := room
  have written := write_frame_marker isTail (logBytes codec log) (frame.encode codec) marker
    (Nat.le_of_lt long)
  cases syncFails with
  | false =>
    refine ⟨write (write (logBytes codec log ++ tail) arena.writeOffset (frame.encode codec))
      (arena.writeOffset + (frame.encode codec).length) marker, ?_, rfl⟩
    have grown : logBytes codec (log ++ [frame]) = logBytes codec log ++ frame.encode codec := by
      simp [logBytes]
    simp only [writeLocked, isMarker, Bool.false_eq_true, ↓reduceIte]
    refine ⟨inv.update codec _, inv.position, inv.sealed, ?_, ?_, ?_, fits, inv.leftover, ?_⟩
    · rw [offset, written, Image, grown]
      rcases kind with rfl | rfl
      · exact ⟨_, .marked _, (List.append_assoc _ _ _).symm⟩
      · exact ⟨_, .zeros _, (List.append_assoc _ _ _).symm⟩
    · change arena.writeOffset + _ = _
      rw [offset, grown, List.length_append]
    · have same : (write (write (logBytes codec log ++ tail) arena.writeOffset (frame.encode codec))
          (arena.writeOffset + (frame.encode codec).length) marker).length =
          (logBytes codec log ++ tail).length := by
        rw [offset, written]
        simp only [List.length_append, zeros_length]
        omega
      rw [same]
      exact inv.capacity
    · intro pending
      exact absurd pending (by simp [updateActive, idle])
  | true =>
    refine ⟨logBytes codec log ++ (endMarkerBytes ++ zeros ((frame.encode codec).length + marker.length -
      headerSize + (tail.length - (frame.encode codec).length - marker.length))), ?_, rfl⟩
    simp only [writeLocked, isMarker, ↓reduceIte]
    refine ⟨?_, inv.position, inv.sealed, ⟨_, .marked _, rfl⟩, offset, ?_, inv.inside, inv.leftover, ?_⟩
    · have first : (arena.updateActive fun file => write (write file arena.writeOffset
          (frame.encode codec)) (arena.writeOffset + (frame.encode codec).length) marker).files = _ :=
        inv.update codec _
      simp only [updateActive] at first ⊢
      rw [first, ← inv.position, modify_middle, offset, written, write_rollback _ _ _ _ (Nat.le_of_lt long)]
    · have same : (logBytes codec log ++ (endMarkerBytes ++ zeros ((frame.encode codec).length +
          marker.length - headerSize + (tail.length - (frame.encode codec).length - marker.length)))).length =
          (logBytes codec log ++ tail).length := by
        simp only [List.length_append, zeros_length, endMarkerBytes_length]
        omega
      rw [same]
      exact inv.capacity
    · intro pending
      exact absurd pending (by simp [updateActive, idle])

theorem growth_capacity {mapLen fileLen required : Nat} (capacity : Capacity format mapLen fileLen) (grows : format.grows = true)
    (beyond : mapLen < required) (within : required < mapLen + SEGMENT_SIZE)
    (declared : required ≤ format.segmentSize) :
    Format.divCeil required SEGMENT_SIZE * SEGMENT_SIZE = mapLen + SEGMENT_SIZE ∧
      mapLen + SEGMENT_SIZE ≤ format.segmentSize := by
  have steps := capacity.steps
  rw [if_pos grows] at steps
  obtain ⟨⟨n, length⟩, _⟩ := steps
  obtain ⟨m, size⟩ := segmentSize_steps format
  unfold Format.divCeil
  rw [size] at declared ⊢
  subst length
  unfold SEGMENT_SIZE at *
  omega

theorem growSegmentLocked_invariant (inv : Invariant codec format arena logs log front active next)
    (beyond : arena.mapLen < required) (within : required < arena.mapLen + SEGMENT_SIZE)
    (declared : required ≤ format.segmentSize) (fault : Option GrowFault) :
    ∃ active', Invariant codec format (growSegmentLocked format arena required fault).1 logs log front
        active' next ∧
      (growSegmentLocked format arena required fault).1.writeOffset = arena.writeOffset ∧
      (growSegmentLocked format arena required fault).1.rotationPending = arena.rotationPending ∧
      ((growSegmentLocked format arena required fault).2 = true →
        required ≤ (growSegmentLocked format arena required fault).1.mapLen) := by
  have grows : format.grows = true := by
    cases grows : format.grows with
    | true => rfl
    | false =>
      have steps := inv.capacity.steps
      rw [if_neg (by simp [grows])] at steps
      omega
  obtain ⟨capacity, room⟩ := growth_capacity inv.capacity grows beyond within declared
  have steps := inv.capacity.steps
  rw [if_pos grows] at steps
  obtain ⟨⟨n, length⟩, fileLen⟩ := steps
  have image := Image.setLen codec inv.image fileLen
  have resized := setLen_length active fileLen
  have pending (set : arena.rotationPending = true) : False := by
    have := (inv.pending set).2
    unfold SEGMENT_SIZE at room
    omega
  rw [growSegmentLocked, if_pos ⟨grows, declared, beyond⟩, capacity]
  match fault with
  | some .setLen =>
    exact ⟨active, inv, rfl, rfl, by simp⟩
  | some .afterSetLen =>
    refine ⟨_, { inv with files := inv.update codec _, image, capacity := ?_ }, rfl, rfl, by simp⟩
    rw [resized]
    refine ⟨?_, Nat.le_add_right _ _, room⟩
    rw [if_pos grows]
    exact ⟨⟨n, length⟩, Nat.le_refl _⟩
  | none =>
    refine ⟨_, ⟨inv.update codec _, inv.position, inv.sealed, image, inv.offset, ?_, ?_, inv.leftover,
      ?_⟩, rfl, rfl, ?_⟩
    · rw [resized]
      refine ⟨?_, Nat.le_refl _, room⟩
      rw [if_pos grows]
      refine ⟨⟨n + 1, ?_⟩, Nat.le_add_right _ _⟩
      rw [length]
      rfl
    · exact Nat.le_trans inv.inside (Nat.le_add_right _ _)
    · intro set
      exact absurd (pending set) id
    · intro _
      dsimp only
      omega

theorem setLen_zeros (n len : Nat) (longer : n ≤ len) : setLen (zeros n) len = zeros len := by
  rw [setLen, List.take_of_length_le (by simpa using longer), zeros_length, zeros_append]
  congr 1
  omega

theorem createNext_files (inv : Invariant codec format arena logs log front active next) :
    ∃ n, n ≤ format.newCapacity ∧ (createNext arena).files = front ++ active :: [zeros n] := by
  have files := inv.files
  have position := inv.position
  cases inv.leftover with
  | absent =>
    refine ⟨0, Nat.zero_le _, ?_⟩
    rw [createNext, if_pos (by simp [files, position])]
    simp [files]
  | created n set small =>
    refine ⟨n, small, ?_⟩
    rw [createNext, if_neg (by simp [files, position]), files]

theorem createNext_fields (arena : Arena) :
    (createNext arena).activeId = arena.activeId ∧ (createNext arena).mapLen = arena.mapLen ∧
      (createNext arena).writeOffset = arena.writeOffset := by
  unfold createNext
  split <;> exact ⟨rfl, rfl, rfl⟩

theorem resized_next (front : List Bytes) (active : Bytes) (n len : Nat) (longer : n ≤ len) :
    (front ++ active :: [zeros n]).modify (front.length + 1) (setLen · len) =
      front ++ active :: [zeros len] := by
  have split (file : Bytes) : front ++ active :: [file] = (front ++ [active]) ++ file :: [] := by simp
  have position : front.length + 1 = (front ++ [active]).length := by simp
  rw [split, position, modify_middle, setLen_zeros n len longer, ← split]

theorem newCapacity_steps (format : Format) :
    Capacity format format.newCapacity (zeros format.newCapacity).length := by
  rw [zeros_length]
  refine ⟨?_, Nat.le_refl _, newCapacity_le format⟩
  unfold Format.newCapacity
  split
  · exact ⟨⟨0, rfl⟩, Nat.le_add_right _ _⟩
  · rfl

/-- A rotation seals the full active segment; one that fails leaves at most an empty file. -/
theorem rotateSegmentLocked_invariant (inv : Invariant codec format arena logs log front active next)
    (nonempty : log ≠ []) (full : arena.mapLen = format.segmentSize) (fault : Option RotateFault) :
    (∃ next', (rotateSegmentLocked format arena fault).2 = false ∧
        Invariant codec format (rotateSegmentLocked format arena fault).1 logs log front active next') ∨
      ((rotateSegmentLocked format arena fault).2 = true ∧
        (rotateSegmentLocked format arena fault).1.writeOffset = 0 ∧
        (rotateSegmentLocked format arena fault).1.rotationPending = false ∧
        Invariant codec format (rotateSegmentLocked format arena fault).1 (logs ++ [log]) []
          (front ++ [active]) (zeros format.newCapacity) []) := by
  obtain ⟨n, small, created⟩ := createNext_files codec inv
  obtain ⟨sameId, sameLen, sameOffset⟩ := createNext_fields arena
  have resized : (createNext arena).files.modify ((createNext arena).activeId + 1)
      (setLen · format.newCapacity) = front ++ active :: [zeros format.newCapacity] := by
    rw [created, sameId, ← inv.position, resized_next _ _ _ _ small]
  have length : active.length = format.segmentSize := by
    have := inv.capacity.mapped
    have := inv.capacity.declared
    omega
  match fault with
  | some .beforePending => exact .inl ⟨next, rfl, inv⟩
  | some .create =>
    refine .inl ⟨next, rfl, inv.files, inv.position, inv.sealed, inv.image, inv.offset, inv.capacity,
      inv.inside, ?_, fun _ => ⟨nonempty, full⟩⟩
    cases inv.leftover with
    | absent => exact .absent
    | created n set small => exact .created n rfl small
  | some .setLen =>
    refine .inl ⟨[zeros n], rfl, created, inv.position.trans sameId.symm, inv.sealed, inv.image,
      sameOffset.trans inv.offset, sameLen.symm ▸ inv.capacity, ?_, .created n rfl small, ?_⟩
    · exact sameLen.symm ▸ sameOffset.symm ▸ inv.inside
    · exact fun _ => ⟨nonempty, sameLen.trans full⟩
  | some .afterSetLen =>
    refine .inl ⟨[zeros format.newCapacity], rfl, resized, inv.position.trans sameId.symm, inv.sealed,
      inv.image, sameOffset.trans inv.offset, sameLen.symm ▸ inv.capacity, ?_,
      .created _ rfl (Nat.le_refl _), ?_⟩
    · exact sameLen.symm ▸ sameOffset.symm ▸ inv.inside
    · exact fun _ => ⟨nonempty, sameLen.trans full⟩
  | none =>
    refine .inr ⟨rfl, rfl, rfl, ?_, ?_, ?_, ⟨_, .zeros _, rfl⟩, rfl, newCapacity_steps format,
      Nat.zero_le _, .absent, by simp [rotateSegmentLocked]⟩
    · simp only [rotateSegmentLocked, resized]
      simp
    · simp [rotateSegmentLocked, sameId, inv.position]
    · exact List.rel_append inv.sealed (.cons ⟨inv.image, nonempty, length⟩ .nil)

def Holds (format : Format) (arena : Arena) (data : List Bytes) : Prop :=
  ∃ logs log front active next, Invariant codec format arena logs log front active next ∧
    payloads logs log = data

def acknowledged (data : Bytes) (result : Except AppendError Nat) : List Bytes :=
  if result.isOk then [data] else []

theorem rotation_ready (inv : Invariant codec format arena logs log front active next)
    (small : frame < SEGMENT_SIZE)
    (due : arena.writeOffset + frame > format.segmentSize ∨ arena.rotationPending = true) :
    log ≠ [] ∧ arena.mapLen = format.segmentSize := by
  rcases due with large | set
  · have size := segmentSize_ge format
    have offset := inv.offset
    have inside := inv.inside
    have mapped := inv.capacity.mapped
    have declared := inv.capacity.declared
    constructor
    · rintro rfl
      simp only [logBytes, List.flatMap_nil, List.length_nil] at offset
      omega
    · have steps := inv.capacity.steps
      split at steps
      · obtain ⟨⟨n, length⟩, _⟩ := steps
        obtain ⟨m, total⟩ := segmentSize_steps format
        unfold SEGMENT_SIZE at length total small
        omega
      · exact steps
  · exact inv.pending set

/-- The frames of an arena's segments, those of the active one last. -/
def Layout (format : Format) (arena : Arena) (segments : List (List Frame)) : Prop :=
  ∃ logs log front active next, Invariant codec format arena logs log front active next ∧ segments = logs ++ [log]

/-- Segments that went on: behind the frames of the last one, and in further ones. -/
def Extends (old new : List (List Frame)) : Prop :=
  ∃ front last more later, old = front ++ [last] ∧ new = front ++ (last ++ more) :: later

section Append

open List

variable {codec} {format : Format} {arena : Arena} {segments : List (List Frame)}

theorem Layout.extends_refl (layout : Layout codec format arena segments) : Extends segments segments := by
  obtain ⟨logs, log, _, _, _, _, rfl⟩ := layout
  exact ⟨logs, log, [], [], rfl, by rw [append_nil]⟩

theorem Extends.trans (first : Extends a b) (second : Extends b c) : Extends a c := by
  obtain ⟨front, last, more, later, rfl, rfl⟩ := first
  obtain ⟨front', last', more', later', same, rfl⟩ := second
  rcases eq_nil_or_concat later with rfl | ⟨between, final, rfl⟩
  · obtain ⟨rfl, tail⟩ := append_inj' same rfl
    cases tail
    exact ⟨front, last, more ++ more', later', rfl, by rw [append_assoc]⟩
  · have regroup : front ++ (last ++ more) :: (between ++ [final]) = (front ++ (last ++ more) :: between) ++ [final] := by
      rw [append_assoc, cons_append]
    rw [concat_eq_append, regroup] at same
    obtain ⟨rfl, tail⟩ := append_inj' same rfl
    cases tail
    exact ⟨front, last, more, between ++ (last' ++ more') :: later', rfl, by rw [append_assoc, cons_append]⟩

variable {logs : List (List Frame)} {log : List Frame} {front next : List Bytes} {active : Bytes}

theorem activeId_eq (inv : Invariant codec format arena logs log front active next) : arena.activeId = logs.length :=
  inv.position.symm.trans inv.sealed.length_eq.symm

theorem growSegmentLocked_ok (inv : Invariant codec format arena logs log front active next)
    (beyond : arena.mapLen < required) (declared : required ≤ format.segmentSize) :
    (growSegmentLocked format arena required none).2 = true := by
  have grows : format.grows = true := by
    cases grows : format.grows with
    | true => rfl
    | false =>
      have steps := inv.capacity.steps
      rw [if_neg (by simp [grows])] at steps
      omega
  rw [growSegmentLocked, if_pos ⟨grows, declared, beyond⟩]

/-- What an append does to the frames of the active segment. -/
structure Appended (codec : Codec) (format : Format) (logs : List (List Frame)) (log : List Frame) (frame : Frame) (faultless : Prop)
    (outcome : Arena × Except AppendError Nat) : Prop where
  kept : ∃ log' front active next, Invariant codec format outcome.1 logs log' front active next ∧
    ((log' = log ++ [frame] ∧ outcome.2 = .ok (logs.length * format.segmentSize + (logBytes codec log).length)) ∨
      log' = log ∧ ¬faultless ∧ ∃ error, outcome.2 = .error error)

section

variable (lawful : codec.Lawful) (inv : Invariant codec format arena logs log front active next) (idle : arena.rotationPending = false) (frame : Frame)
include lawful inv idle frame

theorem writeLocked_appended
    (fits : arena.writeOffset + (frame.encode codec).length ≤ arena.mapLen) (syncFails : Bool) :
    Appended codec format logs log frame (syncFails = false) (writeLocked format arena (frame.encode codec) syncFails) := by
  obtain ⟨active', kept, _⟩ := writeLocked_invariant codec lawful inv idle frame fits syncFails
  cases syncFails with
  | false =>
    refine ⟨_, _, _, _, kept, .inl ⟨rfl, ?_⟩⟩
    rw [← inv.offset, ← activeId_eq inv]
    rfl
  | true => exact ⟨_, _, _, _, kept, .inr ⟨rfl, Bool.noConfusion, _, rfl⟩⟩

theorem growAndWrite_appended
    (fits : arena.writeOffset + (frame.encode codec).length ≤ format.segmentSize) (faults : Faults) (durable : Bool) :
    Appended codec format logs log frame (faults = .none) (growAndWrite format arena (frame.encode codec) faults durable) := by
  have small := encodeFrame_small codec frame.version frame.data frame.bounded
  change (frame.encode codec).length < _ at small
  have write {arena : Arena} {active : Bytes} (inv : Invariant codec format arena logs log front active next)
      (idle : arena.rotationPending = false) (room : arena.writeOffset + (frame.encode codec).length ≤ arena.mapLen) :
      Appended codec format logs log frame (faults = .none) (writeLocked format arena (frame.encode codec) (durable && faults.sync)) := by
    obtain ⟨log', front, active, next, kept, outcome⟩ :=
      (writeLocked_appended lawful inv idle frame room (durable && faults.sync)).kept
    refine ⟨log', front, active, next, kept, outcome.imp_right (And.imp_right (And.imp_left fun fails none => fails ?_))⟩
    rw [none]
    exact Bool.and_false _
  rw [growAndWrite]
  dsimp only
  by_cases beyond : arena.mapLen < arena.writeOffset + (frame.encode codec).length
  · have within : arena.writeOffset + (frame.encode codec).length < arena.mapLen + SEGMENT_SIZE := by
      have := inv.inside
      omega
    obtain ⟨active', kept, sameOffset, samePending, mapped⟩ :=
      growSegmentLocked_invariant codec inv beyond within fits faults.grow
    rw [if_pos beyond]
    cases grown : (growSegmentLocked format arena (arena.writeOffset + (frame.encode codec).length) faults.grow).2 with
    | false =>
      refine ⟨_, _, _, _, kept, .inr ⟨rfl, fun none => ?_, _, rfl⟩⟩
      rw [none] at grown
      exact Bool.noConfusion (grown.symm.trans (growSegmentLocked_ok inv beyond fits))
    | true => exact write kept (samePending.trans idle) (sameOffset.symm ▸ mapped grown)
  · rw [if_neg beyond]
    exact write inv idle (Nat.not_lt.mp beyond)

end

theorem writeFrame_layout (lawful : codec.Lawful) (layout : Layout codec format arena segments) (payload : Bytes)
    (durable : Bool) (faults : Faults) :
    ∃ segments', Layout codec format (writeFrame codec format arena payload durable faults).1 segments' ∧
      Extends segments segments' ∧
      ((∃ front before frame, segments' = front ++ [before ++ [frame]] ∧ frame.data = payload ∧
          segments'.flatten = segments.flatten ++ [frame] ∧
          (writeFrame codec format arena payload durable faults).2 =
            .ok (front.length * format.segmentSize + (logBytes codec before).length)) ∨
        (segments'.flatten = segments.flatten ∧
          (¬(faults = .none ∧ 0 < payload.length ∧ payload.length ≤ maxRawFrameSize)) ∧
          ∃ error, (writeFrame codec format arena payload durable faults).2 = .error error)) := by
  have unchanged := layout.extends_refl
  obtain ⟨logs, log, front, active, next, inv, rfl⟩ := layout
  have size := segmentSize_ge format
  rw [writeFrame]
  by_cases bad : payload.length = 0 ∨ payload.length > maxRawFrameSize
  · rw [if_pos bad]
    exact ⟨_, ⟨_, _, _, _, _, inv, rfl⟩, unchanged, .inr ⟨rfl, by omega, _, rfl⟩⟩
  rw [if_neg bad]
  obtain ⟨frame, version, rfl⟩ : ∃ frame : Frame, frame.version = arena.versionCounter ∧ frame.data = payload :=
    ⟨⟨arena.versionCounter, payload, by omega, by omega⟩, rfl, rfl⟩
  have small := encodeFrame_small codec frame.version frame.data frame.bounded
  have inv := inv.version codec (arena.versionCounter + 1)
  dsimp only
  have fitting : ¬(frame.data.length ≥ 2 ^ 32 ∨ (stored codec frame.data).length ≥ 2 ^ 32) := by
    have stored := stored_length_le codec frame.data
    have bounded := frame.bounded
    unfold maxRawFrameSize at bounded
    omega
  rw [if_neg fitting]
  have encoded : encodeFrame codec arena.versionCounter frame.data = frame.encode codec := by rw [Frame.encode, version]
  change (frame.encode codec).length < _ at small
  rw [encoded]
  by_cases due : arena.writeOffset + (frame.encode codec).length > format.segmentSize ∨ arena.rotationPending = true
  · rw [if_pos due]
    obtain ⟨nonempty, full⟩ := rotation_ready codec inv small due
    rcases rotateSegmentLocked_invariant codec inv nonempty full faults.rotate with
      ⟨next', failed, kept⟩ | ⟨rotated, start, idle, kept⟩
    · rw [failed]
      refine ⟨_, ⟨_, _, _, _, _, kept, rfl⟩, unchanged, .inr ⟨rfl, ?_, _, rfl⟩⟩
      rintro ⟨rfl, _⟩
      exact Bool.noConfusion failed
    · rw [rotated]
      have opened : Extends (logs ++ [log]) ((logs ++ [log]) ++ [[]]) :=
        ⟨logs, log, [], [[]], rfl, by rw [append_nil, append_assoc]; rfl⟩
      obtain ⟨log', front, active, next, after, outcome⟩ :=
        (growAndWrite_appended lawful kept idle frame (by rw [start]; omega) faults durable).kept
      rcases outcome with ⟨rfl, ok⟩ | ⟨rfl, faulty, error⟩
      · refine ⟨_, ⟨_, _, _, _, _, after, rfl⟩, ⟨logs, log, [], [[frame]], rfl, by simp⟩, .inl ⟨_, [], frame, rfl, rfl, by simp, ?_⟩⟩
        exact ok
      · exact ⟨_, ⟨_, _, _, _, _, after, rfl⟩, opened, .inr ⟨by simp, fun good => faulty good.1, error⟩⟩
  · rw [if_neg due]
    have idle : arena.rotationPending = false := by simpa using fun set => due (.inr set)
    obtain ⟨log', front, active, next, after, outcome⟩ :=
      (growAndWrite_appended lawful inv idle frame (Nat.not_lt.mp fun large => due (.inl large)) faults durable).kept
    rcases outcome with ⟨rfl, ok⟩ | ⟨rfl, faulty, error⟩
    · exact ⟨_, ⟨_, _, _, _, _, after, rfl⟩, ⟨logs, log, [frame], [], rfl, rfl⟩, .inl ⟨_, log, frame, rfl, rfl, by simp, ok⟩⟩
    · exact ⟨_, ⟨_, _, _, _, _, after, rfl⟩, unchanged, .inr ⟨rfl, fun good => faulty good.1, error⟩⟩

theorem holds_iff :
    Holds codec format arena data ↔ ∃ segments, Layout codec format arena segments ∧ segments.flatten.map Frame.data = data := by
  constructor
  · rintro ⟨logs, log, front, active, next, inv, rfl⟩
    exact ⟨_, ⟨_, _, _, _, _, inv, rfl⟩, by simp [payloads]⟩
  · rintro ⟨_, ⟨logs, log, front, active, next, inv, rfl⟩, rfl⟩
    exact ⟨_, _, _, _, _, inv, by simp [payloads]⟩

end Append

theorem writeFrame_holds (lawful : codec.Lawful) (holds : Holds codec format arena data)
    (payload : Bytes) (durable : Bool) (faults : Faults) :
    Holds codec format (writeFrame codec format arena payload durable faults).1
      (data ++ acknowledged payload (writeFrame codec format arena payload durable faults).2) := by
  obtain ⟨segments, layout, rfl⟩ := holds_iff.mp holds
  obtain ⟨segments', kept, _, outcome⟩ := writeFrame_layout lawful layout payload durable faults
  refine holds_iff.mpr ⟨segments', kept, ?_⟩
  rcases outcome with ⟨_, _, frame, _, rfl, flat, ok⟩ | ⟨flat, _, error, failed⟩
  · rw [flat, ok, List.map_append]
    rfl
  · rw [flat, failed]
    exact (List.append_nil _).symm

theorem open_capacity (format : Format) (length : Nat) (declared : length ≤ format.segmentSize) :
    ∃ capacity, (if format.grows then Format.divCeil (max length SEGMENT_SIZE) SEGMENT_SIZE * SEGMENT_SIZE
        else format.segmentSize) = capacity ∧
      length ≤ capacity ∧ Capacity format capacity capacity := by
  obtain ⟨m, size⟩ := segmentSize_steps format
  refine ⟨_, rfl, ?_⟩
  cases grows : format.grows with
  | false =>
    refine ⟨declared, ⟨?_, Nat.le_refl _, Nat.le_refl _⟩⟩
    simp [grows]
  | true =>
    obtain ⟨n, steps⟩ : ∃ n, Format.divCeil (max length SEGMENT_SIZE) SEGMENT_SIZE = n + 1 := by
      refine ⟨Format.divCeil (max length SEGMENT_SIZE) SEGMENT_SIZE - 1, ?_⟩
      unfold Format.divCeil SEGMENT_SIZE
      omega
    have bounds : length ≤ (n + 1) * SEGMENT_SIZE ∧ (n + 1) * SEGMENT_SIZE ≤ format.segmentSize := by
      rw [← steps, size]
      rw [size] at declared
      unfold Format.divCeil SEGMENT_SIZE at *
      omega
    simp only [↓reduceIte, steps]
    refine ⟨bounds.1, ⟨?_, Nat.le_refl _, bounds.2⟩⟩
    rw [if_pos grows]
    exact ⟨⟨n, Nat.mul_comm _ _⟩, Nat.le_add_right _ _⟩

section

variable (lawful : codec.Lawful)
include lawful

/-- Opening recovers the log of the last file and puts the end marker behind it. -/
theorem openArena_front (sealed : List.Forall₂ (Sealed codec format) logs front)
    (image : Image codec log active) (declared : active.length ≤ format.segmentSize) :
    ∃ arena active', openArena codec format (front ++ [active]) = .ok arena ∧
      Invariant codec format arena logs log front active' [] := by
  obtain ⟨capacity, set, longer, steps⟩ := open_capacity format active.length declared
  obtain ⟨tail, isTail, resized⟩ := image.setLen codec longer
  have found := discoverOffset_tail codec lawful log isTail
  have total := setLen_length active longer
  have last : (front ++ [active]).getD ((front ++ [active]).length - 1) [] = active := by simp
  -- The marker replaces a header of the clean tail.
  obtain ⟨active', isActive, image', length⟩ : ∃ active',
      (if (logBytes codec log).length + headerSize ≤ (logBytes codec log ++ tail).length ∧
          slice (logBytes codec log ++ tail) (logBytes codec log).length headerSize ≠ endMarkerBytes
        then write (logBytes codec log ++ tail) (logBytes codec log).length endMarkerBytes
        else logBytes codec log ++ tail) = active' ∧
      Image codec log active' ∧ active'.length = capacity := by
    refine ⟨_, rfl, ?_⟩
    rw [resized] at total
    have size := headerSize_eq
    split
    · rename_i room
      constructor
      · rw [write_append, tail_drop isTail (by rw [endMarkerBytes_length]; omega)]
        exact ⟨_, .marked _, rfl⟩
      · rw [write_length _ _ _ (by rw [endMarkerBytes_length]; omega), total]
    · exact ⟨⟨tail, isTail, rfl⟩, total⟩
  have opened : openArena codec format (front ++ [active]) = .ok
      { files := (front ++ [active]).set ((front ++ [active]).length - 1) active'
        activeId := (front ++ [active]).length - 1
        mapLen := capacity
        writeOffset := (logBytes codec log).length
        versionCounter := if (logBytes codec log).length > 0 then maxVersion log 0 + 1 else 0
        rotationPending := false } := by
    have files : (if (front ++ [active]).isEmpty then [[]] else front ++ [active]) = front ++ [active] := by
      simp
    simp only [openArena, files, last, set, resized, found]
    rw [if_neg (by omega), isActive]
  refine ⟨_, active', opened, by simp, by simp, sealed, image', rfl, length.symm ▸ steps, ?_, .absent,
    by simp⟩
  change (logBytes codec log).length ≤ capacity
  rw [← total, resized, List.length_append]
  exact Nat.le_add_right _ _

theorem openArena_layout (layout : Layout codec format arena segments) :
    ∃ opened segments', openArena codec format arena.files = .ok opened ∧ Layout codec format opened segments' ∧
      Extends segments segments' ∧ segments'.flatten = segments.flatten := by
  have same := layout.extends_refl
  obtain ⟨logs, log, front, active, next, inv, rfl⟩ := layout
  rw [inv.files]
  cases inv.leftover with
  | absent =>
    obtain ⟨opened, active', success, kept⟩ :=
      openArena_front codec lawful inv.sealed inv.image inv.capacity.declared
    exact ⟨opened, _, success, ⟨_, _, _, _, _, kept, rfl⟩, same, rfl⟩
  | created n set small =>
    obtain ⟨nonempty, full⟩ := inv.pending set
    have length : active.length = format.segmentSize := by
      have := inv.capacity.mapped
      have := inv.capacity.declared
      omega
    have sealed := List.rel_append inv.sealed
      (.cons (⟨inv.image, nonempty, length⟩ : Sealed codec format log active) .nil)
    have empty : Image codec [] (zeros n) := ⟨_, .zeros n, rfl⟩
    obtain ⟨opened, active', success, kept⟩ := openArena_front codec lawful sealed empty
      (by rw [zeros_length]; exact Nat.le_trans small (newCapacity_le format))
    rw [show front ++ active :: [zeros n] = (front ++ [active]) ++ [zeros n] by simp]
    exact ⟨opened, _, success, ⟨_, _, _, _, _, kept, rfl⟩, ⟨logs, log, [], [[]], rfl, by simp⟩, by simp⟩

theorem openArena_holds (holds : Holds codec format arena data) :
    ∃ opened, openArena codec format arena.files = .ok opened ∧ Holds codec format opened data := by
  obtain ⟨segments, layout, rfl⟩ := holds_iff.mp holds
  obtain ⟨opened, segments', success, kept, _, flat⟩ := openArena_layout codec lawful layout
  exact ⟨opened, success, holds_iff.mpr ⟨_, kept, by rw [flat]⟩⟩

theorem openArena_new (format : Format) :
    ∃ opened, openArena codec format [] = .ok opened ∧ Holds codec format opened [] := by
  have empty : Image codec [] [] := ⟨[], .zeros 0, rfl⟩
  obtain ⟨opened, active, success, kept⟩ :=
    openArena_front codec lawful (.nil (R := Sealed codec format)) empty (Nat.zero_le _)
  exact ⟨opened, success, _, _, _, _, _, kept, rfl⟩

theorem step_layout (layout : Layout codec format arena segments) (op : Op) :
    ∃ next more segments', step codec format arena op = .ok (next, more) ∧ Layout codec format next segments' ∧
      Extends segments segments' ∧ segments'.flatten.map Frame.data = segments.flatten.map Frame.data ++ more := by
  cases op with
  | append payload durable faults =>
    obtain ⟨segments', kept, extended, outcome⟩ := writeFrame_layout lawful layout payload durable faults
    rcases result : writeFrame codec format arena payload durable faults with ⟨next, taken⟩
    rw [result] at kept outcome
    rcases outcome with ⟨_, _, frame, _, rfl, flat, rfl⟩ | ⟨flat, _, error, rfl⟩
    · exact ⟨next, [frame.data], segments', by rw [step, result], kept, extended, by simp [flat]⟩
    · exact ⟨next, [], segments', by rw [step, result], kept, extended, by simp [flat]⟩
  | reopen =>
    obtain ⟨opened, segments', success, kept, extended, flat⟩ := openArena_layout codec lawful layout
    exact ⟨opened, [], segments', by rw [step, success]; rfl, kept, extended, by simp [flat]⟩

theorem run_layout (ops : List Op) (layout : Layout codec format arena segments) :
    ∃ last more segments', run codec format arena ops = .ok (last, more) ∧ Layout codec format last segments' ∧
      Extends segments segments' ∧ segments'.flatten.map Frame.data = segments.flatten.map Frame.data ++ more := by
  induction ops generalizing arena segments with
  | nil => exact ⟨arena, [], segments, rfl, layout, layout.extends_refl, (List.append_nil _).symm⟩
  | cons op ops ih =>
    obtain ⟨next, more, middle, stepped, kept, first, grown⟩ := step_layout codec lawful layout op
    obtain ⟨last, later, final, ran, held, rest, all⟩ := ih kept
    refine ⟨last, more ++ later, final, ?_, held, first.trans rest, by rw [all, grown, List.append_assoc]⟩
    rw [run, stepped]
    simp only [bind, Except.bind, ran]

theorem run_holds (ops : List Op) (holds : Holds codec format arena data) :
    ∃ last more, run codec format arena ops = .ok (last, more) ∧
      Holds codec format last (data ++ more) := by
  obtain ⟨segments, layout, rfl⟩ := holds_iff.mp holds
  obtain ⟨last, more, segments', ran, kept, _, grown⟩ := run_layout codec lawful ops layout
  exact ⟨last, more, ran, holds_iff.mpr ⟨segments', kept, grown⟩⟩

end

/-! The replay walk over the files of an arena. -/

theorem offset_div (format : Format) (segment position : Nat) (below : position < format.segmentSize) :
    (segment * format.segmentSize + position) / format.segmentSize = segment := by
  rw [Nat.mul_comm, Nat.mul_add_div (by omega), Nat.div_eq_of_lt below, Nat.add_zero]

theorem offset_mod (format : Format) (segment position : Nat) (below : position < format.segmentSize) :
    (segment * format.segmentSize + position) % format.segmentSize = position := by
  rw [Nat.mul_comm, Nat.mul_add_mod, Nat.mod_eq_of_lt below]

/-- The bytes that reads of `segment` see: a sealed file, or the mapped part of the active one. -/
structure Mapped (format : Format) (arena : Arena) (segment : Nat) (map : Bytes) : Prop where
  index : segment ≤ arena.activeId
  bytes : map = if segment < arena.activeId then arena.files.getD segment []
    else (arena.files.getD arena.activeId []).take arena.mapLen
  declared : map.length ≤ format.segmentSize

variable {segment : Nat}

section

variable (mapped : Mapped format arena segment map)
include mapped

theorem mapping_eq (below : position < format.segmentSize)
    (inside : position ≤ map.length) :
    mapping format arena (segment * format.segmentSize + position) = .ok (map.drop position) := by
  have index := mapped.index
  have whole : map.take format.segmentSize = map := List.take_of_length_le mapped.declared
  unfold mapping
  rw [offset_div format segment position below, offset_mod format segment position below]
  dsimp only
  rw [if_neg (by omega), ← mapped.bytes, whole, if_pos inside]

theorem readFrame_eq (frame : FrameAt codec map position h raw) :
    readFrame codec format arena (segment * format.segmentSize + position) = .ok (raw, h.version) := by
  have inside := frame.inside
  have size := headerSize_eq
  have stored := frame.stored
  have bounded := frame.bounded
  have shrunk := frame.shrunk
  have declared := mapped.declared
  have payload := frame.payload
  have slice_eq : slice (map.drop position) headerSize h.compLen =
      slice map (position + headerSize) h.compLen := by
    rw [slice, slice, List.drop_drop]
  have room : headerSize + h.compLen ≤ (map.drop position).length := by
    rw [List.length_drop]
    omega
  rw [readFrame, mapping_eq mapped (by omega) (by omega)]
  simp only [bind, Except.bind, frame.header]
  rw [if_neg (by omega), if_neg (by omega), if_neg (by omega), if_pos room, slice_eq]
  by_cases compressed : h.compLen < h.rawLen
  · rw [if_pos compressed] at payload
    simp [compressed, payload, frame.length, frame.checksum]
  · rw [if_neg compressed] at payload
    simp [compressed, ← payload, frame.length, frame.checksum]

theorem readSlice_eq (below : position < format.segmentSize)
    (inside : position + len ≤ map.length) :
    readSlice format arena (segment * format.segmentSize + position) len = .ok (slice map position len) := by
  rw [readSlice, mapping_eq mapped below (by omega)]
  simp only [bind, Except.bind]
  rw [if_pos (by rw [List.length_drop]; omega), slice]

end

theorem headerWords_slice (header : headerWords (map.drop position) = some h)
    (inside : position + headerSize ≤ map.length) :
    headerWords (slice map position headerSize) = some h := by
  have size := headerSize_eq
  rw [headerWords_drop, if_pos inside] at header
  rw [headerWords, if_pos (by rw [slice_length _ _ _ inside]), ← header, word_slice _ _ _ _ (by omega),
    word_slice _ _ _ _ (by omega), word_slice _ _ _ _ (by omega), word_slice _ _ _ _ (by omega)]
  rfl

theorem nextOffset_active (mapped : Mapped format arena segment map) (active : segment = arena.activeId)
    (frame : FrameAt codec map position h raw) :
    nextOffset format arena (segment * format.segmentSize + position) =
      .ok (segment * format.segmentSize + (position + (headerSize + h.compLen))) := by
  have inside := frame.inside
  have size := headerSize_eq
  have stored := frame.stored
  have declared := mapped.declared
  rw [nextOffset, readSlice_eq mapped (by omega) (by omega)]
  simp only [bind, Except.bind, headerWords_slice frame.header frame.header_inside]
  rw [if_neg (by omega), offset_div _ _ _ (by omega), if_neg (by omega)]
  congr 1
  omega

theorem nextOffset_sealed (mapped : Mapped format arena segment map) (inner : segment < arena.activeId)
    (frame : FrameAt codec map position h raw)
    (room : position + (headerSize + h.compLen) + headerSize ≤ map.length) :
    nextOffset format arena (segment * format.segmentSize + position) =
      .ok (if isLogEnd (slice map (position + (headerSize + h.compLen)) headerSize)
        then (segment + 1) * format.segmentSize
        else segment * format.segmentSize + (position + (headerSize + h.compLen))) := by
  have size := headerSize_eq
  have stored := frame.stored
  have declared := mapped.declared
  have sum : segment * format.segmentSize + position + headerSize + h.compLen =
      segment * format.segmentSize + (position + (headerSize + h.compLen)) := by omega
  rw [nextOffset, readSlice_eq mapped (by omega) (by omega)]
  simp only [bind, Except.bind, headerWords_slice frame.header frame.header_inside]
  rw [if_neg (by omega), offset_div _ _ _ (by omega), if_pos inner, sum,
    offset_mod _ _ _ (by omega), if_neg (by omega), readSlice_eq mapped (by omega) (by omega)]
  dsimp only
  split <;> rfl

theorem isLogEnd_tail (tail : Tail (map.drop position)) (room : position + headerSize ≤ map.length) :
    isLogEnd (slice map position headerSize) = true := by
  rw [isLogEnd_slice _ _ room]
  have zero (j : Nat) (outside : j < 12) : octet map (position + j) = 0 := by
    rw [← octet_drop]
    exact tail.octet_zero j (.inl outside)
  have words (i : Nat) (bound : i + 4 ≤ 12) : word map (position + i) = 0 := by
    rw [word_eq_zero_iff]
    intro j below
    rw [Nat.add_assoc]
    exact zero (i + j) (by omega)
  refine ⟨by simpa using words 0 (by decide), words 4 (by decide), words 8 (by decide), ?_⟩
  rw [← word_drop]
  generalize map.drop position = rest at tail
  cases tail with
  | zeros n => exact .inl (word_zeros n 12)
  | marked n =>
    right
    rw [word_append_left _ _ _ (by simp)]
    decide

theorem isLogEnd_frame (frame : FrameAt codec map position h raw) : isLogEnd (slice map position headerSize) = false := by
  rw [Bool.eq_false_iff]
  intro ends
  rw [isLogEnd_slice _ _ frame.header_inside] at ends
  have header := frame.header
  rw [headerWords_drop, if_pos frame.header_inside] at header
  have stored := frame.stored
  have compLen := congrArg Header.compLen (Option.some.inj header)
  dsimp only at compLen stored
  omega

theorem nextOffset_last (mapped : Mapped format arena segment map) (inner : segment < arena.activeId)
    (full : map.length = format.segmentSize) (frame : FrameAt codec map position h raw)
    (tail : Tail (map.drop (position + (headerSize + h.compLen))))
    (following : Mapped format arena (segment + 1) after) (large : headerSize ≤ after.length) :
    nextOffset format arena (segment * format.segmentSize + position) =
      .ok ((segment + 1) * format.segmentSize) := by
  have inside := frame.inside
  have size := headerSize_eq
  have stored := frame.stored
  have minimum := segmentSize_ge format
  have step : SEGMENT_SIZE = 67108864 := rfl
  by_cases room : position + (headerSize + h.compLen) + headerSize ≤ map.length
  · rw [nextOffset_sealed codec mapped inner frame room, if_pos (isLogEnd_tail tail room)]
  · have sum : segment * format.segmentSize + position + headerSize + h.compLen =
        segment * format.segmentSize + (position + (headerSize + h.compLen)) := by omega
    rw [nextOffset, readSlice_eq mapped (by omega) (by omega)]
    simp only [bind, Except.bind, headerWords_slice frame.header frame.header_inside]
    rw [if_neg (by omega), offset_div _ _ _ (by omega), if_pos inner, sum]
    by_cases whole : position + (headerSize + h.compLen) = format.segmentSize
    · -- The frame ends the file: its successor is looked up in the next segment.
      rw [whole, ← Nat.succ_mul, Nat.mul_mod_left, if_neg (by omega)]
      have start := readSlice_eq following (by omega) (by omega : 0 + headerSize ≤ after.length)
      rw [Nat.add_zero] at start
      rw [start]
      dsimp only
      split <;> rfl
    · rw [offset_mod _ _ _ (by omega), if_pos (by omega)]

theorem replayFrom_step (below : offset < usedBytes format arena)
    (read : readFrame codec format arena offset = .ok (raw, version))
    (next : nextOffset format arena offset = .ok following)
    (later : replayFrom codec format arena fuel following = .ok rest) :
    replayFrom codec format arena (fuel + 1) offset = .ok (raw :: rest) := by
  rw [replayFrom, if_pos below, read]
  simp only [bind, Except.bind, next, later]

theorem logBytes_snoc (before after : List Frame) (frame : Frame) :
    logBytes codec (before ++ frame :: after) =
      logBytes codec before ++ (frame.encode codec ++ logBytes codec after) := by
  simp [logBytes]

theorem logBytes_concat_length (before : List Frame) (frame : Frame) :
    (logBytes codec (before ++ [frame])).length =
      (logBytes codec before).length + (headerSize + (stored codec frame.data).length) := by
  rw [logBytes_snoc]
  simp [logBytes, Frame.encode, encodeFrame_length]

theorem frameAt_log (lawful : codec.Lawful) (before after : List Frame) (frame : Frame) (rest : Bytes) :
    FrameAt codec (logBytes codec (before ++ frame :: after) ++ rest) (logBytes codec before).length
      ⟨codec.crc32 frame.data, frame.data.length, (stored codec frame.data).length,
        frame.version % 2 ^ 32⟩ frame.data := by
  rw [logBytes_snoc, List.append_assoc, List.append_assoc]
  exact frameAt_encode codec lawful _ _ frame

theorem replayFrom_active (lawful : codec.Lawful) (before after : List Frame) (rest : Bytes)
    (mapped : Mapped format arena arena.activeId (logBytes codec (before ++ after) ++ rest))
    (written : arena.writeOffset = (logBytes codec (before ++ after)).length)
    (fuel : Nat) (enough : after.length < fuel) :
    replayFrom codec format arena fuel
        (arena.activeId * format.segmentSize + (logBytes codec before).length) =
      .ok (after.map Frame.data) := by
  induction after generalizing before fuel with
  | nil =>
    obtain ⟨fuel, rfl⟩ := Nat.exists_eq_add_of_lt enough
    rw [List.append_nil] at written
    rw [replayFrom, if_neg (by rw [usedBytes, written]; omega)]
    rfl
  | cons frame after ih =>
    obtain ⟨fuel, rfl⟩ := Nat.exists_eq_add_of_lt enough
    have valid := frameAt_log codec lawful before after frame rest
    have onward := nextOffset_active codec mapped rfl valid
    rw [← logBytes_concat_length] at onward
    have split : before ++ frame :: after = (before ++ [frame]) ++ after := by simp
    have later := ih (before ++ [frame]) (split ▸ mapped) (split ▸ written)
      ((frame :: after).length + fuel) (by simp only [List.length_cons]; omega)
    have below : arena.activeId * format.segmentSize + (logBytes codec before).length <
        usedBytes format arena := by
      rw [usedBytes, written, logBytes_snoc, List.length_append, List.length_append]
      have := encode_pos codec lawful frame
      omega
    exact replayFrom_step codec below (readFrame_eq codec mapped valid) onward later

theorem sealed_below (inner : segment < arena.activeId) (inside : position < format.segmentSize) :
    segment * format.segmentSize + position < usedBytes format arena := by
  have := Nat.mul_le_mul_right format.segmentSize inner
  rw [Nat.succ_mul] at this
  rw [usedBytes]
  omega

theorem replayFrom_sealed (lawful : codec.Lawful) (before after : List Frame) (frame : Frame)
    (isTail : Tail tail)
    (mapped : Mapped format arena segment (logBytes codec (before ++ frame :: after) ++ tail))
    (inner : segment < arena.activeId)
    (full : (logBytes codec (before ++ frame :: after) ++ tail).length = format.segmentSize)
    (following : Mapped format arena (segment + 1) map) (large : headerSize ≤ map.length)
    (later : replayFrom codec format arena fuel ((segment + 1) * format.segmentSize) = .ok rest) :
    replayFrom codec format arena (fuel + (after.length + 1))
        (segment * format.segmentSize + (logBytes codec before).length) =
      .ok ((frame :: after).map Frame.data ++ rest) := by
  have size := headerSize_eq
  induction after generalizing before frame with
  | nil =>
    have valid := frameAt_log codec lawful before [] frame tail
    have behind : (logBytes codec (before ++ [frame]) ++ tail).drop ((logBytes codec before).length +
        (headerSize + (stored codec frame.data).length)) = tail := by
      rw [← logBytes_concat_length, List.drop_left]
    have onward := nextOffset_last codec mapped inner full valid (behind.symm ▸ isTail) following large
    have below := valid.inside
    exact replayFrom_step codec (sealed_below inner (by omega)) (readFrame_eq codec mapped valid) onward
      later
  | cons second after ih =>
    have valid := frameAt_log codec lawful before (second :: after) frame tail
    have split : before ++ frame :: second :: after = (before ++ [frame]) ++ second :: after := by simp
    rw [split] at mapped full
    have next := frameAt_log codec lawful (before ++ [frame]) after second tail
    have place := logBytes_concat_length codec before frame
    have onward := nextOffset_sealed codec mapped inner (split ▸ valid)
      (by dsimp only; rw [← place]; exact next.header_inside)
    have running : isLogEnd (slice (logBytes codec ((before ++ [frame]) ++ second :: after) ++ tail)
        (logBytes codec (before ++ [frame])).length headerSize) = false := isLogEnd_frame codec next
    rw [← place, running] at onward
    have last := ih (before ++ [frame]) second mapped full
    have below := valid.inside
    rw [split] at below
    exact replayFrom_step codec (sealed_below inner (by omega)) (readFrame_eq codec mapped (split ▸ valid))
      onward last

theorem mapped_active (inv : Invariant codec format arena logs log front active next) :
    ∃ rest, Mapped format arena arena.activeId (logBytes codec log ++ rest) ∧
      headerSize ≤ (logBytes codec log ++ rest).length := by
  have size := headerSize_eq
  have offset := inv.offset
  have inside := inv.inside
  have mapped := inv.capacity.mapped
  have declared := inv.capacity.declared
  obtain ⟨tail, _, rfl⟩ := inv.image
  have cut : (logBytes codec log ++ tail).take arena.mapLen =
      logBytes codec log ++ tail.take (arena.mapLen - (logBytes codec log).length) := by
    rw [List.take_append, List.take_of_length_le (by omega)]
  have file : arena.files.getD arena.activeId [] = logBytes codec log ++ tail := by
    rw [inv.files, ← inv.position]
    simp
  have step : SEGMENT_SIZE = 67108864 := rfl
  have large : SEGMENT_SIZE ≤ arena.mapLen := by
    have steps := inv.capacity.steps
    have := segmentSize_ge format
    split at steps
    · obtain ⟨⟨n, length⟩, _⟩ := steps
      rw [length]
      exact Nat.le_mul_of_pos_right _ (Nat.succ_pos n)
    · omega
  have total : (logBytes codec log ++ tail.take (arena.mapLen - (logBytes codec log).length)).length =
      arena.mapLen := by
    rw [← cut, List.length_take]
    omega
  refine ⟨tail.take (arena.mapLen - (logBytes codec log).length), ⟨Nat.le_refl _, ?_, by omega⟩, by omega⟩
  rw [if_neg (Nat.lt_irrefl _), file, cut]

theorem mapped_sealed (inv : Invariant codec format arena logs log front active next)
    (split : front = passed ++ file :: later) (full : file.length = format.segmentSize) :
    passed.length < arena.activeId ∧ Mapped format arena passed.length file := by
  have inner : passed.length < arena.activeId := by
    rw [← inv.position, split]
    simp
  refine ⟨inner, Nat.le_of_lt inner, ?_, by omega⟩
  rw [if_pos inner, inv.files, split]
  simp

/-- The walk from the start of a segment gives the payloads of that segment and all later ones. -/
theorem replayFrom_segments (lawful : codec.Lawful) (inv : Invariant codec format arena logs log front active next)
    {files : List Bytes} (sealed : List.Forall₂ (Sealed codec format) todo files) (passed : List Bytes)
    (split : front = passed ++ files) (fuel : Nat) (enough : (todo.flatten ++ log).length < fuel) :
    replayFrom codec format arena fuel (passed.length * format.segmentSize) =
      .ok ((todo.flatten ++ log).map Frame.data) := by
  obtain ⟨rest, mapped, large⟩ := mapped_active codec inv
  induction sealed generalizing passed fuel with
  | nil =>
    have position := inv.position
    rw [split, List.append_nil] at position
    have walk := replayFrom_active codec lawful [] log rest mapped inv.offset fuel enough
    rw [position]
    exact walk
  | @cons frames file todo files head later ih =>
    obtain ⟨frame, after, rfl⟩ := List.exists_cons_of_ne_nil head.nonempty
    obtain ⟨inner, here⟩ := mapped_sealed codec inv split head.full
    have split' : front = (passed ++ [file]) ++ files := by simp [split]
    have following : ∃ map, Mapped format arena (passed.length + 1) map ∧ headerSize ≤ map.length := by
      cases later with
      | nil =>
        have position := inv.position
        simp only [split, List.length_append, List.length_cons, List.length_nil] at position
        exact ⟨_, position ▸ mapped, large⟩
      | @cons frames' file' _ _ next =>
        obtain ⟨_, there⟩ := mapped_sealed codec inv split' next.full
        rw [List.length_append] at there
        have := segmentSize_ge format
        exact ⟨file', there, by rw [next.full]; exact Nat.le_trans (by decide) this⟩
    obtain ⟨map, next, room⟩ := following
    obtain ⟨tail, isTail, rfl⟩ := head.image
    obtain ⟨extra, rfl⟩ := Nat.exists_eq_add_of_lt enough
    have onward := ih (passed ++ [_]) split' ((todo.flatten ++ log).length + extra + 1) (by omega)
    have position : (passed ++ [logBytes codec (frame :: after) ++ tail]).length = passed.length + 1 := by
      simp
    rw [position] at onward
    have walk := replayFrom_sealed codec lawful [] after frame isTail here inner head.full next room onward
    have count : (((frame :: after) :: todo).flatten ++ log).length + extra + 1 =
        (todo.flatten ++ log).length + extra + 1 + (after.length + 1) := by
      simp only [List.flatten_cons, List.length_append, List.length_cons]
      omega
    rw [count]
    simpa [logBytes] using walk

theorem flatten_length_le (lawful : codec.Lawful)
    (sealed : List.Forall₂ (Sealed codec format) logs front) :
    logs.flatten.length ≤ front.length * format.segmentSize := by
  induction sealed with
  | nil => exact Nat.zero_le _
  | @cons frames file _ _ head _ ih =>
    have count := frames_length_le codec lawful frames
    have full := head.full
    obtain ⟨tail, _, rfl⟩ := head.image
    rw [List.length_append] at full
    rw [List.flatten_cons, List.length_append, List.length_cons, Nat.succ_mul]
    omega

theorem replay_holds (lawful : codec.Lawful) (holds : Holds codec format arena data) :
    replay codec format arena = .ok data := by
  obtain ⟨logs, log, front, active, next, inv, rfl⟩ := holds
  have sealedCount := flatten_length_le codec lawful inv.sealed
  have count := frames_length_le codec lawful log
  have enough : (logs.flatten ++ log).length < usedBytes format arena + 1 := by
    rw [List.length_append, usedBytes, inv.offset, ← inv.position]
    omega
  have walk := replayFrom_segments codec lawful inv inv.sealed [] rfl _ enough
  rw [List.length_nil, Nat.zero_mul] at walk
  exact walk

/-- Whatever appends, faults and reopenings a fresh arena goes through, opening its files once
more succeeds and replays exactly the payloads of the appends that returned `Ok`, in order. -/
theorem replay_run (lawful : codec.Lawful) (format : Format) (ops : List Op) :
    ∃ fresh last acknowledged reopened,
      openArena codec format [] = .ok fresh ∧
      run codec format fresh ops = .ok (last, acknowledged) ∧
      openArena codec format last.files = .ok reopened ∧
      replay codec format reopened = .ok acknowledged := by
  obtain ⟨fresh, opened, start⟩ := openArena_new codec lawful format
  obtain ⟨last, acknowledged, ran, kept⟩ := run_holds codec lawful ops start
  obtain ⟨reopened, success, held⟩ := openArena_holds codec lawful kept
  exact ⟨fresh, last, acknowledged, reopened, opened, ran, success, replay_holds codec lawful held⟩

/-- Two appends with a failed one between them, in a store of format 4 on a system that grows
its segments. -/
theorem replay_run_rolled_back :
    PlainCodec.codec.Lawful ∧ ∃ fresh last acknowledged reopened,
      openArena PlainCodec.codec ⟨4, true⟩ [] = .ok fresh ∧
      run PlainCodec.codec ⟨4, true⟩ fresh
        [.append [0x41] true .none, .append [0x42, 0x43] true ⟨none, none, true⟩,
          .append [0x44] true .none] = .ok (last, acknowledged) ∧
      openArena PlainCodec.codec ⟨4, true⟩ last.files = .ok reopened ∧
      replay PlainCodec.codec ⟨4, true⟩ reopened = .ok acknowledged :=
  ⟨PlainCodec.lawful, replay_run _ PlainCodec.lawful _ _⟩

end Warm.Arena
