import Warm.ArenaLayout
import Mathlib.Tactic.Choose

/-! The tail of a compaction. While writers go on appending to the live arena, the frames behind a cursor are
copied to the prepared one, call by call, up to the used bytes captured for the call. -/
namespace Warm.Arena

open Bytes Journal

/-- The messages of `replay_compaction_tail` and of the prepared arena's `append_frame`. -/
inductive TailError where
  | movedBackwards
  | truncatedHeader
  | header (error : ReadError)
  | emptyFrame
  | invalidLengths
  | exceedsBoundary
  | frame (cursor : Nat) (error : ReadError)
  | append (error : AppendError)
  | written (error : ReadError)
  | changed
  deriving DecidableEq, Repr

variable (codec : Codec)

/-- `PreparedCompaction::append_frame`: what was written is read back. -/
def appendFrame (target : Format) (prepared : Arena) (data : Bytes) (faults : Faults) : Arena × Except TailError Unit :=
  match writeFrame codec target prepared data false faults with
  | (prepared, .error e) => (prepared, .error (.append e))
  | (prepared, .ok offset) =>
    match readFrame codec target prepared offset with
    | .error e => (prepared, .error (.written e))
    | .ok (written, _) => if written = data then (prepared, .ok ()) else (prepared, .error .changed)

structure Replay where
  prepared : Arena
  cursor : Nat
  deriving DecidableEq, Repr

/-- One round of the loop. The header and the frame are read from the live arena one after the other: each sees what
the writers have made of it by then. The segments are mapped files, so the checked sums of offsets do not overflow. -/
def replayStep (source target : Format) (header frame : Arena) (stop : Nat) (faults : Faults) (state : Replay) :
    Replay × Except TailError Unit :=
  let segmentEnd := (state.cursor / source.segmentSize + 1) * source.segmentSize
  let headerEnd := state.cursor + headerSize
  if headerEnd > segmentEnd then
    if segmentEnd ≤ stop then ({ state with cursor := segmentEnd }, .ok ()) else (state, .error .truncatedHeader)
  else if headerEnd > stop then (state, .error .truncatedHeader)
  else
    match readSlice source header state.cursor headerSize with
    | .error e => (state, .error (.header e))
    | .ok bytes =>
      if isLogEnd bytes then
        if segmentEnd ≤ stop then ({ state with cursor := segmentEnd }, .ok ()) else (state, .error .emptyFrame)
      else
        match headerWords bytes with
        | none => (state, .error .truncatedHeader)
        | some h =>
          if (1 ≤ h.rawLen ∧ h.rawLen ≤ maxRawFrameSize) ∧ 1 ≤ h.compLen ∧ h.compLen ≤ h.rawLen then
            let next := headerEnd + h.compLen
            if next ≤ stop ∧ next ≤ segmentEnd then
              match readFrame codec source frame state.cursor with
              | .error e => (state, .error (.frame state.cursor e))
              | .ok (data, _) =>
                match appendFrame codec target state.prepared data faults with
                | (prepared, .error e) => ({ state with prepared }, .error e)
                | (prepared, .ok ()) => (⟨prepared, next⟩, .ok ())
            else (state, .error .exceedsBoundary)
          else (state, .error .invalidLengths)

/-- A call: the time its end was captured at, the times at which its rounds read, and the faults of its appends. -/
structure Call where
  captured : Nat
  stop : Nat
  header : Nat → Nat
  frame : Nat → Nat
  faults : Nat → Faults

/-- `None` for a loop that does not end within `fuel` rounds. -/
def replayLoop (source target : Format) (live : Nat → Arena) (call : Call) :
    Nat → Nat → Replay → Option (Replay × Except TailError Unit)
  | 0, _, _ => none
  | fuel + 1, round, state =>
    if state.cursor < call.stop then
      match replayStep codec source target (live (call.header round)) (live (call.frame round)) call.stop (call.faults round)
          state with
      | (state, .error e) => some (state, .error e)
      | (state, .ok ()) => replayLoop source target live call fuel (round + 1) state
    else some (state, .ok ())

def replayCompactionTail (source target : Format) (live : Nat → Arena) (call : Call) (state : Replay) :
    Option (Replay × Except TailError Unit) :=
  if state.cursor ≤ call.stop then replayLoop codec source target live call (call.stop - state.cursor + 1) 0 state
  else some (state, .error .movedBackwards)

/-- The calls of a compaction, up to the first that fails. -/
def replayCalls (source target : Format) (live : Nat → Arena) :
    List Call → Replay → Option (Replay × Except TailError Unit)
  | [], state => some (state, .ok ())
  | call :: calls, state =>
    match replayCompactionTail codec source target live call state with
    | none => none
    | some (state, .error e) => some (state, .error e)
    | some (state, .ok ()) => replayCalls source target live calls state

variable {codec} {source target : Format}

theorem readFrame_place (lawful : codec.Lawful) (layout : Layout codec format arena segments)
    (place : Place codec format segments passed before (frame :: after) later offset) :
    ∃ version, readFrame codec format arena offset = .ok (frame.data, version) := by
  obtain ⟨rest, mapped, _⟩ := layout.mapped place.segments
  have valid := frameAt_log codec lawful before after frame rest
  exact ⟨_, place.offset ▸ readFrame_eq codec mapped valid⟩

theorem appendFrame_holds (lawful : codec.Lawful) (holds : Holds codec target prepared data)
    (positive : 0 < payload.length) (bounded : payload.length ≤ maxRawFrameSize) (faults : Faults) :
    ∃ next, (appendFrame codec target prepared payload faults = (next, .ok ()) ∧ Holds codec target next (data ++ [payload])) ∨
      (∃ e, appendFrame codec target prepared payload faults = (next, .error e)) ∧ Holds codec target next data ∧
        faults ≠ .none := by
  obtain ⟨segments, layout, rfl⟩ := holds_iff.mp holds
  obtain ⟨segments', kept, _, outcome⟩ := writeFrame_layout lawful layout payload false faults
  generalize result : writeFrame codec target prepared payload false faults = written at kept outcome
  obtain ⟨next, value⟩ := written
  refine ⟨next, ?_⟩
  rcases outcome with ⟨front, before, frame, rfl, rfl, flat, rfl⟩ | ⟨flat, faulty, e, rfl⟩
  · left
    have place : Place codec target (front ++ [before ++ [frame]]) front before [frame] []
      (front.length * target.segmentSize + (logBytes codec before).length) := ⟨rfl, rfl⟩
    obtain ⟨version, read⟩ := readFrame_place lawful kept place
    refine ⟨?_, holds_iff.mpr ⟨_, kept, ?_⟩⟩
    · simp only [appendFrame, result, read, ↓reduceIte]
    · rw [flat, List.map_append]
      rfl
  · right
    refine ⟨⟨_, by simp only [appendFrame, result]; rfl⟩, holds_iff.mpr ⟨_, kept, by rw [flat]⟩, fun none => ?_⟩
    exact faulty ⟨none, positive, bounded⟩

section Round

variable {segments seen seen' passed later : List (List Frame)} {before after : List Frame} {header frame : Arena} {cursor stop : Nat}

theorem replayStep_frame (lawful : codec.Lawful)
    (place : Place codec source segments passed before (next :: after) later cursor)
    (layout : Layout codec source header seen) (extended : Extends segments seen)
    (layout' : Layout codec source frame seen') (extended' : Extends segments seen')
    (within : cursor + (next.encode codec).length ≤ stop) (prepared : Arena) (faults : Faults) :
    replayStep codec source target header frame stop faults ⟨prepared, cursor⟩ =
      match appendFrame codec target prepared next.data faults with
      | (prepared, .error e) => (⟨prepared, cursor⟩, .error e)
      | (prepared, .ok ()) => (⟨prepared, cursor + (next.encode codec).length⟩, .ok ()) := by
  obtain ⟨more, later', place', _⟩ := place.extends extended
  obtain ⟨_, _, place'', _⟩ := place.extends extended'
  obtain ⟨version, read⟩ := readFrame_place lawful layout' place''
  obtain ⟨rest, mapped, _⟩ := layout.mapped place'.segments
  have valid := frameAt_log codec lawful before (after ++ more) next rest
  have mapped : Mapped source header passed.length (logBytes codec (before ++ next :: (after ++ more)) ++ rest) := mapped
  have inside := valid.inside
  have compLen := valid.stored
  have rawLen := valid.bounded
  have shrunk := valid.shrunk
  have declared := mapped.declared
  have size := headerSize_eq
  have length : (next.encode codec).length = headerSize + (stored codec next.data).length := by
    rw [Frame.encode, encodeFrame_length]
  dsimp only at inside compLen rawLen shrunk
  rw [length] at within
  have slot : readSlice source header cursor headerSize = .ok (slice (logBytes codec (before ++ next :: (after ++ more)) ++ rest)
      (logBytes codec before).length headerSize) := by
    rw [place.offset]
    exact readSlice_eq mapped (by omega) (by omega)
  have words := headerWords_slice valid.header valid.header_inside
  have segment : cursor / source.segmentSize = passed.length := by
    rw [place.offset, offset_div _ _ _ (by omega)]
  have segmentEnd : cursor + headerSize + (stored codec next.data).length ≤ (passed.length + 1) * source.segmentSize := by
    rw [place.offset, Nat.succ_mul]
    omega
  rw [replayStep]
  dsimp only
  rw [segment, if_neg (by omega), if_neg (by omega), slot]
  dsimp only
  rw [isLogEnd_frame codec valid, words]
  dsimp only
  rw [if_neg Bool.false_ne_true, if_pos ⟨⟨by omega, rawLen⟩, compLen, shrunk⟩, if_pos ⟨by omega, segmentEnd⟩, read, length,
    Nat.add_assoc]

theorem replayStep_padding (place : Place codec source segments passed before [] later cursor) (sealed : later ≠ [])
    (layout : Layout codec source header seen) (extended : Extends segments seen)
    (inside : cursor < (passed.length + 1) * source.segmentSize) (within : (passed.length + 1) * source.segmentSize ≤ stop)
    (prepared : Arena) (faults : Faults) :
    replayStep codec source target header frame stop faults ⟨prepared, cursor⟩ =
      (⟨prepared, (passed.length + 1) * source.segmentSize⟩, .ok ()) := by
  obtain ⟨more, later', place', rest⟩ := place.extends extended
  obtain ⟨rfl, behind⟩ := rest sealed
  obtain ⟨tail, mapped, clean⟩ := layout.mapped place'.segments
  obtain ⟨isTail, full⟩ := clean behind
  rw [List.append_nil, List.append_nil] at mapped full
  have segment : cursor / source.segmentSize = passed.length := by
    rw [place.offset, Nat.succ_mul] at inside
    rw [place.offset, offset_div _ _ _ (by omega)]
  rw [replayStep]
  dsimp only
  rw [segment]
  by_cases padding : cursor + headerSize > (passed.length + 1) * source.segmentSize
  · rw [if_pos padding, if_pos within]
  · have room : (logBytes codec before).length + headerSize ≤ (logBytes codec before ++ tail).length := by
      rw [place.offset, Nat.succ_mul] at padding
      omega
    have slot : readSlice source header cursor headerSize =
        .ok (slice (logBytes codec before ++ tail) (logBytes codec before).length headerSize) := by
      have := headerSize_eq
      rw [place.offset]
      exact readSlice_eq mapped (by omega) room
    have ends := isLogEnd_tail (List.drop_left.symm ▸ isTail) room
    rw [if_neg padding, if_neg (by omega), slot]
    dsimp only
    rw [if_pos ends, if_pos within]

end Round

/-- What rounds from `cursor` toward `stop` have done: the frames up to the cursor they reached are copied. -/
structure Progress (codec : Codec) (source target : Format) (segments : List (List Frame)) (cursor stop : Nat) (data : List Bytes)
    (faultless : Prop) (last : Replay) (result : Except TailError Unit) : Prop where
  boundary : Boundary codec source segments last.cursor
  lower : cursor ≤ last.cursor
  upper : last.cursor ≤ stop
  copied : Holds codec target last.prepared (data ++ framesIn codec source segments cursor last.cursor)
  finished : result = .ok () → last.cursor = stop
  succeeds : faultless → result = .ok ()

/-- Reads of a log that has the frames of `segments`, and perhaps more. -/
def Sees (codec : Codec) (source : Format) (segments : List (List Frame)) (arena : Arena) : Prop :=
  ∃ seen, Layout codec source arena seen ∧ Extends segments seen

section Loop

variable {segments : List (List Frame)} {cursor middle stop : Nat} {data : List Bytes} {faultless : Prop} {last : Replay}
  {result : Except TailError Unit}

theorem Progress.none (boundary : Boundary codec source segments cursor) (within : cursor ≤ stop)
    (holds : Holds codec target prepared data) (done : result = .ok () → cursor = stop)
    (succeeds : faultless → result = .ok ()) :
    Progress codec source target segments cursor stop data faultless ⟨prepared, cursor⟩ result := by
  refine ⟨boundary, Nat.le_refl _, within, ?_, done, succeeds⟩
  rwa [framesIn_empty, List.append_nil]

theorem Progress.behind (lawful : codec.Lawful) (short : Short codec source segments) (reached : Boundary codec source segments middle)
    (first : cursor ≤ middle)
    (later : Progress codec source target segments middle stop (data ++ framesIn codec source segments cursor middle) faultless last result) :
    Progress codec source target segments cursor stop data faultless last result := by
  obtain ⟨_, _, _, _, place⟩ := reached
  refine ⟨later.boundary, Nat.le_trans first later.lower, later.upper, ?_, later.finished, later.succeeds⟩
  rw [← place.framesIn_append lawful short first later.lower, ← List.append_assoc]
  exact later.copied

theorem replayLoop_progress (lawful : codec.Lawful) (short : Short codec source segments)
    (header : ∀ round, Sees codec source segments (live (call.header round)))
    (frame : ∀ round, Sees codec source segments (live (call.frame round)))
    (finish : Boundary codec source segments call.stop) (fuel round : Nat)
    (start : Boundary codec source segments cursor) (ordered : cursor ≤ call.stop)
    (holds : Holds codec target prepared data) (enough : call.stop - cursor < fuel) :
    ∃ last result, replayLoop codec source target live call fuel round ⟨prepared, cursor⟩ = some (last, result) ∧
      Progress codec source target segments cursor call.stop data (∀ round, call.faults round = .none) last result := by
  induction fuel generalizing round prepared cursor data with
  | zero => omega
  | succ fuel ih =>
    rw [replayLoop]
    by_cases below : cursor < call.stop
    · obtain ⟨seen, layout, extended⟩ := header round
      obtain ⟨seen', layout', extended'⟩ := frame round
      obtain ⟨passed, before, after, later, place, inside⟩ := Boundary.inside lawful start finish short below
      rw [if_pos below]
      cases after with
      | nil =>
        obtain ⟨sealed, within⟩ := place.segment_le finish short below
        rw [replayStep_padding place sealed layout extended inside within]
        cases later with
        | nil => exact absurd rfl sealed
        | cons frames later =>
          have reached : Boundary codec source segments ((passed.length + 1) * source.segmentSize) :=
            ⟨_, _, _, _, place.following⟩
          have none : framesIn codec source segments cursor ((passed.length + 1) * source.segmentSize) = [] := by
            rw [place.framesIn_following lawful short, framesIn_empty]
          obtain ⟨last, result, ran, progress⟩ := ih (round + 1) reached within
            (by rwa [none, List.append_nil] : Holds codec target prepared (data ++ framesIn codec source segments cursor _)) (by omega)
          exact ⟨last, result, ran, progress.behind lawful short reached (Nat.le_of_lt inside)⟩
      | cons next after =>
        have within := place.frame_le finish short below
        have positive := encode_pos codec lawful next
        have reached : Boundary codec source segments (cursor + (next.encode codec).length) := ⟨_, _, _, _, place.next⟩
        have one : framesIn codec source segments cursor (cursor + (next.encode codec).length) = [next.data] := by
          rw [place.framesIn_frame lawful short (by omega), framesIn_empty]
        rw [replayStep_frame lawful place layout extended layout' extended' within]
        obtain ⟨appended, ⟨ok, holds'⟩ | ⟨⟨e, failed⟩, holds', faulty⟩⟩ :=
          appendFrame_holds lawful holds next.nonempty next.bounded (call.faults round)
        · rw [ok]
          obtain ⟨last, result, ran, progress⟩ := ih (round + 1) reached within
            (by rwa [one] : Holds codec target appended (data ++ framesIn codec source segments cursor _)) (by omega)
          exact ⟨last, result, ran, progress.behind lawful short reached (Nat.le_add_right _ _)⟩
        · rw [failed]
          exact ⟨_, _, rfl, .none start ordered holds' nofun fun faultless => absurd (faultless round) faulty⟩
    · rw [if_neg below]
      exact ⟨_, _, rfl, .none start ordered holds (fun _ => by omega) fun _ => rfl⟩

end Loop

/-- Calls one after the other, with growing ends that are frame boundaries when they are captured. -/
def Ordered (codec : Codec) (source : Format) (segments : Nat → List (List Frame)) : Nat → Nat → List Call → Prop
  | _, _, [] => True
  | time, cursor, call :: calls =>
    time ≤ call.captured ∧ (∀ round, call.captured ≤ call.header round ∧ call.captured ≤ call.frame round) ∧
      cursor ≤ call.stop ∧ Boundary codec source (segments call.captured) call.stop ∧
      Ordered codec source segments call.captured call.stop calls

def ending : Nat → Nat → List Call → Nat × Nat
  | time, cursor, [] => (time, cursor)
  | _, _, call :: calls => ending call.captured call.stop calls

section Calls

variable {live : Nat → Arena} {segments : Nat → List (List Frame)}

theorem extends_later (layouts : ∀ time, Layout codec source (live time) (segments time))
    (steps : ∀ time, Extends (segments time) (segments (time + 1))) (ordered : early ≤ late) :
    Extends (segments early) (segments late) := by
  induction ordered with
  | refl => exact (layouts early).extends_refl
  | step _ ih => exact ih.trans (steps _)

theorem ending_ordered (calls : List Call) (ordered : Ordered codec source segments time cursor calls) :
    time ≤ (ending time cursor calls).1 ∧ cursor ≤ (ending time cursor calls).2 := by
  induction calls generalizing time cursor with
  | nil => exact ⟨Nat.le_refl _, Nat.le_refl _⟩
  | cons call calls ih =>
    obtain ⟨began, _, grows, _, rest⟩ := ordered
    obtain ⟨times, ends⟩ := ih rest
    exact ⟨Nat.le_trans began times, Nat.le_trans grows ends⟩

theorem replayCalls_progress (lawful : codec.Lawful) (layouts : ∀ time, Layout codec source (live time) (segments time))
    (steps : ∀ time, Extends (segments time) (segments (time + 1))) (calls : List Call)
    (ordered : Ordered codec source segments time cursor calls) (start : Boundary codec source (segments time) cursor)
    (holds : Holds codec target prepared data) :
    ∃ last result, replayCalls codec source target live calls ⟨prepared, cursor⟩ = some (last, result) ∧
      Progress codec source target (segments (ending time cursor calls).1) cursor (ending time cursor calls).2 data
        (∀ call ∈ calls, ∀ round, call.faults round = .none) last result := by
  induction calls generalizing time cursor prepared data with
  | nil => exact ⟨_, _, rfl, .none start (Nat.le_refl _) holds (fun _ => rfl) fun _ => rfl⟩
  | cons call calls ih =>
    obtain ⟨began, reads, grows, finish, rest⟩ := ordered
    have sees (late : Nat) (after : call.captured ≤ late) : Sees codec source (segments call.captured) (live late) :=
      ⟨_, layouts late, extends_later layouts steps after⟩
    obtain ⟨last, result, ran, progress⟩ := replayLoop_progress lawful (layouts call.captured).short
      (fun round => sees _ (reads round).1) (fun round => sees _ (reads round).2) finish (call.stop - cursor + 1) 0
      (start.extends (extends_later layouts steps began)) grows holds (Nat.lt_succ_self _)
    obtain ⟨times, ends⟩ := ending_ordered calls rest
    have extended := extends_later layouts steps times
    rw [replayCalls, replayCompactionTail, if_pos grows, ran, ending]
    have kept := progress.boundary.extends extended
    have copied := progress.copied
    rw [← progress.boundary.framesIn_extends lawful (layouts _).short (layouts _).short extended] at copied
    cases result with
    | error e =>
      refine ⟨last, .error e, rfl, kept, progress.lower, Nat.le_trans progress.upper ends, copied, nofun, ?_⟩
      exact fun faultless => progress.succeeds (faultless call List.mem_cons_self)
    | ok =>
      obtain ⟨prepared', cursor'⟩ := last
      have arrived : cursor' = call.stop := progress.finished rfl
      subst arrived
      obtain ⟨last, result, ran, later⟩ := ih rest finish copied
      have later := later.behind lawful (layouts _).short kept progress.lower
      exact ⟨last, result, ran, later.boundary, later.lower, later.upper, later.copied, later.finished,
        fun faultless => later.succeeds (List.forall_mem_cons.mp faultless).2⟩

end Calls

theorem exists_layouts (lawful : codec.Lawful) (live : Nat → Arena) (written : List Bytes) (begins : Holds codec source (live 0) written)
    (appends : ∀ time, ∃ payload durable faults, live (time + 1) = (writeFrame codec source (live time) payload durable faults).1) :
    ∃ segments : Nat → List (List Frame), (∀ time, Layout codec source (live time) (segments time)) ∧
      ∀ time, Extends (segments time) (segments (time + 1)) := by
  obtain ⟨first, layout, _⟩ := holds_iff.mp begins
  have step (time : Nat) (now : { segments // Layout codec source (live time) segments }) :
      ∃ after : { segments // Layout codec source (live (time + 1)) segments }, Extends now.1 after.1 := by
    obtain ⟨payload, durable, faults, arena⟩ := appends time
    obtain ⟨segments', kept, extended, _⟩ := writeFrame_layout lawful now.2 payload durable faults
    exact ⟨⟨segments', arena ▸ kept⟩, extended⟩
  choose after extended using step
  let segments (time : Nat) : { segments // Layout codec source (live time) segments } := Nat.rec ⟨first, layout⟩ after time
  exact ⟨fun time => (segments time).1, fun time => (segments time).2, fun time => extended time (segments time)⟩

/-- Whatever writers append, and with any of their faults, calls with growing ends copy the frames between the first cursor
and the last end, each once and in order. The cursor then is that end. -/
theorem replayCompactionTail_copies (lawful : codec.Lawful) (source target : Format) (live : Nat → Arena) (written : List Bytes)
    (begins : Holds codec source (live 0) written)
    (appends : ∀ time, ∃ payload durable faults, live (time + 1) = (writeFrame codec source (live time) payload durable faults).1) :
    ∃ segments : Nat → List (List Frame), (∀ time, Layout codec source (live time) (segments time) ∧
        Boundary codec source (segments time) 0 ∧ Boundary codec source (segments time) (usedBytes source (live time)) ∧
        replay codec source (live time) = .ok (framesIn codec source (segments time) 0 (usedBytes source (live time)))) ∧
      ∀ (time cursor : Nat) (calls : List Call) (prepared : Arena) (copied : List Bytes),
        Boundary codec source (segments time) cursor → Ordered codec source segments time cursor calls →
        Holds codec target prepared copied →
        ∃ last result, replayCalls codec source target live calls ⟨prepared, cursor⟩ = some (last, result) ∧
          Boundary codec source (segments (ending time cursor calls).1) last.cursor ∧
          Holds codec target last.prepared
            (copied ++ framesIn codec source (segments (ending time cursor calls).1) cursor last.cursor) ∧
          (result = .ok () → last.cursor = (ending time cursor calls).2) ∧
          ((∀ call ∈ calls, ∀ round, call.faults round = .none) → result = .ok ()) := by
  obtain ⟨segments, layouts, steps⟩ := exists_layouts lawful live written begins appends
  refine ⟨segments, fun time => ?_, ?_⟩
  · have first := (layouts time).boundary_zero
    obtain ⟨front, last, place⟩ := (layouts time).usedBytes
    refine ⟨layouts time, first, ⟨_, _, _, _, place⟩, ?_⟩
    rw [(layouts time).framesIn_all lawful]
    exact replay_holds codec lawful (holds_iff.mpr ⟨_, layouts time, rfl⟩)
  · intro time cursor calls prepared copied start ordered holds
    obtain ⟨last, result, ran, progress⟩ := replayCalls_progress lawful layouts steps calls ordered start holds
    exact ⟨last, result, ran, progress.boundary, progress.copied, progress.finished, progress.succeeds⟩

theorem writeFrame_faultless (lawful : codec.Lawful) (holds : Holds codec format arena data) (payload : Bytes)
    (positive : 0 < payload.length) (bounded : payload.length ≤ maxRawFrameSize) (durable : Bool) :
    Holds codec format (writeFrame codec format arena payload durable .none).1 (data ++ [payload]) := by
  obtain ⟨segments, layout, rfl⟩ := holds_iff.mp holds
  obtain ⟨segments', kept, _, ⟨_, _, frame, _, rfl, flat, _⟩ | ⟨_, faulty, _⟩⟩ := writeFrame_layout lawful layout payload durable .none
  · refine holds_iff.mpr ⟨segments', kept, ?_⟩
    rw [flat, List.map_append]
    rfl
  · exact absurd ⟨rfl, positive, bounded⟩ faulty

theorem usedBytes_writeFrame (lawful : codec.Lawful) (holds : Holds codec format arena data) (payload : Bytes)
    (durable : Bool) (faults : Faults) :
    usedBytes format arena ≤ usedBytes format (writeFrame codec format arena payload durable faults).1 := by
  obtain ⟨segments, layout, _⟩ := holds_iff.mp holds
  obtain ⟨segments', kept, extended, _⟩ := writeFrame_layout lawful layout payload durable faults
  obtain ⟨_, _, place⟩ := layout.usedBytes
  exact kept.boundary_le (Boundary.extends ⟨_, _, _, _, place⟩ extended)

/-- A writer appends the payload `[1]` over and over. -/
def repeated (fresh : Arena) : Nat → Arena
  | 0 => fresh
  | time + 1 => (writeFrame PlainCodec.codec ⟨4, true⟩ (repeated fresh time) [1] false .none).1

/-- Two calls that read a log of two frames and more. -/
theorem replayCompactionTail_copies_two :
    ∃ fresh last, openArena PlainCodec.codec ⟨4, true⟩ [] = .ok fresh ∧
      replayCalls PlainCodec.codec ⟨4, true⟩ ⟨4, true⟩ (repeated fresh)
        [⟨1, usedBytes ⟨4, true⟩ (repeated fresh 1), fun _ => 2, fun _ => 3, fun _ => .none⟩,
          ⟨2, usedBytes ⟨4, true⟩ (repeated fresh 2), fun _ => 2, fun round => 3 + round, fun _ => .none⟩] ⟨fresh, 0⟩ =
          some (last, .ok ()) ∧
      last.cursor = usedBytes ⟨4, true⟩ (repeated fresh 2) ∧ Holds PlainCodec.codec ⟨4, true⟩ last.prepared [[1], [1]] := by
  obtain ⟨fresh, opened, empty⟩ := openArena_new PlainCodec.codec PlainCodec.lawful ⟨4, true⟩
  have one := writeFrame_faultless PlainCodec.lawful empty [1] (by decide) (by decide) false
  have two := writeFrame_faultless PlainCodec.lawful one [1] (by decide) (by decide) false
  have grown : usedBytes ⟨4, true⟩ (repeated fresh 1) ≤ usedBytes ⟨4, true⟩ (repeated fresh 2) :=
    usedBytes_writeFrame PlainCodec.lawful one [1] false .none
  obtain ⟨segments, logs, copies⟩ := replayCompactionTail_copies PlainCodec.lawful ⟨4, true⟩ ⟨4, true⟩ (repeated fresh) []
    empty fun time => ⟨[1], false, .none, rfl⟩
  obtain ⟨last, result, ran, _, copied, finished, succeeds⟩ := copies 0 0
    [⟨1, usedBytes ⟨4, true⟩ (repeated fresh 1), fun _ => 2, fun _ => 3, fun _ => .none⟩,
      ⟨2, usedBytes ⟨4, true⟩ (repeated fresh 2), fun _ => 2, fun round => 3 + round, fun _ => .none⟩] fresh []
    (logs 0).2.1
    ⟨Nat.zero_le 1, fun _ => ⟨(by decide : 1 ≤ 2), (by decide : 1 ≤ 3)⟩, Nat.zero_le _, (logs 1).2.2.1, (by decide : 1 ≤ 2),
      fun round => ⟨Nat.le_refl 2, (by omega : 2 ≤ 3 + round)⟩, grown, (logs 2).2.2.1, trivial⟩ empty
  obtain rfl := succeeds fun call member round => by
    rcases List.mem_cons.mp member with rfl | rest
    · rfl
    · rw [List.mem_singleton.mp rest]
  have arrived := finished rfl
  have same := (logs 2).2.2.2.symm.trans (replay_holds PlainCodec.codec PlainCodec.lawful two)
  refine ⟨fresh, last, opened, ran, arrived, ?_⟩
  change Holds _ _ _ ([] ++ framesIn _ _ (segments 2) 0 last.cursor) at copied
  rw [arrived] at copied
  change Holds _ _ _ ([] ++ framesIn _ _ (segments 2) 0 (usedBytes ⟨4, true⟩ (repeated fresh 2))) at copied
  rwa [Except.ok.inj same] at copied

end Warm.Arena
