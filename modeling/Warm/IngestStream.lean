import Warm.ApiError
import Warm.Lines

/-! Newline-delimited ingest: the body arrives in frames, and its lines are committed in groups. The
reader carries the unfinished line and how much of it was searched from frame to frame; what it hands
over is what a split of the whole body at its newlines gives. -/
namespace Warm.Server

open List

open Lines (NEWLINE)

structure LineError where
  line : Nat
  message : String

structure StreamTally where
  added : Nat
  rejected : Nat
  errors : List LineError

def MAX_REPORTED_LINE_ERRORS : Nat := 100

def StreamTally.reject (tally : StreamTally) (line : Nat) (message : String) : StreamTally where
  added := tally.added
  rejected := tally.rejected + 1
  errors := if tally.errors.length < MAX_REPORTED_LINE_ERRORS then tally.errors ++ [⟨line, message⟩] else tally.errors

def StreamTally.apply (tally : StreamTally) (committed : Nat × List (Nat × String)) : StreamTally :=
  committed.2.foldl (fun tally entry => tally.reject entry.1 entry.2) { tally with added := tally.added + committed.1 }

structure StreamResult where
  added : Nat
  rejected : Nat
  errors : List LineError
  errorsTruncated : Bool

structure StreamConfig where
  streamBatch : Nat
  maxStreamLineBytes : Nat
  maxStreamBytes : Nat

inductive Frame where
  | data (bytes : Bytes)
  | trailers

def Frame.bytes : Frame → Bytes
  | .data bytes => bytes
  | .trailers => []

/-- A line that is not blank, trimmed, with its number. -/
abbrev NumberedLine := Nat × Bytes

abbrev Group := List NumberedLine

inductive Stop where
  | panicked
  | api (error : ApiError)

/-- Why the stream stopped, and the groups that were handed over before. -/
structure Stopped where
  groups : List Group
  stop : Stop

structure Handed where
  tally : StreamTally
  groups : List Group

structure Gathered where
  handed : Handed
  lines : Group

structure Stream where
  pending : Gathered
  lineNo : Nat

structure Reader where
  buffer : Bytes
  scanned : Nat
  total : Nat
  stream : Stream

def tooLarge (message : String) : Stop := .api (.new ⟨413⟩ "payload_too_large" message)

def isAsciiWhitespace (b : UInt8) : Bool := b = 32 || b = 9 || b = 10 || b = 12 || b = 13

def trimAscii (line : Bytes) : Bytes :=
  ((line.dropWhile isAsciiWhitespace).reverse.dropWhile isAsciiWhitespace).reverse

namespace IngestStream

variable (cfg : StreamConfig) (commitGroup : List Group → Group → Except ApiError (Nat × List (Nat × String)))

def lineTooLong (handed : Handed) (line : Nat) : Stopped :=
  ⟨handed.groups, tooLarge ("line " ++ toString line ++ " exceeds " ++ toString cfg.maxStreamLineBytes ++ " bytes")⟩

def hand (handed : Handed) (group : Group) : Except Stopped Handed :=
  match commitGroup handed.groups group with
  | .ok committed => .ok ⟨handed.tally.apply committed, handed.groups ++ [group]⟩
  | .error error => .error ⟨handed.groups ++ [group], .api error⟩

def push (pending : Gathered) (line : NumberedLine) : Except Stopped Gathered :=
  let lines := pending.lines ++ [line]
  if lines.length = cfg.streamBatch then do return ⟨← hand commitGroup pending.handed lines, []⟩
  else return ⟨pending.handed, lines⟩

def endLine (stream : Stream) (line : Bytes) : Except Stopped Stream :=
  if cfg.maxStreamLineBytes < line.length then throw (lineTooLong cfg stream.pending.handed (stream.lineNo + 1))
  else if trimAscii line = [] then return ⟨stream.pending, stream.lineNo + 1⟩
  else do return ⟨← push cfg commitGroup stream.pending (stream.lineNo + 1, trimAscii line), stream.lineNo + 1⟩

def scan (buffer : Bytes) (stream : Stream) (start scanned : Nat) : Except Stopped (Stream × Nat) :=
  if buffer.length < scanned then throw ⟨stream.pending.handed.groups, .panicked⟩
  else match found : (buffer.drop scanned).findIdx? fun b => b = NEWLINE with
    | none => return (stream, start)
    | some offset =>
      let stop := scanned + offset
      if stop < start ∨ buffer.length < stop then throw ⟨stream.pending.handed.groups, .panicked⟩
      else do
        let stream ← endLine cfg commitGroup stream ((buffer.take stop).drop start)
        scan buffer stream (stop + 1) (stop + 1)
termination_by buffer.length - scanned
decreasing_by
  have inside := (findIdx?_eq_some_iff_findIdx_eq.mp found).1
  rw [length_drop] at inside
  omega

def advance (reader : Reader) : Except Stopped Reader := do
  let (stream, start) ← scan cfg commitGroup reader.buffer reader.stream 0 reader.scanned
  if reader.buffer.length < start then throw ⟨stream.pending.handed.groups, .panicked⟩
  else
    let buffer := reader.buffer.drop start
    if cfg.maxStreamLineBytes < buffer.length then throw (lineTooLong cfg stream.pending.handed (stream.lineNo + 1))
    else return ⟨buffer, buffer.length, reader.total, stream⟩

def readFrames (reader : Reader) : List (Except ApiError Frame) → Except Stopped Reader
  | [] => advance cfg commitGroup reader
  | .error error :: _ => throw ⟨reader.stream.pending.handed.groups, .api error⟩
  | .ok .trailers :: frames => readFrames reader frames
  | .ok (.data data) :: frames =>
    let total := reader.total + data.length
    if cfg.maxStreamBytes < total then
      throw ⟨reader.stream.pending.handed.groups,
        tooLarge ("stream exceeds " ++ toString cfg.maxStreamBytes ++ " bytes")⟩
    else do
      let reader ← advance cfg commitGroup { reader with buffer := reader.buffer ++ data, total }
      readFrames reader frames

def respond (handed : Handed) : List Group × StreamResult :=
  (handed.groups, ⟨handed.tally.added, handed.tally.rejected, handed.tally.errors,
    handed.tally.errors.length < handed.tally.rejected⟩)

def finish (buffer : Bytes) (stream : Stream) : Except Stopped (List Group × StreamResult) := do
  let last := trimAscii buffer
  let lines := if last = [] then stream.pending.lines else stream.pending.lines ++ [(stream.lineNo + 1, last)]
  if lines = [] then return respond stream.pending.handed
  else return respond (← hand commitGroup stream.pending.handed lines)

def start : Handed := ⟨⟨0, 0, []⟩, []⟩

/-- The groups that were handed over, with the response or what stopped the stream. -/
def ingestStream (frames : List (Except ApiError Frame)) : Except Stopped (List Group × StreamResult) := do
  let reader ← readFrames cfg commitGroup ⟨[], 0, 0, ⟨⟨start, []⟩, 0⟩⟩ frames
  finish commitGroup reader.buffer reader.stream

/-- The pieces of `data` between its newlines, the first one behind `line`. -/
def splitLines (line : Bytes) : Bytes → List Bytes
  | [] => [line]
  | b :: data => if b = NEWLINE then line :: splitLines [] data else splitLines (line ++ [b]) data

/-- The lines that are not blank, by their places behind the first `before` ones. -/
def numbered (before : Nat) : List Bytes → List NumberedLine
  | [] => []
  | line :: lines =>
    if trimAscii line = [] then numbered (before + 1) lines
    else (before + 1, trimAscii line) :: numbered (before + 1) lines

/-- The consecutive blocks of `n`, and what is left behind them. -/
def blocks (n : Nat) (lines : Group) : List Group × Group :=
  if 0 < n ∧ n ≤ lines.length then
    (lines.take n :: (blocks n (lines.drop n)).1, (blocks n (lines.drop n)).2)
  else ([], lines)
termination_by lines.length
decreasing_by all_goals (rw [length_drop]; omega)

/-- The stream as one text: its lines up to the first that is too long. -/
def ingestWhole (data : Bytes) : Except Stopped (List Group × StreamResult) := do
  let lines := splitLines [] data
  let fitting := lines.takeWhile fun line => line.length ≤ cfg.maxStreamLineBytes
  let (groups, rest) := blocks cfg.streamBatch (numbered 0 fitting)
  let handed ← groups.foldlM (hand commitGroup) start
  if fitting.length < lines.length then throw (lineTooLong cfg handed (fitting.length + 1))
  else if rest = [] then return respond handed
  else return respond (← hand commitGroup handed rest)

section Feed

/-- The bytes one after the other, behind an unfinished line. -/
def feed (line : Bytes) (stream : Stream) : Bytes → Except Stopped (Bytes × Stream)
  | [] => return (line, stream)
  | b :: data =>
    if b = NEWLINE then do feed [] (← endLine cfg commitGroup stream line) data
    else feed (line ++ [b]) stream data

def checkLine (state : Bytes × Stream) : Except Stopped (Bytes × Stream) :=
  if cfg.maxStreamLineBytes < state.1.length then
    throw (lineTooLong cfg state.2.pending.handed (state.2.lineNo + 1))
  else return state

variable {cfg commitGroup}

section

variable (line : Bytes) (stream : Stream)
include line stream

theorem feed_append (first second : Bytes) :
    feed cfg commitGroup line stream (first ++ second) =
      feed cfg commitGroup line stream first >>= fun state => feed cfg commitGroup state.1 state.2 second := by
  induction first generalizing line stream with
  | nil => rfl
  | cons b first ih =>
    rw [cons_append, feed, feed]
    split
    · simp only [ih, bind_assoc]
    · exact ih ..

theorem feed_line (rest : Bytes) (single : NEWLINE ∉ text) :
    feed cfg commitGroup line stream (text ++ NEWLINE :: rest) =
      endLine cfg commitGroup stream (line ++ text) >>= fun stream => feed cfg commitGroup [] stream rest := by
  induction text generalizing line with
  | nil => simp [feed]
  | cons b text ih =>
    rw [mem_cons, not_or] at single
    rw [cons_append, feed, if_neg (Ne.symm single.1), ih _ single.2, append_assoc]
    rfl

theorem feed_open (single : NEWLINE ∉ text) :
    feed cfg commitGroup line stream text = pure (line ++ text, stream) := by
  induction text generalizing line with
  | nil => simp [feed]
  | cons b text ih =>
    rw [mem_cons, not_or] at single
    rw [feed, if_neg (Ne.symm single.1), ih _ single.2, append_assoc]
    rfl

theorem feed_long (data : Bytes) (long : cfg.maxStreamLineBytes < line.length) :
    feed cfg commitGroup line stream data >>= checkLine cfg =
      throw (lineTooLong cfg stream.pending.handed (stream.lineNo + 1)) := by
  induction data generalizing line with
  | nil => simp [feed, checkLine, long]
  | cons b data ih =>
    rw [feed]
    split
    · rw [endLine, if_pos long]
      rfl
    · exact ih _ (by simp; omega)

end

theorem checkLine_feed (state : Bytes × Stream) (data : Bytes) :
    (checkLine cfg state >>= fun state => feed cfg commitGroup state.1 state.2 data >>= checkLine cfg) =
      feed cfg commitGroup state.1 state.2 data >>= checkLine cfg := by
  by_cases long : cfg.maxStreamLineBytes < state.1.length
  · rw [feed_long _ _ _ long, checkLine, if_pos long]
    rfl
  · rw [checkLine, if_neg long]
    rfl

/-- The search of the buffer behind what was searched before feeds its bytes, and reads nothing behind them. -/
theorem scan_feed (front line data : Bytes) (stream : Stream) :
    (scan cfg commitGroup (front ++ (line ++ data)) stream front.length (front.length + line.length) >>= fun state =>
      if (front ++ (line ++ data)).length < state.2 then throw ⟨state.1.pending.handed.groups, .panicked⟩
      else pure ((front ++ (line ++ data)).drop state.2, state.1)) =
      feed cfg commitGroup line stream data := by
  induction size : data.length using Nat.strong_induction_on generalizing front line data stream with
  | _ size ih =>
    have behind : (front ++ (line ++ data)).drop (front.length + line.length) = data := by
      rw [← append_assoc, ← length_append, drop_left]
    rw [scan, if_neg (by simp)]
    split
    next found =>
      rw [behind, findIdx?_eq_none_iff] at found
      have single : NEWLINE ∉ data := fun member => by simpa using found _ member
      rw [feed_open _ _ single]
      simp
    next offset found =>
      rw [behind, findIdx?_eq_some_iff_getElem] at found
      obtain ⟨inside, hit, before⟩ := found
      obtain ⟨text, rest, rfl, rfl⟩ : ∃ text rest, data = text ++ NEWLINE :: rest ∧ text.length = offset := by
        refine ⟨data.take offset, data.drop (offset + 1), ?_, length_take_of_le inside.le⟩
        rw [← of_decide_eq_true hit, getElem_cons_drop, take_append_drop]
      have single : NEWLINE ∉ text := by
        intro member
        obtain ⟨i, small, own⟩ := mem_iff_getElem.mp member
        have other := before i small
        rw [getElem_append_left small] at other
        simp [own] at other
      have slice : ((front ++ (line ++ (text ++ NEWLINE :: rest))).take (front.length + line.length + text.length)).drop
          front.length = line ++ text := by
        have whole : front ++ (line ++ (text ++ NEWLINE :: rest)) = (front ++ (line ++ text)) ++ NEWLINE :: rest := by simp
        have size : front.length + line.length + text.length = (front ++ (line ++ text)).length := by simp; omega
        rw [whole, size, take_left, drop_left]
      rw [if_neg (by simp; omega), slice, feed_line _ _ _ single, bind_assoc]
      congr 1
      funext next
      have again := ih rest.length (by simp at size; omega) (front ++ (line ++ (text ++ [NEWLINE]))) [] rest next rfl
      simp only [append_assoc, nil_append, cons_append, length_append, length_cons,
        length_nil, Nat.add_zero] at again ⊢
      rw [← again]
      congr 2 <;> omega

end Feed

variable {cfg commitGroup}

theorem advance_feed (buffer data : Bytes) (total : Nat) (stream : Stream) :
    advance cfg commitGroup ⟨buffer ++ data, buffer.length, total, stream⟩ = (do
      let state ← feed cfg commitGroup buffer stream data >>= checkLine cfg
      return ⟨state.1, state.1.length, total, state.2⟩) := by
  have fed := @scan_feed cfg commitGroup [] buffer data stream
  simp only [nil_append, length_nil, Nat.zero_add] at fed
  rw [advance, ← fed]
  simp only [bind_assoc]
  congr 1
  funext ⟨stream, start⟩
  split
  · rfl
  · rw [pure_bind, checkLine]
    split <;> rfl

theorem readFrames_feed (frames : List Frame) (buffer : Bytes) (total : Nat) (stream : Stream)
    (fits : total + (frames.flatMap Frame.bytes).length ≤ cfg.maxStreamBytes) :
    (readFrames cfg commitGroup ⟨buffer, buffer.length, total, stream⟩ (frames.map .ok) >>= fun reader =>
      pure (reader.buffer, reader.stream)) =
      feed cfg commitGroup buffer stream (frames.flatMap Frame.bytes) >>= checkLine cfg := by
  induction frames generalizing buffer total stream with
  | nil =>
    have ended := @advance_feed cfg commitGroup buffer [] total stream
    rw [append_nil] at ended
    rw [map_nil, readFrames, ended]
    simp
  | cons frame frames ih =>
    rw [flatMap_cons, length_append] at fits
    cases frame with
    | trailers => simpa [readFrames, Frame.bytes] using ih buffer total stream (by simpa [Frame.bytes] using fits)
    | data data =>
      rw [Frame.bytes] at fits
      rw [map_cons, readFrames]
      dsimp only
      rw [if_neg (by omega), advance_feed]
      simp only [bind_assoc, pure_bind, flatMap_cons, Frame.bytes, feed_append]
      congr 1
      funext state
      rw [← checkLine_feed]
      congr 1
      funext state
      exact ih state.1 (total + data.length) state.2 (by omega)

/-- The groups that are full when the stream ends are handed over by then; the rest follows. -/
def flush (commitGroup : List Group → Group → Except ApiError (Nat × List (Nat × String))) (pending : Gathered) :
    Except Stopped (List Group × StreamResult) :=
  if pending.lines = [] then return respond pending.handed
  else return respond (← hand commitGroup pending.handed pending.lines)

theorem finish_line (line : Bytes) (stream : Stream) :
    (checkLine cfg (line, stream) >>= fun state => finish commitGroup state.1 state.2) =
      endLine cfg commitGroup stream line >>= fun stream => flush commitGroup stream.pending := by
  rw [checkLine, endLine]
  split
  · rfl
  rw [pure_bind, finish]
  by_cases blank : trimAscii line = []
  · simp only [blank, if_true, pure_bind, flush]
  · have some (lines : Group) (last : NumberedLine) : lines ++ [last] ≠ [] := by simp
    simp only [blank, if_false, some, push, flush]
    split
    · simp only [bind_assoc, pure_bind, if_true]
    · simp only [pure_bind, some, if_false]

theorem finish_feed (line : Bytes) (stream : Stream) (data : Bytes) :
    (feed cfg commitGroup line stream data >>= fun state => checkLine cfg state >>= fun state =>
      finish commitGroup state.1 state.2) =
      (splitLines line data).foldlM (endLine cfg commitGroup) stream >>= fun stream => flush commitGroup stream.pending := by
  induction data generalizing line stream with
  | nil => simpa [feed, splitLines] using finish_line line stream
  | cons b data ih =>
    rw [feed, splitLines]
    split
    · rw [foldlM_cons, bind_assoc, bind_assoc]
      congr 1
      funext stream
      exact ih [] stream
    · exact ih _ stream

theorem endLines_fitting (lines : List Bytes) (stream : Stream)
    (fit : ∀ line ∈ lines, line.length ≤ cfg.maxStreamLineBytes) :
    lines.foldlM (endLine cfg commitGroup) stream = (do
      let pending ← (numbered stream.lineNo lines).foldlM (push cfg commitGroup) stream.pending
      return ⟨pending, stream.lineNo + lines.length⟩) := by
  induction lines generalizing stream with
  | nil => rfl
  | cons line lines ih =>
    rw [forall_mem_cons] at fit
    rw [foldlM_cons, numbered, endLine, if_neg (not_lt.mpr fit.1)]
    split
    · rw [pure_bind, ih _ fit.2, length_cons, Nat.add_right_comm, Nat.add_assoc]
    · rw [foldlM_cons, bind_assoc, bind_assoc]
      congr 1
      funext pending
      rw [pure_bind, ih _ fit.2, length_cons, Nat.add_right_comm, Nat.add_assoc]

theorem push_blocks (lines : Group) (pending : Gathered) (short : pending.lines.length < cfg.streamBatch) :
    lines.foldlM (push cfg commitGroup) pending = (do
      let handed ← (blocks cfg.streamBatch (pending.lines ++ lines)).1.foldlM (hand commitGroup) pending.handed
      return ⟨handed, (blocks cfg.streamBatch (pending.lines ++ lines)).2⟩) := by
  induction lines generalizing pending with
  | nil =>
    rw [append_nil, blocks, if_neg (by omega)]
    rfl
  | cons line lines ih =>
    have whole : pending.lines ++ line :: lines = (pending.lines ++ [line]) ++ lines := by simp
    rw [foldlM_cons, push, whole]
    split
    next full =>
      have here : blocks cfg.streamBatch ((pending.lines ++ [line]) ++ lines) =
          ((pending.lines ++ [line]) :: (blocks cfg.streamBatch lines).1, (blocks cfg.streamBatch lines).2) := by
        rw [blocks, if_pos (by rw [length_append]; omega), ← full, take_left, drop_left]
      rw [here, foldlM_cons, bind_assoc, bind_assoc]
      congr 1
      funext handed
      rw [pure_bind, ih _ (by simp; omega)]
      rfl
    next part =>
      rw [pure_bind, ih _ (by simp at part ⊢; omega)]

theorem flatten_blocks (n : Nat) (lines : Group) : (blocks n lines).1.flatten ++ (blocks n lines).2 = lines ∧
    (∀ group ∈ (blocks n lines).1, group.length = n) ∧ (0 < n → (blocks n lines).2.length < n) := by
  induction lines using blocks.induct n with
  | case1 lines more ih =>
    rw [blocks, if_pos more, flatten_cons, append_assoc, ih.1, take_append_drop, forall_mem_cons]
    exact ⟨rfl, ⟨length_take_of_le more.2, ih.2.1⟩, ih.2.2⟩
  | case2 lines less =>
    rw [blocks, if_neg less]
    exact ⟨rfl, by simp, fun positive => by dsimp only; omega⟩

theorem hands_api (groups : List Group) (handed : Handed)
    (failed : groups.foldlM (hand commitGroup) handed = .error cause) : cause.stop ≠ .panicked := by
  induction groups generalizing handed with
  | nil => cases failed
  | cons group groups ih =>
    rw [foldlM_cons, hand] at failed
    split at failed
    · exact ih _ failed
    · obtain rfl := Except.error.inj failed
      exact nofun

theorem ingestWhole_api (data : Bytes) (failed : ingestWhole cfg commitGroup data = .error cause) :
    cause.stop ≠ .panicked := by
  have one (handed : Handed) (group : Group) (failed : hand commitGroup handed group = .error cause) :
      cause.stop ≠ .panicked := hands_api [group] handed (by rw [foldlM_cons, failed]; rfl)
  rw [ingestWhole] at failed
  generalize blocks cfg.streamBatch _ = parts at failed
  cases folded : parts.1.foldlM (hand commitGroup) start with
  | error reason =>
    simp only [folded, bind, Except.bind] at failed
    obtain rfl := Except.error.inj failed
    exact hands_api _ _ folded
  | ok handed =>
    simp only [folded, bind, Except.bind] at failed
    split_ifs at failed
    · obtain rfl := Except.error.inj failed
      exact nofun
    · cases failed
    · split at failed
      next last =>
        obtain rfl := Except.error.inj failed
        exact one _ _ last
      next => cases failed

theorem ingestStream_whole (batch : 1 ≤ cfg.streamBatch) (frames : List Frame)
    (fits : (frames.flatMap Frame.bytes).length ≤ cfg.maxStreamBytes) :
    ingestStream cfg commitGroup (frames.map .ok) = ingestWhole cfg commitGroup (frames.flatMap Frame.bytes) := by
  have fed := @readFrames_feed cfg commitGroup frames [] 0 ⟨⟨start, []⟩, 0⟩ (by omega)
  have shape : ingestStream cfg commitGroup (frames.map .ok) = (do
      let state ← readFrames cfg commitGroup ⟨[], 0, 0, ⟨⟨start, []⟩, 0⟩⟩ (frames.map .ok) >>= fun reader =>
        pure (reader.buffer, reader.stream)
      finish commitGroup state.1 state.2) := by
    simp only [ingestStream, bind_assoc, pure_bind]
  rw [length_nil] at fed
  rw [shape, fed, bind_assoc, finish_feed, ingestWhole]
  generalize splitLines [] (frames.flatMap Frame.bytes) = lines
  generalize split : lines.takeWhile (fun line => decide (line.length ≤ cfg.maxStreamLineBytes)) = fitting
  have fit : ∀ line ∈ fitting, line.length ≤ cfg.maxStreamLineBytes := by
    intro line member
    rw [← split] at member
    simpa using mem_takeWhile_imp member
  have parts := takeWhile_append_dropWhile (p := fun line => decide (line.length ≤ cfg.maxStreamLineBytes)) (l := lines)
  rw [split] at parts
  have pushed := @push_blocks cfg commitGroup (numbered 0 fitting) ⟨start, []⟩ batch
  cases behind : lines.dropWhile (fun line => decide (line.length ≤ cfg.maxStreamLineBytes)) with
  | nil =>
    rw [behind, append_nil] at parts
    rw [← parts, endLines_fitting _ _ fit, pushed]
    simp only [bind_assoc, pure_bind, nil_append, lt_irrefl, if_false]
    rfl
  | cons long rest =>
    have long' : cfg.maxStreamLineBytes < long.length := by
      have first := head?_dropWhile_not (fun line : Bytes => decide (line.length ≤ cfg.maxStreamLineBytes)) lines
      simpa [behind] using first
    rw [behind] at parts
    have more : fitting.length < (fitting ++ long :: rest).length := by simp
    rw [← parts, foldlM_append, endLines_fitting _ _ fit, pushed]
    simp only [bind_assoc, pure_bind, nil_append, foldlM_cons, endLine, long', more, if_true, Nat.zero_add]
    rfl

theorem ingestStream_frames (batch : 1 ≤ cfg.streamBatch) (frames : List Frame)
    (fits : (frames.flatMap Frame.bytes).length ≤ cfg.maxStreamBytes) :
    ingestStream cfg commitGroup (frames.map .ok) = ingestWhole cfg commitGroup (frames.flatMap Frame.bytes) ∧
      (∀ cause, ingestStream cfg commitGroup (frames.map .ok) = .error cause → cause.stop ≠ .panicked) ∧
      ∀ lines, (blocks cfg.streamBatch lines).1.flatten ++ (blocks cfg.streamBatch lines).2 = lines ∧
        (∀ group ∈ (blocks cfg.streamBatch lines).1, group.length = cfg.streamBatch) ∧
        (blocks cfg.streamBatch lines).2.length < cfg.streamBatch := by
  have whole := @ingestStream_whole cfg commitGroup batch frames fits
  refine ⟨whole, fun cause failed => ingestWhole_api _ (whole.symm.trans failed), fun lines => ?_⟩
  obtain ⟨parts, full, short⟩ := flatten_blocks cfg.streamBatch lines
  exact ⟨parts, full, short batch⟩

theorem ingestStream_frames_cut :
    let frames := [Frame.data [97], .trailers, .data [10], .data [98]]
    ingestStream ⟨1, 8, 64⟩ (fun _ group => .ok (group.length, [])) (frames.map .ok) =
      ingestWhole ⟨1, 8, 64⟩ (fun _ group => .ok (group.length, [])) (frames.flatMap Frame.bytes) :=
  (ingestStream_frames (by decide) [Frame.data [97], .trailers, .data [10], .data [98]] (by decide)).1

end IngestStream

end Warm.Server
