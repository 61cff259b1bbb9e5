import Warm.TornAppend

/-! Damage inside a log: the bytes of one frame are altered, and at least one frame follows it.
The walk stops at the altered frame and looks for committed data behind it, but only where sixteen
bytes lie before the last nonzero byte of the segment. -/
namespace Warm.Journal

open Bytes List

variable (codec : Codec)

/-- The sixteen bytes at `i` do not pass the last nonzero byte. -/
def InReach (data : Bytes) (i : Nat) : Prop := ∃ last, i + headerSize ≤ last + 1 ∧ octet data last ≠ 0

/-- What proves that the frame at `offset` was committed: where its header reads as the log's end a
frame behind the header, else a frame or an end marker behind its first byte. -/
def Counts (data : Bytes) (offset i : Nat) : Prop :=
  if isLogEnd (slice data offset headerSize) = true then
    offset + headerSize ≤ i ∧ frameChecksOut codec data i = true
  else offset < i ∧ committedAt codec data true i = true

/-- Committed data that begins inside the altered frame. -/
def Planted (data : Bytes) (offset next : Nat) : Prop :=
  ∃ i < next, InReach data i ∧ Counts codec data offset i

/-- A log of which the bytes of one frame were replaced, with `later` and `last` behind it. -/
def damaged (before : List Frame) (altered : Bytes) (later : List Frame) (last : Frame) (tail : Bytes) : Bytes :=
  logBytes codec before ++ (altered ++ (logBytes codec (later ++ [last]) ++ tail))

theorem committedAfter_inReach (data : Bytes) (includeEndMarker : Bool) (positive : 0 < start) :
    (committedAfter codec data start includeEndMarker).isSome ↔
      ∃ i, InReach data i ∧ start ≤ i ∧ committedAt codec data includeEndMarker i = true := by
  have size := headerSize_eq
  have spec := lastNonzero_spec data
  rw [committedAfter_isSome]
  constructor
  · rintro ⟨last, i, found, lower, upper, committed⟩
    rw [found] at spec
    exact ⟨i, ⟨last, by omega, spec.1⟩, lower, committed⟩
  · rintro ⟨i, ⟨last, room, nonzero⟩, lower, committed⟩
    cases found : lastNonzero data with
    | none =>
      rw [found] at spec
      exact absurd (spec last) nonzero
    | some final =>
      rw [found] at spec
      have reach : last ≤ final := by
        by_contra beyond
        exact nonzero (spec.2 last (by omega))
      exact ⟨final, i, rfl, lower, by omega, committed⟩

theorem committedAt_frames (data : Bytes) (i : Nat) :
    committedAt codec data false i = true ↔ frameChecksOut codec data i = true := by
  simp only [committedAt, Bool.false_and, Bool.or_false, Bool.and_eq_true, decide_eq_true_eq, and_iff_right_iff_imp]
  intro checks
  obtain ⟨h, raw, valid⟩ := (frameChecksOut_iff codec data i).mp checks
  exact valid.header_inside

theorem fail_error_iff (data : Bytes) (offset version : Nat) :
    (∃ e, fail codec data offset version = .error e) ↔
      ∃ i, InReach data i ∧ offset < i ∧ committedAt codec data true i = true := by
  refine Iff.trans ?_ (committedAfter_inReach codec data true (Nat.succ_pos offset))
  rw [fail]
  cases committedAfter codec data (offset + 1) true with
  | none => simp
  | some next => simp

theorem discoverLoop_broken (inside : offset + headerSize ≤ data.length)
    (broken : frameChecksOut codec data offset = false) (fuel version : Nat) :
    (∃ e, discoverLoop codec data (fuel + 1) offset version = .error e) ↔
      ∃ i, InReach data i ∧ Counts codec data offset i := by
  have size := headerSize_eq
  have header := headerWords_drop data offset
  rw [if_pos inside] at header
  cases ends : isLogEnd (slice data offset headerSize) with
  | false =>
    have walk : discoverLoop codec data (fuel + 1) offset version = fail codec data offset version := by
      by_cases empty : word data (offset + 4) = 0 ∧ word data (offset + 8) = 0
      · rw [discoverLoop, header]
        dsimp only
        rw [if_pos empty, ends, if_neg Bool.false_ne_true]
      · exact discoverLoop_fault codec header empty broken fuel version
    rw [walk, fail_error_iff]
    simp only [Counts, ends, Bool.false_eq_true, ↓reduceIte]
  | true =>
    obtain ⟨_, raw, comp, _⟩ := (isLogEnd_slice data offset inside).mp ends
    have walk : discoverLoop codec data (fuel + 1) offset version =
        if (committedAfter codec data (offset + headerSize) false).isSome = true then fail codec data offset version
        else .ok (offset, version) := by
      rw [discoverLoop, header]
      dsimp only
      rw [if_pos ⟨raw, comp⟩, if_pos ends]
    have found := committedAfter_inReach codec data false (show 0 < offset + headerSize by omega)
    simp only [committedAt_frames] at found
    rw [walk]
    simp only [Counts, ends, ↓reduceIte]
    rw [← found]
    constructor
    · rintro ⟨e, failed⟩
      by_contra hidden
      rw [if_neg hidden] at failed
      cases failed
    · intro hidden
      rw [if_pos hidden]
      exact fail_after_end codec version hidden

theorem broken_reported_iff {next} (room : offset + headerSize ≤ next) (broken : frameChecksOut codec data offset = false)
    (valid : frameChecksOut codec data next = true) (fuel version : Nat) :
    (∃ e, discoverLoop codec data (fuel + 1) offset version = .error e) ↔
      InReach data next ∨ Planted codec data offset next := by
  have size := headerSize_eq
  obtain ⟨h, raw, frame⟩ := (frameChecksOut_iff codec data next).mp valid
  have inside := frame.header_inside
  rw [discoverLoop_broken codec (by omega) broken]
  constructor
  · rintro ⟨i, ⟨last, reach, nonzero⟩, counts⟩
    by_cases early : i < next
    · exact .inr ⟨i, early, ⟨last, reach, nonzero⟩, counts⟩
    · exact .inl ⟨last, by omega, nonzero⟩
  · rintro (reach | ⟨i, _, reach, counts⟩)
    · refine ⟨next, reach, ?_⟩
      unfold Counts
      split
      · exact ⟨room, valid⟩
      · exact ⟨by omega, committedAt_frame codec ((committedAt_frames codec data next).mpr valid)⟩
    · exact ⟨i, reach, counts⟩

/-- Of the bytes from the next frame on, one from the sixteenth on is nonzero: in a frame behind it,
in the end marker or in the frame itself. -/
theorem nonzero_behind_iff (lawful : codec.Lawful) (later : List Frame) (last : Frame) (tail : Tail bytes) :
    (∃ j, 15 ≤ j ∧ octet (logBytes codec (later ++ [last]) ++ bytes) j ≠ 0) ↔
      later ≠ [] ∨ (∃ n, bytes = endMarkerBytes ++ zeros n) ∨ ∃ j, 15 ≤ j ∧ octet (last.encode codec) j ≠ 0 := by
  have size := headerSize_eq
  have split : logBytes codec (later ++ [last]) = logBytes codec later ++ last.encode codec := by simp [logBytes]
  have long := encode_pos codec lawful last
  rw [split, append_assoc]
  constructor
  · rintro ⟨j, behind, nonzero⟩
    by_cases more : later = []
    · rw [more] at nonzero
      change octet (last.encode codec ++ bytes) j ≠ 0 at nonzero
      by_cases own : j < (last.encode codec).length
      · rw [octet_append_left _ _ own] at nonzero
        exact .inr (.inr ⟨j, behind, nonzero⟩)
      · cases tail with
        | zeros n =>
          obtain ⟨i, rfl⟩ := Nat.exists_eq_add_of_le (Nat.not_lt.mp own)
          rw [octet_append_right, octet_zeros] at nonzero
          exact absurd rfl nonzero
        | marked n => exact .inr (.inl ⟨n, rfl⟩)
    · exact .inl more
  · rintro (more | ⟨n, marked⟩ | ⟨j, behind, nonzero⟩)
    · -- The length word of the last frame.
      have frames := frames_length_le codec lawful later
      obtain ⟨first, rest, rfl⟩ := exists_cons_of_ne_nil more
      have front := encode_pos codec lawful first
      have header := headerWords_encode codec lawful [] bytes last.version last.data last.bounded
      rw [nil_append, length_nil, drop_zero, headerWords, if_pos (by
        rw [length_append, ← Frame.encode]; omega)] at header
      have raw := congrArg Header.rawLen (Option.some.inj header)
      dsimp only at raw
      have some_ : word (encodeFrame codec last.version last.data ++ bytes) 4 ≠ 0 := by
        rw [raw]
        exact Nat.ne_of_gt last.nonempty
      rw [Ne, word_eq_zero_iff] at some_
      push Not at some_
      obtain ⟨j, bound, nonzero⟩ := some_
      refine ⟨(logBytes codec (first :: rest)).length + (4 + j), ?_, ?_⟩
      · simp only [logBytes, flatMap_cons, length_append]
        omega
      · rw [octet_append_right]
        exact nonzero
    · refine ⟨(logBytes codec later).length + ((last.encode codec).length + 15), by omega, ?_⟩
      rw [octet_append_right, octet_append_right, marked, octet_append_left _ _ (by simp)]
      decide
    · refine ⟨(logBytes codec later).length + j, by omega, ?_⟩
      have own : j < (last.encode codec).length := by
        by_contra past
        exact nonzero (octet_past_end _ _ (by omega))
      rwa [octet_append_right, octet_append_left _ _ own]

/-- Damage to a frame that is not the last is reported exactly when another frame follows the next one,
an end marker follows the last one, the last frame has a nonzero byte from its sixteenth on, or the
altered bytes begin something that reads as committed. -/
theorem damage_reported_iff (lawful : codec.Lawful) (before : List Frame) (victim : Frame) (altered : Bytes)
    (later : List Frame) (last : Frame) (bytes : Bytes) (tail : Tail bytes)
    (same : altered.length = (victim.encode codec).length)
    (broken : frameChecksOut codec (damaged codec before altered later last bytes)
      (logBytes codec before).length = false) :
    (∃ e, discoverOffset codec (damaged codec before altered later last bytes) = .error e) ↔
      later ≠ [] ∨ (∃ n, bytes = endMarkerBytes ++ zeros n) ∨ (∃ j, 15 ≤ j ∧ octet (last.encode codec) j ≠ 0) ∨
        Planted codec (damaged codec before altered later last bytes) (logBytes codec before).length
          ((logBytes codec before).length + altered.length) := by
  have size := headerSize_eq
  have long := encode_pos codec lawful victim
  obtain ⟨next, rest, frames⟩ : ∃ next rest, later ++ [last] = next :: rest := by
    cases later with
    | nil => exact ⟨last, [], rfl⟩
    | cons next rest => exact ⟨next, rest ++ [last], rfl⟩
  have valid : frameChecksOut codec (damaged codec before altered later last bytes)
      ((logBytes codec before).length + altered.length) = true := by
    have frame := frameAt_encode codec lawful (logBytes codec before ++ altered) (logBytes codec rest ++ bytes) next
    have image : damaged codec before altered later last bytes =
        (logBytes codec before ++ altered) ++ (next.encode codec ++ (logBytes codec rest ++ bytes)) := by
      simp [damaged, frames, logBytes]
    rw [image, ← length_append]
    exact (frameChecksOut_iff codec _ _).mpr ⟨_, _, frame⟩
  have reach : InReach (damaged codec before altered later last bytes) ((logBytes codec before).length + altered.length) ↔
      ∃ j, 15 ≤ j ∧ octet (logBytes codec (later ++ [last]) ++ bytes) j ≠ 0 := by
    have at_ (j : Nat) : octet (damaged codec before altered later last bytes)
        ((logBytes codec before).length + altered.length + j) =
          octet (logBytes codec (later ++ [last]) ++ bytes) j := by
      rw [damaged, Nat.add_assoc, octet_append_right, octet_append_right]
    constructor
    · rintro ⟨place, room, nonzero⟩
      obtain ⟨j, rfl⟩ := Nat.exists_eq_add_of_le
        (by omega : (logBytes codec before).length + altered.length ≤ place)
      rw [at_] at nonzero
      exact ⟨j, by omega, nonzero⟩
    · rintro ⟨j, behind, nonzero⟩
      exact ⟨_, by omega, (at_ j).symm ▸ nonzero⟩
  obtain ⟨fuel, _, walk⟩ := discoverOffset_log codec lawful before
    (altered ++ (logBytes codec (later ++ [last]) ++ bytes))
  have reported := broken_reported_iff codec (by omega) broken valid fuel (maxVersion before 0)
  rw [reach, nonzero_behind_iff codec lawful later last tail, damaged, ← walk, ← damaged] at reported
  rw [reported, or_assoc, or_assoc]

theorem damage_reported_iff_marked :
    (∃ e, discoverOffset PlainCodec.codec (damaged PlainCodec.codec [] (zeros 17) [] ⟨1, [0x42], by decide, by decide⟩
        (endMarkerBytes ++ zeros 3)) = .error e) ↔
      ([] : List Frame) ≠ [] ∨ (∃ n, endMarkerBytes ++ zeros 3 = endMarkerBytes ++ zeros n) ∨
        (∃ j, 15 ≤ j ∧ octet (Frame.encode PlainCodec.codec ⟨1, [0x42], by decide, by decide⟩) j ≠ 0) ∨
        Planted PlainCodec.codec (damaged PlainCodec.codec [] (zeros 17) [] ⟨1, [0x42], by decide, by decide⟩
          (endMarkerBytes ++ zeros 3)) 0 (0 + 17) :=
  damage_reported_iff _ PlainCodec.lawful [] ⟨0, [0x41], by decide, by decide⟩ (zeros 17) [] _ _ (.marked 3) rfl
    (frameChecksOut_empty _ rfl)

/-! A segment of 64 MiB that is full to its last byte. -/

/-- Twelve bytes are never shortened, so this frame takes 28. -/
def twelve (version : Nat) : Frame := ⟨version, List.replicate 12 0x41, by decide, by decide⟩

def filling : List Frame :=
  (List.range 2396743).map twelve ++ [⟨2396743, List.replicate 10 0x41, by decide, by decide⟩]

/-- The frame behind them has the single byte `A`, the last one a zero. -/
def zeroFrame : Frame := ⟨2396745, [0], by decide, by decide⟩

theorem filling_length : (logBytes PlainCodec.codec filling).length = 67108830 := by
  have one (version : Nat) : ((twelve version).encode PlainCodec.codec).length = 28 := by
    rw [Frame.encode, encodeFrame_length]
    rfl
  have each (n : Nat) : (logBytes PlainCodec.codec ((List.range n).map twelve)).length = 28 * n := by
    induction n with
    | zero => rfl
    | succ n ih =>
      rw [logBytes] at ih ⊢
      rw [range_succ, map_append, flatMap_append, length_append, ih, map_singleton,
        flatMap_singleton, one]
      omega
  have total := each 2396743
  rw [logBytes] at total ⊢
  rw [filling, flatMap_append, length_append, total, flatMap_singleton, Frame.encode, encodeFrame_length]
  rfl

theorem zeroFrame_lost (front : Bytes) :
    ¬∃ i, InReach (front ++ (zeros 17 ++ zeroFrame.encode PlainCodec.codec)) i ∧
      Counts PlainCodec.codec (front ++ (zeros 17 ++ zeroFrame.encode PlainCodec.codec)) front.length i := by
  have size := headerSize_eq
  have bytes : zeros 17 ++ zeroFrame.encode PlainCodec.codec =
      zeros 17 ++ [0x8D, 0xEF, 0x02, 0xD2, 1, 0, 0, 0, 1, 0, 0, 0, 0x49, 0x92, 0x24, 0, 0] := by decide
  rw [bytes]
  rintro ⟨i, ⟨last, room, nonzero⟩, counts⟩
  have empty : slice (front ++ (zeros 17 ++ [0x8D, 0xEF, 0x02, 0xD2, 1, 0, 0, 0, 1, 0, 0, 0, 0x49, 0x92, 0x24, 0, 0]))
      front.length headerSize = zeros 16 := by
    rw [← Nat.add_zero front.length, slice_append_right]
    rfl
  rw [Counts, empty, if_pos (by decide)] at counts
  obtain ⟨behind, checks⟩ := counts
  obtain ⟨j, rfl⟩ := Nat.exists_eq_add_of_le (by omega : front.length ≤ last)
  rw [octet_append_right] at nonzero
  have place : i = front.length + 16 := by
    by_contra other
    obtain ⟨d, rfl⟩ := Nat.exists_eq_add_of_le (by omega : 32 ≤ j)
    rcases d with _ | _ | d
    · exact nonzero rfl
    · exact nonzero rfl
    · refine nonzero (octet_past_end _ _ ?_)
      simp only [length_append, length_cons, length_nil, zeros_length]
      omega
  obtain ⟨h, raw, frame⟩ := (frameChecksOut_iff _ _ _).mp checks
  have header := frame.header
  have inside := frame.inside
  rw [headerWords_drop, if_pos frame.header_inside, place] at header
  have stored := congrArg Header.compLen (Option.some.inj header)
  dsimp only at stored
  rw [Nat.add_assoc, word_append_right] at stored
  have long : h.compLen = 256 := stored.symm
  simp only [length_append, length_cons, length_nil, zeros_length] at inside
  omega

/-- The last frame ends with the mapping and its payload is zero: when the frame before it is zeroed,
both are dropped without an error. -/
theorem damage_silent :
    (damaged PlainCodec.codec filling (zeros 17) [] zeroFrame (zeros 0)).length = 64 * 1024 * 1024 ∧
      (zeros 17).length = (Frame.encode PlainCodec.codec ⟨2396744, [0x41], by decide, by decide⟩).length ∧
      frameChecksOut PlainCodec.codec (damaged PlainCodec.codec filling (zeros 17) [] zeroFrame (zeros 0))
        (logBytes PlainCodec.codec filling).length = false ∧
      ¬∃ e, discoverOffset PlainCodec.codec (damaged PlainCodec.codec filling (zeros 17) [] zeroFrame (zeros 0)) =
        .error e := by
  have size := headerSize_eq
  have image : damaged PlainCodec.codec filling (zeros 17) [] zeroFrame (zeros 0) =
      logBytes PlainCodec.codec filling ++ (zeros 17 ++ zeroFrame.encode PlainCodec.codec) := by
    simp [damaged, logBytes]
  have long : (zeroFrame.encode PlainCodec.codec).length = 17 := rfl
  have broken : frameChecksOut PlainCodec.codec (logBytes PlainCodec.codec filling ++
      (zeros 17 ++ zeroFrame.encode PlainCodec.codec)) (logBytes PlainCodec.codec filling).length = false := by
    apply frameChecksOut_empty
    rw [word_append_right]
    rfl
  rw [image]
  refine ⟨?_, rfl, broken, ?_⟩
  · rw [length_append, length_append, filling_length, long]
    rfl
  · obtain ⟨fuel, _, walk⟩ := discoverOffset_log _ PlainCodec.lawful filling
      (zeros 17 ++ zeroFrame.encode PlainCodec.codec)
    have room : (logBytes PlainCodec.codec filling).length + headerSize ≤
        (logBytes PlainCodec.codec filling ++ (zeros 17 ++ zeroFrame.encode PlainCodec.codec)).length := by
      rw [length_append, length_append, long, zeros_length]
      omega
    rw [walk, discoverLoop_broken _ room broken]
    exact zeroFrame_lost (logBytes PlainCodec.codec filling)

end Warm.Journal
