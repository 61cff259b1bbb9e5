import Warm.Bytes

/-! Journal frames of one segment and the recovery walk over them. A frame is
`[crc32][raw_len][comp_len][version]` and its stored payload; the last frame is followed by
an end marker, or by zeros in stores written before the marker. The checksum and the block
compressor are third-party code, so they are parameters. -/
namespace Warm

/-- `crc32fast` and the block functions of `lz4_flex`: `decompress payload n` is the output of
decompressing into a buffer of `n` bytes, cut to what was written. -/
structure Codec where
  crc32 : Bytes → Nat
  compress : Bytes → Bytes
  decompress : Bytes → Nat → Option Bytes

namespace Journal

open Bytes

def headerSize : Nat := 16
def maxRawFrameSize : Nat := 50 * 1024 * 1024
def endMark : Nat := 0x454E444C

theorem headerSize_eq : headerSize = 16 := rfl

structure Header where
  crc : Nat
  rawLen : Nat
  compLen : Nat
  version : Nat
  deriving DecidableEq, Repr

def headerWords (bytes : Bytes) : Option Header :=
  if headerSize ≤ bytes.length then
    some ⟨word bytes 0, word bytes 4, word bytes 8, word bytes 12⟩
  else none

theorem headerWords_drop (data : Bytes) (offset : Nat) :
    headerWords (data.drop offset) =
      if offset + headerSize ≤ data.length then
        some ⟨word data offset, word data (offset + 4), word data (offset + 8),
          word data (offset + 12)⟩
      else none := by
  have := headerSize_eq
  simp only [headerWords, List.length_drop, word_drop, Nat.add_zero]
  by_cases inside : headerSize ≤ data.length - offset
  · rw [if_pos inside, if_pos (by omega)]
  · rw [if_neg inside, if_neg (by omega)]

def isLogEnd (header : Bytes) : Bool :=
  match headerWords header with
  | none => false
  | some h => h.crc == 0 && h.rawLen == 0 && h.compLen == 0 &&
      (h.version == 0 || h.version == endMark)

theorem isLogEnd_slice (data : Bytes) (i : Nat) (inside : i + headerSize ≤ data.length) :
    isLogEnd (slice data i headerSize) = true ↔
      word data i = 0 ∧ word data (i + 4) = 0 ∧ word data (i + 8) = 0 ∧
        (word data (i + 12) = 0 ∨ word data (i + 12) = endMark) := by
  have size := headerSize_eq
  have length := slice_length data i headerSize inside
  simp only [isLogEnd, headerWords, length, le_refl, ↓reduceIte]
  rw [word_slice _ _ _ _ (by omega), word_slice _ _ _ _ (by omega), word_slice _ _ _ _ (by omega),
    word_slice _ _ _ _ (by omega)]
  simp [and_assoc]

def endMarkerBytes : Bytes := zeros 12 ++ ofWord endMark

/-- `iter().rposition(p)`. -/
def rposition (p : α → Bool) : List α → Option Nat
  | [] => none
  | x :: xs =>
    match rposition p xs with
    | some i => some (i + 1)
    | none => if p x then some 0 else none

def blockSize : Nat := 4096

/-- The last nonzero byte, skipping zero blocks from the end. -/
def lastNonzero (data : Bytes) : Option Nat :=
  let blocks := data.length / blockSize
  match rposition (· != 0) (data.drop (blocks * blockSize)) with
  | some i => some (blocks * blockSize + i)
  | none =>
    match rposition (fun b => slice data (b * blockSize) blockSize != zeros blockSize)
        (List.range blocks) with
    | none => none
    | some b => (rposition (· != 0) (slice data (b * blockSize) blockSize)).map (b * blockSize + ·)

variable (codec : Codec)

/-- Plausible lengths, a payload inside `data`, and a matching checksum of its raw bytes. -/
def frameChecksOut (data : Bytes) (offset : Nat) : Bool :=
  match headerWords (data.drop offset) with
  | none => false
  | some h =>
    if h.compLen = 0 ∨ h.rawLen = 0 ∨ h.rawLen > maxRawFrameSize ∨ h.compLen > h.rawLen then false
    else if offset + (headerSize + h.compLen) ≤ data.length then
      let payload := slice data (offset + headerSize) h.compLen
      if h.compLen < h.rawLen then
        match codec.decompress payload h.rawLen with
        | some out => if out.length = h.rawLen then codec.crc32 out == h.crc else false
        | none => false
      else codec.crc32 payload == h.crc
    else false

/-- Committed data at `i`: a valid frame, or the end marker when it counts. -/
def committedAt (data : Bytes) (includeEndMarker : Bool) (i : Nat) : Bool :=
  decide (i + headerSize ≤ data.length) &&
    (frameChecksOut codec data i ||
      (includeEndMarker && isLogEnd (slice data i headerSize) &&
        slice data (i + 12) 4 == ofWord endMark))

/-- The first committed data at or after `start`, up to the last nonzero byte. -/
def committedAfter (data : Bytes) (start : Nat) (includeEndMarker : Bool) : Option Nat :=
  match lastNonzero data with
  | none => none
  | some last =>
    (List.range' start (last - (headerSize - 1) + 1 - start)).find?
      (committedAt codec data includeEndMarker)

/-- "frame at offset {offset} fails its checks but committed data follows at offset {next}". -/
structure Corruption where
  offset : Nat
  next : Nat
  deriving DecidableEq, Repr

/-- The closure `fail` of `discover_offset`: corruption when committed data follows, else the
log ends at the bad frame. -/
def fail (data : Bytes) (offset maxVersion : Nat) : Except Corruption (Nat × Nat) :=
  match committedAfter codec data (offset + 1) true with
  | some next => .error ⟨offset, next⟩
  | none => .ok (offset, maxVersion)

def discoverLoop (data : Bytes) : Nat → Nat → Nat → Except Corruption (Nat × Nat)
  | 0, offset, maxVersion => .ok (offset, maxVersion)
  | fuel + 1, offset, maxVersion =>
    match headerWords (data.drop offset) with
    | none => .ok (offset, maxVersion)
    | some h =>
      if h.rawLen = 0 ∧ h.compLen = 0 then
        if isLogEnd (slice data offset headerSize) then
          -- A torn append can persist its trailing marker without its header.
          if (committedAfter codec data (offset + headerSize) false).isSome then
            fail codec data offset maxVersion
          else .ok (offset, maxVersion)
        else fail codec data offset maxVersion
      else if h.compLen > data.length ∨ h.rawLen > maxRawFrameSize ∨ h.compLen = 0 then
        fail codec data offset maxVersion
      else if offset + (headerSize + h.compLen) > data.length then fail codec data offset maxVersion
      else if !frameChecksOut codec data offset then fail codec data offset maxVersion
      else discoverLoop data fuel (offset + (headerSize + h.compLen))
        (if h.version > maxVersion then h.version else maxVersion)

/-- The first free offset of a segment and its highest version. Every iteration of the walk
passes a frame of at least 17 bytes, so the fuel is never spent (`discoverLoop_fuel`). -/
def discoverOffset (data : Bytes) : Except Corruption (Nat × Nat) :=
  discoverLoop codec data (data.length + 1) 0 0

/-- What a valid frame at `offset` is: `h` its header words and `raw` its decoded payload. -/
structure FrameAt (data : Bytes) (offset : Nat) (h : Header) (raw : Bytes) : Prop where
  header : headerWords (data.drop offset) = some h
  stored : 0 < h.compLen
  bounded : h.rawLen ≤ maxRawFrameSize
  shrunk : h.compLen ≤ h.rawLen
  inside : offset + (headerSize + h.compLen) ≤ data.length
  payload : if h.compLen < h.rawLen
    then codec.decompress (slice data (offset + headerSize) h.compLen) h.rawLen = some raw
    else raw = slice data (offset + headerSize) h.compLen
  length : raw.length = h.rawLen
  checksum : codec.crc32 raw = h.crc

theorem frameChecksOut_iff (data : Bytes) (offset : Nat) :
    frameChecksOut codec data offset = true ↔ ∃ h raw, FrameAt codec data offset h raw := by
  unfold frameChecksOut
  constructor
  · intro checks
    split at checks
    · cases checks
    rename_i h header
    split at checks
    · cases checks
    rename_i lengths
    simp only [not_or, Nat.not_lt] at lengths
    obtain ⟨stored, _, bounded, shrunk⟩ := lengths
    split at checks
    case isFalse => cases checks
    rename_i inside
    have stored : 0 < h.compLen := Nat.pos_of_ne_zero stored
    dsimp only at checks
    split at checks
    · rename_i compressed
      split at checks
      · rename_i out decoded
        split at checks
        · rename_i length
          exact ⟨h, out, header, stored, bounded, shrunk, inside,
            by rw [if_pos compressed]; exact decoded, length, by simpa using checks⟩
        · cases checks
      · cases checks
    · rename_i plain
      have whole : h.compLen = h.rawLen := by omega
      refine ⟨h, _, header, stored, bounded, shrunk, inside, by rw [if_neg plain], ?_,
        by simpa using checks⟩
      rw [slice_length _ _ _ (by omega), whole]
  · rintro ⟨h, raw, header, stored, bounded, shrunk, inside, payload, length, checksum⟩
    have lengths : ¬(h.compLen = 0 ∨ h.rawLen = 0 ∨ h.rawLen > maxRawFrameSize ∨
        h.compLen > h.rawLen) := by omega
    simp only [header, if_neg lengths, if_pos inside]
    split
    · rename_i compressed
      rw [if_pos compressed] at payload
      simp [payload, length, checksum]
    · rename_i plain
      rw [if_neg plain] at payload
      simp [← payload, checksum]

theorem FrameAt.header_inside (frame : FrameAt codec data offset h raw) :
    offset + headerSize ≤ data.length :=
  Nat.le_trans (Nat.add_le_add_left (Nat.le_add_right _ _) _) frame.inside

theorem discoverLoop_frame (frame : FrameAt codec data offset h raw) (fuel maxVersion : Nat) :
    discoverLoop codec data (fuel + 1) offset maxVersion =
      discoverLoop codec data fuel (offset + (headerSize + h.compLen))
        (if h.version > maxVersion then h.version else maxVersion) := by
  have stored := frame.stored
  have inside := frame.inside
  have checks := (frameChecksOut_iff codec data offset).mpr ⟨h, raw, frame⟩
  have apart : ¬(h.compLen > data.length ∨ h.rawLen > maxRawFrameSize ∨ h.compLen = 0) := by
    have := frame.bounded
    omega
  rw [discoverLoop]
  simp only [frame.header]
  rw [if_neg (by omega), if_neg apart, if_neg (by omega)]
  simp [checks]

theorem discoverLoop_fault (header : headerWords (data.drop offset) = some h)
    (lengths : ¬(h.rawLen = 0 ∧ h.compLen = 0)) (bad : frameChecksOut codec data offset = false)
    (fuel maxVersion : Nat) :
    discoverLoop codec data (fuel + 1) offset maxVersion = fail codec data offset maxVersion := by
  rw [discoverLoop]
  simp only [header]
  rw [if_neg lengths]
  split
  · rfl
  split
  · rfl
  simp [bad]

theorem discoverLoop_short (short : data.length < offset + headerSize) (fuel maxVersion : Nat) :
    discoverLoop codec data fuel offset maxVersion = .ok (offset, maxVersion) := by
  cases fuel with
  | zero => rfl
  | succ fuel => rw [discoverLoop, headerWords_drop, if_neg (by omega)]

theorem discoverLoop_fuel (data : Bytes) (fuel offset maxVersion : Nat)
    (enough : data.length < offset + fuel) :
    discoverLoop codec data (fuel + 1) offset maxVersion =
      discoverLoop codec data fuel offset maxVersion := by
  have := headerSize_eq
  induction fuel generalizing offset maxVersion with
  | zero =>
    rw [discoverLoop_short _ (by omega), discoverLoop_short _ (by omega)]
  | succ fuel ih =>
    conv => lhs; rw [discoverLoop]
    conv => rhs; rw [discoverLoop]
    cases headerWords (data.drop offset) with
    | none => rfl
    | some h => simp only [ih (offset + (headerSize + h.compLen)) _ (by omega)]

theorem committedAfter_isSome (data : Bytes) (start : Nat) (includeEndMarker : Bool) :
    (committedAfter codec data start includeEndMarker).isSome ↔
      ∃ last i, lastNonzero data = some last ∧ start ≤ i ∧ i ≤ last - (headerSize - 1) ∧
        committedAt codec data includeEndMarker i = true := by
  unfold committedAfter
  cases lastNonzero data with
  | none => simp
  | some last =>
    simp only [List.find?_isSome, List.mem_range'_1, Option.some.injEq]
    constructor
    · rintro ⟨i, ⟨lower, upper⟩, committed⟩
      exact ⟨last, i, rfl, lower, by omega, committed⟩
    · rintro ⟨_, i, rfl, lower, upper, committed⟩
      exact ⟨i, ⟨lower, by omega⟩, committed⟩

theorem committedAt_frame (committed : committedAt codec data false i = true) :
    committedAt codec data true i = true := by
  simp only [committedAt, Bool.and_eq_true, Bool.false_and, Bool.or_false] at committed ⊢
  exact ⟨committed.1, by simp [committed.2]⟩

theorem fail_after_end (maxVersion : Nat)
    (hidden : (committedAfter codec data (offset + headerSize) false).isSome) :
    ∃ e, fail codec data offset maxVersion = .error e := by
  obtain ⟨last, i, nonzero, lower, upper, committed⟩ :=
    (committedAfter_isSome codec data _ _).mp hidden
  have := headerSize_eq
  have found : (committedAfter codec data (offset + 1) true).isSome :=
    (committedAfter_isSome codec data _ _).mpr
      ⟨last, i, nonzero, by omega, upper, committedAt_frame codec committed⟩
  obtain ⟨next, found⟩ := Option.isSome_iff_exists.mp found
  exact ⟨⟨offset, next⟩, by rw [fail, found]⟩

end Journal

end Warm
