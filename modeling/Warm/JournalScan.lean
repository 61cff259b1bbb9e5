import Warm.JournalFrame
import Warm.PlainCodec

/-! The offline scanner of one segment, written separately from the recovery walk of
`JournalFrame`: its own header checks, length bounds, marker test and look-ahead. On a final
segment the two readers stop at the same offset, and the walk fails exactly where the scanner
reports corruption. -/
namespace Warm.Scan

open Bytes Journal

structure FrameRef where
  offset : Nat
  rawLen : Nat
  compLen : Nat
  seq : Nat
  crc : Nat
  deriving DecidableEq, Repr

def FrameRef.end_ (frame : FrameRef) : Nat := frame.offset + headerSize + frame.compLen

inductive SegmentEnd where
  | marker
  | zeroHeader
  | exhausted
  | tornTail (reason : String)
  | corrupt (reason : String) (committedAt : Option Nat)
  deriving DecidableEq, Repr

def SegmentEnd.isCorrupt : SegmentEnd → Bool
  | .corrupt _ _ => true
  | _ => false

/-- The good frames with the payloads handed to `visit`, and where and why the walk stopped. -/
structure SegmentScan where
  frames : List (FrameRef × Bytes)
  endOffset : Nat
  stop : SegmentEnd
  deriving DecidableEq, Repr

def isLogEnd (data : Bytes) (i : Nat) : Bool :=
  decide (i + headerSize ≤ data.length) && word data (i + 4) == 0 && word data (i + 8) == 0 &&
    ((word data i == 0 && word data (i + 12) == endMark) ||
      (slice data i headerSize).all (· == 0))

def isEndMarker (data : Bytes) (i : Nat) : Bool :=
  isLogEnd data i && word data (i + 12) == endMark

variable (codec : Codec)

/-- The engine's frame checks plus a ratio bound on compressed payloads. -/
def decodeFrameInto (data : Bytes) (offset : Nat) : Except String (FrameRef × Bytes) :=
  if offset + headerSize ≤ data.length then
    let crc := word data offset
    let rawLen := word data (offset + 4)
    let compLen := word data (offset + 8)
    let seq := word data (offset + 12)
    let finish (out : Bytes) : Except String (FrameRef × Bytes) :=
      if codec.crc32 out = crc then .ok (⟨offset, rawLen, compLen, seq, crc⟩, out)
      else .error "crc32"
    if rawLen = 0 ∨ compLen = 0 ∨ rawLen > maxRawFrameSize ∨ compLen > rawLen then
      .error "header-lengths"
    else if offset + headerSize + compLen ≤ data.length then
      let payload := slice data (offset + headerSize) compLen
      if compLen < rawLen then
        if rawLen > compLen * 255 then .error "implausible-ratio"
        else
          match codec.decompress payload rawLen with
          | none => .error "lz4"
          | some out => if out.length = rawLen then finish out else .error "raw-length"
      else finish payload
    else .error "truncated-payload"
  else .error "truncated-header"

def committedAt (data : Bytes) (includeEndMarker : Bool) (i : Nat) : Bool :=
  decide (i + headerSize ≤ data.length) &&
    ((includeEndMarker && isEndMarker data i) || (decodeFrameInto codec data i).isOk)

def committedAfter (data : Bytes) (start : Nat) (includeEndMarker : Bool) : Option Nat :=
  match lastNonzero data with
  | none => none
  | some last =>
    (List.range' start (last - (headerSize - 1) + 1 - start)).find?
      (committedAt codec data includeEndMarker)

def fault (data : Bytes) (isFinal : Bool) (frames : List (FrameRef × Bytes)) (offset : Nat)
    (reason : String) : SegmentScan :=
  let committed := committedAfter codec data (offset + 1) true
  ⟨frames, offset,
    if isFinal && committed.isNone then .tornTail reason else .corrupt reason committed⟩

def scanLoop (data : Bytes) (isFinal : Bool) :
    Nat → List (FrameRef × Bytes) → Nat → SegmentScan
  | 0, frames, offset => ⟨frames, offset, .exhausted⟩
  | fuel + 1, frames, offset =>
    if offset + headerSize ≤ data.length then
      if word data (offset + 4) = 0 ∧ word data (offset + 8) = 0 then
        if isLogEnd data offset then
          match committedAfter codec data (offset + headerSize) false with
          | some i => ⟨frames, offset, .corrupt "committed-after-end" (some i)⟩
          | none =>
            ⟨frames, offset, if isEndMarker data offset then .marker else .zeroHeader⟩
        else fault codec data isFinal frames offset "invalid-end-header"
      else
        match decodeFrameInto codec data offset with
        | .ok (frame, payload) => scanLoop data isFinal fuel (frames ++ [(frame, payload)]) frame.end_
        | .error reason => fault codec data isFinal frames offset reason
    else ⟨frames, offset, .exhausted⟩

def scanSegment (data : Bytes) (isFinal : Bool) : SegmentScan :=
  scanLoop codec data isFinal (data.length + 1) [] 0

/-- `lz4_flex` never expands a block more than 255 times. -/
def BoundedExpansion (codec : Codec) : Prop :=
  ∀ payload limit out, codec.decompress payload limit = some out → out.length ≤ payload.length * 255

/-- The scanner decodes exactly the frames the engine accepts: its extra ratio bound excludes
no block that decompresses to the declared length. -/
theorem decodeFrameInto_ok_iff (ratio : BoundedExpansion codec) (data : Bytes) (offset : Nat)
    (frame : FrameRef) (raw : Bytes) :
    decodeFrameInto codec data offset = .ok (frame, raw) ↔
      FrameAt codec data offset ⟨frame.crc, frame.rawLen, frame.compLen, frame.seq⟩ raw ∧
        frame.offset = offset := by
  unfold decodeFrameInto
  constructor
  · intro decoded
    split at decoded
    case isFalse => cases decoded
    rename_i inside
    dsimp only at decoded
    split at decoded
    · cases decoded
    rename_i lengths
    split at decoded
    case isFalse => cases decoded
    rename_i complete
    have header := headerWords_drop data offset
    rw [if_pos inside] at header
    have finish (out : Bytes) (length : out.length = word data (offset + 4))
        (payload : if word data (offset + 8) < word data (offset + 4)
          then codec.decompress (slice data (offset + headerSize) (word data (offset + 8)))
            (word data (offset + 4)) = some out
          else out = slice data (offset + headerSize) (word data (offset + 8)))
        (done : (if codec.crc32 out = word data offset then
            Except.ok (FrameRef.mk offset (word data (offset + 4)) (word data (offset + 8))
              (word data (offset + 12)) (word data offset), out)
          else Except.error "crc32") = .ok (frame, raw)) :
        FrameAt codec data offset ⟨frame.crc, frame.rawLen, frame.compLen, frame.seq⟩ raw ∧
          frame.offset = offset := by
      split at done
      case isFalse => cases done
      rename_i checksum
      cases done
      exact ⟨⟨header, by dsimp only; omega, by dsimp only; omega, by dsimp only; omega,
        by dsimp only; omega, payload, length, checksum⟩, rfl⟩
    split at decoded
    · rename_i compressed
      split at decoded
      · cases decoded
      split at decoded
      · cases decoded
      rename_i out output
      split at decoded
      · rename_i length
        exact finish out length (by rw [if_pos compressed]; exact output) decoded
      · cases decoded
    · rename_i plain
      refine finish _ ?_ (by rw [if_neg plain]) decoded
      rw [slice_length _ _ _ (by omega)]
      omega
  · rintro ⟨valid, rfl⟩
    obtain ⟨header, stored, bounded, shrunk, inside, payload, length, checksum⟩ := valid
    rw [headerWords_drop] at header
    split at header
    case isFalse => cases header
    rename_i room
    obtain ⟨crc, rawLen, compLen, seq⟩ : word data frame.offset = frame.crc ∧
        word data (frame.offset + 4) = frame.rawLen ∧
        word data (frame.offset + 8) = frame.compLen ∧
        word data (frame.offset + 12) = frame.seq := by simpa using header
    dsimp only at stored bounded shrunk inside payload length checksum
    rw [if_pos room]
    simp only [crc, rawLen, compLen, seq]
    rw [if_neg (by omega), if_pos (by omega)]
    split
    · rename_i compressed
      rw [if_pos compressed] at payload
      have bound := ratio _ _ _ payload
      rw [slice_length _ _ _ (by omega), length] at bound
      rw [if_neg (by omega), payload]
      simp [length, checksum]
    · rename_i plain
      rw [if_neg plain] at payload
      rw [← payload, if_pos checksum]

theorem decodeFrameInto_isOk (ratio : BoundedExpansion codec) (data : Bytes) (offset : Nat) :
    (decodeFrameInto codec data offset).isOk = frameChecksOut codec data offset := by
  rw [Bool.eq_iff_iff, frameChecksOut_iff]
  constructor
  · intro ok
    cases decoded : decodeFrameInto codec data offset with
    | error reason => simp [decoded, Except.isOk, Except.toBool] at ok
    | ok result => exact ⟨_, _, ((decodeFrameInto_ok_iff codec ratio data offset _ _).mp decoded).1⟩
  · rintro ⟨h, raw, valid⟩
    have decoded := (decodeFrameInto_ok_iff codec ratio data offset
      ⟨offset, h.rawLen, h.compLen, h.version, h.crc⟩ raw).mpr ⟨valid, rfl⟩
    simp [decoded, Except.isOk, Except.toBool]

theorem isLogEnd_eq (data : Bytes) (i : Nat) (inside : i + headerSize ≤ data.length) :
    isLogEnd data i = Journal.isLogEnd (slice data i headerSize) := by
  have size := headerSize_eq
  have zero : (slice data i headerSize).all (· == 0) = true ↔
      ∀ j < 16, octet data (i + j) = 0 := by
    rw [all_zero_iff, slice_length _ _ _ inside, size]
    constructor
    · intro h j bound
      rw [← octet_slice data i headerSize j (by omega)]
      exact h j bound
    · intro h j bound
      rw [octet_slice _ _ _ _ (by omega)]
      exact h j bound
  have words : (∀ j < 16, octet data (i + j) = 0) ↔
      word data i = 0 ∧ word data (i + 4) = 0 ∧ word data (i + 8) = 0 ∧ word data (i + 12) = 0 := by
    simp only [word_eq_zero_iff, Nat.add_assoc]
    constructor
    · intro h
      exact ⟨fun j _ => h j (by omega), fun j _ => h (4 + j) (by omega),
        fun j _ => h (8 + j) (by omega), fun j _ => h (12 + j) (by omega)⟩
    · rintro ⟨a, b, c, d⟩ j bound
      obtain h | h | h | h : j < 4 ∨ (4 ≤ j ∧ j < 8) ∨ (8 ≤ j ∧ j < 12) ∨ (12 ≤ j ∧ j < 16) := by
        omega
      · exact a j h
      · simpa [Nat.add_sub_cancel' h.1] using b (j - 4) (by omega)
      · simpa [Nat.add_sub_cancel' h.1] using c (j - 8) (by omega)
      · simpa [Nat.add_sub_cancel' h.1] using d (j - 12) (by omega)
  rw [Bool.eq_iff_iff, isLogEnd_slice data i inside]
  simp only [isLogEnd, Bool.and_eq_true, Bool.or_eq_true, decide_eq_true_eq, beq_iff_eq, zero, words]
  tauto

theorem isEndMarker_eq (data : Bytes) (i : Nat) (inside : i + headerSize ≤ data.length) :
    isEndMarker data i =
      (Journal.isLogEnd (slice data i headerSize) && slice data (i + 12) 4 == ofWord endMark) := by
  have := headerSize_eq
  rw [isEndMarker, isLogEnd_eq data i inside, slice_eq_ofWord data (i + 12) (by omega) (by decide)]

section

variable (ratio : BoundedExpansion codec) (data : Bytes)
include ratio data

theorem committedAt_eq (includeEndMarker : Bool)
    (i : Nat) :
    committedAt codec data includeEndMarker i = Journal.committedAt codec data includeEndMarker i := by
  unfold committedAt Journal.committedAt
  by_cases inside : i + headerSize ≤ data.length
  · simp only [inside, decide_true, Bool.true_and, decodeFrameInto_isOk codec ratio,
      isEndMarker_eq data i inside, Bool.and_assoc]
    exact Bool.or_comm _ _
  · simp [inside]

theorem committedAfter_eq (start : Nat)
    (includeEndMarker : Bool) :
    committedAfter codec data start includeEndMarker =
      Journal.committedAfter codec data start includeEndMarker := by
  have same : committedAt codec data includeEndMarker =
      Journal.committedAt codec data includeEndMarker :=
    funext (committedAt_eq codec ratio data includeEndMarker)
  unfold committedAfter Journal.committedAfter
  cases lastNonzero data with
  | none => rfl
  | some last => simp only [same]

theorem fault_eq (offset : Nat) (reason : String)
    (frames : List (FrameRef × Bytes)) (maxVersion : Nat) :
    (fault codec data true frames offset reason).stop.isCorrupt =
        !(fail codec data offset maxVersion).isOk ∧
      (fault codec data true frames offset reason).endOffset = offset ∧
      ∀ r, fail codec data offset maxVersion = .ok r → r = (offset, maxVersion) := by
  simp only [fault, fail, committedAfter_eq codec ratio]
  cases Journal.committedAfter codec data (offset + 1) true with
  | none =>
    simp [SegmentEnd.isCorrupt, Except.isOk, Except.toBool]
  | some next => simp [SegmentEnd.isCorrupt, Except.isOk, Except.toBool]

end

/-- The walk and the scanner at one point of their loops. -/
def Agree (walk : Except Corruption (Nat × Nat)) (scan : SegmentScan) : Prop :=
  match walk with
  | .ok (offset, _) => scan.stop.isCorrupt = false ∧ scan.endOffset = offset
  | .error _ => scan.stop.isCorrupt = true

section

variable (ratio : BoundedExpansion codec) (data : Bytes)
include ratio data

theorem agree_fault (offset : Nat) (reason : String)
    (frames : List (FrameRef × Bytes)) (maxVersion : Nat) :
    Agree (fail codec data offset maxVersion) (fault codec data true frames offset reason) := by
  obtain ⟨corrupt, stop, result⟩ := fault_eq codec ratio data offset reason frames maxVersion
  cases failed : fail codec data offset maxVersion with
  | ok r =>
    obtain rfl := result r failed
    exact ⟨by rw [corrupt, failed]; rfl, stop⟩
  | error e =>
    rw [failed] at corrupt
    exact corrupt

theorem agree_log_end (offset : Nat)
    (frames : List (FrameRef × Bytes)) (maxVersion : Nat) :
    Agree
      (if (Journal.committedAfter codec data (offset + headerSize) false).isSome then
        fail codec data offset maxVersion
      else .ok (offset, maxVersion))
      (match committedAfter codec data (offset + headerSize) false with
        | some i => ⟨frames, offset, .corrupt "committed-after-end" (some i)⟩
        | none => ⟨frames, offset, if isEndMarker data offset then .marker else .zeroHeader⟩) := by
  rw [committedAfter_eq codec ratio]
  cases hidden : Journal.committedAfter codec data (offset + headerSize) false with
  | none =>
    refine ⟨?_, rfl⟩
    dsimp only
    split <;> rfl
  | some i =>
    obtain ⟨e, failed⟩ := fail_after_end codec maxVersion
      (hidden.symm ▸ rfl : (Journal.committedAfter codec data (offset + headerSize) false).isSome)
    simp only [Option.isSome_some, ↓reduceIte, failed]
    rfl

theorem scanLoop_agrees (fuel offset maxVersion : Nat)
    (frames : List (FrameRef × Bytes)) :
    Agree (discoverLoop codec data fuel offset maxVersion)
      (scanLoop codec data true fuel frames offset) := by
  induction fuel generalizing offset maxVersion frames with
  | zero => exact ⟨rfl, rfl⟩
  | succ fuel ih =>
    by_cases inside : offset + headerSize ≤ data.length
    case neg =>
      rw [discoverLoop_short _ (by omega), scanLoop, if_neg inside]
      exact ⟨rfl, rfl⟩
    have header := headerWords_drop data offset
    rw [if_pos inside] at header
    rw [scanLoop, if_pos inside]
    by_cases empty : word data (offset + 4) = 0 ∧ word data (offset + 8) = 0
    · rw [if_pos empty, discoverLoop]
      simp only [header]
      rw [if_pos empty, isLogEnd_eq data offset inside]
      split
      · exact agree_log_end codec ratio data offset frames maxVersion
      · exact agree_fault codec ratio data offset _ frames maxVersion
    rw [if_neg empty]
    cases decoded : decodeFrameInto codec data offset with
    | error reason =>
      have bad : frameChecksOut codec data offset = false := by
        rw [← decodeFrameInto_isOk codec ratio, decoded]
        rfl
      rw [discoverLoop_fault codec header empty bad]
      exact agree_fault codec ratio data offset reason frames maxVersion
    | ok result =>
      obtain ⟨frame, payload⟩ := result
      obtain ⟨valid, rfl⟩ := (decodeFrameInto_ok_iff codec ratio data offset frame payload).mp decoded
      rw [discoverLoop_frame codec valid]
      simp only [FrameRef.end_, Nat.add_assoc]
      exact ih _ _ _

end

/-- On every final segment the recovery walk and the offline scanner agree: the walk finds the
log end `offset` exactly when the scanner stops there without reporting corruption. -/
theorem discoverOffset_iff_scanSegment (ratio : BoundedExpansion codec) (data : Bytes) (offset : Nat) :
    (∃ maxVersion, discoverOffset codec data = .ok (offset, maxVersion)) ↔
      (scanSegment codec data true).stop.isCorrupt = false ∧
        (scanSegment codec data true).endOffset = offset := by
  have agree := scanLoop_agrees codec ratio data (data.length + 1) 0 0 []
  change Agree (discoverOffset codec data) (scanSegment codec data true) at agree
  cases walk : discoverOffset codec data with
  | ok r =>
    rw [walk] at agree
    obtain ⟨found, maxVersion⟩ := r
    obtain ⟨clean, stop⟩ := agree
    rw [clean, stop]
    simp
  | error e =>
    rw [walk] at agree
    have corrupt : (scanSegment codec data true).stop.isCorrupt = true := agree
    simp [corrupt]

theorem plainCodec_boundedExpansion : BoundedExpansion PlainCodec.codec := by
  intro payload limit out decoded
  have := (PlainCodec.decompress_length decoded).1
  omega

/-- A segment of one stored frame, a torn header after it and no committed data behind. -/
theorem discoverOffset_iff_scanSegment_torn :
    BoundedExpansion PlainCodec.codec ∧
      ∃ maxVersion, discoverOffset PlainCodec.codec
        (ofWord 0xD3D99E8B ++ ofWord 1 ++ ofWord 1 ++ ofWord 7 ++ [0x41] ++
          [9, 9, 9, 9, 5, 0, 0, 0] ++ zeros 20) = .ok (17, maxVersion) := by
  refine ⟨plainCodec_boundedExpansion, ?_⟩
  rw [discoverOffset_iff_scanSegment _ plainCodec_boundedExpansion]
  decide

end Warm.Scan
