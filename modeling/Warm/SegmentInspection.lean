import Warm.ArenaReplay
import Warm.Checked
import Warm.JournalDamage

/-! The inspection of one segment by `warm-admin`, a third walk over the journal's frames, against
what the engine itself makes of the same bytes. -/
namespace Warm.Admin

open Bytes Journal

variable (codec : Codec)

/-- The payload whose checksum is compared, and the comparison. -/
def verifyFrame (data : Bytes) (path : String) (offset : Nat) (h : Header) : Except String Unit := do
  let payload := slice data (offset + headerSize) h.compLen
  let decoded ←
    if h.compLen < h.rawLen then
      match codec.decompress payload h.rawLen with
      | some decoded => .ok decoded
      | none => .error s!"invalid LZ4 frame in {path} at byte {offset}"
    else .ok payload
  if codec.crc32 decoded = h.crc then .ok () else .error s!"checksum mismatch in {path} at byte {offset}"

def inspectLoop (data : Bytes) (path : String) (verifyChecksums : Bool) : Nat → Nat → Nat → Except String (Nat × Nat)
  | 0, offset, frames => .ok (frames, offset)
  | fuel + 1, offset, frames =>
    match headerWords (data.drop offset) with
    | none => .ok (frames, offset)
    | some h =>
      if h.rawLen = 0 ∧ h.compLen = 0 then
        if isLogEnd (slice data offset headerSize) then .ok (frames, offset)
        else .error s!"invalid end-of-log header in {path} at byte {offset}"
      else if h.rawLen = 0 ∨ h.rawLen > maxRawFrameSize ∨ h.compLen = 0 ∨ h.compLen > data.length then
        .error s!"invalid frame header in {path} at byte {offset}"
      else
        let frameEnd := offset + (headerSize + h.compLen)
        if 2 ^ 64 ≤ frameEnd then .error s!"frame length overflow in {path}"
        else if frameEnd > data.length then .error s!"truncated frame in {path} at byte {offset}"
        else do
          if verifyChecksums then verifyFrame codec data path offset h
          inspectLoop data path verifyChecksums fuel frameEnd (frames + 1)

/-- The number of frames and the end of the log. Every iteration passes a frame of at least 17 bytes, so
the fuel is never spent. -/
def inspectSegment (data : Bytes) (path : String) (verifyChecksums : Bool) : Except String (Nat × Nat) :=
  inspectLoop codec data path verifyChecksums (data.length + 1) 0 0

/-! ### The frames of a segment by its headers alone -/

def framesFrom (data : Bytes) : Nat → Nat → List (Nat × Header)
  | 0, _ => []
  | fuel + 1, offset =>
    match headerWords (data.drop offset) with
    | none => []
    | some h =>
      if h.rawLen = 0 ∧ h.compLen = 0 then []
      else (offset, h) :: framesFrom data fuel (offset + (headerSize + h.compLen))

/-- Where each header leads by its stored length, up to a header without lengths. -/
def frames (data : Bytes) : List (Nat × Header) := framesFrom data (data.length + 1) 0

/-- The byte behind these frames, the first of which starts at `offset`. -/
def endOf (offset : Nat) (frames : List (Nat × Header)) : Nat :=
  frames.foldl (fun _ frame => frame.1 + (headerSize + frame.2.compLen)) offset

/-- A frame that passes the inspection; unlike `FrameAt` it says nothing of a payload longer than the
header has it. -/
structure Inspected (data : Bytes) (offset : Nat) (h : Header) (decoded : Bytes) : Prop where
  header : headerWords (data.drop offset) = some h
  nonempty : 0 < h.rawLen
  bounded : h.rawLen ≤ maxRawFrameSize
  stored : 0 < h.compLen
  inside : offset + (headerSize + h.compLen) ≤ data.length
  payload : if h.compLen < h.rawLen
    then codec.decompress (slice data (offset + headerSize) h.compLen) h.rawLen = some decoded
    else decoded = slice data (offset + headerSize) h.compLen
  checksum : codec.crc32 decoded = h.crc

/-- What the inspection does not look at: the stored length against the raw one, and the length of what
was decompressed. -/
def LengthsAgree (data : Bytes) (frame : Nat × Header) : Prop :=
  frame.2.compLen ≤ frame.2.rawLen ∧ (frame.2.compLen < frame.2.rawLen →
    ∀ decoded, codec.decompress (slice data (frame.1 + headerSize) frame.2.compLen) frame.2.rawLen = some decoded →
      decoded.length = frame.2.rawLen)

variable {codec : Codec} {data : Bytes} {path : String} {offset count last : Nat} {h : Header} {decoded : Bytes}

theorem verifyFrame_ok (verified : verifyFrame codec data path offset h = .ok ()) :
    ∃ decoded, (if h.compLen < h.rawLen
      then codec.decompress (slice data (offset + headerSize) h.compLen) h.rawLen = some decoded
      else decoded = slice data (offset + headerSize) h.compLen) ∧ codec.crc32 decoded = h.crc := by
  unfold verifyFrame at verified
  dsimp only at verified
  split at verified
  next compressed =>
    split at verified
    next decoded found =>
      obtain ⟨_, own, checked⟩ := bind_eq_ok.mp verified
      cases own
      split at checked
      next same => exact ⟨decoded, (if_pos compressed).mpr found, same⟩
      next => cases checked
    next => cases verified
  next plain =>
    obtain ⟨_, same, checked⟩ := bind_eq_ok.mp verified
    cases same
    split at checked
    next same => exact ⟨_, (if_neg plain).mpr rfl, same⟩
    next => cases checked

theorem inspectLoop_frame (header : headerWords (data.drop offset) = some h) (lengths : ¬(h.rawLen = 0 ∧ h.compLen = 0))
    (accepted : inspectLoop codec data path true (fuel + 1) offset count = .ok (total, last)) :
    (∃ decoded, Inspected codec data offset h decoded) ∧
      inspectLoop codec data path true fuel (offset + (headerSize + h.compLen)) (count + 1) = .ok (total, last) := by
  rw [inspectLoop] at accepted
  simp only [header] at accepted
  rw [if_neg lengths] at accepted
  split at accepted
  next => cases accepted
  next sane =>
    split at accepted
    next => cases accepted
    next =>
      split at accepted
      next => cases accepted
      next inside =>
        rw [if_pos trivial] at accepted
        obtain ⟨_, verified, onward⟩ := bind_eq_ok.mp accepted
        obtain ⟨decoded, payload, checksum⟩ := verifyFrame_ok verified
        exact ⟨⟨decoded, header, by omega, by omega, by omega, by omega, payload, checksum⟩, onward⟩

theorem inspectLoop_end (header : headerWords (data.drop offset) = some h) (lengths : h.rawLen = 0 ∧ h.compLen = 0)
    (accepted : inspectLoop codec data path true (fuel + 1) offset count = .ok (total, last)) :
    isLogEnd (slice data offset headerSize) = true ∧ (total, last) = (count, offset) := by
  rw [inspectLoop] at accepted
  simp only [header] at accepted
  rw [if_pos lengths] at accepted
  split at accepted
  next ends =>
    cases accepted
    exact ⟨ends, rfl⟩
  next => cases accepted

/-- An accepted segment has inspected frames only, and they are followed by the log's end or by fewer
bytes than a header has. -/
theorem inspectLoop_ok (enough : data.length < offset + fuel)
    (accepted : inspectLoop codec data path true fuel offset count = .ok (total, last)) :
    total = count + (framesFrom data fuel offset).length ∧ last = endOf offset (framesFrom data fuel offset) ∧
      (∀ frame ∈ framesFrom data fuel offset, ∃ decoded, Inspected codec data frame.1 frame.2 decoded) ∧
      (data.length < last + headerSize ∨ isLogEnd (slice data last headerSize) = true) := by
  have size := headerSize_eq
  induction fuel generalizing offset count with
  | zero =>
    cases accepted
    refine ⟨rfl, rfl, ?_, .inl (by omega)⟩
    intro frame member
    cases member
  | succ fuel ih =>
    cases header : headerWords (data.drop offset) with
    | none =>
      rw [inspectLoop] at accepted
      simp only [header] at accepted
      rw [headerWords_drop] at header
      have short : data.length < offset + headerSize := by
        by_contra room
        rw [if_pos (by omega)] at header
        cases header
      cases accepted
      rw [framesFrom, headerWords_drop, if_neg (by omega)]
      refine ⟨rfl, rfl, ?_, .inl short⟩
      intro frame member
      cases member
    | some h =>
      rw [framesFrom]
      simp only [header]
      by_cases lengths : h.rawLen = 0 ∧ h.compLen = 0
      · obtain ⟨ends, same⟩ := inspectLoop_end header lengths accepted
        cases same
        rw [if_pos lengths]
        refine ⟨rfl, rfl, ?_, .inr ends⟩
        intro frame member
        cases member
      · obtain ⟨⟨decoded, own⟩, onward⟩ := inspectLoop_frame header lengths accepted
        have stored := own.stored
        obtain ⟨counted, stop, each, tail⟩ := ih (by omega) onward
        rw [if_neg lengths]
        refine ⟨?_, stop, ?_, tail⟩
        · rw [counted, List.length_cons]
          omega
        · exact List.forall_mem_cons.mpr ⟨⟨decoded, own⟩, each⟩

theorem discoverLoop_frames (fuel extra offset version : Nat)
    (valid : ∀ frame ∈ framesFrom data fuel offset, ∃ raw, FrameAt codec data frame.1 frame.2 raw) :
    ∃ rest version', extra ≤ rest ∧ discoverLoop codec data (fuel + extra) offset version =
      discoverLoop codec data rest (endOf offset (framesFrom data fuel offset)) version' := by
  induction fuel generalizing offset version with
  | zero => exact ⟨0 + extra, version, by omega, rfl⟩
  | succ fuel ih =>
    rw [framesFrom] at valid ⊢
    cases header : headerWords (data.drop offset) with
    | none => exact ⟨fuel + 1 + extra, version, by omega, rfl⟩
    | some h =>
      simp only [header] at valid ⊢
      by_cases lengths : h.rawLen = 0 ∧ h.compLen = 0
      · rw [if_pos lengths]
        exact ⟨fuel + 1 + extra, version, by omega, rfl⟩
      · rw [if_neg lengths] at valid ⊢
        obtain ⟨raw, own⟩ := valid (offset, h) List.mem_cons_self
        obtain ⟨rest, version', more, onward⟩ := ih (offset + (headerSize + h.compLen))
          (if h.version > version then h.version else version)
          (List.forall_mem_cons.mp valid).2
        refine ⟨rest, version', more, ?_⟩
        rw [Nat.succ_add, discoverLoop_frame codec own, onward]
        rfl

/-! ### What the engine reads of an inspected segment -/

/-- The arena whose only segment is this image. -/
def opened (data : Bytes) (last : Nat) : Arena := ⟨[data], 0, data.length, last, 0, false⟩

theorem opened_mapped (format : Format) (declared : data.length ≤ format.segmentSize) (last : Nat) :
    Arena.Mapped format (opened data last) 0 data :=
  ⟨Nat.le_refl 0, (List.take_length).symm, declared⟩

theorem readFrame_frameAt (declared : data.length ≤ format.segmentSize)
    (inspected : Inspected codec data offset h decoded)
    (read : Arena.readFrame codec format (opened data last) offset = .ok (payload, version)) :
    FrameAt codec data offset h decoded := by
  have size := headerSize_eq
  have inside := inspected.inside
  have stored := inspected.stored
  have mapped := opened_mapped format declared last
  have mapping := Arena.mapping_eq mapped (show offset < format.segmentSize by omega) (by omega)
  rw [Nat.zero_mul, Nat.zero_add] at mapping
  have payload_eq : slice (data.drop offset) headerSize h.compLen = slice data (offset + headerSize) h.compLen := by
    rw [slice, slice, List.drop_drop]
  have unpack := inspected.payload
  rw [Arena.readFrame, mapping] at read
  simp only [bind, Except.bind, inspected.header] at read
  rw [payload_eq] at read
  split at read
  next => cases read
  next =>
    split at read
    next => cases read
    next =>
      split at read
      next => cases read
      next shrunk =>
        split at read
        next =>
          refine ⟨inspected.header, stored, inspected.bounded, by omega, inside, unpack, ?_, inspected.checksum⟩
          by_cases compressed : h.compLen < h.rawLen
          · rw [if_pos compressed] at unpack
            simp only [compressed, ↓reduceIte, unpack] at read
            split at read
            next => cases read
            next same => exact not_not.mp same
          · rw [if_neg compressed] at unpack
            rw [unpack, slice_length _ _ _ (by omega)]
            omega
        next => cases read

theorem Inspected.frameAt (inspected : Inspected codec data offset h decoded) (agree : LengthsAgree codec data (offset, h)) :
    FrameAt codec data offset h decoded := by
  have inside := inspected.inside
  have payload := inspected.payload
  refine ⟨inspected.header, inspected.stored, inspected.bounded, agree.1, inside, payload, ?_, inspected.checksum⟩
  have shrunk : h.compLen ≤ h.rawLen := agree.1
  by_cases compressed : h.compLen < h.rawLen
  · rw [if_pos compressed] at payload
    exact agree.2 compressed decoded payload
  · rw [if_neg compressed] at payload
    rw [payload, slice_length _ _ _ (by omega)]
    omega

theorem lengthsAgree_of_frameAt (frame : FrameAt codec data offset h decoded) : LengthsAgree codec data (offset, h) := by
  refine ⟨frame.shrunk, fun compressed out found => ?_⟩
  have payload := frame.payload
  rw [if_pos compressed] at payload
  rw [payload] at found
  cases found
  exact frame.length

/-- Behind valid frames the engine finds the same end unless a valid frame is hidden behind it. -/
theorem discoverOffset_frames (valid : ∀ frame ∈ frames data, ∃ raw, FrameAt codec data frame.1 frame.2 raw)
    (tail : data.length < endOf 0 (frames data) + headerSize ∨
      isLogEnd (slice data (endOf 0 (frames data)) headerSize) = true) :
    (∃ version, discoverOffset codec data = .ok (endOf 0 (frames data), version)) ↔
      ¬∃ i, InReach data i ∧ endOf 0 (frames data) + headerSize ≤ i ∧ frameChecksOut codec data i = true := by
  have size := headerSize_eq
  obtain ⟨rest, version, more, walk⟩ := discoverLoop_frames (data.length + 1) 1 0 0 valid
  have whole : discoverOffset codec data =
      discoverLoop codec data rest (endOf 0 (frames data)) version := by
    rw [discoverOffset, ← discoverLoop_fuel codec data (data.length + 1) 0 0 (by omega)]
    exact walk
  obtain ⟨fuel, rfl⟩ := Nat.exists_eq_add_of_le' more
  rw [whole]
  by_cases room : endOf 0 (frames data) + headerSize ≤ data.length
  · have ends := tail.resolve_left (by omega)
    obtain ⟨_, raw, comp, _⟩ := (isLogEnd_slice data _ room).mp ends
    have broken := frameChecksOut_empty codec comp
    have reported := discoverLoop_broken codec room broken fuel version
    simp only [Counts, ends, ↓reduceIte] at reported
    rw [← reported]
    constructor
    · rintro ⟨found, same⟩ ⟨e, failed⟩
      rw [failed] at same
      cases same
    · intro quiet
      have header := headerWords_drop data (endOf 0 (frames data))
      rw [if_pos room] at header
      refine ⟨version, ?_⟩
      cases outcome : discoverLoop codec data (fuel + 1) (endOf 0 (frames data)) version with
      | error e => exact absurd ⟨e, outcome⟩ quiet
      | ok result =>
        rw [discoverLoop] at outcome
        simp only [header] at outcome
        rw [if_pos ⟨raw, comp⟩, if_pos ends] at outcome
        split at outcome
        next hidden =>
          obtain ⟨e, failed⟩ := fail_after_end codec version hidden
          rw [failed] at outcome
          cases outcome
        next => exact outcome.symm
  · rw [discoverLoop_short codec (by omega)]
    constructor
    · rintro _ ⟨i, _, behind, checks⟩
      obtain ⟨h, raw, frame⟩ := (frameChecksOut_iff codec data i).mp checks
      have inside := frame.header_inside
      omega
    · intro _
      exact ⟨version, rfl⟩

/-- On a segment the inspection accepts, the engine finds the same end and reads every counted frame exactly
when the lengths of each frame agree and no valid frame is hidden behind the end. -/
theorem inspectSegment_agrees_iff (codec : Codec) (format : Format) (data : Bytes) (path : String) (counted last : Nat)
    (declared : data.length ≤ format.segmentSize)
    (accepted : inspectSegment codec data path true = .ok (counted, last)) :
    (counted = (frames data).length ∧ last = endOf 0 (frames data)) ∧
      (((∃ version, discoverOffset codec data = .ok (last, version)) ∧
          ∀ frame ∈ frames data, ∃ payload version,
            Arena.readFrame codec format (opened data last) frame.1 = .ok (payload, version)) ↔
        (∀ frame ∈ frames data, LengthsAgree codec data frame) ∧
          ¬∃ i, InReach data i ∧ endOf 0 (frames data) + headerSize ≤ i ∧ frameChecksOut codec data i = true) := by
  obtain ⟨total, stop, each, tail⟩ := inspectLoop_ok (by omega) accepted
  change last = endOf 0 (frames data) at stop
  subst stop
  refine ⟨⟨by rw [total, Nat.zero_add]; rfl, rfl⟩, ?_⟩
  constructor
  · rintro ⟨found, readable⟩
    have valid : ∀ frame ∈ frames data, ∃ raw, FrameAt codec data frame.1 frame.2 raw := by
      intro frame member
      obtain ⟨decoded, inspected⟩ := each frame member
      obtain ⟨payload, version, read⟩ := readable frame member
      exact ⟨decoded, readFrame_frameAt declared inspected read⟩
    refine ⟨fun frame member => ?_, (discoverOffset_frames valid tail).mp found⟩
    obtain ⟨raw, own⟩ := valid frame member
    exact lengthsAgree_of_frameAt own
  · rintro ⟨agree, quiet⟩
    have valid : ∀ frame ∈ frames data, ∃ raw, FrameAt codec data frame.1 frame.2 raw := by
      intro frame member
      obtain ⟨decoded, inspected⟩ := each frame member
      exact ⟨decoded, inspected.frameAt (agree frame member)⟩
    refine ⟨(discoverOffset_frames valid tail).mpr quiet, fun frame member => ?_⟩
    obtain ⟨raw, own⟩ := valid frame member
    have read := Arena.readFrame_eq codec (opened_mapped format declared (endOf 0 (frames data))) own
    rw [Nat.zero_mul, Nat.zero_add] at read
    exact ⟨raw, frame.2.version, read⟩

/-- The frame of one byte, an end marker and zeros. -/
theorem inspectSegment_agrees_marked :
    (1 = (frames (encodeFrame PlainCodec.codec 0 [0x41] ++ (endMarkerBytes ++ zeros 3))).length ∧
        17 = endOf 0 (frames (encodeFrame PlainCodec.codec 0 [0x41] ++ (endMarkerBytes ++ zeros 3)))) ∧
      (((∃ version, discoverOffset PlainCodec.codec (encodeFrame PlainCodec.codec 0 [0x41] ++ (endMarkerBytes ++ zeros 3)) =
            .ok (17, version)) ∧
          ∀ frame ∈ frames (encodeFrame PlainCodec.codec 0 [0x41] ++ (endMarkerBytes ++ zeros 3)), ∃ payload version,
            Arena.readFrame PlainCodec.codec ⟨4, true⟩
              (opened (encodeFrame PlainCodec.codec 0 [0x41] ++ (endMarkerBytes ++ zeros 3)) 17) frame.1 =
                .ok (payload, version)) ↔
        (∀ frame ∈ frames (encodeFrame PlainCodec.codec 0 [0x41] ++ (endMarkerBytes ++ zeros 3)),
            LengthsAgree PlainCodec.codec (encodeFrame PlainCodec.codec 0 [0x41] ++ (endMarkerBytes ++ zeros 3)) frame) ∧
          ¬∃ i, InReach (encodeFrame PlainCodec.codec 0 [0x41] ++ (endMarkerBytes ++ zeros 3)) i ∧
            endOf 0 (frames (encodeFrame PlainCodec.codec 0 [0x41] ++ (endMarkerBytes ++ zeros 3))) + headerSize ≤ i ∧
            frameChecksOut PlainCodec.codec (encodeFrame PlainCodec.codec 0 [0x41] ++ (endMarkerBytes ++ zeros 3)) i = true) :=
  inspectSegment_agrees_iff PlainCodec.codec ⟨4, true⟩ _ "seg_0.bin" 1 17 (by decide) (by decide)

/-! A segment whose first frame was lost, and not the one behind it. -/

def headless (n : Nat) : Bytes := zeros 16 ++ (encodeFrame PlainCodec.codec 0 [0x41] ++ zeros n)

theorem headless_length (n : Nat) : (headless n).length = 33 + n := by
  have long : (encodeFrame PlainCodec.codec 0 [0x41]).length = 17 := rfl
  rw [headless, List.length_append, List.length_append, long, zeros_length, zeros_length]
  omega

theorem headless_room (n : Nat) : 0 + headerSize ≤ (headless n).length := by
  rw [headless_length, headerSize_eq]
  omega

theorem headless_slice (n : Nat) : slice (headless n) 0 headerSize = zeros 16 := slice_whole (zeros 16) _

theorem headless_word (n : Nat) (inside : i + 4 ≤ 16) : word (headless n) i = 0 := by
  rw [headless, word_append_left _ _ _ inside, word_zeros]

theorem inspectSegment_headless (n : Nat) (path : String) :
    inspectSegment PlainCodec.codec (headless n) path true = .ok (0, 0) := by
  rw [inspectSegment, inspectLoop, headerWords_drop, if_pos (headless_room n)]
  dsimp only
  rw [if_pos ⟨headless_word n (by decide), headless_word n (by decide)⟩, headless_slice, if_pos (by decide)]

theorem discoverOffset_headless (n : Nat) : ¬∃ version, discoverOffset PlainCodec.codec (headless n) = .ok (0, version) := by
  have valid := frameAt_encode PlainCodec.codec PlainCodec.lawful (zeros 16) (zeros n) ⟨0, [0x41], by decide, by decide⟩
  have hidden : ∃ i, InReach (headless n) i ∧ Counts PlainCodec.codec (headless n) 0 i := by
    refine ⟨16, ⟨16 + 16, by decide, ?_⟩, ?_⟩
    · have place := octet_append_right (zeros 16) (encodeFrame PlainCodec.codec 0 [0x41] ++ zeros n) 16
      rw [zeros_length] at place
      rw [headless, place, octet_append_left _ _ (by decide)]
      decide
    · rw [Counts, headless_slice, if_pos (by decide)]
      exact ⟨by decide, (frameChecksOut_iff _ _ _).mpr ⟨_, _, valid⟩⟩
  obtain ⟨e, failed⟩ := (discoverLoop_broken PlainCodec.codec (headless_room n)
    (frameChecksOut_empty PlainCodec.codec (headless_word n (by decide))) (headless n).length 0).mpr hidden
  rintro ⟨version, found⟩
  rw [discoverOffset, failed] at found
  cases found

/-- In a segment of 64 MiB the inspection finds an empty log, the engine a frame behind its end. -/
theorem inspectSegment_lenient :
    (headless 67108831).length = Arena.SEGMENT_SIZE ∧
      inspectSegment PlainCodec.codec (headless 67108831) "seg_0.bin" true = .ok (0, 0) ∧
      ¬∃ version, discoverOffset PlainCodec.codec (headless 67108831) = .ok (0, version) :=
  ⟨headless_length 67108831, inspectSegment_headless 67108831 "seg_0.bin", discoverOffset_headless 67108831⟩

/-! ### Segments the engine wrote -/

theorem verifyFrame_frameAt (frame : FrameAt codec data offset h decoded) : verifyFrame codec data path offset h = .ok () := by
  have payload := frame.payload
  unfold verifyFrame
  by_cases compressed : h.compLen < h.rawLen
  · rw [if_pos compressed] at payload
    simp [compressed, payload, frame.checksum, bind, Except.bind]
  · rw [if_neg compressed] at payload
    simp [compressed, ← payload, frame.checksum, bind, Except.bind]

theorem inspectLoop_frameAt (frame : FrameAt codec data offset h decoded) (small : data.length < 2 ^ 64) (fuel : Nat) :
    inspectLoop codec data path true (fuel + 1) offset count =
      inspectLoop codec data path true fuel (offset + (headerSize + h.compLen)) (count + 1) := by
  have inside := frame.inside
  have stored := frame.stored
  have shrunk := frame.shrunk
  have bounded := frame.bounded
  rw [inspectLoop]
  simp only [frame.header]
  rw [if_neg (by omega), if_neg (by omega), if_neg (by omega), if_neg (by omega), if_pos trivial, verifyFrame_frameAt frame]
  rfl

theorem inspectLoop_log (lawful : codec.Lawful) (tail : Tail rest) (before after : List Frame)
    (small : (logBytes codec (before ++ after) ++ rest).length < 2 ^ 64) (fuel : Nat) (enough : after.length < fuel) :
    inspectLoop codec (logBytes codec (before ++ after) ++ rest) path true fuel (logBytes codec before).length before.length =
      .ok ((before ++ after).length, (logBytes codec (before ++ after)).length) := by
  obtain ⟨fuel, rfl⟩ := Nat.exists_eq_add_of_lt enough
  induction after generalizing before with
  | nil =>
    rw [List.append_nil, inspectLoop, headerWords_drop]
    split
    next => rfl
    next h found =>
      split at found
      next room =>
        cases found
        have behind : Tail ((logBytes codec before ++ rest).drop (logBytes codec before).length) := by rwa [List.drop_left]
        have ends := Arena.isLogEnd_tail behind room
        obtain ⟨_, raw, comp, _⟩ := (isLogEnd_slice _ _ room).mp ends
        rw [if_pos ⟨raw, comp⟩, if_pos ends]
      next => cases found
  | cons frame after ih =>
    have onward := ih (before ++ [frame]) (by rwa [List.append_assoc]) (by omega)
    rw [Arena.logBytes_concat_length, List.append_assoc, List.length_append] at onward
    rw [List.length_cons, Nat.add_right_comm _ 1 fuel,
      inspectLoop_frameAt (Arena.frameAt_log codec lawful before after frame rest) small]
    exact onward

/-- The inspection accepts every file a run of appends, faults and reopenings leaves and counts its frames. -/
theorem inspectSegment_run (codec : Codec) (lawful : codec.Lawful) (format : Format) (ops : List Arena.Op) (path : String) :
    ∃ fresh last acknowledged segments, Arena.openArena codec format [] = .ok fresh ∧
      Arena.run codec format fresh ops = .ok (last, acknowledged) ∧ segments.flatten.map Frame.data = acknowledged ∧
      List.Forall₂ (fun frames file => inspectSegment codec file path true =
        .ok (frames.length, (logBytes codec frames).length)) segments last.files := by
  have image {frames : List Frame} {file : Bytes} (image : Arena.Image codec frames file)
      (declared : file.length ≤ format.segmentSize) : inspectSegment codec file path true = .ok (frames.length, (logBytes codec frames).length) := by
    obtain ⟨rest, tail, rfl⟩ := image
    have count := frames_length_le codec lawful frames
    have small : format.segmentSize < 2 ^ 64 := by
      unfold Format.segmentSize
      split <;> decide
    refine inspectLoop_log lawful tail [] frames (declared.trans_lt small) _ ?_
    rw [List.length_append]
    omega
  obtain ⟨fresh, opened, start⟩ := Arena.openArena_new codec lawful format
  obtain ⟨last, acknowledged, ran, logs, log, front, active, next, inv, rfl⟩ := Arena.run_holds codec lawful ops start
  have sealed := inv.sealed.imp fun frames file own => image own.image (Nat.le_of_eq own.full)
  have current := image inv.image inv.capacity.declared
  refine ⟨fresh, last, _, logs ++ log :: next.map fun _ => [], opened, ran, ?_, ?_⟩
  · cases inv.leftover <;> simp [Arena.payloads]
  · rw [inv.files]
    refine List.rel_append sealed (.cons current ?_)
    cases inv.leftover with
    | absent => exact .nil
    | created n _ small =>
      refine .cons (image ⟨zeros n, .zeros n, rfl⟩ ?_) .nil
      rw [zeros_length]
      exact small.trans (Arena.newCapacity_le format)

theorem inspectSegment_run_rolled_back : ∃ fresh last acknowledged segments,
    Arena.openArena PlainCodec.codec ⟨4, true⟩ [] = .ok fresh ∧
      Arena.run PlainCodec.codec ⟨4, true⟩ fresh [.append [0x41] true .none, .append [0x42] true ⟨none, none, true⟩] =
        .ok (last, acknowledged) ∧ segments.flatten.map Frame.data = acknowledged ∧
      List.Forall₂ (fun frames file => inspectSegment PlainCodec.codec file "seg_0.bin" true =
        .ok (frames.length, (logBytes PlainCodec.codec frames).length)) segments last.files :=
  inspectSegment_run _ PlainCodec.lawful _ _ _

end Warm.Admin
