import Warm.JournalFrame
import Warm.PlainCodec

/-! What `write_frame` lays down: a header and the stored payload of each frame, then the end
marker where it fits and zeros up to the end of the mapping. The recovery walk steps over the
frames of such an image and stops at the end of its log. -/
namespace Warm

open Bytes List

/-- What the log relies on in `crc32fast` and `lz4_flex`: a checksum is a `u32`, a block is
never empty, and decompressing a compressed payload gives it back. -/
structure Codec.Lawful (codec : Codec) : Prop where
  crc32_lt : ∀ data, codec.crc32 data < 2 ^ 32
  compress_pos : ∀ data, 0 < (codec.compress data).length
  decompress_compress : ∀ data, codec.decompress (codec.compress data) data.length = some data

theorem PlainCodec.lawful : codec.Lawful where
  crc32_lt := PlainCodec.crc32_lt
  compress_pos data := by
    change 0 < (compress data).length
    unfold compress
    split <;> simp
  decompress_compress := PlainCodec.decompress_compress

namespace Journal

/-! The last nonzero byte. -/

theorem rposition_none (p : α → Bool) (xs : List α) (absent : rposition p xs = none) :
    ∀ (i : Nat) x, xs[i]? = some x → p x = false := by
  induction xs with
  | nil => simp
  | cons y ys ih =>
    rw [rposition] at absent
    split at absent
    · cases absent
    rename_i rest
    intro i x at_i
    cases i with
    | zero =>
      cases at_i
      cases holds : p y with
      | false => rfl
      | true => simp [holds] at absent
    | succ i => exact ih rest i x at_i

theorem rposition_some (p : α → Bool) (xs : List α) (found : rposition p xs = some last) :
    (∃ x, xs[last]? = some x ∧ p x = true) ∧
      ∀ (i : Nat) x, last < i → xs[i]? = some x → p x = false := by
  induction xs generalizing last with
  | nil => cases found
  | cons y ys ih =>
    rw [rposition] at found
    split at found
    · rename_i j later
      cases found
      obtain ⟨holds, none⟩ := ih later
      refine ⟨holds, ?_⟩
      intro i x after at_i
      cases i with
      | zero => omega
      | succ i => exact none i x (by omega) at_i
    · rename_i rest
      split at found
      case isFalse => cases found
      rename_i head
      cases found
      refine ⟨⟨y, rfl, head⟩, ?_⟩
      intro i x after at_i
      cases i with
      | zero => omega
      | succ i => exact rposition_none p ys rest i x at_i

theorem rposition_octet (data : Bytes) (found : rposition (· != 0) data = some last) :
    octet data last ≠ 0 ∧ ∀ j, last < j → octet data j = 0 := by
  obtain ⟨⟨x, at_last, nonzero⟩, rest⟩ := rposition_some _ _ found
  refine ⟨by simpa [octet, at_last] using nonzero, ?_⟩
  intro j after
  cases at_j : data[j]? with
  | none => simp [octet, at_j]
  | some y => simpa [octet, at_j] using rest j y after at_j

theorem rposition_zeros (data : Bytes) (absent : rposition (· != 0) data = none) :
    data = zeros data.length := by
  apply eq_replicate_of_mem
  intro x member
  obtain ⟨i, bound, rfl⟩ := mem_iff_getElem.mp member
  simpa using rposition_none _ _ absent i data[i] (by simp)

theorem octet_block (data : Bytes) (j : Nat) :
    octet data j = octet (slice data (j / blockSize * blockSize) blockSize) (j % blockSize) := by
  rw [octet_slice _ _ _ _ (Nat.mod_lt _ (by decide)), Nat.div_add_mod']

theorem lastNonzero_spec (data : Bytes) :
    match lastNonzero data with
    | some last => octet data last ≠ 0 ∧ ∀ j, last < j → octet data j = 0
    | none => ∀ j, octet data j = 0 := by
  have size : blockSize = 4096 := rfl
  unfold lastNonzero
  dsimp only
  cases tail : rposition (· != 0) (data.drop (data.length / blockSize * blockSize)) with
  | some i =>
    obtain ⟨nonzero, zero⟩ := rposition_octet _ tail
    simp only [octet_drop] at nonzero zero
    refine ⟨nonzero, ?_⟩
    intro j after
    have := zero (j - data.length / blockSize * blockSize) (by omega)
    rwa [Nat.add_sub_cancel' (by omega)] at this
  | none =>
    -- Above the last nonzero block every byte lies in a zero block or in the zero tail.
    have above (low : Nat) (skipped : ∀ b, low ≤ b → b < data.length / blockSize →
        slice data (b * blockSize) blockSize = zeros blockSize) (j : Nat)
        (block : low ≤ j / blockSize) : octet data j = 0 := by
      by_cases inside : j / blockSize < data.length / blockSize
      · rw [octet_block, skipped _ block inside, octet_zeros]
      · have start : data.length / blockSize * blockSize ≤ j :=
          Nat.le_trans (Nat.mul_le_mul_right _ (Nat.not_lt.mp inside)) (Nat.div_mul_le_self _ _)
        have := congrArg (fun bytes => octet bytes (j - data.length / blockSize * blockSize))
          (rposition_zeros _ tail)
        simpa only [octet_drop, octet_zeros, Nat.add_sub_cancel' start] using this
    cases blocks : rposition (fun b => slice data (b * blockSize) blockSize != zeros blockSize)
        (List.range (data.length / blockSize)) with
    | none =>
      intro j
      refine above 0 ?_ j (Nat.zero_le _)
      intro b _ inside
      simpa using rposition_none _ _ blocks b b (by simp [inside])
    | some b =>
      obtain ⟨⟨x, at_b, nonzero⟩, rest⟩ := rposition_some _ _ blocks
      obtain ⟨inside, rfl⟩ := List.getElem?_eq_some_iff.mp at_b
      simp only [length_range, getElem_range, bne_iff_ne, ne_eq] at inside nonzero
      have full : (slice data (b * blockSize) blockSize).length = blockSize := by
        apply slice_length
        have := Nat.mul_le_mul_right blockSize (Nat.succ_le_of_lt inside)
        have := Nat.div_mul_le_self data.length blockSize
        rw [Nat.succ_mul] at *
        omega
      cases within : rposition (· != 0) (slice data (b * blockSize) blockSize) with
      | none =>
        have zero := rposition_zeros _ within
        rw [full] at zero
        exact absurd zero nonzero
      | some i =>
        obtain ⟨found, zero⟩ := rposition_octet _ within
        have bound : i < blockSize := by
          apply Classical.byContradiction
          intro beyond
          exact found (octet_past_end _ _ (by omega))
        rw [octet_slice _ _ _ _ bound] at found
        simp only [within, Option.map_some]
        refine ⟨found, ?_⟩
        intro j after
        by_cases same : j / blockSize = b
        · have offset := zero (j % blockSize) (by
            have := Nat.div_add_mod' j blockSize
            rw [same] at this
            omega)
          rwa [← same, ← octet_block] at offset
        · have low : b ≤ j / blockSize := (Nat.le_div_iff_mul_le (by decide)).mpr (by omega)
          refine above (b + 1) ?_ j (by omega)
          intro b' later inside'
          simpa using rest b' b' (by omega) (by simp [inside'])

/-- A frame `write_frame` accepts: `version` is the counter before its cast to `u32`. -/
structure Frame where
  version : Nat
  data : Bytes
  nonempty : 0 < data.length
  bounded : data.length ≤ maxRawFrameSize

variable (codec : Codec)

/-- The compressed payload when that is shorter, else the payload itself. -/
def stored (data : Bytes) : Bytes :=
  let compressed := codec.compress data
  if compressed.length < data.length then compressed else data

def encodeFrame (version : Nat) (data : Bytes) : Bytes :=
  ofWord (codec.crc32 data) ++ (ofWord data.length ++ (ofWord (stored codec data).length ++
    (ofWord version ++ stored codec data)))

def Frame.encode (frame : Frame) : Bytes := encodeFrame codec frame.version frame.data

def logBytes (frames : List Frame) : Bytes := frames.flatMap (Frame.encode codec)

/-- What lies behind the last frame: the end marker and zeros, or only zeros where the marker
did not fit or was never written. -/
inductive Tail : Bytes → Prop where
  | zeros (n : Nat) : Tail (zeros n)
  | marked (n : Nat) : Tail (endMarkerBytes ++ zeros n)

def maxVersion (frames : List Frame) (start : Nat) : Nat :=
  frames.foldl (fun m frame => if frame.version % 2 ^ 32 > m then frame.version % 2 ^ 32 else m) start

@[simp] theorem endMarkerBytes_length : endMarkerBytes.length = 16 := rfl

theorem encodeFrame_length (version : Nat) (data : Bytes) :
    (encodeFrame codec version data).length = headerSize + (stored codec data).length := by
  simp only [encodeFrame, length_append, ofWord_length, headerSize_eq]
  omega

theorem stored_length_le (data : Bytes) : (stored codec data).length ≤ data.length := by
  simp only [stored]
  split <;> omega

section

variable (lawful : codec.Lawful)
include lawful

theorem stored_pos (data : Bytes) (nonempty : 0 < data.length) :
    0 < (stored codec data).length := by
  simp only [stored]
  split
  · exact lawful.compress_pos data
  · exact nonempty

theorem headerWords_encode (front rest : Bytes) (version : Nat) (data : Bytes)
    (bounded : data.length ≤ maxRawFrameSize) :
    headerWords ((front ++ (encodeFrame codec version data ++ rest)).drop front.length) =
      some ⟨codec.crc32 data, data.length, (stored codec data).length, version % 2 ^ 32⟩ := by
  have raw : data.length < 2 ^ 32 := Nat.lt_of_le_of_lt bounded (by decide)
  have comp := stored_length_le codec data
  have crc := lawful.crc32_lt data
  rw [drop_left, headerWords, if_pos (by simp [encodeFrame_length]; omega)]
  simp only [encodeFrame, append_assoc]
  have second (a b : Nat) (rest : Bytes) : word (ofWord a ++ (ofWord b ++ rest)) 4 = b % 2 ^ 32 := by
    rw [← word_ofWord_append b rest]
    exact word_append_right (ofWord a) _ 0
  have skip (a i : Nat) (rest : Bytes) : word (ofWord a ++ rest) (4 + i) = word rest i :=
    word_append_right (ofWord a) _ i
  rw [word_ofWord_append, second, skip _ 4, second, skip _ 8, skip _ 4, second,
    Nat.mod_eq_of_lt crc, Nat.mod_eq_of_lt raw, Nat.mod_eq_of_lt (by omega)]

theorem frameAt_encode (front rest : Bytes) (frame : Frame) :
    FrameAt codec (front ++ (frame.encode codec ++ rest)) front.length
      ⟨codec.crc32 frame.data, frame.data.length, (stored codec frame.data).length,
        frame.version % 2 ^ 32⟩ frame.data := by
  have payload : slice (front ++ (frame.encode codec ++ rest)) (front.length + headerSize)
      (stored codec frame.data).length = stored codec frame.data := by
    rw [slice_append_right, Frame.encode, encodeFrame, ← append_assoc, ← append_assoc,
      ← append_assoc, append_assoc _ _ rest]
    exact (slice_append_right _ _ 0 _).trans (slice_whole _ _)
  refine ⟨headerWords_encode codec lawful front rest _ _ frame.bounded,
    stored_pos codec lawful _ frame.nonempty, frame.bounded, stored_length_le codec _, ?_, ?_, rfl, rfl⟩
  · have := encodeFrame_length codec frame.version frame.data
    simp only [length_append, Frame.encode]
    omega
  · dsimp only
    rw [payload]
    split
    · rename_i shorter
      have compressed : stored codec frame.data = codec.compress frame.data := by
        simp only [stored] at shorter ⊢
        split
        · rfl
        · rename_i plain
          rw [if_neg plain] at shorter
          omega
      rw [compressed]
      exact lawful.decompress_compress frame.data
    · rename_i whole
      simp only [stored] at whole ⊢
      split
      · rename_i shorter
        rw [if_pos shorter] at whole
        omega
      · rfl

theorem encode_pos (frame : Frame) :
    headerSize < (frame.encode codec).length := by
  have := stored_pos codec lawful frame.data frame.nonempty
  rw [Frame.encode, encodeFrame_length]
  omega

theorem discoverLoop_log (frames : List Frame) (front rest : Bytes)
    (fuel version : Nat) :
    discoverLoop codec (front ++ (logBytes codec frames ++ rest)) (fuel + frames.length)
        front.length version =
      discoverLoop codec (front ++ (logBytes codec frames ++ rest)) fuel
        (front.length + (logBytes codec frames).length) (maxVersion frames version) := by
  induction frames generalizing front version with
  | nil => rfl
  | cons frame frames ih =>
    have valid := frameAt_encode codec lawful front (logBytes codec frames ++ rest) frame
    have split : front ++ (logBytes codec (frame :: frames) ++ rest) =
        front ++ (frame.encode codec ++ (logBytes codec frames ++ rest)) := by
      simp [logBytes]
    have onward := ih (front ++ frame.encode codec)
      (if frame.version % 2 ^ 32 > version then frame.version % 2 ^ 32 else version)
    simp only [append_assoc, length_append] at onward
    rw [split, length_cons, ← Nat.add_assoc, discoverLoop_frame codec valid]
    rw [← encodeFrame_length codec frame.version frame.data, ← Frame.encode, onward]
    simp only [logBytes, flatMap_cons, length_append, Nat.add_assoc]
    rfl

theorem frames_length_le (frames : List Frame) :
    frames.length ≤ (logBytes codec frames).length := by
  induction frames with
  | nil => exact Nat.zero_le _
  | cons frame frames ih =>
    have := encode_pos codec lawful frame
    simp only [logBytes, flatMap_cons, length_append, length_cons] at ih ⊢
    omega

theorem discoverOffset_log (frames : List Frame) (rest : Bytes) :
    ∃ fuel, rest.length ≤ fuel ∧ discoverOffset codec (logBytes codec frames ++ rest) =
      discoverLoop codec (logBytes codec frames ++ rest) (fuel + 1)
        (logBytes codec frames).length (maxVersion frames 0) := by
  have count := frames_length_le codec lawful frames
  refine ⟨(logBytes codec frames ++ rest).length - frames.length,
    by rw [length_append]; omega, ?_⟩
  have walk := discoverLoop_log codec lawful frames [] rest
    ((logBytes codec frames ++ rest).length - frames.length + 1) 0
  simp only [nil_append, length_nil, Nat.zero_add] at walk
  rw [discoverOffset, ← walk]
  congr 1
  rw [length_append]
  omega

end

theorem committedAfter_quiet (data : Bytes) (start : Nat) (includeEndMarker : Bool)
    (positive : 0 < start) (zero : ∀ j, start + 15 ≤ j → octet data j = 0) :
    committedAfter codec data start includeEndMarker = none := by
  have size := headerSize_eq
  have spec := lastNonzero_spec data
  unfold committedAfter
  cases found : lastNonzero data with
  | none => rfl
  | some last =>
    rw [found] at spec
    have below : last < start + 15 := by
      apply Classical.byContradiction
      intro beyond
      exact spec.1 (zero last (by omega))
    have empty : last - (headerSize - 1) + 1 - start = 0 := by omega
    dsimp only
    rw [empty]
    rfl

theorem discoverLoop_quiet (bad : frameChecksOut codec data offset = false)
    (zero : ∀ j, offset + headerSize ≤ j → octet data j = 0) (fuel version : Nat) :
    discoverLoop codec data (fuel + 1) offset version = .ok (offset, version) := by
  have size := headerSize_eq
  have next : committedAfter codec data (offset + 1) true = none :=
    committedAfter_quiet codec data _ _ (by omega) (fun j after => zero j (by omega))
  have hidden : committedAfter codec data (offset + headerSize) false = none :=
    committedAfter_quiet codec data _ _ (by omega) (fun j after => zero j (by omega))
  have failed : fail codec data offset version = .ok (offset, version) := by
    rw [fail, next]
  rw [discoverLoop]
  cases headerWords (data.drop offset) with
  | none => rfl
  | some h => simp [hidden, failed, bad]

theorem frameChecksOut_empty (empty : word data (offset + 8) = 0) :
    frameChecksOut codec data offset = false := by
  rw [frameChecksOut, headerWords_drop]
  by_cases inside : offset + headerSize ≤ data.length
  · simp [inside, empty]
  · simp [inside]

theorem Tail.octet_zero (tail : Tail bytes) (i : Nat) (outside : i < 12 ∨ 16 ≤ i) :
    octet bytes i = 0 := by
  cases tail with
  | zeros n => simp
  | marked n =>
    rcases outside with low | high
    · rw [octet_append_left _ _ (by simp; omega), endMarkerBytes,
        octet_append_left _ _ (by simpa using low), octet_zeros]
    · obtain ⟨j, rfl⟩ := Nat.exists_eq_add_of_le high
      exact (octet_append_right endMarkerBytes _ j).trans (octet_zeros _ _)

theorem discoverOffset_tail (lawful : codec.Lawful) (frames : List Frame) (tail : Tail bytes) :
    discoverOffset codec (logBytes codec frames ++ bytes) =
      .ok ((logBytes codec frames).length, maxVersion frames 0) := by
  obtain ⟨fuel, _, walk⟩ := discoverOffset_log codec lawful frames bytes
  rw [walk]
  apply discoverLoop_quiet
  · apply frameChecksOut_empty
    rw [word_append_right, word_eq_zero_iff]
    intro j bound
    exact tail.octet_zero _ (by omega)
  · intro j after
    have := headerSize_eq
    obtain ⟨i, rfl⟩ := Nat.exists_eq_add_of_le (Nat.le_trans (Nat.le_add_right _ _) after)
    rw [octet_append_right]
    exact tail.octet_zero _ (by omega)

end Journal

end Warm
