import Warm.JournalLog

/-! An append cut short: any prefix of the bytes `write_frame` lays down, persisted over the end
marker and the zeros of a committed log. Recovery tells a torn tail from corruption by looking
for committed data behind the bad frame. The torn bytes are user payload, which may be stored
as it is, so they can hold such data themselves. -/
namespace Warm.Journal

open Bytes List

variable (codec : Codec)

/-- The bytes of one append into `room` bytes: the frame, and the end marker where it fits. -/
def laidDown (frame : Frame) (room : Nat) : Bytes :=
  frame.encode codec ++
    if (frame.encode codec).length + headerSize ≤ room then endMarkerBytes else []

/-- What the append leaves of the tail when only its first `k` bytes were persisted. -/
def tornTail (frame : Frame) (tail : Bytes) (k : Nat) : Bytes :=
  write tail 0 ((laidDown codec frame tail.length).take k)

/-- The segment after the torn append. -/
def torn (frames : List Frame) (frame : Frame) (tail : Bytes) (k : Nat) : Bytes :=
  write (logBytes codec frames ++ tail) (logBytes codec frames).length
    ((laidDown codec frame tail.length).take k)

/-- Bytes behind the start of the torn frame that read as committed data: a whole valid frame
or an end marker. -/
def FalseWitness (bytes : Bytes) : Prop :=
  ∃ i last, 0 < i ∧ i + headerSize ≤ last + 1 ∧ octet bytes last ≠ 0 ∧
    ((∃ h raw, FrameAt codec bytes i h raw) ∨ slice bytes i headerSize = endMarkerBytes)

/-- Reopening finds the old log, or the old log and the new frame. -/
def Recovers (frames : List Frame) (frame : Frame) (data : Bytes) : Prop :=
  ∃ version, discoverOffset codec data = .ok ((logBytes codec frames).length, version) ∨
    discoverOffset codec data = .ok ((logBytes codec (frames ++ [frame])).length, version)

theorem torn_eq (frames : List Frame) (frame : Frame) (tail : Bytes) (k : Nat) :
    torn codec frames frame tail k = logBytes codec frames ++ tornTail codec frame tail k := by
  simp [torn, tornTail, write]

theorem laidDown_octet_encode (frame : Frame) (room j : Nat) (inside : j < (frame.encode codec).length) :
    octet (laidDown codec frame room) j = octet (frame.encode codec) j :=
  octet_append_left _ _ inside

theorem laidDown_octet_marker (frame : Frame) (room j : Nat) (outside : j < 12 ∨ 16 ≤ j) :
    octet (laidDown codec frame room) ((frame.encode codec).length + j) = 0 := by
  rw [laidDown, octet_append_right]
  split
  · have marker := (Tail.marked 0).octet_zero j outside
    simpa using marker
  · rfl

theorem tornTail_octet (frame : Frame) (tail : Bytes) (cut : k ≤ (laidDown codec frame tail.length).length)
    (j : Nat) :
    octet (tornTail codec frame tail k) j =
      if j < k then octet (laidDown codec frame tail.length) j else octet tail j := by
  have length : ((laidDown codec frame tail.length).take k).length = k := by
    rw [length_take]
    omega
  simp only [tornTail, write, take_zero, nil_append, Nat.zero_add, length]
  split
  · rename_i below
    rw [octet_append_left _ _ (by omega)]
    simp [octet, getElem?_take_of_lt below]
  · rename_i above
    obtain ⟨i, rfl⟩ := Nat.exists_eq_add_of_le (Nat.not_lt.mp above)
    have shift := octet_append_right ((laidDown codec frame tail.length).take k) (tail.drop k) i
    rw [length] at shift
    rw [shift, octet_drop]

theorem tornTail_octet_after (lawful : codec.Lawful) (frame : Frame) (tail : Tail bytes)
    (cut : k ≤ (laidDown codec frame bytes.length).length) (j : Nat) (outside : j < 12 ∨ 16 ≤ j) :
    octet (tornTail codec frame bytes k) ((frame.encode codec).length + j) = 0 := by
  have long := encode_pos codec lawful frame
  have := headerSize_eq
  rw [tornTail_octet codec frame bytes cut]
  split
  · exact laidDown_octet_marker codec frame bytes.length j outside
  · exact tail.octet_zero _ (by omega)

theorem tornTail_compLen (lawful : codec.Lawful) (frame : Frame) (tail : Bytes)
    (cut : k ≤ (laidDown codec frame tail.length).length) (header : headerSize ≤ k) :
    word (tornTail codec frame tail k) 8 = (stored codec frame.data).length := by
  have size := headerSize_eq
  have long := encode_pos codec lawful frame
  have same (j : Nat) (bound : j < 16) :
      octet (tornTail codec frame tail k) j = octet (frame.encode codec) j := by
    rw [tornTail_octet codec frame tail cut, if_pos (by omega),
      laidDown_octet_encode codec frame _ j (by omega)]
  have words := headerWords_encode codec lawful [] [] frame.version frame.data frame.bounded
  simp only [nil_append, append_nil, length_nil] at words
  rw [headerWords_drop, if_pos (by rw [← Frame.encode]; omega)] at words
  have compLen := congrArg Header.compLen (Option.some.inj words)
  dsimp only at compLen
  rw [← compLen, word, word, same _ (by decide), same _ (by decide), same _ (by decide),
    same _ (by decide)]
  rfl

theorem frameAt_append_right (front bytes : Bytes) (i : Nat) :
    FrameAt codec (front ++ bytes) (front.length + i) h raw ↔ FrameAt codec bytes i h raw := by
  have header : headerWords ((front ++ bytes).drop (front.length + i)) = headerWords (bytes.drop i) := by
    rw [drop_length_add_append]
  have payload : slice (front ++ bytes) (front.length + i + headerSize) h.compLen =
      slice bytes (i + headerSize) h.compLen := by
    rw [Nat.add_assoc, slice_append_right]
  have room : front.length + i + (headerSize + h.compLen) ≤ (front ++ bytes).length ↔
      i + (headerSize + h.compLen) ≤ bytes.length := by
    rw [length_append]
    omega
  constructor
  · rintro ⟨a, b, c, d, e, f, g, k⟩
    exact ⟨header ▸ a, b, c, d, room.mp e, payload ▸ f, g, k⟩
  · rintro ⟨a, b, c, d, e, f, g, k⟩
    exact ⟨header ▸ a, b, c, d, room.mpr e, payload ▸ f, g, k⟩

theorem slice_endMarker (data : Bytes) (i : Nat) (inside : i + headerSize ≤ data.length) :
    slice data i headerSize = endMarkerBytes ↔
      isLogEnd (slice data i headerSize) = true ∧ slice data (i + 12) 4 = ofWord endMark := by
  have size := headerSize_eq
  rw [isLogEnd_slice data i inside]
  have last := slice_eq_ofWord data (i + 12) (by omega) (by decide : endMark < 2 ^ 32)
  rw [Bool.eq_iff_iff, beq_iff_eq, beq_iff_eq] at last
  constructor
  · intro marker
    have at_word (j : Nat) (bound : j + 4 ≤ 16) : word data (i + j) = word endMarkerBytes j := by
      rw [← marker, word_slice _ _ _ _ (by omega)]
    have a := at_word 0 (by decide)
    have b := at_word 4 (by decide)
    have c := at_word 8 (by decide)
    have d := at_word 12 (by decide)
    have marks : word endMarkerBytes 0 = 0 ∧ word endMarkerBytes 4 = 0 ∧
        word endMarkerBytes 8 = 0 ∧ word endMarkerBytes 12 = endMark := by decide
    obtain ⟨a', b', c', d'⟩ := marks
    rw [Nat.add_zero, a'] at a
    exact ⟨⟨a, b.trans b', c.trans c', .inr (d.trans d')⟩, last.mpr (d.trans d')⟩
  · rintro ⟨⟨a, b, c, _⟩, mark⟩
    have quarter (j : Nat) (bound : j + 4 ≤ 16) (n : Nat) (value : word data (i + j) = n) :
        slice data (i + j) 4 = ofWord n := by
      rw [← value, ← ofWord_word (slice_length data (i + j) 4 (by omega)),
        word_slice _ _ _ _ (by decide), Nat.add_zero]
    have first := quarter 0 (by decide) 0 a
    have second := quarter 4 (by decide) 0 b
    have third := quarter 8 (by decide) 0 c
    have join : slice data i headerSize =
        slice data (i + 0) 4 ++ (slice data (i + 4) 4 ++ (slice data (i + 8) 4 ++ slice data (i + 12) 4)) := by
      simp only [slice, size]
      rw [show 16 = 4 + (4 + (4 + 4)) from rfl]
      simp only [take_add, drop_drop]
      rfl
    rw [join, first, second, third, mark]
    decide

theorem committedAt_append_right (front bytes : Bytes) (i : Nat) :
    committedAt codec (front ++ bytes) true (front.length + i) = true ↔
      (∃ h raw, FrameAt codec bytes i h raw) ∨ slice bytes i headerSize = endMarkerBytes := by
  have length : (front.length + (i + headerSize) ≤ (front ++ bytes).length) ↔
      i + headerSize ≤ bytes.length := by
    rw [length_append]
    omega
  simp only [committedAt, Bool.and_eq_true, Bool.or_eq_true, decide_eq_true_eq, Bool.true_and,
    beq_iff_eq, Nat.add_assoc, length, slice_append_right, frameChecksOut_iff, frameAt_append_right]
  constructor
  · rintro ⟨inside, valid | ⟨ends, mark⟩⟩
    · exact .inl valid
    · exact .inr ((slice_endMarker bytes i inside).mpr ⟨ends, mark⟩)
  · rintro (⟨h, raw, valid⟩ | marker)
    · exact ⟨valid.header_inside, .inl ⟨h, raw, valid⟩⟩
    · have inside : i + headerSize ≤ bytes.length := by
        have total := congrArg List.length marker
        simp only [slice, length_take, length_drop, endMarkerBytes_length] at total
        have := headerSize_eq
        omega
      exact ⟨inside, .inr ((slice_endMarker bytes i inside).mp marker)⟩

theorem committedAfter_falseWitness (front bytes : Bytes) :
    (committedAfter codec (front ++ bytes) (front.length + 1) true).isSome ↔
      FalseWitness codec bytes := by
  have size := headerSize_eq
  have spec := lastNonzero_spec (front ++ bytes)
  rw [committedAfter_isSome]
  constructor
  · rintro ⟨last, i, found, lower, upper, committed⟩
    obtain ⟨j, rfl⟩ := Nat.exists_eq_add_of_le (Nat.le_trans (Nat.le_add_right _ _) lower)
    rw [found] at spec
    obtain ⟨d, rfl⟩ := Nat.exists_eq_add_of_le (by omega : front.length ≤ last)
    have nonzero := spec.1
    rw [octet_append_right] at nonzero
    exact ⟨j, d, by omega, by omega, nonzero, (committedAt_append_right codec front bytes j).mp committed⟩
  · rintro ⟨i, last, after, room, nonzero, committed⟩
    cases found : lastNonzero (front ++ bytes) with
    | none =>
      rw [found] at spec
      have := spec (front.length + last)
      rw [octet_append_right] at this
      exact absurd this nonzero
    | some final =>
      rw [found] at spec
      have reach : front.length + last ≤ final := by
        apply Classical.byContradiction
        intro beyond
        have := spec.2 (front.length + last) (by omega)
        rw [octet_append_right] at this
        exact nonzero this
      exact ⟨final, front.length + i, rfl, by omega, by omega,
        (committedAt_append_right codec front bytes i).mpr committed⟩

section

variable (lawful : codec.Lawful) (frames : List Frame) (frame : Frame) (tail : Tail bytes) (cut : k ≤ (laidDown codec frame bytes.length).length)
include lawful frames frame tail cut

theorem discoverOffset_whole
    (whole : frame.encode codec <+: tornTail codec frame bytes k) :
    discoverOffset codec (torn codec frames frame bytes k) =
      .ok ((logBytes codec (frames ++ [frame])).length, maxVersion (frames ++ [frame]) 0) := by
  have size := headerSize_eq
  obtain ⟨rest, whole⟩ := whole
  have after (j : Nat) (outside : j < 12 ∨ 16 ≤ j) : octet rest j = 0 := by
    have := tornTail_octet_after codec lawful frame tail cut j outside
    rwa [← whole, octet_append_right] at this
  have image : torn codec frames frame bytes k = logBytes codec (frames ++ [frame]) ++ rest := by
    rw [torn_eq, ← whole]
    simp [logBytes]
  obtain ⟨fuel, _, walk⟩ := discoverOffset_log codec lawful (frames ++ [frame]) rest
  rw [image, walk]
  apply discoverLoop_quiet
  · apply frameChecksOut_empty
    rw [word_append_right, word_eq_zero_iff]
    intro j bound
    exact after _ (by omega)
  · intro j beyond
    obtain ⟨i, rfl⟩ := Nat.exists_eq_add_of_le (Nat.le_trans (Nat.le_add_right _ _) beyond)
    rw [octet_append_right]
    exact after _ (by omega)

/-- A torn append whose frame is rejected ends the log before it, unless its bytes hold a false
witness: then recovery reports corruption. -/
theorem discoverOffset_rejected
    (rejected : frameChecksOut codec (torn codec frames frame bytes k)
      (logBytes codec frames).length = false) :
    discoverOffset codec (torn codec frames frame bytes k) =
        .ok ((logBytes codec frames).length, maxVersion frames 0) ∧
        ¬FalseWitness codec (tornTail codec frame bytes k) ∨
      (∃ e, discoverOffset codec (torn codec frames frame bytes k) = .error e) ∧
        FalseWitness codec (tornTail codec frame bytes k) := by
  have size := headerSize_eq
  rw [torn_eq] at rejected ⊢
  obtain ⟨fuel, _, walk⟩ :=
    discoverOffset_log codec lawful frames (tornTail codec frame bytes k)
  rw [walk]
  by_cases header : k ≤ headerSize
  · -- Only the header was touched, so nothing behind it is nonzero.
    have zero (j : Nat) (after : headerSize ≤ j) : octet (tornTail codec frame bytes k) j = 0 := by
      rw [tornTail_octet codec frame bytes cut, if_neg (by omega)]
      exact tail.octet_zero j (by omega)
    refine .inl ⟨discoverLoop_quiet codec rejected ?_ _ _, ?_⟩
    · intro j after
      obtain ⟨i, rfl⟩ := Nat.exists_eq_add_of_le (Nat.le_trans (Nat.le_add_right _ _) after)
      rw [octet_append_right]
      exact zero i (by omega)
    · rintro ⟨i, last, positive, room, nonzero, _⟩
      exact nonzero (zero last (by omega))
  · have compLen := tornTail_compLen codec lawful frame bytes cut (by omega)
    have payload := stored_pos codec lawful frame.data frame.nonempty
    have longer : headerSize ≤ (tornTail codec frame bytes k).length := by
      simp only [tornTail, write, take_zero, nil_append, length_append,
        length_take, length_drop]
      omega
    have words := headerWords_drop (logBytes codec frames ++ tornTail codec frame bytes k)
      (logBytes codec frames).length
    rw [if_pos (by rw [length_append]; omega), word_append_right _ _ 8, compLen] at words
    rw [discoverLoop_fault codec words (by dsimp only; omega) rejected, fail]
    have witness := committedAfter_falseWitness codec (logBytes codec frames)
      (tornTail codec frame bytes k)
    cases found : committedAfter codec (logBytes codec frames ++ tornTail codec frame bytes k)
        ((logBytes codec frames).length + 1) true with
    | none =>
      rw [found] at witness
      exact .inl ⟨rfl, fun holds => by simpa using witness.mpr holds⟩
    | some next =>
      rw [found] at witness
      exact .inr ⟨⟨_, rfl⟩, witness.mp rfl⟩

end

/-- A torn append recovers to the old log or to the old log and the new frame exactly when the
persisted bytes make the frame whole or hold nothing that reads as committed data. -/
theorem recovers_torn_iff (lawful : codec.Lawful) (frames : List Frame) (frame : Frame)
    (bytes : Bytes) (tail : Tail bytes) (k : Nat) (strict : k < (laidDown codec frame bytes.length).length)
    (crc : ¬frame.encode codec <+: tornTail codec frame bytes k →
      frameChecksOut codec (torn codec frames frame bytes k) (logBytes codec frames).length = false) :
    Recovers codec frames frame (torn codec frames frame bytes k) ↔
      frame.encode codec <+: tornTail codec frame bytes k ∨
        ¬FalseWitness codec (tornTail codec frame bytes k) := by
  by_cases whole : frame.encode codec <+: tornTail codec frame bytes k
  · have found := discoverOffset_whole codec lawful frames frame tail (Nat.le_of_lt strict) whole
    exact ⟨fun _ => .inl whole, fun _ => ⟨_, .inr found⟩⟩
  · rcases discoverOffset_rejected codec lawful frames frame tail (Nat.le_of_lt strict) (crc whole)
      with ⟨found, none⟩ | ⟨⟨e, failed⟩, witness⟩
    · exact ⟨fun _ => .inr none, fun _ => ⟨_, .inl found⟩⟩
    · constructor
      · rintro ⟨version, old | new⟩
        · rw [failed] at old
          cases old
        · rw [failed] at new
          cases new
      · rintro (complete | none)
        · exact absurd complete whole
        · exact absurd witness none

theorem recovers_torn_iff_header_cut :
    ¬frameChecksOut PlainCodec.codec (torn PlainCodec.codec [] ⟨0, [0x41], by decide, by decide⟩
        (endMarkerBytes ++ zeros 40) 16) 0 ∧
      (Recovers PlainCodec.codec [] ⟨0, [0x41], by decide, by decide⟩
          (torn PlainCodec.codec [] ⟨0, [0x41], by decide, by decide⟩ (endMarkerBytes ++ zeros 40) 16) ↔
        Frame.encode PlainCodec.codec ⟨0, [0x41], by decide, by decide⟩ <+:
            tornTail PlainCodec.codec ⟨0, [0x41], by decide, by decide⟩ (endMarkerBytes ++ zeros 40) 16 ∨
          ¬FalseWitness PlainCodec.codec (tornTail PlainCodec.codec ⟨0, [0x41], by decide, by decide⟩
            (endMarkerBytes ++ zeros 40) 16)) :=
  ⟨by decide, recovers_torn_iff _ PlainCodec.lawful [] ⟨0, [0x41], by decide, by decide⟩ _ (.marked 40) 16
    (by decide) (fun _ => by decide)⟩

theorem frameChecksOut_append_left (data rest : Bytes) (offset : Nat)
    (inside : offset + headerSize + word data (offset + 8) ≤ data.length) :
    frameChecksOut codec (data ++ rest) offset = frameChecksOut codec data offset := by
  have size := headerSize_eq
  have header : headerWords ((data ++ rest).drop offset) = headerWords (data.drop offset) := by
    rw [headerWords_drop, headerWords_drop, if_pos (by rw [length_append]; omega),
      if_pos (by omega), word_append_left _ _ _ (by omega), word_append_left _ _ _ (by omega),
      word_append_left _ _ _ (by omega), word_append_left _ _ _ (by omega)]
  have payload : slice (data ++ rest) (offset + headerSize) (word data (offset + 8)) =
      slice data (offset + headerSize) (word data (offset + 8)) := by
    rw [slice, slice, drop_append_of_le_length (by omega),
      take_append_of_le_length (by rw [length_drop]; omega)]
  have room : offset + (headerSize + word data (offset + 8)) ≤ (data ++ rest).length := by
    rw [length_append]
    omega
  have room' : offset + (headerSize + word data (offset + 8)) ≤ data.length := by omega
  rw [frameChecksOut, frameChecksOut, header, headerWords_drop, if_pos (by omega)]
  simp only [payload, room, room', ↓reduceIte]

/-- A payload of eighteen bytes: the frame of the one byte `A`, and `B`. -/
def nestedFrame : Frame :=
  ⟨0, [0x8B, 0x9E, 0xD9, 0xD3, 1, 0, 0, 0, 1, 0, 0, 0, 0, 0, 0, 0, 0x41, 0x42], by decide, by decide⟩

theorem tornTail_nestedFrame (n : Nat) :
    tornTail PlainCodec.codec nestedFrame (endMarkerBytes ++ zeros (n + 18)) 33 =
      [175, 113, 159, 67, 18, 0, 0, 0, 18, 0, 0, 0, 0, 0, 0, 0] ++
        (encodeFrame PlainCodec.codec 0 [0x41] ++ zeros (n + 1)) := by
  have length : (nestedFrame.encode PlainCodec.codec).length = 34 := by decide +kernel
  have header : (nestedFrame.encode PlainCodec.codec).take 33 =
      [175, 113, 159, 67, 18, 0, 0, 0, 18, 0, 0, 0, 0, 0, 0, 0] ++
        encodeFrame PlainCodec.codec 0 [0x41] := by decide +kernel
  have old : (endMarkerBytes ++ zeros (n + 18)).drop 33 = zeros (n + 1) := by
    rw [drop_append, drop_eq_nil_of_le (by decide), nil_append, drop_zeros,
      endMarkerBytes_length]
    rfl
  have cut : ((nestedFrame.encode PlainCodec.codec).take 33).length = 33 := by
    rw [length_take, length]
    rfl
  rw [tornTail, laidDown, take_append_of_le_length (by omega), write, Nat.zero_add, cut, old,
    header, take_zero, nil_append, append_assoc]

theorem nestedFrame_rejected (n : Nat) :
    frameChecksOut PlainCodec.codec
      (torn PlainCodec.codec [] nestedFrame (endMarkerBytes ++ zeros (n + 18)) 33) 0 = false := by
  have split : torn PlainCodec.codec [] nestedFrame (endMarkerBytes ++ zeros (n + 18)) 33 =
      ([175, 113, 159, 67, 18, 0, 0, 0, 18, 0, 0, 0, 0, 0, 0, 0] ++
        (encodeFrame PlainCodec.codec 0 [0x41] ++ zeros 1)) ++ zeros n := by
    rw [torn_eq, tornTail_nestedFrame, Nat.add_comm n 1, ← zeros_append 1 n]
    simp [logBytes]
  rw [split, frameChecksOut_append_left _ _ _ _ (by decide +kernel)]
  decide +kernel

theorem nestedFrame_falseWitness (n : Nat) :
    FalseWitness PlainCodec.codec
      (tornTail PlainCodec.codec nestedFrame (endMarkerBytes ++ zeros (n + 18)) 33) := by
  have inner := frameAt_encode PlainCodec.codec PlainCodec.lawful
    [175, 113, 159, 67, 18, 0, 0, 0, 18, 0, 0, 0, 0, 0, 0, 0] (zeros (n + 1))
    ⟨0, [0x41], by decide, by decide⟩
  rw [tornTail_nestedFrame]
  refine ⟨16, 32, by decide, by decide, ?_, .inl ⟨_, _, inner⟩⟩
  rw [← append_assoc, octet_append_left _ _ (by decide)]
  decide

theorem nestedFrame_cut (room : Nat) : 33 < (laidDown PlainCodec.codec nestedFrame room).length := by
  have length : (nestedFrame.encode PlainCodec.codec).length = 34 := by decide
  rw [laidDown, length_append, length]
  omega

/-- An empty segment of 64 MiB loses the last payload byte of an append of `nestedFrame`: the
frame is rejected at its own offset, and recovery takes the nested frame for committed data. -/
theorem torn_nestedFrame_corrupt :
    33 < (laidDown PlainCodec.codec nestedFrame (endMarkerBytes ++ zeros 67108848).length).length ∧
      frameChecksOut PlainCodec.codec
        (torn PlainCodec.codec [] nestedFrame (endMarkerBytes ++ zeros 67108848) 33) 0 = false ∧
      ¬Recovers PlainCodec.codec [] nestedFrame
        (torn PlainCodec.codec [] nestedFrame (endMarkerBytes ++ zeros 67108848) 33) := by
  have rejected := nestedFrame_rejected 67108830
  have witness := nestedFrame_falseWitness 67108830
  refine ⟨nestedFrame_cut _, rejected, ?_⟩
  rcases discoverOffset_rejected _ PlainCodec.lawful [] nestedFrame (.marked (67108830 + 18))
    (Nat.le_of_lt (nestedFrame_cut _)) rejected with ⟨_, none⟩ | ⟨⟨e, failed⟩, _⟩
  · exact absurd witness none
  · rintro ⟨version, found | found⟩
    · rw [failed] at found
      cases found
    · rw [failed] at found
      cases found

end Warm.Journal
