import Warm.VectorIndex

/-! The frames of the index log read back whatever follows them, and a cut frame does not read. -/
namespace Warm.Server.VectorIndex

open Bytes BitPacking Binary List

/-- A frame as `stage` and `remove` write it. -/
structure Frame.Fits (dim : Nat) (frame : Frame) : Prop where
  shape : (frame.kind = UPSERT ∧ frame.vector.length = dim) ∨ (frame.kind = DELETE ∧ frame.vector = [])
  id : (utf8 frame.id).length < 2 ^ 16

def frameFormat (crc : Bytes → UInt32) (dim : Nat) : FrameFormat Frame := ⟨pushFrame crc, readFrame crc dim⟩

theorem words_flatMap (vector : Vector) : words (vector.flatMap fun value => leBytes value.toNat 4) = vector := by
  induction vector with
  | nil => rfl
  | cons value vector ih =>
    have own : UInt32.ofNat (number (leBytes value.toNat 4)) = value := by
      rw [number_leBytes, pow_bytes, Nat.mod_eq_of_lt value.toNat_lt, UInt32.ofNat_toNat]
    calc words ((value :: vector).flatMap fun value => leBytes value.toNat 4)
        = UInt32.ofNat (number (leBytes value.toNat 4)) ::
            words (vector.flatMap fun value => leBytes value.toNat 4) := rfl
      _ = value :: vector := by rw [own, ih]

theorem length_words (vector : Vector) : (vector.flatMap fun value => leBytes value.toNat 4).length = vector.length * 4 := by
  induction vector with
  | nil => rfl
  | cons value vector ih =>
    rw [flatMap_cons, length_append, leBytes_length, ih, length_cons]
    omega

theorem body_length (frame : Frame) : frame.body.length = 3 + (utf8 frame.id).length + 8 + frame.vector.length * 4 := by
  rw [Frame.body, length_cons, length_append, length_append, length_append, leBytes_length,
    leBytes_length, length_words]
  omega

theorem pushFrame_length (crc : Bytes → UInt32) (frame : Frame) : (pushFrame crc frame).length = frame.body.length + 4 := by
  rw [pushFrame, length_append, leBytes_length]

theorem vectorLen_eq {frame : Frame} (fits : frame.Fits dim) :
    (if frame.kind = UPSERT then some (dim * 4) else if frame.kind = DELETE then some 0 else none) =
      some (frame.vector.length * 4) := by
  rcases fits.shape with ⟨kind, length⟩ | ⟨kind, empty⟩
  · rw [if_pos kind, length]
  · have other : DELETE ≠ UPSERT := by decide
    rw [kind, if_neg other, if_pos rfl, empty]
    rfl

theorem slice_take (data : Bytes) (inside : i + len ≤ n) : slice (data.take n) i len = slice data i len := by
  rw [slice, slice, drop_take, take_take, Nat.min_eq_left (by omega)]

theorem slice_middle (front part back : Bytes) (whole : data = front ++ (part ++ back)) (offset : front.length = i)
    (size : part.length = len) : slice data i len = part := by
  subst whole offset size
  rw [slice, drop_left, take_left]

section Fields

variable {crc : Bytes → UInt32} {dim : Nat} {frame : Frame} (rest : Bytes)

theorem octet_kind : octet (pushFrame crc frame ++ rest) 0 = frame.kind := rfl

theorem number_idLen (fits : frame.Fits dim) :
    number (slice (pushFrame crc frame ++ rest) 1 2) = (utf8 frame.id).length := by
  have field : slice (pushFrame crc frame ++ rest) 1 2 = leBytes (utf8 frame.id).length 2 :=
    slice_middle [frame.kind] _ _ (by simp [pushFrame, Frame.body]; rfl) rfl (leBytes_length _ _)
  rw [field, number_leBytes, pow_bytes]
  exact Nat.mod_eq_of_lt fits.id

theorem slice_id : slice (pushFrame crc frame ++ rest) 3 (utf8 frame.id).length = utf8 frame.id :=
  slice_middle (frame.kind :: leBytes (utf8 frame.id).length 2) _ _ (by simp [pushFrame, Frame.body]; rfl)
    (by rw [length_cons, leBytes_length]) rfl

theorem number_token :
    number (slice (pushFrame crc frame ++ rest) (3 + (utf8 frame.id).length) 8) = frame.token.toNat := by
  have field : slice (pushFrame crc frame ++ rest) (3 + (utf8 frame.id).length) 8 = leBytes frame.token.toNat 8 :=
    slice_middle (frame.kind :: (leBytes (utf8 frame.id).length 2 ++ utf8 frame.id)) _ _
      (by simp [pushFrame, Frame.body]; rfl)
      (by rw [length_cons, length_append, leBytes_length]; omega) (leBytes_length _ _)
  rw [field, number_leBytes, pow_bytes]
  exact Nat.mod_eq_of_lt frame.token.toNat_lt

theorem words_vector :
    words (slice (pushFrame crc frame ++ rest) (3 + (utf8 frame.id).length + 8) (frame.vector.length * 4)) =
      frame.vector := by
  have field : slice (pushFrame crc frame ++ rest) (3 + (utf8 frame.id).length + 8) (frame.vector.length * 4) =
      frame.vector.flatMap fun value => leBytes value.toNat 4 :=
    slice_middle (frame.kind :: (leBytes (utf8 frame.id).length 2 ++ (utf8 frame.id ++ leBytes frame.token.toNat 8))) _ _
      (by simp [pushFrame, Frame.body]; rfl)
      (by rw [length_cons, length_append, length_append, leBytes_length, leBytes_length]; omega)
      (length_words _)
  rw [field, words_flatMap]

theorem number_crc (whole : frame.body.length = size) :
    number (slice (pushFrame crc frame ++ rest) size 4) = (crc frame.body).toNat := by
  have field : slice (pushFrame crc frame ++ rest) size 4 = leBytes (crc frame.body).toNat 4 :=
    slice_middle frame.body _ rest (by rw [pushFrame, append_assoc]) whole (leBytes_length _ _)
  rw [field, number_leBytes, pow_bytes]
  exact Nat.mod_eq_of_lt (crc frame.body).toNat_lt

end Fields

theorem readFrame_pushFrame {dim : Nat} {frame : Frame} (fits : frame.Fits dim) (rest : Bytes) :
    readFrame crc dim (pushFrame crc frame ++ rest) = some (frame, (pushFrame crc frame).length) := by
  have size := body_length frame
  have whole : (pushFrame crc frame ++ rest).length = frame.body.length + 4 + rest.length := by
    rw [length_append, pushFrame_length]
  have body : (pushFrame crc frame ++ rest).take frame.body.length = frame.body := by
    rw [pushFrame, append_assoc, take_left]
  rw [readFrame, if_neg (by omega)]
  dsimp only
  rw [octet_kind, number_idLen rest fits, vectorLen_eq fits]
  dsimp only
  rw [← size, if_neg (by omega), body, number_crc rest rfl, if_neg (not_not.mpr rfl), slice_id, Reader.fromUtf8_utf8]
  rw [number_token, words_vector, UInt64.ofNat_toNat, pushFrame_length]

theorem readFrame_cut (fits : frame.Fits dim) (cut : n < (pushFrame crc frame).length) :
    readFrame crc dim ((pushFrame crc frame).take n) = none := by
  have size := body_length frame
  have length : ((pushFrame crc frame).take n).length = n := by
    rw [length_take]
    omega
  rw [readFrame, length]
  split
  next => rfl
  next header =>
    have kind : octet ((pushFrame crc frame).take n) 0 = frame.kind := by
      obtain ⟨n, rfl⟩ := Nat.exists_eq_succ_of_ne_zero (by omega : n ≠ 0)
      rfl
    have idLen : number (slice (pushFrame crc frame ++ []) 1 2) = (utf8 frame.id).length := number_idLen [] fits
    rw [append_nil] at idLen
    dsimp only
    rw [kind, slice_take _ (by omega), idLen, vectorLen_eq fits]
    dsimp only
    rw [pushFrame_length, size] at cut
    rw [if_pos cut]

theorem frameFormat_lawful (crc : Bytes → UInt32) (dim : Nat) : (frameFormat crc dim).Lawful (Frame.Fits dim) where
  encode_pos frame _ := by
    change 0 < (pushFrame crc frame).length
    rw [pushFrame_length]
    omega
  read_encode _ fits rest := readFrame_pushFrame fits rest
  read_cut _ fits _ cut := readFrame_cut fits cut

theorem readFrame_nil (crc : Bytes → UInt32) (dim : Nat) : readFrame crc dim [] = none := rfl

def logBytes (crc : Bytes → UInt32) (dim : Nat) (frames : List Frame) : Bytes := (frameFormat crc dim).encodeAll frames

theorem logBytes_append (crc : Bytes → UInt32) (dim : Nat) (first second : List Frame) :
    logBytes crc dim (first ++ second) = logBytes crc dim first ++ logBytes crc dim second :=
  FrameFormat.encodeAll_append _ _

theorem applyFramesFrom_eq (crc : Bytes → UInt32) (dim : Nat) (fuel : Nat) (state : State) (data : Bytes) :
    applyFramesFrom crc dim fuel state data = (((frameFormat crc dim).scan fuel data).1.foldl applyFrame state,
      ((frameFormat crc dim).scan fuel data).2) := by
  induction fuel generalizing state data with
  | zero => rfl
  | succ fuel ih =>
    rw [applyFramesFrom, FrameFormat.scan]
    cases found : readFrame crc dim data with
    | none => simp [frameFormat, found]
    | some entry => simp [frameFormat, found, ih]

theorem applyFrames_logBytes (fit : ∀ frame ∈ frames, frame.Fits dim) (ends : readFrame crc dim torn = none)
    (state : State) :
    applyFrames crc state (logBytes crc dim frames ++ torn) dim =
      (frames.foldl applyFrame state, (logBytes crc dim frames).length) := by
  have lawful := frameFormat_lawful crc dim
  have few : frames.length < (logBytes crc dim frames ++ torn).length + 1 := by
    have bound : frames.length ≤ (logBytes crc dim frames).length := FrameFormat.length_le_encodeAll lawful fit
    rw [length_append]
    omega
  have scanned : (frameFormat crc dim).scan ((logBytes crc dim frames ++ torn).length + 1) (logBytes crc dim frames ++ torn) =
      (frames, (logBytes crc dim frames).length) := FrameFormat.scan_encodeAll lawful fit ends few
  rw [applyFrames, applyFramesFrom_eq, scanned]

end Warm.Server.VectorIndex
