import Warm.Jumbf

/-! The bytes of a JUMBF box as a tree of boxes, and the decoder as a reading of that tree. -/
namespace Warm.Jumbf

open Bytes Binary List

/-! ### Headers -/

@[simp] theorem ofBigWord_length (n : Nat) : (ofBigWord n).length = 4 := rfl

def header (boxType : BoxType) (payload : Bytes) : Bytes := ofBigWord (payload.length + 8) ++ boxType.val

def frame (boxType : BoxType) (payload : Bytes) : Bytes := header boxType payload ++ payload

@[simp] theorem header_length (boxType : BoxType) (payload : Bytes) : (header boxType payload).length = 8 := by
  simp [header, boxType.property]

@[simp] theorem frame_length (boxType : BoxType) (payload : Bytes) :
    (frame boxType payload).length = payload.length + 8 := by
  rw [frame, length_append, header_length, Nat.add_comm]

def Short (payload : Bytes) : Prop := payload.length + 8 < 2 ^ 32

theorem lengthAt_append (front rest : Bytes) (n : Nat) (small : n < 2 ^ 32) :
    lengthAt (front ++ (ofBigWord n ++ rest)) front.length = .ok n := by
  have value : 16777216 * (n / 16777216 % 256) + 65536 * (n / 65536 % 256) + 256 * (n / 256 % 256) + n % 256 = n := by
    omega
  unfold lengthAt byteAt
  simp [ofBigWord, value, Except.bind, bind]

theorem typeAt_append (front rest : Bytes) (boxType : BoxType) :
    typeAt (front ++ (boxType.val ++ rest)) front.length = .ok boxType := by
  obtain ⟨letters, four⟩ := boxType
  match letters, four with
  | [a, b, c, d], _ => simp [typeAt, byteAt, Except.bind, bind]

theorem rangeOf_append (front middle rest : Bytes) :
    rangeOf (front ++ (middle ++ rest)) front.length (front.length + middle.length) = .ok middle := by
  rw [rangeOf, if_pos ⟨Nat.le_add_right _ _, by simp⟩, ← append_assoc,
    take_left' (length_append ..), drop_left]

theorem lengthAt_ok (data : Bytes) (four : 4 ≤ data.length) :
    ∃ n < 2 ^ 32, ∃ rest, data = ofBigWord n ++ rest := by
  match data, four with
  | a :: b :: c :: d :: rest, _ =>
    have := a.toNat_lt
    have := b.toNat_lt
    have := c.toNat_lt
    have := d.toNat_lt
    refine ⟨16777216 * a.toNat + 65536 * b.toNat + 256 * c.toNat + d.toNat, by omega, rest, ?_⟩
    simp only [ofBigWord, cons_append, nil_append, List.cons.injEq, and_true]
    refine ⟨?_, ?_, ?_, ?_⟩ <;>
    · apply UInt8.toNat_inj.mp
      rw [UInt8.toNat_ofNat']
      omega

theorem header_ok (data : Bytes) (eight : 8 ≤ data.length) :
    ∃ n < 2 ^ 32, ∃ boxType : BoxType, ∃ rest, data = ofBigWord n ++ (boxType.val ++ rest) := by
  obtain ⟨n, small, rest, rfl⟩ := lengthAt_ok data (by omega)
  rw [length_append, ofBigWord_length] at eight
  refine ⟨n, small, ⟨rest.take 4, length_take_of_le (by omega)⟩, rest.drop 4, ?_⟩
  rw [take_append_drop]

theorem frame_ok (boxType : BoxType) (rest : Bytes) (n : Nat) (small : n < 2 ^ 32) (least : 8 ≤ n)
    (most : n ≤ rest.length + 8) :
    ∃ payload after, Short payload ∧ n = payload.length + 8 ∧
      ofBigWord n ++ (boxType.val ++ rest) = frame boxType payload ++ after := by
  have length : (rest.take (n - 8)).length + 8 = n := by
    rw [length_take_of_le (by omega)]
    omega
  refine ⟨rest.take (n - 8), rest.drop (n - 8), by rw [Short]; omega, length.symm, ?_⟩
  rw [frame, header, length]
  simp only [append_assoc, take_append_drop]

/-! ### Trees -/

/-- A leaf's payload is its own; a superbox's is its inner boxes. -/
inductive BoxTree where
  | leaf (boxType : BoxType) (payload : Bytes)
  | super (boxType : BoxType) (inner : List BoxTree)

mutual
def BoxTree.bytes : BoxTree → Bytes
  | .leaf boxType payload => frame boxType payload
  | .super boxType inner => frame boxType (allBytes inner)

def allBytes : List BoxTree → Bytes
  | [] => []
  | tree :: trees => tree.bytes ++ allBytes trees
end

mutual
def BoxTree.pieces : BoxTree → List Bytes
  | .leaf boxType payload => [header boxType payload, payload]
  | .super boxType inner => header boxType (allBytes inner) :: allPieces inner

def allPieces : List BoxTree → List Bytes
  | [] => []
  | tree :: trees => tree.pieces ++ allPieces trees
end

mutual
theorem pieces_flatten : ∀ tree : BoxTree, tree.pieces.flatten = tree.bytes
  | .leaf boxType payload => by simp [BoxTree.pieces, BoxTree.bytes, frame]
  | .super boxType inner => by
    rw [BoxTree.pieces, BoxTree.bytes, flatten_cons, allPieces_flatten inner, frame]

theorem allPieces_flatten : ∀ trees : List BoxTree, (allPieces trees).flatten = allBytes trees
  | [] => rfl
  | tree :: trees => by
    rw [allPieces, allBytes, List.flatten_append, pieces_flatten tree, allPieces_flatten trees]
end

def pieceStart (pieces : List Bytes) (k : Nat) : Nat := (pieces.take k).flatten.length

def InPiece (pieces : List Bytes) (i k : Nat) : Prop :=
  k < pieces.length ∧ pieceStart pieces k ≤ i ∧ i < pieceStart pieces (k + 1)

theorem pieceStart_mono (pieces : List Bytes) (before : j ≤ k) : pieceStart pieces j ≤ pieceStart pieces k := by
  have split := (take_append_drop j (pieces.take k)).symm
  rw [take_take, Nat.min_eq_left before] at split
  rw [pieceStart, pieceStart, split, List.flatten_append, length_append]
  exact Nat.le_add_right _ _

theorem inPiece_unique (pieces : List Bytes) (i : Nat) (inside : i < pieces.flatten.length) :
    ∃! k, InPiece pieces i k := by
  have found : ∃ k, InPiece pieces i k := by
    induction pieces generalizing i with
    | nil => simp at inside
    | cons piece pieces ih =>
      by_cases first : i < piece.length
      · exact ⟨0, by simp, by simp [pieceStart], by simpa [pieceStart] using first⟩
      · rw [flatten_cons, length_append] at inside
        obtain ⟨k, within, after, before⟩ := ih (i - piece.length) (by omega)
        unfold pieceStart at after before
        refine ⟨k + 1, by simpa using within, ?_, ?_⟩ <;>
          simp only [pieceStart, take_succ_cons, flatten_cons, length_append] <;> omega
  obtain ⟨k, within, after, before⟩ := found
  refine ⟨k, ⟨within, after, before⟩, ?_⟩
  rintro j ⟨_, after', before'⟩
  rcases Nat.lt_trichotomy j k with lower | same | higher
  · have := pieceStart_mono pieces (show j + 1 ≤ k from lower)
    omega
  · exact same
  · have := pieceStart_mono pieces (show k + 1 ≤ j from higher)
    omega

/-! ### Reading a tree -/

def Found.box (boxType : BoxType) (found : Found J) : JumbfBox J :=
  ⟨boxType, found.description, found.content, found.children⟩

def contentOf (json : JsonCodec J) (boxType : BoxType) (payload : Bytes) : Option (BoxContent J) :=
  if boxType = JSON_BOX_TYPE then (json.fromSlice payload).toOption.map .json
  else if boxType = CBOR_BOX_TYPE then some (.cbor payload)
  else some (.binary payload)

/-- The inner boxes of a superbox, over at most `levels` more levels, from what was `found` before
them to what is found at the end. `first` says that nothing precedes them. -/
inductive Reads (json : JsonCodec J) : Nat → Bool → List BoxTree → Found J → Found J → Prop
  | done : Reads json levels first [] found found
  | description (short : Short payload) (decoded : decodeDescriptionBox payload = .ok description)
      (rest : Reads json levels false trees { found with description := some description } last) :
      Reads json levels true (.leaf DESCRIPTION_BOX_TYPE payload :: trees) found last
  | content (short : Short payload) (plain : boxType ≠ DESCRIPTION_BOX_TYPE) (lone : boxType ≠ JUMBF_BOX_TYPE)
      (decoded : contentOf json boxType payload = some content)
      (single : boxType = JSON_BOX_TYPE ∨ boxType = CBOR_BOX_TYPE → found.content.any BoxContent.isJsonOrCbor = false)
      (rest : Reads json levels false trees { found with content := some content } last) :
      Reads json levels first (.leaf boxType payload :: trees) found last
  | child {inner : List BoxTree} (short : Short (allBytes inner)) (nested : Reads json levels true inner .none whole)
      (rest : Reads json (levels + 1) false trees
        { found with children := found.children ++ [whole.box JUMBF_BOX_TYPE] } last) :
      Reads json (levels + 1) first (.super JUMBF_BOX_TYPE inner :: trees) found last

/-! ### Decoding a tree -/

theorem rangeOf_drop (front more : Bytes) :
    rangeOf (front ++ more) front.length (front ++ more).length = .ok more := by
  have := rangeOf_append front more []
  rwa [append_nil, ← length_append] at this

variable {json : JsonCodec J} {child : Bytes → Sliced (JumbfBox J × Nat)}

theorem decodeInner_frame (front rest : Bytes) (found : Found J) (short : Short payload) :
    decodeInner json child (front ++ (frame boxType payload ++ rest)) front.length found =
      (decodeInnerBox json child (front ++ (frame boxType payload ++ rest)) front.length boxType payload found).bind
        (decodeInner json child (front ++ (frame boxType payload ++ rest)) (front ++ frame boxType payload).length) := by
  have length : lengthAt (front ++ (frame boxType payload ++ rest)) front.length = .ok (payload.length + 8) := by
    simpa only [frame, header, append_assoc] using lengthAt_append front _ _ short
  have type : typeAt (front ++ (frame boxType payload ++ rest)) (front.length + 4) = .ok boxType := by
    have := typeAt_append (front ++ ofBigWord (payload.length + 8)) (payload ++ rest) boxType
    rw [length_append, ofBigWord_length, append_assoc] at this
    simpa only [frame, header, append_assoc] using this
  have range : rangeOf (front ++ (frame boxType payload ++ rest)) (front.length + 8) (front.length + (payload.length + 8)) =
      .ok payload := by
    have := rangeOf_append (front ++ header boxType payload) payload rest
    rw [length_append, header_length] at this
    simpa only [frame, append_assoc, Nat.add_assoc, Nat.add_comm 8] using this
  rw [decodeInner]
  have more : front.length < (front ++ (frame boxType payload ++ rest)).length := by simp
  have room : (front ++ (frame boxType payload ++ rest)).length - front.length = payload.length + 8 + rest.length := by simp
  rw [dif_pos more, room, if_neg (by omega), length]
  simp only [Except.bind, bind]
  rw [dif_neg (by omega), type]
  simp only [range, length_append, frame_length]

theorem decodeBoxDepth_frame (levels : Nat) (rest : Bytes) (short : Short payload) :
    decodeBoxDepth json (levels + 1) (frame boxType payload ++ rest) =
      (decodeInner json (decodeBoxDepth json levels) payload 0 .none).bind
        fun found => .ok (found.box boxType, payload.length + 8) := by
  have length : lengthAt (frame boxType payload ++ rest) 0 = .ok (payload.length + 8) := by
    simpa only [frame, header, append_assoc, nil_append, length_nil] using
      lengthAt_append [] (boxType.val ++ (payload ++ rest)) _ short
  have type : typeAt (frame boxType payload ++ rest) 4 = .ok boxType := by
    simpa only [frame, header, append_assoc, ofBigWord_length] using
      typeAt_append (ofBigWord (payload.length + 8)) (payload ++ rest) boxType
  have range : rangeOf (frame boxType payload ++ rest) 8 (payload.length + 8) = .ok payload := by
    have := rangeOf_append (header boxType payload) payload rest
    rw [header_length] at this
    simpa only [frame, append_assoc, Nat.add_comm] using this
  rw [decodeBoxDepth]
  have room : (frame boxType payload ++ rest).length = payload.length + 8 + rest.length := by simp
  rw [room, if_neg (by omega), length]
  simp only [Except.bind, bind]
  rw [if_neg (by omega), type]
  simp only [range]
  rfl

theorem decodeInner_split (json : JsonCodec J) (child : Bytes → Sliced (JumbfBox J × Nat)) (front more : Bytes)
    (found : Found J) :
    more = [] ∨ (∃ e, decodeInner json child (front ++ more) front.length found = .error (.error e)) ∨
      ∃ boxType payload rest, Short payload ∧ more = frame boxType payload ++ rest := by
  by_cases none : more = []
  · exact .inl none
  have some : front.length < (front ++ more).length := by
    rw [length_append]
    have := length_pos_iff.mpr none
    omega
  have room : (front ++ more).length - front.length = more.length := by simp
  by_cases eight : more.length < 8
  · rw [decodeInner, dif_pos some, room, if_pos eight]
    exact .inr (.inl ⟨_, rfl⟩)
  obtain ⟨n, small, boxType, rest, rfl⟩ := header_ok more (by omega)
  by_cases bad : n < 8 ∨ n > (ofBigWord n ++ (boxType.val ++ rest)).length
  · rw [decodeInner, dif_pos some, room, if_neg eight, lengthAt_append front _ n small]
    simp only [Except.bind, bind]
    rw [dif_pos bad]
    exact .inr (.inl ⟨_, rfl⟩)
  · simp only [length_append, ofBigWord_length, boxType.property] at bad
    obtain ⟨payload, after, short, _, split⟩ := frame_ok boxType rest n small (by omega) (by omega)
    exact .inr (.inr ⟨boxType, payload, after, short, split⟩)

theorem decodeBoxDepth_split (json : JsonCodec J) (levels : Nat) (data : Bytes) :
    (∃ e, decodeBoxDepth json (levels + 1) data = .error (.error e)) ∨
      ∃ boxType payload rest, Short payload ∧ data = frame boxType payload ++ rest := by
  by_cases eight : data.length < 8
  · rw [decodeBoxDepth, if_pos eight]
    exact .inl ⟨_, rfl⟩
  obtain ⟨n, small, boxType, rest, rfl⟩ := header_ok data (by omega)
  by_cases bad : n < 8 ∨ n > (ofBigWord n ++ (boxType.val ++ rest)).length
  · have length := lengthAt_append [] (boxType.val ++ rest) n small
    rw [nil_append, length_nil] at length
    rw [decodeBoxDepth, if_neg eight, length]
    simp only [Except.bind, bind]
    rw [if_pos bad]
    exact .inl ⟨_, rfl⟩
  · simp only [length_append, ofBigWord_length, boxType.property] at bad
    obtain ⟨payload, after, short, _, split⟩ := frame_ok boxType rest n small (by omega) (by omega)
    exact .inr ⟨boxType, payload, after, short, split⟩

theorem decodeDescriptionBox_split (data : Bytes) :
    (∃ e, decodeDescriptionBox data = .error (.error e)) ∨ ∃ desc, decodeDescriptionBox data = .ok desc := by
  unfold decodeDescriptionBox
  split
  · exact .inl ⟨_, rfl⟩
  next long =>
    have ranged : rangeOf data 0 16 = .ok (data.take 16) := by
      rw [rangeOf, if_pos ⟨by omega, by omega⟩, drop_zero]
    have sized : (data.take 16).length = 16 := length_take_of_le (by omega)
    have toggled : byteAt data 16 = .ok data[16] := by
      rw [byteAt, getElem?_eq_getElem (by omega)]
    have labelled : rangeOf data 17 data.length = .ok (data.drop 17) := by
      rw [rangeOf, if_pos ⟨by omega, le_rfl⟩, take_length]
    have ended (labelData : Bytes) :
        rangeOf labelData 0 ((labelData.findIdx? (· == 0)).getD labelData.length) =
          .ok (labelData.take ((labelData.findIdx? (· == 0)).getD labelData.length)) := by
      have within : (labelData.findIdx? (· == 0)).getD labelData.length ≤ labelData.length := by
        cases found : labelData.findIdx? (· == 0) with
        | none => exact le_rfl
        | some i => exact (findIdx?_eq_some_iff_getElem.mp found).1.le
      rw [rangeOf, if_pos ⟨Nat.zero_le _, within⟩, drop_zero]
    simp only [ranged, fixed, dif_pos sized, toggled, labelled, ended, Except.bind, bind]
    split
    · exact .inr ⟨_, rfl⟩
    · split
      · exact .inl ⟨_, rfl⟩
      · exact .inr ⟨_, rfl⟩

/-- A superbox on `levels` levels is not read outside its bytes, and one that decodes reads a tree. -/
def SuperboxesRead (json : JsonCodec J) (levels : Nat) : Prop :=
  ∀ data, (∃ e, decodeBoxDepth json levels data = .error (.error e)) ∨
    ∃ lower boxType inner last rest, levels = lower + 1 ∧ data = frame boxType (allBytes inner) ++ rest ∧
      Short (allBytes inner) ∧ Reads json lower true inner .none last ∧
      decodeBoxDepth json levels data = .ok (last.box boxType, (allBytes inner).length + 8)

theorem frame_inj (same : frame boxType payload ++ rest = frame boxType' payload' ++ rest') (short : Short payload)
    (short' : Short payload') : boxType = boxType' ∧ payload = payload' ∧ rest = rest' := by
  have length := lengthAt_append [] (boxType.val ++ (payload ++ rest)) _ short
  have length' := lengthAt_append [] (boxType'.val ++ (payload' ++ rest')) _ short'
  simp only [frame, header, append_assoc] at same
  rw [same, length'] at length
  have equal : payload.length = payload'.length := by
    have := Except.ok.inj length
    omega
  obtain ⟨_, same⟩ := append_inj same rfl
  obtain ⟨types, same⟩ := append_inj same (by rw [boxType.property, boxType'.property])
  exact ⟨Subtype.ext types, append_inj same equal⟩

/-- What an inner box does to what is found: it fails, or it is one more tree. -/
theorem decodeInnerBox_split (boxType : BoxType) (front rest : Bytes) (found : Found J) (short : Short payload)
    (superboxes : SuperboxesRead json levels) :
    (∃ e, decodeInnerBox json (decodeBoxDepth json levels) (front ++ (frame boxType payload ++ rest)) front.length
        boxType payload found = .error (.error e)) ∨
      ∃ found' tree, decodeInnerBox json (decodeBoxDepth json levels) (front ++ (frame boxType payload ++ rest))
          front.length boxType payload found = .ok found' ∧ tree.bytes = frame boxType payload ∧
        ∀ trees last, Reads json levels false trees found' last → Reads json levels front.isEmpty (tree :: trees) found last := by
  unfold decodeInnerBox
  by_cases description : boxType = DESCRIPTION_BOX_TYPE
  · subst description
    rw [if_pos rfl]
    cases front with
    | cons byte front =>
      rw [if_pos (by simp)]
      exact .inl ⟨_, rfl⟩
    | nil =>
      rw [if_neg (by simp)]
      rcases decodeDescriptionBox_split payload with ⟨e, failed⟩ | ⟨desc, decoded⟩
      · rw [failed]
        exact .inl ⟨e, rfl⟩
      · rw [decoded]
        exact .inr ⟨_, .leaf DESCRIPTION_BOX_TYPE payload, rfl, rfl, fun _ _ more => .description short decoded more⟩
  rw [if_neg description]
  by_cases again : (boxType = JSON_BOX_TYPE ∨ boxType = CBOR_BOX_TYPE) ∧ found.content.any BoxContent.isJsonOrCbor
  · rw [if_pos again]
    exact .inl ⟨_, rfl⟩
  rw [if_neg again]
  have single (named : boxType = JSON_BOX_TYPE ∨ boxType = CBOR_BOX_TYPE) :
      found.content.any BoxContent.isJsonOrCbor = false := Bool.eq_false_iff.mpr fun held => again ⟨named, held⟩
  by_cases isJson : boxType = JSON_BOX_TYPE
  · rw [if_pos isJson]
    cases parsed : json.fromSlice payload with
    | error e => exact .inl ⟨_, rfl⟩
    | ok val =>
      refine .inr ⟨_, .leaf boxType payload, rfl, rfl, fun _ _ more =>
        .content short description ?_ ?_ single more⟩
      · rw [isJson]
        decide
      · rw [contentOf, if_pos isJson, parsed]
        rfl
  rw [if_neg isJson]
  by_cases isCbor : boxType = CBOR_BOX_TYPE
  · rw [if_pos isCbor]
    refine .inr ⟨_, .leaf boxType payload, rfl, rfl, fun _ _ more =>
      .content short description ?_ (by rw [contentOf, if_neg isJson, if_pos isCbor]) single more⟩
    rw [isCbor]
    decide
  rw [if_neg isCbor]
  by_cases isSuper : boxType = JUMBF_BOX_TYPE
  · subst isSuper
    rw [if_pos rfl, rangeOf_drop]
    simp only [bind, Except.bind]
    rcases superboxes (frame JUMBF_BOX_TYPE payload ++ rest) with
      ⟨e, failed⟩ | ⟨lower, boxType, inner, last, after, rfl, split, fits, reads, decoded⟩
    · rw [failed]
      exact .inl ⟨e, rfl⟩
    · obtain ⟨rfl, rfl, rfl⟩ := frame_inj split short fits
      rw [decoded]
      exact .inr ⟨_, .super JUMBF_BOX_TYPE inner, rfl, rfl, fun _ _ more => .child short reads more⟩
  · rw [if_neg isSuper]
    exact .inr ⟨_, .leaf boxType payload, rfl, rfl, fun _ _ more =>
      .content short description isSuper (by rw [contentOf, if_neg isJson, if_neg isCbor]) single more⟩

theorem decodeInner_reads (superboxes : SuperboxesRead json levels) (front more : Bytes) (found : Found J) :
    (∃ e, decodeInner json (decodeBoxDepth json levels) (front ++ more) front.length found = .error (.error e)) ∨
      ∃ last trees, decodeInner json (decodeBoxDepth json levels) (front ++ more) front.length found = .ok last ∧
        allBytes trees = more ∧ Reads json levels front.isEmpty trees found last := by
  obtain ⟨size, sized⟩ : ∃ size, more.length = size := ⟨_, rfl⟩
  induction size using Nat.strong_induction_on generalizing front more found with
  | _ size ih =>
    rcases decodeInner_split json (decodeBoxDepth json levels) front more found with
      rfl | failed | ⟨boxType, payload, rest, short, rfl⟩
    · refine .inr ⟨found, [], ?_, rfl, .done⟩
      rw [decodeInner, dif_neg (by simp)]
    · exact .inl failed
    rw [decodeInner_frame front rest found short]
    rcases decodeInnerBox_split boxType front rest found short superboxes with
      ⟨e, failed⟩ | ⟨found', tree, decoded, bytes, adds⟩
    · rw [failed]
      exact .inl ⟨e, rfl⟩
    rw [decoded]
    simp only [Except.bind]
    rw [length_append, frame_length] at sized
    rcases ih rest.length (by omega) (front ++ frame boxType payload) rest found' rfl with
      ⟨e, failed⟩ | ⟨last, trees, ended, same, reads⟩
    · rw [append_assoc] at failed
      exact .inl ⟨e, failed⟩
    · rw [append_assoc] at ended
      have later : (front ++ frame boxType payload).isEmpty = false := by
        rw [isEmpty_eq_false_iff]
        intro none
        have := congrArg List.length none
        simp at this
      rw [later] at reads
      exact .inr ⟨last, tree :: trees, ended, by rw [allBytes, bytes, same], adds trees last reads⟩

theorem superboxesRead (json : JsonCodec J) (levels : Nat) : SuperboxesRead json levels := by
  induction levels with
  | zero => exact fun _ => .inl ⟨_, rfl⟩
  | succ levels ih =>
    intro data
    rcases decodeBoxDepth_split json levels data with failed | ⟨boxType, payload, rest, short, rfl⟩
    · exact .inl failed
    rw [decodeBoxDepth_frame levels rest short]
    rcases decodeInner_reads ih [] payload .none with ⟨e, failed⟩ | ⟨last, trees, decoded, rfl, reads⟩
    · rw [nil_append, length_nil] at failed
      rw [failed]
      exact .inl ⟨e, rfl⟩
    · rw [nil_append, length_nil] at decoded
      rw [decoded]
      exact .inr ⟨levels, boxType, trees, last, rest, rfl, rfl, short, reads, rfl⟩

theorem decodeInner_of_reads (reads : Reads json levels first trees found last) (front : Bytes)
    (placed : first = front.isEmpty) :
    decodeInner json (decodeBoxDepth json levels) (front ++ allBytes trees) front.length found = .ok last := by
  have later (boxType : BoxType) (payload : Bytes) (front : Bytes) : false = (front ++ frame boxType payload).isEmpty := by
    rw [eq_comm, isEmpty_eq_false_iff]
    intro none
    have := congrArg List.length none
    simp at this
  induction reads generalizing front with
  | done => rw [allBytes, decodeInner, dif_neg (by simp)]
  | description short decoded rest ih =>
    rw [allBytes, BoxTree.bytes, decodeInner_frame front _ _ short, decodeInnerBox, if_pos rfl,
      if_neg (by simpa using placed), decoded]
    simp only [bind, Except.bind]
    rw [← append_assoc]
    exact ih _ (later ..)
  | @content payload boxType content found last levels first trees short plain lone decoded single rest ih =>
    rw [allBytes, BoxTree.bytes, decodeInner_frame front _ _ short, decodeInnerBox, if_neg plain,
      if_neg (fun again => by rw [single again.1] at again; exact absurd again.2 (by decide))]
    have next := ih (front ++ frame boxType payload) (later ..)
    rw [append_assoc] at next
    unfold contentOf at decoded
    by_cases isJson : boxType = JSON_BOX_TYPE
    · rw [if_pos isJson] at decoded
      obtain ⟨val, parsed, rfl⟩ := Option.map_eq_some_iff.mp decoded
      cases read : json.fromSlice payload with
      | error e => simp [read, Except.toOption] at parsed
      | ok v =>
        simp only [read, Except.toOption, Option.some.injEq] at parsed
        subst parsed
        rw [if_pos isJson]
        exact next
    rw [if_neg isJson] at decoded
    by_cases isCbor : boxType = CBOR_BOX_TYPE
    · rw [if_pos isCbor, Option.some.injEq] at decoded
      subst decoded
      rw [if_neg isJson, if_pos isCbor]
      exact next
    · rw [if_neg isCbor, Option.some.injEq] at decoded
      subst decoded
      rw [if_neg isJson, if_neg isCbor, if_neg lone]
      exact next
  | @child levels whole first trees found last inner short nested rest nestedIh restIh =>
    have decoded := nestedIh [] rfl
    rw [nil_append, length_nil] at decoded
    have next := restIh (front ++ frame JUMBF_BOX_TYPE (allBytes inner)) (later ..)
    rw [append_assoc] at next
    rw [allBytes, BoxTree.bytes, decodeInner_frame front _ _ short, decodeInnerBox, if_neg (by decide),
      if_neg (fun again => absurd again.1 (by decide)), if_neg (by decide), if_neg (by decide), if_pos rfl, rangeOf_drop]
    simp only [bind, Except.bind]
    rw [decodeBoxDepth_frame levels _ short, decoded]
    exact next

end Warm.Jumbf
