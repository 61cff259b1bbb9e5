import Warm.Checked
import Warm.JumbfTree

/-! What the encoder writes is a tree the decoder reads back: every box keeps its description, content and
children, and a description that does not say whether it is requestable comes back as not requestable. -/
namespace Warm.Jumbf

open List hiding below head length max tail

open Bytes Binary

/-! ### Boxes -/

def WithoutNul (label : String) : Prop := Char.ofNat 0 ∉ label.toList

instance (label : String) : Decidable (WithoutNul label) := inferInstanceAs (Decidable (_ ∉ _))

/-- The boxes the constructors and `addChild` make. -/
inductive Built : JumbfBox J → Prop
  | superbox (uuid : Uuid) (plain : WithoutNul label) : Built (.superbox label uuid)
  | jsonBox (content : J) (plain : WithoutNul label) : Built (.jsonBox label content)
  | cborBox (content : Bytes) (plain : WithoutNul label) : Built (.cborBox label content)
  | addChild {inner : JumbfBox J} (parent : Built box) (child : Built inner) : Built (box.addChild inner)

mutual
def JumbfBox.levels : JumbfBox J → Nat
  | ⟨_, _, _, children⟩ => childLevels children + 1

def childLevels : List (JumbfBox J) → Nat
  | [] => 0
  | child :: children => max child.levels (childLevels children)
end

def DescriptionBox.settled (desc : DescriptionBox) : DescriptionBox :=
  { desc with requestable := some (desc.requestable.getD false) }

mutual
/-- The box with every `requestable` of `none` made false. -/
def JumbfBox.settled : JumbfBox J → JumbfBox J
  | ⟨boxType, description, content, children⟩ =>
    ⟨boxType, description.map DescriptionBox.settled, content, settledAll children⟩

def settledAll : List (JumbfBox J) → List (JumbfBox J)
  | [] => []
  | child :: children => child.settled :: settledAll children
end

theorem levels_pos (box : JumbfBox J) : 0 < box.levels := by
  obtain ⟨_, _, _, _⟩ := box
  exact Nat.succ_pos _

structure Built.Shape (box : JumbfBox J) : Prop where
  type : box.boxType = JUMBF_BOX_TYPE
  described : ∃ desc, box.description = some desc ∧ WithoutNul desc.label
  children : ∀ child ∈ box.children, Built child

theorem Built.shape (built : Built box) : Shape box := by
  induction built with
  | superbox _ plain | jsonBox _ plain | cborBox _ plain => exact ⟨rfl, ⟨_, rfl, plain⟩, forall_mem_nil _⟩
  | addChild _ child parentShape _ =>
    exact ⟨parentShape.type, parentShape.described,
      forall_mem_append.mpr ⟨parentShape.children, forall_mem_singleton.mpr child⟩⟩

/-! ### Description boxes -/

theorem zero_notMem_utf8EncodeChar (c : Char) (letter : c ≠ Char.ofNat 0) : 0 ∉ String.utf8EncodeChar c := by
  have positive : c.val.toNat ≠ 0 := fun zero => letter (Char.ext (UInt32.toNat_inj.mp zero))
  have nonzero (n : Nat) (some : n % 256 ≠ 0) : (0 : UInt8) ≠ UInt8.ofNat n := by
    intro same
    apply some
    have := congrArg UInt8.toNat same
    rw [UInt8.toNat_ofNat'] at this
    exact this.symm
  unfold String.utf8EncodeChar
  dsimp only
  split_ifs <;> simp only [mem_cons, not_mem_nil, or_false, not_or]
  repeat' apply And.intro
  all_goals
    apply nonzero
    omega

theorem zero_notMem_utf8 (label : String) (plain : WithoutNul label) : 0 ∉ utf8 label := by
  have coded := utf8_ofList label.toList
  rw [String.ofList_toList] at coded
  rw [coded, mem_flatMap]
  rintro ⟨c, member, zero⟩
  exact zero_notMem_utf8EncodeChar c (fun nul => plain (nul ▸ member)) zero

def descriptionPayload (desc : DescriptionBox) : Bytes := desc.uuid.val ++ (desc.toggle :: (utf8 desc.label ++ [0]))

theorem decodeDescriptionBox_payload (desc : DescriptionBox) (plain : WithoutNul desc.label) :
    decodeDescriptionBox (descriptionPayload desc) = .ok desc.settled := by
  have ranged : rangeOf (descriptionPayload desc) 0 16 = .ok desc.uuid.val := by
    have := rangeOf_append [] desc.uuid.val (desc.toggle :: (utf8 desc.label ++ [0]))
    rwa [desc.uuid.property] at this
  have toggled : byteAt (descriptionPayload desc) 16 = .ok desc.toggle := by
    simp [byteAt, descriptionPayload, desc.uuid.property]
  have length : (descriptionPayload desc).length = (utf8 desc.label).length + 18 := by
    simp [descriptionPayload, desc.uuid.property]
    omega
  have labelled : rangeOf (descriptionPayload desc) 17 (descriptionPayload desc).length = .ok (utf8 desc.label ++ [0]) := by
    have := rangeOf_drop (desc.uuid.val ++ [desc.toggle]) (utf8 desc.label ++ [0])
    simpa only [descriptionPayload, append_assoc, cons_append, nil_append, length_append,
      desc.uuid.property, length_cons, length_nil] using this
  have ended : (utf8 desc.label ++ [0]).findIdx? (· == 0) = some (utf8 desc.label).length := by
    rw [findIdx?_append, findIdx?_eq_none_iff.mpr]
    · simp
    · intro byte member
      exact beq_eq_false_iff_ne.mpr fun zero => zero_notMem_utf8 _ plain (zero ▸ member)
  have cut : rangeOf (utf8 desc.label ++ [0]) 0 (utf8 desc.label).length = .ok (utf8 desc.label) := by
    simpa using rangeOf_append [] (utf8 desc.label) [0]
  have bits (requestable : Bool) :
      ((if requestable then TOGGLE_LABEL ||| TOGGLE_REQUESTABLE else TOGGLE_LABEL) &&& TOGGLE_LABEL ≠ 0) ∧
        ((if requestable then TOGGLE_LABEL ||| TOGGLE_REQUESTABLE else TOGGLE_LABEL) &&& TOGGLE_REQUESTABLE != 0) =
          requestable := by
    cases requestable <;> decide
  obtain ⟨labelBit, requestableBit⟩ := bits (desc.requestable.getD false)
  rw [decodeDescriptionBox, if_neg (by omega), ranged]
  simp only [bind, Except.bind, fixed, desc.uuid.property, dite_true]
  rw [toggled]
  simp only
  rw [if_neg (fun unlabelled => labelBit unlabelled.1), labelled]
  simp only [ended, Option.getD_some, cut, Reader.fromUtf8_utf8]
  rw [DescriptionBox.toggle, requestableBit]
  rfl

/-! ### Written boxes -/

theorem boxLen_ok (checked : boxLen payload.length = .ok length) : Short payload ∧ length = payload.length + 8 := by
  unfold boxLen at checked
  split at checked
  next short => exact ⟨short, (Except.ok.inj checked).symm⟩
  next => cases checked

theorem patchLength_ok (payload : Bytes)
    (patched : patchLength (buf ++ (zeros 4 ++ (boxType.val ++ payload))) buf.length = .ok out) :
    Short payload ∧ out = buf ++ frame boxType payload := by
  have length : (buf ++ (zeros 4 ++ (boxType.val ++ payload))).length - buf.length - 8 = payload.length := by
    simp [boxType.property]
    omega
  rw [patchLength, length] at patched
  obtain ⟨_, checked, written⟩ := bind_eq_ok.mp patched
  obtain ⟨short, rfl⟩ := boxLen_ok checked
  refine ⟨short, (Except.ok.inj written).symm.trans ?_⟩
  rw [write_append, frame, header, append_assoc]
  rfl

theorem encodeLeaf_ok (encoded : encodeLeaf boxType data buf = .ok out) :
    Short data ∧ out = buf ++ frame boxType data := by
  obtain ⟨_, checked, written⟩ := bind_eq_ok.mp encoded
  obtain ⟨short, rfl⟩ := boxLen_ok checked
  refine ⟨short, (Except.ok.inj written).symm.trans ?_⟩
  simp only [frame, header, append_assoc]

theorem encodeDescriptionBox_ok (encoded : encodeDescriptionBox desc buf = .ok out) :
    Short (descriptionPayload desc) ∧ out = buf ++ frame DESCRIPTION_BOX_TYPE (descriptionPayload desc) := by
  apply patchLength_ok (descriptionPayload desc)
  simpa only [encodeDescriptionBox, descriptionPayload, append_assoc, cons_append, nil_append] using encoded

/-- What is written of a JSON value is read back as it. -/
def JsonCodec.Lossless (json : JsonCodec J) : Prop :=
  ∀ val bytes, json.toVec val = .ok bytes → json.fromSlice bytes = .ok val

variable {json : JsonCodec J}

theorem encodeContent_ok (lossless : json.Lossless) (encoded : encodeContent json (some content) buf = .ok out) :
    ∃ boxType payload, Short payload ∧ out = buf ++ frame boxType payload ∧ boxType ≠ DESCRIPTION_BOX_TYPE ∧
      boxType ≠ JUMBF_BOX_TYPE ∧ contentOf json boxType payload = some content := by
  cases content with
  | json val =>
    obtain ⟨bytes, text, encoded⟩ := bind_eq_ok.mp encoded
    obtain ⟨short, rfl⟩ := encodeLeaf_ok encoded
    refine ⟨_, bytes, short, rfl, by decide, by decide, ?_⟩
    rw [contentOf, if_pos rfl, lossless val bytes (mapError_eq_ok.mp text)]
    rfl
  | cbor data | binary data =>
    obtain ⟨short, rfl⟩ := encodeLeaf_ok encoded
    exact ⟨_, data, short, rfl, by decide, by decide, rfl⟩

/-- `out` is `buf` and a box that reads, over `lower` levels below its own, as `box`. -/
def Written (json : JsonCodec J) (lower : Nat) (box : JumbfBox J) (buf out : Bytes) : Prop :=
  ∃ inner last, out = buf ++ frame box.boxType (allBytes inner) ∧ Short (allBytes inner) ∧
    Reads json lower true inner .none last ∧ last.box box.boxType = box.settled

theorem encodeChildren_ok (type : ∀ child ∈ children, child.boxType = JUMBF_BOX_TYPE)
    (written : ∀ child ∈ children, ∃ below, lower = below + 1 ∧ ∀ buf out, encodeBox json child buf = .ok out → Written json below child buf out)
    (encoded : encodeChildren json children buf = .ok out) :
    ∃ trees, out = buf ++ allBytes trees ∧ ∀ first found, Reads json lower first trees found
      { found with children := found.children ++ settledAll children } := by
  induction children generalizing buf with
  | nil =>
    rw [encodeChildren, Except.ok.injEq] at encoded
    subst encoded
    refine ⟨[], by rw [allBytes, append_nil], fun first found => ?_⟩
    rw [settledAll, append_nil]
    exact .done
  | cons child children ih =>
    obtain ⟨mid, head, tail⟩ := bind_eq_ok.mp encoded
    obtain ⟨below, rfl, own⟩ := written child mem_cons_self
    obtain ⟨inner, last, rfl, short, reads, same⟩ := own _ _ head
    obtain ⟨trees, rfl, rest⟩ := ih (forall_mem_cons.mp type).2
      (forall_mem_cons.mp written).2 tail
    have boxType := type child mem_cons_self
    refine ⟨.super JUMBF_BOX_TYPE inner :: trees, by rw [allBytes, BoxTree.bytes, append_assoc, boxType], ?_⟩
    intro first found
    refine .child short reads ?_
    rw [boxType] at same
    rw [same, settledAll]
    have := rest false { found with children := found.children ++ [child.settled] }
    simpa only [append_assoc, singleton_append] using this

theorem childLevels_le (member : child ∈ children) : child.levels ≤ childLevels children := by
  induction children with
  | nil => cases member
  | cons other children ih =>
    rw [childLevels]
    rcases mem_cons.mp member with rfl | rest
    · exact le_max_left _ _
    · exact (ih rest).trans (le_max_right _ _)

theorem encodeBox_ok (lossless : json.Lossless) (built : Built box) (levels : box.levels ≤ lower + 1)
    (encoded : encodeBox json box buf = .ok out) : Written json lower box buf out := by
  induction lower using Nat.strong_induction_on generalizing box buf out with
  | _ lower ih =>
    obtain ⟨type, ⟨desc, described, plain⟩, builtChildren⟩ := built.shape
    obtain ⟨boxType, description, content, children⟩ := box
    subst type described
    unfold encodeBox at encoded
    obtain ⟨afterDescription, descWritten, encoded⟩ := bind_eq_ok.mp encoded
    obtain ⟨afterContent, contentWritten, encoded⟩ := bind_eq_ok.mp encoded
    obtain ⟨nested, childrenWritten, patched⟩ := bind_eq_ok.mp encoded
    obtain ⟨descShort, rfl⟩ := encodeDescriptionBox_ok descWritten
    have decoded := decodeDescriptionBox_payload desc plain
    -- A child has at least one level, so there is one below this box for it.
    have written : ∀ child ∈ children, ∃ below, lower = below + 1 ∧
        ∀ buf out, encodeBox json child buf = .ok out → Written json below child buf out := by
      intro child member
      have under := childLevels_le member
      have pos := levels_pos child
      rw [JumbfBox.levels] at levels
      exact ⟨lower - 1, by omega, fun _ _ wrote => ih (lower - 1) (by omega) (builtChildren child member) (by omega) wrote⟩
    obtain ⟨trees, rfl, childrenRead⟩ := encodeChildren_ok (fun child member => (builtChildren child member).shape.type)
      written childrenWritten
    cases content with
    | none =>
      obtain rfl := Except.ok.inj contentWritten
      obtain ⟨short, rfl⟩ := patchLength_ok
        (frame DESCRIPTION_BOX_TYPE (descriptionPayload desc) ++ allBytes trees)
        (by simpa only [append_assoc] using patched)
      exact ⟨.leaf DESCRIPTION_BOX_TYPE (descriptionPayload desc) :: trees, _, rfl, short,
        .description descShort decoded (childrenRead false _), rfl⟩
    | some content =>
      obtain ⟨contentType, payload, contentShort, rfl, notDesc, notSuper, carried⟩ := encodeContent_ok lossless contentWritten
      obtain ⟨short, rfl⟩ := patchLength_ok
        (frame DESCRIPTION_BOX_TYPE (descriptionPayload desc) ++ (frame contentType payload ++ allBytes trees))
        (by simpa only [append_assoc] using patched)
      exact ⟨.leaf DESCRIPTION_BOX_TYPE (descriptionPayload desc) :: .leaf contentType payload :: trees, _, rfl, short,
        .description descShort decoded (.content contentShort notDesc notSuper carried (fun _ => rfl)
          (childrenRead false _)), rfl⟩

theorem decode_encode (lossless : json.Lossless) (built : Built box) (levels : box.levels ≤ MAX_JUMBF_DEPTH + 1)
    (encoded : box.encode json = .ok bytes) : JumbfBox.decode json bytes = .ok box.settled := by
  obtain ⟨inner, last, rfl, short, reads, same⟩ := encodeBox_ok lossless built levels encoded
  have ended := decodeInner_of_reads reads [] rfl
  have framed : decodeBoxDepth json (MAX_JUMBF_DEPTH + 1) (frame box.boxType (allBytes inner) ++ []) =
      (decodeInner json (decodeBoxDepth json MAX_JUMBF_DEPTH) (allBytes inner) 0 .none).bind
        fun found => .ok (found.box box.boxType, (allBytes inner).length + 8) :=
    decodeBoxDepth_frame MAX_JUMBF_DEPTH [] short
  rw [nil_append, length_nil] at ended
  rw [ended, append_nil] at framed
  unfold JumbfBox.decode decodeBox
  rw [nil_append, framed]
  simp only [Except.bind, bind, frame_length, ne_eq, not_true_eq_false, if_false]
  rw [same]

theorem decode_reads (json : JsonCodec J) (data : Bytes) :
    (∃ e, JumbfBox.decode json data = .error (.error e)) ∨
      ∃ boxType inner last, JumbfBox.decode json data = .ok (last.box boxType) ∧
        (BoxTree.super boxType inner).bytes = data ∧ Reads json MAX_JUMBF_DEPTH true inner .none last := by
  unfold JumbfBox.decode decodeBox
  rcases superboxesRead json (MAX_JUMBF_DEPTH + 1) data with
    ⟨e, failed⟩ | ⟨_, boxType, inner, last, rest, levels, rfl, _, reads, decoded⟩
  · rw [failed]
    exact .inl ⟨e, rfl⟩
  rw [decoded]
  simp only [Except.bind, bind]
  split
  · exact .inl ⟨_, rfl⟩
  next whole =>
    rw [ne_eq, not_not, length_append, frame_length] at whole
    obtain rfl := eq_nil_of_length_eq_zero (l := rest) (by omega)
    obtain rfl := Nat.succ.inj levels
    exact .inr ⟨boxType, inner, last, rfl, by rw [BoxTree.bytes, append_nil], reads⟩

/-- What the constructors build, within 65 levels and with labels without NUL, decodes from its encoding as
it was, with an unset `requestable` false. No input makes the decoder read outside it, and every byte of an
accepted one is in exactly one header or payload of the tree that was read as the box. -/
theorem jumbf_exact (json : JsonCodec J) :
    (json.Lossless → ∀ box, Built box → box.levels ≤ 65 → ∀ bytes, box.encode json = .ok bytes →
      JumbfBox.decode json bytes = .ok box.settled) ∧
    ∀ data, JumbfBox.decode json data ≠ .error .outside ∧
      ∀ box, JumbfBox.decode json data = .ok box → ∃ inner last, box = last.box box.boxType ∧
        Reads json MAX_JUMBF_DEPTH true inner .none last ∧
        (BoxTree.super box.boxType inner).pieces.flatten = data ∧
        ∀ i < data.length, ∃! k, InPiece (BoxTree.super box.boxType inner).pieces i k := by
  refine ⟨fun lossless box built levels bytes encoded => decode_encode lossless built levels encoded, fun data => ?_⟩
  rcases decode_reads json data with ⟨e, failed⟩ | ⟨boxType, inner, last, decoded, bytes, reads⟩
  · rw [failed]
    exact ⟨by simp, fun _ accepted => by cases accepted⟩
  · rw [decoded]
    refine ⟨by simp, fun box accepted => ?_⟩
    obtain rfl := Except.ok.inj accepted
    have whole := (pieces_flatten (.super boxType inner)).trans bytes
    refine ⟨inner, last, rfl, reads, whole, fun i inside => inPiece_unique _ i ?_⟩
    change i < (BoxTree.super boxType inner).pieces.flatten.length
    rwa [whole]

/-! ### A manifest -/

def boolJson : JsonCodec Bool where
  toVec val := .ok (if val then [116, 114, 117, 101] else [102, 97, 108, 115, 101])
  fromSlice bytes :=
    if bytes = [116, 114, 117, 101] then .ok true
    else if bytes = [102, 97, 108, 115, 101] then .ok false
    else .error "expected value"

def manifest : JumbfBox Bool :=
  ((JumbfBox.superbox "m" ⟨List.replicate 16 7, rfl⟩).addChild (.jsonBox "c" true)).addChild (.cborBox "s" [0xA0])

theorem jumbf_exact_manifest :
    ∃ bytes, manifest.encode boolJson = .ok bytes ∧ JumbfBox.decode boolJson bytes = .ok manifest.settled := by
  have lossless : boolJson.Lossless := by
    intro val bytes written
    obtain rfl := Except.ok.inj written
    cases val <;> rfl
  have built : Built manifest :=
    .addChild (.addChild (.superbox _ (by decide)) (.jsonBox _ (by decide))) (.cborBox _ (by decide))
  cases encoded : manifest.encode boolJson with
  | error e =>
    have ok : (manifest.encode boolJson).toBool = true := by decide +kernel
    rw [encoded] at ok
    cases ok
  | ok bytes => exact ⟨bytes, rfl, (jumbf_exact boolJson).1 lossless manifest built (by decide) bytes encoded⟩

end Warm.Jumbf
