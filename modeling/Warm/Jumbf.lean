import Warm.Binary

/-! JUMBF boxes. A box is a length, a type and a payload of inner boxes; the encoder writes the length
back once the payload is there, and the decoder reads each inner header before it descends. -/
namespace Warm.Jumbf

open Bytes Binary

abbrev Fixed (n : Nat) := { bytes : Bytes // bytes.length = n }

abbrev BoxType := Fixed 4
abbrev Uuid := Fixed 16

def JUMBF_BOX_TYPE : BoxType := ⟨[106, 117, 109, 98], rfl⟩
def DESCRIPTION_BOX_TYPE : BoxType := ⟨[106, 117, 109, 100], rfl⟩
def JSON_BOX_TYPE : BoxType := ⟨[106, 115, 111, 110], rfl⟩
def CBOR_BOX_TYPE : BoxType := ⟨[99, 98, 111, 114], rfl⟩
def EMBEDDED_FILE_BOX_TYPE : BoxType := ⟨[98, 102, 100, 98], rfl⟩

structure DescriptionBox where
  uuid : Uuid
  label : String
  requestable : Option Bool

inductive BoxContent (J : Type) where
  | json (value : J)
  | cbor (data : Bytes)
  | binary (data : Bytes)

/-- A superbox or a leaf, over the values of JSON. -/
structure JumbfBox (J : Type) where
  boxType : BoxType
  description : Option DescriptionBox
  content : Option (BoxContent J)
  children : List (JumbfBox J)

/-- `serde_json::to_vec` and `from_slice`. -/
structure JsonCodec (J : Type) where
  toVec : J → Except String Bytes
  fromSlice : Bytes → Except String J

variable {J : Type}

namespace JumbfBox

def superbox (label : String) (uuid : Uuid) : JumbfBox J :=
  ⟨JUMBF_BOX_TYPE, some ⟨uuid, label, some true⟩, none, []⟩

def jsonBox (label : String) (content : J) : JumbfBox J :=
  ⟨JUMBF_BOX_TYPE, some ⟨⟨List.replicate 16 0, rfl⟩, label, none⟩, some (.json content), []⟩

def cborBox (label : String) (content : Bytes) : JumbfBox J :=
  ⟨JUMBF_BOX_TYPE, some ⟨⟨List.replicate 16 0, rfl⟩, label, none⟩, some (.cbor content), []⟩

def addChild (box child : JumbfBox J) : JumbfBox J := { box with children := box.children ++ [child] }

end JumbfBox

/-! ### Encoding -/

/-- `u32::to_be_bytes`. -/
def ofBigWord (n : Nat) : Bytes :=
  [UInt8.ofNat (n / 16777216), UInt8.ofNat (n / 65536), UInt8.ofNat (n / 256), UInt8.ofNat n]

def boxLen (payload : Nat) : Except String Nat :=
  if payload + 8 < 2 ^ 32 then .ok (payload + 8)
  else .error ("JUMBF box of " ++ toString payload ++ " bytes exceeds the 32-bit length field")

def TOGGLE_REQUESTABLE : UInt8 := 0x01
def TOGGLE_LABEL : UInt8 := 0x02

def DescriptionBox.toggle (desc : DescriptionBox) : UInt8 :=
  if desc.requestable.getD false then TOGGLE_LABEL ||| TOGGLE_REQUESTABLE else TOGGLE_LABEL

/-- Writes the length of the box that starts at `start` and ends with the buffer. -/
def patchLength (buf : Bytes) (start : Nat) : Except String Bytes := do
  let totalLen ← boxLen (buf.length - start - 8)
  .ok (write buf start (ofBigWord totalLen))

def encodeDescriptionBox (desc : DescriptionBox) (buf : Bytes) : Except String Bytes :=
  patchLength (buf ++ zeros 4 ++ DESCRIPTION_BOX_TYPE.val ++ desc.uuid.val ++ [desc.toggle] ++ utf8 desc.label ++ [0])
    buf.length

/-- A content box, whose length is known before it is written. -/
def encodeLeaf (boxType : BoxType) (data buf : Bytes) : Except String Bytes := do
  let length ← boxLen data.length
  .ok (buf ++ ofBigWord length ++ boxType.val ++ data)

def encodeContent (json : JsonCodec J) (content : Option (BoxContent J)) (buf : Bytes) : Except String Bytes :=
  match content with
  | some (.json val) => do
    let jsonBytes ← (json.toVec val).mapError fun e => "JSON serialization failed: " ++ e
    encodeLeaf JSON_BOX_TYPE jsonBytes buf
  | some (.cbor data) => encodeLeaf CBOR_BOX_TYPE data buf
  | some (.binary data) => encodeLeaf EMBEDDED_FILE_BOX_TYPE data buf
  | none => .ok buf

def encodeDescription (description : Option DescriptionBox) (buf : Bytes) : Except String Bytes :=
  match description with
  | some desc => encodeDescriptionBox desc buf
  | none => .ok buf

mutual
def encodeBox (json : JsonCodec J) : JumbfBox J → Bytes → Except String Bytes
  | ⟨boxType, description, content, children⟩, buf => do
    let described ← encodeDescription description (buf ++ zeros 4 ++ boxType.val)
    let filled ← encodeContent json content described
    let nested ← encodeChildren json children filled
    patchLength nested buf.length

def encodeChildren (json : JsonCodec J) : List (JumbfBox J) → Bytes → Except String Bytes
  | [], buf => .ok buf
  | child :: children, buf => do
    let buf ← encodeBox json child buf
    encodeChildren json children buf
end

def JumbfBox.encode (json : JsonCodec J) (box : JumbfBox J) : Except String Bytes := encodeBox json box []

/-! ### Decoding -/

/-- How reading ends without a value: an index or a range is outside the bytes, or the decoder
returns an error. -/
inductive ReadFault where
  | outside
  | error (message : String)
  deriving DecidableEq, Repr

abbrev Sliced (α : Type) := Except ReadFault α

def byteAt (data : Bytes) (i : Nat) : Sliced UInt8 :=
  match data[i]? with
  | some byte => .ok byte
  | none => .error .outside

/-- `&data[start..stop]`. -/
def rangeOf (data : Bytes) (start stop : Nat) : Sliced Bytes :=
  if start ≤ stop ∧ stop ≤ data.length then .ok ((data.take stop).drop start) else .error .outside

/-- `copy_from_slice` into an array. -/
def fixed (n : Nat) (bytes : Bytes) : Sliced (Fixed n) :=
  if same : bytes.length = n then .ok ⟨bytes, same⟩ else .error .outside

def fail {α : Type} (message : String) : Sliced α := .error (.error message)

/-- `u32::from_be_bytes` of the four bytes at `offset`. -/
def lengthAt (data : Bytes) (offset : Nat) : Sliced Nat := do
  let a ← byteAt data offset
  let b ← byteAt data (offset + 1)
  let c ← byteAt data (offset + 2)
  let d ← byteAt data (offset + 3)
  .ok (16777216 * a.toNat + 65536 * b.toNat + 256 * c.toNat + d.toNat)

def typeAt (data : Bytes) (offset : Nat) : Sliced BoxType := do
  let a ← byteAt data offset
  let b ← byteAt data (offset + 1)
  let c ← byteAt data (offset + 2)
  let d ← byteAt data (offset + 3)
  .ok ⟨[a, b, c, d], rfl⟩

def MAX_JUMBF_DEPTH : Nat := 64

def decodeDescriptionBox (data : Bytes) : Sliced DescriptionBox := do
  if data.length < 17 then fail "description box too short"
  else do
    let uuid ← fixed 16 (← rangeOf data 0 16)
    let toggle ← byteAt data 16
    let requestable := some (toggle &&& TOGGLE_REQUESTABLE != 0)
    if toggle &&& TOGGLE_LABEL = 0 ∧ (toggle ≠ 0 ∨ data.length = 17) then .ok ⟨uuid, "", requestable⟩
    else do
      let labelData ← rangeOf data 17 data.length
      let labelEnd := (labelData.findIdx? (· == 0)).getD labelData.length
      match Reader.fromUtf8 (← rangeOf labelData 0 labelEnd) with
      | none => fail "invalid label UTF-8"
      | some label => .ok ⟨uuid, label, requestable⟩

/-- What the loop over the inner boxes has found. -/
structure Found (J : Type) where
  description : Option DescriptionBox
  content : Option (BoxContent J)
  children : List (JumbfBox J)

def Found.none : Found J := ⟨.none, .none, []⟩

def BoxContent.isJsonOrCbor : BoxContent J → Bool
  | .binary _ => false
  | _ => true

/-- One inner box, at `offset`. A nested box is given the rest of the bytes. -/
def decodeInnerBox (json : JsonCodec J) (decodeChild : Bytes → Sliced (JumbfBox J × Nat)) (boxData : Bytes)
    (offset : Nat) (innerType : BoxType) (innerData : Bytes) (found : Found J) : Sliced (Found J) :=
  if innerType = DESCRIPTION_BOX_TYPE then
    if offset ≠ 0 then fail "description box is not the first box"
    else do
      let description ← decodeDescriptionBox innerData
      .ok { found with description := some description }
  else if (innerType = JSON_BOX_TYPE ∨ innerType = CBOR_BOX_TYPE) ∧ found.content.any BoxContent.isJsonOrCbor then
    fail "box has more than one JSON or CBOR content box"
  else if innerType = JSON_BOX_TYPE then
    match json.fromSlice innerData with
    | .error e => fail ("JSON decode failed: " ++ e)
    | .ok val => .ok { found with content := some (.json val) }
  else if innerType = CBOR_BOX_TYPE then .ok { found with content := some (.cbor innerData) }
  else if innerType = JUMBF_BOX_TYPE then do
    let (child, _) ← decodeChild (← rangeOf boxData offset boxData.length)
    .ok { found with children := found.children ++ [child] }
  else .ok { found with content := some (.binary innerData) }

/-- The loop over the inner boxes from `offset` on. -/
def decodeInner (json : JsonCodec J) (decodeChild : Bytes → Sliced (JumbfBox J × Nat)) (boxData : Bytes)
    (offset : Nat) (found : Found J) : Sliced (Found J) :=
  if more : offset < boxData.length then
    if boxData.length - offset < 8 then fail ("truncated inner box header at offset " ++ toString offset)
    else do
      let innerLen ← lengthAt boxData offset
      if bad : innerLen < 8 ∨ innerLen > boxData.length - offset then
        fail ("invalid inner box length " ++ toString innerLen ++ " at offset " ++ toString offset)
      else do
        let innerType ← typeAt boxData (offset + 4)
        let innerData ← rangeOf boxData (offset + 8) (offset + innerLen)
        let found ← decodeInnerBox json decodeChild boxData offset innerType innerData found
        decodeInner json decodeChild boxData (offset + innerLen) found
  else .ok found
termination_by boxData.length - offset
decreasing_by omega

/-- `decode_box_depth`, with the levels that are left. -/
def decodeBoxDepth (json : JsonCodec J) : Nat → Bytes → Sliced (JumbfBox J × Nat)
  | 0, _ => fail ("JUMBF nesting exceeds maximum depth of " ++ toString MAX_JUMBF_DEPTH)
  | levels + 1, data =>
    if data.length < 8 then fail "insufficient data for box header"
    else do
      let boxLen ← lengthAt data 0
      if boxLen < 8 ∨ boxLen > data.length then fail ("invalid box length: " ++ toString boxLen)
      else do
        let boxType ← typeAt data 4
        let boxData ← rangeOf data 8 boxLen
        let found ← decodeInner json (decodeBoxDepth json levels) boxData 0 .none
        .ok (⟨boxType, found.description, found.content, found.children⟩, boxLen)

def decodeBox (json : JsonCodec J) (data : Bytes) : Sliced (JumbfBox J × Nat) :=
  decodeBoxDepth json (MAX_JUMBF_DEPTH + 1) data

def JumbfBox.decode (json : JsonCodec J) (data : Bytes) : Sliced (JumbfBox J) := do
  let (jbox, consumed) ← decodeBox json data
  if consumed ≠ data.length then
    fail ("trailing data: consumed " ++ toString consumed ++ ", total " ++ toString data.length)
  else .ok jbox

end Warm.Jumbf
