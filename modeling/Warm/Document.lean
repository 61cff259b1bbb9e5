import Warm.Binary
import Mathlib.Data.List.Basic

/-! Stored documents as a transaction carries them. Floats are their bit patterns, a JSON value is
the text `serde_json` writes for it, and a term table is its entries in key order: the packed,
shared and tree forms in memory hold the same table. -/
namespace Warm

open Binary Bytes List

def MAX_DOCUMENT_BYTES : Nat := 8 * 1024 * 1024
def MAX_CHUNK_BYTES : Nat := 64 * 1024

/-- A `serde_json::Value`, by its serialized text. -/
structure Json where
  text : Bytes
  deriving DecidableEq, Repr

inductive VectorState where
  | encoded
  | pending
  | lexical
  deriving DecidableEq, Repr

/-- A hypervector before `valid_vector` has checked it. -/
structure VectorRecord where
  dim : UInt64
  indices : List UInt32
  deriving DecidableEq, Repr

/-- `indices().windows(2).all(|p| p[0] < p[1])`. -/
def VectorRecord.ascending (vector : VectorRecord) : Bool :=
  (vector.indices.zip vector.indices.tail).all fun pair => decide (pair.1 < pair.2)

structure Positions where
  version : UInt8
  offsets : List UInt32
  data : Bytes
  deriving DecidableEq, Repr

namespace Positions

def VERSION : UInt8 := 1
def DOCUMENT_VERSION : UInt8 := 2

def supported (version : UInt8) : Bool := version == VERSION || version == DOCUMENT_VERSION

def offset (positions : Positions) (index : Nat) : Nat := (positions.offsets.getD index 0).toNat

/-- The encoded positions of the term at `index`. -/
def bytes (positions : Positions) (index : Nat) : Bytes :=
  slice positions.data (positions.offset index) (positions.offset (index + 1) - positions.offset index)

/-- The loop over one term's gaps; every gap takes a byte, so the bytes bound it. -/
def readGaps : Nat → Option Nat → Bytes → Option (List Nat)
  | _, _, [] => some []
  | 0, _, _ => none
  | fuel + 1, previous, data =>
    match Reader.varint data with
    | .error _ => none
    | .ok (gap, rest) =>
      let position := previous.getD 0 + gap
      if gap < 2 ^ 32 ∧ (previous = none ∨ 0 < gap) ∧ position < 2 ^ 32 ∧ position < MAX_DOCUMENT_BYTES then
        (readGaps fuel (some position) rest).map (position :: ·)
      else none

def termPositions (positions : Positions) (index : Nat) : Option (List Nat) :=
  readGaps (positions.bytes index).length none (positions.bytes index)

/-- The positions of one term: at least one, and no more than its frequency. -/
def countedPositions (positions : Positions) (entry : (String × UInt32) × Nat) : Option (List Nat) := do
  let found ← positions.termPositions entry.2
  if found ≠ [] ∧ found.length ≤ entry.1.2.toNat then some found else none

def allPositions (positions : Positions) (entries : List (String × UInt32)) : Option (List Nat) :=
  (entries.zipIdx.mapM positions.countedPositions).map List.flatten

def validate (positions : Positions) (entries : List (String × UInt32)) : Bool :=
  supported positions.version &&
    decide (positions.offsets.length = entries.length + 1) &&
    decide (positions.offsets.head? = some 0) &&
    decide (positions.offsets.getLast?.map UInt32.toNat = some positions.data.length) &&
    (positions.offsets.zip positions.offsets.tail).all (fun pair => decide (pair.1 < pair.2)) &&
    decide (positions.data.length ≤ MAX_DOCUMENT_BYTES) &&
    match positions.allPositions entries with
    | none => false
    | some found =>
      decide (found.length ≤ MAX_DOCUMENT_BYTES) &&
        decide ((found.max?.map (· + 1)).getD 0 = found.length) && decide found.Nodup

end Positions

/-- The terms of a chunk with their frequencies, keys ascending by their bytes. Positions come from
the analysis of the text or from a decoder that validated them. -/
structure StoredTerms where
  entries : List (String × UInt32)
  positions : Option Positions
  sorted : (entries.map fun entry => utf8 entry.1).Pairwise (· < ·)
  checked : positions.all (·.validate entries) = true
  deriving DecidableEq

theorem no_terms_sorted : (([] : List (String × UInt32)).map fun entry => utf8 entry.1).Pairwise (· < ·) := .nil

theorem no_positions_checked : (none : Option Positions).all (·.validate []) = true := rfl

namespace StoredTerms

def keys (terms : StoredTerms) : List String := terms.entries.map Prod.fst

def isWholeDocument (terms : StoredTerms) : Bool :=
  terms.positions.any (·.version == Positions.DOCUMENT_VERSION)

end StoredTerms

structure StoredChunk where
  id : String
  text : Option String
  startByte : UInt32
  endByte : UInt32
  vector : VectorRecord
  embedding : Option (List UInt32)
  terms : StoredTerms
  wordCount : UInt64
  stemmed : Bool
  vectorState : VectorState
  deriving DecidableEq

structure StoredDocument where
  id : String
  sourceUri : Option String
  version : String
  metadata : Json
  chunks : List StoredChunk
  deriving DecidableEq

def CHUNK_PREFIX : String := "hms:chunk:"

def chunkId (document : String) (index : Nat) : String :=
  CHUNK_PREFIX ++ toString document.utf8ByteSize ++ ":" ++ document ++ ":" ++ toString index

/-- `str::strip_prefix`, on the bytes. -/
def stripPrefix (rest part : Bytes) : Option Bytes :=
  if part.isPrefixOf rest then some (rest.drop part.length) else none

def isChunkId (id document : String) (index : Nat) : Bool :=
  [CHUNK_PREFIX, toString document.utf8ByteSize, ":", document, ":", toString index].foldl
    (fun rest part => rest.bind (stripPrefix · (utf8 part))) (some (utf8 id)) == some []

theorem utf8_append (a b : String) : utf8 (a ++ b) = utf8 a ++ utf8 b := by
  simp [utf8]

theorem utf8_injective : Function.Injective utf8 := by
  intro a b same
  apply Option.some.inj
  rw [← Reader.fromUtf8_utf8 a, same, Reader.fromUtf8_utf8]

theorem utf8_length (text : String) : (utf8 text).length = text.utf8ByteSize := by
  simp [utf8]

theorem stripPrefix_eq_some (rest part after : Bytes) :
    stripPrefix rest part = some after ↔ rest = part ++ after := by
  rw [stripPrefix]
  by_cases front : part.isPrefixOf rest = true
  · obtain ⟨tail, rfl⟩ := isPrefixOf_iff_prefix.mp front
    simp
  · rw [if_neg front]
    simp only [reduceCtorEq, false_iff]
    rintro rfl
    exact front <| isPrefixOf_iff_prefix.mpr (prefix_append part after)

theorem isChunkId_iff (id document : String) (index : Nat) :
    isChunkId id document index = true ↔ id = chunkId document index := by
  rw [← utf8_injective.eq_iff]
  simp only [isChunkId, chunkId, foldl_cons, foldl_nil, Option.bind_some, beq_iff_eq,
    Option.bind_eq_some_iff, stripPrefix_eq_some, utf8_append]
  constructor
  · rintro ⟨_, ⟨_, ⟨_, ⟨_, ⟨_, front, rfl⟩, rfl⟩, rfl⟩, rfl⟩, rfl⟩
    simp [front]
  · intro same
    simp [same]

theorem decimal_injective : Function.Injective fun n : Nat => toString n := by
  intro a b same
  have digits : Nat.toDigits 10 a = Nat.toDigits 10 b := by
    rw [← Nat.toList_repr, ← Nat.toList_repr, ← Nat.toString_eq_repr, ← Nat.toString_eq_repr]
    exact congrArg String.toList same
  rw [← Nat.ofDigitChars_ten_toDigits (n := a), digits, Nat.ofDigitChars_ten_toDigits]

theorem colon_not_mem_decimal (n : Nat) : ':' ∉ (toString n).toList := by
  rw [Nat.toString_eq_repr, Nat.toList_repr]
  intro member
  simpa using Nat.isDigit_of_mem_toDigits (by decide) (by decide) member

theorem splitAtColon (m n : Nat) (same : (toString m).toList ++ ':' :: a = (toString n).toList ++ ':' :: b) :
    (toString m).toList = (toString n).toList ∧ a = b := by
  rcases append_eq_append_iff.mp same with ⟨more, left, right⟩ | ⟨more, left, right⟩
  · cases more with
    | nil => exact ⟨by simpa using left.symm, by simpa using right⟩
    | cons c more =>
      have colon : ':' = c := (List.cons.inj right).1
      exact absurd (by rw [left, colon]; simp) (colon_not_mem_decimal n)
  · cases more with
    | nil => exact ⟨by simpa using left, by simpa using right.symm⟩
    | cons c more =>
      have colon : ':' = c := (List.cons.inj right).1
      exact absurd (by rw [left, colon]; simp) (colon_not_mem_decimal m)

theorem chunkId_inj (same : chunkId document index = chunkId other position) : document = other ∧ index = position := by
  have chars := congrArg String.toList same
  simp only [chunkId, String.append_assoc, String.toList_append, append_cancel_left_eq] at chars
  have colon : ":".toList = [':'] := rfl
  simp only [colon, singleton_append] at chars
  obtain ⟨length, rest⟩ := splitAtColon _ _ chars
  have size := decimal_injective (String.toList_injective length)
  have bytes : utf8 document ++ utf8 (":" ++ toString index) = utf8 other ++ utf8 (":" ++ toString position) := by
    rw [← utf8_append, ← utf8_append]
    congr 1
    apply String.toList_injective
    simpa only [String.toList_append, colon, singleton_append] using rest
  obtain ⟨own, ordinal⟩ := append_inj bytes (by rw [utf8_length, utf8_length, size])
  have text := congrArg String.toList (utf8_injective ordinal)
  simp only [String.toList_append, colon, singleton_append, List.cons.injEq, true_and] at text
  exact ⟨utf8_injective own, decimal_injective (String.toList_injective text)⟩

/-- A chunk's id tells its document and its index, and only that document owns it. -/
theorem chunkId_owned :
    (Function.Injective fun chunk : String × Nat => chunkId chunk.1 chunk.2) ∧
      (∀ id document index, isChunkId id document index = true ↔ id = chunkId document index) ∧
      ∀ id document other index position, isChunkId id document index = true → isChunkId id other position = true →
        document = other ∧ index = position := by
  refine ⟨?_, isChunkId_iff, ?_⟩
  · rintro ⟨document, index⟩ ⟨other, position⟩ same
    obtain ⟨rfl, rfl⟩ := chunkId_inj same
    rfl
  · intro id document other index position own its
    rw [isChunkId_iff] at own its
    exact chunkId_inj (own.symm.trans its)

end Warm
