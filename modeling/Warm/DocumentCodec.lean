import Warm.FrameTerms
import Mathlib.Data.List.GetD

/-! The binary record of a document in a journal frame, its writer and its reader. -/
namespace Warm.Binary

open Bytes List

def CHUNK_EXPLICIT_ID : UInt8 := 1
def CHUNK_TEXT : UInt8 := 2
def CHUNK_STEMMED : UInt8 := 4
def CHUNK_EMBEDDING : UInt8 := 8
def CHUNK_STATE_SHIFT : UInt8 := 4
def CHUNK_POSITIONS : UInt8 := 64
def CHUNK_FLAGS : UInt8 := 127

/-- Whether the binary form can carry the document: chunk vectors strictly ascending. -/
def representable (document : StoredDocument) : Bool :=
  document.chunks.all (·.vector.ascending)

def stateBits : VectorState → UInt8
  | .encoded => 0
  | .pending => 1
  | .lexical => 2

def flag (set : Bool) (bit : UInt8) : UInt8 := if set then bit else 0

def chunkFlags (explicitId text stemmed embedding : Bool) (state : VectorState) (positions : Bool) : UInt8 :=
  flag explicitId CHUNK_EXPLICIT_ID ||| flag text CHUNK_TEXT ||| flag stemmed CHUNK_STEMMED |||
    flag embedding CHUNK_EMBEDDING ||| (stateBits state <<< CHUNK_STATE_SHIFT) ||| flag positions CHUNK_POSITIONS

/-- Ascending numbers as the first and then the differences. -/
def putGaps (previous : Nat) : List Nat → Bytes
  | [] => []
  | value :: rest => putVarint (value - previous) ++ putGaps value rest

def putNumbers (values : List UInt32) : Bytes := values.flatMap fun value => putVarint value.toNat

def putEmbedding (values : List UInt32) : Bytes :=
  putVarint values.length ++ values.flatMap fun value => ofWord value.toNat

def putPositions (positions : Positions) : Bytes :=
  positions.version ::
    (putVarint positions.offsets.length ++ (putNumbers positions.offsets ++ putBytes positions.data))

/-- The id a chunk's record spells out: none when it is the one the position gives. -/
def explicitId (document : String) (index : Nat) (chunk : StoredChunk) : Option String :=
  if isChunkId chunk.id document index then none else some chunk.id

/-- A chunk's record; `ids` are the dictionary ids of its terms. -/
def chunkBytes (document : String) (index : Nat) (chunk : StoredChunk) (ids : List Nat) : Bytes :=
  chunkFlags (explicitId document index chunk).isSome chunk.text.isSome chunk.stemmed chunk.embedding.isSome
      chunk.vectorState chunk.terms.positions.isSome ::
    (((explicitId document index chunk).elim [] fun id => putBytes (utf8 id)) ++
    ((chunk.text.elim [] fun text => putBytes (utf8 text)) ++
    (putVarint chunk.startByte.toNat ++ (putVarint chunk.endByte.toNat ++ (putVarint chunk.wordCount.toNat ++
    (putVarint chunk.vector.dim.toNat ++ (putVarint chunk.vector.indices.length ++
    (putGaps 0 (chunk.vector.indices.map UInt32.toNat) ++ ((chunk.embedding.elim [] putEmbedding) ++
    (putVarint chunk.terms.entries.length ++ (putGaps 0 ids ++ (putNumbers (chunk.terms.entries.map Prod.snd) ++
    (chunk.terms.positions.elim [] putPositions)))))))))))))

/-- The chunks' records, with the ids taken off the cursor; `none` if it runs out. -/
def writeChunks (document : String) : Nat → List StoredChunk → List Nat → Option (Bytes × List Nat)
  | _, [], ids => some ([], ids)
  | index, chunk :: rest, ids =>
    let count := chunk.terms.entries.length
    if count ≤ ids.length then do
      let (bytes, left) ← writeChunks document (index + 1) rest (ids.drop count)
      some (chunkBytes document index chunk (ids.take count) ++ bytes, left)
    else none

def putUri : Option String → Bytes
  | none => [0]
  | some uri => 1 :: putBytes (utf8 uri)

def documentHeader (document : StoredDocument) : Bytes :=
  putBytes (utf8 document.id) ++ (putUri document.sourceUri ++ (putBytes (utf8 document.version) ++
    (putBytes document.metadata.text ++ putVarint document.chunks.length)))

def writeDocument (document : StoredDocument) (ids : List Nat) : Option (Bytes × List Nat) := do
  let (chunks, left) ← writeChunks document.id 0 document.chunks ids
  some (documentHeader document ++ chunks, left)

namespace Reader

def vectorIndices : Nat → Option Nat → Reader (List UInt32)
  | 0, _ => pure []
  | count + 1, previous => do
    let gap ← number 32 "vector index"
    let value := previous.getD 0 + gap
    ensure (value < 2 ^ 32) .vectorIndexOverflow
    let rest ← vectorIndices count (some value)
    pure (UInt32.ofNat value :: rest)

/-- Dictionary ids below `size`, strictly ascending. -/
def termIds (size : Nat) : Nat → Option Nat → Reader (List Nat)
  | 0, _ => pure []
  | count + 1, previous => do
    let gap ← number 64 "term id"
    ensure (previous = none ∨ 0 < gap) .termIdOrder
    let id := previous.getD 0 + gap
    ensure (id < 2 ^ 64) .termIdOverflow
    ensure (id < size) (.termIdUnknown id)
    let rest ← termIds size count (some id)
    pure (id :: rest)

def numbers (what : String) : Nat → Reader (List UInt32)
  | 0 => pure []
  | count + 1 => do
    let value ← number 32 what
    let rest ← numbers what count
    pure (UInt32.ofNat value :: rest)

def floats : Nat → Reader (List UInt32)
  | 0 => pure []
  | count + 1 => do
    let bytes ← take 4
    let rest ← floats count
    pure (UInt32.ofNat (word bytes 0) :: rest)

def embedding : Reader (List UInt32) := do
  let len ← count 4
  floats len

/-- The positions of `termCount` terms; their content is validated against the term table. -/
def positions (termCount : Nat) : Reader Positions := do
  let version ← byte
  ensure (Positions.supported version = true) (.positionsVersion version)
  let offsetCount ← count 1
  ensure (offsetCount = termCount + 1) .positionsCount
  let offsets ← numbers "position offset" offsetCount
  let data ← bytes
  ensure (data.length ≤ MAX_DOCUMENT_BYTES) .positionsPayload
  pure ⟨version, offsets, data⟩

def vectorState (flags : UInt8) : Reader VectorState :=
  match (flags >>> CHUNK_STATE_SHIFT) &&& 3 with
  | 0 => pure .encoded
  | 1 => pure .pending
  | 2 => pure .lexical
  | other => throw (.vectorState other.toNat)

def flagged (flags bit : UInt8) (read : Reader α) : Reader (Option α) :=
  if flags &&& bit ≠ 0 then some <$> read else pure none

/-- `StoredTerms::from_dictionary` and `Positions::validate`. Ascending ids of an ascending
dictionary give sorted entries, so only the positions can be refused. -/
def storedTerms (terms : List String) (ids : List Nat) (frequencies : List UInt32)
    (positions : Option Positions) : Reader StoredTerms :=
  let entries := (ids.map (terms.getD · "")).zip frequencies
  if formed : (entries.map fun entry => utf8 entry.1).Pairwise (· < ·) ∧
      positions.all (·.validate entries) = true then
    pure ⟨entries, positions, formed.1, formed.2⟩
  else throw .positionsInvalid

def chunk (document : String) (terms : List String) (index : Nat) : Reader StoredChunk := do
  let flags ← byte
  ensure (flags &&& ~~~CHUNK_FLAGS = 0) (.chunkFlags flags)
  let vectorState ← vectorState flags
  let explicitId ← flagged flags CHUNK_EXPLICIT_ID str
  let text ← flagged flags CHUNK_TEXT str
  let startByte ← number 32 "chunk start"
  let endByte ← number 32 "chunk end"
  let wordCount ← number 64 "word count"
  let dim ← number 64 "vector dimensions"
  let indexCount ← count 1
  let indices ← vectorIndices indexCount none
  let embedding ← flagged flags CHUNK_EMBEDDING embedding
  let termCount ← count 2
  let ids ← termIds terms.length termCount none
  let frequencies ← numbers "term frequency" termCount
  let positions ← flagged flags CHUNK_POSITIONS (positions termCount)
  let table ← storedTerms terms ids frequencies positions
  pure {
    id := explicitId.getD (chunkId document index)
    text
    startByte := UInt32.ofNat startByte
    endByte := UInt32.ofNat endByte
    vector := ⟨UInt64.ofNat dim, indices⟩
    embedding
    terms := table
    wordCount := UInt64.ofNat wordCount
    stemmed := flags &&& CHUNK_STEMMED ≠ 0
    vectorState }

def chunks (document : String) (terms : List String) : Nat → Nat → Reader (List StoredChunk)
  | 0, _ => pure []
  | left + 1, index => do
    let first ← chunk document terms index
    let rest ← chunks document terms left (index + 1)
    pure (first :: rest)

def uri : Reader (Option String) := do
  let set ← byte
  match set with
  | 0 => pure none
  | 1 => some <$> str
  | other => throw (.sourceFlag other)

/-- `value` is `serde_json::from_slice`. -/
def document (value : Bytes → Option Json) (terms : List String) : Reader StoredDocument := do
  let id ← str
  let sourceUri ← uri
  let version ← str
  let metadata ← bytes
  match value metadata with
  | none => throw .metadata
  | some metadata => do
    -- The source takes a chunk for at least its flags and seven varints.
    let chunkCount ← count 8
    let chunks ← chunks id terms chunkCount 0
    pure ⟨id, sourceUri, version, metadata, chunks⟩

end Reader

theorem chunkFlags_known (explicitId text stemmed embedding : Bool) (state : VectorState) (positions : Bool) :
    chunkFlags explicitId text stemmed embedding state positions &&& ~~~CHUNK_FLAGS = 0 := by
  cases explicitId <;> cases text <;> cases stemmed <;> cases embedding <;> cases state <;> cases positions <;> rfl

theorem chunkFlags_bits (explicitId text stemmed embedding : Bool) (state : VectorState) (positions : Bool) :
    let flags := chunkFlags explicitId text stemmed embedding state positions
    decide (flags &&& CHUNK_EXPLICIT_ID ≠ 0) = explicitId ∧ decide (flags &&& CHUNK_TEXT ≠ 0) = text ∧
      decide (flags &&& CHUNK_STEMMED ≠ 0) = stemmed ∧ decide (flags &&& CHUNK_EMBEDDING ≠ 0) = embedding ∧
      decide (flags &&& CHUNK_POSITIONS ≠ 0) = positions ∧
      (flags >>> CHUNK_STATE_SHIFT) &&& 3 = stateBits state := by
  cases explicitId <;> cases text <;> cases stemmed <;> cases embedding <;> cases state <;> cases positions <;>
    decide

theorem putGaps_length (previous : Nat) (values : List Nat) : values.length ≤ (putGaps previous values).length := by
  induction values generalizing previous with
  | nil => simp
  | cons value values ih =>
    have first := putVarint_pos (value - previous)
    have rest := ih value
    simp only [putGaps, length_append, length_cons]
    omega

theorem putNumbers_length (values : List UInt32) : values.length ≤ (putNumbers values).length := by
  induction values with
  | nil => simp
  | cons value values ih =>
    have first := putVarint_pos value.toNat
    simp only [putNumbers, flatMap_cons, length_append, length_cons] at ih ⊢
    omega

theorem flatMap_ofWord_length (values : List UInt32) :
    (values.flatMap fun value => ofWord value.toNat).length = 4 * values.length := by
  induction values with
  | nil => rfl
  | cons value values ih =>
    rw [flatMap_cons, length_append, ih, ofWord_length, length_cons]
    omega

namespace Reader

theorem pure_eq (a : α) (data : Bytes) : (pure a : Reader α) data = .ok (a, data) := rfl

theorem vectorState_eq (state : VectorState) (bits : (flags >>> CHUNK_STATE_SHIFT) &&& 3 = stateBits state)
    (data : Bytes) : vectorState flags data = .ok (state, data) := by
  rw [vectorState, bits]
  cases state <;> rfl

theorem map_some_ok {read : Reader α} (ran : read data = .ok (a, rest)) :
    (some <$> read) data = .ok (some a, rest) := by
  change ((fun p => (some p.1, p.2)) <$> read data) = _
  rw [ran]
  rfl

theorem flagged_elim (value : Option α) (put : α → Bytes) (read : Reader α) (rest : Bytes)
    (set : decide (flags &&& bit ≠ 0) = value.isSome)
    (ran : ∀ a ∈ value, read (put a ++ rest) = .ok (a, rest)) :
    flagged flags bit read (value.elim [] put ++ rest) = .ok (value, rest) := by
  cases value with
  | none =>
    rw [flagged, if_neg (of_decide_eq_false set)]
    rfl
  | some a =>
    rw [flagged, if_pos (of_decide_eq_true set)]
    exact map_some_ok (ran a rfl)

theorem vectorIndices_putGaps (indices : List UInt32) (previous : Option Nat) (rest : Bytes)
    (ascending : indices.Pairwise (· < ·)) (above : ∀ before ∈ previous, ∀ i ∈ indices, before < i.toNat) :
    vectorIndices indices.length previous (putGaps (previous.getD 0) (indices.map UInt32.toNat) ++ rest) =
      .ok (indices, rest) := by
  induction indices generalizing previous with
  | nil => rfl
  | cons i indices ih =>
    have bound := i.toNat_lt
    have step : previous.getD 0 + (i.toNat - previous.getD 0) = i.toNat := by
      cases previous with
      | none => simp
      | some before =>
        have below := above before rfl i (mem_cons_self ..)
        simp only [Option.getD_some]
        omega
    rw [length_cons, vectorIndices, map_cons, putGaps, append_assoc,
      bind_ok (number_putVarint _ _ _ (by omega) (by decide)), step, bind_ok (ensure_ok bound _ _)]
    have later := ih (some i.toNat) (List.Pairwise.of_cons ascending) (by
      rintro _ ⟨⟩ j member
      exact UInt32.lt_iff_toNat_lt.mp (rel_of_pairwise_cons ascending member))
    rw [Option.getD_some] at later
    rw [bind_ok later, UInt32.ofNat_toNat, pure_eq]

theorem termIds_putGaps (size : Nat) (ids : List Nat) (previous : Option Nat) (rest : Bytes)
    (ascending : ids.Pairwise (· < ·)) (above : ∀ before ∈ previous, ∀ id ∈ ids, before < id)
    (known : ∀ id ∈ ids, id < size) (small : size ≤ 2 ^ 64) :
    termIds size ids.length previous (putGaps (previous.getD 0) ids ++ rest) = .ok (ids, rest) := by
  induction ids generalizing previous with
  | nil => rfl
  | cons id ids ih =>
    have bound := known id (mem_cons_self ..)
    have order : previous = none ∨ 0 < id - previous.getD 0 := by
      cases previous with
      | none => exact .inl rfl
      | some before =>
        have below := above before rfl id (mem_cons_self ..)
        exact .inr (Nat.sub_pos_of_lt below)
    have step : previous.getD 0 + (id - previous.getD 0) = id := by
      cases previous with
      | none => simp
      | some before =>
        have below := above before rfl id (mem_cons_self ..)
        simp only [Option.getD_some]
        omega
    rw [length_cons, termIds, putGaps, append_assoc,
      bind_ok (number_putVarint _ _ _ (by omega) (Nat.le_refl 64)), bind_ok (ensure_ok order _ _), step,
      bind_ok (ensure_ok (Nat.lt_of_lt_of_le bound small) _ _), bind_ok (ensure_ok bound _ _)]
    have later := ih (some id) (List.Pairwise.of_cons ascending) (by
      rintro _ ⟨⟩ other member
      exact rel_of_pairwise_cons ascending member)
      (forall_mem_cons.mp known).2
    rw [Option.getD_some] at later
    rw [bind_ok later, pure_eq]

theorem numbers_putNumbers (what : String) (values : List UInt32) (rest : Bytes) :
    numbers what values.length (putNumbers values ++ rest) = .ok (values, rest) := by
  induction values with
  | nil => rfl
  | cons value values ih =>
    rw [putNumbers] at ih
    rw [length_cons, numbers, putNumbers, flatMap_cons, append_assoc,
      bind_ok (number_putVarint _ _ _ value.toNat_lt (by decide)), bind_ok ih, UInt32.ofNat_toNat, pure_eq]

theorem floats_ofWord (values : List UInt32) (rest : Bytes) :
    floats values.length ((values.flatMap fun value => ofWord value.toNat) ++ rest) = .ok (values, rest) := by
  induction values with
  | nil => rfl
  | cons value values ih =>
    have bits : UInt32.ofNat (word (ofWord value.toNat) 0) = value := by
      rw [word_ofWord, Nat.mod_eq_of_lt value.toNat_lt, UInt32.ofNat_toNat]
    rw [length_cons, floats, flatMap_cons, append_assoc]
    have taken := take_append (ofWord value.toNat) ((values.flatMap fun value => ofWord value.toNat) ++ rest)
    rw [ofWord_length] at taken
    rw [bind_ok taken, bind_ok ih, bits, pure_eq]

theorem embedding_putEmbedding (values : List UInt32) (rest : Bytes)
    (fits : (putEmbedding values).length < 2 ^ 64) :
    embedding (putEmbedding values ++ rest) = .ok (values, rest) := by
  have size := flatMap_ofWord_length values
  rw [putEmbedding, length_append, size] at fits
  have room : values.length ≤ ((values.flatMap fun value => ofWord value.toNat) ++ rest).length / max 4 1 := by
    rw [length_append, size, Nat.le_div_iff_mul_le (by decide)]
    simp only [Nat.max_eq_left (show 1 ≤ 4 by decide)]
    omega
  rw [embedding, putEmbedding, append_assoc, bind_ok (count_putVarint _ _ _ (by omega) room), floats_ofWord]

theorem positions_putPositions (found : Positions) (entries : List (String × UInt32)) (rest : Bytes)
    (valid : found.validate entries = true) (fits : (putPositions found).length < 2 ^ 64) :
    positions entries.length (putPositions found ++ rest) = .ok (found, rest) := by
  simp only [Positions.validate, Bool.and_eq_true, decide_eq_true_eq] at valid
  obtain ⟨⟨⟨⟨⟨⟨supported, counted⟩, _⟩, _⟩, _⟩, bounded⟩, _⟩ := valid
  have offsets := putNumbers_length found.offsets
  simp only [putPositions, putBytes, length_cons, length_append] at fits
  have room : found.offsets.length ≤ (putNumbers found.offsets ++ (putBytes found.data ++ rest)).length / max 1 1 := by
    rw [Nat.max_self, Nat.div_one, length_append]
    omega
  rw [positions, putPositions, cons_append, append_assoc, append_assoc, bind_ok (byte_cons _ _),
    bind_ok (ensure_ok supported _ _), bind_ok (count_putVarint _ _ _ (by omega) room),
    bind_ok (ensure_ok counted _ _), bind_ok (numbers_putNumbers _ _ _),
    bind_ok (bytes_putBytes _ _ (by omega)), bind_ok (ensure_ok bounded _ _), pure_eq]

end Reader

theorem ascending_iff (indices : List UInt32) :
    ((indices.zip indices.tail).all fun pair => decide (pair.1 < pair.2)) = true ↔ indices.Pairwise (· < ·) := by
  rw [← isChain_iff_pairwise]
  induction indices with
  | nil => simp
  | cons i indices ih =>
    cases indices with
    | nil => simp
    | cons j indices => simpa using fun _ => by simpa using ih

theorem idxOf_lt_idxOf {terms : List String} (ascending : terms.Pairwise fun a b => utf8 a < utf8 b)
    (first : a ∈ terms) (second : b ∈ terms) (below : utf8 a < utf8 b) : terms.idxOf a < terms.idxOf b := by
  have insideA := idxOf_lt_length_iff.mpr first
  have insideB := idxOf_lt_length_iff.mpr second
  rcases Nat.lt_trichotomy (terms.idxOf a) (terms.idxOf b) with order | same | order
  · exact order
  · have equal : a = b := by
      rw [← getElem_idxOf insideA, ← getElem_idxOf insideB]
      simp only [same]
    rw [equal] at below
    exact absurd below (List.lt_irrefl _)
  · have reversed := pairwise_iff_getElem.mp ascending _ _ insideB insideA order
    rw [getElem_idxOf, getElem_idxOf] at reversed
    exact absurd (List.lt_trans below reversed) (List.lt_irrefl _)

/-- The dictionary ids of a chunk's terms. -/
def termRanks (terms : List String) (chunk : StoredChunk) : List Nat :=
  chunk.terms.keys.map fun key => terms.idxOf key

section

variable {terms : List String} {chunk : StoredChunk}

theorem termRanks_ascending (ascending : terms.Pairwise fun a b => utf8 a < utf8 b)
    (known : ∀ key ∈ chunk.terms.keys, key ∈ terms) : (termRanks terms chunk).Pairwise (· < ·) := by
  have sorted : chunk.terms.keys.Pairwise fun a b => utf8 a < utf8 b := by
    have byBytes := chunk.terms.sorted
    rw [StoredTerms.keys, pairwise_map]
    rwa [pairwise_map] at byBytes
  rw [termRanks, pairwise_map]
  exact sorted.imp_of_mem fun first second below =>
    idxOf_lt_idxOf ascending (known _ first) (known _ second) below

theorem termRanks_lt (known : ∀ key ∈ chunk.terms.keys, key ∈ terms) (id : Nat) (member : id ∈ termRanks terms chunk) :
    id < terms.length := by
  obtain ⟨key, listed, rfl⟩ := mem_map.mp member
  exact idxOf_lt_length_iff.mpr (known key listed)

theorem termRanks_entries (known : ∀ key ∈ chunk.terms.keys, key ∈ terms) :
    ((termRanks terms chunk).map (terms.getD · "")).zip (chunk.terms.entries.map Prod.snd) = chunk.terms.entries := by
  have looked : (termRanks terms chunk).map (terms.getD · "") = chunk.terms.entries.map Prod.fst := by
    rw [termRanks, map_map]
    refine (map_congr_left fun key listed => ?_).trans (map_id _)
    have inside := idxOf_lt_length_iff.mpr (known key listed)
    simp only [Function.comp_apply, id, getD_eq_getElem _ _ inside, getElem_idxOf]
  rw [looked, ← unzip_fst, ← unzip_snd, zip_unzip]

theorem explicitId_getD (document : String) (index : Nat) (chunk : StoredChunk) :
    (explicitId document index chunk).getD (chunkId document index) = chunk.id := by
  rw [explicitId]
  by_cases implied : isChunkId chunk.id document index = true
  · rw [if_pos implied]
    exact ((isChunkId_iff _ _ _).mp implied).symm
  · rw [if_neg implied]
    rfl

theorem Reader.storedTerms_eq (known : ∀ key ∈ chunk.terms.keys, key ∈ terms) (data : Bytes) :
    storedTerms terms (termRanks terms chunk) (chunk.terms.entries.map Prod.snd) chunk.terms.positions data =
      .ok (chunk.terms, data) := by
  have entries := termRanks_entries known
  have formed := And.intro chunk.terms.sorted chunk.terms.checked
  simp only [storedTerms, entries]
  rw [dif_pos formed]
  rfl

theorem elim_length_le (value : Option α) (put : α → Bytes) (member : a ∈ value) :
    (put a).length ≤ (value.elim [] put).length := by
  rw [Option.mem_def.mp member]
  exact Nat.le_refl _

theorem utf8_length_le (text : String) : (utf8 text).length ≤ (putBytes (utf8 text)).length := by
  simp [putBytes]

theorem Reader.chunk_chunkBytes (document : String) (index : Nat) (rest : Bytes)
    (ascending : terms.Pairwise fun a b => utf8 a < utf8 b) (small : terms.length ≤ 2 ^ 64)
    (known : ∀ key ∈ chunk.terms.keys, key ∈ terms) (vector : chunk.vector.ascending = true)
    (fits : (chunkBytes document index chunk (termRanks terms chunk)).length < 2 ^ 64) :
    Reader.chunk document terms index (chunkBytes document index chunk (termRanks terms chunk) ++ rest) =
      .ok (chunk, rest) := by
  obtain ⟨hasId, hasText, stemmed, hasEmbedding, hasPositions, state⟩ :=
    chunkFlags_bits (explicitId document index chunk).isSome chunk.text.isSome chunk.stemmed
      chunk.embedding.isSome chunk.vectorState chunk.terms.positions.isSome
  have flags := chunkFlags_known (explicitId document index chunk).isSome chunk.text.isSome chunk.stemmed
    chunk.embedding.isSome chunk.vectorState chunk.terms.positions.isSome
  have indices := (ascending_iff _).mp vector
  have ranks : (termRanks terms chunk).length = chunk.terms.entries.length := by
    simp [termRanks, StoredTerms.keys]
  have gaps := putGaps_length 0 (chunk.vector.indices.map UInt32.toNat)
  have idGaps := putGaps_length 0 (termRanks terms chunk)
  have frequencies := putNumbers_length (chunk.terms.entries.map Prod.snd)
  rw [length_map] at gaps frequencies
  simp only [chunkBytes, length_cons, length_append] at fits
  simp only [chunkBytes, cons_append, append_assoc]
  rw [Reader.chunk, bind_ok (byte_cons _ _), bind_ok (ensure_ok flags _ _), bind_ok (vectorState_eq _ state _)]
  rw [bind_ok (flagged_elim _ _ _ _ hasId fun id member => str_putBytes id _ (by
    have within := elim_length_le _ (fun id => putBytes (utf8 id)) member
    have inner := utf8_length_le id
    omega))]
  rw [bind_ok (flagged_elim _ _ _ _ hasText fun text member => str_putBytes text _ (by
    have within := elim_length_le _ (fun text => putBytes (utf8 text)) member
    have inner := utf8_length_le text
    omega))]
  rw [bind_ok (number_putVarint _ _ _ chunk.startByte.toNat_lt (by decide)),
    bind_ok (number_putVarint _ _ _ chunk.endByte.toNat_lt (by decide)),
    bind_ok (number_putVarint _ _ _ chunk.wordCount.toNat_lt (by decide)),
    bind_ok (number_putVarint _ _ _ chunk.vector.dim.toNat_lt (by decide))]
  rw [bind_ok (count_putVarint 1 _ _ (by omega) (by
    rw [Nat.max_self, Nat.div_one, length_append]
    omega))]
  have vectorRead := vectorIndices_putGaps chunk.vector.indices none
  simp only [Option.getD_none] at vectorRead
  rw [bind_ok (vectorRead _ indices fun _ absent => nomatch absent)]
  rw [bind_ok (flagged_elim _ _ _ _ hasEmbedding fun values member => embedding_putEmbedding values _ (by
    have within := elim_length_le _ putEmbedding member
    omega))]
  rw [bind_ok (count_putVarint 2 _ _ (by omega) (by
    rw [Nat.le_div_iff_mul_le (by decide), length_append, length_append]
    simp only [Nat.max_eq_left (show 1 ≤ 2 by decide)]
    omega))]
  have idsRead := termIds_putGaps terms.length (termRanks terms chunk) none
  rw [ranks] at idsRead
  simp only [Option.getD_none] at idsRead
  rw [bind_ok (idsRead _ (termRanks_ascending ascending known) (fun _ absent => nomatch absent)
    (termRanks_lt known) small)]
  have frequenciesRead := numbers_putNumbers "term frequency" (chunk.terms.entries.map Prod.snd)
  rw [length_map] at frequenciesRead
  rw [bind_ok (frequenciesRead _)]
  rw [bind_ok (flagged_elim _ _ _ _ hasPositions fun found member => positions_putPositions found _ _
    (by
      have checked := chunk.terms.checked
      rwa [Option.mem_def.mp member] at checked)
    (by
      have within := elim_length_le _ putPositions member
      omega))]
  rw [bind_ok (storedTerms_eq known _), pure_eq, explicitId_getD, stemmed]
  simp only [UInt32.ofNat_toNat, UInt64.ofNat_toNat]

end

/-- The chunks' records as the reader gets them. -/
def chunksBytes (document : String) (terms : List String) : Nat → List StoredChunk → Bytes
  | _, [] => []
  | index, chunk :: rest =>
    chunkBytes document index chunk (termRanks terms chunk) ++ chunksBytes document terms (index + 1) rest

theorem writeChunks_eq (document : String) (terms : List String) (index : Nat) (chunks : List StoredChunk)
    (more : List Nat) :
    writeChunks document index chunks (chunks.flatMap (termRanks terms) ++ more) =
      some (chunksBytes document terms index chunks, more) := by
  induction chunks generalizing index with
  | nil => rfl
  | cons chunk chunks ih =>
    have ranks : (termRanks terms chunk).length = chunk.terms.entries.length := by
      simp [termRanks, StoredTerms.keys]
    have enough : chunk.terms.entries.length ≤
        ((chunk :: chunks).flatMap (termRanks terms) ++ more).length := by
      rw [flatMap_cons, length_append, length_append, ranks]
      omega
    rw [writeChunks]
    simp only [if_pos enough]
    rw [flatMap_cons, append_assoc, ← ranks, drop_left, take_left, ih]
    rfl

theorem Reader.chunks_chunksBytes (document : String) (index : Nat) (stored : List StoredChunk) (rest : Bytes)
    (ascending : terms.Pairwise fun a b => utf8 a < utf8 b) (small : terms.length ≤ 2 ^ 64)
    (known : ∀ chunk ∈ stored, ∀ key ∈ chunk.terms.keys, key ∈ terms)
    (vectors : ∀ chunk ∈ stored, chunk.vector.ascending = true)
    (fits : (chunksBytes document terms index stored).length < 2 ^ 64) :
    chunks document terms stored.length index (chunksBytes document terms index stored ++ rest) =
      .ok (stored, rest) := by
  induction stored generalizing index with
  | nil => rfl
  | cons chunk stored ih =>
    rw [chunksBytes, length_append] at fits
    rw [length_cons, chunks, chunksBytes, append_assoc,
      bind_ok (chunk_chunkBytes document index _ ascending small (known chunk (mem_cons_self ..))
        (vectors chunk (mem_cons_self ..)) (by omega)),
      bind_ok (ih (index + 1) (forall_mem_cons.mp known).2
        (forall_mem_cons.mp vectors).2 (by omega)), pure_eq]

def documentBytes (terms : List String) (document : StoredDocument) : Bytes :=
  documentHeader document ++ chunksBytes document.id terms 0 document.chunks

theorem writeDocument_eq (terms : List String) (document : StoredDocument) (more : List Nat) :
    writeDocument document (document.chunks.flatMap (termRanks terms) ++ more) =
      some (documentBytes terms document, more) := by
  rw [writeDocument, writeChunks_eq]
  rfl

theorem Reader.uri_putUri (uri : Option String) (rest : Bytes) (fits : (putUri uri).length < 2 ^ 64) :
    Reader.uri (putUri uri ++ rest) = .ok (uri, rest) := by
  cases uri with
  | none => rfl
  | some text =>
    have inner := utf8_length_le text
    rw [putUri, length_cons] at fits
    rw [Reader.uri, putUri, cons_append, bind_ok (byte_cons _ _)]
    exact map_some_ok (str_putBytes text rest (by omega))

theorem Reader.document_documentBytes (value : Bytes → Option Json) (stored : StoredDocument) (rest : Bytes)
    (ascending : terms.Pairwise fun a b => utf8 a < utf8 b) (small : terms.length ≤ 2 ^ 64)
    (known : ∀ chunk ∈ stored.chunks, ∀ key ∈ chunk.terms.keys, key ∈ terms) (vectors : representable stored = true)
    (metadata : value stored.metadata.text = some stored.metadata) (fits : (documentBytes terms stored).length < 2 ^ 64)
    (counted : stored.chunks.length < 2 ^ 64) :
    document value terms (documentBytes terms stored ++ rest) =
      if 8 * stored.chunks.length ≤ (chunksBytes stored.id terms 0 stored.chunks).length + rest.length
      then .ok (stored, rest) else .error (.countExceedsRecord stored.chunks.length) := by
  simp only [documentBytes, documentHeader, length_append] at fits
  have idInner := utf8_length_le stored.id
  have versionInner := utf8_length_le stored.version
  have metadataInner : stored.metadata.text.length ≤ (putBytes stored.metadata.text).length := by simp [putBytes]
  simp only [documentBytes, documentHeader, append_assoc]
  rw [document, bind_ok (str_putBytes _ _ (by omega)), bind_ok (uri_putUri _ _ (by omega)),
    bind_ok (str_putBytes _ _ (by omega)), bind_ok (bytes_putBytes _ _ (by omega)), metadata]
  simp only
  by_cases room : 8 * stored.chunks.length ≤ (chunksBytes stored.id terms 0 stored.chunks).length + rest.length
  · rw [if_pos room, bind_ok (count_putVarint 8 _ _ counted (by
      rw [Nat.le_div_iff_mul_le (by decide), length_append]
      simp only [Nat.max_eq_left (show 1 ≤ 8 by decide)]
      omega))]
    rw [bind_ok (chunks_chunksBytes stored.id 0 stored.chunks rest ascending small known
      (all_eq_true.mp vectors) (by omega)), pure_eq]
  · rw [if_neg room, bind_error (count_putVarint_error 8 _ _ counted (by
      rw [Nat.div_lt_iff_lt_mul (by decide), length_append]
      simp only [Nat.max_eq_left (show 1 ≤ 8 by decide)]
      omega))]

end Warm.Binary
