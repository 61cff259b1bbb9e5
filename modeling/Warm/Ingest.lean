import Warm.Engine

/-! Preparing a document for the store: the input is cut into chunks of words, each chunk gets its terms and
its vector, computed now, later or never. -/
namespace Warm.Ingest

open Binary Engine

structure DocumentInput where
  id : String
  text : String
  sourceUri : Option String
  version : Option String
  metadata : Option Json
  chunkWords : Option UInt32
  overlapWords : Option UInt32
  storeText : Option Bool
  embeddings : Option (List (List UInt64))
  titleWeight : Option UInt32

inductive EncodeMode where
  | eager
  | deferred
  | lexical
  deriving DecidableEq, Repr

structure IngestOptions where
  encode : EncodeMode
  unstemmed : Bool
  positions : Bool
  wholeDocument : Bool
  deriving DecidableEq, Repr

/-- The options with deferred encoding done at ingest. -/
def IngestOptions.eager (options : IngestOptions) : IngestOptions :=
  { options with encode := if options.encode = .deferred then .eager else options.encode }

/-- A store's text encoder beyond `encodeText`, the analysis of a chunk (`analyze_chunk`, a function of its
arguments: the interner is a cache) and `normalize_embedding` followed by `Embedding::from_f64`. -/
structure Analysis where
  name : String
  isEmbedding : Bool
  fromDense : List UInt32 → VectorRecord
  analyzeChunk : String → UInt32 → Bool → Option Bool → StoredTerms × UInt64
  normalizeEmbedding : List UInt64 → Nat → Except String (List UInt32)

def ensure (condition : Prop) [Decidable condition] (message : String) : Except String Unit :=
  if condition then .ok () else .error message

/-! ### Chunks -/

/-- `char::is_whitespace`, the Unicode property `White_Space`. -/
def isWhitespace (c : Char) : Bool :=
  let n := c.toNat
  (9 ≤ n && n ≤ 13) || n == 0x20 || n == 0x85 || n == 0xA0 || n == 0x1680 || (0x2000 ≤ n && n ≤ 0x200A) ||
    n == 0x2028 || n == 0x2029 || n == 0x202F || n == 0x205F || n == 0x3000

/-- The byte spans of the words of `chars`, the first of which is at byte `i`; a word may have started before it.
On ASCII text the loop over bytes finds the same ones. -/
def wordSpans (start : Option Nat) (i : Nat) : List Char → List (Nat × Nat)
  | [] => (start.map fun s => (s, i)).toList
  | c :: chars =>
    if isWhitespace c then (start.map fun s => (s, i)).toList ++ wordSpans none (i + c.utf8Size) chars
    else wordSpans (some (start.getD i)) (i + c.utf8Size) chars

def validateDocumentSource (input : DocumentInput) : Except String Unit := do
  ensure (input.id ≠ "" ∧ input.id.utf8ByteSize ≤ 4096 ∧ Char.ofNat 0 ∉ input.id.toList)
    "document id must contain 1..=4096 bytes"
  ensure (input.text.utf8ByteSize ≤ MAX_DOCUMENT_BYTES) "document exceeds 8 MiB"

/-- The loop over the words from `word` on, with `cut` chunks before it. -/
def cutChunks (words : List (Nat × Nat)) (size overlap : Nat) (advances : overlap < size) (cut word : Nat) :
    Except String (List (UInt32 × UInt32)) :=
  if _ : word < words.length then do
    ensure (cut < 4096) "document exceeds 4096 chunks; increase chunkWords"
    let endWord := min (word + size) words.length
    let startByte := (words.getD word (0, 0)).1
    let endByte := (words.getD (endWord - 1) (0, 0)).2
    ensure (endByte - startByte ≤ MAX_CHUNK_BYTES) "chunk exceeds 64 KiB; reduce chunkWords or split long tokens"
    let span := (UInt32.ofNat startByte, UInt32.ofNat endByte)
    if endWord = words.length then .ok [span]
    else do
      let rest ← cutChunks words size overlap advances (cut + 1) (word + (size - overlap))
      .ok (span :: rest)
  else .ok []
termination_by words.length - word
decreasing_by omega

def chunkSpans (input : DocumentInput) : Except String (List (UInt32 × UInt32)) := do
  validateDocumentSource input
  let size := (input.chunkWords.map UInt32.toNat).getD 256
  let overlap := (input.overlapWords.map UInt32.toNat).getD (min 32 (size - 1))
  if bounds : (1 ≤ size ∧ size ≤ 4096) ∧ overlap < size then do
    let words := wordSpans none 0 input.text.toList
    ensure (words ≠ []) "document must contain text"
    cutChunks words size overlap bounds.2 0 0
  else .error "chunkWords must be 1..=4096 and overlapWords smaller than chunkWords"

def chunkSpansWith (input : DocumentInput) (options : IngestOptions) : Except String (List (UInt32 × UInt32)) :=
  if options.wholeDocument then do
    ensure (options.encode = .lexical ∧ options.positions)
      "whole-document ingest requires lexical encoding and positions"
    validateDocumentSource input
    ensure (input.text.toList.any fun c => !isWhitespace c) "document must contain text"
    .ok [(0, UInt32.ofNat input.text.utf8ByteSize)]
  else chunkSpans input

/-- The characters of `chars` that lie from byte `start` to byte `stop`. -/
def sliceChars : List Char → Nat → Nat → List Char
  | [], _, _ => []
  | c :: chars, start, stop =>
    if start = 0 then
      if stop = 0 then [] else c :: sliceChars chars 0 (stop - c.utf8Size)
    else sliceChars chars (start - c.utf8Size) (stop - c.utf8Size)

/-- `&text[start..stop]`, at character boundaries. -/
def slice (text : String) (start stop : UInt32) : String :=
  String.ofList (sliceChars text.toList start.toNat stop.toNat)

/-! ### Preparation -/

section Prepare

variable {dimensions : Nat} (encoder : Encoder dimensions) (analysis : Analysis)

def checkMode (input : DocumentInput) (mode : EncodeMode) : Except String Unit := do
  ensure (mode ≠ .deferred ∨ analysis.isEmbedding = false)
    ("deferred encoding applies to text encoders; " ++ analysis.name ++ " vectors come from embeddings")
  ensure (mode ≠ .deferred ∨ input.storeText.getD true)
    "deferred encoding needs the chunk text; set storeText or encode eagerly"

/-- `EntangledHVec::from_indices(Vec::new(), dimensions)`. -/
def noVector (dimensions : Nat) : VectorRecord := ⟨UInt64.ofNat dimensions, []⟩

def encodeText (mode : EncodeMode) (text : String) (embedding : Option (List UInt32)) :
    Except String (VectorRecord × VectorState) :=
  match mode, analysis.isEmbedding, embedding with
  | .lexical, _, _ => .ok (noVector dimensions, .lexical)
  | .deferred, _, _ => .ok (noVector dimensions, .pending)
  | .eager, false, _ => .ok (encoder.encodeText text, .encoded)
  | .eager, true, some e => .ok (analysis.fromDense e, .encoded)
  | .eager, true, none =>
    .error ("the " ++ analysis.name ++
      " text encoder needs a dense embedding for every chunk; install a text embedder")

def prepareChunk (input : DocumentInput) (embeddingDimensions : Option Nat) (keys : Option (List String))
    (options : IngestOptions) (titleWeight : UInt32) (span : UInt32 × UInt32) (i : Nat) : Except String StoredChunk := do
  let text := slice input.text span.1 span.2
  let source := (keys.map fun keys => keys.getD i "").getD text
  ensure (options.positions = false ∨ keys = none) "positions require the original chunk text as the lexical key"
  let analyzed := analysis.analyzeChunk source (if i = 0 then titleWeight else 1) (!options.unstemmed)
    (if options.positions then some options.wholeDocument else none)
  let embedding ← input.embeddings.mapM fun all => analysis.normalizeEmbedding (all.getD i []) (embeddingDimensions.getD 0)
  let (vector, vectorState) ← encodeText encoder analysis options.encode text embedding
  .ok {
    id := chunkId input.id i
    text := if input.storeText.getD true then some text else none
    startByte := span.1
    endByte := span.2
    vector
    embedding
    terms := analyzed.1
    wordCount := analyzed.2
    stemmed := !options.unstemmed
    vectorState }

/-- A `serde_json` object, by its first byte. -/
def isObject (value : Json) : Bool := value.text.head? == some 123

/-- The length of `Option<Value>` as JSON. -/
def serializedSize (metadata : Option Json) : Nat := (metadata.map fun value => value.text.length).getD 4

def prepareSpans (input : DocumentInput) (chunks : List (UInt32 × UInt32)) (embeddingDimensions : Option Nat)
    (keys : Option (List String)) (options : IngestOptions) : Except String StoredDocument := do
  checkMode analysis input options.encode
  ensure (keys.all fun keys => decide (keys.length = chunks.length)) "provide one key per chunk"
  ensure (input.metadata.all isObject) "metadata must be a JSON object"
  ensure (serializedSize input.metadata ≤ 64 * 1024) "metadata exceeds 64 KiB"
  ensure (input.sourceUri.all fun uri => decide (uri.utf8ByteSize ≤ 8192)) "sourceUri exceeds 8192 bytes"
  ensure (input.version.all fun version => decide (version ≠ "" ∧ version.utf8ByteSize ≤ 1024))
    "version requires 1..=1024 bytes"
  ensure (input.embeddings.all fun embeddings => embeddingDimensions.isSome && decide (embeddings.length = chunks.length))
    "provide one embedding per chunk and configure the store embedding space"
  ensure (input.embeddings.all fun embeddings => decide ((embeddings.map List.length).sum ≤ 1048576))
    "document exceeds 1048576 embedding values; split the document"
  let titleWeight := input.titleWeight.getD 1
  ensure (1 ≤ titleWeight ∧ titleWeight ≤ 16) "titleWeight must be between 1 and 16"
  let stored ← chunks.zipIdx.mapM fun entry =>
    prepareChunk encoder analysis input embeddingDimensions keys options titleWeight entry.1 entry.2
  .ok {
    id := input.id
    sourceUri := input.sourceUri
    version := input.version.getD "1"
    metadata := input.metadata.getD ⟨utf8 "\x7b\x7d"⟩
    chunks := stored }

def prepareWithOptions (input : DocumentInput) (embeddingDimensions : Option Nat) (keys : Option (List String))
    (options : IngestOptions) : Except String StoredDocument := do
  checkMode analysis input options.encode
  let spans ← chunkSpansWith input options
  prepareSpans encoder analysis input spans embeddingDimensions keys options

end Prepare

end Warm.Ingest
