import Warm.JournalCodec

/-! When a committed transaction reads back. The decoder bounds a document's number of chunks by
eight bytes each, but a chunk without id, text, embedding, indices, terms and positions takes
seven; and it bounds the dictionary by the bytes of its terms in full, which the writer's shared
prefixes can undercut. -/
namespace Warm.Binary

open List

open Journal (maxRawFrameSize)

/-- The bytes of a varint: one for every seven bits. -/
def varintSize (value : Nat) : Nat := 1 + ((List.range 9).filter fun k => decide (128 ^ (k + 1) ≤ value)).length

def bytesSize (length : Nat) : Nat := varintSize length + length

def gapsSize (previous : Nat) : List Nat → Nat
  | [] => 0
  | value :: rest => varintSize (value - previous) + gapsSize value rest

def numbersSize (values : List UInt32) : Nat := (values.map fun value => varintSize value.toNat).sum

def positionsSize (positions : Positions) : Nat :=
  1 + varintSize positions.offsets.length + numbersSize positions.offsets + bytesSize positions.data.length

/-- The bytes a chunk takes: its flags, its id, text, embedding and positions where it has them, six
numbers, its indices and its terms. -/
def chunkSize (document : String) (terms : List String) (index : Nat) (chunk : StoredChunk) : Nat :=
  1 + ((explicitId document index chunk).elim 0 fun id => bytesSize id.utf8ByteSize) +
    (chunk.text.elim 0 fun text => bytesSize text.utf8ByteSize) + varintSize chunk.startByte.toNat +
    varintSize chunk.endByte.toNat + varintSize chunk.wordCount.toNat + varintSize chunk.vector.dim.toNat +
    varintSize chunk.vector.indices.length + gapsSize 0 (chunk.vector.indices.map UInt32.toNat) +
    (chunk.embedding.elim 0 fun values => varintSize values.length + 4 * values.length) +
    varintSize chunk.terms.entries.length + gapsSize 0 (termRanks terms chunk) +
    numbersSize (chunk.terms.entries.map Prod.snd) + chunk.terms.positions.elim 0 positionsSize

def chunksSize (document : String) (terms : List String) : Nat → List StoredChunk → Nat
  | _, [] => 0
  | index, chunk :: rest => chunkSize document terms index chunk + chunksSize document terms (index + 1) rest

def documentSize (terms : List String) (document : StoredDocument) : Nat :=
  bytesSize document.id.utf8ByteSize + (1 + document.sourceUri.elim 0 fun uri => bytesSize uri.utf8ByteSize) +
    bytesSize document.version.utf8ByteSize + bytesSize document.metadata.text.length +
    varintSize document.chunks.length + chunksSize document.id terms 0 document.chunks

def recordSize (serde : Serde) (terms : List String) : Mutation → Nat
  | .document document =>
    if representable document then 1 + documentSize terms document
    else 1 + bytesSize (serde.toVec (.document document)).length
  | .deleteDocument id => 1 + bytesSize id.utf8ByteSize
  | mutation => 1 + bytesSize (serde.toVec mutation).length

def recordsSize (serde : Serde) (terms : List String) (mutations : List Mutation) : Nat :=
  (mutations.map (recordSize serde terms)).sum

theorem putVarintFrom_length (more value : Nat) :
    (putVarintFrom more value).length =
      1 + ((List.range more).filter fun k => decide (128 ^ (k + 1) ≤ value)).length := by
  induction more generalizing value with
  | zero => rfl
  | succ more ih =>
    have shifted : ((List.range more).map Nat.succ).filter (fun k => decide (128 ^ (k + 1) ≤ value)) =
        ((List.range more).filter fun k => decide (128 ^ (k + 1) ≤ value / 128)).map Nat.succ := by
      rw [filter_map]
      congr 2
      funext k
      simp only [Function.comp_apply, decide_eq_decide, Nat.le_div_iff_mul_le (show 0 < 128 by decide)]
      rw [Nat.pow_succ 128 (k + 1)]
    rw [putVarintFrom, range_succ_eq_map, filter_cons, shifted]
    by_cases small : value < 0x80
    · have none : ((List.range more).filter fun k => decide (128 ^ (k + 1) ≤ value / 128)) = [] := by
        rw [filter_eq_nil_iff]
        intro k _
        rw [Nat.div_eq_of_lt small]
        simp
      rw [if_pos small, none, if_neg (by simpa using small)]
      rfl
    · rw [if_neg small, if_pos (by simpa using small), length_cons, ih, length_cons, length_map]
      omega

theorem putVarint_length (value : Nat) : (putVarint value).length = varintSize value := putVarintFrom_length 9 value

theorem putBytes_length (data : Bytes) : (putBytes data).length = bytesSize data.length := by
  rw [putBytes, length_append, putVarint_length, bytesSize]

theorem putGaps_size (previous : Nat) (values : List Nat) :
    (putGaps previous values).length = gapsSize previous values := by
  induction values generalizing previous with
  | nil => rfl
  | cons value values ih => rw [putGaps, length_append, putVarint_length, ih, gapsSize]

theorem putNumbers_size (values : List UInt32) : (putNumbers values).length = numbersSize values := by
  induction values with
  | nil => rfl
  | cons value values ih =>
    rw [putNumbers] at ih
    rw [putNumbers, flatMap_cons, length_append, putVarint_length, ih, numbersSize, numbersSize,
      map_cons, sum_cons]

theorem putEmbedding_size (values : List UInt32) :
    (putEmbedding values).length = varintSize values.length + 4 * values.length := by
  rw [putEmbedding, length_append, putVarint_length, flatMap_ofWord_length]

theorem putPositions_size (positions : Positions) : (putPositions positions).length = positionsSize positions := by
  simp only [putPositions, positionsSize, length_cons, length_append, putVarint_length, putNumbers_size,
    putBytes_length]
  omega

theorem elim_length (value : Option α) (put : α → Bytes) : (value.elim [] put).length =
    value.elim 0 fun a => (put a).length := by
  cases value <;> rfl

theorem chunkBytes_length (document : String) (terms : List String) (index : Nat) (chunk : StoredChunk) :
    (chunkBytes document index chunk (termRanks terms chunk)).length = chunkSize document terms index chunk := by
  simp only [chunkBytes, chunkSize, length_cons, length_append, elim_length, putVarint_length,
    putBytes_length, putGaps_size, putNumbers_size, putEmbedding_size, putPositions_size, utf8_length]
  change _ + 1 = _ + chunk.terms.positions.elim 0 fun positions => positionsSize positions
  omega

theorem chunksBytes_length (document : String) (terms : List String) (index : Nat) (chunks : List StoredChunk) :
    (chunksBytes document terms index chunks).length = chunksSize document terms index chunks := by
  induction chunks generalizing index with
  | nil => rfl
  | cons chunk chunks ih => rw [chunksBytes, length_append, chunkBytes_length, ih, chunksSize]

theorem documentBytes_length (terms : List String) (document : StoredDocument) :
    (documentBytes terms document).length = documentSize terms document := by
  have uri : (putUri document.sourceUri).length =
      1 + document.sourceUri.elim 0 fun uri => bytesSize uri.utf8ByteSize := by
    cases document.sourceUri with
    | none => rfl
    | some uri =>
      simp only [putUri, length_cons, putBytes_length, utf8_length, Option.elim_some]
      omega
  simp only [documentBytes, documentHeader, length_append, putBytes_length, putVarint_length, utf8_length, uri,
    chunksBytes_length, documentSize]
  omega

theorem recordBytes_size (serde : Serde) (terms : List String) (mutation : Mutation) :
    (recordBytes serde terms mutation).length = recordSize serde terms mutation := by
  cases mutation with
  | document document =>
    by_cases carried : representable document = true
    · simp only [recordBytes, documentOf, if_pos carried, recordSize, length_cons, documentBytes_length]
      omega
    · simp only [recordBytes, documentOf, if_neg carried, recordSize, plainRecord, length_cons, putBytes_length]
      omega
  | deleteDocument id =>
    simp only [recordBytes, documentOf, recordSize, plainRecord, length_cons, putBytes_length, utf8_length]
    omega
  | _ =>
    simp only [recordBytes, documentOf, recordSize, plainRecord, length_cons, putBytes_length]
    omega

theorem recordsBytes_size (serde : Serde) (terms : List String) (mutations : List Mutation) :
    (recordsBytes serde terms mutations).length = recordsSize serde terms mutations := by
  induction mutations with
  | nil => rfl
  | cons mutation mutations ih =>
    rw [recordsBytes] at ih
    rw [recordsBytes, flatMap_cons, length_append, recordBytes_size, ih, recordsSize, recordsSize,
      map_cons, sum_cons]

/-- What the decoder needs of a transaction: the distinct terms of its documents are together no
longer than the largest frame, and after the number of chunks of every document come at least eight
bytes for each of them, in its chunks and in the later mutations. -/
structure Decodable (serde : Serde) (mutations : List Mutation) : Prop where
  dictionary : termBytes (documentTerms (mutations.filterMap documentOf)).dedup ≤ maxRawFrameSize
  chunkCounts : ∀ before document after, mutations = before ++ .document document :: after →
    8 * document.chunks.length ≤ chunksSize document.id (frameTerms mutations).sorted 0 document.chunks +
      recordsSize serde (frameTerms mutations).sorted after

theorem chunkCountsFit_iff (serde : Serde) (terms : List String) (mutations : List Mutation) :
    ChunkCountsFit serde terms mutations ↔
      ∀ before document after, mutations = before ++ .document document :: after →
        8 * document.chunks.length ≤ chunksSize document.id terms 0 document.chunks + recordsSize serde terms after := by
  induction mutations with
  | nil =>
    refine ⟨fun _ before document after split => ?_, fun _ => trivial⟩
    simp at split
  | cons mutation mutations ih =>
    rw [ChunkCountsFit, ih]
    constructor
    · rintro ⟨first, rest⟩ before document after split
      cases before with
      | nil =>
        obtain ⟨rfl, rfl⟩ := List.cons.inj split
        have room := first document rfl
        rwa [chunksBytes_length, recordsBytes_size] at room
      | cons head before =>
        obtain ⟨rfl, rfl⟩ := List.cons.inj split
        exact rest before document after rfl
    · intro all
      refine ⟨fun document same => ?_, fun before document after split => ?_⟩
      · rw [chunksBytes_length, recordsBytes_size]
        exact all [] document mutations (by rw [same]; rfl)
      · exact all (mutation :: before) document after (by rw [split]; rfl)

theorem validateTransaction_each (valid : validateTransaction config mutations = .ok ()) (mutation : Mutation)
    (member : mutation ∈ mutations) : validateMutation config mutation = .ok () := by
  rw [validateTransaction, ensure_bind_ok] at valid
  exact (Audit.forM_ok_iff _ mutations).mp valid.2 mutation member

theorem validateMutation_document (valid : validateMutation config (.document document) = .ok ()) :
    representable document = true ∧ document.chunks.length ≤ 4096 := by
  simp only [validateMutation, ensure_bind_ok, Bool.and_eq_true, decide_eq_true_eq] at valid
  obtain ⟨_, ⟨_, counted⟩, chunks⟩ := valid
  refine ⟨all_eq_true.mpr fun chunk member => ?_, counted⟩
  have checked := (Audit.forM_ok_iff _ _).mp chunks chunk member
  rw [validateChunk, ensure_bind_ok] at checked
  have checked := checked.2
  split at checked
  · contradiction
  · simp only [ensure_bind_ok, Bool.and_eq_true, VectorRecord.valid] at checked
    obtain ⟨⟨⟨⟨⟨⟨_, ascending⟩, _⟩, _⟩, _⟩, _⟩, _⟩ := checked
    exact ascending

theorem frameTerms_known (mutations : List Mutation) (document : StoredDocument) (representable : documentOf (.document document) = some document)
    (member : .document document ∈ mutations) (chunk : StoredChunk) (listed : chunk ∈ document.chunks) (key : String)
    (term : key ∈ chunk.terms.keys) : key ∈ (frameTerms mutations).sorted := by
  rw [frameTerms, FrameTerms.mem_sorted]
  exact mem_flatMap.mpr ⟨document, mem_filterMap.mpr ⟨_, member, representable⟩,
    mem_flatMap.mpr ⟨chunk, listed, term⟩⟩

theorem termBytes_sorted (mutations : List Mutation) :
    termBytes (frameTerms mutations).sorted = termBytes (documentTerms (mutations.filterMap documentOf)).dedup :=
  ((FrameTerms.sorted_perm _).map _).sum_eq

def payloadBytes (serde : Serde) (mutations : List Mutation) : Bytes :=
  BINARY_MAGIC ++ (putVarint mutations.length ++ ((frameTerms mutations).write ++
    recordsBytes serde (frameTerms mutations).sorted mutations))

theorem decode_payloadBytes_iff (serde : Serde) (mutations : List Mutation)
    (carried : ∀ mutation ∈ mutations, Carried serde mutation)
    (fits : (payloadBytes serde mutations).length < 2 ^ 64) :
    decode serde (payloadBytes serde mutations) = .ok mutations ↔ Decodable serde mutations := by
  have known (document : StoredDocument) (member : .document document ∈ mutations) :=
    frameTerms_known mutations document
      (by rw [documentOf, if_pos ((carried _ member).document document rfl).1]) member
  have ascending : (frameTerms mutations).sorted.Pairwise fun a b => utf8 a < utf8 b :=
    FrameTerms.sorted_ascending _
  have entries := writeEntries_length [] (frameTerms mutations).sorted
  have records := recordsBytes_length serde (frameTerms mutations).sorted mutations
  have dictionary := Reader.decodedTerms_write (mutations.filterMap documentOf)
    (recordsBytes serde (frameTerms mutations).sorted mutations)
  rw [← frameTerms, termBytes_sorted] at dictionary
  have written : (frameTerms mutations).write.length = (putVarint (frameTerms mutations).sorted.length).length +
      (FrameTerms.writeEntries [] (frameTerms mutations).sorted).length := length_append
  simp only [payloadBytes, length_append] at fits
  have room : mutations.length ≤ ((frameTerms mutations).write ++
      recordsBytes serde (frameTerms mutations).sorted mutations).length / max 2 1 := by
    rw [Nat.le_div_iff_mul_le (by decide), length_append]
    simp only [Nat.max_eq_left (show 1 ≤ 2 by decide)]
    omega
  have body : stripPrefix (payloadBytes serde mutations) BINARY_MAGIC = some _ :=
    (stripPrefix_eq_some _ _ _).mpr rfl
  rw [decode, body]
  simp only
  rw [Reader.body, Reader.bind_ok (Reader.count_putVarint 2 _ _ (by omega) room)]
  obtain ⟨good, bad⟩ := Reader.mutations_recordsBytes mutations carried ascending (by omega) known (by omega)
  have counts := chunkCountsFit_iff serde (frameTerms mutations).sorted mutations
  by_cases all : termBytes (documentTerms (mutations.filterMap documentOf)).dedup ≤ maxRawFrameSize
  · rw [if_pos all] at dictionary
    rw [Reader.bind_ok (dictionary (by omega))]
    by_cases fit : ChunkCountsFit serde (frameTerms mutations).sorted mutations
    · rw [good fit]
      exact ⟨fun _ => ⟨all, counts.mp fit⟩, fun _ => rfl⟩
    · obtain ⟨e, failed⟩ := bad fit
      rw [failed]
      exact ⟨fun ok => (by cases ok), fun decodable => absurd (counts.mpr decodable.chunkCounts) fit⟩
  · rw [if_neg all] at dictionary
    rw [Reader.bind_error (dictionary (by omega))]
    exact ⟨fun ok => (by cases ok), fun decodable => absurd decodable.dictionary all⟩

theorem carried_of_valid (serde : Serde) (config : Config) (mutations : List Mutation)
    (values : ∀ json : Json, serde.value json.text = some json)
    (lossless : ∀ mutation ∈ mutations, carriedAsJson mutation = true →
      serde.fromSlice (serde.toVec mutation) = some mutation)
    (valid : validateTransaction config mutations = .ok ()) (mutation : Mutation) (member : mutation ∈ mutations) :
    Carried serde mutation := by
  refine ⟨lossless mutation member, ?_⟩
  rintro document rfl
  obtain ⟨representable, counted⟩ := validateMutation_document (validateTransaction_each valid _ member)
  exact ⟨representable, by omega, values _⟩

/-- A validated transaction reads back from its binary payload exactly when it is decodable. A
payload is a byte vector, so its length is a machine word. -/
theorem decode_binaryPayload_iff (serde : Serde) (config : Config) (mutations : List Mutation) (payload : Bytes)
    (values : ∀ json : Json, serde.value json.text = some json)
    (lossless : ∀ mutation ∈ mutations, carriedAsJson mutation = true →
      serde.fromSlice (serde.toVec mutation) = some mutation)
    (valid : validateTransaction config mutations = .ok ())
    (written : binaryPayload serde mutations = some payload) (fits : payload.length < 2 ^ 64) :
    decode serde payload = .ok mutations ↔ Decodable serde mutations := by
  rw [binaryPayload_eq] at written
  obtain rfl := Option.some.inj written
  exact decode_payloadBytes_iff serde mutations (carried_of_valid serde config mutations values lossless valid) fits

/-- `serde_json` on the mutations of the examples: the deletion of a vector `v`. -/
def sampleSerde : Serde where
  value text := some ⟨text⟩
  toVec
    | .delete id => utf8 "\x7b\"Delete\":\x7b\"id\":\"" ++ utf8 id ++ utf8 "\"\x7d\x7d"
    | _ => []
  fromSlice data :=
    if data = utf8 "\x7b\"Delete\":\x7b\"id\":\"v\"\x7d\x7d" then some (.delete "v") else none

/-- The lexical record of the text `!!!` without its text: no word, so no term, and 64 dimensions. -/
def bareDocument : StoredDocument where
  id := "a"
  sourceUri := none
  version := "1"
  metadata := ⟨[123, 125]⟩
  chunks := [{
    id := chunkId "a" 0
    text := none
    startByte := 0
    endByte := 3
    vector := ⟨64, []⟩
    embedding := none
    terms := ⟨[], none, no_terms_sorted, no_positions_checked⟩
    wordCount := 0
    stemmed := true
    vectorState := .lexical }]

theorem frameTerms_of_no_terms (mutations : List Mutation)
    (none : documentTerms (mutations.filterMap documentOf) = []) : frameTerms mutations = ⟨[], []⟩ := by
  simp [frameTerms, FrameTerms.new, none]

/-- The decoder refuses the only chunk of a committed document: its record is seven bytes. -/
theorem decode_bareDocument : validateTransaction ⟨64, 6, false, 0⟩ [.document bareDocument] = .ok () ∧
    ∃ payload, binaryPayload sampleSerde [.document bareDocument] = some payload ∧ payload.length < 2 ^ 64 ∧
      decode sampleSerde payload ≠ .ok [.document bareDocument] := by
  have terms := frameTerms_of_no_terms [.document bareDocument] rfl
  have fits : (payloadBytes sampleSerde [.document bareDocument]).length < 2 ^ 64 := by
    rw [payloadBytes, terms]
    decide
  refine ⟨by decide, payloadBytes sampleSerde [.document bareDocument], binaryPayload_eq _ _, fits, ?_⟩
  have carried := carried_of_valid sampleSerde ⟨64, 6, false, 0⟩ [.document bareDocument] (fun _ => rfl)
    (by decide) (by decide)
  intro decoded
  have counts := ((decode_payloadBytes_iff sampleSerde _ carried fits).mp decoded).chunkCounts [] bareDocument [] rfl
  rw [terms] at counts
  exact absurd counts (by decide)

/-- With a later mutation behind it the same document reads back. -/
theorem decode_binaryPayload_iff_followed : ∃ payload,
    binaryPayload sampleSerde [.document bareDocument, .delete "v"] = some payload ∧
      (decode sampleSerde payload = .ok [.document bareDocument, .delete "v"] ↔
        Decodable sampleSerde [.document bareDocument, .delete "v"]) ∧
      Decodable sampleSerde [.document bareDocument, .delete "v"] := by
  have terms := frameTerms_of_no_terms [.document bareDocument, .delete "v"] rfl
  have fits : (payloadBytes sampleSerde [.document bareDocument, .delete "v"]).length < 2 ^ 64 := by
    rw [payloadBytes, terms]
    decide
  refine ⟨payloadBytes sampleSerde _, binaryPayload_eq _ _,
    decode_binaryPayload_iff sampleSerde ⟨64, 6, false, 0⟩ _ _ (fun _ => rfl) (by decide) (by decide)
      (binaryPayload_eq _ _) fits, ?_, ?_⟩
  · decide
  · rw [terms]
    intro before document after split
    match before, split with
    | [], split =>
      obtain ⟨rfl, rfl⟩ : bareDocument = document ∧ [.delete "v"] = after := by simpa using split
      decide
    | [_], split => simp at split
    | _ :: _ :: before, split => simp at split

end Warm.Binary
