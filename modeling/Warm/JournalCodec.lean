import Warm.DocumentCodec
import Warm.AuditQueue

/-! The binary payload of a transaction: the number of mutations, the frame's dictionary, then a
record for each mutation. Documents and document deletes have a binary record, every other
mutation is its JSON. -/
namespace Warm.Binary

open List

/-- `serde_json` on metadata values and on mutations. -/
structure Serde where
  value : Bytes → Option Json
  toVec : Mutation → Bytes
  fromSlice : Bytes → Option Mutation

/-- `HMS-TXN-3` and a null byte. -/
def BINARY_MAGIC : Bytes := [72, 77, 83, 45, 84, 88, 78, 45, 51, 0]

def TAG_JSON : UInt8 := 0
def TAG_DOCUMENT : UInt8 := 1
def TAG_DELETE_DOCUMENT : UInt8 := 2

def documentOf : Mutation → Option StoredDocument
  | .document document => if representable document then some document else none
  | _ => none

variable (serde : Serde)

def carriedAsJson : Mutation → Bool
  | .deleteDocument _ => false
  | mutation => (documentOf mutation).isNone

def plainRecord : Mutation → Bytes
  | .deleteDocument id => TAG_DELETE_DOCUMENT :: putBytes (utf8 id)
  | mutation => TAG_JSON :: putBytes (serde.toVec mutation)

/-- One record, and the dictionary ids left on the cursor. -/
def writeMutation (mutation : Mutation) (ids : List Nat) : Option (Bytes × List Nat) :=
  match documentOf mutation with
  | some document => do
    let (bytes, left) ← writeDocument document ids
    some (TAG_DOCUMENT :: bytes, left)
  | none => some (plainRecord serde mutation, ids)

def writeMutations : List Mutation → List Nat → Option (Bytes × List Nat)
  | [], ids => some ([], ids)
  | mutation :: rest, ids => do
    let (bytes, left) ← writeMutation serde mutation ids
    let (more, left) ← writeMutations rest left
    some (bytes ++ more, left)

def frameTerms (mutations : List Mutation) : FrameTerms := FrameTerms.new (mutations.filterMap documentOf)

def binaryPayload (mutations : List Mutation) : Option Bytes := do
  let terms := frameTerms mutations
  let (records, _) ← writeMutations serde mutations terms.ids
  some (BINARY_MAGIC ++ (putVarint mutations.length ++ (terms.write ++ records)))

namespace Reader

def mutation (terms : List String) : Reader Mutation := do
  let tag ← byte
  if tag = TAG_JSON then do
    let data ← bytes
    match serde.fromSlice data with
    | some mutation => pure mutation
    | none => throw .json
  else if tag = TAG_DOCUMENT then .document <$> document serde.value terms
  else if tag = TAG_DELETE_DOCUMENT then .deleteDocument <$> str
  else throw (.mutationTag tag)

/-- `next_mutation` until none remain, when the payload must be used up. -/
def mutations (terms : List String) : Nat → Reader (List Mutation)
  | 0 => do
    let data ← get
    ensure (data = []) .trailingBytes
    pure []
  | remaining + 1 => do
    let first ← mutation serde terms
    let rest ← mutations terms remaining
    pure (first :: rest)

def body : Reader (List Mutation) := do
  let remaining ← count 2
  let terms ← decodedTerms
  mutations serde terms remaining

end Reader

def decode (payload : Bytes) : Except DecodeError (List Mutation) :=
  match stripPrefix payload BINARY_MAGIC with
  | none => .error .magic
  | some body => (Reader.body serde body).map Prod.fst

/-- A mutation's record as the reader gets it. -/
def recordBytes (terms : List String) (mutation : Mutation) : Bytes :=
  match documentOf mutation with
  | some document => TAG_DOCUMENT :: documentBytes terms document
  | none => plainRecord serde mutation

def recordsBytes (terms : List String) (mutations : List Mutation) : Bytes :=
  mutations.flatMap (recordBytes serde terms)

/-- The dictionary ids of the mutations' documents, in the order they are written. -/
def mutationRanks (terms : List String) (mutations : List Mutation) : List Nat :=
  (mutations.filterMap documentOf).flatMap fun document => document.chunks.flatMap (termRanks terms)

theorem frameTerms_ids (mutations : List Mutation) :
    (frameTerms mutations).ids = mutationRanks (frameTerms mutations).sorted mutations := by
  simp only [frameTerms, FrameTerms.new, documentTerms, mutationRanks, map_flatMap]
  rfl

theorem writeMutations_eq (terms : List String) (mutations : List Mutation) (more : List Nat) :
    writeMutations serde mutations (mutationRanks terms mutations ++ more) =
      some (recordsBytes serde terms mutations, more) := by
  induction mutations with
  | nil => rfl
  | cons mutation mutations ih =>
    have first : writeMutation serde mutation (mutationRanks terms (mutation :: mutations) ++ more) =
        some (recordBytes serde terms mutation, mutationRanks terms mutations ++ more) := by
      cases found : documentOf mutation with
      | some document =>
        have ranks : mutationRanks terms (mutation :: mutations) ++ more =
            document.chunks.flatMap (termRanks terms) ++ (mutationRanks terms mutations ++ more) := by
          rw [mutationRanks, filterMap_cons, found, flatMap_cons, append_assoc]
          rfl
        simp only [writeMutation, recordBytes, found, ranks, writeDocument_eq]
        rfl
      | none =>
        have ranks : mutationRanks terms (mutation :: mutations) = mutationRanks terms mutations := by
          rw [mutationRanks, filterMap_cons, found]
          rfl
        simp only [ranks, writeMutation, recordBytes, found]
    rw [writeMutations, first]
    simp only [Option.bind_eq_bind, Option.bind_some, ih]
    rfl

theorem binaryPayload_eq (mutations : List Mutation) :
    binaryPayload serde mutations = some (BINARY_MAGIC ++ (putVarint mutations.length ++
      ((frameTerms mutations).write ++ recordsBytes serde (frameTerms mutations).sorted mutations))) := by
  have written := writeMutations_eq serde (frameTerms mutations).sorted mutations []
  rw [append_nil, ← frameTerms_ids] at written
  rw [binaryPayload]
  simp only [written]
  rfl

theorem recordBytes_length (terms : List String) (mutation : Mutation) :
    2 ≤ (recordBytes serde terms mutation).length := by
  have lengthByte (data : Bytes) : 0 < (putBytes data).length := by
    have := putVarint_pos data.length
    simp only [putBytes, length_append]
    omega
  cases found : documentOf mutation with
  | some document =>
    have inner := lengthByte (utf8 document.id)
    simp only [recordBytes, found, documentBytes, documentHeader, length_cons, length_append]
    omega
  | none =>
    simp only [recordBytes, found]
    cases mutation with
    | deleteDocument id => exact Nat.succ_le_succ (lengthByte (utf8 id))
    | _ => exact Nat.succ_le_succ (lengthByte _)

theorem recordsBytes_length (terms : List String) (mutations : List Mutation) :
    2 * mutations.length ≤ (recordsBytes serde terms mutations).length := by
  induction mutations with
  | nil => simp
  | cons mutation mutations ih =>
    have first := recordBytes_length serde terms mutation
    simp only [recordsBytes, flatMap_cons, length_append, length_cons] at ih ⊢
    omega

/-- What the round trip needs of a mutation: its JSON reads back, and so does a document's metadata. -/
structure Carried (mutation : Mutation) : Prop where
  json : carriedAsJson mutation = true → serde.fromSlice (serde.toVec mutation) = some mutation
  document : ∀ document, mutation = .document document →
    representable document = true ∧ document.chunks.length < 2 ^ 64 ∧
      serde.value document.metadata.text = some document.metadata

/-- The bytes after a document's number of chunks hold eight for each of them. -/
def ChunkCountFits (terms : List String) (mutation : Mutation) (rest : Nat) : Prop :=
  ∀ document, mutation = .document document →
    8 * document.chunks.length ≤ (chunksBytes document.id terms 0 document.chunks).length + rest

theorem Reader.map_ok {read : Reader α} (ran : read data = .ok (a, rest)) (f : α → β) :
    (f <$> read) data = .ok (f a, rest) := by
  change ((fun p => (f p.1, p.2)) <$> read data) = _
  rw [ran]
  rfl

theorem Reader.map_error {read : Reader α} (failed : read data = .error e) (f : α → β) :
    (f <$> read) data = .error e := by
  change ((fun p => (f p.1, p.2)) <$> read data) = _
  rw [failed]
  rfl

variable {serde}

theorem plainRecord_fits (found : documentOf mutation = none) (fits : (plainRecord serde mutation).length < 2 ^ 64) :
    (∃ id, mutation = .deleteDocument id ∧ plainRecord serde mutation = TAG_DELETE_DOCUMENT :: putBytes (utf8 id) ∧
      (utf8 id).length < 2 ^ 64) ∨
    (carriedAsJson mutation = true ∧ plainRecord serde mutation = TAG_JSON :: putBytes (serde.toVec mutation) ∧
      (serde.toVec mutation).length < 2 ^ 64) := by
  cases mutation with
  | deleteDocument id =>
    simp only [plainRecord, putBytes, length_cons, length_append] at fits
    exact .inl ⟨id, rfl, rfl, by omega⟩
  | _ =>
    simp only [plainRecord, putBytes, length_cons, length_append] at fits
    exact .inr ⟨by simp [carriedAsJson, found], rfl, by omega⟩

theorem Reader.mutation_recordBytes {mutation : Mutation} (carried : Carried serde mutation) (rest : Bytes)
    (ascending : terms.Pairwise fun a b => utf8 a < utf8 b) (small : terms.length ≤ 2 ^ 64)
    (known : ∀ document, mutation = .document document → ∀ chunk ∈ document.chunks, ∀ key ∈ chunk.terms.keys, key ∈ terms)
    (fits : (recordBytes serde terms mutation).length < 2 ^ 64) :
    (ChunkCountFits terms mutation rest.length →
      Reader.mutation serde terms (recordBytes serde terms mutation ++ rest) = .ok (mutation, rest)) ∧
    (¬ChunkCountFits terms mutation rest.length →
      ∃ e, Reader.mutation serde terms (recordBytes serde terms mutation ++ rest) = .error e) := by
  by_cases isDocument : ∃ document, mutation = .document document
  · obtain ⟨document, rfl⟩ := isDocument
    obtain ⟨representable, counted, metadata⟩ := carried.document document rfl
    have found : documentOf (.document document) = some document := by rw [documentOf, if_pos representable]
    have counts : ChunkCountFits terms (.document document) rest.length ↔
        8 * document.chunks.length ≤ (chunksBytes document.id terms 0 document.chunks).length + rest.length :=
      ⟨fun all => all document rfl, fun one other same => by cases same; exact one⟩
    simp only [recordBytes, found, length_cons] at fits
    have read := document_documentBytes serde.value document rest ascending small
      (known document rfl) representable metadata (by omega) counted
    simp only [recordBytes, found, cons_append, Reader.mutation, counts]
    rw [bind_ok (byte_cons _ _), if_neg (by decide), if_pos rfl]
    by_cases room : 8 * document.chunks.length ≤ (chunksBytes document.id terms 0 document.chunks).length + rest.length
    · rw [if_pos room] at read
      exact ⟨fun _ => map_ok read _, fun bad => absurd room bad⟩
    · rw [if_neg room] at read
      exact ⟨fun good => absurd good room, fun _ => ⟨_, map_error read _⟩⟩
  · have found : documentOf mutation = none := by
      cases mutation with
      | document document => exact absurd ⟨document, rfl⟩ isDocument
      | _ => rfl
    have counts : ChunkCountFits terms mutation rest.length := fun document same => absurd ⟨document, same⟩ isDocument
    refine ⟨fun _ => ?_, fun bad => absurd counts bad⟩
    simp only [recordBytes, found] at fits ⊢
    rcases plainRecord_fits found fits with ⟨id, rfl, record, short⟩ | ⟨json, record, short⟩
    · rw [record, cons_append, Reader.mutation, bind_ok (byte_cons _ _), if_neg (by decide),
        if_neg (by decide), if_pos rfl]
      exact map_ok (str_putBytes id rest short) _
    · rw [record, cons_append, Reader.mutation, bind_ok (byte_cons _ _), if_pos rfl,
        bind_ok (bytes_putBytes _ rest short), carried.json json]
      rfl

/-- The number of chunks fits for every document of the mutations. -/
def ChunkCountsFit (serde : Serde) (terms : List String) : List Mutation → Prop
  | [] => True
  | mutation :: rest =>
    ChunkCountFits terms mutation (recordsBytes serde terms rest).length ∧ ChunkCountsFit serde terms rest

theorem Reader.mutations_recordsBytes {terms : List String} (mutations : List Mutation)
    (carried : ∀ mutation ∈ mutations, Carried serde mutation)
    (ascending : terms.Pairwise fun a b => utf8 a < utf8 b) (small : terms.length ≤ 2 ^ 64)
    (known : ∀ document, .document document ∈ mutations → ∀ chunk ∈ document.chunks, ∀ key ∈ chunk.terms.keys, key ∈ terms)
    (fits : (recordsBytes serde terms mutations).length < 2 ^ 64) :
    (ChunkCountsFit serde terms mutations →
      Reader.mutations serde terms mutations.length (recordsBytes serde terms mutations) = .ok (mutations, [])) ∧
    (¬ChunkCountsFit serde terms mutations →
      ∃ e, Reader.mutations serde terms mutations.length (recordsBytes serde terms mutations) = .error e) := by
  induction mutations with
  | nil => exact ⟨fun _ => rfl, fun bad => absurd trivial bad⟩
  | cons mutation mutations ih =>
    have split : recordsBytes serde terms (mutation :: mutations) =
        recordBytes serde terms mutation ++ recordsBytes serde terms mutations := flatMap_cons
    rw [split, length_append] at fits
    obtain ⟨good, bad⟩ := mutation_recordBytes (carried mutation (mem_cons_self ..))
      (recordsBytes serde terms mutations) ascending small
      (fun document same => known document (same ▸ mem_cons_self ..)) (by omega)
    obtain ⟨goodRest, badRest⟩ := ih (forall_mem_cons.mp carried).2
      (fun document member => known document (mem_cons_of_mem _ member)) (by omega)
    rw [split, length_cons, Reader.mutations]
    constructor
    · rintro ⟨first, rest⟩
      rw [bind_ok (good first), bind_ok (goodRest rest), pure_eq]
    · intro unfit
      by_cases first : ChunkCountFits terms mutation (recordsBytes serde terms mutations).length
      · obtain ⟨e, failed⟩ := badRest fun rest => unfit ⟨first, rest⟩
        exact ⟨e, by rw [bind_ok (good first), bind_error failed]⟩
      · obtain ⟨e, failed⟩ := bad first
        exact ⟨e, bind_error failed _⟩

end Warm.Binary
