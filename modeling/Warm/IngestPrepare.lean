import Warm.Checked
import Warm.EngineIndex
import Warm.Ingest

/-! What a prepared document of a text-encoder store is: its chunks all have their vector, all await it or all
do without, and what awaits its vector is, with the vectors filled in, what eager ingest prepares. -/
namespace Warm.Ingest

open Binary Engine

@[simp] theorem ensure_eq_ok [Decidable condition] : ensure condition message = .ok () ↔ condition := by
  unfold ensure
  split <;> simp_all

variable {dimensions : Nat} (encoder : Encoder dimensions)

def settledChunk (chunk : StoredChunk) : StoredChunk := encodeChunk chunk (encoder.encodeText (chunk.text.getD ""))

def settled (document : StoredDocument) : StoredDocument :=
  { document with chunks := document.chunks.map (settledChunk encoder) }

/-- What preparation promises of a document. -/
structure Ready (document : StoredDocument) : Prop where
  named : Named document
  version : document.version ≠ "" ∧ document.version.utf8ByteSize ≤ 1024
  encoded : ∀ chunk ∈ document.chunks, chunk.vectorState = .encoded → ∀ text, chunk.text = some text →
    chunk.vector = encoder.encodeText text
  pending : ∀ chunk ∈ document.chunks, chunk.vectorState = .pending →
    ∀ other ∈ document.chunks, other.vectorState = .pending ∧ other.text.isSome = true ∧ other.vector = noVector dimensions

variable {encoder} {analysis : Analysis} {input : DocumentInput} {space : Option Nat} {options : IngestOptions}

def chunkVector (encoder : Encoder dimensions) (source : String) : EncodeMode → VectorRecord × VectorState
  | .eager => (encoder.encodeText source, .encoded)
  | .deferred => (noVector dimensions, .pending)
  | .lexical => (noVector dimensions, .lexical)

theorem encodeText_ok (text : analysis.isEmbedding = false)
    (done : encodeText encoder analysis mode source embedding = .ok result) :
    result = chunkVector encoder source mode := by
  unfold encodeText at done
  rw [text] at done
  cases mode <;> exact (Except.ok.inj done).symm

/-- The chunk that is prepared in a mode: the mode decides its vector and state only. -/
structure Prepared (encoder : Encoder dimensions) (input : DocumentInput) (mode : EncodeMode) (i : Nat) (chunk : StoredChunk) :
    Prop where
  id : chunk.id = chunkId input.id i
  text : chunk.text.isSome = input.storeText.getD true
  vector : ∃ source, (∀ text, chunk.text = some text → text = source) ∧
    (chunk.vector, chunk.vectorState) = chunkVector encoder source mode

theorem prepareChunk_ok (text : analysis.isEmbedding = false)
    (done : prepareChunk encoder analysis input space keys options titleWeight span i = .ok chunk) :
    Prepared encoder input options.encode i chunk := by
  obtain ⟨_, _, done⟩ := bind_eq_ok.mp done
  obtain ⟨embedding, _, done⟩ := bind_eq_ok.mp done
  obtain ⟨⟨vector, state⟩, encoded, done⟩ := bind_eq_ok.mp done
  obtain rfl := Except.ok.inj done
  refine ⟨rfl, ?_, slice input.text span.1 span.2, ?_, encodeText_ok text encoded⟩
  · dsimp only
    split <;> simp_all
  · intro text kept
    split at kept
    · exact (Option.some.inj kept).symm
    · cases kept

theorem prepareChunk_eager (text : analysis.isEmbedding = false) (kept : input.storeText.getD true = true)
    (mode : options.encode = .deferred)
    (done : prepareChunk encoder analysis input space keys options titleWeight span i = .ok chunk) :
    prepareChunk encoder analysis input space keys options.eager titleWeight span i = .ok (settledChunk encoder chunk) := by
  obtain ⟨_, lone, done⟩ := bind_eq_ok.mp done
  obtain ⟨embedding, normalized, done⟩ := bind_eq_ok.mp done
  obtain ⟨⟨vector, state⟩, encoded, done⟩ := bind_eq_ok.mp done
  obtain rfl := Except.ok.inj done
  have awaiting := encodeText_ok text encoded
  rw [mode] at awaiting
  obtain ⟨rfl, rfl⟩ := Prod.mk.inj awaiting
  refine bind_eq_ok.mpr ⟨(), lone, bind_eq_ok.mpr ⟨embedding, normalized, bind_eq_ok.mpr
    ⟨(encoder.encodeText (slice input.text span.1 span.2), .encoded), ?_, ?_⟩⟩⟩
  · simp only [encodeText, IngestOptions.eager, mode, if_true, text]
  · rw [settledChunk, encodeChunk, if_pos rfl]
    rw [if_pos kept]
    rfl

theorem prepareWithOptions_ok (done : prepareWithOptions encoder analysis input space none options = .ok document) :
    checkMode analysis input options.encode = .ok () ∧ ∃ spans, chunkSpansWith input options = .ok spans ∧
      ∃ titleWeight, List.Forall₂ (fun entry chunk => prepareChunk encoder analysis input space none options titleWeight
          entry.1 entry.2 = .ok chunk) spans.zipIdx document.chunks ∧
        document.id = input.id ∧ document.version ≠ "" ∧ document.version.utf8ByteSize ≤ 1024 := by
  obtain ⟨_, mode, done⟩ := bind_eq_ok.mp done
  obtain ⟨spans, cut, done⟩ := bind_eq_ok.mp done
  iterate 5 obtain ⟨_, _, done⟩ := bind_eq_ok.mp done
  obtain ⟨_, versioned, done⟩ := bind_eq_ok.mp done
  iterate 3 obtain ⟨_, _, done⟩ := bind_eq_ok.mp done
  obtain ⟨stored, chunks, done⟩ := bind_eq_ok.mp done
  obtain rfl := Except.ok.inj done
  refine ⟨mode, spans, cut, _, mapM_eq_ok.mp chunks, rfl, ?_⟩
  have versioned := ensure_eq_ok.mp versioned
  cases given : input.version with
  | none =>
    refine ⟨by simp, ?_⟩
    change ("1" : String).utf8ByteSize ≤ 1024
    decide
  | some version => simpa [given] using versioned

theorem prepared_chunks (text : analysis.isEmbedding = false) {spans : List (UInt32 × UInt32)}
    {chunks : List StoredChunk}
    (each : List.Forall₂ (fun entry chunk => prepareChunk encoder analysis input space none options titleWeight entry.1 entry.2 = .ok chunk) spans.zipIdx chunks)
    (i : Nat) (chunk : StoredChunk) (found : chunks[i]? = some chunk) : Prepared encoder input options.encode i chunk := by
  obtain ⟨inside, rfl⟩ := List.getElem?_eq_some_iff.mp found
  have own := List.Forall₂.get each (by rw [each.length_eq]; exact inside) inside
  have prepared := prepareChunk_ok text own
  simpa using prepared

theorem ready_prepared (text : analysis.isEmbedding = false) {document : StoredDocument}
    (done : prepareWithOptions encoder analysis input space none options = .ok document) : Ready encoder document := by
  obtain ⟨mode, spans, _, _, each, own, version⟩ := prepareWithOptions_ok done
  have prepared := prepared_chunks text each
  have any (chunk : StoredChunk) (member : chunk ∈ document.chunks) : ∃ i, Prepared encoder input options.encode i chunk := by
    obtain ⟨i, inside, rfl⟩ := List.mem_iff_getElem.mp member
    exact ⟨i, prepared i _ (List.getElem?_eq_getElem inside)⟩
  refine ⟨?_, version, ?_, ?_⟩
  · intro i chunk found
    rw [own]
    exact (prepared i chunk found).id
  · intro chunk member encoded source kept
    obtain ⟨i, given⟩ := any chunk member
    obtain ⟨source', same, vector⟩ := given.vector
    rw [same source kept]
    cases asked : options.encode <;> rw [asked] at vector <;> obtain ⟨own, state⟩ := Prod.mk.inj vector
    · exact own
    · rw [encoded] at state
      cases state
    · rw [encoded] at state
      cases state
  · intro chunk member awaits other member'
    obtain ⟨i, given⟩ := any chunk member
    obtain ⟨source, _, vector⟩ := given.vector
    obtain ⟨j, given'⟩ := any other member'
    obtain ⟨source', _, vector'⟩ := given'.vector
    cases asked : options.encode <;> rw [asked] at vector vector' <;> obtain ⟨_, state⟩ := Prod.mk.inj vector <;>
      obtain ⟨own, state'⟩ := Prod.mk.inj vector'
    · rw [awaits] at state
      cases state
    · obtain ⟨_, _, kept⟩ := bind_eq_ok.mp mode
      have kept := (ensure_eq_ok.mp kept).resolve_left (fun apart => apart asked)
      exact ⟨state', given'.text.trans kept, own⟩
    · rw [awaits] at state
      cases state

theorem settledChunk_of_not_pending (other : chunk.vectorState ≠ .pending) :
    settledChunk encoder chunk = chunk := if_neg other

theorem settled_of_not_pending (none : ∀ chunk ∈ document.chunks, chunk.vectorState ≠ .pending) :
    settled encoder document = document := by
  have same : document.chunks.map (settledChunk encoder) = document.chunks := by
    conv_rhs => rw [← List.map_id document.chunks]
    exact List.map_congr_left fun chunk member => settledChunk_of_not_pending (none chunk member)
  rw [settled, same]

theorem prepareWithOptions_eager (text : analysis.isEmbedding = false) {document : StoredDocument}
    (done : prepareWithOptions encoder analysis input space none options = .ok document) :
    prepareWithOptions encoder analysis input space none options.eager = .ok (settled encoder document) := by
  by_cases deferred : options.encode = .deferred
  · obtain ⟨_, mode, done⟩ := bind_eq_ok.mp done
    obtain ⟨spans, cut, done⟩ := bind_eq_ok.mp done
    obtain ⟨_, _, done⟩ := bind_eq_ok.mp done
    obtain ⟨_, keyed, done⟩ := bind_eq_ok.mp done
    obtain ⟨_, object, done⟩ := bind_eq_ok.mp done
    obtain ⟨_, metadata, done⟩ := bind_eq_ok.mp done
    obtain ⟨_, uri, done⟩ := bind_eq_ok.mp done
    obtain ⟨_, version, done⟩ := bind_eq_ok.mp done
    obtain ⟨_, embeddings, done⟩ := bind_eq_ok.mp done
    obtain ⟨_, values, done⟩ := bind_eq_ok.mp done
    obtain ⟨_, weight, done⟩ := bind_eq_ok.mp done
    obtain ⟨stored, chunks, done⟩ := bind_eq_ok.mp done
    obtain rfl := Except.ok.inj done
    obtain ⟨_, _, kept⟩ := bind_eq_ok.mp mode
    have kept := (ensure_eq_ok.mp kept).resolve_left fun apart => apart deferred
    have eagerMode : checkMode analysis input options.eager.encode = .ok () := by
      simp [checkMode, IngestOptions.eager, deferred, ensure, bind, Except.bind]
    -- A whole document needs lexical encoding, so this one is cut into words in either mode.
    have eagerCut : chunkSpansWith input options.eager = .ok spans := by
      by_cases whole : options.wholeDocument
      · rw [chunkSpansWith, if_pos whole] at cut
        obtain ⟨_, lexical, _⟩ := bind_eq_ok.mp cut
        rw [(ensure_eq_ok.mp lexical).1] at deferred
        cases deferred
      · rw [chunkSpansWith, if_neg whole] at cut
        exact (if_neg whole).trans cut
    have eagerChunks := mapM_eq_ok.mpr ((List.forall₂_map_right_iff (f := settledChunk encoder)).mpr
      ((mapM_eq_ok.mp chunks).imp fun _ _ own => prepareChunk_eager text kept deferred own))
    refine bind_eq_ok.mpr ⟨(), eagerMode, bind_eq_ok.mpr ⟨spans, eagerCut, bind_eq_ok.mpr ⟨(), eagerMode, bind_eq_ok.mpr
      ⟨(), keyed, bind_eq_ok.mpr ⟨(), object, bind_eq_ok.mpr ⟨(), metadata, bind_eq_ok.mpr ⟨(), uri, bind_eq_ok.mpr
      ⟨(), version, bind_eq_ok.mpr ⟨(), embeddings, bind_eq_ok.mpr ⟨(), values, bind_eq_ok.mpr ⟨(), weight,
      bind_eq_ok.mpr ⟨stored.map (settledChunk encoder), eagerChunks, rfl⟩⟩⟩⟩⟩⟩⟩⟩⟩⟩⟩⟩
  · have same : options.eager = options := by
      rw [IngestOptions.eager, if_neg deferred]
    rw [same, done]
    congr 1
    obtain ⟨_, spans, _, _, each, _, _⟩ := prepareWithOptions_ok done
    refine (settled_of_not_pending fun chunk member => ?_).symm
    obtain ⟨i, inside, rfl⟩ := List.mem_iff_getElem.mp member
    obtain ⟨source, _, vector⟩ := (prepared_chunks text each i _ (List.getElem?_eq_getElem inside)).vector
    obtain ⟨_, state⟩ := Prod.mk.inj (vector.trans (by rfl : _ = (_, _)))
    rw [state]
    cases asked : options.encode with
    | deferred => exact absurd asked deferred
    | eager => simp
    | lexical => simp

end Warm.Ingest
