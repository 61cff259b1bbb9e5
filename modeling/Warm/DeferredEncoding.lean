import Warm.DeferredPass
import Warm.DocumentCommits
import Warm.DocumentMap
import Warm.IngestPrepare

/-! What interleaved passes leave stored. Every document is one that a writer prepared, or that one with its
vectors filled in: a pass installs vectors only on the content they were computed for. -/
namespace Warm.Ingest

open Binary Engine List

variable {dimensions : Nat} {encoder : Encoder dimensions}

/-! ### Settled documents -/

theorem keeps_settled (encoder : Encoder dimensions) : DocumentStore.Keeps (settled encoder) :=
  ⟨fun _ => rfl, fun _ => length_map ..⟩

theorem not_pending_settledChunk (chunk : StoredChunk) : (settledChunk encoder chunk).vectorState ≠ .pending := by
  rw [settledChunk, encodeChunk]
  split
  next => simp
  next other => exact other

theorem isPending_eq_false : isPending document = false ↔ ∀ chunk ∈ document.chunks, chunk.vectorState ≠ .pending := by
  simp [isPending]

theorem isPending_settled (document : StoredDocument) : isPending (settled encoder document) = false := by
  rw [isPending_eq_false]
  intro chunk member
  obtain ⟨old, _, rfl⟩ := mem_map.mp member
  exact not_pending_settledChunk old

theorem settled_settled (document : StoredDocument) : settled encoder (settled encoder document) = settled encoder document :=
  settled_of_not_pending (isPending_eq_false.mp (isPending_settled document))

def vectorsOf (encoder : Encoder dimensions) (document : StoredDocument) : List VectorRecord :=
  document.chunks.map fun chunk => encoder.encodeText (chunk.text.getD "")

theorem encodedDocument_vectorsOf (same : contentOf document = contentOf other) :
    encodedDocument document (vectorsOf encoder other) = settled encoder document := by
  have texts : document.chunks.map StoredChunk.text = other.chunks.map StoredChunk.text := by
    have := congrArg (List.map fun part => part.2.2) (Prod.mk.inj same).2
    rwa [map_map, map_map] at this
  have vectors : vectorsOf encoder other = vectorsOf encoder document := by
    have := congrArg (List.map fun text : Option String => encoder.encodeText (text.getD "")) texts
    rw [map_map, map_map] at this
    exact this.symm
  rw [vectors, encodedDocument, settled, vectorsOf, zipWith_map_right, zipWith_self]
  rfl

/-! ### Stored documents -/

variable {config : Config} {encoder : Encoder config.dimensions} {documents : List StoredDocument}

/-- The document is one of `documents`, which passed validation. -/
def Accepted (config : Config) (documents : List StoredDocument) (document : StoredDocument) : Prop :=
  document ∈ documents ∧ validateMutation config (.document document) = .ok ()

def Stored (encoder : Encoder config.dimensions) (documents : List StoredDocument) (store : DocumentStore) : Prop :=
  ∀ id document, store.get id = some document →
    (∃ accepted, Accepted config documents accepted ∧ (document = accepted ∨ document = settled encoder accepted)) ∨
      ∀ chunk ∈ document.chunks, chunk.vectorState = .lexical

/-- The mutations of writers and passes. -/
def Admissible (encoder : Encoder config.dimensions) (documents : List StoredDocument) : Mutation → Prop
  | .document document => document ∈ documents
  | .deleteDocument _ => True
  | .encodeDocument id version fingerprint vectors => ∃ document ∈ documents, document.id = id ∧
      document.version = version ∧ documentFingerprint document = some fingerprint ∧ vectors = vectorsOf encoder document
  | _ => False

theorem Admissible.change (admissible : Admissible encoder documents mutation) : isDocumentChange mutation = true := by
  cases mutation <;> first | rfl | exact admissible.elim

section

variable (stored : Stored encoder documents store)
include stored

theorem Stored.accepted {id : String} {document : StoredDocument}
    (found : store.get id = some document) (pending : isPending document = true) :
    Accepted config documents document := by
  rcases stored id document found with ⟨accepted, own, rfl | rfl⟩ | lexical
  · exact own
  · rw [isPending_settled] at pending
    cases pending
  · rw [isPending, any_eq_true] at pending
    obtain ⟨chunk, member, awaits⟩ := pending
    rw [lexical chunk member] at awaits
    cases awaits

theorem Stored.encoded (injective : FingerprintInjective documents)
    {id version : String} {fingerprint : UInt64} {vectors : List VectorRecord}
    (admissible : Admissible encoder documents (.encodeDocument id version fingerprint vectors))
    {document : StoredDocument} (found : store.get id = some document)
    (applies : applicable document version fingerprint vectors = true) :
    Accepted config documents document ∧ encodedDocument document vectors = settled encoder document := by
  obtain ⟨source, given, _, _, fingerprinted, rfl⟩ := admissible
  rw [applicable, Bool.and_eq_true, Bool.and_eq_true, Bool.and_eq_true, beq_iff_eq, beq_iff_eq, beq_iff_eq] at applies
  have accepted := stored.accepted found applies.1.2
  exact ⟨accepted, encodedDocument_vectorsOf (injective document accepted.1 source given fingerprint applies.2 fingerprinted)⟩

theorem Stored.write (keyed : DocumentStore.Keyed store.documents)
    (injective : FingerprintInjective documents) (admissible : Admissible encoder documents mutation)
    (valid : validateMutation config mutation = .ok ()) : Stored encoder documents (writeDocuments store mutation) := by
  have insert (document : StoredDocument)
      (origin : ∃ accepted, Accepted config documents accepted ∧ (document = accepted ∨ document = settled encoder accepted)) :
      Stored encoder documents (store.insert document) := by
    intro id other found
    rw [DocumentStore.get_insert store keyed] at found
    split at found
    · obtain rfl := Option.some.inj found
      exact .inl origin
    · exact stored id other found
  cases mutation with
  | document document => exact insert document ⟨document, ⟨admissible, valid⟩, .inl rfl⟩
  | deleteDocument id =>
    intro a document found
    rw [writeDocuments, DocumentStore.get_remove store keyed] at found
    split at found
    · cases found
    · exact stored a document found
  | encodeDocument id version fingerprint vectors =>
    rw [writeDocuments]
    cases found : store.get id with
    | none => exact stored
    | some document =>
      dsimp only
      split
      next applies =>
        obtain ⟨accepted, settles⟩ := stored.encoded injective admissible found applies
        exact insert _ ⟨document, accepted, .inr settles⟩
      next => exact stored
  | _ => exact admissible.elim

theorem Stored.hydrate (keyed : DocumentStore.Keyed store.documents)
    (atop : store.base = some base) : Stored encoder documents (store.hydrate base) := by
  intro id document found
  rw [DocumentStore.get_hydrate keyed atop] at found
  rcases DocumentStore.view_cases found with own | ⟨other, same, entry, member, rfl⟩
  · exact stored id document own
  · obtain rfl := Option.some.inj (atop.symm.trans same)
    exact .inr (base.image.lexical entry member)

end

end Warm.Ingest
