import Warm.DeferredRuns

/-! A pass that nothing comes between leaves no document without its vectors, and so the documents and the shards
of the store that encoded at once. -/
namespace Warm.Ingest

open Binary Engine List
open DocumentStore (Keyed get_insert view_cases)

variable {config : Config} {encoder : Encoder config.dimensions} {analysis : Analysis} {documents : List StoredDocument}

/-! ### What a pass leaves -/

/-- The documents that await vectors are among those left to a pass, as it captured them. -/
def Awaited (store : DocumentStore) (pending : List PendingDocument) : Prop :=
  ∀ id document, store.get id = some document → isPending document = true →
    (∃ entry ∈ pending, entry.document = document) ∧
      ∀ entry ∈ pending, entry.document.id = id → entry.document = document

theorem Captured.applicable (captured : Captured encoder documents entry) :
    applicable entry.document entry.document.version entry.fingerprint (vectorsOf encoder entry.document) = true := by
  have length : entry.document.chunks.length = (vectorsOf encoder entry.document).length := (length_map ..).symm
  have awaits : entry.document.chunks.any (·.vectorState == .pending) = true := captured.awaits
  rw [Engine.applicable, captured.fingerprint, ← length, awaits]
  simp

/-- An encoding changes its own document only, which awaits nothing afterwards. -/
theorem Awaited.encode (awaited : Awaited store (entry :: pending)) (keyed : Keyed store.documents)
    (captured : Captured encoder documents entry) :
    Awaited (writeDocuments store (encodeMutation encoder entry)) pending := by
  have own : ∀ document, (writeDocuments store (encodeMutation encoder entry)).get entry.document.id = some document →
      isPending document = false := by
    intro document found
    rw [captured.mutation, writeDocuments] at found
    cases stored : store.get entry.document.id with
    | none =>
      rw [stored] at found
      exact absurd (stored.symm.trans found) (by simp)
    | some current =>
      rw [stored] at found
      dsimp only at found
      cases awaits : isPending current with
      | true =>
        obtain rfl := (awaited _ _ stored awaits).2 entry mem_cons_self rfl
        rw [if_pos captured.applicable, get_insert store keyed, if_pos (encodedDocument_id ..).symm,
          encodedDocument_vectorsOf rfl] at found
        obtain rfl := Option.some.inj found
        exact isPending_settled entry.document
      | false =>
        have idle : Engine.applicable current entry.document.version entry.fingerprint (vectorsOf encoder entry.document) =
            false := by
          have none : current.chunks.any (·.vectorState == .pending) = false := awaits
          rw [Engine.applicable, none, Bool.and_false, Bool.false_and]
        rw [idle, if_neg (by decide), stored] at found
        obtain rfl := Option.some.inj found
        exact awaits
  have others : ∀ id, id ≠ entry.document.id →
      (writeDocuments store (encodeMutation encoder entry)).get id = store.get id := by
    intro id apart
    rw [captured.mutation, writeDocuments]
    cases stored : store.get entry.document.id with
    | none => rfl
    | some current =>
      dsimp only
      split
      next =>
        have same : (encodedDocument current (vectorsOf encoder entry.document)).id = entry.document.id :=
          (encodedDocument_id ..).trans (keyed _ _ stored)
        rw [get_insert store keyed, same, if_neg apart]
      next => rfl
  intro id document found awaits
  have apart : id ≠ entry.document.id := by
    rintro rfl
    rw [own document found] at awaits
    cases awaits
  rw [others id apart] at found
  obtain ⟨⟨other, member, same⟩, only⟩ := awaited id document found awaits
  refine ⟨?_, (forall_mem_cons.mp only).2⟩
  rcases mem_cons.mp member with rfl | rest
  · exact absurd ((keyed id document found).symm.trans (congrArg StoredDocument.id same.symm)) apart
  · exact ⟨other, rest, same⟩

theorem Awaited.foldl (awaited : Awaited store (front ++ rest)) (valid : store.Valid)
    (captured : ∀ entry ∈ front, Captured encoder documents entry) :
    Awaited ((front.map (encodeMutation encoder)).foldl writeDocuments store) rest := by
  induction front generalizing store with
  | nil => exact awaited
  | cons entry front ih =>
    exact ih (awaited.encode valid.keyed (captured entry mem_cons_self)) (valid_writeDocuments valid _)
      (forall_mem_cons.mp captured).2

theorem takeSnapshot_awaited (ready : ∀ document ∈ documents, Ready encoder document)
    (stored : Stored encoder documents store) (keyed : Keyed store.documents)
    (taken : takeSnapshot analysis store = .ok pending) : Awaited store pending := by
  obtain ⟨captured, all⟩ := takeSnapshot_ok ready stored taken
  intro id document found awaits
  refine ⟨all id document found awaits, fun entry member own => ?_⟩
  obtain ⟨_, key, held⟩ := captured entry member
  have same : key = id := (keyed key _ held).symm.trans own
  rw [same, found] at held
  exact (Option.some.inj held).symm

section Pass

variable {store twin : Store} (ready : ∀ document ∈ documents, Ready encoder document)
  (injective : FingerprintInjective documents)

include ready injective

theorem encodeBatches_spec (appends : Nat → Bool) {store : Store} (count : Nat)
    (captured : ∀ entry ∈ pending, Captured encoder documents entry) (tracked : Tracked encoder documents store)
    (image : Image encoder store twin) (awaited : Awaited store.core.documents pending) :
    Tracked encoder documents (encodeBatches encoder appends store count pending).1 ∧
      Image encoder (encodeBatches encoder appends store count pending).1 twin ∧
      (∀ total, (encodeBatches encoder appends store count pending).2 = .ok total →
        Awaited (encodeBatches encoder appends store count pending).1.core.documents []) ∧
      ((∀ n, appends n = true) → ∃ total, (encodeBatches encoder appends store count pending).2 = .ok total) := by
  by_cases empty : pending = []
  · rw [encodeBatches, if_pos (List.isEmpty_iff.mpr empty)]
    exact ⟨tracked, image, fun _ _ => empty ▸ awaited, fun _ => ⟨count, rfl⟩⟩
  · rw [encodeBatches, if_neg fun none => empty (List.isEmpty_iff.mp none),
      commitBatch_eq ready captured tracked _ _ empty]
    cases taken : appends count with
    | false => exact ⟨tracked, image, nofun, fun all => absurd ((all count).symm.trans taken) (by simp)⟩
    | true =>
      obtain ⟨tracked', image'⟩ := image.batch ready captured tracked injective empty
      have left : Awaited (store.written encoder (batch encoder pending)).core.documents (pending.drop ENCODE_BATCH) := by
        have split : Awaited store.core.documents (pending.take ENCODE_BATCH ++ pending.drop ENCODE_BATCH) := by
          rwa [take_append_drop]
        have folded := split.foldl tracked.valid fun entry member => captured entry (mem_of_mem_take member)
        exact (documents_foldl_applyDirect encoder store.core (batch encoder pending)).1.symm ▸ folded
      exact encodeBatches_spec appends _ (fun entry member => captured entry (mem_of_mem_drop member)) tracked' image' left
termination_by pending.length
decreasing_by
  have := length_pos_iff.mpr empty
  rw [length_drop, ENCODE_BATCH]
  omega

theorem encodePendingDocuments_spec (text : analysis.isEmbedding = false) (appends : Nat → Bool)
    (tracked : Tracked encoder documents store) (image : Image encoder store twin) :
    Tracked encoder documents (encodePendingDocuments encoder analysis appends store).1 ∧
      Image encoder (encodePendingDocuments encoder analysis appends store).1 twin ∧
      (∀ total, (encodePendingDocuments encoder analysis appends store).2 = .ok total →
        ∀ id document, (encodePendingDocuments encoder analysis appends store).1.core.documents.get id = some document →
          isPending document = false) ∧
      ((∀ n, appends n = true) → ∃ total, (encodePendingDocuments encoder analysis appends store).2 = .ok total) := by
  obtain ⟨pending, taken⟩ := exists_takeSnapshot text ready tracked.stored
  obtain ⟨tracked', image', left, total⟩ := encodeBatches_spec ready injective appends 0
    (fun entry member => ((takeSnapshot_ok ready tracked.stored taken).1 entry member).1) tracked image
    (takeSnapshot_awaited ready tracked.stored tracked.valid.keyed taken)
  rw [encodePendingDocuments, taken]
  refine ⟨tracked', image', fun count done id document found => ?_, total⟩
  cases awaits : isPending document with
  | false => rfl
  | true =>
    obtain ⟨⟨entry, member, _⟩, _⟩ := left count done id document found awaits
    cases member

end Pass

/-! ### Shards -/

theorem shards_eq (indexed : Indexed config .empty core) (indexed' : Indexed config .empty other)
    (documents : core.documents = other.documents) (count : core.shards.shards.length = other.shards.shards.length) :
    core.shards = other.shards := by
  apply ShardSet.ext_getVector count
  intro id
  cases kind : isChunk id with
  | true =>
    apply Option.ext
    intro vector
    rw [indexed.chunks id vector kind, indexed'.chunks id vector kind, documents]
  | false =>
    have none : core.shards.getVector id = none := by
      rw [← Option.not_isSome_iff_eq_none, indexed.plain id kind]
      exact fun member => member
    have none' : other.shards.getVector id = Option.none := by
      rw [← Option.not_isSome_iff_eq_none, indexed'.plain id kind]
      exact fun member => member
    rw [none, none']

theorem Tracked.indexed (tracked : Tracked encoder documents store) : Indexed config .empty store.core := by
  have indexed := tracked.owned.indexed
  rwa [standalone_documents fun mutation member => (tracked.journal mutation member).1.change] at indexed

theorem Image.indexed (image : Image encoder store twin) : Indexed config .empty twin.core := by
  have indexed := image.owned.indexed
  rwa [standalone_documents] at indexed
  intro other member
  rw [image.journal] at member
  obtain ⟨mutation, _, form⟩ := mem_filterMap.mp member
  cases mutation <;> first | (obtain rfl := Option.some.inj form; rfl) | cases form

theorem Tracked.encoded (tracked : Tracked encoder documents store)
    (ready : ∀ document ∈ documents, Ready encoder document) {id : String} {document : StoredDocument}
    {chunk : StoredChunk} (shown : store.core.documents.view id = some document) (member : chunk ∈ document.chunks)
    (encoded : chunk.vectorState = .encoded) :
    store.core.shards.getVector chunk.id = some chunk.vector ∧
      ∀ text, chunk.text = some text → chunk.vector = encoder.encodeText text := by
  rcases view_cases shown with stored | ⟨base, _, entry, inside, rfl⟩
  · constructor
    · obtain ⟨i, found⟩ := mem_iff_getElem?.mp member
      have carried : Carries store.core.documents chunk.id chunk.vector :=
        ⟨id, document, stored, (mem_encodedChunks document chunk.id chunk.vector).mpr ⟨i, chunk, found, encoded, rfl, rfl⟩⟩
      have listed : chunk.id ∈ document.chunks.map StoredChunk.id := mem_map_of_mem member
      exact (tracked.indexed.chunks _ _ (tracked.indexed.isChunk_of_stored stored listed)).mpr carried
    · intro text kept
      rcases tracked.stored id document stored with ⟨accepted, own, rfl | rfl⟩ | lexical
      · exact (ready document own.1).encoded chunk member encoded text kept
      · obtain ⟨old, before, rfl⟩ := mem_map.mp member
        by_cases awaits : old.vectorState = .pending
        · rw [settledChunk, encodeChunk, if_pos awaits] at kept ⊢
          have kept : old.text = some text := kept
          rw [kept]
          rfl
        · rw [settledChunk_of_not_pending awaits] at encoded kept ⊢
          exact (ready accepted own.1).encoded old before encoded text kept
      · rw [lexical chunk member] at encoded
        cases encoded
  · rw [base.image.lexical entry inside chunk member] at encoded
    cases encoded

theorem ready_written (text : analysis.isEmbedding = false) (events : List Event) :
    ∀ document ∈ written encoder analysis events, Ready encoder document := by
  intro document member
  obtain ⟨event, _, inside⟩ := mem_flatMap.mp member
  cases event with
  | put inputs options seen appends =>
    dsimp only at inside
    cases prepared : prepareBatch encoder analysis inputs options with
    | error message =>
      rw [prepared] at inside
      cases inside
    | ok group =>
      rw [prepared] at inside
      exact ready_prepareBatch text prepared document inside
  | _ => cases inside

/-- Writers and passes in any order, on a text-encoder store whose documents have different fingerprints where their
contents differ. At every moment an encoded chunk has the vector of its text, in the document and in the shards; a
pass that nothing comes between ends well if the journal takes its batches, and then no chunk awaits a vector and
the documents and shards are those of a store that encoded at once. -/
theorem deferred_eq_eager (config : Config) (encoder : Encoder config.dimensions) (analysis : Analysis)
    (text : analysis.isEmbedding = false) (more : Nat) (checkpoint : Option ServingImage) (named : NamedImage checkpoint)
    (events : List Event) (injective : FingerprintInjective (written encoder analysis events)) (appends : Nat → Bool) :
    let system := (System.start config more checkpoint).run encoder analysis events
    let eager := (System.start config more checkpoint).run encoder analysis (events.filterMap (Event.eager encoder analysis))
    let pass := encodePendingDocuments encoder analysis appends system.store
    (∀ id document chunk, system.store.core.documents.view id = some document → chunk ∈ document.chunks →
      chunk.vectorState = .encoded → system.store.core.shards.getVector chunk.id = some chunk.vector ∧
        ∀ text, chunk.text = some text → chunk.vector = encoder.encodeText text) ∧
    ((∀ n, appends n = true) → ∃ count, pass.2 = .ok count) ∧
    ∀ count, pass.2 = .ok count →
      (∀ id document, pass.1.core.documents.view id = some document → isPending document = false) ∧
        pass.1.core.documents = eager.store.core.documents ∧ pass.1.core.shards = eager.store.core.shards := by
  intro system eager pass
  have ready : ∀ document ∈ written encoder analysis events, Ready encoder document := ready_written text events
  have start : Twins encoder (written encoder analysis events) (System.start config more checkpoint)
      (System.start config more checkpoint) := ⟨.start more named, .start more named, by simp [System.start]⟩
  have twins := start.run ready injective text fun _ member => member
  obtain ⟨tracked, image, settles, total⟩ := encodePendingDocuments_spec ready injective text appends twins.tracked twins.image
  refine ⟨fun id document chunk shown member encoded => twins.tracked.encoded ready shown member encoded, total, ?_⟩
  intro count done
  have own := settles count done
  have documents : pass.1.core.documents = eager.store.core.documents :=
    (DocumentStore.mapDocuments_eq_self fun id document found =>
      settled_of_not_pending (isPending_eq_false.mp (own id document found))).symm.trans image.documents.symm
  refine ⟨fun id document shown => ?_, documents, shards_eq tracked.indexed image.indexed documents image.count.symm⟩
  rcases view_cases shown with stored | ⟨base, _, entry, inside, rfl⟩
  · exact own id document stored
  · rw [isPending_eq_false]
    intro chunk member
    rw [base.image.lexical entry inside chunk member]
    simp

abbrev noteConfig : Config := ⟨64, 6, true, 0⟩

/-- An encoder that tells texts of different lengths apart. -/
def lengthEncoder : Encoder noteConfig.dimensions where
  encodeText text := ⟨64, [UInt32.ofNat (text.length % 64)]⟩
  composeTriple _ _ _ := ⟨64, []⟩
  encodeText_valid text := by
    have small : text.length % 64 < 64 := Nat.mod_lt _ (by decide)
    have kept : (UInt32.ofNat (text.length % 64)).toNat = text.length % 64 := by
      rw [UInt32.toNat_ofNat']
      exact Nat.mod_eq_of_lt (by omega)
    simp [VectorRecord.valid, VectorRecord.ascending, kept]
    omega
  composeTriple_valid _ _ _ _ _ _ := by decide

def bareAnalysis : Analysis where
  name := "text"
  isEmbedding := false
  fromDense _ := ⟨64, []⟩
  analyzeChunk _ _ _ _ := (⟨[], none, no_terms_sorted, no_positions_checked⟩, 0)
  normalizeEmbedding _ _ := .ok []

def note (text : String) : DocumentInput := ⟨"a", text, none, none, none, none, none, none, none, none⟩

def deferredOptions : IngestOptions := ⟨.deferred, false, false, false⟩

/-- The note of one word before its pass. -/
def waiting (text : String) : StoredDocument :=
  ⟨"a", none, "1", ⟨utf8 "\x7b\x7d"⟩, [⟨chunkId "a" 0, some text, 0, UInt32.ofNat text.utf8ByteSize, ⟨64, []⟩, none,
    ⟨[], none, no_terms_sorted, no_positions_checked⟩, 0, true, .pending⟩]⟩

theorem prepared_note (word : text = "x" ∨ text = "yz") :
    prepareBatch lengthEncoder bareAnalysis [note text] deferredOptions = .ok [waiting text] := by
  have spans : chunkSpansWith (note text) deferredOptions = .ok [(0, UInt32.ofNat text.utf8ByteSize)] := by
    rcases word with rfl | rfl
    all_goals
      rw [chunkSpansWith, if_neg (by decide), chunkSpans]
      refine bind_eq_ok.mpr ⟨(), by decide, ?_⟩
      rw [dif_pos (by decide)]
      refine bind_eq_ok.mpr ⟨(), by decide, ?_⟩
      rw [cutChunks, dif_pos (by decide)]
      rfl
  rw [prepareBatch, mapM_cons, mapM_nil, prepareWithOptions, spans]
  rcases word with rfl | rfl <;> rfl

/-- A note is replaced while a pass computes its vector, and the store is opened again. -/
def replacedNote : List Event :=
  [.put [note "x"] deferredOptions .empty true, .begin, .put [note "yz"] deferredOptions .empty true,
    .install 0 .empty true, .reopen 2, .read]

theorem written_replacedNote : written lengthEncoder bareAnalysis replacedNote = [waiting "x", waiting "yz"] := by
  simp only [written, replacedNote, flatMap_cons, flatMap_nil, prepared_note (.inl rfl), prepared_note (.inr rfl)]
  rfl

theorem deferred_eq_eager_replaced :
    ∃ count, (encodePendingDocuments lengthEncoder bareAnalysis (fun _ => true)
        ((System.start noteConfig 3 none).run lengthEncoder bareAnalysis replacedNote).store).2 = .ok count ∧
      (encodePendingDocuments lengthEncoder bareAnalysis (fun _ => true)
        ((System.start noteConfig 3 none).run lengthEncoder bareAnalysis replacedNote).store).1.core.shards =
        ((System.start noteConfig 3 none).run lengthEncoder bareAnalysis
          (replacedNote.filterMap (Event.eager lengthEncoder bareAnalysis))).store.core.shards := by
  have injective : FingerprintInjective (written lengthEncoder bareAnalysis replacedNote) := by
    have apart : documentFingerprint (waiting "x") ≠ documentFingerprint (waiting "yz") := by decide
    rw [written_replacedNote]
    intro a member b member' fingerprint own own'
    simp only [mem_cons, not_mem_nil, or_false] at member member'
    rcases member with rfl | rfl <;> rcases member' with rfl | rfl
    · rfl
    · exact absurd (own.trans own'.symm) apart
    · exact absurd (own'.trans own.symm) apart
    · rfl
  obtain ⟨_, ended, same⟩ := deferred_eq_eager noteConfig lengthEncoder bareAnalysis rfl 3 none
    (fun image found => by cases found) replacedNote injective fun _ => true
  obtain ⟨count, done⟩ := ended fun _ => rfl
  exact ⟨count, done, (same count done).2.2⟩

end Warm.Ingest
