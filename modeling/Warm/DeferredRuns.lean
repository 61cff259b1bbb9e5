import Warm.DeferredEager

/-! Deferred encoding leaves what eager encoding does. Writers and passes interleave as they like; at every
moment an encoded chunk has the vector of its own text, and a pass that nothing comes between leaves the
documents and shards of a store that encoded at once. -/
namespace Warm.Ingest

open Binary Engine List
open DocumentStore (values)

variable {config : Config} {encoder : Encoder config.dimensions} {analysis : Analysis} {documents : List StoredDocument}

/-! ### Passes -/

/-- What a pass holds for a document: the vectors of the content it was captured with. -/
structure Captured (encoder : Encoder config.dimensions) (documents : List StoredDocument) (pending : PendingDocument) :
    Prop where
  accepted : Accepted config documents pending.document
  awaits : isPending pending.document = true
  fingerprint : documentFingerprint pending.document = some pending.fingerprint
  mutation : encodeMutation encoder pending = .encodeDocument pending.document.id pending.document.version
    pending.fingerprint (vectorsOf encoder pending.document)

theorem mem_values {store : DocumentStore} (member : document ∈ values store.documents) :
    ∃ id, store.get id = some document := by
  obtain ⟨⟨id, found⟩, listed, rfl⟩ := mem_map.mp member
  exact ⟨id, Std.ExtTreeMap.mem_toList_iff_getElem?_eq_some.mp listed⟩

theorem values_mem {store : DocumentStore} {id : String} (found : store.get id = some document) :
    document ∈ values store.documents :=
  mem_map.mpr ⟨(id, document), Std.ExtTreeMap.mem_toList_iff_getElem?_eq_some.mpr found, rfl⟩

theorem zipWith_pendingText
    (each : List.Forall₂ (fun chunk text => pendingText document chunk = .ok text) document.chunks texts)
    (all : ∀ chunk ∈ document.chunks, chunk.vectorState = .pending ∧ chunk.text.isSome = true) :
    List.zipWith (fun chunk text => (text.map encoder.encodeText).getD chunk.vector) document.chunks texts =
      vectorsOf encoder document := by
  rw [vectorsOf]
  generalize document.chunks = chunks at each all
  induction each with
  | nil => rfl
  | @cons chunk text chunks texts own _ ih =>
    obtain ⟨state, kept⟩ := all chunk mem_cons_self
    obtain ⟨source, found⟩ := Option.isSome_iff_exists.mp kept
    rw [pendingText, if_pos state, found] at own
    obtain rfl := Except.ok.inj own
    rw [zipWith_cons_cons, map_cons, ih (forall_mem_cons.mp all).2, found]
    rfl

theorem pendingDocument_ok (ready : Ready encoder document) (accepted : Accepted config documents document)
    (awaits : isPending document = true) (captured : pendingDocument document = .ok pending) :
    pending.document = document ∧ Captured encoder documents pending := by
  obtain ⟨texts, collected, captured⟩ := bind_eq_ok.mp captured
  cases fingerprinted : documentFingerprint document with
  | none =>
    rw [fingerprinted] at captured
    cases captured
  | some fingerprint =>
    rw [fingerprinted] at captured
    obtain rfl := Except.ok.inj captured
    refine ⟨rfl, accepted, awaits, fingerprinted, ?_⟩
    have all : ∀ chunk ∈ document.chunks, chunk.vectorState = .pending ∧ chunk.text.isSome = true := by
      obtain ⟨chunk, member, pends⟩ := any_eq_true.mp awaits
      exact fun other member' =>
        ⟨(ready.pending chunk member (eq_of_beq pends) other member').1, (ready.pending chunk member (eq_of_beq pends) other member').2.1⟩
    rw [encodeMutation, zipWith_pendingText (mapM_eq_ok.mp collected) all]

theorem takeSnapshot_ok (ready : ∀ document ∈ documents, Ready encoder document)
    (stored : Stored encoder documents store) {pending : List PendingDocument}
    (taken : takeSnapshot analysis store = .ok pending) :
    (∀ entry ∈ pending, Captured encoder documents entry ∧ ∃ id, store.get id = some entry.document) ∧
      ∀ id document, store.get id = some document → isPending document = true →
        ∃ entry ∈ pending, entry.document = document := by
  rw [takeSnapshot] at taken
  split at taken
  next empty =>
    obtain rfl := Except.ok.inj taken
    refine ⟨by simp, fun id document found awaits => ?_⟩
    have counted := List.sum_eq_zero_iff_forall_eq_nat.mp empty _ (mem_map_of_mem (values_mem found))
    obtain ⟨chunk, member, pends⟩ := any_eq_true.mp awaits
    exact absurd pends (countP_eq_zero.mp counted chunk member)
  next =>
    obtain ⟨_, _, taken⟩ := bind_eq_ok.mp taken
    have each := mapM_eq_ok.mp taken
    have own (document : StoredDocument)
        (member : document ∈ (values store.documents).filter isPending) :
        ∃ id, store.get id = some document ∧ Accepted config documents document ∧ isPending document = true := by
      obtain ⟨listed, awaits⟩ := mem_filter.mp member
      obtain ⟨id, found⟩ := mem_values listed
      exact ⟨id, found, stored.accepted found awaits, awaits⟩
    constructor
    · intro entry member
      obtain ⟨i, inside, rfl⟩ := mem_iff_getElem.mp member
      have before : i < ((values store.documents).filter isPending).length := by
        rw [each.length_eq]
        exact inside
      obtain ⟨id, found, accepted, awaits⟩ := own _ (getElem_mem before)
      obtain ⟨same, captured⟩ := pendingDocument_ok (ready _ accepted.1) accepted awaits (List.Forall₂.get each before inside)
      exact ⟨captured, id, found.trans (congrArg some same.symm)⟩
    · intro id document found awaits
      obtain ⟨i, inside, rfl⟩ := mem_iff_getElem.mp (mem_filter.mpr ⟨values_mem found, awaits⟩)
      have after : i < pending.length := by
        rw [← each.length_eq]
        exact inside
      obtain ⟨_, _, accepted, awaits⟩ := own _ (getElem_mem inside)
      exact ⟨pending[i], getElem_mem after,
        (pendingDocument_ok (ready _ accepted.1) accepted awaits (List.Forall₂.get each inside after)).1⟩

theorem exists_fingerprint (kept : ∀ chunk ∈ document.chunks, ∃ source, chunk.text = some source) :
    ∃ fingerprint, documentFingerprint document = some fingerprint := by
  rw [documentFingerprint]
  generalize hashStrSeed document.version 0x5EEDD0C5F1A60001 = start
  generalize document.chunks = chunks at kept
  induction chunks generalizing start with
  | nil => exact ⟨start, rfl⟩
  | cons chunk chunks ih =>
    obtain ⟨source, found⟩ := kept chunk mem_cons_self
    rw [foldlM_cons, found]
    exact ih _ (forall_mem_cons.mp kept).2

theorem exists_takeSnapshot (text : analysis.isEmbedding = false)
    (ready : ∀ document ∈ documents, Ready encoder document) (stored : Stored encoder documents store) :
    ∃ pending, takeSnapshot analysis store = .ok pending := by
  rw [takeSnapshot]
  split
  next => exact ⟨[], rfl⟩
  next =>
    have each : ∀ document ∈ (values store.documents).filter isPending,
        ∃ entry, pendingDocument document = .ok entry := by
      intro document member
      obtain ⟨listed, awaits⟩ := mem_filter.mp member
      obtain ⟨id, found⟩ := mem_values listed
      have own := ready document (stored.accepted found awaits).1
      obtain ⟨first, inside, pends⟩ := any_eq_true.mp awaits
      have kept : ∀ chunk ∈ document.chunks, ∃ source, chunk.text = some source := fun chunk member =>
        Option.isSome_iff_exists.mp (own.pending first inside (eq_of_beq pends) chunk member).2.1
      obtain ⟨texts, collected⟩ := exists_mapM_eq_ok (f := pendingText document) fun chunk member => by
        obtain ⟨source, found⟩ := kept chunk member
        rw [pendingText, found]
        split
        · exact ⟨some source, rfl⟩
        · exact ⟨none, rfl⟩
      obtain ⟨fingerprint, fingerprinted⟩ := exists_fingerprint kept
      refine ⟨⟨document, fingerprint, texts⟩, bind_eq_ok.mpr ⟨texts, collected, ?_⟩⟩
      rw [fingerprinted]
    obtain ⟨pending, taken⟩ := exists_mapM_eq_ok each
    exact ⟨pending, bind_eq_ok.mpr ⟨(), ensure_eq_ok.mpr text, taken⟩⟩

theorem Captured.admissible (captured : Captured encoder documents entry) :
    Admissible encoder documents (encodeMutation encoder entry) := by
  rw [captured.mutation]
  exact ⟨entry.document, captured.accepted.1, rfl, rfl, captured.fingerprint, rfl⟩

theorem Captured.checked (captured : Captured encoder documents entry)
    (ready : ∀ document ∈ documents, Ready encoder document) :
    validateMutation config (encodeMutation encoder entry) = .ok () := by
  have valid := captured.accepted.2
  rw [validateMutation, Warm.ensure_bind_ok, Warm.ensure_bind_ok] at valid
  obtain ⟨named, counted, _⟩ := valid
  have version := (ready _ captured.accepted.1).version
  have length : (vectorsOf encoder entry.document).length = entry.document.chunks.length := length_map ..
  have empty : (vectorsOf encoder entry.document).isEmpty = entry.document.chunks.isEmpty := isEmpty_map ..
  have shaped : (vectorsOf encoder entry.document).all (·.valid config.dimensions) = true := by
    rw [vectorsOf, all_map]
    exact all_eq_true.mpr fun chunk _ => encoder.encodeText_valid _
  rw [Bool.and_eq_true, decide_eq_true_eq] at counted
  rw [captured.mutation, validateMutation, Warm.ensure_bind_ok]
  refine ⟨named, if_pos ?_⟩
  rw [length, empty, shaped, counted.1]
  simp only [Bool.and_true, Bool.and_eq_true, bne_iff_ne, decide_eq_true_eq]
  exact ⟨version, counted.2⟩

section Batches

variable {store twin : Store} {pending : List PendingDocument}

def batch (encoder : Encoder config.dimensions) (pending : List PendingDocument) : List Mutation :=
  (pending.take ENCODE_BATCH).map (encodeMutation encoder)

theorem mem_batch (member : mutation ∈ batch encoder pending) :
    ∃ entry ∈ pending, encodeMutation encoder entry = mutation := by
  obtain ⟨entry, listed, rfl⟩ := mem_map.mp member
  exact ⟨entry, mem_of_mem_take listed, rfl⟩

variable (ready : ∀ document ∈ documents, Ready encoder document) (captured : ∀ entry ∈ pending, Captured encoder documents entry)

include captured

theorem batch_admissible : ∀ mutation ∈ batch encoder pending, Admissible encoder documents mutation := by
  intro mutation member
  obtain ⟨entry, listed, rfl⟩ := mem_batch member
  exact (captured entry listed).admissible

theorem batch_eager : (batch encoder pending).filterMap (eagerMutation encoder) = [] := by
  rw [filterMap_eq_nil_iff]
  intro mutation member
  obtain ⟨entry, listed, rfl⟩ := mem_batch member
  rw [(captured entry listed).mutation]
  rfl

include ready

theorem batch_checked (some : pending ≠ []) : validateTransaction config (batch encoder pending) = .ok () := by
  have size : (batch encoder pending).length = min ENCODE_BATCH pending.length := by
    rw [batch, length_map, length_take]
  have positive : 0 < pending.length := length_pos_iff.mpr some
  rw [validateTransaction, Warm.ensure_bind_ok, Audit.forM_ok_iff, size, Bool.and_eq_true, decide_eq_true_eq,
    Bool.not_eq_true', ← Bool.not_eq_true, isEmpty_iff_length_eq_zero, size]
  refine ⟨⟨?_, ?_⟩, ?_⟩
  · rw [ENCODE_BATCH]
    omega
  · rw [ENCODE_BATCH]
    omega
  · intro mutation member
    obtain ⟨entry, listed, rfl⟩ := mem_batch member
    exact (captured entry listed).checked ready

theorem commitBatch_eq (tracked : Tracked encoder documents store) (seen : DocumentStore) (appends : Bool) (some : pending ≠ []) :
    commitBatch encoder store seen appends pending =
      if appends then (store.written encoder (batch encoder pending), .ok true) else (store, .error .append) := by
  rw [commitBatch, ← batch, commit_documents tracked.valid.keyed config encoder
    (fun mutation member => (batch_admissible captured mutation member).change), batch_checked ready captured some]

theorem Image.batch (image : Image encoder store twin) (tracked : Tracked encoder documents store)
    (injective : FingerprintInjective documents) (some : pending ≠ []) :
    Tracked encoder documents (store.written encoder (batch encoder pending)) ∧
      Image encoder (store.written encoder (batch encoder pending)) twin := by
  have admissible := batch_admissible captured
  have checked := batch_checked ready captured some
  exact ⟨tracked.written ready injective admissible checked,
    image.encoded tracked injective admissible (validateTransaction_ok checked) (batch_eager captured)⟩

end Batches

/-! ### Runs -/

/-- What holds between the steps of a system and of one that encodes at once. -/
structure Twins (encoder : Encoder config.dimensions) (documents : List StoredDocument) (system twin : System) : Prop where
  tracked : Tracked encoder documents system.store
  image : Image encoder system.store twin.store
  captured : ∀ pending ∈ system.passes, ∀ entry ∈ pending, Captured encoder documents entry

section Steps

variable {system twin : System} (ready : ∀ document ∈ documents, Ready encoder document)
  (injective : FingerprintInjective documents)

section

variable (text : analysis.isEmbedding = false) (prepared : prepareBatch encoder analysis inputs options = .ok group)
include text prepared

theorem prepareBatch_eager :
    prepareBatch encoder analysis inputs options.eager = .ok (group.map (settled encoder)) := by
  refine mapM_eq_ok.mpr (forall₂_map_right_iff.mpr ?_)
  exact (mapM_eq_ok.mp prepared).imp fun _ _ own => prepareWithOptions_eager text own

theorem ready_prepareBatch :
    ∀ document ∈ group, Ready encoder document := by
  intro document member
  have each := mapM_eq_ok.mp prepared
  obtain ⟨i, inside, rfl⟩ := mem_iff_getElem.mp member
  exact ready_prepared text (List.Forall₂.get each (by rw [each.length_eq]; exact inside) inside)

end

include ready injective

section

variable (twins : Twins encoder documents system twin)
include twins

theorem Twins.commit
    (admissible : ∀ mutation ∈ mutations, Admissible encoder documents mutation)
    (form : mutations.filterMap (eagerMutation encoder) = mutations.map (settledMutation encoder))
    (seen : DocumentStore) (appends : Bool) :
    Twins encoder documents { system with store := (system.store.commit config encoder seen none appends mutations).1 }
      { twin with
        store := (twin.store.commit config encoder seen none appends (mutations.map (settledMutation encoder))).1 } := by
  have agree : validateTransaction config (mutations.map (settledMutation encoder)) =
      validateTransaction config mutations :=
    validateTransaction_settled fun document member => ready document (admissible _ member)
  have first := commit_documents twins.tracked.valid.keyed config encoder
    (fun mutation member => (admissible mutation member).change) seen appends
  have changes : ∀ mutation ∈ mutations.map (settledMutation encoder), isDocumentChange mutation = true := by
    intro other member
    obtain ⟨mutation, inside, rfl⟩ := mem_map.mp member
    have change := (admissible mutation inside).change
    cases mutation <;> exact change
  have second := commit_documents twins.image.owned.indexed.keyed config encoder changes seen appends
  rw [agree] at second
  rw [first, second]
  cases checked : validateTransaction config mutations with
  | error => exact twins
  | ok _ =>
    cases appends with
    | false => exact twins
    | true =>
      rw [checked] at second
      have valid := validateTransaction_ok checked
      have owned : Owned config
          (act config encoder twin.store (.commit seen none true (mutations.map (settledMutation encoder)))) :=
        twins.image.owned.act encoder fun other member => by
          obtain ⟨mutation, inside, own⟩ := mem_filterMap.mp (form ▸ member)
          exact ((admissible mutation inside).eager ready (valid mutation inside) own).2.1
      rw [act, second] at owned
      exact ⟨twins.tracked.written ready injective admissible checked,
        twins.image.written ready twins.tracked injective admissible valid form owned, twins.captured⟩

theorem Twins.put {group : List StoredDocument}
    (given : ∀ document ∈ group, document ∈ documents) (seen : DocumentStore) (appends : Bool) :
    Twins encoder documents
      { system with store := (system.store.commit config encoder seen none appends (group.map .document)).1 }
      { twin with
        store := (twin.store.commit config encoder seen none appends ((group.map (settled encoder)).map .document)).1 } := by
  have admissible : ∀ mutation ∈ group.map Mutation.document, Admissible encoder documents mutation := by
    intro mutation member
    obtain ⟨document, inside, rfl⟩ := mem_map.mp member
    exact given document inside
  have same : (group.map (settled encoder)).map Mutation.document =
      (group.map Mutation.document).map (settledMutation encoder) := by
    rw [map_map, map_map]
    rfl
  have form : (group.map Mutation.document).filterMap (eagerMutation encoder) =
      (group.map Mutation.document).map (settledMutation encoder) := by
    rw [filterMap_map, map_map, ← filterMap_eq_map]
    rfl
  rw [same]
  exact twins.commit ready injective admissible form seen appends

theorem Twins.install (pass : Nat) (seen : DocumentStore) (appends : Bool) :
    Twins encoder documents (system.step encoder analysis (.install pass seen appends)) twin := by
  rw [System.step]
  cases found : system.passes[pass]? with
  | none => exact twins
  | some pending =>
    dsimp only
    have captured := twins.captured pending (mem_of_getElem? found)
    by_cases empty : pending = []
    · rw [if_pos (List.isEmpty_iff.mpr empty)]
      exact twins
    · rw [if_neg (fun none => empty (List.isEmpty_iff.mp none)),
        commitBatch_eq ready captured twins.tracked seen appends empty]
      cases appends with
      | false => exact ⟨twins.tracked, twins.image, fun other member => twins.captured other (mem_of_mem_eraseIdx member)⟩
      | true =>
        obtain ⟨tracked, image⟩ := twins.image.batch ready captured twins.tracked injective empty
        refine ⟨tracked, image, fun other member entry listed => ?_⟩
        rcases mem_or_eq_of_mem_set member with old | rfl
        · exact twins.captured other old entry listed
        · exact captured entry (mem_of_mem_drop listed)

end

theorem Twins.step (text : analysis.isEmbedding = false) (twins : Twins encoder documents system twin) {event : Event}
    (given : ∀ document ∈ written encoder analysis [event], document ∈ documents) :
    Twins encoder documents (system.step encoder analysis event)
      ((event.eager encoder analysis).toList.foldl (System.step encoder analysis) twin) := by
  cases event with
  | put inputs options seen appends =>
    rw [Event.eager, System.step]
    cases prepared : prepareBatch encoder analysis inputs options with
    | error => exact twins
    | ok group =>
      have members : ∀ document ∈ group, document ∈ documents := by
        intro document member
        apply given
        rw [written, flatMap_singleton]
        dsimp only
        rw [prepared]
        exact member
      have put := twins.put ready injective members seen appends
      simp only [Option.toList_some, foldl_cons, foldl_nil, System.step, prepareBatch_eager text prepared]
      exact put
  | delete id seen appends =>
    have alone : ∀ mutation ∈ [Mutation.deleteDocument id], Admissible encoder documents mutation := by
      simp [Admissible]
    exact twins.commit ready injective alone rfl seen appends
  | begin =>
    rw [System.step]
    cases taken : takeSnapshot analysis system.store.core.documents with
    | error => exact twins
    | ok pending =>
      refine ⟨twins.tracked, twins.image, fun other member entry listed => ?_⟩
      rcases mem_append.mp member with old | new
      · exact twins.captured other old entry listed
      · obtain rfl := mem_singleton.mp new
        exact ((takeSnapshot_ok ready twins.tracked.stored taken).1 entry listed).1
  | install pass seen appends => exact twins.install ready injective pass seen appends
  | read =>
    obtain ⟨tracked, image⟩ := twins.image.read twins.tracked
    exact ⟨tracked, image, twins.captured⟩
  | reopen more =>
    obtain ⟨tracked, image⟩ := twins.image.reopen ready twins.tracked injective more
    exact ⟨tracked, image, by simp [System.step]⟩

theorem Twins.run (text : analysis.isEmbedding = false) (twins : Twins encoder documents system twin)
    (given : ∀ document ∈ written encoder analysis events, document ∈ documents) :
    Twins encoder documents (system.run encoder analysis events)
      (twin.run encoder analysis (events.filterMap (Event.eager encoder analysis))) := by
  induction events generalizing system twin with
  | nil => exact twins
  | cons event events ih =>
    have split : written encoder analysis (event :: events) = written encoder analysis [event] ++ written encoder analysis events := by
      simp only [written, flatMap_cons, flatMap_nil, append_nil]
    rw [split] at given
    have first := twins.step ready injective text (forall_mem_append.mp given).1
    have rest := ih first (forall_mem_append.mp given).2
    rw [System.run, foldl_cons, ← System.run, filterMap_cons]
    cases form : event.eager encoder analysis <;> rw [form] at rest <;> exact rest

end Steps

end Warm.Ingest
