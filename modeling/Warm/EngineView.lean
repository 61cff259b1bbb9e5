import Warm.EngineIndex

/-! The live state without the layout of its stores: the standalone vectors, the meaning memory,
derived records, relations, documents and the audit queue as functions and lists. The vectors of
the shards that have the id of a chunk are determined by the documents. -/
namespace Warm.Engine

open Binary Audit List
open Function (comp_apply update update_apply)

variable {id : String}

structure MeaningView where
  atoms : String → Option VectorRecord
  composites : String → Option VectorRecord
  triples : List TripleRecord
  rules : List CompositionRule
  owner : String × String → Option Nat

structure View where
  vectors : String → Option VectorRecord
  meaning : Option MeaningView
  derived : String → Option (List String)
  relations : List Relation
  types : String → Option RelationType
  documents : String → Option StoredDocument
  auditPending : List AuditIntent

namespace MeaningView

def forget (meaning : MeaningView) (ids : List String) : MeaningView :=
  { meaning with
    atoms := fun a => if a ∈ ids then none else meaning.atoms a
    composites := fun a => if a ∈ ids then none else meaning.composites a
    triples := meaning.triples.filter fun triple => triple.compositeId ∉ ids }

def atom (encoder : Encoder dimensions) (atoms : String → Option VectorRecord) (name : String) : VectorRecord :=
  (atoms name).getD (encoder.encodeText name)

def learn (encoder : Encoder dimensions) (atoms : String → Option VectorRecord) (name : String) :
    String → Option VectorRecord :=
  update atoms name (some (atom encoder atoms name))

/-- The names are atoms from now on, and `id` is the composite of the three. -/
def triplet (encoder : Encoder dimensions) (meaning : MeaningView) (id subject relation object : String) :
    MeaningView × VectorRecord :=
  let first := learn encoder meaning.atoms subject
  let second := learn encoder first relation
  let vector := encoder.composeTriple (atom encoder meaning.atoms subject) (atom encoder first relation)
    (atom encoder second object)
  ({ meaning with
      atoms := learn encoder second object
      composites := update meaning.composites id (some vector)
      triples := meaning.triples.filter (fun triple => triple.compositeId ≠ id) ++ [⟨subject, relation, object, id, false⟩] },
    vector)

def addRule (meaning : MeaningView) (rule : CompositionRule) : MeaningView :=
  { meaning with
    rules := putRule meaning.rules rule
    owner := RuleStore.reown meaning.owner (rulePosition meaning.rules rule.name) rule }

end MeaningView

namespace View

/-- The children of `id` go, with its record. -/
def clear (view : View) (id : String) : View :=
  let children := (view.derived id).getD []
  { view with
    vectors := fun a => if a ∈ children then none else view.vectors a
    meaning := view.meaning.map (·.forget children)
    derived := update view.derived id none }

def withMeaning (view : View) (change : MeaningView → MeaningView) : View :=
  { view with meaning := view.meaning.map change }

/-- What a mutation does to the live state. -/
def apply (encoder : Encoder dimensions) (view : View) : Mutation → View
  | .auditPending intent => { view with auditPending := view.auditPending ++ [intent] }
  | .auditAcknowledged id =>
    if view.auditPending.head?.bind AuditIntent.id = some id then { view with auditPending := view.auditPending.tail }
    else view
  | .vector id vector =>
    let view := view.clear id
    { view with
      vectors := update view.vectors id (some vector)
      meaning := view.meaning.map fun meaning =>
        { meaning.forget [id] with atoms := update meaning.atoms id (some vector) } }
  | .atom id vector =>
    view.withMeaning fun meaning => { meaning with atoms := update meaning.atoms id (some vector) }
  | .composite id vector =>
    { view.withMeaning fun meaning =>
        { meaning with composites := update meaning.composites id (some vector) } with
      vectors := update view.vectors id (some vector) }
  | .deleteAtom id => view.withMeaning fun meaning => { meaning with atoms := update meaning.atoms id none }
  | .deleteComposite id =>
    view.withMeaning fun meaning => { meaning with composites := update meaning.composites id none }
  | .refreshMeaningIndices => view
  | .storedTriple t =>
    view.withMeaning fun meaning =>
      { meaning with triples := meaning.triples ++ [⟨t.subjectId, t.relationId, t.objectId, t.compositeId, false⟩] }
  | .document document =>
    { view with documents := update view.documents document.id (some document) }
  | .encodeDocument id version fingerprint vectors =>
    match view.documents id with
    | none => view
    | some document =>
      if applicable document version fingerprint vectors then
        { view with documents := update view.documents id (some (encodedDocument document vectors)) }
      else view
  | .derived id children => { view with derived := update view.derived id (some children) }
  | .deleteDocument id => { view with documents := update view.documents id none }
  | .delete id =>
    let view := view.clear id
    { view with
      vectors := update view.vectors id none
      meaning := view.meaning.map (·.forget [id]) }
  | .triplet id subject relation object =>
    let view := view.clear id
    match view.meaning with
    | none => view
    | some meaning =>
      let (meaning, vector) := meaning.triplet encoder id subject relation object
      { view with meaning := some meaning, vectors := update view.vectors id (some vector) }
  | .relation r =>
    { view with
      relations := view.relations.eraseP (RelationStore.connects r.sourceId r.relationType r.targetId) ++ [r] }
  | .removeRelation source relation target =>
    { view with relations := view.relations.eraseP (RelationStore.connects source relation target) }
  | .relationType r => { view with types := update view.types r.name (some r) }
  | .rule rule => view.withMeaning (·.addRule rule)

end View

def Meaning.view (meaning : Meaning) : MeaningView where
  atoms := meaning.atoms.get
  composites := meaning.composites.get
  triples := meaning.triples.snapshot
  rules := meaning.rules.rules
  owner := meaning.rules.owner

def WarmCore.view (core : WarmCore) : View where
  vectors := fun id => if isChunk id then none else core.shards.getVector id
  meaning := core.meaning.map Meaning.view
  derived := fun id => core.derived[id]?
  relations := core.graph.snapshot
  types := fun name => core.graph.types[name]?
  documents := core.documents.view
  auditPending := core.auditPending

def WarmCore.liveState (core : WarmCore) : View := { core.view with vectors := core.shards.getVector }

theorem get_foldl_delete (memory : IndexedMemory) (ids : List String) (a : String) :
    (ids.foldl IndexedMemory.delete memory).get a = if a ∈ ids then none else memory.get a := by
  induction ids generalizing memory with
  | nil => rfl
  | cons id ids ih =>
    rw [foldl_cons, ih, IndexedMemory.get_delete]
    by_cases later : a ∈ ids
    · simp [later]
    · by_cases own : a = id <;> simp [later, own]

theorem snapshot_foldl_removeComposite (store : TripleStore) (ids : List String) :
    (ids.foldl TripleStore.removeComposite store).snapshot =
      store.snapshot.filter fun triple => triple.compositeId ∉ ids := by
  induction ids generalizing store with
  | nil => simp
  | cons id ids ih =>
    rw [foldl_cons, ih, TripleStore.snapshot_removeComposite, filter_filter]
    congr 1
    funext triple
    simp [Bool.and_comm]

theorem Meaning.view_forget (meaning : Meaning) (ids : List String) :
    (meaning.forget ids).view = meaning.view.forget ids := by
  simp only [view, forget, MeaningView.forget, MeaningView.mk.injEq, and_true]
  refine ⟨?_, ?_, snapshot_foldl_removeComposite _ ids⟩
  · funext a
    exact get_foldl_delete meaning.atoms ids a
  · funext a
    exact get_foldl_delete meaning.composites ids a

theorem get_insert_eq_update (memory : IndexedMemory) (id : String) (vector : VectorRecord) :
    (memory.insert id vector).get = update memory.get id (some vector) := by
  funext a
  rw [IndexedMemory.get_insert, update_apply]

theorem get_delete_eq_update (memory : IndexedMemory) (id : String) :
    (memory.delete id).get = update memory.get id none := by
  funext a
  rw [IndexedMemory.get_delete, update_apply]

theorem getOrInsert_eq (encoder : Encoder dimensions) (atoms : IndexedMemory) (name : String) :
    (getOrInsert encoder atoms name).1 = MeaningView.atom encoder atoms.get name ∧
      (getOrInsert encoder atoms name).2.get = MeaningView.learn encoder atoms.get name := by
  rw [getOrInsert, MeaningView.learn, MeaningView.atom]
  cases found : atoms.get name with
  | none => exact ⟨rfl, get_insert_eq_update atoms name _⟩
  | some vector =>
    refine ⟨rfl, ?_⟩
    have same : update atoms.get name (some vector) = atoms.get := by
      rw [← found, Function.update_eq_self]
    exact same.symm

theorem vectors_insert (shards : ShardSet) (plain : isChunk id = false) (vector : VectorRecord) :
    (fun a => if isChunk a then none else (shards.insert id vector).getVector a) =
      update (fun a => if isChunk a then none else shards.getVector a) id (some vector) := by
  funext a
  rw [ShardSet.getVector_insert, update_apply]
  by_cases own : a = id
  · simp [own, plain]
  · simp [own]

theorem vectors_remove (shards : ShardSet) (ids : List String) :
    (fun a => if isChunk a then none else (ids.foldl ShardSet.remove shards).getVector a) =
      fun a => if a ∈ ids then none else if isChunk a then none else shards.getVector a := by
  funext a
  rw [getVector_foldl_remove]
  by_cases listed : a ∈ ids <;> simp [listed]

theorem view_clear (core : WarmCore) (id : String) : (removeDerivedFromMemory core id).view = core.view.clear id := by
  rw [removeDerivedFromMemory_eq]
  simp only [WarmCore.view, View.clear, View.mk.injEq, and_true, Option.map_map]
  refine ⟨vectors_remove core.shards (childrenOf core id), ?_, ?_⟩
  · congr 1
    funext meaning
    exact meaning.view_forget (childrenOf core id)
  · funext a
    rw [Table.getElem?_erase, update_apply]

theorem view_marked (core : WarmCore) (mutation : Mutation) : (marked core mutation).view = core.view := rfl

theorem view_eq_of_plain (core after : WarmCore)
    (shards : ∀ a, isChunk a = false → after.shards.getVector a = core.shards.getVector a)
    (shown : after.documents.view = documents) (meaning : after.meaning = core.meaning)
    (derived : after.derived = core.derived) (graph : after.graph = core.graph)
    (pending : after.auditPending = core.auditPending) : after.view = { core.view with documents } := by
  simp only [WarmCore.view, View.mk.injEq, meaning, derived, graph, pending, shown, and_true]
  funext a
  split
  next => rfl
  next plain => exact shards a (by simpa using plain)

/-- The slots after a mutation over a checkpoint, unless it indexes the store anew. -/
def writeSlots (table : SlotTable) : Mutation → Option SlotTable
  | .document document => table.put document.id document.chunks.length
  | .deleteDocument id => table.drop id
  | _ => some table

/-- The mutation does not make a store over a checkpoint index itself anew. -/
def Calm (documents : DocumentStore) (mutation : Mutation) : Prop :=
  documents.base = none ∨ (writeSlots documents.table mutation).isSome = true

theorem length_encodedDocument (length : document.chunks.length = vectors.length) :
    (encodedDocument document vectors).chunks.length = document.chunks.length := by
  rw [encodedDocument, length_zipWith, ← length, Nat.min_self]

theorem put_encodedDocument (sized : DocumentStore.Sized documents) (stored : documents.get id = some document)
    (length : document.chunks.length = vectors.length) :
    documents.table.put id (encodedDocument document vectors).chunks.length = some documents.table := by
  have count := sized id
  rw [stored, Option.map_some] at count
  obtain ⟨slots, found, size⟩ := Option.map_eq_some_iff.mp count
  rw [SlotTable.put, found]
  dsimp only
  rw [if_pos (by rw [length_encodedDocument length, size])]

theorem encodedDocument_id (document : StoredDocument) (vectors : List VectorRecord) :
    (encodedDocument document vectors).id = document.id := rfl

theorem not_applicable_of_lexical (lexical : ∀ chunk ∈ document.chunks, chunk.vectorState = .lexical) (version : String)
    (fingerprint : UInt64) (vectors : List VectorRecord) : applicable document version fingerprint vectors = false := by
  have waiting : document.chunks.any (·.vectorState == .pending) = false := by
    rw [any_eq_false]
    intro chunk member
    rw [lexical chunk member]
    decide
  rw [applicable, waiting, Bool.and_false, Bool.false_and]

section Apply

variable {config : Config} {ledger : Standalone} {core : WarmCore}

section

variable (indexed : Indexed config ledger core) (stored : core.documents.Valid)
include indexed stored

theorem view_document (named : Named document)
    (calm : Calm core.documents (.document document)) (encoder : Encoder dimensions) :
    (applyDirect encoder core (.document document)).view = core.view.apply encoder (.document document) := by
  refine view_eq_of_plain core _ ?_ ?_ rfl rfl rfl rfl
  · intro a plain
    exact indexed.put_plain named plain
  · funext a
    rw [update_apply]
    exact DocumentStore.view_insert stored document calm a

theorem view_encodeDocument
    (encoder : Encoder dimensions) (id version : String) (fingerprint : UInt64) (vectors : List VectorRecord) :
    (applyDirect encoder core (.encodeDocument id version fingerprint vectors)).view =
      core.view.apply encoder (.encodeDocument id version fingerprint vectors) := by
  have installed : applyDirect encoder core (.encodeDocument id version fingerprint vectors) =
      installDeferredEncoding (marked core (.encodeDocument id version fingerprint vectors)) id version fingerprint vectors :=
    rfl
  rw [installed, View.apply, installDeferredEncoding]
  have shown : core.view.documents id = core.documents.view id := rfl
  have unmarked : (marked core (.encodeDocument id version fingerprint vectors)).documents = core.documents := rfl
  rw [unmarked]
  cases found : core.documents.get id with
  | none =>
    rw [shown]
    cases under : core.documents.view id with
    | none => rfl
    | some document =>
      -- It is the checkpoint's, and lexical.
      rcases DocumentStore.view_cases under with own | ⟨base, _, entry, member, rfl⟩
      · rw [found] at own
        contradiction
      · have idle := not_applicable_of_lexical (base.image.lexical entry member) version fingerprint vectors
        simp only [idle]
        rfl
  | some document =>
    rw [shown, DocumentStore.view_of_get found]
    dsimp only
    by_cases fits : applicable document version fingerprint vectors = true
    · have length := length_of_applicable fits
      have own : document.id = id := stored.keyed id document found
      have kept := put_encodedDocument stored.sized found length
      rw [if_pos fits, if_pos fits]
      refine view_eq_of_plain core _ ?_ ?_ rfl rfl rfl rfl
      · intro a plain
        exact indexed.encode_plain found length plain
      · funext a
        have written := DocumentStore.view_insert stored (encodedDocument document vectors)
          (.inr (by rw [encodedDocument_id, own, kept]; rfl)) a
        rw [encodedDocument_id, own] at written
        rw [update_apply]
        exact written
    · rw [if_neg fits, if_neg fits]
      rfl

theorem view_deleteDocument
    (calm : Calm core.documents (.deleteDocument id)) (encoder : Encoder dimensions) :
    (applyDirect encoder core (.deleteDocument id)).view = core.view.apply encoder (.deleteDocument id) := by
  rw [applyDirect_deleteDocument, removeDocumentFromMemory_eq]
  refine view_eq_of_plain core _ ?_ ?_ rfl rfl rfl rfl
  · intro a plain
    exact indexed.delete_plain id plain
  · funext a
    rw [update_apply]
    exact DocumentStore.view_remove stored id calm a

end

theorem view_withMeaning (core : WarmCore) (same : ∀ meaning, (change meaning).view = shown meaning.view) :
    (withMeaning core change).view = core.view.withMeaning shown := by
  simp only [WarmCore.view, withMeaning, View.withMeaning, View.mk.injEq, Option.map_map, and_true, true_and]
  congr 1
  funext meaning
  exact same meaning

theorem view_removeMemoryId (core : WarmCore) (id : String) :
    (removeMemoryId core id).view =
      { core.view with
        vectors := update core.view.vectors id none
        meaning := core.view.meaning.map (·.forget [id]) } := by
  have folded := foldl_removeMemoryId core [id]
  rw [foldl_cons, foldl_nil] at folded
  rw [folded]
  simp only [WarmCore.view, View.mk.injEq, and_true, Option.map_map]
  refine ⟨?_, ?_⟩
  · rw [vectors_remove]
    funext a
    rw [update_apply]
    simp only [mem_singleton]
  · congr 1
    funext meaning
    exact meaning.view_forget [id]

theorem view_vector (core : WarmCore) (plain : isChunk id = false) (vector : VectorRecord) (encoder : Encoder dimensions) :
    (applyDirect encoder core (.vector id vector)).view = core.view.apply encoder (.vector id vector) := by
  have cleared := view_clear (marked core (.vector id vector)) id
  rw [view_marked] at cleared
  have applied : applyDirect encoder core (.vector id vector) =
      withMeaning
        { withMeaning (removeDerivedFromMemory (marked core (.vector id vector)) id) fun meaning =>
            { meaning with composites := meaning.composites.delete id, triples := meaning.triples.removeComposite id } with
          shards := (removeDerivedFromMemory (marked core (.vector id vector)) id).shards.insert id vector }
        fun meaning => { meaning with atoms := meaning.atoms.insert id vector } := rfl
  rw [applied, View.apply, ← cleared]
  generalize removeDerivedFromMemory (marked core (.vector id vector)) id = after
  simp only [withMeaning, WarmCore.view, View.mk.injEq, and_true, Option.map_map]
  refine ⟨vectors_insert _ plain vector, ?_⟩
  congr 1
  funext meaning
  simp only [comp_apply, Meaning.view, MeaningView.forget, MeaningView.mk.injEq, get_insert_eq_update,
    get_delete_eq_update, TripleStore.snapshot_removeComposite, and_true, true_and, mem_singleton]
  funext a
  rw [update_apply]

theorem view_composite (core : WarmCore) (plain : isChunk id = false) (vector : VectorRecord)
    (encoder : Encoder dimensions) :
    (applyDirect encoder core (.composite id vector)).view = core.view.apply encoder (.composite id vector) := by
  simp only [applyDirect, applyOther, withMeaning, View.apply, View.withMeaning, WarmCore.view, View.mk.injEq, and_true,
    Option.map_map]
  refine ⟨vectors_insert _ plain vector, ?_⟩
  congr 1
  funext meaning
  simp only [comp_apply, Meaning.view, get_insert_eq_update]

theorem view_triplet (core : WarmCore) (plain : isChunk id = false) (subject relation object : String)
    (encoder : Encoder dimensions) :
    (applyDirect encoder core (.triplet id subject relation object)).view =
      core.view.apply encoder (.triplet id subject relation object) := by
  have cleared := view_clear (marked core (.triplet id subject relation object)) id
  rw [view_marked] at cleared
  have applied : applyDirect encoder core (.triplet id subject relation object) =
      applyTriplet encoder (marked core (.triplet id subject relation object)) id subject relation object := rfl
  rw [applied, View.apply, ← cleared, applyTriplet]
  generalize removeDerivedFromMemory (marked core (.triplet id subject relation object)) id = after
  have shown : after.view.meaning = after.meaning.map Meaning.view := rfl
  rw [shown]
  cases found : after.meaning with
  | none => rfl
  | some meaning =>
    obtain ⟨first, known⟩ := getOrInsert_eq encoder meaning.atoms subject
    obtain ⟨second, known'⟩ := getOrInsert_eq encoder (getOrInsert encoder meaning.atoms subject).2 relation
    obtain ⟨third, known''⟩ := getOrInsert_eq encoder
      (getOrInsert encoder (getOrInsert encoder meaning.atoms subject).2 relation).2 object
    rw [known] at second known'
    rw [known'] at third known''
    simp only [Option.map_some, MeaningView.triplet, WarmCore.view, View.mk.injEq, and_true, Option.some.injEq, first,
      second, third]
    refine ⟨vectors_insert _ plain _, ?_⟩
    simp only [Meaning.view, known'', get_insert_eq_update, TripleStore.snapshot_add, TripleStore.snapshot_removeComposite]

theorem view_delete (core : WarmCore) (id : String) (encoder : Encoder dimensions) :
    (applyDirect encoder core (.delete id)).view = core.view.apply encoder (.delete id) := by
  have applied : applyDirect encoder core (.delete id) =
      removeMemoryId (removeDerivedFromMemory (marked core (.delete id)) id) id := rfl
  rw [applied, view_removeMemoryId, view_clear, view_marked]
  rfl

/-- A mutation changes the live state as it is meant to, unless it makes a store over a checkpoint
index itself anew. -/
theorem view_applyDirect (indexed : Indexed config ledger core) (stored : core.documents.Valid)
    (issued : Issued mutation) (calm : Calm core.documents mutation) (encoder : Encoder dimensions) :
    (applyDirect encoder core mutation).view = core.view.apply encoder mutation := by
  cases mutation with
  | auditPending intent => rfl
  | auditAcknowledged id =>
    have pending : core.view.auditPending = core.auditPending := rfl
    simp only [applyDirect, applyOther, applyAudit, View.apply, pending]
    by_cases first : core.auditPending.head?.bind AuditIntent.id = some id
    · rw [if_pos first, if_pos first]
      rfl
    · rw [if_neg first, if_neg first]
      rfl
  | vector id vector => exact view_vector core issued vector encoder
  | atom id vector =>
    apply view_withMeaning (marked core (.atom id vector))
    intro meaning
    simp only [Meaning.view, get_insert_eq_update]
  | composite id vector => exact view_composite core issued vector encoder
  | deleteAtom id =>
    apply view_withMeaning (marked core (.deleteAtom id))
    intro meaning
    simp only [Meaning.view, get_delete_eq_update]
  | deleteComposite id =>
    apply view_withMeaning (marked core (.deleteComposite id))
    intro meaning
    simp only [Meaning.view, get_delete_eq_update]
  | refreshMeaningIndices => rfl
  | storedTriple record =>
    apply view_withMeaning (marked core (.storedTriple record))
    intro meaning
    simp only [Meaning.view, TripleStore.loadTriple, TripleStore.snapshot_add]
  | document document => exact view_document indexed stored issued calm encoder
  | encodeDocument id version fingerprint vectors => exact view_encodeDocument indexed stored encoder id version fingerprint vectors
  | derived id children =>
    simp only [applyDirect, applyOther, View.apply, WarmCore.view, View.mk.injEq, and_true, true_and]
    funext a
    rw [Table.getElem?_insert, update_apply]
  | deleteDocument id => exact view_deleteDocument indexed stored calm encoder
  | delete id => exact view_delete core id encoder
  | triplet id subject relation object => exact view_triplet core issued subject relation object encoder
  | relation relation =>
    simp only [applyDirect, applyOther, View.apply, WarmCore.view, View.mk.injEq, and_true, true_and,
      RelationStore.snapshot_add, RelationStore.snapshot_remove]
    rfl
  | removeRelation source relation target =>
    simp only [applyDirect, applyOther, View.apply, WarmCore.view, View.mk.injEq, and_true, true_and,
      RelationStore.snapshot_remove]
    rfl
  | relationType relationType =>
    simp only [applyDirect, applyOther, View.apply, WarmCore.view, View.mk.injEq, and_true, true_and,
      RelationStore.snapshot_declareType]
    funext a
    rw [RelationStore.declareType, Table.getElem?_insert, update_apply]
  | rule rule =>
    apply view_withMeaning (marked core (.rule rule))
    intro meaning
    simp only [Meaning.view, MeaningView.addRule, RuleStore.owner_addRule]
    rfl

end Apply

end Warm.Engine
