import Warm.EngineRun

/-! Which ids the shards hold. Callers put and delete standalone vectors under ids without the chunk
prefix and name the chunks of a document by its id and their position, so every id has one owner:
a standalone entry, or the chunk of one document. -/
namespace Warm.Engine

open Binary Audit List
open DocumentStore (Keyed base_hydrate get_empty get_hydrate get_insert get_remove image_insert image_remove keyed_insert keyed_remove view_cases view_of_get)
open Function (update update_apply)
open Prod (fst mk.inj)

variable {id : String} {vector : VectorRecord}

def isChunk (id : String) : Bool := startsWith id CHUNK_PREFIX

/-- The chunks of a document carry its id and their position. -/
def Named (document : StoredDocument) : Prop :=
  ∀ (i : Nat) (chunk : StoredChunk), document.chunks[i]? = some chunk → chunk.id = chunkId document.id i

/-- What every caller of a commit sees to: standalone ids are not chunk ids, chunk ids are derived
from the document. -/
def Issued : Mutation → Prop
  | .vector id _ | .composite id _ | .delete id | .triplet id _ _ _ => isChunk id = false
  | .document document => Named document
  | _ => True

/-- The standalone entries by the mutations alone: what was put and not deleted since, and the
children that a put or a delete of their parent takes along. -/
structure Standalone where
  ids : Set String
  derived : String → List String

namespace Standalone

def empty : Standalone := ⟨∅, fun _ => []⟩

def clear (ledger : Standalone) (id : String) : Standalone where
  ids := ledger.ids \ { child | child ∈ ledger.derived id }
  derived := update ledger.derived id []

def apply (ledger : Standalone) : Mutation → Standalone
  | .vector id _ | .triplet id _ _ _ => { ledger.clear id with ids := insert id (ledger.clear id).ids }
  | .composite id _ => { ledger with ids := insert id ledger.ids }
  | .delete id => { ledger.clear id with ids := (ledger.clear id).ids \ {id} }
  | .derived id children => { ledger with derived := update ledger.derived id children }
  | _ => ledger

end Standalone

def Carries (documents : DocumentStore) (id : String) (vector : VectorRecord) : Prop :=
  ∃ key document, documents.get key = some document ∧ (id, vector) ∈ encodedChunks document

/-- Every vector of the shards has an owner and every owner its vector. -/
structure Indexed (config : Config) (ledger : Standalone) (core : WarmCore) : Prop where
  keyed : Keyed core.documents.documents
  enabled : core.meaning.isSome = config.meaningEnabled
  derived : ∀ id, childrenOf core id = ledger.derived id
  children : ∀ id, ∀ child ∈ ledger.derived id, isChunk child = false
  named : ∀ id document, core.documents.get id = some document → Named document
  imaged : ∀ base, core.documents.base = some base → ∀ entry ∈ base.image.documents, Named entry.1
  plain : ∀ id, isChunk id = false → ((core.shards.getVector id).isSome = true ↔ id ∈ ledger.ids)
  chunks : ∀ id vector, isChunk id = true →
    (core.shards.getVector id = some vector ↔ Carries core.documents id vector)

theorem utf8ByteSize_le (text : String) : text.utf8ByteSize ≤ 4 * text.toList.length := by
  rw [← String.ofList_toList (s := text)]
  generalize text.toList = chars
  rw [String.toList_ofList]
  induction chars with
  | nil => simp
  | cons c chars ih =>
    have one := c.utf8Size_le_four
    rw [String.ofList_cons, String.utf8ByteSize_append, String.utf8ByteSize_singleton, length_cons]
    omega
theorem validateId_chunkId (valid : validateId document = true) (short : document.utf8ByteSize ≤ 100)
    (few : index < 10000) : validateId (chunkId document index) = true := by
  rw [validateId, Bool.and_eq_true, Bool.and_eq_true] at valid ⊢
  have digits (n : Nat) (small : n < 10000) : (toString n).utf8ByteSize ≤ 16 := by
    have size := utf8ByteSize_le (toString n)
    have count : (toString n).toList.length ≤ 4 := by
      rw [Nat.toString_eq_repr, Nat.toList_repr]
      exact (Nat.length_toDigits_le_iff (by decide) (by decide)).mpr small
    omega
  have zero (n : Nat) : Char.ofNat 0 ∉ (toString n).toList := by
    rw [Nat.toString_eq_repr, Nat.toList_repr]
    intro member
    have digit := Nat.isDigit_of_mem_toDigits (by decide) (by decide) member
    simp at digit
  have first := digits document.utf8ByteSize (by omega)
  have second := digits index few
  have size : (chunkId document index).utf8ByteSize = 12 + (toString document.utf8ByteSize).utf8ByteSize +
      document.utf8ByteSize + (toString index).utf8ByteSize := by
    simp only [chunkId, String.utf8ByteSize_append]
    have front : CHUNK_PREFIX.utf8ByteSize = 10 := by decide
    have colon : ":".utf8ByteSize = 1 := by decide
    omega
  refine ⟨⟨?_, ?_⟩, ?_⟩
  · rw [bne_iff_ne]
    intro empty
    rw [empty] at size
    simp at size
    omega
  · rw [decide_eq_true_eq]
    omega
  · have plain := valid.2
    simp only [Bool.not_eq_true', contains_eq_mem, decide_eq_false_iff_not] at plain ⊢
    have front : Char.ofNat 0 ∉ CHUNK_PREFIX.toList := by decide
    have colon : Char.ofNat 0 ∉ ":".toList := by decide
    simp only [chunkId, String.toList_append, mem_append]
    simp only [front, colon, zero, plain, or_self, not_false_eq_true]

theorem isChunk_chunkId (document : String) (index : Nat) : isChunk (chunkId document index) = true := by
  rw [isChunk, startsWith, isPrefixOf_iff_prefix]
  simp only [chunkId, String.append_assoc, utf8_append]
  exact prefix_append _ _

theorem isChunk_of_meaning (child more : String) (meaning : startsWith child (MEANING_PREFIX ++ more) = true) :
    isChunk child = false := by
  rw [startsWith, isPrefixOf_iff_prefix, utf8_append] at meaning
  rw [Bool.eq_false_iff]
  intro chunk
  rw [isChunk, startsWith, isPrefixOf_iff_prefix] at chunk
  have shorter : utf8 CHUNK_PREFIX <+: utf8 MEANING_PREFIX :=
    prefix_of_prefix_length_le chunk ((prefix_append _ _).trans meaning) (by decide)
  have apart : ¬(utf8 CHUNK_PREFIX <+: utf8 MEANING_PREFIX) := by decide
  exact apart shorter

theorem getVector_foldl_remove (set : ShardSet) (ids : List String) (a : String) :
    (ids.foldl ShardSet.remove set).getVector a = if a ∈ ids then none else set.getVector a := by
  induction ids generalizing set with
  | nil => rfl
  | cons id ids ih =>
    rw [foldl_cons, ih, ShardSet.getVector_remove]
    by_cases later : a ∈ ids
    · simp [later]
    · by_cases own : a = id <;> simp [later, own]

theorem getVector_insertAll (set : ShardSet) (entries : List (String × VectorRecord))
    (distinct : (entries.map fst).Nodup) (a : String) (v : VectorRecord) :
    (insertAll set entries).getVector a = some v ↔
      (a, v) ∈ entries ∨ a ∉ entries.map fst ∧ set.getVector a = some v := by
  induction entries generalizing set with
  | nil => simp [insertAll]
  | cons entry entries ih =>
    obtain ⟨id, vector⟩ := entry
    rw [map_cons, nodup_cons] at distinct
    have step : insertAll set ((id, vector) :: entries) = insertAll (set.insert id vector) entries := rfl
    rw [step, ih _ distinct.2, ShardSet.getVector_insert]
    by_cases own : a = id
    · subst own
      have absent : (a, v) ∉ entries := fun member =>
        distinct.1 (mem_map.mpr ⟨_, member, rfl⟩)
      simp [absent, distinct.1, eq_comm]
    · simp [own]

theorem mem_encodedChunks (document : StoredDocument) (id : String) (vector : VectorRecord) :
    (id, vector) ∈ encodedChunks document ↔
      ∃ (i : Nat) (chunk : StoredChunk), document.chunks[i]? = some chunk ∧ chunk.vectorState = .encoded ∧
        chunk.id = id ∧ chunk.vector = vector := by
  rw [encodedChunks, mem_map]
  constructor
  · rintro ⟨chunk, member, same⟩
    obtain ⟨member, encoded⟩ := mem_filter.mp member
    obtain ⟨i, found⟩ := mem_iff_getElem?.mp member
    obtain ⟨rfl, rfl⟩ := mk.inj same
    exact ⟨i, chunk, found, eq_of_beq encoded, rfl, rfl⟩
  · rintro ⟨i, chunk, found, encoded, rfl, rfl⟩
    exact ⟨chunk, mem_filter.mpr ⟨mem_of_getElem? found, beq_iff_eq.mpr encoded⟩, rfl⟩

namespace Named

theorem ids_nodup (named : Named document) : (document.chunks.map StoredChunk.id).Nodup := by
  rw [nodup_iff_getElem?_ne_getElem?]
  intro i j before inside same
  rw [length_map] at inside
  rw [getElem?_map, getElem?_map, getElem?_eq_getElem (by omega), getElem?_eq_getElem inside,
    Option.map_some, Option.map_some] at same
  have left := named i _ (getElem?_eq_getElem (by omega))
  have right := named j _ (getElem?_eq_getElem inside)
  rw [left, right] at same
  exact Nat.ne_of_lt before (chunkId_inj (Option.some.inj same)).2

theorem encodedChunks_nodup (named : Named document) : ((encodedChunks document).map fst).Nodup := by
  rw [encodedChunks, map_map]
  exact named.ids_nodup.sublist (filter_sublist.map _)

theorem same_document (named : Named document) (named' : Named other) (member : id ∈ document.chunks.map StoredChunk.id)
    (member' : id ∈ other.chunks.map StoredChunk.id) : document.id = other.id := by
  obtain ⟨chunk, inside, rfl⟩ := mem_map.mp member
  obtain ⟨chunk', inside', same⟩ := mem_map.mp member'
  obtain ⟨i, found⟩ := mem_iff_getElem?.mp inside
  obtain ⟨j, found'⟩ := mem_iff_getElem?.mp inside'
  rw [named i chunk found, named' j chunk' found'] at same
  exact (chunkId_inj same).1.symm

theorem isChunk_of_mem (named : Named document) (listed : id ∈ document.chunks.map StoredChunk.id) : isChunk id = true := by
  obtain ⟨chunk, inside, rfl⟩ := mem_map.mp listed
  obtain ⟨i, found⟩ := mem_iff_getElem?.mp inside
  rw [named i chunk found]
  exact isChunk_chunkId document.id i

end Named

theorem mem_ids_of_mem_encodedChunks (member : (id, vector) ∈ encodedChunks document) :
    id ∈ document.chunks.map StoredChunk.id := by
  obtain ⟨i, chunk, found, _, rfl, _⟩ := (mem_encodedChunks document id vector).mp member
  exact mem_map_of_mem (mem_of_getElem? found)

theorem mem_pendingVectors (document : StoredDocument) (vectors : List VectorRecord) (id : String)
    (vector : VectorRecord) :
    (id, vector) ∈ pendingVectors document vectors ↔
      ∃ (i : Nat) (chunk : StoredChunk), document.chunks[i]? = some chunk ∧ vectors[i]? = some vector ∧
        chunk.vectorState = .pending ∧ chunk.id = id := by
  rw [pendingVectors, mem_map]
  constructor
  · rintro ⟨⟨chunk, _⟩, member, same⟩
    obtain ⟨member, pending⟩ := mem_filter.mp member
    obtain ⟨i, found⟩ := mem_iff_getElem?.mp member
    obtain ⟨rfl, rfl⟩ := mk.inj same
    obtain ⟨first, second⟩ := getElem?_zip_eq_some.mp found
    exact ⟨i, chunk, first, second, eq_of_beq pending, rfl⟩
  · rintro ⟨i, chunk, first, second, pending, rfl⟩
    refine ⟨(chunk, vector), mem_filter.mpr ⟨?_, beq_iff_eq.mpr pending⟩, rfl⟩
    exact mem_of_getElem? (getElem?_zip_eq_some.mpr ⟨first, second⟩)

theorem pendingVectors_nodup (named : Named document) (length : document.chunks.length = vectors.length) :
    ((pendingVectors document vectors).map fst).Nodup := by
  have ids : (pendingVectors document vectors).map fst =
      (((document.chunks.zip vectors).filter fun pair => pair.1.vectorState == .pending).map fst).map
        StoredChunk.id := by
    rw [pendingVectors, map_map, map_map]
    rfl
  rw [ids]
  have chunks : (document.chunks.zip vectors).map fst = document.chunks := map_fst_zip (le_of_eq length)
  have waiting : List.Sublist (((document.chunks.zip vectors).filter fun pair => pair.1.vectorState == .pending).map
      fst) ((document.chunks.zip vectors).map fst) := filter_sublist.map _
  rw [chunks] at waiting
  exact named.ids_nodup.sublist (waiting.map _)

theorem getElem?_encodedDocument (document : StoredDocument) (vectors : List VectorRecord) (i : Nat) :
    (encodedDocument document vectors).chunks[i]? =
      (document.chunks[i]?).bind fun chunk => (vectors[i]?).map (encodeChunk chunk) := by
  rw [encodedDocument, getElem?_zipWith]
  cases document.chunks[i]? <;> cases vectors[i]? <;> rfl

theorem Named.encodedDocument (named : Named document) (vectors : List VectorRecord) :
    Named (encodedDocument document vectors) := by
  intro i chunk found
  rw [getElem?_encodedDocument] at found
  obtain ⟨old, stored, found⟩ := Option.bind_eq_some_iff.mp found
  obtain ⟨vector, _, rfl⟩ := Option.map_eq_some_iff.mp found
  have same : (encodeChunk old vector).id = old.id := by
    rw [encodeChunk]
    split <;> rfl
  rw [same]
  exact named i old stored

theorem mem_encodedChunks_encodedDocument (document : StoredDocument) (vectors : List VectorRecord)
    (length : document.chunks.length = vectors.length) :
    (id, vector) ∈ encodedChunks (encodedDocument document vectors) ↔
      (id, vector) ∈ encodedChunks document ∨ (id, vector) ∈ pendingVectors document vectors := by
  rw [mem_encodedChunks, mem_encodedChunks, mem_pendingVectors]
  constructor
  · rintro ⟨i, chunk, found, encoded, rfl, rfl⟩
    rw [getElem?_encodedDocument] at found
    obtain ⟨old, stored, found⟩ := Option.bind_eq_some_iff.mp found
    obtain ⟨vector, given, rfl⟩ := Option.map_eq_some_iff.mp found
    by_cases pending : old.vectorState = .pending
    · exact .inr ⟨i, old, stored, by simpa [encodeChunk, pending] using given, pending, by simp [encodeChunk, pending]⟩
    · rw [encodeChunk, if_neg pending] at encoded ⊢
      exact .inl ⟨i, old, stored, encoded, rfl, rfl⟩
  · rintro (⟨i, chunk, stored, encoded, rfl, rfl⟩ | ⟨i, chunk, stored, given, pending, rfl⟩)
    · have inside : i < vectors.length := by
        rw [← length]
        exact (List.getElem?_eq_some_iff.mp stored).1
      refine ⟨i, chunk, ?_, encoded, rfl, rfl⟩
      rw [getElem?_encodedDocument, stored, Option.bind_some, getElem?_eq_getElem inside, Option.map_some,
        encodeChunk, if_neg (by simp [encoded])]
    · refine ⟨i, encodeChunk chunk vector, ?_, by simp [encodeChunk, pending], by simp [encodeChunk, pending],
        by simp [encodeChunk, pending]⟩
      rw [getElem?_encodedDocument, stored, Option.bind_some, given, Option.map_some]

theorem Named.pending_not_encoded (named : Named document) (encoded : (id, vector) ∈ encodedChunks document) :
    id ∉ (pendingVectors document vectors).map fst := by
  intro listed
  obtain ⟨⟨_, other⟩, waits, rfl⟩ := mem_map.mp listed
  obtain ⟨i, chunk, found, state, same, _⟩ := (Engine.mem_encodedChunks document _ vector).mp encoded
  obtain ⟨j, chunk', found', _, state', same'⟩ := (mem_pendingVectors document vectors _ other).mp waits
  rw [← same', named i chunk found, named j chunk' found'] at same
  obtain rfl := (chunkId_inj same).2
  rw [found, Option.some.injEq] at found'
  rw [← found', state] at state'
  contradiction

theorem mem_staleChunks (member : id ∈ staleChunks previous document) :
    (∃ old, previous = some old ∧ id ∈ old.chunks.map StoredChunk.id) ∧ id ∉ (encodedChunks document).map fst := by
  cases previous with
  | none => simp [staleChunks] at member
  | some old =>
    rw [staleChunks, mem_filter] at member
    exact ⟨⟨old, rfl, member.1⟩, of_decide_eq_true member.2⟩

theorem mem_ids_of_pendingVectors (listed : id ∈ (pendingVectors document vectors).map fst) :
    id ∈ document.chunks.map StoredChunk.id := by
  obtain ⟨⟨_, v⟩, member, rfl⟩ := mem_map.mp listed
  obtain ⟨i, chunk, found, _, _, rfl⟩ := (mem_pendingVectors document vectors _ v).mp member
  exact mem_map_of_mem (mem_of_getElem? found)

theorem length_of_applicable (fits : applicable document version fingerprint vectors = true) :
    document.chunks.length = vectors.length := by
  simp only [applicable, Bool.and_eq_true, beq_iff_eq] at fits
  exact fits.1.1.2

/-- The chunks a delete takes from the shards. -/
def ownChunks (documents : DocumentStore) (id : String) : List String :=
  ((documents.get id).map fun document => document.chunks.map StoredChunk.id).getD []

theorem mem_ownChunks (documents : DocumentStore) (key : String) :
    id ∈ ownChunks documents key ↔ ∃ document, documents.get key = some document ∧ id ∈ document.chunks.map StoredChunk.id := by
  rw [ownChunks]
  cases documents.get key <;> simp

/-- A document that readers see has an encoded chunk with that id and vector. -/
def Shows (documents : DocumentStore) (id : String) (vector : VectorRecord) : Prop :=
  ∃ key document, documents.view key = some document ∧ (id, vector) ∈ encodedChunks document

theorem shows_iff (documents : DocumentStore) : Shows documents id vector ↔ Carries documents id vector := by
  constructor
  · rintro ⟨key, document, shown, member⟩
    rcases view_cases shown with own | ⟨base, _, entry, inside, rfl⟩
    · exact ⟨key, document, own, member⟩
    · obtain ⟨i, piece, found, encoded, _⟩ := (mem_encodedChunks entry.1 id vector).mp member
      rw [base.image.lexical entry inside piece (mem_of_getElem? found)] at encoded
      contradiction
  · rintro ⟨key, document, stored, member⟩
    exact ⟨key, document, view_of_get stored, member⟩

namespace Indexed

variable {config : Config} {ledger : Standalone} {core after : WarmCore} {mutations : List Mutation}

section

variable (indexed : Indexed config ledger core)
include indexed

theorem congr (shards : after.shards = core.shards)
    (documents : after.documents = core.documents) (derived : after.derived = core.derived)
    (meaning : after.meaning.isSome = core.meaning.isSome) : Indexed config ledger after where
  keyed := documents ▸ indexed.keyed
  enabled := meaning.trans indexed.enabled
  derived a := by rw [childrenOf, derived, ← indexed.derived a, childrenOf]
  children := indexed.children
  named := documents ▸ indexed.named
  imaged := documents ▸ indexed.imaged
  plain := shards ▸ indexed.plain
  chunks := by
    rw [shards, documents]
    exact indexed.chunks

theorem reshard {ids : Set String}
    (chunks : ∀ a, isChunk a = true → shards.getVector a = core.shards.getVector a)
    (plain : ∀ a, isChunk a = false → ((shards.getVector a).isSome = true ↔ a ∈ ids)) :
    Indexed config { ledger with ids } { core with shards } where
  __ := indexed
  plain := plain
  chunks a v chunk := by rw [chunks a chunk, indexed.chunks a v chunk]

theorem insert (plain : isChunk id = false) (vector : VectorRecord) :
    Indexed config { ledger with ids := Insert.insert id ledger.ids }
      { core with shards := core.shards.insert id vector } := by
  apply indexed.reshard
  · intro a chunk
    have apart : a ≠ id := by
      rintro rfl
      rw [chunk] at plain
      contradiction
    rw [ShardSet.getVector_insert, if_neg apart]
  · intro a other
    rw [ShardSet.getVector_insert, Set.mem_insert_iff]
    by_cases own : a = id
    · simp [own]
    · simp [own, indexed.plain a other]

theorem remove (ids : List String) (plain : ∀ id ∈ ids, isChunk id = false) :
    Indexed config { ledger with ids := ledger.ids \ { id | id ∈ ids } }
      { core with shards := ids.foldl ShardSet.remove core.shards } := by
  apply indexed.reshard
  · intro a chunk
    have apart : a ∉ ids := by
      intro member
      rw [plain a member] at chunk
      contradiction
    rw [getVector_foldl_remove, if_neg apart]
  · intro a other
    rw [getVector_foldl_remove, Set.mem_sdiff, Set.mem_ofPred_eq]
    by_cases own : a ∈ ids
    · simp [own]
    · simp [own, indexed.plain a other]

theorem clear (id : String) :
    Indexed config (ledger.clear id) (removeDerivedFromMemory core id) := by
  have owned : childrenOf core id = ledger.derived id := indexed.derived id
  have removed := indexed.remove (childrenOf core id) (owned ▸ indexed.children id)
  rw [removeDerivedFromMemory_eq]
  exact
    { keyed := removed.keyed
      enabled := by simpa using removed.enabled
      derived := by
        intro a
        simp only [childrenOf, Table.getElem?_erase, Standalone.clear, update_apply]
        split
        · rfl
        · exact indexed.derived a
      children := by
        intro a child member
        simp only [Standalone.clear, update_apply] at member
        split at member
        · simp at member
        · exact indexed.children a child member
      named := removed.named
      imaged := removed.imaged
      plain := by
        intro a other
        rw [removed.plain a other, Standalone.clear, owned]
      chunks := removed.chunks }

theorem record (children : List String)
    (plain : ∀ child ∈ children, isChunk child = false) :
    Indexed config { ledger with derived := update ledger.derived id children }
      { core with derived := core.derived.insert id children } :=
  { indexed with
    derived := by
      intro a
      simp only [childrenOf, Table.getElem?_insert, update_apply]
      split
      · rfl
      · exact indexed.derived a
    children := by
      intro a child member
      simp only [update_apply] at member
      split at member
      · exact plain child member
      · exact indexed.children a child member }

theorem redocument (keyed : Keyed documents.documents)
    (named : ∀ a document, documents.get a = some document → Named document)
    (imaged : ∀ base, documents.base = some base → ∃ old, core.documents.base = some old ∧ base.image = old.image)
    (plain : ∀ a, isChunk a = false → shards.getVector a = core.shards.getVector a)
    (chunks : ∀ a v, isChunk a = true → (shards.getVector a = some v ↔ Carries documents a v)) :
    Indexed config ledger { core with documents, shards } where
  keyed := keyed
  enabled := indexed.enabled
  derived := indexed.derived
  children := indexed.children
  named := named
  imaged base atop := by
    obtain ⟨old, found, same⟩ := imaged base atop
    rw [same]
    exact indexed.imaged old found
  plain a other := by rw [plain a other, indexed.plain a other]
  chunks := chunks

theorem elsewhere (stored : core.documents.get key = some other)
    (named : Named document) (member : id ∈ document.chunks.map StoredChunk.id)
    (member' : id ∈ other.chunks.map StoredChunk.id) : key = document.id := by
  rw [← indexed.keyed key other stored]
  exact (named.same_document (indexed.named key other stored) member member').symm

theorem isChunk_of_stored (stored : core.documents.get key = some document)
    (listed : id ∈ document.chunks.map StoredChunk.id) :
    isChunk id = true := (indexed.named key document stored).isChunk_of_mem listed

theorem put_plain (named : Named document) (plain : isChunk id = false) :
    (insertAll ((staleChunks (core.documents.get document.id) document).foldl ShardSet.remove core.shards)
      (encodedChunks document)).getVector id = core.shards.getVector id := by
  have fresh : id ∉ (encodedChunks document).map fst := by
    intro listed
    obtain ⟨⟨_, v⟩, member, rfl⟩ := mem_map.mp listed
    rw [named.isChunk_of_mem (mem_ids_of_mem_encodedChunks member)] at plain
    contradiction
  have kept : id ∉ staleChunks (core.documents.get document.id) document := by
    intro member
    obtain ⟨⟨previous, stored, listed⟩, _⟩ := mem_staleChunks member
    rw [indexed.isChunk_of_stored stored listed] at plain
    contradiction
  apply Option.ext
  intro v
  rw [getVector_insertAll _ _ named.encodedChunks_nodup, getVector_foldl_remove, if_neg kept]
  constructor
  · rintro (member | ⟨_, held⟩)
    · exact absurd (mem_map.mpr ⟨_, member, rfl⟩) fresh
    · exact held
  · intro held
    exact .inr ⟨fresh, held⟩

theorem put (named : Named document) :
    Indexed config ledger
      { core with
        shards := insertAll ((staleChunks (core.documents.get document.id) document).foldl ShardSet.remove core.shards)
          (encodedChunks document)
        documents := core.documents.insert document } := by
  have written := get_insert core.documents indexed.keyed document
  apply indexed.redocument
  · exact keyed_insert indexed.keyed document
  · intro a other stored
    rw [written] at stored
    split at stored
    next => exact Option.some.inj stored ▸ named
    next => exact indexed.named a other stored
  · intro base atop
    exact image_insert atop
  · intro a other
    exact indexed.put_plain named other
  · intro a v chunk
    rw [getVector_insertAll _ _ named.encodedChunks_nodup, getVector_foldl_remove]
    constructor
    · rintro (member | ⟨absent, held⟩)
      · exact ⟨document.id, document, by rw [written, if_pos rfl], member⟩
      · split at held
        next => contradiction
        next kept =>
          obtain ⟨key, other, stored, member⟩ := (indexed.chunks a v chunk).mp held
          have apart : key ≠ document.id := by
            rintro rfl
            apply kept
            rw [stored, staleChunks, mem_filter]
            exact ⟨mem_ids_of_mem_encodedChunks member, decide_eq_true absent⟩
          exact ⟨key, other, by rw [written, if_neg apart, stored], member⟩
    · rintro ⟨key, other, stored, member⟩
      rw [written] at stored
      split at stored
      next =>
        obtain rfl := Option.some.inj stored
        exact .inl member
      next apart =>
        have foreign (version : StoredDocument) (named : Named version) (same : version.id = document.id) :
            a ∉ version.chunks.map StoredChunk.id := by
          intro inside
          exact apart ((indexed.elsewhere stored named inside (mem_ids_of_mem_encodedChunks member)).trans same)
        have absent : a ∉ (encodedChunks document).map fst := by
          intro listed
          obtain ⟨⟨_, w⟩, inside, rfl⟩ := mem_map.mp listed
          exact foreign document named rfl (mem_ids_of_mem_encodedChunks inside)
        have kept : a ∉ staleChunks (core.documents.get document.id) document := by
          intro listed
          obtain ⟨⟨previous, found, inside⟩, _⟩ := mem_staleChunks listed
          exact foreign previous (indexed.named _ _ found) (indexed.keyed _ _ found) inside
        refine .inr ⟨absent, ?_⟩
        rw [if_neg kept]
        exact (indexed.chunks a v chunk).mpr ⟨key, other, stored, member⟩

theorem encode_plain (stored : core.documents.get key = some document)
    (length : document.chunks.length = vectors.length) (plain : isChunk id = false) :
    (insertAll core.shards (pendingVectors document vectors)).getVector id = core.shards.getVector id := by
  have fresh : id ∉ (pendingVectors document vectors).map fst := by
    intro listed
    rw [indexed.isChunk_of_stored stored (mem_ids_of_pendingVectors listed)] at plain
    contradiction
  apply Option.ext
  intro v
  rw [getVector_insertAll _ _ (pendingVectors_nodup (indexed.named key document stored) length)]
  constructor
  · rintro (member | ⟨_, held⟩)
    · exact absurd (mem_map.mpr ⟨_, member, rfl⟩) fresh
    · exact held
  · intro held
    exact .inr ⟨fresh, held⟩

theorem encode (id version : String) (fingerprint : UInt64)
    (vectors : List VectorRecord) :
    Indexed config ledger (installDeferredEncoding core id version fingerprint vectors) := by
  rw [installDeferredEncoding]
  split
  next => exact indexed
  next document stored =>
    split
    next fits =>
      have named := indexed.named id document stored
      have own : document.id = id := indexed.keyed id document stored
      have length := length_of_applicable fits
      have written := get_insert core.documents indexed.keyed (encodedDocument document vectors)
      have key : (encodedDocument document vectors).id = id := own
      rw [key] at written
      apply indexed.redocument
      · exact keyed_insert indexed.keyed _
      · intro a other found
        rw [written] at found
        split at found
        next => exact Option.some.inj found ▸ named.encodedDocument vectors
        next => exact indexed.named a other found
      · intro base atop
        exact image_insert atop
      · intro a other
        exact indexed.encode_plain stored length other
      · intro a v chunk
        rw [getVector_insertAll _ _ (pendingVectors_nodup named length)]
        constructor
        · rintro (member | ⟨absent, held⟩)
          · refine ⟨id, encodedDocument document vectors, by rw [written, if_pos rfl], ?_⟩
            exact (mem_encodedChunks_encodedDocument document vectors length).mpr (.inr member)
          · obtain ⟨other, version, found, member⟩ := (indexed.chunks a v chunk).mp held
            by_cases same : other = id
            · rw [same, stored, Option.some.injEq] at found
              refine ⟨id, encodedDocument document vectors, by rw [written, if_pos rfl], ?_⟩
              exact (mem_encodedChunks_encodedDocument document vectors length).mpr (.inl (found ▸ member))
            · exact ⟨other, version, by rw [written, if_neg same, found], member⟩
        · rintro ⟨other, version, found, member⟩
          rw [written] at found
          split at found
          next =>
            obtain rfl := Option.some.inj found
            rcases (mem_encodedChunks_encodedDocument document vectors length).mp member with old | new
            · exact .inr ⟨named.pending_not_encoded old, (indexed.chunks a v chunk).mpr ⟨id, document, stored, old⟩⟩
            · exact .inl new
          next apart =>
            refine .inr ⟨?_, (indexed.chunks a v chunk).mpr ⟨other, version, found, member⟩⟩
            intro listed
            have same := indexed.elsewhere found named (mem_ids_of_pendingVectors listed) (mem_ids_of_mem_encodedChunks member)
            exact apart (same.trans own)
    next => exact indexed

theorem delete_plain (key : String) (plain : isChunk id = false) :
    ((ownChunks core.documents key).foldl ShardSet.remove core.shards).getVector id = core.shards.getVector id := by
  rw [getVector_foldl_remove, if_neg]
  rw [mem_ownChunks]
  rintro ⟨document, stored, listed⟩
  rw [indexed.isChunk_of_stored stored listed] at plain
  contradiction

theorem deleteDocument (id : String) :
    Indexed config ledger (removeDocumentFromMemory core id) := by
  have removed := get_remove core.documents indexed.keyed id
  rw [removeDocumentFromMemory_eq]
  apply indexed.redocument
  · exact keyed_remove indexed.keyed id
  · intro a document stored
    rw [removed] at stored
    split at stored
    next => contradiction
    next => exact indexed.named a document stored
  · intro base atop
    exact image_remove atop
  · intro a other
    exact indexed.delete_plain id other
  · intro a v chunk
    rw [← ownChunks, getVector_foldl_remove]
    constructor
    · intro held
      split at held
      next => contradiction
      next kept =>
        obtain ⟨key, document, stored, member⟩ := (indexed.chunks a v chunk).mp held
        have apart : key ≠ id := by
          rintro rfl
          exact kept ((mem_ownChunks core.documents key).mpr ⟨document, stored, mem_ids_of_mem_encodedChunks member⟩)
        exact ⟨key, document, by rw [removed, if_neg apart, stored], member⟩
    · rintro ⟨key, document, stored, member⟩
      rw [removed] at stored
      split at stored
      next => contradiction
      next apart =>
        rw [if_neg, indexed.chunks a v chunk]
        · exact ⟨key, document, stored, member⟩
        · rw [mem_ownChunks]
          rintro ⟨other, found, listed⟩
          have same := indexed.elsewhere stored (indexed.named id other found) listed (mem_ids_of_mem_encodedChunks member)
          exact apart (same.trans (indexed.keyed id other found))

theorem triplet (encoder : Encoder dimensions) (plain : isChunk id = false)
    (subject relation object : String) (enabled : config.meaningEnabled = true) :
    Indexed config (ledger.apply (.triplet id subject relation object))
      (applyTriplet encoder core id subject relation object) := by
  have cleared := indexed.clear id
  rw [applyTriplet]
  split
  next missing =>
    have present := cleared.enabled
    rw [missing, enabled] at present
    contradiction
  next meaning found => exact (cleared.insert plain _).congr rfl rfl rfl (by rw [found]; rfl)

end

theorem children_plain {children : List String} (valid : validateMutation config (.derived id children) = .ok ()) :
    ∀ child ∈ children, isChunk child = false := by
  simp only [validateMutation] at valid
  obtain ⟨_, -, valid⟩ := bind_eq_ok.mp valid
  rw [ensure_bind_ok, Bool.and_eq_true] at valid
  intro child member
  have owned := all_eq_true.mp valid.1.2 child member
  rw [String.append_assoc, String.append_assoc, String.append_assoc] at owned
  exact isChunk_of_meaning child _ owned

section

variable (indexed : Indexed config ledger core)
include indexed

theorem step (encoder : Encoder dimensions) {mutation : Mutation}
    (valid : validateMutation config mutation = .ok ()) (issued : Issued mutation) :
    Indexed config (ledger.apply mutation) (applyDirect encoder core mutation) := by
  have start : Indexed config ledger (marked core mutation) := indexed.congr rfl rfl rfl rfl
  cases mutation with
  | vector id vector =>
    exact ((start.clear id).insert issued vector).congr rfl rfl rfl
      (by simp [applyDirect, applyOther, withMeaning, marked])
  | composite id vector =>
    exact (start.insert issued vector).congr rfl rfl rfl (by simp [applyDirect, applyOther, withMeaning, marked])
  | triplet id subject relation object =>
    have enabled : config.meaningEnabled = true := by
      rw [validateMutation, ensure_bind_ok] at valid
      rcases decided : config.meaningEnabled with _ | _
      · rw [decided] at valid
        simp [ensure] at valid
      · rfl
    exact start.triplet encoder issued subject relation object enabled
  | delete id =>
    have plain : isChunk id = false := issued
    have deleted := (start.clear id).remove [id] (by simpa using plain)
    have same : (ledger.clear id).ids \ { a | a ∈ [id] } = (ledger.clear id).ids \ {id} := by
      ext a
      simp
    rw [same] at deleted
    exact deleted.congr rfl rfl rfl (by simp [applyDirect, applyOther, removeMemoryId, marked])
  | derived id children => exact start.record children (children_plain valid)
  | document document => exact start.put issued
  | encodeDocument id version fingerprint vectors => exact start.encode id version fingerprint vectors
  | deleteDocument id => exact start.deleteDocument id
  | auditAcknowledged id =>
    simp only [applyDirect, applyOther]
    split <;> rename_i outcome
    · obtain ⟨rest, _, outcome⟩ := bind_eq_ok.mp outcome
      obtain rfl := Except.ok.inj outcome
      exact start.congr rfl rfl rfl rfl
    · exact start
  | auditPending intent | relation relation | removeRelation source relation target | relationType relationType =>
    exact start.congr rfl rfl rfl rfl
  | refreshMeaningIndices => exact start
  | _ => exact start.congr rfl rfl rfl (by simp [applyDirect, applyOther, withMeaning, marked])

theorem steps (encoder : Encoder dimensions) (mutations : List Mutation)
    (valid : ∀ mutation ∈ mutations, validateMutation config mutation = .ok ())
    (issued : ∀ mutation ∈ mutations, Issued mutation) :
    Indexed config (mutations.foldl Standalone.apply ledger) (mutations.foldl (applyDirect encoder) core) := by
  induction mutations generalizing ledger core with
  | nil => exact indexed
  | cons mutation mutations ih =>
    exact ih (indexed.step encoder (valid _ mem_cons_self) (issued _ mem_cons_self))
      (forall_mem_cons.mp valid).2 (forall_mem_cons.mp issued).2

theorem hydrate (hydrated : hydrateDocuments core = .ok after) :
    Indexed config ledger after := by
  rcases hydrateDocuments_ok hydrated with ⟨rfl, _⟩ | ⟨base, atop, rfl⟩
  · exact indexed
  have rebuilt := get_hydrate indexed.keyed atop
  have moved : Indexed config ledger { core with documents := core.documents.hydrate base, shards := core.shards } := by
    apply indexed.redocument
    · exact (DocumentStore.valid_hydrate core.documents base).keyed
    · intro a document stored
      rw [rebuilt] at stored
      rcases view_cases stored with own | ⟨other, under, entry, member, rfl⟩
      · exact indexed.named a document own
      · exact indexed.imaged other under entry member
    · intro other shown
      rw [base_hydrate] at shown
      contradiction
    · intro a _
      rfl
    · intro a v chunk
      rw [indexed.chunks a v chunk, ← shows_iff]
      constructor
      · rintro ⟨key, document, shown, member⟩
        exact ⟨key, document, (rebuilt key).trans shown, member⟩
      · rintro ⟨key, document, stored, member⟩
        exact ⟨key, document, (rebuilt key).symm.trans stored, member⟩
  exact moved.congr rfl rfl rfl rfl

theorem hydrateUnlessAccepted
    (ready : Engine.hydrateUnlessAccepted core mutations = .ok after) : Indexed config ledger after := by
  rw [Engine.hydrateUnlessAccepted] at ready
  split at ready
  · exact Except.ok.inj ready ▸ indexed
  · exact indexed.hydrate ready

theorem replay {chunks : List (List Mutation)}
    (issued : ∀ mutation ∈ chunks.flatten, Issued mutation)
    (replayed : chunks.foldlM (replayMutations config encoder) core = .ok after) :
    Indexed config (chunks.flatten.foldl Standalone.apply ledger) after := by
  induction chunks generalizing ledger core with
  | nil =>
    obtain rfl := Except.ok.inj replayed
    exact indexed
  | cons chunk chunks ih =>
    rw [foldlM_cons] at replayed
    obtain ⟨next, first, replayed⟩ := bind_eq_ok.mp replayed
    obtain ⟨valid, ready, readied, rfl⟩ := replayMutations_ok indexed.keyed first
    rw [flatten_cons] at issued
    rw [flatten_cons, foldl_append]
    apply ih _ (forall_mem_append.mp issued).2 replayed
    exact (indexed.hydrateUnlessAccepted readied).steps encoder chunk valid
      (forall_mem_append.mp issued).1

end

end Indexed

/-- The checkpoint's documents are named, as those are that were committed before it was written. -/
def NamedImage (checkpoint : Option ServingImage) : Prop :=
  ∀ image, checkpoint = some image → ∀ entry ∈ image.documents, Named entry.1

theorem indexed_opened (config : Config) (more : Nat) (named : NamedImage checkpoint) :
    Indexed config .empty (opened config more checkpoint) := by
  have own (id : String) : (opened config more checkpoint).documents.get id = none := by
    cases checkpoint <;> exact get_empty id
  refine
    { keyed := ?_
      enabled := ?_
      derived := ?_
      children := ?_
      named := ?_
      imaged := ?_
      plain := ?_
      chunks := ?_ }
  · intro id document stored
    exact absurd ((own id).symm.trans stored) (by simp)
  · rw [opened]
    cases config.meaningEnabled <;> rfl
  · intro id
    simp [childrenOf, opened, Standalone.empty]
  · intro id child member
    simp [Standalone.empty] at member
  · intro id document stored
    exact absurd ((own id).symm.trans stored) (by simp)
  · intro base atop
    cases checkpoint with
    | none => contradiction
    | some image =>
      obtain rfl := Option.some.inj atop
      exact named image rfl
  · intro id _
    simp [opened, Standalone.empty]
  · intro id vector _
    constructor
    · intro held
      simp [opened] at held
    · rintro ⟨key, document, stored, _⟩
      exact absurd ((own key).symm.trans stored) (by simp)

/-- The standalone entries a journal leaves. -/
def standalone (frames : List (List Mutation)) : Standalone := frames.flatten.foldl Standalone.apply .empty

theorem Standalone.apply_plain {ledger : Standalone} (plain : ∀ id ∈ ledger.ids, isChunk id = false)
    (issued : Issued mutation) : ∀ id ∈ (ledger.apply mutation).ids, isChunk id = false := by
  have cleared (parent id : String) (member : id ∈ (ledger.clear parent).ids) : isChunk id = false :=
    plain id member.1
  cases mutation with
  | vector own _ | triplet own _ _ _ =>
    rintro id (rfl | member)
    · exact issued
    · exact cleared own id member
  | composite own _ =>
    rintro id (rfl | member)
    · exact issued
    · exact plain id member
  | delete own => exact fun id member => cleared own id member.1
  | _ => exact plain

theorem standalone_plain {frames : List (List Mutation)} (issued : ∀ mutation ∈ frames.flatten, Issued mutation) :
    ∀ id ∈ (standalone frames).ids, isChunk id = false := by
  have kept (mutations : List Mutation) (ledger : Standalone) (plain : ∀ id ∈ ledger.ids, isChunk id = false)
      (issued : ∀ mutation ∈ mutations, Issued mutation) :
      ∀ id ∈ (mutations.foldl Standalone.apply ledger).ids, isChunk id = false := by
    induction mutations generalizing ledger with
    | nil => exact plain
    | cons mutation mutations ih =>
      exact ih _ (Standalone.apply_plain plain (issued _ mem_cons_self))
        (forall_mem_cons.mp issued).2
  exact kept frames.flatten .empty (by simp [Standalone.empty]) issued

/-- What holds between the actions of a run. -/
structure Owned (config : Config) (store : Store) : Prop where
  image : NamedImage store.generation.checkpoint
  issued : ∀ mutation ∈ store.generation.frames.flatten, Issued mutation
  indexed : Indexed config (standalone store.generation.frames) store.core

def Action.Issued : Action → Prop
  | .commit _ _ _ mutations => ∀ mutation ∈ mutations, Engine.Issued mutation
  | _ => True

theorem Owned.act {store : Store} (owned : Owned config store) (encoder : Encoder dimensions) {action : Action}
    (issued : action.Issued) : Owned config (act config encoder store action) := by
  cases action with
  | commit seen expected appends mutations =>
    have done := commit_cases config encoder store owned.indexed.keyed seen expected appends mutations
    rcases done with same | ⟨ready, readied, same | ⟨valid, _, same⟩⟩
    · rw [Engine.act, same]
      exact owned
    · rw [Engine.act, same]
      exact ⟨owned.image, owned.issued, owned.indexed.hydrateUnlessAccepted readied⟩
    · have index := (owned.indexed.hydrateUnlessAccepted readied).steps encoder mutations (validateTransaction_ok valid) issued
      rw [Engine.act, same]
      refine ⟨owned.image, ?_, ?_⟩
      · intro mutation member
        rw [List.flatten_append, flatten_singleton] at member
        rcases mem_append.mp member with old | new
        · exact owned.issued mutation old
        · exact issued mutation new
      · rw [standalone, List.flatten_append, flatten_singleton, foldl_append]
        exact index.congr rfl rfl rfl rfl
  | read =>
    rw [Engine.act]
    split
    next core hydrated => exact ⟨owned.image, owned.issued, owned.indexed.hydrate hydrated⟩
    next => exact owned
  | reopen more =>
    rw [Engine.act]
    split
    next core loaded =>
      rw [loadFromLog_eq] at loaded
      have replayed := (indexed_opened config more owned.image).replay (by rw [flatten_chunks]; exact owned.issued) loaded
      rw [flatten_chunks] at replayed
      exact ⟨owned.image, owned.issued, replayed⟩
    next => exact owned

theorem Owned.run (owned : Owned config store) (encoder : Encoder dimensions)
    (issued : ∀ action ∈ actions, action.Issued) : Owned config (run config encoder store actions) := by
  induction actions generalizing store with
  | nil => exact owned
  | cons action actions ih =>
    exact ih (owned.act encoder (issued action mem_cons_self)) (forall_mem_cons.mp issued).2

/-- After any run the shards hold the standalone entries and the encoded chunks of the documents
that readers see, with the vectors of these. -/
theorem shards_hold_owned (config : Config) (encoder : Encoder dimensions) (more : Nat) (checkpoint : Option ServingImage)
    (actions : List Action) (named : NamedImage checkpoint) (issued : ∀ action ∈ actions, action.Issued) (id : String) :
    ((run config encoder (.start config more checkpoint) actions).core.shards.Holds id ↔
        id ∈ (standalone (run config encoder (.start config more checkpoint) actions).generation.frames).ids ∨
          ∃ vector, Shows (run config encoder (.start config more checkpoint) actions).core.documents id vector) ∧
      ∀ vector, Shows (run config encoder (.start config more checkpoint) actions).core.documents id vector →
        (run config encoder (.start config more checkpoint) actions).core.shards.getVector id = some vector := by
  have start : Owned config (.start config more checkpoint) := ⟨named, by simp [Store.start], indexed_opened config more named⟩
  have owned := start.run encoder issued
  generalize run config encoder (.start config more checkpoint) actions = store at owned
  have indexed := owned.indexed
  have standing := standalone_plain owned.issued
  have chunk (vector : VectorRecord) (shown : Shows store.core.documents id vector) : isChunk id = true := by
    obtain ⟨key, document, stored, member⟩ := (shows_iff _).mp shown
    exact indexed.isChunk_of_stored stored (mem_ids_of_mem_encodedChunks member)
  refine ⟨?_, fun vector shown => (indexed.chunks id vector (chunk vector shown)).mpr ((shows_iff _).mp shown)⟩
  rw [ShardSet.holds_iff]
  cases kind : isChunk id with
  | false =>
    rw [indexed.plain id kind]
    constructor
    · exact .inl
    · rintro (owned | ⟨vector, shown⟩)
      · exact owned
      · rw [chunk vector shown] at kind
        contradiction
  | true =>
    rw [Option.isSome_iff_exists]
    constructor
    · rintro ⟨vector, held⟩
      exact .inr ⟨vector, (shows_iff _).mpr ((indexed.chunks id vector kind).mp held)⟩
    · rintro (owned | ⟨vector, shown⟩)
      · rw [standing id owned] at kind
        contradiction
      · exact ⟨vector, (indexed.chunks id vector kind).mpr ((shows_iff _).mp shown)⟩

def plainEncoder : Encoder 64 where
  encodeText _ := ⟨64, []⟩
  composeTriple _ _ _ := ⟨64, []⟩
  encodeText_valid _ := by decide
  composeTriple_valid _ _ _ _ _ _ := by decide

def oneChunk (id version : String) (state : VectorState) : StoredDocument :=
  ⟨id, none, version, ⟨[]⟩,
    [⟨chunkId id 0, some "x", 0, 1, ⟨64, []⟩, none, ⟨[], none, no_terms_sorted, no_positions_checked⟩, 0, false, state⟩]⟩

theorem named_oneChunk (id version : String) (state : VectorState) : Named (oneChunk id version state) := by
  intro i chunk found
  cases i with
  | zero =>
    obtain rfl := Option.some.inj found
    rfl
  | succ i => simp [oneChunk] at found

/-- An encoded document is replaced by one that awaits its vector, behind a standalone entry. -/
def replacement : List Action :=
  [.commit .empty none true [.vector "fact" ⟨64, [1]⟩, .document (oneChunk "a" "1" .encoded)],
    .commit .empty none true [.document (oneChunk "a" "2" .pending)], .reopen 0, .read]

theorem shards_hold_owned_replaced :
    (run ⟨64, 6, true, 0⟩ plainEncoder (.start ⟨64, 6, true, 0⟩ 3 none) replacement).core.shards.Holds "fact" ↔
      "fact" ∈ (standalone
        (run ⟨64, 6, true, 0⟩ plainEncoder (.start ⟨64, 6, true, 0⟩ 3 none) replacement).generation.frames).ids ∨
      ∃ vector, Shows
        (run ⟨64, 6, true, 0⟩ plainEncoder (.start ⟨64, 6, true, 0⟩ 3 none) replacement).core.documents "fact" vector := by
  refine (shards_hold_owned _ plainEncoder 3 none _ (fun image found => by contradiction) ?_ "fact").1
  intro action member
  rcases mem_cons.mp member with rfl | member
  · exact forall_mem_cons.mpr
      ⟨(by decide : isChunk "fact" = false), forall_mem_singleton.mpr (named_oneChunk "a" "1" .encoded)⟩
  rcases mem_cons.mp member with rfl | member
  · intro mutation written
    rw [mem_singleton.mp written]
    exact named_oneChunk "a" "2" .pending
  rcases mem_cons.mp member with rfl | member
  · trivial
  rw [mem_singleton.mp member]
  trivial

end Warm.Engine
