import Warm.DocumentOverlay

/-! Reading the documents of a store: by id, in id order and by number. Over a checkpoint the live
documents of the checkpoint are merged with the store's own, and together they are a plain map of
what was put and removed. -/
namespace Warm

open List hiding after count insert_eq map

structure DocumentInfo where
  id : String
  sourceUri : Option String
  version : String
  metadata : Json
  chunkCount : Nat
  deriving DecidableEq

def info (document : StoredDocument) : DocumentInfo :=
  ⟨document.id, document.sourceUri, document.version, document.metadata, document.chunks.length⟩

namespace Base

/-- Every dead document is one of the checkpoint and was marked once. -/
def Marked (base : Base) : Prop := base.dead.Nodup ∧ ∀ id ∈ base.dead, (base.image.find id).isSome = true

/-- `document_total() - dead_document_count`. -/
def liveDocuments (base : Base) : Nat := base.image.documents.length - base.dead.length

def liveValues (base : Base) : List StoredDocument :=
  (base.image.documents.map Prod.fst).filter fun document => document.id ∉ base.dead

theorem Marked.kill {base : Base} (marked : base.Marked) (id : String) : (base.kill id).Marked := by
  rw [Base.kill]
  split
  next alive =>
    have fresh : id ∉ base.dead := by
      intro dead
      simp [live, dead] at alive
    refine ⟨nodup_cons.mpr ⟨fresh, marked.1⟩, ?_⟩
    intro other member
    rcases mem_cons.mp member with rfl | old
    · simpa [live, fresh] using alive
    · exact marked.2 other old
  next => exact marked

theorem Marked.length_liveValues {base : Base} (marked : base.Marked) :
    base.liveValues.length = base.liveDocuments := by
  have ids : base.liveValues.map StoredDocument.id =
      (base.image.documents.map fun entry => entry.1.id).filter fun id => id ∉ base.dead := by
    rw [liveValues, filter_map, filter_map, map_map]
    rfl
  have dead : ((base.image.documents.map fun entry => entry.1.id).filter fun id => id ∈ base.dead).Perm base.dead := by
    rw [perm_ext_iff_of_nodup (base.image.distinct.filter _) marked.1]
    intro id
    rw [mem_filter, decide_eq_true_eq]
    refine ⟨And.right, fun member => ⟨?_, member⟩⟩
    obtain ⟨document, found⟩ := Option.isSome_iff_exists.mp (marked.2 id member)
    obtain ⟨entry, listed, _⟩ := Option.map_eq_some_iff.mp found
    obtain ⟨inside, own⟩ := (find?_key_eq_some base.image.distinct id entry).mp listed
    exact mem_map.mpr ⟨entry, inside, own⟩
  have split := (filter_append_perm (fun id => decide (id ∈ base.dead))
    (base.image.documents.map fun entry => entry.1.id)).length_eq
  have live := congrArg List.length ids
  simp only [← decide_not] at split
  rw [length_append, dead.length_eq, ← live, length_map, length_map] at split
  rw [liveDocuments, ← split, Nat.add_sub_cancel_left]

end Base

namespace DocumentStore

def getInfo (store : DocumentStore) (id : String) : Option DocumentInfo :=
  match store.get id with
  | some document => some (info document)
  | none => (store.base.bind (·.live id)).map info

/-- The loop of `list_info` over the checkpoint's live documents and the store's own, which must not
have an id in common. -/
def mergeListing : Nat → List StoredDocument → List StoredDocument → Option (List DocumentInfo)
  | 0, _, _ => some []
  | _ + 1, [], [] => some []
  | limit + 1, [], own :: live => (mergeListing limit [] live).map (info own :: ·)
  | limit + 1, document :: checkpoint, [] => (mergeListing limit checkpoint []).map (info document :: ·)
  | limit + 1, document :: checkpoint, own :: live =>
    if document.id < own.id then (mergeListing limit checkpoint (own :: live)).map (info document :: ·)
    else if document.id = own.id then none
    else (mergeListing limit (document :: checkpoint) live).map (info own :: ·)

def startingAt (start : Option String) (documents : List StoredDocument) : List StoredDocument :=
  documents.filter fun document => start.all fun id => decide (id ≤ document.id)

def listInfo (store : DocumentStore) (start : Option String) (limit : Nat) : Option (List DocumentInfo) :=
  match store.base with
  | none => some (((startingAt start (values store.documents)).take limit).map info)
  | some base => mergeListing limit (startingAt start base.liveValues) (startingAt start (values store.documents))

def count (store : DocumentStore) : Nat :=
  store.documents.size + (store.base.map Base.liveDocuments).getD 0

/-- `hydrate_documents` on the store: from the checkpoint, its dead ids and the documents written
since. -/
def hydrated (store : DocumentStore) : DocumentStore :=
  match store.base with
  | some base => store.hydrate base
  | none => store

inductive Operation where
  | insertBatch (documents : List StoredDocument)
  | remove (id : String)
  | hydrate

def operate (store : DocumentStore) : Operation → DocumentStore
  | .insertBatch documents => store.insertBatch documents
  | .remove id => (store.remove id).1
  | .hydrate => store.hydrated

def Operation.onMap (map : Table String StoredDocument) : Operation → Table String StoredDocument
  | .insertBatch documents => documents.foldl (fun map document => map.insert document.id document) map
  | .remove id => map.erase id
  | .hydrate => map

def imageMap (image : ServingImage) : Table String StoredDocument :=
  image.documents.foldl (fun map entry => map.insert entry.1.id entry.1) ∅

/-- The operation does not make a store over a checkpoint index itself anew. -/
def Operation.Calm (store : DocumentStore) : Operation → Prop
  | .insertBatch documents => store.base = none ∨
      (documents.foldlM (fun (table : SlotTable) (document : StoredDocument) =>
        table.put document.id document.chunks.length) store.table).isSome = true
  | .remove id => store.base = none ∨ (store.table.drop id).isSome = true
  | .hydrate => True

/-- Every operation of the sequence is calm in the store it finds. -/
def CalmOperations (store : DocumentStore) : List Operation → Prop
  | [] => True
  | operation :: operations => operation.Calm store ∧ CalmOperations (store.operate operation) operations

/-- The store is a plain map in a valid layout. -/
structure Shows (store : DocumentStore) (map : Table String StoredDocument) : Prop where
  valid : Valid store
  marked : ∀ base, store.base = some base → base.Marked
  view : ∀ id, store.view id = map[id]?

section

variable {store : DocumentStore} (marked : ∀ base, store.base = some base → base.Marked)
include marked

theorem marked_remove (id : String) :
    ∀ base, (store.remove id).1.base = some base → base.Marked := by
  intro base atop
  rcases base_remove_cases store id with lost | kept | killed
  · rw [lost] at atop
    contradiction
  · exact marked base (kept ▸ atop)
  · rw [killed] at atop
    obtain ⟨old, found, rfl⟩ := Option.map_eq_some_iff.mp atop
    exact (marked old found).kill id

theorem marked_insert
    (document : StoredDocument) : ∀ base, (store.insert document).base = some base → base.Marked := by
  intro base atop
  obtain ⟨old, found, rfl⟩ := killed_of_insert atop
  exact (marked old found).kill document.id

end

theorem Shows.insert {map : Table String StoredDocument} (shows : Shows store map) (document : StoredDocument)
    (kept : store.base = none ∨ (store.table.put document.id document.chunks.length).isSome = true) :
    Shows (store.insert document) (map.insert document.id document) where
  valid := shows.valid.insert document
  marked := marked_insert shows.marked document
  view id := by rw [view_insert shows.valid document kept, Table.getElem?_insert, shows.view]

theorem Shows.insertBatch (shows : Shows store map) (documents : List StoredDocument)
    (calm : (Operation.insertBatch documents).Calm store) :
    Shows (store.insertBatch documents) ((Operation.insertBatch documents).onMap map) := by
  rw [insertBatch_eq, Operation.onMap]
  induction documents generalizing store map with
  | nil => exact shows
  | cons document documents ih =>
    rw [foldl_cons, foldl_cons]
    rcases calm with bare | placed
    · exact ih (shows.insert document (.inl bare)) (.inl (base_insert bare document))
    · rw [foldlM_cons] at placed
      cases first : store.table.put document.id document.chunks.length with
      | none =>
        rw [first] at placed
        contradiction
      | some table =>
        rw [first] at placed
        refine ih (shows.insert document (.inr (by rw [first]; rfl))) (.inr ?_)
        rw [insert_of_put shows.valid.sized document first]
        exact placed

theorem Shows.operate {map : Table String StoredDocument} (shows : Shows store map) (operation : Operation)
    (calm : operation.Calm store) : Shows (store.operate operation) (operation.onMap map) := by
  cases operation with
  | insertBatch documents => exact shows.insertBatch documents calm
  | remove id =>
    refine ⟨shows.valid.remove id, marked_remove shows.marked id, ?_⟩
    intro a
    rw [DocumentStore.operate, view_remove shows.valid id calm, Operation.onMap, Table.getElem?_erase, shows.view]
  | hydrate =>
    rw [DocumentStore.operate, hydrated]
    cases atop : store.base with
    | none => exact shows
    | some base =>
      refine ⟨valid_hydrate store base, ?_, ?_⟩
      · intro other shown
        rw [base_hydrate] at shown
        contradiction
      · intro a
        rw [view_hydrate shows.valid.keyed atop]
        exact shows.view a

theorem Shows.run (shows : Shows store map) (calm : CalmOperations store operations) :
    Shows (operations.foldl DocumentStore.operate store) (operations.foldl Operation.onMap map) := by
  induction operations generalizing store map with
  | nil => exact shows
  | cons operation operations ih => exact ih (shows.operate operation calm.1) calm.2

theorem getElem?_imageMap (image : ServingImage) (id : String) : (imageMap image)[id]? = image.find id := by
  have found := Table.getElem?_foldl_insert (fun entry : StoredDocument × List Nat => entry.1.id)
    Prod.fst image.distinct ∅ id
  exact found.trans (by simp [ServingImage.find])

theorem shows_over (image : ServingImage) : Shows (DocumentStore.over image) (imageMap image) where
  valid := valid_over image
  marked base shown := by
    obtain rfl := Option.some.inj shown
    exact ⟨nodup_nil, by simp⟩
  view id := by
    have own : (DocumentStore.over image).get id = none := get_empty id
    rw [DocumentStore.view, own, getElem?_imageMap, Option.none_or]
    rfl

section Listing

variable {store : DocumentStore} {map : Table String StoredDocument}

theorem lt_of_compare {a b : String} (before : compare a b = .lt) : a < b := by
  change compareOfLessAndEq a b = .lt at before
  rw [compareOfLessAndEq] at before
  split at before
  · assumption
  · split at before <;> contradiction

theorem values_ordered {documents : Table String StoredDocument} (keyed : Keyed documents) :
    (values documents).Pairwise fun a b => a.id < b.id := by
  rw [values, pairwise_map]
  refine Std.ExtTreeMap.ordered_keys_toList.imp_of_mem ?_
  rintro ⟨id, document⟩ ⟨other, later⟩ member member' before
  rw [keyed id document ((Table.mem_toList documents id document).mp member),
    keyed other later ((Table.mem_toList documents other later).mp member')]
  exact lt_of_compare before

theorem liveValues_ordered (base : Base) : base.liveValues.Pairwise fun a b => a.id < b.id := by
  rw [Base.liveValues]
  apply List.Pairwise.filter
  rw [pairwise_map]
  exact pairwise_map.mp base.image.ordered

theorem mem_liveValues (base : Base) (document : StoredDocument) :
    document ∈ base.liveValues ↔ base.live document.id = some document := by
  rw [Base.liveValues, mem_filter, decide_eq_true_eq, Base.live]
  by_cases dead : document.id ∈ base.dead
  · simp [dead]
  · rw [if_neg dead, ServingImage.find, Option.map_eq_some_iff, mem_map]
    constructor
    · rintro ⟨⟨entry, member, rfl⟩, _⟩
      exact ⟨entry, (find?_key_eq_some base.image.distinct _ entry).mpr ⟨member, rfl⟩, rfl⟩
    · rintro ⟨entry, found, rfl⟩
      exact ⟨⟨entry, ((find?_key_eq_some base.image.distinct _ entry).mp found).1, rfl⟩, dead⟩

theorem Shows.keyed (shows : Shows store map) : Keyed map := by
  intro id document found
  rw [← shows.view] at found
  rcases Option.or_eq_some_iff.mp found with own | ⟨_, under⟩
  · exact shows.valid.keyed id document own
  · obtain ⟨base, _, alive⟩ := Option.bind_eq_some_iff.mp under
    rw [Base.live] at alive
    split at alive
    · contradiction
    · obtain ⟨entry, listed, rfl⟩ := Option.map_eq_some_iff.mp alive
      have own := find?_some listed
      exact of_decide_eq_true own

theorem Shows.perm (shows : Shows store map) {base : Base} (atop : store.base = some base) :
    (base.liveValues ++ values store.documents).Perm (values map) := by
  have distinct {documents : List StoredDocument} (ordered : documents.Pairwise fun a b => a.id < b.id) :
      documents.Nodup := ordered.imp fun before same => absurd (same ▸ before) (lt_irrefl _)
  rw [perm_ext_iff_of_nodup _ (distinct (values_ordered shows.keyed))]
  · intro document
    have shown := shows.view document.id
    rw [mem_append, mem_liveValues, mem_values shows.valid.keyed, mem_values shows.keyed, ← shown,
      DocumentStore.view, atop, Option.bind_some]
    constructor
    · rintro (alive | own)
      · have hidden : store.get document.id = none := by
          cases stored : store.get document.id with
          | none => rfl
          | some other =>
            have shadow := shows.valid.shadowed document.id base (by rw [stored]; rfl) atop
            rw [shadow] at alive
            contradiction
        rw [hidden, Option.none_or, alive]
      · have stored : store.get document.id = some document := own
        rw [stored, Option.some_or]
    · intro found
      rcases Option.or_eq_some_iff.mp found with own | ⟨_, alive⟩
      · exact .inr own
      · exact .inl alive
  · rw [nodup_append]
    refine ⟨distinct (liveValues_ordered base), distinct (values_ordered shows.valid.keyed), ?_⟩
    rintro document alive other own rfl
    have stored : store.get document.id = some document := (mem_values shows.valid.keyed document).mp own
    have shadow := shows.valid.shadowed document.id base (by rw [stored]; rfl) atop
    rw [(mem_liveValues base document).mp alive] at shadow
    contradiction

theorem mergeListing_eq (limit : Nat) (checkpoint live : List StoredDocument)
    (apart : ∀ document ∈ checkpoint, ∀ own ∈ live, document.id ≠ own.id) :
    mergeListing limit checkpoint live =
      some (((checkpoint.merge live fun a b => decide (a.id ≤ b.id)).take limit).map info) := by
  fun_induction mergeListing limit checkpoint live with
  | case1 => rfl
  | case2 => simp
  | case3 limit own live ih => simp [ih (by simp)]
  | case4 limit document checkpoint ih => simp [ih (by simp)]
  | case5 limit document checkpoint own live before ih =>
    rw [ih fun a member b member' => apart a (mem_cons_of_mem _ member) b member', cons_merge_cons,
      if_pos (decide_eq_true before.le)]
    rfl
  | case6 limit document checkpoint own live _ same =>
    exact absurd same (apart document mem_cons_self own mem_cons_self)
  | case7 limit document checkpoint own live later other ih =>
    have after : ¬document.id ≤ own.id := fun le => other (le_antisymm le (not_lt.mp later))
    rw [ih fun a member b member' => apart a member b (mem_cons_of_mem _ member'), cons_merge_cons,
      if_neg (by simpa using after)]
    rfl

theorem startingAt_append (start : Option String) (front back : List StoredDocument) :
    startingAt start (front ++ back) = startingAt start front ++ startingAt start back := filter_append ..

theorem Shows.documents_eq (shows : Shows store map) (bare : store.base = none) : store.documents = map := by
  apply Std.ExtTreeMap.ext_getElem?
  intro id
  rw [← shows.view, view_of_bare bare]
  rfl

theorem Shows.listInfo_eq (shows : Shows store map) (start : Option String) (limit : Nat) :
    store.listInfo start limit = some (((startingAt start (values map)).take limit).map info) := by
  rw [listInfo]
  cases atop : store.base with
  | none => rw [shows.documents_eq atop]
  | some base =>
    have apart : ∀ document ∈ startingAt start base.liveValues, ∀ own ∈ startingAt start (values store.documents),
        document.id ≠ own.id := by
      intro document alive own stored same
      have hidden := (mem_liveValues base document).mp (mem_of_mem_filter alive)
      have kept : store.get own.id = some own := (mem_values shows.valid.keyed own).mp (mem_of_mem_filter stored)
      rw [same, shows.valid.shadowed own.id base (by rw [kept]; rfl) atop] at hidden
      contradiction
    have sorted {documents : List StoredDocument} (ordered : documents.Pairwise fun a b => a.id < b.id) :
        (startingAt start documents).Pairwise fun a b => decide (a.id ≤ b.id) = true :=
      (ordered.filter _).imp fun before => decide_eq_true before.le
    dsimp only
    rw [mergeListing_eq _ _ _ apart]
    generalize listing : (startingAt start base.liveValues).merge (startingAt start (values store.documents))
      (fun a b => decide (a.id ≤ b.id)) = merged
    have perm : merged.Perm (startingAt start (values map)) := by
      have both : merged.Perm (startingAt start base.liveValues ++ startingAt start (values store.documents)) := by
        rw [← listing]
        exact merge_perm_append _
      rw [← startingAt_append] at both
      exact both.trans ((shows.perm atop).filter _)
    have ordered : merged.Pairwise fun a b => decide (a.id ≤ b.id) = true := by
      rw [← listing]
      apply pairwise_merge
      · intro a b c first second
        exact decide_eq_true (le_trans (of_decide_eq_true first) (of_decide_eq_true second))
      · intro a b
        rw [Bool.or_eq_true, decide_eq_true_eq, decide_eq_true_eq]
        exact le_total a.id b.id
      · exact sorted (liveValues_ordered base)
      · exact sorted (values_ordered shows.valid.keyed)
    have unique : ∀ a b, a ∈ merged → b ∈ startingAt start (values map) → decide (a.id ≤ b.id) = true →
        decide (b.id ≤ a.id) = true → a = b := by
      intro a b member member' before after
      have listed := mem_of_mem_filter member'
      have other := mem_of_mem_filter (perm.subset member)
      have same : a.id = b.id := le_antisymm (of_decide_eq_true before) (of_decide_eq_true after)
      rw [mem_values shows.keyed] at listed other
      rw [same, listed] at other
      exact (Option.some.inj other).symm
    rw [List.Perm.eq_of_pairwise unique ordered (sorted (values_ordered shows.keyed)) perm]

theorem Shows.count_eq (shows : Shows store map) : store.count = map.size := by
  have total (documents : Table String StoredDocument) : (values documents).length = documents.size := by
    rw [values, length_map, Std.ExtTreeMap.length_toList]
  rw [count]
  cases atop : store.base with
  | none => rw [shows.documents_eq atop]; rfl
  | some base =>
    have lengths := (shows.perm atop).length_eq
    rw [length_append, total, total, (shows.marked base atop).length_liveValues] at lengths
    rw [Option.map_some, Option.getD_some, Nat.add_comm, lengths]

theorem Shows.hydrated_eq (shows : Shows store map) : store.hydrated.documents = map := by
  rw [hydrated]
  cases atop : store.base with
  | none => exact shows.documents_eq atop
  | some base =>
    apply Std.ExtTreeMap.ext_getElem?
    intro id
    rw [← shows.view]
    exact get_hydrate shows.valid.keyed atop id

end Listing

/-- What readers of the store see is the plain map. -/
structure Agrees (store : DocumentStore) (map : Table String StoredDocument) : Prop where
  containsKey : ∀ id, store.containsKey id = (map[id]?).isSome
  getInfo : ∀ id, store.getInfo id = (map[id]?).map info
  listInfo : ∀ start limit, store.listInfo start limit = some (((startingAt start (values map)).take limit).map info)
  count : store.count = map.size
  hydrated : store.hydrated.documents = map

theorem Shows.agrees (shows : Shows store map) :
    Agrees store map where
  containsKey id := by
    rw [← shows.view, DocumentStore.containsKey, DocumentStore.view, Option.isSome_or]
  getInfo id := by
    rw [← shows.view, DocumentStore.getInfo, DocumentStore.view]
    cases store.get id <;> rfl
  listInfo := shows.listInfo_eq
  count := shows.count_eq
  hydrated := shows.hydrated_eq

/-- A store over a checkpoint is a plain map through every sequence of writes, removals and
rebuilds in which it does not index itself anew over the checkpoint. -/
theorem agrees_run (image : ServingImage) (operations : List Operation)
    (calm : CalmOperations (DocumentStore.over image) operations) :
    Agrees (operations.foldl operate (DocumentStore.over image)) (operations.foldl Operation.onMap (imageMap image)) :=
  ((shows_over image).run calm).agrees

def lexicalDocument (id : String) (chunks : Nat) : StoredDocument :=
  ⟨id, none, "1", ⟨[]⟩, (List.range chunks).map fun i =>
    ⟨chunkId id i, some "x", UInt32.ofNat i, UInt32.ofNat (i + 1), ⟨64, []⟩, none, ⟨[], none, List.Pairwise.nil, rfl⟩, 0,
      false, .lexical⟩⟩

def oneImage (id : String) : ServingImage where
  documents := [(lexicalDocument id 1, [0])]
  slotCount := 1
  ordered := pairwise_singleton ..
  sized := by simp [lexicalDocument]
  lexical := by
    intro entry member chunk inside
    rw [mem_singleton.mp member] at inside
    obtain ⟨i, _, rfl⟩ := mem_map.mp inside
    rfl

theorem put_of_new {table : SlotTable} {id : String} (fresh : table.slots[id]? = none) (chunks : Nat) :
    table.put id chunks = some (table.allocate id chunks) := by
  rw [SlotTable.put, fresh]

theorem length_lexicalDocument (id : String) (chunks : Nat) : (lexicalDocument id chunks).chunks.length = chunks := by
  simp [lexicalDocument]

/-- A write that replaces the checkpoint's document, and a rebuild. -/
theorem agrees_run_replaced :
    Agrees ([.insertBatch [lexicalDocument "keep" 3], .hydrate, .remove "keep"].foldl operate (DocumentStore.over (oneImage "keep")))
      ([.insertBatch [lexicalDocument "keep" 3], .hydrate, .remove "keep"].foldl Operation.onMap
        (imageMap (oneImage "keep"))) := by
  have written : ((DocumentStore.over (oneImage "keep")).table.put "keep" (lexicalDocument "keep" 3).chunks.length).isSome = true := by
    rw [put_of_new (by simp [DocumentStore.over, empty, SlotTable.empty])]
    rfl
  refine agrees_run _ _ ⟨.inr ?_, trivial, .inl ?_, trivial⟩
  · rw [foldlM_cons]
    obtain ⟨table, placed⟩ := Option.isSome_iff_exists.mp written
    change ((DocumentStore.over (oneImage "keep")).table.put "keep" _ >>= _).isSome = true
    rw [placed]
    rfl
  · change (hydrated _).base = none
    rw [hydrated]
    split
    next base atop => exact base_hydrate _ base
    next bare => exact bare

theorem perm_freed (slots free : List Nat) :
    (slots.foldl (fun free slot => free.orderedInsert (· ≤ ·) slot) free).Perm (slots ++ free) := by
  induction slots generalizing free with
  | nil => exact List.Perm.refl _
  | cons slot slots ih =>
    rw [foldl_cons]
    refine (ih _).trans ?_
    exact ((perm_orderedInsert _ slot free).append_left slots).trans perm_middle

theorem allocate_bare (slots : Table String (List Nat)) (slotCount : Nat) (id : String) (chunks : Nat) :
    (⟨slots, slotCount, []⟩ : SlotTable).allocate id chunks =
      ⟨slots.insert id (List.range' slotCount chunks), slotCount + chunks, []⟩ := by
  rw [SlotTable.allocate, SlotTable.takeSlots_nil]

theorem drop_sparse (chunks : Nat) (large : 1024 ≤ chunks) :
    ((SlotTable.empty.allocate "a" chunks).allocate "b" 1).drop "a" = none := by
  rw [SlotTable.empty, allocate_bare, allocate_bare]
  generalize shape : ((∅ : Table String (List Nat)).insert "a" (List.range' 0 chunks)).insert "b"
    (List.range' (0 + chunks) 1) = slots
  have own : slots["a"]? = some (List.range' 0 chunks) := by
    rw [← shape, Table.getElem?_insert, if_neg (by decide), Table.getElem?_insert, if_pos rfl]
  rw [SlotTable.drop, own]
  rw [if_pos]
  have freed := perm_freed (List.range' 0 chunks) []
  rw [append_nil] at freed
  rw [SlotTable.release, own, Option.getD_some]
  generalize (List.range' 0 chunks).foldl (fun free slot => free.orderedInsert (· ≤ ·) slot) [] = free at freed
  have last : 0 + chunks ∉ free := by
    rw [freed.mem_iff, mem_range']
    omega
  have kept : SlotTable.trim (0 + chunks + 1) free = (0 + chunks + 1, free) := by
    rw [SlotTable.trim, if_neg last]
  rw [kept, SlotTable.sparse, Bool.and_eq_true, decide_eq_true_eq, decide_eq_true_eq]
  dsimp only
  rw [freed.length_eq, length_range']
  omega

theorem view_reset (image : ServingImage) (chunks : Nat) (large : 1024 ≤ chunks) (id : String) (other : id ≠ "b") :
    (((((DocumentStore.over image).insert (lexicalDocument "a" chunks)).insert (lexicalDocument "b" 1)).remove "a").1).view id =
      none := by
  have valid := (valid_over image).insert (lexicalDocument "a" chunks)
  have first := insert_of_put (valid_over image).sized (lexicalDocument "a" chunks)
    (put_of_new (by simp [DocumentStore.over, empty, SlotTable.empty]) _)
  have table : ((DocumentStore.over image).insert (lexicalDocument "a" chunks)).table = SlotTable.empty.allocate "a" chunks := by
    rw [first, length_lexicalDocument]
    rfl
  have fresh : ((DocumentStore.over image).insert (lexicalDocument "a" chunks)).table.slots["b"]? = none := by
    have sized := valid.sized "b"
    rw [get_insert _ (valid_over image).keyed, if_neg (by simp [lexicalDocument])] at sized
    exact Option.map_eq_none_iff.mp sized
  have second := insert_of_put valid.sized (lexicalDocument "b" 1) (put_of_new fresh _)
  have both : (((DocumentStore.over image).insert (lexicalDocument "a" chunks)).insert (lexicalDocument "b" 1)).table =
      (SlotTable.empty.allocate "a" chunks).allocate "b" 1 := by
    rw [second, table]
    rfl
  have stored := valid.insert (lexicalDocument "b" 1)
  have reset := remove_of_sparse stored.sized "a" (by rw [both, drop_sparse chunks large])
  have bare : ((((DocumentStore.over image).insert (lexicalDocument "a" chunks)).insert (lexicalDocument "b" 1)).remove "a").1.base =
      none := by
    rw [reset]
    exact base_installNew ..
  rw [view_of_bare bare, get_remove _ stored.keyed, get_insert _ valid.keyed, get_insert _ (valid_over image).keyed]
  have own : (DocumentStore.over image).get id = none := get_empty id
  by_cases large : id = "a" <;> simp [large, other, own, lexicalDocument]

theorem not_agrees_reset (chunks : Nat) (large : 1024 ≤ chunks) :
    ¬Agrees ([.insertBatch [lexicalDocument "a" chunks], .insertBatch [lexicalDocument "b" 1], .remove "a"].foldl operate
        (DocumentStore.over (oneImage "keep")))
      ([.insertBatch [lexicalDocument "a" chunks], .insertBatch [lexicalDocument "b" 1], .remove "a"].foldl Operation.onMap
        (imageMap (oneImage "keep"))) := by
  intro agrees
  have kept := agrees.containsKey "keep"
  have lost := view_reset (oneImage "keep") chunks large "keep" (by decide)
  have mapped : ([.insertBatch [lexicalDocument "a" chunks], .insertBatch [lexicalDocument "b" 1],
      .remove "a"].foldl Operation.onMap (imageMap (oneImage "keep")))["keep"]? = some (lexicalDocument "keep" 1) := by
    simp only [foldl_cons, foldl_nil, Operation.onMap, Table.getElem?_erase, Table.getElem?_insert,
      getElem?_imageMap]
    rfl
  rw [mapped, containsKey, ← Option.isSome_or] at kept
  change ((((((DocumentStore.over (oneImage "keep")).insert (lexicalDocument "a" chunks)).insert (lexicalDocument "b" 1)).remove
    "a").1).view "keep").isSome = true at kept
  rw [lost] at kept
  contradiction

theorem agrees_run_reset :
    ¬Agrees ([.insertBatch [lexicalDocument "a" 1024], .insertBatch [lexicalDocument "b" 1], .remove "a"].foldl operate
        (DocumentStore.over (oneImage "keep")))
      ([.insertBatch [lexicalDocument "a" 1024], .insertBatch [lexicalDocument "b" 1], .remove "a"].foldl Operation.onMap
        (imageMap (oneImage "keep"))) :=
  not_agrees_reset 1024 le_rfl

end DocumentStore

end Warm
