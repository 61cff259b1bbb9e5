import Mathlib.Data.List.Induction
import Warm.RelationRemoval

/-! The graph as the program stores it: all relations by position, and indexes from a node or a type to
the positions of its relations. The indexes show what filtering all relations would. -/
namespace Warm

open List

def positions (key : Relation → String) (relations : List StoredRelation) (value : String) : List Nat :=
  (List.range relations.length).filter fun idx => relations[idx]?.any fun stored => key stored.relation = value

def Indexes (key : Relation → String) (relations : List StoredRelation) (index : Table String (List Nat)) : Prop :=
  ∀ value, index[value]?.getD [] = positions key relations value

def pushIndex (index : Table String (List Nat)) (value : String) (idx : Nat) : Table String (List Nat) :=
  index.insert value (index[value]?.getD [] ++ [idx])

variable {key : Relation → String} {relations : List StoredRelation} {value : String}

theorem positions_push (stored : StoredRelation) :
    positions key (relations ++ [stored]) value =
      positions key relations value ++ if key stored.relation = value then [relations.length] else [] := by
  have before : ∀ idx ∈ List.range relations.length, (relations ++ [stored])[idx]? = relations[idx]? :=
    fun idx inside => getElem?_append_left (mem_range.mp inside)
  rw [positions, length_append, length_singleton, range_succ, filter_append]
  refine congrArg₂ _ (filter_congr fun idx inside => by rw [before idx inside]) ?_
  rw [filter_singleton, getElem?_concat_length]
  by_cases own : key stored.relation = value <;> simp [own]

theorem mem_positions : idx ∈ positions key relations value ↔
    ∃ stored, relations[idx]? = some stored ∧ key stored.relation = value := by
  rw [positions, mem_filter, mem_range, Option.any_eq_true]
  constructor
  · rintro ⟨_, stored, found, own⟩
    exact ⟨stored, found, of_decide_eq_true own⟩
  · rintro ⟨stored, found, own⟩
    exact ⟨(List.getElem?_eq_some_iff.mp found).1, stored, found, decide_eq_true own⟩

theorem filterMap_positions (key : Relation → String) (relations : List StoredRelation) (value : String) :
    (positions key relations value).filterMap (relations[·]?) =
      relations.filter fun stored => key stored.relation = value := by
  induction relations using List.reverseRecOn with
  | nil => rfl
  | append_singleton relations stored ih =>
    rw [positions_push, filterMap_append, filter_append, ← ih]
    refine congrArg₂ _ (filterMap_congr fun idx member => ?_) ?_
    · obtain ⟨found, at_, _⟩ := mem_positions.mp member
      exact getElem?_append_left (List.getElem?_eq_some_iff.mp at_).1
    · rw [filter_singleton]
      by_cases own : key stored.relation = value <;> simp [own]

theorem positions_congr (same : others.map StoredRelation.relation = relations.map StoredRelation.relation) :
    positions key others value = positions key relations value := by
  have length : others.length = relations.length := by
    simpa only [length_map] using congrArg List.length same
  have at_ (idx : Nat) : (others[idx]?.any fun stored => key stored.relation = value) =
      relations[idx]?.any fun stored => key stored.relation = value := by
    have here := congrArg (fun list => list[idx]?.any fun relation => key relation = value) same
    simpa only [getElem?_map, Option.any_map] using here
  rw [positions, positions, length]
  exact filter_congr fun idx _ => at_ idx

theorem Indexes.push (indexed : Indexes key relations index) (relation : Relation) :
    Indexes key (relations ++ [⟨relation, false⟩]) (pushIndex index (key relation) relations.length) := by
  intro value
  rw [pushIndex, Table.getElem?_insert, positions_push, ← indexed value]
  by_cases own : value = key relation
  · subst own
    simp
  · simp [own, Ne.symm own]

/-- The store's indexes are those of its relations. -/
structure GraphStore where
  relations : List StoredRelation
  bySource : Table String (List Nat)
  byTarget : Table String (List Nat)
  byType : Table String (List Nat)
  types : Table String RelationType
  sources : Indexes Relation.sourceId relations bySource
  targets : Indexes Relation.targetId relations byTarget
  kinds : Indexes Relation.relationType relations byType

namespace GraphStore

variable {source relationType target : String}

def new : GraphStore := ⟨[], ∅, ∅, ∅, ∅, fun _ => by simp [positions], fun _ => by simp [positions], fun _ => by simp [positions]⟩

def declareType (store : GraphStore) (relationType : RelationType) : GraphStore :=
  { store with types := store.types.insert relationType.name relationType }

def add (store : GraphStore) (relation : Relation) : GraphStore × Nat :=
  ({ store with
    relations := store.relations ++ [⟨relation, false⟩]
    bySource := pushIndex store.bySource relation.sourceId store.relations.length
    byTarget := pushIndex store.byTarget relation.targetId store.relations.length
    byType := pushIndex store.byType relation.relationType store.relations.length
    sources := store.sources.push relation
    targets := store.targets.push relation
    kinds := store.kinds.push relation }, store.relations.length)

/-- Whether the relation at a position is live and of that type and target. -/
def matching (relations : List StoredRelation) (relationType target : String) (idx : Nat) : Bool :=
  relations[idx]?.any fun stored =>
    !stored.deleted && stored.relation.relationType = relationType && stored.relation.targetId = target

def delete (stored : StoredRelation) : StoredRelation := { stored with deleted := true }

theorem relation_modify (relations : List StoredRelation) (idx : Nat) :
    (relations.modify idx delete).map StoredRelation.relation = relations.map StoredRelation.relation := by
  refine ext_getElem? fun other => ?_
  rw [getElem?_map, getElem?_map, getElem?_modify]
  split <;> cases relations[other]? <;> rfl

/-- The store with the relation marked, and whether there was one. -/
def remove (store : GraphStore) (source relationType target : String) : GraphStore × Bool :=
  match (store.bySource[source]?.getD []).find? (matching store.relations relationType target) with
  | some idx =>
    ({ store with
      relations := store.relations.modify idx delete
      sources := fun value => (store.sources value).trans (positions_congr (relation_modify ..)).symm
      targets := fun value => (store.targets value).trans (positions_congr (relation_modify ..)).symm
      kinds := fun value => (store.kinds value).trans (positions_congr (relation_modify ..)).symm }, true)
  | none => (store, false)

/-- Relations listed under a node in an index that are valid at a time. Listed positions are in range. -/
def validRelations (store : GraphStore) (index : Table String (List Nat)) (node : String)
    (relationType : Option String) (atTime : F64) : List Relation :=
  (((index[node]?.getD []).filterMap (store.relations[·]?)).filter fun stored =>
    stored.isValidAt atTime && relationType.all (stored.relation.relationType = ·)).map StoredRelation.relation

def outgoing (store : GraphStore) (source : String) (relationType : Option String) (atTime : F64) : List Relation :=
  store.validRelations store.bySource source relationType atTime

def incoming (store : GraphStore) (target : String) (relationType : Option String) (atTime : F64) : List Relation :=
  store.validRelations store.byTarget target relationType atTime

def toRelationStore (store : GraphStore) : RelationStore := ⟨store.relations, store.types⟩

variable (store : GraphStore)

theorem toRelationStore_new : new.toRelationStore = RelationStore.empty := rfl

theorem toRelationStore_declareType (relationType : RelationType) :
    (store.declareType relationType).toRelationStore = store.toRelationStore.declareType relationType := rfl

theorem toRelationStore_add (relation : Relation) :
    (store.add relation).1.toRelationStore = store.toRelationStore.add relation := rfl

section

variable {index : Table String (List Nat)} (indexed : Indexes key store.relations index) {node : String}
include indexed

theorem mem_validRelations {relationType : Option String} {atTime : F64} {relation : Relation} :
    relation ∈ store.validRelations index node relationType atTime ↔
      ∃ stored ∈ store.relations, stored.relation = relation ∧ stored.isValidAt atTime = true ∧
        key relation = node ∧ ∀ rt ∈ relationType, relation.relationType = rt := by
  rw [validRelations, indexed, filterMap_positions, mem_map]
  constructor
  · rintro ⟨stored, listed, rfl⟩
    simp only [mem_filter, Bool.and_eq_true, decide_eq_true_eq, Option.all_eq_true_iff_get] at listed
    refine ⟨stored, listed.1.1, rfl, listed.2.1, listed.1.2, fun rt asked => ?_⟩
    cases asked
    simpa using listed.2.2
  · rintro ⟨stored, member, rfl, valid, own, typed⟩
    refine ⟨stored, mem_filter.mpr ⟨mem_filter.mpr ⟨member, decide_eq_true own⟩, ?_⟩, rfl⟩
    cases relationType with
    | none => simpa using valid
    | some rt => simpa [valid] using typed rt rfl

end

/-- What a scan of all relations finds at a node. -/
def scanned (store : RelationStore) (key : Relation → String) (node : String) (relationType : Option String)
    (atTime : F64) : List Relation :=
  (store.relations.filter fun stored => key stored.relation = node && stored.isValidAt atTime &&
    relationType.all (stored.relation.relationType = ·)).map StoredRelation.relation

theorem validRelations_eq {index : Table String (List Nat)} (indexed : Indexes key store.relations index) (node : String)
    (relationType : Option String) (atTime : F64) :
    store.validRelations index node relationType atTime = scanned store.toRelationStore key node relationType atTime := by
  rw [validRelations, indexed, filterMap_positions, filter_filter]
  refine congrArg _ (filter_congr fun stored _ => ?_)
  rw [Bool.and_comm, Bool.and_assoc]

theorem elim_find?_range (p : α → Bool) (change : α → α) (x : α) (items : List α) :
    ((List.range (x :: items).length).find? fun idx => (x :: items)[idx]?.any p).elim (x :: items)
        (fun idx => (x :: items).modify idx change) =
      if p x then change x :: items
      else x :: ((List.range items.length).find? fun idx => items[idx]?.any p).elim items
        fun idx => items.modify idx change := by
  rw [length_cons, range_succ_eq_map, find?_cons, find?_map]
  simp only [Function.comp_def, getElem?_cons_zero, getElem?_cons_succ, Option.any_some]
  cases own : p x with
  | true => rfl
  | false => cases (List.range items.length).find? fun idx => items[idx]?.any p <;> rfl

theorem find?_matching (relations : List StoredRelation) :
    (positions Relation.sourceId relations source).find? (matching relations relationType target) =
      (List.range relations.length).find? fun idx => relations[idx]?.any fun stored =>
        !stored.deleted && RelationStore.connects source relationType target stored.relation := by
  rw [positions, find?_filter]
  refine congrArg (List.find? · _) (funext fun idx => ?_)
  cases found : relations[idx]? with
  | none => simp
  | some stored =>
    simp only [matching, RelationStore.connects, found, Option.any_some]
    cases stored.deleted <;> simp [Bool.decide_and, Bool.and_assoc]

theorem modify_eq_markFirst (relations : List StoredRelation) :
    ((positions Relation.sourceId relations source).find? (matching relations relationType target)).elim relations
      (fun idx => relations.modify idx delete) = RelationStore.markFirst source relationType target relations := by
  rw [find?_matching]
  induction relations with
  | nil => rfl
  | cons stored rest ih =>
    rw [elim_find?_range, RelationStore.markFirst, ih]
    rfl

theorem toRelationStore_remove :
    (store.remove source relationType target).1.toRelationStore =
      store.toRelationStore.remove source relationType target := by
  have marked := @modify_eq_markFirst source relationType target store.relations
  rw [← store.sources] at marked
  rw [remove, RelationStore.remove, toRelationStore, toRelationStore, ← marked]
  cases (store.bySource[source]?.getD []).find? (matching store.relations relationType target) <;> rfl

theorem any_range (p : α → Bool) (items : List α) :
    ((List.range items.length).any fun idx => items[idx]?.any p) = items.any p := by
  rw [Bool.eq_iff_iff, any_eq_true, any_eq_true]
  constructor
  · rintro ⟨idx, _, live⟩
    obtain ⟨item, found, own⟩ := (Option.any_eq_true ..).mp live
    exact ⟨item, mem_of_getElem? found, own⟩
  · rintro ⟨item, member, own⟩
    obtain ⟨idx, inside, rfl⟩ := getElem_of_mem member
    exact ⟨idx, mem_range.mpr inside, by rwa [getElem?_eq_getElem inside]⟩

theorem remove_found :
    (store.remove source relationType target).2 =
      store.relations.any fun stored => !stored.deleted && RelationStore.connects source relationType target stored.relation := by
  rw [← any_range, ← isSome_find?, ← find?_matching, ← store.sources, remove]
  cases (store.bySource[source]?.getD []).find? (matching store.relations relationType target) <;> rfl

inductive Change where
  | declareType (relationType : RelationType)
  | add (relation : Relation)
  | remove (source relationType target : String)

def change (store : GraphStore) : Change → GraphStore
  | .declareType relationType => store.declareType relationType
  | .add relation => (store.add relation).1
  | .remove source relationType target => (store.remove source relationType target).1

/-- The change to a list of relations without indexes. -/
def changePlain (store : RelationStore) : Change → RelationStore
  | .declareType relationType => store.declareType relationType
  | .add relation => store.add relation
  | .remove source relationType target => store.remove source relationType target

theorem toRelationStore_change (change : Change) :
    (store.change change).toRelationStore = changePlain store.toRelationStore change := by
  cases change with
  | declareType relationType => exact store.toRelationStore_declareType relationType
  | add relation => exact store.toRelationStore_add relation
  | remove source relationType target => exact store.toRelationStore_remove

theorem toRelationStore_foldl (changes : List Change) :
    (changes.foldl change store).toRelationStore = changes.foldl changePlain store.toRelationStore := by
  induction changes generalizing store with
  | nil => rfl
  | cons next changes ih => rw [foldl_cons, foldl_cons, ih, toRelationStore_change]

/-- After any changes the indexes answer as scans of the plain list do, and a removal finds a live relation exactly
when there is one. -/
theorem indexed_as_plain (changes : List Change) :
    (changes.foldl change new).toRelationStore = changes.foldl changePlain .empty ∧
      (∀ node relationType atTime, (changes.foldl change new).outgoing node relationType atTime =
          scanned (changes.foldl changePlain .empty) Relation.sourceId node relationType atTime ∧
        (changes.foldl change new).incoming node relationType atTime =
          scanned (changes.foldl changePlain .empty) Relation.targetId node relationType atTime) ∧
      ∀ source relationType target, ((changes.foldl change new).remove source relationType target).2 =
        (changes.foldl changePlain .empty).relations.any fun stored =>
          !stored.deleted && RelationStore.connects source relationType target stored.relation := by
  have same : (changes.foldl change new).toRelationStore = changes.foldl changePlain .empty := toRelationStore_foldl new changes
  rw [← same]
  exact ⟨rfl, fun node relationType atTime => ⟨validRelations_eq _ (changes.foldl change new).sources node relationType atTime,
    validRelations_eq _ (changes.foldl change new).targets node relationType atTime⟩, fun _ _ _ => remove_found _⟩

end GraphStore

end Warm
