import Warm.Mutation

/-! The meaning memory and the relation graph: named vectors with tombstones, triples, composition
rules and typed relations. Entries are marked deleted and keep their places; what a store shows is
its live entries. Index maps from a field to positions are scans of the entries here. -/
namespace Warm

open List

structure MemorySlot where
  id : String
  vector : VectorRecord
  deleted : Bool
  deriving DecidableEq, Repr

/-- The atoms or the composites: one slot an id, a deleted one is reused when its id returns. -/
structure IndexedMemory where
  slots : List MemorySlot
  distinct : (slots.map MemorySlot.id).Nodup

namespace IndexedMemory

def empty : IndexedMemory := ⟨[], nodup_nil⟩

/-- A change of the slot of `id` that keeps its id. -/
def update (memory : IndexedMemory) (id : String) (vector : MemorySlot → VectorRecord) (deleted : Bool) :
    IndexedMemory where
  slots := memory.slots.map fun slot => if slot.id = id then ⟨slot.id, vector slot, deleted⟩ else slot
  distinct := by
    have ids : (memory.slots.map fun slot => if slot.id = id then ⟨slot.id, vector slot, deleted⟩ else slot).map
        MemorySlot.id = memory.slots.map MemorySlot.id := by
      rw [map_map]
      apply map_congr_left
      intro slot _
      simp only [Function.comp_apply]
      split <;> rfl
    rw [ids]
    exact memory.distinct

def insert (memory : IndexedMemory) (id : String) (vector : VectorRecord) : IndexedMemory :=
  if fresh : id ∉ memory.slots.map MemorySlot.id then
    ⟨memory.slots ++ [⟨id, vector, false⟩], by
      rw [map_append, nodup_append]
      refine ⟨memory.distinct, nodup_singleton _, ?_⟩
      intro a old b new same
      rw [map_singleton, mem_singleton] at new
      rw [same, new] at old
      exact fresh old⟩
  else memory.update id (fun _ => vector) false

def delete (memory : IndexedMemory) (id : String) : IndexedMemory := memory.update id MemorySlot.vector true

def get (memory : IndexedMemory) (id : String) : Option VectorRecord :=
  (memory.slots.find? fun slot => slot.id = id && !slot.deleted).map MemorySlot.vector

/-- The live entries in slot order. -/
def allVectors (memory : IndexedMemory) : List (String × VectorRecord) :=
  (memory.slots.filter fun slot => !slot.deleted).map fun slot => (slot.id, slot.vector)

@[simp] theorem get_empty (id : String) : empty.get id = none := rfl

section

variable (memory : IndexedMemory)
include memory

theorem get_eq_some (id : String) (vector : VectorRecord) :
    memory.get id = some vector ↔ (⟨id, vector, false⟩ : MemorySlot) ∈ memory.slots := by
  rw [get, Option.map_eq_some_iff]
  constructor
  · rintro ⟨slot, found, rfl⟩
    have shown := find?_some found
    simp only [Bool.and_eq_true, decide_eq_true_eq, Bool.not_eq_true'] at shown
    obtain ⟨rfl, live⟩ := shown
    rw [← live]
    exact mem_of_find?_eq_some found
  · intro member
    cases found : memory.slots.find? fun slot => slot.id = id && !slot.deleted with
    | none =>
      have absent := find?_eq_none.mp found _ member
      simp at absent
    | some slot =>
      have shown := find?_some found
      simp only [Bool.and_eq_true, decide_eq_true_eq, Bool.not_eq_true'] at shown
      have same : slot = ⟨id, vector, false⟩ :=
        inj_on_of_nodup_map memory.distinct (mem_of_find?_eq_some found) member shown.1
      exact ⟨slot, rfl, by rw [same]⟩

theorem mem_allVectors (id : String) (vector : VectorRecord) :
    (id, vector) ∈ memory.allVectors ↔ memory.get id = some vector := by
  rw [get_eq_some, allVectors, mem_map]
  constructor
  · rintro ⟨⟨_, _, deleted⟩, member, same⟩
    obtain ⟨rfl, rfl⟩ := Prod.mk.inj same
    obtain ⟨member, live⟩ := mem_filter.mp member
    simp only [Bool.not_eq_true'] at live
    exact live ▸ member
  · intro member
    exact ⟨_, mem_filter.mpr ⟨member, rfl⟩, rfl⟩

theorem get_update (id a : String) (vector : MemorySlot → VectorRecord) (deleted : Bool)
    (other : a ≠ id) : (memory.update id vector deleted).get a = memory.get a := by
  apply Option.ext
  intro v
  rw [get_eq_some, get_eq_some, update, mem_map]
  constructor
  · rintro ⟨slot, member, same⟩
    split at same
    next own => exact absurd ((congrArg MemorySlot.id same).symm.trans own) other
    next => exact same ▸ member
  · intro member
    exact ⟨_, member, if_neg other⟩

@[simp] theorem get_insert (id a : String) (vector : VectorRecord) :
    (memory.insert id vector).get a = if a = id then some vector else memory.get a := by
  rw [insert]
  split
  next fresh =>
    apply Option.ext
    intro v
    rw [get_eq_some, mem_append, mem_singleton, MemorySlot.mk.injEq]
    by_cases same : a = id
    · subst same
      have absent : (⟨a, v, false⟩ : MemorySlot) ∉ memory.slots := fun member =>
        fresh (mem_map_of_mem member)
      simp [absent, eq_comm]
    · simp [same, get_eq_some]
  next stored =>
    by_cases same : a = id
    · subst same
      rw [if_pos rfl, get_eq_some, update, mem_map]
      obtain ⟨slot, member, own⟩ := mem_map.mp (not_not.mp stored)
      exact ⟨slot, member, by rw [if_pos own, own]⟩
    · rw [if_neg same, get_update memory id a _ _ same]

@[simp] theorem get_delete (id a : String) :
    (memory.delete id).get a = if a = id then none else memory.get a := by
  by_cases same : a = id
  · subst same
    rw [if_pos rfl, Option.eq_none_iff_forall_not_mem]
    intro v shown
    rw [Option.mem_def, get_eq_some, delete, update, mem_map] at shown
    obtain ⟨slot, _, changed⟩ := shown
    split at changed
    next => simp at changed
    next apart => exact apart (congrArg MemorySlot.id changed)
  · rw [if_neg same, delete, get_update memory id a _ _ same]

end

end IndexedMemory

structure TripleStore where
  triples : List TripleRecord
  deriving DecidableEq, Repr

namespace TripleStore

def add (store : TripleStore) (subject relation object composite : String) : TripleStore :=
  ⟨store.triples ++ [⟨subject, relation, object, composite, false⟩]⟩

/-- A loaded triple is live, whatever its record says. -/
def loadTriple (store : TripleStore) (record : TripleRecord) : TripleStore :=
  store.add record.subjectId record.relationId record.objectId record.compositeId

def removeComposite (store : TripleStore) (id : String) : TripleStore :=
  ⟨store.triples.map fun triple => if triple.compositeId = id then { triple with deleted := true } else triple⟩

def snapshot (store : TripleStore) : List TripleRecord := store.triples.filter fun triple => !triple.deleted

@[simp] theorem snapshot_add (store : TripleStore) (subject relation object composite : String) :
    (store.add subject relation object composite).snapshot =
      store.snapshot ++ [⟨subject, relation, object, composite, false⟩] := by
  simp [snapshot, add]

@[simp] theorem snapshot_removeComposite (store : TripleStore) (id : String) :
    (store.removeComposite id).snapshot = store.snapshot.filter fun triple => triple.compositeId ≠ id := by
  rw [snapshot, snapshot, removeComposite, filter_filter]
  induction store.triples with
  | nil => rfl
  | cons triple triples ih =>
    by_cases own : triple.compositeId = id
    · simpa [own] using ih
    · by_cases live : triple.deleted = true <;> simpa [own, live] using ih

end TripleStore

/-- Where the rule of that name is, or the place behind the rules. -/
def rulePosition (rules : List CompositionRule) (name : String) : Nat := rules.findIdx fun rule => rule.name = name

/-- A rule over the one of its name, or behind the others. -/
def putRule (rules : List CompositionRule) (rule : CompositionRule) : List CompositionRule :=
  let index := rulePosition rules rule.name
  if index = rules.length then rules ++ [rule] else rules.set index rule

theorem putRule_of_fresh (fresh : rule.name ∉ rules.map CompositionRule.name) :
    rulePosition rules rule.name = rules.length ∧ putRule rules rule = rules ++ [rule] := by
  have last : rulePosition rules rule.name = rules.length := by
    rw [rulePosition, findIdx_eq_length]
    intro other member
    rw [decide_eq_false_iff_not]
    intro same
    exact fresh (mem_map.mpr ⟨other, member, same⟩)
  exact ⟨last, by rw [putRule, if_pos last]⟩

theorem names_putRule (rules : List CompositionRule) (rule : CompositionRule) :
    (putRule rules rule).map CompositionRule.name =
      if rule.name ∈ rules.map CompositionRule.name then rules.map CompositionRule.name
      else rules.map CompositionRule.name ++ [rule.name] := by
  split
  next listed =>
    obtain ⟨other, member, same⟩ := mem_map.mp listed
    have inside : rulePosition rules rule.name < rules.length :=
      findIdx_lt_length_of_exists ⟨other, member, decide_eq_true same⟩
    have own : (rules[rulePosition rules rule.name]).name = rule.name :=
      of_decide_eq_true (findIdx_getElem (w := inside))
    rw [putRule, if_neg (Nat.ne_of_lt inside), map_set]
    apply ext_getElem?
    intro i
    rw [getElem?_set]
    split
    next here =>
      rw [← here, length_map, if_pos inside, getElem?_map, getElem?_eq_getElem inside, Option.map_some, own]
    next => rfl
  next fresh => rw [(putRule_of_fresh fresh).2, map_append, map_singleton]

structure RuleStore where
  rules : List CompositionRule
  byChain : List ((String × String) × Nat)
  named : (rules.map CompositionRule.name).Nodup
  chained : (byChain.map Prod.fst).Nodup

namespace RuleStore

def empty : RuleStore := ⟨[], [], nodup_nil, nodup_nil⟩

/-- The index of two-relation chains after the rule at `index` has changed. -/
def chains (byChain : List ((String × String) × Nat)) (index : Nat) (rule : CompositionRule) :
    List ((String × String) × Nat) :=
  let kept := byChain.filter fun entry => entry.2 ≠ index
  match rule.inputRelations with
  | [first, second] => (kept.filter fun entry => entry.1 ≠ (first, second)) ++ [((first, second), index)]
  | _ => kept

theorem chains_nodup {byChain : List ((String × String) × Nat)} (distinct : (byChain.map Prod.fst).Nodup)
    (index : Nat) (rule : CompositionRule) : ((chains byChain index rule).map Prod.fst).Nodup := by
  have kept : ((byChain.filter fun entry => entry.2 ≠ index).map Prod.fst).Nodup :=
    distinct.sublist (filter_sublist.map _)
  rw [chains]
  split
  next first second _ =>
    rw [map_append, nodup_append]
    refine ⟨kept.sublist (filter_sublist.map _), nodup_singleton _, ?_⟩
    intro chain old other new same
    obtain ⟨entry, member, rfl⟩ := mem_map.mp old
    rw [map_singleton, mem_singleton] at new
    exact of_decide_eq_true (mem_filter.mp member).2 (same.trans new)
  next => exact kept

def addRule (store : RuleStore) (rule : CompositionRule) : RuleStore where
  rules := putRule store.rules rule
  byChain := chains store.byChain (rulePosition store.rules rule.name) rule
  named := by
    rw [names_putRule]
    split
    · exact store.named
    next fresh =>
      rw [nodup_append]
      refine ⟨store.named, nodup_singleton _, ?_⟩
      intro a old b new same
      rw [mem_singleton.mp new] at same
      exact fresh (same ▸ old)
  chained := chains_nodup store.chained _ rule

/-- The position of the rule that a chain of two relations leads to. -/
def owner (store : RuleStore) (chain : String × String) : Option Nat :=
  (store.byChain.find? fun entry => entry.1 = chain).map Prod.snd

def findRule (store : RuleStore) (first second : String) : Option CompositionRule :=
  (store.owner (first, second)).bind (store.rules[·]?)

/-- The owners after the rule at `index` has changed: it takes its chain over and leaves the others. -/
def reown (owner : String × String → Option Nat) (index : Nat) (rule : CompositionRule) (chain : String × String) :
    Option Nat :=
  if rule.inputRelations = [chain.1, chain.2] then some index
  else if owner chain = some index then none
  else owner chain

theorem owner_eq_some (store : RuleStore) (chain : String × String) (index : Nat) :
    store.owner chain = some index ↔ (chain, index) ∈ store.byChain := by
  rw [owner, Option.map_eq_some_iff]
  constructor
  · rintro ⟨⟨other, _⟩, found, rfl⟩
    obtain ⟨member, rfl⟩ := (find?_key_eq_some store.chained chain _).mp found
    exact member
  · intro member
    exact ⟨(chain, index), (find?_key_eq_some store.chained chain _).mpr ⟨member, rfl⟩, rfl⟩

theorem owner_addRule (store : RuleStore) (rule : CompositionRule) :
    (store.addRule rule).owner = reown store.owner (rulePosition store.rules rule.name) rule := by
  funext chain
  obtain ⟨first, second⟩ := chain
  apply Option.ext
  intro i
  rw [owner_eq_some]
  change ((first, second), i) ∈ chains store.byChain (rulePosition store.rules rule.name) rule ↔ _
  generalize rulePosition store.rules rule.name = index
  have kept (i : Nat) : ((first, second), i) ∈ (store.byChain.filter fun entry => entry.2 ≠ index) ↔
      store.owner (first, second) = some i ∧ i ≠ index := by
    rw [mem_filter, owner_eq_some, decide_eq_true_eq]
  rw [chains, reown]
  split
  next a b inputs =>
    rw [inputs, mem_append, mem_filter, kept, mem_singleton, decide_eq_true_eq]
    by_cases own : (first, second) = (a, b)
    · obtain ⟨rfl, rfl⟩ := Prod.mk.inj own
      simp [eq_comm]
    · have other : [a, b] ≠ [first, second] := by
        intro same
        simp only [List.cons.injEq, and_true] at same
        exact own (by rw [same.1, same.2])
      rw [if_neg other]
      by_cases held : store.owner (first, second) = some index
      · simp only [held, if_pos, Option.some.injEq, reduceCtorEq, iff_false]
        rintro (⟨⟨rfl, apart⟩, _⟩ | same)
        · exact apart rfl
        · exact own (Prod.mk.inj same).1
      · rw [if_neg held]
        constructor
        · rintro (⟨⟨found, _⟩, _⟩ | same)
          · exact found
          · exact absurd (Prod.mk.inj same).1 own
        · intro found
          exact .inl ⟨⟨found, fun same => held (same ▸ found)⟩, own⟩
  next inputs =>
    rw [if_neg (inputs first second), kept]
    by_cases held : store.owner (first, second) = some index
    · simp only [held, if_pos, Option.some.injEq, reduceCtorEq, iff_false]
      rintro ⟨rfl, apart⟩
      exact apart rfl
    · rw [if_neg held]
      exact ⟨And.left, fun found => ⟨found, fun same => held (same ▸ found)⟩⟩

end RuleStore

structure StoredRelation where
  relation : Relation
  deleted : Bool
  deriving DecidableEq, Repr

structure RelationStore where
  relations : List StoredRelation
  types : Table String RelationType

namespace RelationStore

def empty : RelationStore := ⟨[], ∅⟩

def add (store : RelationStore) (relation : Relation) : RelationStore :=
  { store with relations := store.relations ++ [⟨relation, false⟩] }

def connects (source relationType target : String) (relation : Relation) : Bool :=
  relation.sourceId = source && relation.relationType = relationType && relation.targetId = target

def markFirst (source relationType target : String) : List StoredRelation → List StoredRelation
  | [] => []
  | stored :: rest =>
    if !stored.deleted && connects source relationType target stored.relation then
      { stored with deleted := true } :: rest
    else stored :: markFirst source relationType target rest

def remove (store : RelationStore) (source relationType target : String) : RelationStore :=
  { store with relations := markFirst source relationType target store.relations }

def declareType (store : RelationStore) (relationType : RelationType) : RelationStore :=
  { store with types := store.types.insert relationType.name relationType }

def snapshot (store : RelationStore) : List Relation :=
  (store.relations.filter fun stored => !stored.deleted).map StoredRelation.relation

def typeSnapshot (store : RelationStore) : List RelationType := store.types.toList.map Prod.snd

@[simp] theorem snapshot_add (store : RelationStore) (relation : Relation) :
    (store.add relation).snapshot = store.snapshot ++ [relation] := by
  simp [snapshot, add]

@[simp] theorem snapshot_remove (store : RelationStore) (source relationType target : String) :
    (store.remove source relationType target).snapshot =
      store.snapshot.eraseP (connects source relationType target) := by
  rw [snapshot, snapshot, remove]
  induction store.relations with
  | nil => rfl
  | cons stored rest ih =>
    rw [markFirst]
    by_cases gone : stored.deleted = true
    · simpa [gone] using ih
    · by_cases own : connects source relationType target stored.relation = true
      · simp [gone, own]
      · simpa [gone, own] using ih

@[simp] theorem snapshot_declareType (store : RelationStore) (relationType : RelationType) :
    (store.declareType relationType).snapshot = store.snapshot := rfl

end RelationStore

end Warm
