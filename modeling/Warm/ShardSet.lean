import Warm.Document
import Warm.Table

/-! The vectors of the store, spread over shards by the hash of their ids. A shard is its vector
map here; its slots and its inverted index are `Warm.Shard`. -/
namespace Warm

open Binary List

def FX_SEED : UInt64 := 0x517cc1b727220a95

/-- `FxHasher::add`. -/
def fxAdd (hash word : UInt64) : UInt64 :=
  ((hash <<< 5 ||| hash >>> 59) ^^^ word) * FX_SEED

def littleEndian (bytes : Bytes) : UInt64 :=
  bytes.foldr (fun byte word => word * 256 + byte.toUInt64) 0

/-- The words of eight bytes, then one of four, then single bytes. -/
def fxWrite (hash : UInt64) : Bytes → UInt64
  | a :: b :: c :: d :: e :: f :: g :: h :: rest => fxWrite (fxAdd hash (littleEndian [a, b, c, d, e, f, g, h])) rest
  | a :: b :: c :: d :: rest =>
    rest.foldl (fun hash byte => fxAdd hash byte.toUInt64) (fxAdd hash (littleEndian [a, b, c, d]))
  | rest => rest.foldl (fun hash byte => fxAdd hash byte.toUInt64) hash

def fx64 (bytes : Bytes) : UInt64 := fxWrite 0 bytes

/-- The shard of an id; a single shard takes them all. -/
def shardFor (count : Nat) (id : String) : Nat := (fx64 (utf8 id)).toNat % count

/-- At least one shard, every id in its own. -/
structure ShardSet where
  shards : List (Table String VectorRecord)
  nonempty : 0 < shards.length
  placed : ∀ i shard, shards[i]? = some shard → ∀ id vector, shard[id]? = some vector →
    shardFor shards.length id = i

namespace ShardSet

/-- One shard and `more` others, all empty. -/
def new (more : Nat) : ShardSet where
  shards := List.replicate (more + 1) ∅
  nonempty := by simp
  placed := by
    intro i shard at_i id vector found
    rw [eq_of_mem_replicate (mem_of_getElem? at_i)] at found
    simp at found

/-- A change of the shard of `id` that touches no other id. -/
def modify (set : ShardSet) (id : String) (change : Table String VectorRecord → Table String VectorRecord)
    (local_change : ∀ shard a vector, (change shard)[a]? = some vector → a = id ∨ shard[a]? = some vector) :
    ShardSet where
  shards := set.shards.modify (shardFor set.shards.length id) change
  nonempty := by simpa using set.nonempty
  placed := by
    intro i shard at_i a vector found
    rw [length_modify]
    rw [getElem?_modify] at at_i
    obtain ⟨old, at_old, rfl⟩ := Option.map_eq_some_iff.mp at_i
    split at found
    next own =>
      rcases local_change old a vector found with rfl | kept
      · exact own
      · exact set.placed i old at_old a vector kept
    next => exact set.placed i old at_old a vector found

def insert (set : ShardSet) (id : String) (vector : VectorRecord) : ShardSet :=
  set.modify id (·.insert id vector) (by
    intro shard a other found
    rw [Table.getElem?_insert] at found
    split at found
    next same => exact .inl same
    next => exact .inr found)

def remove (set : ShardSet) (id : String) : ShardSet :=
  set.modify id (·.erase id) (by
    intro shard a other found
    rw [Table.getElem?_erase] at found
    split at found
    next => contradiction
    next => exact .inr found)

def getVector (set : ShardSet) (id : String) : Option VectorRecord :=
  (set.shards[shardFor set.shards.length id]?).bind (·[id]?)

def count (set : ShardSet) : Nat := (set.shards.map Std.ExtTreeMap.size).sum

def patterns (set : ShardSet) : List (String × VectorRecord) := set.shards.flatMap Std.ExtTreeMap.toList

def Holds (set : ShardSet) (id : String) : Prop := ∃ shard ∈ set.shards, id ∈ shard

section

variable (set : ShardSet)
include set

theorem shardFor_lt (id : String) : shardFor set.shards.length id < set.shards.length :=
  Nat.mod_lt _ set.nonempty

theorem getVector_modify (id a : String) (change : Table String VectorRecord → Table String VectorRecord)
    (local_change) :
    (set.modify id change local_change).getVector a =
      (set.shards[shardFor set.shards.length a]?).bind fun shard =>
        if shardFor set.shards.length id = shardFor set.shards.length a then (change shard)[a]? else shard[a]? := by
  simp only [getVector, modify, length_modify, getElem?_modify]
  cases set.shards[shardFor set.shards.length a]? with
  | none => rfl
  | some shard =>
    by_cases same : shardFor set.shards.length id = shardFor set.shards.length a <;> simp [same]

@[simp] theorem getVector_insert (id a : String) (vector : VectorRecord) :
    (set.insert id vector).getVector a = if a = id then some vector else set.getVector a := by
  rw [insert, getVector_modify, getElem?_eq_getElem (set.shardFor_lt a), Option.bind_some]
  by_cases same : a = id
  · simp [same]
  · rw [Table.getElem?_insert, if_neg same, ite_self, getVector,
      getElem?_eq_getElem (set.shardFor_lt a), Option.bind_some, if_neg same]

@[simp] theorem getVector_remove (id a : String) :
    (set.remove id).getVector a = if a = id then none else set.getVector a := by
  rw [remove, getVector_modify, getElem?_eq_getElem (set.shardFor_lt a), Option.bind_some]
  by_cases same : a = id
  · simp [same]
  · rw [Table.getElem?_erase, if_neg same, ite_self, getVector,
      getElem?_eq_getElem (set.shardFor_lt a), Option.bind_some, if_neg same]

@[simp] theorem length_insert (id : String) (vector : VectorRecord) :
    (set.insert id vector).shards.length = set.shards.length := length_modify ..

@[simp] theorem length_remove (id : String) : (set.remove id).shards.length = set.shards.length :=
  length_modify ..

end

@[simp] theorem getVector_new (more : Nat) (id : String) : (new more).getVector id = none := by
  rw [getVector, getElem?_eq_getElem ((new more).shardFor_lt id), Option.bind_some]
  simp [new]

theorem getVector_of_mem (set : ShardSet) {id : String} (member : shard ∈ set.shards) (found : shard[id]? = some vector) :
    set.getVector id = some vector := by
  obtain ⟨i, at_i⟩ := mem_iff_getElem?.mp member
  rw [getVector, set.placed i shard at_i id vector found, at_i]
  exact found

theorem ext_getVector {set other : ShardSet} (count : set.shards.length = other.shards.length)
    (same : ∀ id, set.getVector id = other.getVector id) : set = other := by
  have lookup (set : ShardSet) (i : Nat) (inside : i < set.shards.length) (id : String) :
      (set.shards[i])[id]? = if shardFor set.shards.length id = i then set.getVector id else none := by
    split
    next own =>
      rw [getVector, own, getElem?_eq_getElem inside]
      rfl
    next elsewhere =>
      cases found : (set.shards[i])[id]? with
      | none => rfl
      | some vector => exact absurd (set.placed i _ (getElem?_eq_getElem inside) id vector found) elsewhere
  have shards : set.shards = other.shards := by
    refine ext_getElem count fun i inside inside' => ?_
    apply Std.ExtTreeMap.ext_getElem?
    intro id
    rw [lookup set i inside id, lookup other i inside' id, count, same id]
  obtain ⟨_, _, _⟩ := set
  obtain ⟨_, _, _⟩ := other
  subst shards
  rfl

theorem holds_iff (set : ShardSet) (id : String) : set.Holds id ↔ (set.getVector id).isSome = true := by
  constructor
  · rintro ⟨shard, member, inside⟩
    rw [set.getVector_of_mem member (Std.ExtTreeMap.getElem?_eq_some_getElem inside)]
    rfl
  · intro found
    obtain ⟨vector, found⟩ := Option.isSome_iff_exists.mp found
    obtain ⟨shard, at_i, found⟩ := Option.bind_eq_some_iff.mp found
    exact ⟨shard, mem_of_getElem? at_i, Std.ExtTreeMap.mem_iff_isSome_getElem?.mpr (by rw [found]; rfl)⟩

theorem mem_patterns (set : ShardSet) (id : String) (vector : VectorRecord) :
    (id, vector) ∈ set.patterns ↔ set.getVector id = some vector := by
  rw [patterns, mem_flatMap]
  constructor
  · rintro ⟨shard, member, inside⟩
    exact set.getVector_of_mem member ((Table.mem_toList shard id vector).mp inside)
  · intro found
    obtain ⟨shard, at_i, found⟩ := Option.bind_eq_some_iff.mp found
    exact ⟨shard, mem_of_getElem? at_i, (Table.mem_toList shard id vector).mpr found⟩

end ShardSet

end Warm
