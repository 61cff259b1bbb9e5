import Warm.InvertedIndex
import Warm.Intersection
import Warm.Table
import Mathlib.Tactic.FieldSimp

/-! One shard of the vector index: the vectors by id, a registry of slots, the free slots and
the inverted index over the slots. Approximate indexes are not part of the model; the routes
modelled here are the inverted index and the exact scan. -/
namespace Warm

/-- A sparse hypervector: its active indices, ascending and below the dimension. -/
structure EntangledHVec (dim : Nat) where
  indices : List Nat
  ascending : indices.Pairwise (· < ·)
  bounded : ∀ i ∈ indices, i < dim
  deriving DecidableEq

namespace EntangledHVec

def similarity (a : EntangledHVec dim) (b : EntangledHVec other) : ℚ :=
  let intersection := Intersection.sparseIntersectionCount a.indices b.indices
  let union := a.indices.length + b.indices.length - intersection
  if union = 0 then 1 else intersection / union

end EntangledHVec

/-- `validate_id`: 1 to 65535 bytes and no null character. Every id is checked before its commit. -/
def validateId (id : String) : Bool :=
  id != "" && decide (id.utf8ByteSize ≤ 65535) && !id.toList.contains (Char.ofNat 0)

/-- An id that passed the check. -/
structure ValidId where
  text : String
  valid : validateId text = true
  deriving DecidableEq

theorem ValidId.nonempty (id : ValidId) : id.text ≠ "" := by
  have valid := id.valid
  simp only [validateId, Bool.and_eq_true, bne_iff_ne] at valid
  exact valid.1.1

structure RetrievalResult where
  id : String
  similarity : ℚ
  deriving DecidableEq

/-- `RetrievalResult`'s order: most similar first, then by id. -/
def RetrievalResult.rank (r : RetrievalResult) : ℚᵒᵈ ×ₗ String :=
  toLex (OrderDual.toDual r.similarity, r.id)

theorem RetrievalResult.rank_injective : Function.Injective rank := by
  rintro ⟨id, similarity⟩ ⟨id', similarity'⟩ same
  have pair := toLex.injective same
  simp only [Prod.mk.injEq] at pair
  rw [mk.injEq]
  exact ⟨pair.2, OrderDual.toDual.injective pair.1⟩

structure Shard (dimensions : Nat) where
  vectors : Table String (EntangledHVec dimensions)
  registry : List String
  slots : Table String Nat
  freeSlots : List Nat
  inverted : SparseInvertedIndex
  accumulator : Accumulator
  vectorCount : Nat

namespace Shard

variable {dimensions : Nat}

def new (dimensions : Nat) : Shard dimensions :=
  ⟨∅, [], ∅, [], .new dimensions (max (dimensions / 256) 1), .new 1024, 0⟩

/-- The slot for `id`: its own, the last freed one, or a new one. -/
def assignSlot (shard : Shard dimensions) (id : String) : Nat × Shard dimensions :=
  match shard.slots[id]? with
  | some slot =>
    (slot, match shard.vectors[id]? with
      | some old => { shard with inverted := shard.inverted.removeDoc slot old.indices }
      | none => shard)
  | none =>
    match shard.freeSlots.getLast? with
    | some slot =>
      (slot, { shard with registry := shard.registry.set slot id, freeSlots := shard.freeSlots.dropLast })
    | none => (shard.registry.length, { shard with registry := shard.registry ++ [id] })

def insert (shard : Shard dimensions) (id : String) (vector : EntangledHVec dimensions) : Shard dimensions :=
  let (slot, assigned) := shard.assignSlot id
  let vectors := shard.vectors.insert id vector
  { assigned with
    vectors
    slots := assigned.slots.insert id slot
    inverted := assigned.inverted.addDoc slot vector.indices
    vectorCount := vectors.size }

def remove (shard : Shard dimensions) (id : String) : Shard dimensions × Bool :=
  match shard.vectors[id]? with
  | none => (shard, false)
  | some old =>
    let vectors := shard.vectors.erase id
    match shard.slots[id]? with
    | none => ({ shard with vectors, vectorCount := vectors.size }, true)
    | some slot =>
      ({ shard with
        vectors
        slots := shard.slots.erase id
        inverted := shard.inverted.removeDoc slot old.indices
        registry := shard.registry.set slot ""
        freeSlots := shard.freeSlots ++ [slot]
        vectorCount := vectors.size }, true)

/-- One registry entry of a rebuild. -/
def rebuildEntry (vectors : Table String (EntangledHVec dimensions))
    (state : Table String Nat × SparseInvertedIndex) (entry : String × Nat) :
    Table String Nat × SparseInvertedIndex :=
  match vectors[entry.1]? with
  | some vector => (state.1.insert entry.1 entry.2, state.2.addDoc entry.2 vector.indices)
  | none => state

def rebuildInvertedIndex (shard : Shard dimensions) : Shard dimensions :=
  let built := shard.registry.zipIdx.foldl (rebuildEntry shard.vectors)
    (∅, .new dimensions (max (dimensions / 256) 1))
  { shard with
    slots := built.1
    freeSlots := []
    inverted := built.2.finalize
    accumulator := .new (max shard.registry.length 1024) }

/-- The exact scan over the live vectors, in the order the map gives them. -/
def bruteForceScan (vectors : List (String × EntangledHVec dimensions)) (query : EntangledHVec dim) (k : Nat) :
    List RetrievalResult :=
  if k = 0 ∨ vectors.isEmpty then []
  else TopK.collect RetrievalResult.rank k
    (vectors.map fun entry => ⟨entry.1, query.similarity entry.2⟩)

/-- A hit as a result, if its slot still names a live vector. -/
def resolve (shard : Shard dimensions) (hit : SlotHit) : Option RetrievalResult :=
  match shard.registry[hit.slot]? with
  | none => none
  | some id => if shard.vectors.contains id then some ⟨id, hit.similarity⟩ else none

/-- The inverted route of `query`, with its fallback to the scan. `order` is the iteration order
of the vector map. -/
def queryInverted (shard : Shard dimensions) (order : List (String × EntangledHVec dimensions))
    (query : EntangledHVec dim) (k : Nat) : List RetrievalResult × Shard dimensions :=
  let (hits, accumulator) := shard.inverted.queryWithTies query.indices k shard.accumulator
    (fun slot => shard.registry.getD slot "")
  let shard := { shard with accumulator }
  let mapped := hits.filterMap shard.resolve
  if mapped.length = min k shard.vectors.size then (mapped, shard)
  else (bruteForceScan order query k, shard)

end Shard

end Warm
