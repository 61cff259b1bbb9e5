import Warm.ShardQuery

/-! The slots of a shard: live ids and occupied slots one to one, the free list exactly the vacant
slots. A rebuild empties the free list and leaves the vacant slots where they are, so slots freed
before it are never reused. -/
namespace Warm.Shard

open List

variable {dimensions : Nat} {shard : Shard dimensions}

/-- The registry, the slots, the free list and the inverted index describe the same live vectors. -/
structure Exact (shard : Shard dimensions) : Prop where
  live : ∀ id : String, shard.slots[id]?.isSome = shard.vectors[id]?.isSome
  bijection : ∀ (id : String) (slot : Nat), shard.slots[id]? = some slot ↔ shard.registry[slot]? = some id ∧ id ≠ ""
  free : ∀ slot, slot ∈ shard.freeSlots ↔ shard.registry[slot]? = some ""
  once : shard.freeSlots.Nodup
  ascending : ∀ dim, (shard.inverted.postings.getD dim []).Pairwise (· < ·)
  postings : ∀ dim, dim < dimensions → ∀ slot, slot ∈ shard.inverted.postings.getD dim [] ↔
    ∃ (id : String) (vector : EntangledHVec dimensions), shard.slots[id]? = some slot ∧
      shard.vectors[id]? = some vector ∧ dim ∈ vector.indices
  lengths : ∀ (id : String) (slot : Nat) (vector : EntangledHVec dimensions), shard.slots[id]? = some slot →
    shard.vectors[id]? = some vector → shard.inverted.lengths.getD slot 0 = vector.indices.length

/-- Every vacant slot is on the free list. -/
def Listed (shard : Shard dimensions) : Prop := ∀ slot, shard.registry[slot]? = some "" → slot ∈ shard.freeSlots

theorem Invariant.exact (inv : Invariant shard) (listed : Listed shard) : Exact shard where
  live := inv.keys
  bijection id slot := by
    constructor
    · intro held
      refine ⟨inv.registered id slot held, ?_⟩
      rintro rfl
      have key := inv.keys ""
      rw [held, inv.nonempty] at key
      contradiction
    · rintro ⟨entry, named⟩
      exact inv.named slot id entry named
  free slot := ⟨inv.free slot, listed slot⟩
  once := inv.distinct
  ascending := inv.index.ascending
  postings dim inside slot := by
    rw [inv.index.postings dim (inv.width.symm ▸ inside) slot]
    constructor
    · rintro ⟨dims, present, member⟩
      obtain ⟨id, entry, found⟩ := Option.bind_eq_some_iff.mp present
      obtain ⟨vector, stored, rfl⟩ := Option.map_eq_some_iff.mp found
      have named : id ≠ "" := by
        rintro rfl
        rw [inv.nonempty] at stored
        contradiction
      exact ⟨id, vector, inv.named slot id entry named, stored, member⟩
    · rintro ⟨id, vector, held, stored, member⟩
      refine ⟨vector.indices, ?_, member⟩
      rw [Shard.live, inv.registered id slot held, Option.bind_some, stored, Option.map_some]
  lengths id slot vector held stored := by
    apply inv.index.lengths slot vector.indices
    rw [Shard.live, inv.registered id slot held, Option.bind_some, stored, Option.map_some]

theorem listed_assignSlot (listed : Listed shard) {id : String} (named : id ≠ "") :
    Listed (shard.assignSlot id).2 := by
  intro slot vacant
  rw [assignSlot] at vacant ⊢
  cases held : shard.slots[id]? with
  | some own =>
    rw [held] at vacant
    cases old : shard.vectors[id]? with
    | some vector | none =>
      rw [old] at vacant
      exact listed slot vacant
  | none =>
    rw [held] at vacant
    cases last : shard.freeSlots.getLast? with
    | some freed =>
      rw [last] at vacant
      rw [getElem?_set] at vacant
      split at vacant
      next =>
        split at vacant
        · exact absurd (Option.some.inj vacant) named
        · contradiction
      next apart =>
        -- The free list loses its last slot, which is the one that was taken.
        have member := listed slot vacant
        obtain ⟨front, shape⟩ := getLast?_eq_some_iff.mp last
        rw [shape, mem_append, mem_singleton] at member
        rw [shape, dropLast_concat]
        exact member.resolve_right fun same => apart same.symm
    | none =>
      rw [last] at vacant
      rw [getElem?_append] at vacant
      split at vacant
      next => exact listed slot vacant
      next =>
        have entry := mem_of_getElem? vacant
        exact absurd (mem_singleton.mp entry) (Ne.symm named)

theorem listed_remove (listed : Listed shard) (id : String) : Listed (shard.remove id).1 := by
  rw [remove]
  cases shard.vectors[id]? with
  | none => exact listed
  | some old =>
    cases shard.slots[id]? with
    | none => exact listed
    | some own =>
      intro slot vacant
      rw [getElem?_set] at vacant
      rw [mem_append, mem_singleton]
      split at vacant
      next same => exact .inr same.symm
      next => exact .inl (listed slot vacant)

/-- The rebuilds of the run find no vacant slot. -/
def FullRebuilds (shard : Shard dimensions) : List (Op dimensions) → Prop
  | [] => True
  | op :: ops =>
    (match op with
      | .rebuild => "" ∉ shard.registry
      | _ => True) ∧ FullRebuilds (shard.step op) ops

theorem listed_step (listed : Listed shard) (op : Op dimensions)
    (full : match op with
      | .rebuild => "" ∉ shard.registry
      | _ => True) : Listed (shard.step op) := by
  cases op with
  | insert id vector =>
    intro slot vacant
    exact listed_assignSlot listed id.nonempty slot vacant
  | remove id => exact listed_remove listed id
  | rebuild =>
    intro slot vacant
    exact absurd (mem_of_getElem? vacant) full
  | query dim query k =>
    have same : (shard.queryInverted shard.vectors.toList query k).2.registry = shard.registry ∧
        (shard.queryInverted shard.vectors.toList query k).2.freeSlots = shard.freeSlots := by
      rw [queryInverted]
      dsimp only
      split <;> exact ⟨rfl, rfl⟩
    intro slot vacant
    rw [step, same.1] at vacant
    rw [step, same.2]
    exact listed slot vacant

theorem listed_run (listed : Listed shard) (full : FullRebuilds shard ops) : Listed (shard.run ops) := by
  induction ops generalizing shard with
  | nil => exact listed
  | cons op ops ih => exact ih (listed_step listed op full.1) full.2

/-- The structures of a shard agree after any sequence of inserts, replacements, removals and
queries, and of rebuilds that find no vacant slot. -/
theorem run_exact (dimensions : Nat) (ops : List (Op dimensions)) (full : FullRebuilds (new dimensions) ops) :
    Exact ((new dimensions).run ops) := by
  have start : Listed (new dimensions) := by
    intro slot vacant
    simp [new] at vacant
  exact (run_invariant ops (new_invariant dimensions)).exact (listed_run start full)

/-- A replacement, a rebuild without vacant slots, and a slot that is freed and reused. -/
theorem run_exact_reused :
    Exact ((new 8).run
      [.insert ⟨"a", by decide⟩ ⟨[1, 3], by decide, by decide⟩, .insert ⟨"a", by decide⟩ ⟨[2], by decide, by decide⟩,
        .rebuild, .remove "a", .insert ⟨"b", by decide⟩ ⟨[3, 5], by decide, by decide⟩]) := by
  refine run_exact 8 _ ⟨trivial, trivial, ?_, trivial, trivial, trivial⟩
  simp [step, insert, assignSlot, new]

/-- After a removal a rebuild forgets the freed slot. -/
theorem rebuild_forgets_freed :
    ¬Exact ((new 8).run
      [.insert ⟨"a", by decide⟩ ⟨[1], by decide, by decide⟩, .remove "a", .rebuild]) := by
  intro exact
  have vacant : ((new 8).run [.insert ⟨"a", by decide⟩ ⟨[1], by decide, by decide⟩, .remove "a",
      .rebuild]).registry[0]? = some "" := by
    simp [run, step, insert, assignSlot, remove, rebuildInvertedIndex, new]
  have freed := (exact.free 0).mpr vacant
  simp [run, step, rebuildInvertedIndex] at freed

end Warm.Shard
