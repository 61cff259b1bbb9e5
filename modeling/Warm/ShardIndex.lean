import Warm.Shard

/-! What every sequence of inserts, replacements, removals and rebuilds keeps of a shard: the
slots name the live ids one to one, and the inverted index holds exactly their vectors. -/
namespace Warm.Shard

open List

variable {dimensions : Nat} {id : String}

/-- The vector indices of a slot, through the id the registry gives it. -/
def live (shard : Shard dimensions) (slot : Nat) : Option (List Nat) :=
  (shard.registry[slot]?).bind fun id => (shard.vectors[id]?).map EntangledHVec.indices

structure Invariant (shard : Shard dimensions) : Prop where
  keys : ∀ id : String, shard.slots[id]?.isSome = shard.vectors[id]?.isSome
  registered : ∀ (id : String) (slot : Nat), shard.slots[id]? = some slot → shard.registry[slot]? = some id
  named : ∀ (slot : Nat) (id : String), shard.registry[slot]? = some id → id ≠ "" →
    shard.slots[id]? = some slot
  nonempty : shard.vectors[""]? = none
  free : ∀ slot ∈ shard.freeSlots, shard.registry[slot]? = some ""
  distinct : shard.freeSlots.Nodup
  index : shard.inverted.Represents shard.live
  width : shard.inverted.dimensions = dimensions
  ready : shard.accumulator.Ready
  count : shard.vectorCount = shard.vectors.size

theorem new_invariant (dimensions : Nat) : Invariant (new dimensions) := by
  refine ⟨?_, ?_, ?_, ?_, ?_, ?_, ?_, rfl, Accumulator.new_ready 1024, ?_⟩
  · intro id
    simp [new]
  · intro id slot held
    simp [new] at held
  · intro slot id held
    simp [new] at held
  · simp [new]
  · simp [new]
  · simp [new]
  · have empty : (new dimensions).live = fun _ => none := by
      funext slot
      simp [live, new]
    rw [empty]
    exact SparseInvertedIndex.new_represents _ _
  · simp [new]

theorem Invariant.registry_iff {slot : Nat} (inv : Invariant shard) (nonempty : id ≠ "")
    (held : shard.slots[id]? = some slot) (other : Nat) : shard.registry[other]? = some id ↔ other = slot := by
  constructor
  · intro entry
    have := inv.named other id entry nonempty
    rw [held] at this
    exact (Option.some.inj this).symm
  · rintro rfl
    exact inv.registered id other held

theorem Invariant.registry_absent (inv : Invariant shard) (nonempty : id ≠ "")
    (absent : shard.slots[id]? = none) (other : Nat) : shard.registry[other]? ≠ some id := by
  intro entry
  have := inv.named other id entry nonempty
  simp [absent] at this

/-- What `assignSlot` gives: a slot that the registry maps to the id and the index has vacant. -/
structure Assigned (shard : Shard dimensions) (id : String) (slot : Nat) (assigned : Shard dimensions) :
    Prop where
  vectors : assigned.vectors = shard.vectors
  slots : assigned.slots = shard.slots
  accumulator : assigned.accumulator = shard.accumulator
  entry : ∀ other, assigned.registry[other]? = some id ↔ other = slot
  before : ∀ other, shard.registry[other]? = some id → other = slot
  others : ∀ (other : Nat) (name : String), name ≠ id → name ≠ "" →
    (assigned.registry[other]? = some name ↔ shard.registry[other]? = some name)
  free : ∀ other ∈ assigned.freeSlots, assigned.registry[other]? = some ""
  distinct : assigned.freeSlots.Nodup
  index : assigned.inverted.Represents (Function.update shard.live slot none)
  width : assigned.inverted.dimensions = dimensions

theorem assignSlot_assigned (inv : Invariant shard) (id : String) (nonempty : id ≠ "") :
    Assigned shard id (shard.assignSlot id).1 (shard.assignSlot id).2 := by
  unfold assignSlot
  cases held : shard.slots[id]? with
  | some slot =>
    obtain ⟨old, present⟩ : ∃ old, shard.vectors[id]? = some old := by
      rw [← Option.isSome_iff_exists, ← inv.keys, held]
      rfl
    have was : shard.live slot = some old.indices := by
      simp [live, inv.registered id slot held, present]
    obtain ⟨index, width⟩ := SparseInvertedIndex.removeDoc_represents shard.inverted inv.index slot
      old.indices was old.ascending.nodup
    simp only [present]
    have entry := inv.registry_iff nonempty held
    exact ⟨rfl, rfl, rfl, entry, fun other => (entry other).mp, fun _ _ _ _ => Iff.rfl, inv.free,
      inv.distinct, index, width.trans inv.width⟩
  | none =>
    have absent := inv.registry_absent nonempty held
    cases last : shard.freeSlots.getLast? with
    | some slot =>
      have member : slot ∈ shard.freeSlots := mem_of_getLast? last
      have vacant := inv.free slot member
      have inside : slot < shard.registry.length := by
        rw [List.getElem?_eq_some_iff] at vacant
        exact vacant.1
      have was : shard.live slot = none := by simp [live, vacant, inv.nonempty]
      have split : shard.freeSlots.dropLast ++ [slot] = shard.freeSlots :=
        dropLast_append_getLast? slot last
      have parts := inv.distinct
      rw [← split, nodup_append] at parts
      refine ⟨rfl, rfl, rfl, ?_, fun other entry => absurd entry (absent other), ?_, ?_, parts.1, ?_,
        inv.width⟩
      · intro other
        simp only [getElem?_set]
        by_cases here : slot = other
        · simp [here, here ▸ inside]
        · simpa [here, Ne.symm here] using absent other
      · intro other name apart named
        simp only [getElem?_set]
        by_cases here : slot = other
        · subst here
          rw [vacant]
          simp [inside, Ne.symm apart, Ne.symm named]
        · simp [here]
      · intro other still
        have apart : slot ≠ other := fun same => parts.2.2 other still slot (by simp) same.symm
        simp only [getElem?_set, apart, ↓reduceIte]
        exact inv.free other (dropLast_subset _ still)
      · rw [← was, Function.update_eq_self]
        exact inv.index
    | none =>
      have was : shard.live shard.registry.length = none := by simp [live]
      have noFree : shard.freeSlots = [] := getLast?_eq_none_iff.mp last
      refine ⟨rfl, rfl, rfl, ?_, fun other entry => absurd entry (absent other), ?_, ?_, inv.distinct, ?_,
        inv.width⟩
      · intro other
        simp only [getElem?_append]
        split
        · rename_i inside
          simpa [Nat.ne_of_lt inside] using absent other
        · rename_i outside
          by_cases here : other = shard.registry.length
          · simp [here]
          · rw [getElem?_eq_none (by simp; omega)]
            simp [here]
      · intro other name apart named
        simp only [getElem?_append]
        split
        · rfl
        · rename_i outside
          rw [getElem?_eq_none (Nat.not_lt.mp outside)]
          by_cases here : other = shard.registry.length
          · simp [here, Ne.symm apart]
          · rw [getElem?_eq_none (by simp; omega)]
      · simp [noFree]
      · rw [← was, Function.update_eq_self]
        exact inv.index

theorem live_iff (shard : Shard dimensions) (slot : Nat) (dims : List Nat) :
    shard.live slot = some dims ↔ ∃ (name : String) (vector : EntangledHVec dimensions),
      shard.registry[slot]? = some name ∧ shard.vectors[name]? = some vector ∧ vector.indices = dims := by
  simp [live, Option.bind_eq_some_iff]

theorem insert_live {next} {slot : Nat} (inv : Invariant shard) (assigned : Assigned shard id slot next)
    (vector : EntangledHVec dimensions) : live { next with vectors := shard.vectors.insert id vector } =
      Function.update (Function.update shard.live slot none) slot (some vector.indices) := by
  rw [Function.update_idem]
  funext other
  by_cases here : other = slot
  · subst here
    simp [live, (assigned.entry other).mpr rfl]
  rw [Function.update_of_ne here]
  have away (entry : next.registry[other]? = some id) : False := here ((assigned.entry other).mp entry)
  apply Option.ext
  intro dims
  simp only [live_iff, Table.getElem?_insert]
  constructor
  · rintro ⟨name, old, entry, held, indices⟩
    have apart : name ≠ id := fun same => away (same ▸ entry)
    rw [if_neg apart] at held
    have named : name ≠ "" := fun same => by simp [same, inv.nonempty] at held
    exact ⟨name, old, (assigned.others other name apart named).mp entry, held, indices⟩
  · rintro ⟨name, old, entry, held, indices⟩
    have named : name ≠ "" := fun same => by simp [same, inv.nonempty] at held
    have apart : name ≠ id := fun same => here (assigned.before other (same ▸ entry))
    exact ⟨name, old, (assigned.others other name apart named).mpr entry, by rw [if_neg apart, held], indices⟩

theorem insert_invariant (inv : Invariant shard) (id : String) (nonempty : id ≠ "")
    (vector : EntangledHVec dimensions) : Invariant (shard.insert id vector) := by
  have assigned := assignSlot_assigned inv id nonempty
  unfold insert
  generalize assigned' : shard.assignSlot id = result at assigned
  obtain ⟨slot, next⟩ := result
  dsimp only at assigned ⊢
  have vacant : Function.update shard.live slot none slot = none := Function.update_self ..
  obtain ⟨index, width⟩ := SparseInvertedIndex.addDoc_represents next.inverted assigned.index slot vacant
    vector.indices vector.ascending.nodup (by rw [assigned.width]; exact vector.bounded)
  refine ⟨?_, ?_, ?_, ?_, assigned.free, assigned.distinct, ?_, width.trans assigned.width, ?_, rfl⟩
  · intro name
    simp only [assigned.slots, Table.getElem?_insert]
    split
    · rfl
    · exact inv.keys name
  · intro name other held
    simp only [assigned.slots, Table.getElem?_insert] at held
    split at held
    · rename_i same
      cases held
      exact same ▸ (assigned.entry slot).mpr rfl
    · rename_i apart
      have entry := inv.registered name other held
      have named : name ≠ "" := by
        rintro rfl
        have := inv.keys ""
        simp [held, inv.nonempty] at this
      exact (assigned.others other name apart named).mpr entry
  · intro other name entry named
    simp only [assigned.slots, Table.getElem?_insert]
    split
    · rename_i same
      rw [(assigned.entry other).mp (same ▸ entry)]
    · rename_i apart
      exact inv.named other name ((assigned.others other name apart named).mp entry) named
  · rw [Table.getElem?_insert, if_neg (Ne.symm nonempty), inv.nonempty]
  · have shape := insert_live inv assigned vector
    unfold live at shape ⊢
    rw [shape]
    exact index
  · rw [assigned.accumulator]
    exact inv.ready

theorem remove_live {slot : Nat} (inv : Invariant shard) (nonempty : id ≠ "")
    (held : shard.slots[id]? = some slot) :
    live { shard with vectors := shard.vectors.erase id, registry := shard.registry.set slot "" } =
      Function.update shard.live slot none := by
  have inside : slot < shard.registry.length :=
    (List.getElem?_eq_some_iff.mp (inv.registered id slot held)).1
  funext other
  by_cases here : other = slot
  · subst here
    simp [live, inside, Table.getElem?_erase, Ne.symm nonempty, inv.nonempty]
  rw [Function.update_of_ne here]
  apply Option.ext
  intro dims
  simp only [live_iff, Table.getElem?_erase, getElem?_set, Ne.symm here, ↓reduceIte]
  constructor
  · rintro ⟨name, old, entry, found, indices⟩
    split at found
    · cases found
    · exact ⟨name, old, entry, found, indices⟩
  · rintro ⟨name, old, entry, found, indices⟩
    have apart : name ≠ id := by
      rintro rfl
      exact here ((inv.registry_iff nonempty held other).mp entry)
    exact ⟨name, old, entry, by rw [if_neg apart, found], indices⟩

theorem remove_invariant (inv : Invariant shard) (id : String) : Invariant (shard.remove id).1 := by
  unfold remove
  cases present : shard.vectors[id]? with
  | none => exact inv
  | some old =>
    have nonempty : id ≠ "" := by
      rintro rfl
      simp [inv.nonempty] at present
    obtain ⟨slot, held⟩ : ∃ slot, shard.slots[id]? = some slot := by
      rw [← Option.isSome_iff_exists, inv.keys, present]
      rfl
    simp only [held]
    have entry := inv.registered id slot held
    have inside : slot < shard.registry.length := (List.getElem?_eq_some_iff.mp entry).1
    have was : shard.live slot = some old.indices := by simp [live, entry, present]
    obtain ⟨index, width⟩ := SparseInvertedIndex.removeDoc_represents shard.inverted inv.index slot
      old.indices was old.ascending.nodup
    refine ⟨?_, ?_, ?_, ?_, ?_, ?_, ?_, width.trans inv.width, inv.ready, rfl⟩
    · intro name
      simp only [Table.getElem?_erase]
      split
      · rfl
      · exact inv.keys name
    · intro name other found
      simp only [Table.getElem?_erase] at found
      split at found
      · cases found
      · rename_i apart
        have entry' := inv.registered name other found
        have away : slot ≠ other := by
          rintro rfl
          rw [entry] at entry'
          exact apart (Option.some.inj entry').symm
        simp only [getElem?_set, away, ↓reduceIte]
        exact entry'
    · intro other name found named
      simp only [getElem?_set] at found
      split at found
      · exact absurd (Option.some.inj found).symm named
      · rename_i away
        have apart : name ≠ id := by
          rintro rfl
          exact away ((inv.registry_iff nonempty held other).mp found).symm
        simp only [Table.getElem?_erase, apart, ↓reduceIte]
        exact inv.named other name found named
    · rw [Table.getElem?_erase, if_neg (Ne.symm nonempty), inv.nonempty]
    · intro other freed
      simp only [getElem?_set]
      split
      · rfl
      · rename_i away
        rcases mem_append.mp freed with old | new
        · exact inv.free other old
        · exact absurd (mem_singleton.mp new).symm away
    · simp only [nodup_append, nodup_singleton, mem_singleton]
      refine ⟨inv.distinct, trivial, ?_⟩
      rintro a freed b rfl rfl
      have empty := inv.free a freed
      rw [entry] at empty
      exact nonempty (Option.some.inj empty)
    · have shape := remove_live inv nonempty held
      unfold live at shape ⊢
      rw [shape]
      exact index

/-- What a rebuild has after the registry entries `done`: their slots and vectors, and no more. -/
structure Rebuilt (shard : Shard dimensions) (done : List String)
    (state : Table String Nat × SparseInvertedIndex) : Prop where
  slots : ∀ (id : String) (slot : Nat), state.1[id]? = some slot ↔
    done[slot]? = some id ∧ shard.vectors[id]?.isSome
  index : state.2.Represents fun slot => (done[slot]?).bind fun id =>
    (shard.vectors[id]?).map EntangledHVec.indices
  width : state.2.dimensions = dimensions

theorem rebuildEntry_rebuilt (inv : Invariant shard) {done todo : List String}
    (split : shard.registry = done ++ id :: todo) (rebuilt : Rebuilt shard done state) :
    Rebuilt shard (done ++ [id]) (rebuildEntry shard.vectors state (id, done.length)) := by
  have here : shard.registry[done.length]? = some id := by simp [split]
  have below (slot : Nat) (other : String) (entry : done[slot]? = some other) :
      shard.registry[slot]? = some other ∧ slot < done.length := by
    have inside := (List.getElem?_eq_some_iff.mp entry).1
    rw [split, getElem?_append_left inside]
    exact ⟨entry, inside⟩
  have extend (slot : Nat) (apart : slot ≠ done.length) : (done ++ [id])[slot]? = done[slot]? := by
    rw [getElem?_append]
    split
    · rfl
    · rename_i outside
      rw [getElem?_eq_none (Nat.not_lt.mp outside), getElem?_eq_none (by simp; omega)]
  have last : (done ++ [id])[done.length]? = some id := by simp
  unfold rebuildEntry
  cases present : shard.vectors[id]? with
  | none =>
    have same (slot : Nat) : ((done ++ [id])[slot]?).bind (fun name =>
        (shard.vectors[name]?).map EntangledHVec.indices) =
        (done[slot]?).bind (fun name => (shard.vectors[name]?).map EntangledHVec.indices) := by
      by_cases at_ : slot = done.length
      · rw [at_, last, getElem?_eq_none (Nat.le_refl _)]
        simp [present]
      · rw [extend slot at_]
    refine ⟨?_, ?_, rebuilt.width⟩
    · intro name slot
      rw [rebuilt.slots name slot]
      by_cases at_ : slot = done.length
      · rw [at_, last, getElem?_eq_none (Nat.le_refl _)]
        simp only [reduceCtorEq, false_and, false_iff, not_and]
        rintro same
        rw [← Option.some.inj same, present]
        simp
      · rw [extend slot at_]
    · simp only [same]
      exact rebuilt.index
  | some vector =>
    have nonempty : id ≠ "" := by
      rintro rfl
      simp [inv.nonempty] at present
    have own := inv.named done.length id here nonempty
    have vacant : (done[done.length]?).bind (fun name =>
        (shard.vectors[name]?).map EntangledHVec.indices) = none := by simp
    obtain ⟨index, width⟩ := SparseInvertedIndex.addDoc_represents state.2 rebuilt.index done.length vacant
      vector.indices vector.ascending.nodup (by rw [rebuilt.width]; exact vector.bounded)
    refine ⟨?_, ?_, width.trans rebuilt.width⟩
    · intro name slot
      simp only [Table.getElem?_insert]
      by_cases mine : name = id
      · subst mine
        simp only [↓reduceIte, Option.some.injEq, present, Option.isSome_some, and_true]
        constructor
        · rintro rfl
          exact last
        · intro entry
          by_cases at_ : slot = done.length
          · exact at_.symm
          · rw [extend slot at_] at entry
            have registered := inv.named slot name (below slot name entry).1 nonempty
            rw [own] at registered
            exact Option.some.inj registered
      · rw [if_neg mine, rebuilt.slots name slot]
        by_cases at_ : slot = done.length
        · rw [at_, last, getElem?_eq_none (Nat.le_refl _)]
          simp [Ne.symm mine]
        · rw [extend slot at_]
    · have shape : (fun slot => ((done ++ [id])[slot]?).bind fun name =>
          (shard.vectors[name]?).map EntangledHVec.indices) =
          Function.update (fun slot => (done[slot]?).bind fun name =>
            (shard.vectors[name]?).map EntangledHVec.indices) done.length (some vector.indices) := by
        funext slot
        by_cases at_ : slot = done.length
        · subst at_
          rw [Function.update_self, last]
          simp [present]
        · rw [Function.update_of_ne at_, extend slot at_]
      rw [shape]
      exact index

theorem rebuild_rebuilt {shard : Shard dimensions} (inv : Invariant shard) (done todo : List String)
    (split : shard.registry = done ++ todo) (rebuilt : Rebuilt shard done state) :
    Rebuilt shard shard.registry ((todo.zipIdx done.length).foldl (rebuildEntry shard.vectors) state) := by
  induction todo generalizing done state with
  | nil =>
    rw [append_nil] at split
    exact split ▸ rebuilt
  | cons id todo ih =>
    have next := rebuildEntry_rebuilt inv split rebuilt
    have later := ih (done ++ [id]) (by simp [split]) next
    rw [length_append] at later
    exact later

theorem rebuildInvertedIndex_invariant {shard : Shard dimensions} (inv : Invariant shard) :
    Invariant shard.rebuildInvertedIndex := by
  have start : Rebuilt shard [] (∅, .new dimensions (max (dimensions / 256) 1)) := by
    refine ⟨?_, ?_, rfl⟩
    · intro id slot
      simp
    · simpa using SparseInvertedIndex.new_represents dimensions (max (dimensions / 256) 1)
  have rebuilt := rebuild_rebuilt inv [] shard.registry rfl start
  unfold rebuildInvertedIndex
  rw [length_nil] at rebuilt
  generalize shard.registry.zipIdx.foldl (rebuildEntry shard.vectors)
    (∅, .new dimensions (max (dimensions / 256) 1)) = built at rebuilt
  refine ⟨?_, ?_, ?_, inv.nonempty, by simp, by simp, ?_, rebuilt.width, Accumulator.new_ready _, inv.count⟩
  · intro id
    rw [Bool.eq_iff_iff, Option.isSome_iff_exists]
    constructor
    · rintro ⟨slot, held⟩
      exact ((rebuilt.slots id slot).mp held).2
    · intro present
      obtain ⟨slot, held⟩ : ∃ slot, shard.slots[id]? = some slot := by
        rw [← Option.isSome_iff_exists, inv.keys]
        exact present
      exact ⟨slot, (rebuilt.slots id slot).mpr ⟨inv.registered id slot held, present⟩⟩
  · intro id slot held
    exact ((rebuilt.slots id slot).mp held).1
  · intro slot id entry named
    have held := inv.named slot id entry named
    refine (rebuilt.slots id slot).mpr ⟨entry, ?_⟩
    rw [← inv.keys, held]
    rfl
  · exact SparseInvertedIndex.finalize_represents rebuilt.index

end Warm.Shard
