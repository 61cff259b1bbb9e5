import Warm.VectorIndexFrames
import Mathlib.Data.List.Nodup

/-! The state of the index in memory: its slots, the slot of each id and the number of live slots agree
after every change, and what it serves changes as the frames say. -/
namespace Warm.Server.VectorIndex

open List

/-- `byId` has each id at the one slot that holds it, and `live` counts those slots. -/
structure Agrees (state : State) : Prop where
  slots : ∀ (id : String) (slot : Nat), state.byId[id]? = some slot ↔ state.ids[slot]? = some (some id)
  live : state.live = state.ids.countP Option.isSome

/-- Every slot has its token and its vector. -/
structure Filled (state : State) : Prop where
  tokens : state.tokens.length = state.ids.length
  base : state.baseLen ≤ state.ids.length
  delta : state.delta.length = (state.ids.length - state.baseLen) * state.dim

namespace State

section

variable (state : State) (slot : Nat)
include state slot

@[simp] theorem tombstone_byId : (state.tombstone slot).byId = state.byId := by
  unfold tombstone
  split <;> rfl

@[simp] theorem tombstone_tokens : (state.tombstone slot).tokens = state.tokens := by
  unfold tombstone
  split <;> rfl

@[simp] theorem tombstone_delta : (state.tombstone slot).delta = state.delta := by
  unfold tombstone
  split <;> rfl

@[simp] theorem tombstone_dim : (state.tombstone slot).dim = state.dim := by
  unfold tombstone
  split <;> rfl

@[simp] theorem tombstone_baseLen : (state.tombstone slot).baseLen = state.baseLen := by
  unfold tombstone
  split <;> rfl

@[simp] theorem tombstone_base : (state.tombstone slot).base = state.base := by
  unfold tombstone
  split <;> rfl

end

@[simp] theorem tombstone_length (state : State) (slot : Nat) : (state.tombstone slot).ids.length = state.ids.length := by
  unfold tombstone
  split
  next => exact length_set
  next => rfl

theorem tombstone_ids {state : State} {id : String} (held : state.ids[slot]? = some (some id)) :
    (state.tombstone slot).ids = state.ids.set slot none ∧ (state.tombstone slot).live = state.live - 1 := by
  rw [tombstone, held]
  exact ⟨rfl, rfl⟩

end State

section Changes

variable {state : State} {id : String}

theorem countP_set_none {ids : List (Option String)} (held : ids[slot]? = some (some id)) :
    (ids.set slot none).countP Option.isSome = ids.countP Option.isSome - 1 := by
  obtain ⟨inside, own⟩ := List.getElem?_eq_some_iff.mp held
  rw [countP_set inside, own]
  simp

/-- The state `upsert` appends a slot to. -/
def cleared (state : State) (id : String) : State :=
  match state.byId[id]? with
  | some previous => state.tombstone previous
  | none => state

theorem upsert_eq (state : State) (id : String) (token : UInt64) (vector : Vector) :
    state.upsert id token vector = { cleared state id with
      ids := (cleared state id).ids ++ [some id]
      tokens := (cleared state id).tokens ++ [token]
      delta := (cleared state id).delta ++ vector
      byId := (cleared state id).byId.insert id (cleared state id).ids.length
      live := (cleared state id).live + 1
      mutations := (cleared state id).mutations + 1 } := rfl

theorem cleared_slots (agrees : Agrees state) (a : String) (slot : Nat) :
    (cleared state id).ids[slot]? = some (some a) ↔ a ≠ id ∧ state.ids[slot]? = some (some a) := by
  rw [cleared]
  cases found : state.byId[id]? with
  | none =>
    refine ⟨fun held => ⟨?_, held⟩, fun both => both.2⟩
    rintro rfl
    rw [(agrees.slots a slot).mpr held] at found
    cases found
  | some previous =>
    have own := (agrees.slots id previous).mp found
    rw [(State.tombstone_ids own).1, getElem?_set]
    by_cases same : previous = slot
    · subst same
      have inside := (List.getElem?_eq_some_iff.mp own).1
      simp only [inside, ↓reduceIte, Option.some.injEq, reduceCtorEq, false_iff, not_and]
      intro other held
      rw [own] at held
      cases held
      exact other rfl
    · rw [if_neg same]
      refine ⟨fun held => ⟨?_, held⟩, fun both => both.2⟩
      rintro rfl
      exact same (Option.some.inj (found.symm.trans ((agrees.slots a slot).mpr held)))

theorem cleared_live (agrees : Agrees state) :
    (cleared state id).live = (cleared state id).ids.countP Option.isSome := by
  rw [cleared]
  cases found : state.byId[id]? with
  | none => exact agrees.live
  | some previous =>
    have own := (agrees.slots id previous).mp found
    rw [(State.tombstone_ids own).1, (State.tombstone_ids own).2, countP_set_none own, agrees.live]

theorem cleared_same (state : State) (id : String) :
    (cleared state id).ids.length = state.ids.length ∧ (cleared state id).tokens = state.tokens ∧
      (cleared state id).delta = state.delta ∧ (cleared state id).byId = state.byId ∧ (cleared state id).dim = state.dim ∧
        (cleared state id).baseLen = state.baseLen ∧ (cleared state id).base = state.base := by
  rw [cleared]
  split <;> simp

theorem agrees_upsert (agrees : Agrees state) (token : UInt64) (vector : Vector) :
    Agrees (state.upsert id token vector) := by
  obtain ⟨length, _, _, byId, _⟩ := cleared_same state id
  refine ⟨fun a slot => ?_, ?_⟩
  · rw [upsert_eq]
    change ((cleared state id).byId.insert id (cleared state id).ids.length)[a]? = some slot ↔
      ((cleared state id).ids ++ [some id])[slot]? = some (some a)
    rw [Table.getElem?_insert, byId, length, getElem?_append]
    have held : (cleared state id).ids[slot]? = some (some a) ↔ a ≠ id ∧ state.ids[slot]? = some (some a) :=
      cleared_slots agrees a slot
    by_cases own : a = id
    · subst own
      rw [if_pos rfl]
      by_cases inside : slot < (cleared state a).ids.length
      · rw [if_pos inside, held]
        constructor
        · intro same
          have := Option.some.inj same
          omega
        · exact fun both => absurd rfl both.1
      · rw [if_neg inside, getElem?_singleton, length]
        rw [length] at inside
        constructor
        · intro same
          rw [Option.some.inj same]
          simp
        · intro found
          split at found
          next level => exact congrArg some (by omega)
          next => cases found
    · rw [if_neg own, agrees.slots]
      by_cases inside : slot < (cleared state id).ids.length
      · rw [if_pos inside, held]
        exact ⟨fun found => ⟨own, found⟩, fun both => both.2⟩
      · rw [if_neg inside]
        constructor
        · intro found
          have := (List.getElem?_eq_some_iff.mp found).1
          omega
        · intro found
          rw [getElem?_singleton] at found
          split at found
          next => exact absurd (Option.some.inj (Option.some.inj found)).symm own
          next => cases found
  · rw [upsert_eq]
    rw [countP_append, cleared_live agrees]
    rfl

theorem filled_upsert (filled : Filled state) (token : UInt64) (length : vector.length = state.dim) :
    Filled (state.upsert id token vector) := by
  obtain ⟨ids, tokens, delta, _, dim, baseLen, _⟩ := cleared_same state id
  have base := filled.base
  have size := filled.delta
  rw [upsert_eq]
  refine ⟨?_, ?_, ?_⟩
  · change ((cleared state id).tokens ++ [token]).length = ((cleared state id).ids ++ [some id]).length
    rw [length_append, length_append, tokens, ids, filled.tokens]
    rfl
  · change (cleared state id).baseLen ≤ ((cleared state id).ids ++ [some id]).length
    rw [length_append, ids, baseLen]
    omega
  · change ((cleared state id).delta ++ vector).length =
      (((cleared state id).ids ++ [some id]).length - (cleared state id).baseLen) * (cleared state id).dim
    rw [length_append, length_append, delta, ids, baseLen, dim, size, length, length_singleton,
      Nat.sub_add_comm base, Nat.succ_mul]

theorem row_upsert (filled : Filled state) (token : UInt64) (vector : Vector) (inside : slot < state.ids.length) :
    (state.upsert id token vector).row slot = state.row slot := by
  obtain ⟨ids, tokens, delta, _, dim, baseLen, base⟩ := cleared_same state id
  rw [upsert_eq, State.row, State.row]
  rw [baseLen, base, delta, dim]
  split
  next => rfl
  next above =>
    have size := filled.delta
    have room : (slot - state.baseLen + 1) * state.dim ≤ (state.ids.length - state.baseLen) * state.dim :=
      Nat.mul_le_mul_right _ (by omega)
    rw [Nat.succ_mul, ← size] at room
    rw [drop_append_of_le_length (by omega), take_append_of_le_length]
    rw [length_drop]
    omega

theorem serves_upsert (agrees : Agrees state) (filled : Filled state) (token : UInt64)
    (length : vector.length = state.dim) (a : String) :
    (state.upsert id token vector).serves a = if a = id then some (token, vector) else state.serves a := by
  obtain ⟨ids, tokens, delta, byId, dim, baseLen, base⟩ := cleared_same state id
  have slots : (state.upsert id token vector).byId[a]? =
      if a = id then some state.ids.length else state.byId[a]? := by
    rw [upsert_eq]
    rw [Table.getElem?_insert, byId, ids]
  have appended : (state.upsert id token vector).tokens = state.tokens ++ [token] := by
    rw [upsert_eq, ← tokens]
  rw [State.serves, slots]
  by_cases own : a = id
  · rw [if_pos own, if_pos own, Option.map_some, appended]
    have last : (state.upsert id token vector).row state.ids.length = vector := by
      have size := filled.delta
      rw [upsert_eq, State.row]
      rw [baseLen, if_neg (by have := filled.base; omega), delta, dim, ← size, drop_left, ← length, take_length]
    rw [last, ← filled.tokens, getD_eq_getElem?_getD, getElem?_concat_length]
    rfl
  · rw [if_neg own, if_neg own, State.serves]
    cases found : state.byId[a]? with
    | none => rfl
    | some slot =>
      have inside := (List.getElem?_eq_some_iff.mp ((agrees.slots a slot).mp found)).1
      rw [Option.map_some, Option.map_some, appended, row_upsert filled token vector inside, getD_eq_getElem?_getD,
        getElem?_append_left (by rw [filled.tokens]; exact inside), getD_eq_getElem?_getD]

theorem delete_of_absent (absent : state.byId[id]? = none) : state.delete id = state := by
  rw [State.delete, absent]

theorem delete_of_held {slot : Nat} (agrees : Agrees state) (found : state.byId[id]? = some slot) :
    (state.delete id).byId = state.byId.erase id ∧ (state.delete id).ids = state.ids.set slot none ∧
      (state.delete id).live = state.live - 1 ∧ (state.delete id).tokens = state.tokens ∧
      (state.delete id).delta = state.delta ∧ (state.delete id).dim = state.dim ∧
      (state.delete id).baseLen = state.baseLen ∧ (state.delete id).base = state.base := by
  have own : ({ state with byId := state.byId.erase id } : State).ids[slot]? = some (some id) :=
    (agrees.slots id slot).mp found
  have cut := State.tombstone_ids own
  rw [State.delete, found]
  refine ⟨?_, cut.1, cut.2, ?_, ?_, ?_, ?_, ?_⟩ <;> simp

theorem agrees_delete (agrees : Agrees state) (id : String) : Agrees (state.delete id) := by
  cases found : state.byId[id]? with
  | none => rwa [delete_of_absent found]
  | some slot =>
    obtain ⟨byId, ids, live, _⟩ := delete_of_held agrees found
    have own := (agrees.slots id slot).mp found
    refine ⟨fun a other => ?_, ?_⟩
    · rw [byId, ids, Table.getElem?_erase, getElem?_set]
      by_cases same : slot = other
      · subst same
        have inside := (List.getElem?_eq_some_iff.mp own).1
        by_cases named : a = id
        · simp [named, inside]
        · have apart : state.byId[a]? ≠ some slot := by
            intro held
            have both := (agrees.slots a slot).mp held
            rw [own] at both
            exact named (Option.some.inj (Option.some.inj both)).symm
          simp [named, inside, apart]
      · rw [if_neg same]
        by_cases named : a = id
        · subst named
          rw [if_pos rfl]
          constructor
          · intro gone
            cases gone
          · intro held
            exact absurd (Option.some.inj (found.symm.trans ((agrees.slots a other).mpr held))) same
        · rw [if_neg named, agrees.slots]
    · rw [live, ids, countP_set_none own, agrees.live]

theorem filled_delete (agrees : Agrees state) (filled : Filled state) (id : String) : Filled (state.delete id) := by
  cases found : state.byId[id]? with
  | none => rwa [delete_of_absent found]
  | some slot =>
    obtain ⟨_, ids, _, tokens, delta, dim, baseLen, _⟩ := delete_of_held agrees found
    refine ⟨?_, ?_, ?_⟩
    · rw [tokens, ids, length_set, filled.tokens]
    · rw [baseLen, ids, length_set]
      exact filled.base
    · rw [delta, ids, length_set, baseLen, dim]
      exact filled.delta

theorem serves_delete (agrees : Agrees state) (a : String) :
    (state.delete id).serves a = if a = id then none else state.serves a := by
  cases found : state.byId[id]? with
  | none =>
    rw [delete_of_absent found]
    split
    next own => rw [State.serves, own, found, Option.map_none]
    next => rfl
  | some slot =>
    obtain ⟨byId, _, _, tokens, delta, dim, baseLen, base⟩ := delete_of_held agrees found
    have row (i : Nat) : (state.delete id).row i = state.row i := by
      rw [State.row, State.row, delta, dim, baseLen, base]
    rw [State.serves, byId, Table.getElem?_erase, tokens]
    split
    next => rfl
    next =>
      rw [State.serves]
      exact congrArg (Option.map · _) (funext fun i => by rw [row])

end Changes

def Frame.applyTo (served : Map) (frame : Frame) : Map := fun a =>
  if a = frame.id then if frame.kind = UPSERT then some (frame.token, frame.vector) else none else served a

/-- A state whose parts agree and that serves the map. -/
structure Serving (dim : Nat) (state : State) (served : Map) : Prop where
  agrees : Agrees state
  filled : Filled state
  dim : state.dim = dim
  serves : state.serves = served

theorem delete_dim (agrees : Agrees state) (id : String) : (state.delete id).dim = state.dim := by
  cases found : state.byId[id]? with
  | none => rw [delete_of_absent found]
  | some slot => exact (delete_of_held agrees found).2.2.2.2.2.1

theorem serving_applyFrame (serving : Serving dim state served) (fits : frame.Fits dim) :
    Serving dim (applyFrame state frame) (frame.applyTo served) := by
  obtain ⟨agrees, filled, rfl, rfl⟩ := serving
  rw [applyFrame]
  rcases fits.shape with ⟨kind, length⟩ | ⟨kind, _⟩
  · rw [if_pos kind]
    refine ⟨agrees_upsert agrees _ _, filled_upsert filled _ length, (cleared_same state frame.id).2.2.2.2.1, funext fun a => ?_⟩
    rw [serves_upsert agrees filled _ length, Frame.applyTo, if_pos kind]
  · have other : frame.kind ≠ UPSERT := by
      rw [kind]
      decide
    rw [if_neg other]
    refine ⟨agrees_delete agrees _, filled_delete agrees filled _, delete_dim agrees _, funext fun a => ?_⟩
    rw [serves_delete agrees, Frame.applyTo, if_neg other]

theorem serving_foldl {state : State} {served : Map} (serving : Serving dim state served) {frames : List Frame}
    (fit : ∀ frame ∈ frames, frame.Fits dim) :
    Serving dim (frames.foldl applyFrame state) (frames.foldl Frame.applyTo served) := by
  induction frames generalizing state served with
  | nil => exact serving
  | cons frame frames ih =>
    exact ih (serving_applyFrame serving (fit frame (by simp))) (forall_mem_cons.mp fit).2

theorem serving_empty (dim : Nat) : Serving dim (.empty dim) fun _ => none := by
  refine ⟨⟨fun id slot => ?_, rfl⟩, ⟨rfl, Nat.le_refl _, ?_⟩, rfl, ?_⟩
  · simp [State.empty]
  · simp [State.empty]
  · funext id
    simp [State.serves, State.empty]

section Snapshot

def listed (rows : List (String × UInt64 × Vector)) : Map := fun id => (rows.find? fun row => row.1 = id).map Prod.snd

theorem getElem?_byId {ids : List String} (distinct : ids.Nodup) (id : String) (slot : Nat) :
    (ids.zipIdx.foldl (fun table entry => table.insert entry.1 entry.2) (∅ : Table String Nat))[id]? = some slot ↔
      ids[slot]? = some id := by
  have keys : (ids.zipIdx.map Prod.fst).Nodup := by rwa [zipIdx_map_fst]
  rw [Table.getElem?_foldl_insert Prod.fst Prod.snd keys]
  have absent : (∅ : Table String Nat)[id]? = none := by simp
  rw [absent, Option.or_none, Option.map_eq_some_iff]
  constructor
  · rintro ⟨entry, found, rfl⟩
    obtain ⟨member, rfl⟩ := (find?_key_eq_some keys id entry).mp found
    exact mk_mem_zipIdx_iff_getElem?.mp member
  · intro held
    exact ⟨(id, slot), (find?_key_eq_some keys id _).mpr ⟨mk_mem_zipIdx_iff_getElem?.mpr held, rfl⟩, rfl⟩

theorem serving_ofBase (dim : Nat) (graph : Bool) {rows : List (String × UInt64 × Vector)}
    (distinct : (rows.map Prod.fst).Nodup) :
    Serving dim (.ofBase dim ⟨graph, rows.map fun row => row.2.2, rows.length⟩ (rows.map Prod.fst)
      (rows.map fun row => row.2.1)) (listed rows) := by
  refine ⟨⟨fun id slot => ?_, ?_⟩, ⟨?_, ?_, ?_⟩, rfl, ?_⟩
  · refine (getElem?_byId distinct id slot).trans ?_
    change (rows.map Prod.fst)[slot]? = some id ↔ ((rows.map Prod.fst).map some)[slot]? = some (some id)
    rw [getElem?_map (f := some)]
    cases (rows.map Prod.fst)[slot]? <;> simp
  · change rows.length = ((rows.map Prod.fst).map some).countP Option.isSome
    rw [countP_eq_length.mpr]
    · rw [length_map, length_map]
    · intro id member
      obtain ⟨a, _, rfl⟩ := mem_map.mp member
      rfl
  · simp [State.ofBase]
  · simp [State.ofBase]
  · simp [State.ofBase]
  · funext id
    rw [State.serves, listed]
    cases found : (State.ofBase dim ⟨graph, rows.map fun row => row.2.2, rows.length⟩ (rows.map Prod.fst)
        (rows.map fun row => row.2.1)).byId[id]? with
    | none =>
      have absent : rows.find? (fun row => row.1 = id) = none := by
        refine find?_eq_none.mpr fun row member own => ?_
        obtain ⟨slot, held⟩ := getElem?_of_mem member
        have known := (getElem?_byId distinct id slot).mpr
          (by rw [getElem?_map, held, Option.map_some, of_decide_eq_true own])
        have gone := found.symm.trans known
        cases gone
      rw [absent]
      rfl
    | some slot =>
      have held := (getElem?_byId distinct id slot).mp found
      rw [getElem?_map, Option.map_eq_some_iff] at held
      obtain ⟨row, own, rfl⟩ := held
      have chosen := (find?_key_eq_some distinct row.1 row).mpr ⟨mem_of_getElem? own, rfl⟩
      obtain ⟨inside, same⟩ := List.getElem?_eq_some_iff.mp own
      rw [chosen, Option.map_some, Option.map_some]
      simp [State.ofBase, State.row, inside, same]

theorem listed_liveRows (agrees : Agrees state) :
    (state.liveRows.map Prod.fst).Nodup ∧ listed state.liveRows = state.serves := by
  have member (row : String × UInt64 × Vector) : row ∈ state.liveRows ↔
      ∃ slot, state.byId[row.1]? = some slot ∧ row.2 = (state.tokens.getD slot 0, state.row slot) := by
    rw [State.liveRows, mem_filterMap]
    constructor
    · rintro ⟨slot, _, made⟩
      obtain ⟨id, held, rfl⟩ := Option.map_eq_some_iff.mp made
      exact ⟨slot, (agrees.slots id slot).mpr (Option.join_eq_some_iff.mp held), rfl⟩
    · rintro ⟨slot, found, same⟩
      have held := (agrees.slots row.1 slot).mp found
      refine ⟨slot, mem_range.mpr (List.getElem?_eq_some_iff.mp held).1, ?_⟩
      rw [held, Option.join_some, Option.map_some, ← same]
  have distinct : (state.liveRows.map Prod.fst).Nodup := by
    rw [List.Nodup, pairwise_map, State.liveRows, pairwise_filterMap]
    refine (nodup_range (n := state.ids.length)).imp fun {a b} apart => ?_
    rintro row made row' made' same
    obtain ⟨id, held, rfl⟩ := Option.map_eq_some_iff.mp made
    obtain ⟨id', held', rfl⟩ := Option.map_eq_some_iff.mp made'
    cases same
    have first := (agrees.slots _ _).mpr (Option.join_eq_some_iff.mp held)
    have second := (agrees.slots _ _).mpr (Option.join_eq_some_iff.mp held')
    exact apart (Option.some.inj (first.symm.trans second))
  refine ⟨distinct, funext fun id => ?_⟩
  rw [listed, State.serves]
  cases found : state.byId[id]? with
  | none =>
    rw [find?_eq_none.mpr]
    · rfl
    · intro row own same
      obtain ⟨slot, known, _⟩ := (member row).mp own
      rw [of_decide_eq_true same, found] at known
      cases known
  | some slot =>
    have own := (member (id, state.tokens.getD slot 0, state.row slot)).mpr ⟨slot, found, rfl⟩
    rw [(find?_key_eq_some distinct id _).mpr ⟨own, rfl⟩]
    rfl

end Snapshot

end Warm.Server.VectorIndex
