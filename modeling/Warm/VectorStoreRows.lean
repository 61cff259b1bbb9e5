import Warm.VectorStore

/-! What the calls of a write do to the map an index serves and to the dirty marker, and what is known of
the documents on their way into the engine. -/
namespace Warm.Server.VectorIndex

open List

section Effects

variable {served : Map}

theorem foldl_deleteFrame (ids : List String) (id : String) :
    ((ids.map deleteFrame).foldl Frame.applyTo served) id = if id ∈ ids then none else served id := by
  induction ids generalizing served with
  | nil => rfl
  | cons first ids ih =>
    have kind : (deleteFrame first).kind ≠ UPSERT := by
      change DELETE ≠ UPSERT
      decide
    have front : Frame.applyTo served (deleteFrame first) id = if id = first then none else served id := by
      rw [Frame.applyTo, if_neg kind]
      rfl
    rw [map_cons, foldl_cons, ih, front]
    by_cases later : id ∈ ids
    · rw [if_pos later, if_pos (mem_cons_of_mem _ later)]
    · rw [if_neg later]
      by_cases own : id = first
      · rw [if_pos own, if_pos (by rw [own]; exact mem_cons_self)]
      · rw [if_neg own, if_neg (by rw [mem_cons, not_or]; exact ⟨own, later⟩)]

theorem effect_remove (ids : List String) (id : String) :
    (Call.remove ids).effect served id = if id ∈ ids then none else served id := by
  rw [Call.effect, Call.framesOn, Call.frames, foldl_deleteFrame]
  by_cases known : (served id).isSome
  · by_cases member : id ∈ ids
    · rw [if_pos member, if_pos (mem_filter.mpr ⟨member, known⟩)]
    · rw [if_neg member, if_neg fun kept => member (mem_filter.mp kept).1]
  · have out : id ∉ ids.filter fun id => (served id).isSome := fun kept => known (mem_filter.mp kept).2
    rw [if_neg out]
    rw [Bool.not_eq_true, Option.isSome_eq_false_iff, Option.isNone_iff_eq_none] at known
    rw [known, ite_self]

theorem foldl_upsertFrame (distinct : (docs.map Prod.fst).Nodup) (id : String) :
    ((docs.map upsertFrame).foldl Frame.applyTo served) id = (listed docs id).or (served id) := by
  rw [foldl_map]
  refine Table.read_foldl (fun served id => served id) (fun _ => True) (fun _ _ _ => trivial) (fun served doc _ a => ?_)
    distinct served trivial id
  have kind : (upsertFrame doc).kind = UPSERT := rfl
  rw [Frame.applyTo, if_pos kind]
  rfl

theorem effect_stage (distinct : (docs.map Prod.fst).Nodup) (id : String) :
    (Call.stage docs).effect served id = (listed docs id).or (served id) := foldl_upsertFrame distinct id

theorem mem_of_listed {id : String} {row : UInt64 × Vector} (found : listed docs id = some row) : (id, row) ∈ docs := by
  rw [listed, Option.map_eq_some_iff] at found
  obtain ⟨doc, found, rfl⟩ := found
  have own : doc.1 = id := of_decide_eq_true (find?_some (p := fun row : String × UInt64 × Vector => decide (row.1 = id)) found)
  rw [← own]
  exact mem_of_find?_eq_some found

theorem listed_of_mem (distinct : (docs.map Prod.fst).Nodup) {id : String} {row : UInt64 × Vector}
    (member : (id, row) ∈ docs) : listed docs id = some row := by
  rw [listed, (find?_key_eq_some distinct id (id, row)).mpr ⟨member, rfl⟩]
  rfl

theorem mem_stale (serving : Serving dim state served) (keep : String → UInt64 → Bool) (id : String) :
    id ∈ stale state keep ↔ ∃ row : UInt64 × Vector, served id = some row ∧ keep id row.1 = false := by
  have tokens := serving.filled.tokens
  rw [stale, mem_filterMap]
  constructor
  · rintro ⟨⟨slotId, token⟩, member, kept⟩
    rw [Option.filter_eq_some_iff] at kept
    obtain ⟨rfl, gone⟩ := kept
    obtain ⟨slot, at_slot⟩ := getElem?_of_mem member
    rw [getElem?_zip_eq_some] at at_slot
    have known := (serving.agrees.slots id slot).mpr at_slot.1
    refine ⟨(token, state.row slot), ?_, by simpa using gone⟩
    rw [← serving.serves, State.serves, known, Option.map_some, getD_eq_getElem?_getD, at_slot.2]
    rfl
  · rintro ⟨row, found, gone⟩
    rw [← serving.serves, State.serves, Option.map_eq_some_iff] at found
    obtain ⟨slot, known, rfl⟩ := found
    have held := (serving.agrees.slots id slot).mp known
    have inside := (List.getElem?_eq_some_iff.mp held).1
    rw [← tokens] at inside
    refine ⟨(some id, state.tokens[slot]), ?_, ?_⟩
    · exact mem_of_getElem? (getElem?_zip_eq_some.mpr ⟨held, getElem?_eq_getElem inside⟩)
    · dsimp only at gone
      rw [getD_eq_getElem?_getD, getElem?_eq_getElem inside, Option.getD_some] at gone
      rw [Option.filter_some, gone]
      rfl

end Effects

section Marker

variable {crc : Bytes → UInt32} {dim : Nat} {disk disk' : Disk} {memory memory' : Memory}

/-- The marker is there when the index thinks so. -/
def Marked (disk : Disk) (memory : Memory) : Prop := memory.dirty = true → disk.dirty = true

theorem writeLog_dirty (disk : Disk) (memory : Memory) (data : Bytes) :
    (writeLog disk memory data).1.dirty = disk.dirty ∧ (writeLog disk memory data).2.dirty = memory.dirty := by
  rw [writeLog]
  split <;> exact ⟨rfl, rfl⟩

theorem marked_dirty (mark : Marked disk memory) : (marked disk memory).dirty = true := by
  change (disk.dirty || !memory.dirty) = true
  cases own : memory.dirty with
  | false => exact Bool.or_true _
  | true => rw [mark own, Bool.true_or]

theorem runCall_marks (mark : Marked disk memory) {done : Bool}
    (ran : runCall dim crc disk memory call fault = (disk', memory', done)) :
    Marked disk' memory' ∧ (disk.dirty = true → disk'.dirty = true) ∧
      (done = true → call.idle memory.state = false → disk'.dirty = true) := by
  have appended (data : Bytes) : (append disk memory data fault).1.dirty = true ∨
      (append disk memory data fault).2.2 = false ∧ (append disk memory data fault).2.1 = memory ∧
        (disk.dirty = true → (append disk memory data fault).1.dirty = true) := by
    rcases fault with _ | created | count
    · exact .inl ((writeLog_dirty _ _ _).1.trans (marked_dirty mark))
    · refine .inr ⟨rfl, rfl, fun own => ?_⟩
      change (disk.dirty || created) = true
      rw [own, Bool.true_or]
    · exact .inl ((writeLog_dirty _ _ _).1.trans (marked_dirty mark))
  rw [runCall] at ran
  split at ran
  next =>
    cases ran
    exact ⟨mark, id, fun done => by cases done⟩
  split at ran
  next idle =>
    cases ran
    exact ⟨mark, id, fun _ busy => absurd idle (by rw [busy]; exact Bool.false_ne_true)⟩
  next =>
    have marks := appended (call.bytes crc memory.state)
    generalize append disk memory (call.bytes crc memory.state) fault = result at ran marks
    obtain ⟨disk'', memory'', returned⟩ := result
    have same : disk'' = disk' ∧ (returned = false → memory'' = memory') ∧ returned = done := by
      cases returned with
      | true =>
        cases ran
        exact ⟨rfl, fun early => (by cases early), rfl⟩
      | false =>
        cases ran
        exact ⟨rfl, fun _ => rfl, rfl⟩
    obtain ⟨rfl, kept, rfl⟩ := same
    rcases marks with dirty | ⟨failed, rfl, later⟩
    · exact ⟨fun _ => dirty, fun _ => dirty, fun _ _ => dirty⟩
    · refine ⟨?_, later, fun done => ?_⟩
      · rw [← kept failed]
        exact fun own => later (mark own)
      · rw [done] at failed
        cases failed

theorem crashCall_marks (mark : Marked disk memory) (call : Call) (written : Nat) :
    (disk.dirty = true → (crashCall dim crc disk memory call written).dirty = true) ∧
      (call.appends dim memory.state → (crashCall dim crc disk memory call written).dirty = true) := by
  rw [crashCall]
  split
  next early =>
    refine ⟨id, fun appends => ?_⟩
    rw [appends.1, appends.2] at early
    cases early
  next =>
    have dirty := (writeLog_dirty (marked disk memory) memory ((call.bytes crc memory.state).take written)).1
    rw [dirty]
    exact ⟨fun _ => marked_dirty mark, fun _ => marked_dirty mark⟩

theorem openIndex_marks (fault : Option OpenFault) :
    (openIndex crc dim fault disk).disk.dirty = disk.dirty ∧
      ∀ memory, (openIndex crc dim fault disk).memory = some memory → memory.dirty = false ∧ memory.build = none := by
  rw [openIndex]
  split
  next => exact ⟨rfl, fun memory opened => by cases opened⟩
  dsimp only
  split
  next =>
    split
    next => exact ⟨rfl, fun memory opened => by cases opened⟩
    next =>
      refine ⟨rfl, fun memory opened => ?_⟩
      cases opened
      exact ⟨rfl, rfl⟩
  next =>
    split
    next =>
      refine ⟨?_, fun memory opened => by cases opened⟩
      split <;> rfl
    next => exact ⟨rfl, fun memory opened => by cases opened⟩
    next =>
      refine ⟨rfl, fun memory opened => ?_⟩
      cases opened
      exact ⟨rfl, rfl⟩

theorem openIndex_isSome (pos : 0 < dim) : (openIndex crc dim none disk).memory.isSome = true := by
  rw [openIndex, if_neg (by simp; omega)]
  dsimp only
  split
  next =>
    rw [if_neg (by simp)]
    rfl
  next => rfl

theorem maintain_marks (ran : maintain crc dim disk memory step = some (disk', memory')) :
    disk'.dirty = disk.dirty ∧ memory'.dirty = memory.dirty := by
  cases pass : memory.build with
  | none =>
    cases step with
    | begin graphMinRows force =>
      obtain ⟨rfl, build, _, rfl⟩ := captured_of_begin pass ran
      exact ⟨rfl, rfl⟩
    | _ =>
      unfold maintain at ran
      rw [pass] at ran
      cases ran
  | some build =>
    have inner := maintain_ran pass ran
    cases inner with
    | rotated phase =>
      unfold maintain at ran
      rw [pass] at ran
      dsimp only at ran
      rw [phase] at ran
      dsimp only at ran
      split at ran
      next =>
        cases ran
        exact ⟨rfl, rfl⟩
      next =>
        cases ran
        exact ⟨rfl, rfl⟩
    | swept phase log current files =>
      unfold maintain at ran
      rw [pass] at ran
      dsimp only at ran
      rw [phase] at ran
      cases ran
      exact ⟨rfl, rfl⟩
    | _ => exact ⟨rfl, rfl⟩

theorem runCall_returns {call : Call} (valid : call.valid dim = true) :
    (runCall dim crc disk memory call none).2.2 = true := by
  rw [runCall, valid, Bool.not_true, if_neg Bool.false_ne_true]
  split <;> rfl

end Marker

section Worlds

variable {crc : Bytes → UInt32} {dim : Nat} {disk : Disk} {memory : Memory} {served : Map}

theorem Sound.free (sound : Sound crc dim ⟨disk, some memory⟩ served) (free : memory.build.any (·.holdsLog) = false) :
    Named served ∧ Ready crc dim disk memory served := by
  cases sound with
  | ready named ready => exact ⟨named, ready⟩
  | rotated build fresh tail named pass phase =>
    rw [pass, Option.any_some, Build.holdsLog, phase] at free
    cases free

theorem Sound.shut (sound : Sound crc dim ⟨disk, none⟩ served) : Named served ∧ Closed crc dim disk served := by
  cases sound with
  | closed named closed => exact ⟨named, closed⟩

theorem Sound.quiet {world : World} (sound : Sound crc dim world served) {event : Event} (clean : Clean crc dim world event)
    (quiet : (world.step crc dim event).2 = .quiet) : Sound crc dim (world.step crc dim event).1 served := by
  obtain ⟨next, accounts, sound'⟩ := step_keeps sound clean
  rw [quiet] at accounts
  cases accounts with
  | quiet rest =>
    cases rest
    exact sound'

theorem Sound.stopped (sound : Sound crc dim ⟨disk, some memory⟩ served) : Sound crc dim ⟨disk, none⟩ served :=
  @quiet crc dim served _ sound .stop trivial rfl

end Worlds

end Warm.Server.VectorIndex
