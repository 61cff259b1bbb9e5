import Mathlib.Data.List.Induction
import Warm.VectorStoreRuns

/-! Every clean step keeps the rows of the index those of the engine, and where the counts are equal there
are no others. -/
namespace Warm.Server.VectorStore

open VectorIndex List

section Rows

variable {server : Server} {core : Core} {served served' : Map} {excepted excepted' : String → Prop}

theorem Faithful.mono (faithful : Faithful server core served)
    (fewer : ∀ id row, served' id = some row → served id = some row) : Faithful server core served' :=
  fun id row record found => faithful id row record (fewer id row found)

theorem Aligned.mono (aligned : Aligned server core served excepted)
    (fewer : ∀ id row, served' id = some row → ¬ excepted' id → served id = some row ∧ ¬ excepted id) :
    Aligned server core served' excepted' := by
  intro id row out found
  obtain ⟨old, out'⟩ := fewer id row found out
  exact aligned id row out' old

theorem Faithful.stage (faithful : Faithful server core served) (fresh : Fresh core docs)
    (sub : ∀ row ∈ rows, row ∈ stagedRows docs) : Faithful server core fun id => (listed rows id).or (served id) := by
  intro id row record found held same
  rcases Option.or_eq_some_iff.mp found with own | ⟨_, old⟩
  · obtain ⟨doc, member, rfl, staged⟩ := mem_stagedRows.mp (sub _ (mem_of_listed own))
    exact absurd same (fresh doc member row staged record held)
  · exact faithful id row record old held same

theorem effect_remove_some {id : String} {row : UInt64 × Vector} (found : (Call.remove ids).effect served id = some row) :
    id ∉ ids ∧ served id = some row := by
  rw [effect_remove] at found
  split at found
  next => cases found
  next out => exact ⟨out, found⟩

theorem Faithful.remove (faithful : Faithful server core served) (ids : List String) :
    Faithful server core ((Call.remove ids).effect served) :=
  faithful.mono fun _ _ found => (effect_remove_some found).2

section

variable {docs : List Prepared} (distinct : (docs.map (·.id)).Nodup)
include distinct

theorem committed_cases {id : String}
    (held : (docs.foldl (fun core doc => core.insert doc.id doc.record) core)[id]? = some record) :
    (∃ doc ∈ docs, doc.id = id ∧ doc.record = record) ∨ core[id]? = some record := by
  rw [getElem?_committed distinct, Option.or_eq_some_iff, Option.map_eq_some_iff] at held
  rcases held with ⟨doc, found, same⟩ | ⟨_, old⟩
  · have own := (find?_key_eq_some distinct id doc).mp found
    exact .inl ⟨doc, own.1, own.2, same⟩
  · exact .inr old

theorem committed_own (member : doc ∈ docs) :
    (docs.foldl (fun core doc => core.insert doc.id doc.record) core)[doc.id]? = some doc.record := by
  rw [getElem?_committed distinct, (find?_key_eq_some distinct doc.id doc).mpr ⟨member, rfl⟩]
  rfl

theorem committed_other {id : String}
    (out : ∀ doc ∈ docs, doc.id ≠ id) :
    (docs.foldl (fun core doc => core.insert doc.id doc.record) core)[id]? = core[id]? := by
  have absent : docs.find? (fun doc => doc.id = id) = none :=
    find?_eq_none.mpr fun doc member own => out doc member (of_decide_eq_true own)
  rw [getElem?_committed distinct, absent, Option.map_none, Option.none_or]

end

variable {docs : List Prepared} (distinct : (docs.map (·.id)).Nodup) (sound : ∀ doc ∈ docs, doc.Sound server)
  (rows : ∀ doc ∈ docs, ∀ row, doc.row = some row → served doc.id = some row)

include distinct sound rows

theorem Faithful.commit (faithful : Faithful server core served) :
    Faithful server (docs.foldl (fun core doc => core.insert doc.id doc.record) core) served := by
  intro id row record found held same
  rcases committed_cases distinct held with ⟨doc, member, rfl, rfl⟩ | old
  · have own := sound doc member
    rw [Prepared.Sound] at own
    cases staged : doc.row with
    | none =>
      rw [staged] at own
      exact absurd (own.symm.trans same) (defaultVersion_ne _)
    | some first =>
      rw [staged] at own
      cases found.symm.trans (rows doc member first staged)
      exact own.2
  · exact faithful id row record found old same

theorem Aligned.commit (aligned : Aligned server core served (Write.storing docs).excepted)
    (rowless : ∀ doc ∈ docs, doc.row = none → served doc.id = none) :
    Aligned server (docs.foldl (fun core doc => core.insert doc.id doc.record) core) served fun _ => False := by
  intro id row _ found
  by_cases member : ∃ doc ∈ docs, doc.id = id
  · obtain ⟨doc, member, rfl⟩ := member
    cases staged : doc.row with
    | none => cases found.symm.trans (rowless doc member staged)
    | some first =>
      cases found.symm.trans (rows doc member first staged)
      have own := sound doc member
      rw [Prepared.Sound, staged] at own
      obtain ⟨version, values, embedding, normal⟩ := own
      exact ⟨doc.record, values, committed_own distinct member, version, embedding, normal⟩
  · have out : ∀ doc ∈ docs, doc.id ≠ id := fun doc inside own => member ⟨doc, inside, own⟩
    obtain ⟨record, values, held, rest⟩ := aligned id row (fun ⟨doc, inside, own, _⟩ => out doc inside own) found
    exact ⟨record, values, (committed_other distinct out).trans held, rest⟩

end Rows

section Steps

variable {server : Server} {tenant : Tenant} {served : Map}

theorem rows_eq (sound : VectorIndex.Sound server.crc server.dim tenant.index served) : tenant.rows server = served := by
  obtain ⟨core, ⟨disk, memory⟩, token, write⟩ := tenant
  cases memory with
  | some memory => exact (sound.serving rfl).serves
  | none =>
    obtain ⟨named, closed⟩ := sound.shut
    have some : (openIndex server.crc server.dim none disk).memory.isSome = true := openIndex_isSome server.dim_pos
    obtain ⟨memory, opened⟩ := Option.isSome_iff_exists.mp some
    have next := openIndex_keeps named closed none
    rw [Tenant.rows]
    rw [opened, Option.elim_some]
    exact (next.serving opened).serves

theorem serves_none (sound : VectorIndex.Sound server.crc server.dim tenant.index served) {id : String}
    (rowless : tenant.Rowless server id) (kept : tenant.index.memory ≠ none ∨ tenant.index.disk.dirty ≠ true) :
    served id = none := by
  rcases rowless with ⟨closed, dirty⟩ | none
  · exact (kept.elim (· closed) (· dirty)).elim
  · rwa [rows_eq sound] at none

theorem Sound.idle_opened (sound : Sound server tenant served) (idle : tenant.write = .idle)
    (opened : tenant.index.memory = some memory) : Aligned server tenant.core served fun _ => False := by
  have aligned := sound.opened memory opened
  rw [idle] at aligned
  exact aligned

/-- Opening the index serves what its files hold; where the marker is there, what the engine still holds
of that. -/
theorem opened_keeps {disk : VectorIndex.Disk} {token seed : UInt64}
    (sound : Sound server ⟨core, ⟨disk, none⟩, token, .idle⟩ served) {fault : Option OpenFault}
    {dropped : Option AppendFault} {cleared : Option ClearFault}
    (clean : Clean server ⟨core, ⟨disk, none⟩, token, .idle⟩ (.opened fault dropped cleared seed)) :
    ∃ next, Sound server ⟨core, Tenant.openVectors server ⟨core, ⟨disk, none⟩, token, .idle⟩ fault dropped cleared, seed,
      .idle⟩ next := by
  obtain ⟨named, closed⟩ := sound.index.shut
  have index := openIndex_keeps named closed fault
  obtain ⟨dirty, quiet⟩ := @openIndex_marks server.crc server.dim disk fault
  have clean := clean rfl
  rw [Tenant.openVectors]
  generalize openIndex server.crc server.dim fault disk = world at index dirty quiet clean ⊢
  obtain ⟨disk', memory⟩ := world
  have before := sound.closed rfl
  rw [← dirty] at before
  cases memory with
  | none =>
    exact ⟨served, index, sound.faithful, fun memory opened => (by cases opened), fun _ => before,
      fun memory opened => (by cases opened), trivial⟩
  | some memory =>
    obtain ⟨unmarked, free⟩ := quiet memory rfl
    have mark : Marked disk' memory := fun own => by rw [unmarked] at own; cases own
    dsimp only
    split
    next dirt =>
      obtain ⟨_, ready⟩ := index.free (by rw [free]; rfl)
      obtain ⟨disk'', memory'', done, ran, named', ready'⟩ := runCall_keeps named ready _ (clean memory rfl)
      obtain ⟨mark', later, _⟩ := runCall_marks mark ran
      rw [reconcile, ran]
      cases done with
      | false =>
        exact ⟨served, .closed named' ready'.closed, sound.faithful, fun memory opened => (by cases opened),
          fun _ => .inl (later dirt), fun memory opened => (by cases opened), trivial⟩
      | true =>
        rw [if_pos rfl] at named' ready'
        have faithful := sound.faithful.remove (stale memory.state (keep core))
        have aligned : Aligned server core ((Call.remove (stale memory.state (keep core))).effect served) fun _ => False := by
          intro id row _ found
          obtain ⟨out, old⟩ := effect_remove_some found
          have kept : keep core id row.1 = true := by
            refine Bool.eq_true_of_not_eq_false fun gone => out ((mem_stale (index.serving rfl) (keep core) id).mpr ?_)
            exact ⟨row, old, gone⟩
          rw [keep, Option.any_eq_true] at kept
          obtain ⟨record, held, version⟩ := kept
          have version := of_decide_eq_true version
          obtain ⟨values, embedding, normal⟩ := faithful id row record found held version
          exact ⟨record, values, held, version, embedding, normal⟩
        have marked := clearDirty_keeps ready' cleared
        rcases cleared with _ | fault
        · exact ⟨_, .ready named' marked, faithful, fun memory opened own => (by cases opened; cases own),
            fun closed => (by cases closed), fun _ _ => aligned, trivial⟩
        · exact ⟨_, .closed named' marked.closed, faithful, fun memory opened => (by cases opened),
            fun _ => .inr aligned, fun memory opened => (by cases opened), trivial⟩
    next clean =>
      have aligned := before.resolve_left clean
      exact ⟨served, index, sound.faithful, fun _ opened => (by cases opened; exact mark), fun closed => (by cases closed),
        fun _ _ => aligned, trivial⟩

variable {core : Core} {index : World} {disk : VectorIndex.Disk} {memory : Memory} {token : UInt64}

theorem aligned_storing (aligned : Aligned server core served fun _ => False) :
    Aligned server core served (Write.storing docs).excepted :=
  aligned.mono fun _ _ found _ => ⟨found, id⟩

theorem prepared_spec {next} (ran : tenant.prepared server docs = (some prepared, next)) :
    (prepared.map (·.id)).Nodup ∧ (∀ doc ∈ prepared, doc.Sound server) ∧
      (tenant.index.memory = none → stagedRows prepared = []) := by
  obtain ⟨ids, each⟩ := prepare_sound ran
  refine ⟨by rw [ids]; exact finalDocs_nodup docs, fun doc member => (each doc member).1, fun closed => ?_⟩
  refine eq_nil_iff_forall_not_mem.mpr fun row member => ?_
  obtain ⟨doc, inside, _, staged⟩ := mem_stagedRows.mp (show (row.1, row.2) ∈ stagedRows prepared from member)
  have indexed := (each doc inside).2 (by rw [staged]; rfl)
  rw [closed] at indexed
  cases indexed

/-- Storing up to the engine's commit puts the rows ahead of it, under the marker. -/
theorem store_keeps (sound : Sound server tenant served) (idle : tenant.write = .idle) (free : tenant.blocked = false)
    (clean : ∀ prepared token, tenant.prepared server docs = (some prepared, token) → Fresh tenant.core prepared ∧ tenant.CleanCall server (.stage (stagedRows prepared)) fault) :
    ∃ next, Sound server (tenant.store server docs fault) next := by
  rw [Tenant.store]
  cases ran : tenant.prepared server docs with
  | mk prepared next =>
    cases prepared with
    | none =>
      exact ⟨served, { sound with write := by rw [idle]; trivial }⟩
    | some prepared =>
      obtain ⟨fresh, call⟩ := clean prepared next ran
      obtain ⟨distinct, each, closed⟩ := prepared_spec ran
      dsimp only
      split
      next empty =>
        rw [List.isEmpty_iff] at empty
        have rowless (doc : Prepared) (member : doc ∈ prepared) : doc.row = none := by
          refine Option.eq_none_iff_forall_not_mem.mpr fun row staged => ?_
          have inside := mem_stagedRows.mpr ⟨doc, member, rfl, staged⟩
          rw [empty] at inside
          cases inside
        refine ⟨served, sound.index, sound.faithful, sound.marked, sound.closed,
          fun memory opened => aligned_storing (sound.idle_opened idle opened), distinct, each, ?_, ?_⟩
        · intro doc member row staged
          cases (rowless doc member).symm.trans staged
        · intro doc member staged
          rw [rowless doc member] at staged
          cases staged
      next some =>
        rw [List.isEmpty_iff] at some
        obtain ⟨core, ⟨disk, memory⟩, token, write⟩ := tenant
        cases memory with
        | none => exact absurd (closed rfl) some
        | some memory =>
          obtain ⟨named, ready⟩ := sound.index.free free
          obtain ⟨disk', memory', done, ran, named', ready'⟩ := runCall_keeps named ready _ (call memory rfl)
          obtain ⟨mark, _, dirty⟩ := runCall_marks (sound.marked memory rfl) ran
          have aligned := sound.idle_opened idle rfl
          rw [Tenant.call]
          dsimp only
          rw [ran]
          cases done with
          | false =>
            refine ⟨served, .ready named' ready', sound.faithful, fun _ own => (by cases own; exact mark),
              fun own => (by cases own), fun memory own => ?_, ?_⟩
            · exact idle ▸ aligned
            · change Write.Valid server _ served write
              rw [show write = .idle from idle]
              trivial
          | true =>
            have effect : (Call.stage (stagedRows prepared)).effect served =
                fun id => (listed (stagedRows prepared) id).or (served id) :=
              funext (effect_stage (stagedRows_nodup distinct))
            rw [if_pos rfl, effect] at named' ready'
            refine ⟨_, .ready named' ready', sound.faithful.stage fresh fun row member => member,
              fun _ own => (by cases own; exact mark), fun own => (by cases own), fun memory own => ?_, distinct, each, ?_, ?_⟩
            · intro id row out found
              rcases Option.or_eq_some_iff.mp found with own | ⟨_, old⟩
              · obtain ⟨doc, member, rfl, staged⟩ := mem_stagedRows.mp (mem_of_listed own)
                exact absurd ⟨doc, member, rfl, by rw [staged]; rfl⟩ out
              · exact aligned id row (fun never => never) old
            · intro doc member row staged
              have inside := mem_stagedRows.mpr ⟨doc, member, rfl, staged⟩
              dsimp only
              rw [listed_of_mem (stagedRows_nodup distinct) inside, Option.some_or]
            · intro _ _ _
              exact dirty rfl rfl

/-- The engine's commit makes the rows ahead of it current, and a failed one has them taken out next. -/
theorem commit_keeps (sound : Sound server ⟨core, index, token, .storing docs⟩ served)
    (clean : Clean server ⟨core, index, token, .storing docs⟩ (.commit result)) :
    Sound server (Tenant.commit ⟨core, index, token, .storing docs⟩ docs result) served := by
  obtain ⟨distinct, each, rows, dirty⟩ := sound.write
  rw [Tenant.commit]
  split
  next =>
    refine { sound with opened := fun memory opened => ?_, write := ?_ }
    · have aligned := sound.opened memory opened
      split
      next empty =>
        rw [List.isEmpty_iff] at empty
        refine aligned.mono fun id row found _ => ⟨found, ?_⟩
        rintro ⟨doc, member, rfl, staged⟩
        obtain ⟨row, staged⟩ := Option.isSome_iff_exists.mp staged
        have inside := mem_stagedRows.mpr ⟨doc, member, rfl, staged⟩
        rw [empty] at inside
        cases inside
      next =>
        refine aligned.mono fun id row found out => ⟨found, ?_⟩
        rintro ⟨doc, member, rfl, staged⟩
        obtain ⟨row, staged⟩ := Option.isSome_iff_exists.mp staged
        exact out (mem_map.mpr ⟨_, mem_stagedRows.mpr ⟨doc, member, rfl, staged⟩, rfl⟩)
    · split
      next => trivial
      next some =>
        rw [List.isEmpty_iff] at some
        obtain ⟨⟨id, row⟩, inside⟩ := exists_mem_of_ne_nil _ some
        obtain ⟨doc, member, _, staged⟩ := mem_stagedRows.mp inside
        exact dirty doc member (by rw [staged]; rfl)
  next stands =>
    have clean : ∀ doc ∈ docs, doc.row = none → Tenant.Rowless server ⟨core, index, token, .storing docs⟩ doc.id :=
      clean stands
    refine ⟨sound.index, Faithful.commit distinct each rows sound.faithful, sound.marked, fun closed => ?_,
      fun memory opened => ?_, trivial⟩
    · refine (Classical.em (index.disk.dirty = true)).imp id fun quiet => ?_
      refine Aligned.commit distinct each rows (aligned_storing ((sound.closed closed).resolve_left quiet)) ?_
      exact fun doc member own => serves_none sound.index (clean doc member own) (.inr quiet)
    · refine Aligned.commit distinct each rows (sound.opened memory opened) fun doc member own => ?_
      exact serves_none sound.index (clean doc member own) (.inl (by rw [opened]; exact Option.some_ne_none _))

theorem remove_keeps (sound : Sound server ⟨core, index, token, write⟩ served)
    (free : Tenant.blocked ⟨core, index, token, write⟩ = false)
    (clean : Tenant.CleanCall server ⟨core, index, token, write⟩ (.remove ids) fault)
    (within : ∀ id, write.excepted id → id ∈ ids) (gone : fault = none ∨ ∀ id ∈ ids, served id = none) :
    ∃ next, Sound server ⟨core, (Tenant.call server ⟨core, index, token, write⟩ (.remove ids) fault).1, token, .idle⟩ next := by
  obtain ⟨disk, memory⟩ := index
  cases memory with
  | none =>
    exact ⟨served, { sound with opened := fun memory opened => (by cases opened), write := trivial }⟩
  | some memory =>
    obtain ⟨named, ready⟩ := sound.index.free free
    obtain ⟨disk', memory', done, ran, named', ready'⟩ := runCall_keeps named ready _ (clean memory rfl)
    obtain ⟨mark, _, _⟩ := runCall_marks (sound.marked memory rfl) ran
    have aligned := sound.opened memory rfl
    rw [Tenant.call]
    dsimp only
    rw [ran]
    cases done with
    | true =>
      rw [if_pos rfl] at named' ready'
      refine ⟨_, .ready named' ready', sound.faithful.remove ids, fun _ own => (by cases own; exact mark),
        fun own => (by cases own), fun _ _ => ?_, trivial⟩
      refine aligned.mono fun id row found _ => ?_
      obtain ⟨out, old⟩ := effect_remove_some found
      exact ⟨old, fun excepted => out (within id excepted)⟩
    | false =>
      refine ⟨served, .ready named' ready', sound.faithful, fun _ own => (by cases own; exact mark),
        fun own => (by cases own), fun _ _ => ?_, trivial⟩
      refine aligned.mono fun id row found _ => ⟨found, fun excepted => ?_⟩
      rcases gone with rfl | gone
      · have returned := @runCall_returns server.crc server.dim disk memory (.remove ids) rfl
        rw [ran] at returned
        cases returned
      · cases found.symm.trans (gone id (within id excepted))

theorem getElem?_erased (core : Core) (deleted id : String) (record : Record) :
    (core.erase deleted)[id]? = some record ↔ id ≠ deleted ∧ core[id]? = some record := by
  rw [Table.getElem?_erase]
  split
  next own => exact ⟨fun held => (by cases held), fun both => absurd own both.1⟩
  next out => exact ⟨fun held => ⟨out, held⟩, fun both => both.2⟩

theorem Aligned.erase (aligned : Aligned server core served excepted)
    (out : ∀ id row, ¬ excepted id → served id = some row → id ≠ deleted) :
    Aligned server (core.erase deleted) served excepted := by
  intro id row free found
  obtain ⟨record, values, held, rest⟩ := aligned id row free found
  exact ⟨record, values, (getElem?_erased core deleted id record).mpr ⟨out id row free found, held⟩, rest⟩

/-- The engine's deletion leaves the row of the document to be taken out next, where there may be one. -/
theorem delete_keeps (sound : Sound server ⟨core, index, token, .idle⟩ served)
    (clean : result = .reported ∨ result = .committed ∧ index.memory = none → Tenant.Rowless server ⟨core, index, token, .idle⟩ deleted) :
    Sound server (Tenant.delete ⟨core, index, token, .idle⟩ deleted result) served := by
  rw [Tenant.delete]
  split
  next => exact sound
  next stands =>
    have faithful : Faithful server (core.erase deleted) served := fun id row record found held =>
      sound.faithful id row record found ((getElem?_erased core deleted id record).mp held).2
    have rowless (none : served deleted = none) {excepted : String → Prop} :
        ∀ id row, ¬ excepted id → served id = some row → id ≠ deleted := by
      rintro id row _ found rfl
      cases found.symm.trans none
    refine ⟨sound.index, faithful, sound.marked, fun closed => ?_, fun memory opened => ?_, ?_⟩
    · refine (Classical.em (index.disk.dirty = true)).imp id fun quiet => ?_
      have lost : Tenant.Rowless server ⟨core, index, token, .idle⟩ deleted := by
        cases result with
        | reported => exact clean (.inl rfl)
        | committed => exact clean (.inr ⟨rfl, closed⟩)
        | failed => exact absurd rfl stands
      exact ((sound.closed closed).resolve_left quiet).erase (rowless (serves_none sound.index lost (.inr quiet)))
    · have aligned := sound.idle_opened rfl opened
      have open' : index.memory ≠ none := fun closed => by cases opened.symm.trans closed
      split
      next =>
        have aligned' : Aligned server core served (Write.deleting deleted).excepted :=
          aligned.mono fun _ _ found _ => ⟨found, fun never => never⟩
        exact aligned'.erase fun id row out _ own => out own
      next early =>
        refine aligned.erase (rowless ?_)
        cases result with
        | reported => exact serves_none sound.index (clean (.inl rfl)) (.inl open')
        | committed =>
          refine Option.eq_none_iff_forall_not_mem.mpr fun row found => early ⟨rfl, ?_, ?_⟩
          · obtain ⟨record, _, held, _⟩ := aligned deleted row (fun never => never) found
            exact Option.isSome_iff_exists.mpr ⟨record, held⟩
          · exact Option.isSome_iff_exists.mpr ⟨memory, opened⟩
        | failed => exact absurd rfl stands
    · dsimp only
      split <;> trivial

theorem settle_keeps {cleared : Option ClearFault} (sound : Sound server ⟨core, ⟨disk, some memory⟩, token, .idle⟩ served)
    (clean : cleared ≠ some .removed) :
    Sound server ⟨core, ⟨(clearDirty disk memory cleared).1, some (clearDirty disk memory cleared).2⟩, token, .idle⟩
      served := by
  have index := @VectorIndex.Sound.quiet server.crc server.dim served _ sound.index (.close cleared) trivial rfl
  refine ⟨index, sound.faithful, fun _ own => ?_, fun closed => (by cases closed),
    fun _ _ => sound.idle_opened rfl rfl, trivial⟩
  cases own
  rcases cleared with _ | _ | _
  · intro own
    cases own
  · exact sound.marked memory rfl
  · exact absurd rfl clean

theorem write_valid {write : Write} (dirty : index'.disk.dirty = index.disk.dirty)
    (valid : write.Valid server ⟨core, index, token, write⟩ served) :
    write.Valid server ⟨core, index', token, write⟩ served := by
  cases write with
  | idle => trivial
  | storing docs => exact ⟨valid.1, valid.2.1, valid.2.2.1, fun doc member staged => dirty.trans (valid.2.2.2 doc member staged)⟩
  | undoing ids => exact dirty.trans valid
  | deleting id => trivial

theorem maintain_sound (sound : Sound server ⟨core, ⟨disk, some memory⟩, token, write⟩ served)
    (clean : VectorIndex.Clean server.crc server.dim ⟨disk, some memory⟩ (.maintain step))
    (ran : maintain server.crc server.dim disk memory step = some (disk', memory')) :
    Sound server ⟨core, ⟨disk', some memory'⟩, token, write⟩ served := by
  obtain ⟨dirty, dirty'⟩ := maintain_marks ran
  refine ⟨maintain_keeps sound.index clean ran, sound.faithful, fun _ own => ?_, fun closed => (by cases closed),
    fun _ _ => sound.opened memory rfl, write_valid dirty sound.write⟩
  cases own
  rw [Marked, dirty, dirty']
  exact sound.marked memory rfl

theorem stop_keeps (sound : Sound server ⟨core, index, token, write⟩ served)
    (clean : ∀ id, write = .deleting id → index.disk.dirty = true ∨ Tenant.rows server ⟨core, index, token, write⟩ id = none) :
    Sound server ⟨core, ⟨index.disk, none⟩, token, .idle⟩ served := by
  obtain ⟨disk, memory⟩ := index
  cases memory with
  | none =>
    exact { sound with opened := fun memory opened => (by cases opened), write := trivial }
  | some memory =>
    refine ⟨sound.index.stopped, sound.faithful, fun _ own => (by cases own), fun _ => ?_, fun _ own => (by cases own), trivial⟩
    refine (Classical.em (disk.dirty = true)).imp id fun quiet => ?_
    have aligned := sound.opened memory rfl
    have valid := sound.write
    cases write with
    | idle => exact aligned
    | storing docs =>
      refine aligned.mono fun id row found _ => ⟨found, ?_⟩
      rintro ⟨doc, member, rfl, staged⟩
      exact quiet (valid.2.2.2 doc member staged)
    | undoing ids => exact absurd valid quiet
    | deleting deleted =>
      have none := (clean deleted rfl).resolve_left quiet
      rw [rows_eq sound.index] at none
      refine aligned.mono fun id row found _ => ⟨found, ?_⟩
      rintro rfl
      cases found.symm.trans none

theorem crashCall_idle (busy : ¬ request.appends server.dim memory.state) (written : Nat) :
    crashCall server.dim server.crc disk memory request written = disk := by
  rw [crashCall, if_pos]
  rw [Bool.or_eq_true, Bool.not_eq_true']
  rw [Call.appends, not_and_or, Bool.not_eq_true, Bool.not_eq_false] at busy
  exact busy

theorem crashed_keeps (sound : Sound server ⟨core, ⟨disk, some memory⟩, token, write⟩ served)
    (free : Tenant.blocked ⟨core, ⟨disk, some memory⟩, token, write⟩ = false)
    (clean : Tenant.CleanCrash server ⟨core, ⟨disk, some memory⟩, token, write⟩ request written)
    (faithful : ∀ count, Faithful server core (((request.framesOn served).take count).foldl Frame.applyTo served))
    (kept : ¬ request.appends server.dim memory.state → Aligned server core served fun _ => False) :
    ∃ next, Sound server ⟨core, Tenant.crashed server ⟨core, ⟨disk, some memory⟩, token, write⟩ request written, token,
      .idle⟩ next := by
  obtain ⟨named, ready⟩ := sound.index.free free
  rw [Tenant.crashed]
  dsimp only
  by_cases appends : request.appends server.dim memory.state
  · obtain ⟨count, index⟩ := crashCall_keeps named ready request written (clean memory rfl)
    have dirty := (@crashCall_marks server.crc server.dim disk memory (sound.marked memory rfl) request written).2 appends
    exact ⟨_, index, faithful count, fun _ own => (by cases own), fun _ => .inl dirty, fun _ own => (by cases own), trivial⟩
  · rw [crashCall_idle appends]
    exact ⟨served, sound.index.stopped, sound.faithful, fun _ own => (by cases own), fun _ => .inr (kept appends),
      fun _ own => (by cases own), trivial⟩

theorem crashStore_keeps (sound : Sound server ⟨core, ⟨disk, some memory⟩, token, .idle⟩ served)
    (free : Tenant.blocked ⟨core, ⟨disk, some memory⟩, token, .idle⟩ = false)
    (clean : Tenant.CleanCrash server ⟨core, ⟨disk, some memory⟩, token, .idle⟩ (.stage rows) written)
    (distinct : (rows.map Prod.fst).Nodup) (fresh : Fresh core docs) (same : rows = stagedRows docs) :
    ∃ next, Sound server ⟨core, Tenant.crashed server ⟨core, ⟨disk, some memory⟩, token, .idle⟩ (.stage rows) written,
      token, .idle⟩ next := by
  refine crashed_keeps sound free clean (fun count => ?_) fun _ => sound.idle_opened rfl rfl
  rw [Call.framesOn, Call.frames, ← map_take]
  have part : ((rows.take count).map Prod.fst).Nodup := distinct.sublist ((take_sublist count rows).map _)
  rw [show ((rows.take count).map upsertFrame).foldl Frame.applyTo served = _ from funext (foldl_upsertFrame part)]
  exact sound.faithful.stage fresh fun row member => same ▸ mem_of_mem_take member

theorem crashRemove_keeps (sound : Sound server ⟨core, index, token, write⟩ served)
    (free : Tenant.blocked ⟨core, index, token, write⟩ = false)
    (clean : Tenant.CleanCrash server ⟨core, index, token, write⟩ (.remove ids) written)
    (within : ∀ id, write.excepted id → id ∈ ids) :
    ∃ next, Sound server ⟨core, Tenant.crashed server ⟨core, index, token, write⟩ (.remove ids) written, token, .idle⟩
      next := by
  obtain ⟨disk, memory⟩ := index
  cases memory with
  | none =>
    exact ⟨served, { sound with opened := fun memory opened => (by cases opened), write := trivial }⟩
  | some memory =>
    refine crashed_keeps sound free clean (fun count => ?_) fun idle => ?_
    · rw [Call.framesOn, Call.frames, ← map_take]
      refine sound.faithful.mono fun id row found => ?_
      rw [foldl_deleteFrame] at found
      split at found
      next => cases found
      next => exact found
    · refine (sound.opened memory rfl).mono fun id row found _ => ⟨found, fun excepted => idle ⟨rfl, ?_⟩⟩
      have known : id ∈ ids.filter (known memory.state) := by
        refine mem_filter.mpr ⟨within id excepted, ?_⟩
        rw [known_eq (sound.index.serving rfl)]
        exact Option.isSome_iff_exists.mpr ⟨row, found⟩
      rw [Call.idle, isEmpty_eq_false_iff_exists_mem]
      exact ⟨id, known⟩

theorem step_maintain (write : Write) (step : Step) :
    Tenant.step server ⟨core, ⟨disk, some memory⟩, token, write⟩ (.maintain step) =
      match VectorIndex.maintain server.crc server.dim disk memory step with
      | none => ⟨core, ⟨disk, some memory⟩, token, write⟩
      | some (disk, memory) => ⟨core, ⟨disk, some memory⟩, token, write⟩ := by
  cases write <;> rfl

theorem step_keeps (sound : Sound server tenant served) (clean : Clean server tenant event) :
    ∃ next, Sound server (tenant.step server event) next := by
  obtain ⟨core, ⟨disk, memory⟩, token, write⟩ := tenant
  have same : ∃ next, Sound server ⟨core, ⟨disk, memory⟩, token, write⟩ next := ⟨served, sound⟩
  cases event with
  | opened fault dropped cleared seed =>
    cases write with
    | idle =>
      cases memory with
      | none => exact opened_keeps sound clean
      | some memory => exact same
    | _ => exact same
  | store docs fault =>
    cases write with
    | idle =>
      unfold Tenant.step
      dsimp only
      split
      next begun =>
        rw [Bool.and_eq_true, Bool.not_eq_true'] at begun
        exact store_keeps sound rfl begun.2 clean
      next => exact same
    | _ => exact same
  | commit result =>
    cases write with
    | storing docs => exact ⟨served, commit_keeps sound clean⟩
    | _ => exact same
  | undo fault =>
    cases write with
    | undoing ids =>
      unfold Tenant.step
      dsimp only
      split
      next => exact same
      next free =>
        obtain ⟨rfl, call⟩ : fault = none ∧ Tenant.CleanCall server ⟨core, ⟨disk, memory⟩, token, .undoing ids⟩ _ _ := clean
        exact remove_keeps sound (Bool.not_eq_true _ ▸ free) call (fun id member => member) (.inl rfl)
    | _ => exact same
  | delete deleted result =>
    cases write with
    | idle => exact ⟨served, delete_keeps sound clean⟩
    | _ => exact same
  | unindex fault =>
    cases write with
    | deleting deleted =>
      unfold Tenant.step
      dsimp only
      split
      next => exact same
      next free =>
        obtain ⟨gone, call⟩ : (fault = none ∨ Tenant.rows server _ deleted = none) ∧ Tenant.CleanCall server _ _ _ := clean
        rw [rows_eq sound.index] at gone
        refine remove_keeps sound (Bool.not_eq_true _ ▸ free) call (fun id own => mem_singleton.mpr own)
          (gone.imp id fun none other member => ?_)
        rwa [mem_singleton.mp member]
    | _ => exact same
  | settle cleared =>
    cases write with
    | idle =>
      cases memory with
      | none => exact same
      | some memory => exact ⟨served, settle_keeps sound clean⟩
    | _ => exact same
  | maintain step =>
    have clean : VectorIndex.Clean server.crc server.dim ⟨disk, memory⟩ (.maintain step) := by cases write <;> exact clean
    cases memory with
    | none => cases write <;> exact same
    | some memory =>
      rw [step_maintain]
      cases ran : VectorIndex.maintain server.crc server.dim disk memory step with
      | none => exact same
      | some next => exact ⟨served, maintain_sound sound clean ran⟩
  | crashStore docs written =>
    cases write with
    | idle =>
      unfold Tenant.step
      dsimp only
      cases ran : Tenant.prepared server ⟨core, ⟨disk, memory⟩, token, .idle⟩ docs with
      | mk prepared next =>
        cases prepared with
        | none => exact same
        | some prepared =>
          dsimp only
          split
          next => exact same
          next begun =>
            rw [Bool.or_eq_true, not_or, List.isEmpty_iff, Bool.not_eq_true] at begun
            obtain ⟨fresh, crash⟩ : Fresh core prepared ∧ Tenant.CleanCrash server _ _ _ := clean prepared next ran
            obtain ⟨distinct, _, closed⟩ := prepared_spec ran
            cases memory with
            | none => exact absurd (closed rfl) begun.1
            | some memory => exact crashStore_keeps sound begun.2 crash (stagedRows_nodup distinct) fresh rfl
    | _ => exact same
  | crashRemove written =>
    cases write with
    | undoing ids =>
      unfold Tenant.step
      dsimp only
      split
      next => exact same
      next free => exact crashRemove_keeps sound (Bool.not_eq_true _ ▸ free) clean fun id member => member
    | deleting deleted =>
      unfold Tenant.step
      dsimp only
      split
      next => exact same
      next free =>
        exact crashRemove_keeps sound (Bool.not_eq_true _ ▸ free) clean fun id own => mem_singleton.mpr own
    | _ => exact same
  | stop =>
    have clean : ∀ id, write = .deleting id →
        disk.dirty = true ∨ Tenant.rows server ⟨core, ⟨disk, memory⟩, token, write⟩ id = none := by
      rintro id rfl
      exact clean
    have kept := stop_keeps sound clean
    cases write <;> exact ⟨served, kept⟩

theorem run_keeps (sound : Sound server tenant served) (clean : CleanRun server tenant events) :
    ∃ last, Sound server (tenant.run server events) last := by
  induction events generalizing tenant served with
  | nil => exact ⟨served, sound⟩
  | cons event events ih =>
    obtain ⟨next, sound'⟩ := step_keeps sound clean.1
    exact ih sound' clean.2

theorem sound_empty (server : Server) : Sound server .empty fun _ => none := by
  refine ⟨VectorIndex.sound_empty _ _, fun id row record found => (by cases found), fun memory own => (by cases own),
    fun _ => .inr fun id row _ found => (by cases found), fun memory own => (by cases own), trivial⟩

end Steps

section Counts

variable {server : Server} {core : Core} {served : Map} {dim : Nat} {state : State}

def heldIds (state : State) : List String := state.ids.filterMap fun id => id

theorem mem_heldIds (serving : VectorIndex.Serving dim state served) (id : String) : id ∈ heldIds state ↔ (served id).isSome = true := by
  rw [heldIds, mem_filterMap, ← serving.serves, State.serves, Option.isSome_map, Option.isSome_iff_exists]
  constructor
  · rintro ⟨held, member, rfl⟩
    obtain ⟨slot, inside⟩ := getElem?_of_mem member
    exact ⟨slot, (serving.agrees.slots id slot).mpr inside⟩
  · rintro ⟨slot, known⟩
    exact ⟨some id, mem_of_getElem? ((serving.agrees.slots id slot).mp known), rfl⟩

theorem heldIds_nodup (agrees : Agrees state) : (heldIds state).Nodup := by
  rw [heldIds, List.Nodup, pairwise_filterMap, pairwise_iff_getElem]
  rintro i j first second before id held id' held' rfl
  have one := (agrees.slots id i).mpr (List.getElem?_eq_some_iff.mpr ⟨first, held⟩)
  have two := (agrees.slots id j).mpr (List.getElem?_eq_some_iff.mpr ⟨second, held'⟩)
  exact Nat.ne_of_lt before (Option.some.inj (one.symm.trans two))

theorem length_heldIds (agrees : Agrees state) : (heldIds state).length = state.live := by
  rw [heldIds, agrees.live]
  exact length_filterMap_eq_countP

def embeddedIds (core : Core) : List String :=
  (core.toList.filter fun entry => entry.2.embedding.isSome).map Prod.fst

theorem mem_embeddedIds (core : Core) (id : String) :
    id ∈ embeddedIds core ↔ ∃ record, core[id]? = some record ∧ record.embedding.isSome = true := by
  rw [embeddedIds, mem_map]
  constructor
  · rintro ⟨⟨own, record⟩, member, rfl⟩
    obtain ⟨stored, embedded⟩ := mem_filter.mp member
    exact ⟨record, (Table.mem_toList core own record).mp stored, embedded⟩
  · rintro ⟨record, held, embedded⟩
    exact ⟨(id, record), mem_filter.mpr ⟨(Table.mem_toList core id record).mpr held, embedded⟩, rfl⟩

theorem held_iff_embedded (serving : VectorIndex.Serving dim state served) (aligned : Aligned server core served fun _ => False)
    (count : state.live = embeddingCount core) (id : String) :
    (served id).isSome = true ↔ ∃ record, core[id]? = some record ∧ record.embedding.isSome = true := by
  have sub : heldIds state ⊆ embeddedIds core := by
    intro id member
    obtain ⟨row, found⟩ := Option.isSome_iff_exists.mp ((mem_heldIds serving id).mp member)
    obtain ⟨record, values, held, _, embedding, _⟩ := aligned id row (fun never => never) found
    exact (mem_embeddedIds core id).mpr ⟨record, held, by rw [embedding]; rfl⟩
  have length : (embeddedIds core).length ≤ (heldIds state).length := by
    rw [length_heldIds serving.agrees, count, embeddedIds, length_map]
    exact Nat.le_refl _
  have all := (subperm_of_subset (heldIds_nodup serving.agrees) sub).perm_of_length_le length
  rw [← mem_heldIds serving, ← mem_embeddedIds, all.mem_iff]

end Counts

/-- Between writes, an index that covers the store has the rows of all embedded documents and no others,
each of the version the engine holds. -/
def Covering (server : Server) (tenant : Tenant) : Prop :=
  tenant.write = .idle → ∀ memory, tenant.index.memory = some memory → covers memory.state tenant.core = true →
    (∀ id, (memory.state.serves id).isSome = true ↔
      ∃ record, tenant.core[id]? = some record ∧ record.embedding.isSome = true) ∧
    ∀ id row, memory.state.serves id = some row → Current server tenant.core id row

theorem covering_run (server : Server) (events : List Event) (clean : CleanRun server .empty events) :
    Covering server (Tenant.empty.run server events) := by
  obtain ⟨served, sound⟩ := run_keeps (sound_empty server) clean
  intro idle memory opened covered
  have serving := sound.index.serving opened
  have aligned := sound.idle_opened idle opened
  rw [covers, Bool.and_eq_true, beq_iff_eq] at covered
  rw [serving.serves]
  exact ⟨held_iff_embedded serving aligned covered.2, fun id row found => aligned id row (fun never => never) found⟩

theorem finalDocs_of_distinct (distinct : (docs.map (·.id)).Nodup) : finalDocs docs = docs := by
  induction docs using List.reverseRecOn with
  | nil => rfl
  | append_singleton docs doc ih =>
    rw [map_append, nodup_append] at distinct
    obtain ⟨before, -, apart⟩ := distinct
    rw [finalDocs, foldl_append, foldl_cons, foldl_nil]
    change (finalDocs docs).filter _ ++ _ = _
    rw [ih before, filter_eq_self.mpr]
    intro own member
    simpa using apart own.id (mem_map_of_mem member) doc.id (by simp)

theorem prepared_of_distinct (server : Server) (tenant : Tenant) (distinct : (docs.map (·.id)).Nodup) :
    tenant.prepared server docs = prepare server tenant.index.memory.isSome tenant.token docs := by
  rw [Tenant.prepared, finalDocs_of_distinct distinct]

/-- In one dimension a vector is normalised to its sign. -/
def Sample.normalize (values : Values) : Option Vector :=
  some (values.map fun value => if value < 0x8000000000000000 then 0x3F800000 else 0xBF800000)

def Sample.server : Server := ⟨VectorIndex.Sample.crc, 1, normalize, none, Nat.one_pos⟩

/-- A document of two letters with the vector `[1.0]`. -/
def Sample.doc (n : Nat) (value : UInt64) : DocIn :=
  ⟨String.ofList [Char.ofNat (97 + n / 16), Char.ofNat (97 + n % 16)], "_", some [value]⟩

def Sample.stored : List Event :=
  [.opened none none none 7, .store [doc 0 0x3FF0000000000000] none, .commit .committed]

theorem covering_stored : Covering Sample.server (Tenant.empty.run Sample.server Sample.stored) := by
  refine covering_run Sample.server Sample.stored ⟨fun _ memory opened _ => ?_, fun prepared token ran => ?_, ?_, trivial⟩
  · cases opened
    exact ⟨rfl, by decide +kernel⟩
  · cases ran
    refine ⟨?_, fun memory opened _ => ?_⟩
    · intro doc member row staged record held
      have absent : (∅ : Core)[doc.id]? = none := by simp
      cases absent.symm.trans held
    · cases opened
      exact ⟨rfl, by decide +kernel⟩
  · have staged : (match (Tenant.empty.run Sample.server (Sample.stored.take 2)).write with
        | .storing docs => docs.all (·.row.isSome)
        | _ => true) = true := by
      decide +kernel
    change Clean Sample.server (Tenant.empty.run Sample.server (Sample.stored.take 2)) _
    generalize Tenant.empty.run Sample.server (Sample.stored.take 2) = tenant at staged ⊢
    obtain ⟨core, index, token, write⟩ := tenant
    cases write with
    | storing docs =>
      intro _ doc member none
      have own := all_eq_true.mp staged doc member
      rw [none] at own
      cases own
    | _ => trivial

/-- A batch makes the graph; while the index does not open its first document is replaced. -/
def Sample.replaced : List Event :=
  [.opened none none none 7, .store ((List.range 128).map fun n => doc n 0x3FF0000000000000) none,
    .commit .committed, .maintain (.begin 128 true), .maintain .writeRows, .maintain .writeIds, .maintain .writeGraph,
    .maintain .publish, .maintain .rotate, .maintain .swap, .maintain (.sweep true true true), .settle none, .stop,
    .opened (some .early) none none 9, .store [doc 0 0xBFF0000000000000] none, .commit .committed, .stop,
    .opened none none none 11]

def Sample.batch : List DocIn := (List.range 128).map fun n => doc n 0x3FF0000000000000

theorem Sample.batch_distinct : (Sample.batch.map (·.id)).Nodup := by
  have letter : ∀ n < 16, (Char.ofNat (97 + n)).toNat = 97 + n := by decide
  rw [batch, map_map, nodup_map_iff_inj_on nodup_range]
  intro m small n small' same
  rw [mem_range] at small small'
  have letters := String.ofList_injective same
  rw [List.cons.injEq, List.cons.injEq] at letters
  have high := congrArg Char.toNat letters.1
  have low := congrArg Char.toNat letters.2.1
  rw [letter _ (by omega), letter _ (by omega)] at high low
  omega

def Sample.opened : Tenant := Tenant.step server Tenant.empty (.opened none none none 7)

theorem Sample.stored_batch : Tenant.step server opened (.store batch none) = opened.store server batch none := by
  have taken : (batch.all (·.valid server) && !opened.blocked) = true := by decide +kernel
  change (if (batch.all (·.valid server) && !opened.blocked) = true then opened.store server batch none else opened) = _
  rw [if_pos taken]

set_option maxRecDepth 100000 in
/-- The index opens cleanly, has as many rows as there are embedded documents, and serves the vector
the first of them had before. -/
theorem covers_stale_row : ¬ Covering Sample.server (Tenant.empty.run Sample.server Sample.replaced) := by
  intro covering
  have state : (fun tenant : Tenant => decide (tenant.write.ctorIdx = 0) && tenant.index.memory.any fun memory =>
      covers memory.state tenant.core && decide ((memory.state.serves "aa").map Prod.snd = some [0x3F800000]) &&
        decide ((tenant.core["aa"]?.bind (·.embedding)).bind Sample.normalize = some [0xBF800000]))
      (Tenant.empty.run Sample.server Sample.replaced) = true := by
    have whole : Tenant.empty.run Sample.server Sample.replaced =
        (Sample.replaced.drop 2).foldl (Tenant.step Sample.server)
          (Tenant.step Sample.server Sample.opened (.store Sample.batch none)) := by
      simp only [Tenant.run, Sample.replaced, foldl_cons, drop_succ_cons, drop_zero, Sample.opened,
        Sample.batch]
    rw [whole, Sample.stored_batch, Tenant.store, prepared_of_distinct _ _ Sample.batch_distinct]
    decide +kernel
  generalize Tenant.empty.run Sample.server Sample.replaced = tenant at covering state
  obtain ⟨core, ⟨disk, memory⟩, token, write⟩ := tenant
  cases write with
  | idle =>
    cases memory with
    | none => exact absurd state Bool.false_ne_true
    | some memory =>
      change (covers memory.state core && decide _ && decide _) = true at state
      rw [Bool.and_eq_true, Bool.and_eq_true, decide_eq_true_eq, decide_eq_true_eq] at state
      obtain ⟨⟨covered, stale⟩, embedded⟩ := state
      obtain ⟨row, found, old⟩ := Option.map_eq_some_iff.mp stale
      obtain ⟨record, values, held, _, embedding, normal⟩ := (covering rfl memory rfl covered).2 "aa" row found
      change Sample.normalize values = some row.2 at normal
      rw [held, Option.bind_some, embedding, Option.bind_some, normal, old] at embedded
      exact absurd embedded (by decide)
  | _ => exact absurd state Bool.false_ne_true

end Warm.Server.VectorStore
