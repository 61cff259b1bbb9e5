import Warm.VectorStoreRows

/-! A run of writes, restarts and maintenance in which no step leaves behind a row the engine does not
hold: its index has rows of the engine's documents only, so that equal counts mean equal contents. -/
namespace Warm.Server.VectorStore

open VectorIndex List

/-- The engine holds the version the row was staged for, with the embedding the row is of. -/
def Current (server : Server) (core : Core) (id : String) (row : UInt64 × Vector) : Prop :=
  ∃ record values, core[id]? = some record ∧ record.version = versionStamp row.1 ∧ record.embedding = some values ∧
    server.normalize values = some row.2

/-- Where the engine holds the version of a row, it holds its embedding. -/
def Faithful (server : Server) (core : Core) (served : Map) : Prop :=
  ∀ id row record, served id = some row → core[id]? = some record → record.version = versionStamp row.1 →
    ∃ values, record.embedding = some values ∧ server.normalize values = some row.2

/-- Every row served is current, but those of the documents a write is at. -/
def Aligned (server : Server) (core : Core) (served : Map) (excepted : String → Prop) : Prop :=
  ∀ id row, ¬ excepted id → served id = some row → Current server core id row

/-- The documents whose rows a write under way has ahead of the engine or behind it. -/
def Write.excepted : Write → String → Prop
  | .idle, _ => False
  | .storing docs, id => ∃ doc ∈ docs, doc.id = id ∧ doc.row.isSome = true
  | .undoing ids, id => id ∈ ids
  | .deleting deleted, id => id = deleted

/-- A prepared document carries its own version and the embedding its row is of. -/
def Prepared.Sound (server : Server) (doc : Prepared) : Prop :=
  match doc.row with
  | none => doc.record.version = defaultVersion
  | some row => doc.record.version = versionStamp row.1 ∧
    ∃ values, doc.record.embedding = some values ∧ server.normalize values = some row.2

section Preparing

variable {server : Server} {indexed : Bool}

theorem defaultVersion_ne (token : UInt64) : defaultVersion ≠ versionStamp token := by
  intro same
  have length : (versionStamp token).toList.length = 4 + 16 := by
    rw [versionStamp, String.toList_ofList, length_append, length_map, length_range]
    rfl
  rw [← same] at length
  exact absurd length (by decide)

theorem prepare_sound {next} (ran : prepare server indexed token docs = (some prepared, next)) :
    prepared.map (·.id) = docs.map (·.id) ∧
      ∀ doc ∈ prepared, doc.Sound server ∧ (doc.row.isSome = true → indexed = true) := by
  induction docs generalizing token next prepared with
  | nil =>
    cases ran
    exact ⟨rfl, fun doc member => by cases member⟩
  | cons first docs ih =>
    have step (token' : UInt64) (doc : Prepared) (own : doc.id = first.id) (sound : doc.Sound server)
        (staged : doc.row.isSome = true → indexed = true)
        (made : (prepare server indexed token' docs).1.map (doc :: ·) = some prepared) :
        prepared.map (·.id) = (first :: docs).map (·.id) ∧
          ∀ doc ∈ prepared, doc.Sound server ∧ (doc.row.isSome = true → indexed = true) := by
      obtain ⟨rest, inner, rfl⟩ := Option.map_eq_some_iff.mp made
      have whole : prepare server indexed token' docs = (some rest, (prepare server indexed token' docs).2) :=
        Prod.ext inner rfl
      obtain ⟨ids, later⟩ := ih whole
      exact ⟨by rw [map_cons, map_cons, own, ids], forall_mem_cons.mpr ⟨⟨sound, staged⟩, later⟩⟩
    rw [prepare] at ran
    split at ran
    next =>
      exact step _ ⟨first.id, ⟨defaultVersion, first.vector.or (server.embedder.map (· first.text))⟩, none⟩ rfl rfl
        (fun staged => by cases staged) (congrArg Prod.fst ran)
    next values given =>
      split at ran
      next => cases ran
      next row normal =>
        exact step _ ⟨first.id, ⟨versionStamp token, some values⟩, some (token, row)⟩ rfl ⟨rfl, values, rfl, normal⟩
          (fun _ => (Option.filter_eq_some_iff.mp given).2) (congrArg Prod.fst ran)

theorem finalDocs_nodup (docs : List DocIn) : ((finalDocs docs).map (·.id)).Nodup := by
  have run (docs final : List DocIn) (distinct : (final.map (·.id)).Nodup) :
      ((docs.foldl (fun final doc => final.filter (·.id ≠ doc.id) ++ [doc]) final).map (·.id)).Nodup := by
    induction docs generalizing final with
    | nil => exact distinct
    | cons doc docs ih =>
      refine ih _ ?_
      rw [map_append, map_singleton, ← concat_eq_append, nodup_concat]
      refine ⟨fun member => ?_, distinct.sublist (filter_sublist.map _)⟩
      obtain ⟨kept, inside, same⟩ := mem_map.mp member
      simpa [same] using (mem_filter.mp inside).2
  exact run docs [] nodup_nil

theorem mem_stagedRows {id : String} {row : UInt64 × Vector} :
    (id, row) ∈ stagedRows docs ↔ ∃ doc ∈ docs, doc.id = id ∧ doc.row = some row := by
  rw [stagedRows, mem_filterMap]
  constructor
  · rintro ⟨doc, member, made⟩
    obtain ⟨own, held, same⟩ := Option.map_eq_some_iff.mp made
    cases same
    exact ⟨doc, member, rfl, held⟩
  · rintro ⟨doc, member, rfl, held⟩
    exact ⟨doc, member, by rw [Prepared.staged, held]; rfl⟩

theorem stagedRows_nodup (distinct : (docs.map (·.id)).Nodup) : ((stagedRows docs).map Prod.fst).Nodup := by
  refine distinct.sublist ?_
  induction docs with
  | nil => exact List.Sublist.slnil
  | cons doc docs ih =>
    rw [map_cons, nodup_cons] at distinct
    have rest := ih distinct.2
    rw [stagedRows, filterMap_cons, map_cons]
    cases held : doc.row with
    | none =>
      rw [Prepared.staged, held]
      exact rest.cons _
    | some row =>
      rw [Prepared.staged, held]
      exact rest.cons_cons _

theorem getElem?_committed {docs : List Prepared} (distinct : (docs.map (·.id)).Nodup) (core : Core) (id : String) :
    (docs.foldl (fun core doc => core.insert doc.id doc.record) core)[id]? =
      ((docs.find? fun doc => doc.id = id).map (·.record)).or core[id]? :=
  Table.getElem?_foldl_insert Prepared.id Prepared.record distinct core id

end Preparing

/-- What a write under way knows of its documents, and that the marker is there for their rows. -/
def Write.Valid (server : Server) (tenant : Tenant) (served : Map) : Write → Prop
  | .idle => True
  | .storing docs => (docs.map (·.id)).Nodup ∧ (∀ doc ∈ docs, doc.Sound server) ∧
    (∀ doc ∈ docs, ∀ row, doc.row = some row → served doc.id = some row) ∧
    ∀ doc ∈ docs, doc.row.isSome = true → tenant.index.disk.dirty = true
  | .undoing _ => tenant.index.disk.dirty = true
  | .deleting _ => True

def Tenant.rows (server : Server) (tenant : Tenant) : Map :=
  match tenant.index.memory with
  | some memory => memory.state.serves
  | none => (openIndex server.crc server.dim none tenant.index.disk).memory.elim (fun _ => none) (·.state.serves)

/-- A document of the engine may change without its row: there is none, or the next open checks it. -/
def Tenant.Rowless (server : Server) (tenant : Tenant) (id : String) : Prop :=
  tenant.index.memory = none ∧ tenant.index.disk.dirty = true ∨ tenant.rows server id = none

/-- The tokens drawn for documents are not those of the versions the engine holds of them. -/
def Fresh (core : Core) (docs : List Prepared) : Prop :=
  ∀ doc ∈ docs, ∀ row, doc.row = some row → ∀ record, core[doc.id]? = some record → record.version ≠ versionStamp row.1

/-- The call appends cleanly on the open index. -/
def Tenant.CleanCall (server : Server) (tenant : Tenant) (request : Call) (fault : Option AppendFault) : Prop :=
  ∀ memory, tenant.index.memory = some memory → request.appends server.dim memory.state →
    VectorIndex.CleanCall server.crc server.dim tenant.index.disk memory request fault

def Tenant.CleanCrash (server : Server) (tenant : Tenant) (request : Call) (written : Nat) : Prop :=
  ∀ memory, tenant.index.memory = some memory → request.appends server.dim memory.state →
    VectorIndex.CleanCrash server.crc server.dim tenant.index.disk memory request written

/-- No step leaves a row behind that the engine does not hold: a document changes without its row only
where it has none, rows that are to go do go, and the process does not stop between a deletion and its
row with no marker there. Tokens are new, the marker is not lost by `settle`, and the index's own steps
are clean. -/
def Clean (server : Server) (tenant : Tenant) (event : Event) : Prop :=
  match tenant.write, event with
  | .idle, .opened fault dropped _ _ => tenant.index.memory = none →
    ∀ memory, (openIndex server.crc server.dim fault tenant.index.disk).memory = some memory →
      Call.appends server.dim memory.state (.remove (stale memory.state (keep tenant.core))) →
        VectorIndex.CleanCall server.crc server.dim (openIndex server.crc server.dim fault tenant.index.disk).disk memory
          (.remove (stale memory.state (keep tenant.core))) dropped
  | .idle, .store docs fault => ∀ prepared token, tenant.prepared server docs = (some prepared, token) →
    Fresh tenant.core prepared ∧ tenant.CleanCall server (.stage (stagedRows prepared)) fault
  | .storing docs, .commit result => result ≠ .failed → ∀ doc ∈ docs, doc.row = none → tenant.Rowless server doc.id
  | .undoing ids, .undo fault => fault = none ∧ tenant.CleanCall server (.remove ids) none
  | .deleting id, .unindex fault => (fault = none ∨ tenant.rows server id = none) ∧
    tenant.CleanCall server (.remove [id]) fault
  | .idle, .delete id result =>
    result = .reported ∨ result = .committed ∧ tenant.index.memory = none → tenant.Rowless server id
  | .idle, .settle cleared => cleared ≠ some .removed
  | _, .maintain step => VectorIndex.Clean server.crc server.dim tenant.index (.maintain step)
  | .idle, .crashStore docs written => ∀ prepared token, tenant.prepared server docs = (some prepared, token) →
    Fresh tenant.core prepared ∧ tenant.CleanCrash server (.stage (stagedRows prepared)) written
  | .undoing ids, .crashRemove written => tenant.CleanCrash server (.remove ids) written
  | .deleting id, .crashRemove written => tenant.CleanCrash server (.remove [id]) written
  | .deleting id, .stop => tenant.index.disk.dirty = true ∨ tenant.rows server id = none
  | _, _ => True

def CleanRun (server : Server) : Tenant → List Event → Prop
  | _, [] => True
  | tenant, event :: events => Clean server tenant event ∧ CleanRun server (tenant.step server event) events

/-- The index of a tenant next to its engine. -/
structure Sound (server : Server) (tenant : Tenant) (served : Map) : Prop where
  index : VectorIndex.Sound server.crc server.dim tenant.index served
  faithful : Faithful server tenant.core served
  marked : ∀ memory, tenant.index.memory = some memory → Marked tenant.index.disk memory
  closed : tenant.index.memory = none → tenant.index.disk.dirty = true ∨
    Aligned server tenant.core served fun _ => False
  opened : ∀ memory, tenant.index.memory = some memory → Aligned server tenant.core served tenant.write.excepted
  write : tenant.write.Valid server tenant served

end Warm.Server.VectorStore
