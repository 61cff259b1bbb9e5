import Warm.RestoreCrash

/-! A tenant over time: restores, snapshots and opens that hold its store exclusively, deletes of snapshots that run beside
them, and crashes. As long as no delete takes apart the snapshot that a pending restore set the store aside as, every open
serves what was stored. -/
namespace Warm.Server

open Interleaving CrashLogic List
open Safely (bind call pure throw)

/-- What a task that holds the store exclusively has still to do. -/
inductive Worker (σ : Type) where
  | restoring (stamp : TimeStamp) (source : Place) (new : σ)
    (rest : Program (Disk.Command σ) Disk.Answer (Except Failure String))
  | creating (made : String) (rest : Program (Disk.Command σ) Disk.Answer (Except Failure String))
  | opening (rest : Program (Disk.Command σ) Disk.Answer (Except Failure Unit))

/-- A tenant's disk, the task that holds its store, and the removals under way. `stored` is what the tenant holds: what was
last written through an engine or brought in by a restore that was done. -/
structure Site (σ : Type) where
  disk : Disk σ
  worker : Option (Worker σ)
  sweeping : List (Program (Disk.Command σ) Disk.Answer (Except Failure Unit))
  stored : σ

namespace Site

variable {σ : Type}

/-- What is stored once a restore is over, whether it returned or was cut off. -/
def outcome (site : Site σ) (new : σ) : σ :=
  if site.disk.touched = done then new else site.stored

/-- The process is gone, and what it was doing. -/
def crash (site : Site σ) : Site σ where
  disk := site.disk.halted
  worker := none
  sweeping := []
  stored :=
    match site.worker with
    | some (.restoring _ _ new _) => site.outcome new
    | _ => site.stored

/-- The snapshot that a restore set the store aside as, or is about to. -/
def Pending (site : Site σ) (id : String) : Prop :=
  (∃ intent, site.disk.intent = some intent ∧ intent.backup = id) ∨
    ∃ stamp source new rest, site.worker = some (.restoring stamp source new rest) ∧ backupId stamp = id

/-- The snapshot a command takes apart or away. -/
def removes : Disk.Command σ → Option String
  | .unlink (.snapshot id) => some id
  | .removeDir (.snapshot id) => some id
  | _ => none

/-- One step of the tenant. Deletes may only remove what is admitted. -/
inductive Step (blank : σ) (admits : Site σ → String → Prop) : Site σ → Site σ → Prop where
  | writes (site : Site σ) (dir : Dir σ) (store : σ) : site.worker = none → site.disk.engine = some dir →
    Step blank admits site { site with
      disk := { site.disk.put .live (some (.whole store)) with engine := some (.whole store) }
      stored := store }
  | evicts (site : Site σ) : site.worker = none → Step blank admits site { site with disk := site.disk.halted }
  /-- `restore_staged` of a store that was verified, under an engine that is open. -/
  | restores (site : Site σ) (dir : Dir σ) (entries : Place → Nat) (source : Place) (stamp : TimeStamp) (new : σ) :
    site.worker = none → site.disk.engine = some dir →
    (∀ name, source = .staged name → site.disk.dirs source = some (.whole new)) →
    Step blank admits site { site with
      disk := { site.disk with touched := [] }
      worker := some (.restoring stamp source new (restoreStaged entries source stamp).run) }
  | creates (site : Site σ) (dir : Dir σ) (entries : Nat) (stamp : TimeStamp) (suffix : String) :
    site.worker = none → site.disk.engine = some dir →
    Step blank admits site { site with
      worker := some (.creating (snapshotId stamp suffix) (createSnapshot entries (snapshotId stamp suffix)).run) }
  | opens (site : Site σ) (entries : Place → Nat) : site.worker = none → site.disk.engine = none →
    Step blank admits site { site with worker := some (.opening (openTenant entries).run) }
  | lists (site : Site σ) : Step blank admits site site
  | deletes (site : Site σ) (id : String) (entries : Nat) :
    Step blank admits site { site with sweeping := site.sweeping ++ [(deleteSnapshot id entries).run] }
  | restoring (site : Site σ) (stamp : TimeStamp) (source : Place) (new : σ) (command : Disk.Command σ)
    (next : Disk.Answer command → Program (Disk.Command σ) Disk.Answer (Except Failure String)) (works : Bool) :
    site.worker = some (.restoring stamp source new (.act command next)) →
    Step blank admits site { site with
      disk := (Disk.exec blank command works site.disk).2
      worker := some (.restoring stamp source new (next (Disk.exec blank command works site.disk).1)) }
  | restored (site : Site σ) (stamp : TimeStamp) (source : Place) (new : σ) (result : Except Failure String) :
    site.worker = some (.restoring stamp source new (.done result)) →
    Step blank admits site { site with worker := none, stored := site.outcome new }
  | creating (site : Site σ) (made : String) (command : Disk.Command σ)
    (next : Disk.Answer command → Program (Disk.Command σ) Disk.Answer (Except Failure String)) (works : Bool) :
    site.worker = some (.creating made (.act command next)) →
    Step blank admits site { site with
      disk := (Disk.exec blank command works site.disk).2
      worker := some (.creating made (next (Disk.exec blank command works site.disk).1)) }
  /-- What a snapshot that failed left is removed without the store being held. -/
  | created (site : Site σ) (made : String) (entries : Nat) (result : Except Failure String) :
    site.worker = some (.creating made (.done result)) →
    Step blank admits site { site with
      worker := none
      sweeping :=
        match result with
        | .ok _ => site.sweeping
        | .error _ => site.sweeping ++ [(removeDirAll (.snapshot (partialId made)) entries).run] }
  | opening (site : Site σ) (command : Disk.Command σ)
    (next : Disk.Answer command → Program (Disk.Command σ) Disk.Answer (Except Failure Unit)) (works : Bool) :
    site.worker = some (.opening (.act command next)) →
    Step blank admits site { site with
      disk := (Disk.exec blank command works site.disk).2
      worker := some (.opening (next (Disk.exec blank command works site.disk).1)) }
  | opened (site : Site σ) (result : Except Failure Unit) : site.worker = some (.opening (.done result)) →
    Step blank admits site { site with worker := none }
  | sweeping (site : Site σ) (before after : List (Program (Disk.Command σ) Disk.Answer (Except Failure Unit)))
    (command : Disk.Command σ) (next : Disk.Answer command → Program (Disk.Command σ) Disk.Answer (Except Failure Unit))
    (works : Bool) : site.sweeping = before ++ .act command next :: after →
    (∀ id, removes command = some id → admits site id) →
    Step blank admits site { site with
      disk := (Disk.exec blank command works site.disk).2
      sweeping := before ++ next (Disk.exec blank command works site.disk).1 :: after }
  | crashes (site : Site σ) : Step blank admits site site.crash

def Reaches (blank : σ) (admits : Site σ → String → Prop) : Site σ → Site σ → Prop :=
  Relation.ReflTransGen (Step blank admits)

end Site

section Tasks

variable {σ : Type} {blank : σ} {kept : String → Prop} {old new : σ} {disk : Disk σ}

theorem Recovered.held (recovered : Recovered old disk) : Held old disk :=
  recovered.closed.2

theorem openTenant_safe (entries : Place → Nat) (here : Closed old disk) :
    Safely (Disk.exec blank) (Elsewhere kept) (Held old) (fun _ => Serving old) (fun _ => Closed old)
      (openTenant entries) disk := by
  have recovers : Safely (Disk.exec blank) (Elsewhere kept) (Held old) (fun _ => Recovered old) (fun _ => Closed old)
      (Restore.recover entries) disk :=
    Safe.mono (recover_safe entries here) (fun _ closed => closed.2) fun _ _ ends => ends
  refine bind (recovers.mono (fun _ disk here => ?_) fun _ _ closed => closed)
  refine bind ((io_safe (fun _ _ => rfl) here Recovered.stable fun _ here => here.held).mono (fun _ disk here => ?_)
    fun _ _ here => here.closed)
  refine bind ((openCore_safe here Recovered.stable (fun _ here => here.held) fun _ here => here.2.2).mono
    (fun core disk opened => ?_) fun _ _ failed => failed.2.closed)
  obtain ⟨rfl, here⟩ := opened
  refine Safely.act fun disk' moved _ => ?_
  have still := Recovered.stable disk disk' here moved
  have serving : Serving old { disk' with engine := some (.whole old) } :=
    ⟨rfl, still.2.2, fun intent pending => absurd (still.2.1.symm.trans pending) (by simp)⟩
  exact ⟨serving.held, serving⟩

theorem backupId_head (stamp : TimeStamp) : (backupId stamp).toList.head? = some 'p' := by
  simp [backupId]

theorem snapshotId_ne (stamp stamp' : TimeStamp) (suffix : String) : snapshotId stamp suffix ≠ backupId stamp' := by
  intro same
  have heads := (congrArg (fun id : String => id.toList.head?) same).trans (backupId_head stamp')
  have digits : ∀ digit : Fin 10, (toString digit.val).toList ≠ [] ∧ (toString digit.val).toList.head? ≠ some 'p' := by
    decide
  obtain ⟨some, other⟩ := digits stamp.year
  obtain ⟨first, more, text⟩ := exists_cons_of_ne_nil some
  simp only [snapshotId, TimeStamp.text, String.toList_append, text, cons_append, head?_cons] at heads
  exact other (by rw [text]; exact heads)

theorem partialId_ne (made : String) (stamp : TimeStamp) : partialId made ≠ backupId stamp := by
  intro same
  have heads := (congrArg (fun id : String => id.toList.head?) same).trans (backupId_head stamp)
  simp [partialId] at heads

theorem Serving.put {id : String} (serving : Serving old disk) (other : ∀ stamp, id ≠ backupId stamp)
    (dir : Option (Dir σ)) : Serving old (disk.put (.snapshot id) dir) where
  engine := serving.engine
  live := by simp [serving.live]
  pending := by
    intro intent pending
    obtain ⟨sound, missing⟩ := serving.pending intent pending
    obtain ⟨stamp, named⟩ := sound.named
    have apart : intent.backup ≠ id := fun same => other stamp (same.symm.trans named)
    exact ⟨sound, by simp [apart, missing]⟩

theorem createSnapshot_safe (other : ∀ stamp, made ≠ backupId stamp) (entries : Nat) (here : Serving old disk) :
    Safely (Disk.exec blank) (Elsewhere kept) (Serving old) (fun _ => Serving old) (fun _ => Serving old)
      (createSnapshot entries made) disk := by
  have idle {command : Disk.Command σ} {worked : Disk.Answer command → Bool} (disk : Disk σ) (here : Serving old disk)
      (same : ∀ works disk, (Disk.exec blank command works disk).2 = disk) :
      Safely (Disk.exec blank) (Elsewhere kept) (Serving old) (fun _ => Serving old) (fun _ => Serving old)
        (io command worked) disk := io_safe same here Serving.stable fun _ serving => serving
  refine bind ((idle disk here fun _ _ => rfl).mono (fun _ disk here => ?_) fun _ _ here => here)
  refine bind ((idle disk here fun _ _ => rfl).mono (fun _ disk here => ?_) fun _ _ here => here)
  refine bind (call fun disk' moved works => ?_)
  have still := Serving.stable disk disk' here moved
  cases works with
  | false => exact ⟨still, still⟩
  | true =>
  refine ⟨still.put (partialId_ne made) _, ?_⟩
  simp only [Disk.exec, if_true, id]
  refine bind (call fun disk' moved works => ?_)
  have still := Serving.stable _ disk' (still.put (partialId_ne made) _) moved
  cases works with
  | false => exact ⟨still, still⟩
  | true =>
  refine ⟨still.put (partialId_ne made) _, ?_⟩
  simp only [Disk.exec, if_true, id]
  refine bind ((rename_safe (still.put (partialId_ne made) _) Serving.stable (fun _ serving => serving)
    (fun _ serving => serving) fun disk here => (here.put (partialId_ne made) _).put other _).mono
    (fun _ disk here => ?_) fun _ _ here => here)
  refine bind (Safely.outcome ((idle disk here fun _ _ => rfl).mono (fun _ disk here => pure here)
    fun error disk here => ?_))
  refine bind (Safely.outcome ((removeDirAll_safe Serving.stable (fun _ serving => serving)
    (fun disk here => here.put other _) (fun disk here => here.put other _) (fun _ serving => serving) entries disk
    here).mono (fun _ disk here => ?_) fun _ disk here => ?_))
  · exact throw here
  · exact throw here

end Tasks

section Sweeps

variable {σ : Type} {blank : σ} {kept : String → Prop} {disk : Disk σ}

/-- A command of a delete: it looks at a snapshot or takes it apart. -/
def sweeps : Disk.Command σ → Prop
  | .directory _ => True
  | .unlink (.snapshot _) => True
  | .removeDir (.snapshot _) => True
  | _ => False

def Sweeps {α : Type} : Program (Disk.Command σ) Disk.Answer α → Prop
  | .done _ => True
  | .act command next => sweeps command ∧ ∀ answer, Sweeps (next answer)

theorem removeDirAll_sweeps (id : String) (entries : Nat) :
    Sweeps (removeDirAll (.snapshot id) entries : Io σ Unit).run := by
  induction entries with
  | zero => exact ⟨trivial, fun answer => by cases answer <;> trivial⟩
  | succ entries ih =>
    refine ⟨trivial, fun answer => ?_⟩
    cases answer with
    | false => trivial
    | true => exact ih

theorem deleteSnapshot_sweeps (id : String) (entries : Nat) : Sweeps (deleteSnapshot id entries : Io σ Unit).run := by
  unfold deleteSnapshot
  cases validSnapshotId id with
  | false => trivial
  | true =>
    refine ⟨trivial, fun answer => ?_⟩
    match answer with
    | none => trivial
    | some false => trivial
    | some true => exact removeDirAll_sweeps id entries

theorem put_elsewhere {id : String} (present : (disk.dirs (.snapshot id)).isSome)
    (free : ¬(kept id ∨ ∃ intent, disk.intent = some intent ∧ intent.backup = id)) :
    Elsewhere kept disk (disk.put (.snapshot id) dir) where
  intent := rfl
  engine := rfl
  touched := rfl
  dirs := fun place other => by simp [other id]
  kept := by
    intro other held
    have apart : other ≠ id := fun same => free (same ▸ held)
    simp [apart]
  gone := by
    intro other missing
    have apart : other ≠ id := by
      rintro rfl
      rw [missing] at present
      exact absurd present (by simp)
    simp [apart, missing]

theorem sweeps_elsewhere (sweep : sweeps command)
    (free : ∀ id, Site.removes command = some id → ¬(kept id ∨ ∃ intent, disk.intent = some intent ∧ intent.backup = id))
    (works : Bool) : Elsewhere kept disk (Disk.exec blank command works disk).2 := by
  unfold sweeps at sweep
  split at sweep
  next place => exact Std.Refl.refl disk
  next id =>
    simp only [Disk.exec]
    split
    next done => exact put_elsewhere done.2 (free id rfl)
    next => exact Std.Refl.refl disk
  next id =>
    simp only [Disk.exec]
    split
    next done => exact put_elsewhere done.2 (free id rfl)
    next => exact Std.Refl.refl disk
  next => exact sweep.elim

end Sweeps

namespace Site

variable {σ : Type} {blank : σ} {site site' : Site σ}

/-- What is promised of a restore that ends. -/
def Ended (named : Intent) (old new : σ) (result : Except Failure String) (disk : Disk σ) : Prop :=
  match result with
  | .ok _ => disk.engine = some (.whole new) ∧ Replaced named old new disk ∧ disk.touched = done
  | .error error => Unbegun old disk ∨ Unserved named old new error disk

theorem Ended.stable (protect : kept named.backup) (result : Except Failure String) (disk disk' : Disk σ)
    (ended : Ended named old new result disk) (moved : Elsewhere kept disk disk') : Ended named old new result disk' := by
  cases result with
  | ok backup =>
    obtain ⟨engine, replaced, finished⟩ := ended
    exact ⟨moved.engine.trans engine, ⟨moved.intent.trans replaced.intent,
      (moved.dirs .live (by simp)).trans replaced.live, (moved.kept _ (.inl protect)).trans replaced.backup⟩,
      moved.touched.trans finished⟩
  | error error =>
    refine Or.imp (fun unbegun => Unbegun.stable disk disk' unbegun moved) (fun unserved => ?_) ended
    refine ⟨Crash.stable protect disk disk' unserved.crash moved, moved.engine.trans unserved.engine, ?_⟩
    rw [moved.intent, moved.touched, moved.dirs .live (by simp)]
    exact unserved.cause

/-- Outside of tasks the store is held, and what is served is what is stored. -/
def Rests (site : Site σ) : Prop :=
  Held site.stored site.disk ∧ (site.disk.engine = none ∨ Serving site.stored site.disk)

/-- The task that holds the store keeps what it promises. -/
def Works (blank : σ) (site : Site σ) : Prop :=
  match site.worker with
  | none => site.Rests
  | some (.restoring stamp source new rest) =>
    Crash (intentOf source stamp) site.stored new site.disk ∧
      Safe (Disk.exec blank) (Elsewhere (· = backupId stamp)) (Crash (intentOf source stamp) site.stored new)
        (Ended (intentOf source stamp) site.stored new) rest site.disk
  | some (.creating _ rest) =>
    Serving site.stored site.disk ∧
      Safe (Disk.exec blank) (Elsewhere fun _ => False) (Serving site.stored) (fun _ => Serving site.stored) rest site.disk
  | some (.opening rest) =>
    Held site.stored site.disk ∧
      Safe (Disk.exec blank) (Elsewhere fun _ => False) (Held site.stored)
        (fun result disk => match result with | .ok _ => Serving site.stored disk | .error _ => Closed site.stored disk)
        rest site.disk

structure Sound (blank : σ) (site : Site σ) : Prop where
  works : site.Works blank
  sweeps : ∀ rest ∈ site.sweeping, Sweeps rest

theorem Works.swept (works : site.Works blank)
    (moved : ∀ kept : String → Prop, (∀ id, kept id → site.Pending id) → Elsewhere kept site.disk disk')
    (sweeping : List (Program (Disk.Command σ) Disk.Answer (Except Failure Unit))) :
    ({ site with disk := disk', sweeping } : Site σ).Works blank := by
  obtain ⟨disk, worker, _, stored⟩ := site
  cases worker with
  | none =>
    have moved := moved (fun _ => False) fun _ never => never.elim
    exact ⟨works.1.stable moved, works.2.imp (fun closed => moved.engine.trans closed)
      fun serving => Serving.stable disk disk' serving moved⟩
  | some worker =>
    cases worker with
    | restoring stamp source new rest =>
      have moved := moved (· = backupId stamp) fun id same => .inr ⟨stamp, source, new, rest, rfl, same.symm⟩
      have protect : (· = backupId stamp) (intentOf source stamp).backup := rfl
      exact ⟨Crash.stable protect disk disk' works.1 moved, works.2.moved moved (Ended.stable protect)⟩
    | creating made rest =>
      have moved := moved (fun _ => False) fun _ never => never.elim
      exact ⟨Serving.stable disk disk' works.1 moved, works.2.moved moved fun _ => Serving.stable⟩
    | opening rest =>
      have moved := moved (fun _ => False) fun _ never => never.elim
      refine ⟨works.1.stable moved, works.2.moved moved fun result disk disk' ends moved => ?_⟩
      cases result with
      | ok => exact Serving.stable disk disk' ends moved
      | error => exact Closed.stable disk disk' ends moved

theorem Works.crash (works : site.Works blank) : site.crash.Rests := by
  obtain ⟨disk, worker, sweeping, stored⟩ := site
  cases worker with
  | none => exact ⟨works.1, .inl rfl⟩
  | some worker =>
    cases worker with
    | restoring stamp source new rest | creating made rest => exact ⟨works.1.held, .inl rfl⟩
    | opening rest => exact ⟨works.1, .inl rfl⟩

theorem Ended.rests (ended : Ended named site.stored new result site.disk) :
    Held (site.outcome new) site.disk ∧ (site.disk.engine = none ∨ Serving (site.outcome new) site.disk) := by
  cases result with
  | ok backup =>
    obtain ⟨engine, replaced, finished⟩ := ended
    rw [outcome, if_pos finished]
    exact ⟨replaced.held, .inr ⟨engine, replaced.live, fun intent pending =>
      absurd (replaced.intent.symm.trans pending) (by simp)⟩⟩
  | error error =>
    rcases ended with unbegun | unserved
    · rw [outcome, if_neg unbegun.touched]
      exact ⟨unbegun.serving.held, .inr unbegun.serving⟩
    · exact ⟨unserved.crash.held, .inl unserved.engine⟩

theorem Rests.serving (rests : site.Rests) (engine : site.disk.engine = some dir) : Serving site.stored site.disk :=
  rests.2.resolve_left fun closed => absurd (closed.symm.trans engine) (by simp)

theorem Step.sound (step : Step blank (fun site id => ¬site.Pending id) site site') (sound : site.Sound blank) :
    site'.Sound blank := by
  obtain ⟨works, sweeps⟩ := sound
  cases step with
  | writes dir store idle engine =>
    rw [Works, idle] at works
    have serving := works.serving engine
    have written : Serving store { site.disk.put .live (some (.whole store)) with engine := some (.whole store) } :=
      ⟨rfl, by simp, fun intent pending => by simpa using serving.pending intent pending⟩
    exact ⟨by rw [Works, idle]; exact ⟨written.held, .inr written⟩, sweeps⟩
  | evicts idle =>
    rw [Works, idle] at works
    exact ⟨by rw [Works, idle]; exact ⟨works.1, .inl rfl⟩, sweeps⟩
  | restores dir entries source stamp new idle engine staged =>
    rw [Works, idle] at works
    have serving := works.serving engine
    have ready : Ready site.stored new source { site.disk with touched := [] } :=
      ⟨⟨serving.engine, serving.live, serving.pending⟩, rfl, staged⟩
    have safe : Safely (Disk.exec blank) (Elsewhere (· = backupId stamp)) _ _ _ (restoreStaged entries source stamp) _ :=
      restoreStaged_safe (by exact rfl) entries ready
    refine ⟨⟨ready.unbegun.crash, Safe.imp safe fun result disk ends => ?_⟩, sweeps⟩
    cases result with
    | ok => exact ends.2
    | error => exact ends
  | creates dir entries stamp suffix idle engine =>
    rw [Works, idle] at works
    have serving := works.serving engine
    refine ⟨⟨serving, Safe.imp (createSnapshot_safe (snapshotId_ne stamp · suffix) entries serving) ?_⟩, sweeps⟩
    intro result disk ends
    cases result <;> exact ends
  | opens entries idle closed =>
    rw [Works, idle] at works
    refine ⟨⟨works.1, Safe.imp (openTenant_safe entries ⟨closed, works.1⟩) fun result disk ends => ?_⟩, sweeps⟩
    cases result <;> exact ends
  | lists => exact ⟨works, sweeps⟩
  | deletes id entries =>
    exact ⟨works, forall_mem_append.mpr ⟨sweeps, forall_mem_singleton.mpr (deleteSnapshot_sweeps id entries)⟩⟩
  | restoring stamp source new command next answer busy | creating made command next answer busy
  | opening command next answer busy =>
    rw [Works, busy] at works
    exact ⟨works.2 _ (Std.Refl.refl _) answer, sweeps⟩
  | restored stamp source new result busy =>
    rw [Works, busy] at works
    exact ⟨works.2.rests, sweeps⟩
  | created made entries result busy =>
    rw [Works, busy] at works
    refine ⟨⟨works.1.held, .inr works.1⟩, fun rest member => ?_⟩
    cases result with
    | ok => exact sweeps rest member
    | error =>
      rcases mem_append.mp member with old | new
      · exact sweeps rest old
      · exact mem_singleton.mp new ▸ removeDirAll_sweeps (partialId made) entries
  | opened result busy =>
    rw [Works, busy] at works
    refine ⟨⟨works.1, ?_⟩, sweeps⟩
    cases result with
    | ok => exact .inr works.2
    | error => exact .inl works.2.1
  | sweeping before after command next answer split free =>
    have own := sweeps (.act command next) (by rw [split]; simp)
    refine ⟨works.swept (fun kept pending => sweeps_elsewhere own.1 (fun id removed held => ?_) answer) _, ?_⟩
    · rcases held with held | named
      · exact free id removed (pending id held)
      · exact free id removed (.inl named)
    · intro rest member
      rcases mem_append.mp member with first | second
      · exact sweeps rest (by rw [split]; exact mem_append_left _ first)
      · rcases mem_cons.mp second with rfl | second
        · exact own.2 _
        · exact sweeps rest (by rw [split]; exact mem_append_right _ (mem_cons_of_mem _ second))
  | crashes => exact ⟨works.crash, forall_mem_nil _⟩

theorem Reaches.sound (reached : Reaches blank (fun site id => ¬site.Pending id) site site') (sound : site.Sound blank) :
    site'.Sound blank := by
  induction reached with
  | refl => exact sound
  | tail _ step ih => exact step.sound ih

/-- However restores, snapshots, deletes, opens and crashes follow one another: a tenant that is open serves what is
stored, if no snapshot was deleted that a pending restore set the store aside as. -/
theorem serves_stored (store : σ) (disk : Disk σ) (start : Serving store disk)
    (reached : Reaches blank (fun site id => ¬site.Pending id) ⟨disk, none, [], store⟩ site) (idle : site.worker = none) :
    Held site.stored site.disk ∧ ∀ dir, site.disk.engine = some dir → dir = .whole site.stored := by
  have sound := reached.sound ⟨⟨start.held, .inr start⟩, forall_mem_nil _⟩
  have rests : site.Rests := by
    have works := sound.works
    rwa [Works, idle] at works
  exact ⟨rests.1, fun dir engine => Option.some.inj (engine.symm.trans (rests.serving engine).engine)⟩

section Schedules

variable {admits : Site σ → String → Prop} {start : Site σ} {disk : Disk σ} {store : σ}
  {sweeping : List (Program (Disk.Command σ) Disk.Answer (Except Failure Unit))}

theorem Reaches.restoring (choices : List Bool)
    (reached : Reaches blank admits start ⟨disk, some (.restoring stamp source new rest), sweeping, store⟩) :
    Reaches blank admits start
      ⟨(advance (Disk.exec blank) choices (rest, disk)).2,
        some (.restoring stamp source new (advance (Disk.exec blank) choices (rest, disk)).1), sweeping, store⟩ := by
  induction choices generalizing rest disk with
  | nil => exact reached
  | cons choice choices ih =>
    cases rest with
    | done value => exact reached
    | act command next => exact ih (reached.tail (.restoring _ stamp source new command next choice rfl))

theorem Reaches.opening (choices : List Bool)
    (reached : Reaches blank admits start ⟨disk, some (.opening rest), sweeping, store⟩) :
    Reaches blank admits start
      ⟨(advance (Disk.exec blank) choices (rest, disk)).2,
        some (.opening (advance (Disk.exec blank) choices (rest, disk)).1), sweeping, store⟩ := by
  induction choices generalizing rest disk with
  | nil => exact reached
  | cons choice choices ih =>
    cases rest with
    | done value => exact reached
    | act command next => exact ih (reached.tail (.opening _ command next choice rfl))

theorem Reaches.deleting {worker : Option (Worker σ)} (choices : List Bool)
    (reached : Reaches blank (fun _ _ => True) start ⟨disk, worker, [rest], store⟩) :
    Reaches blank (fun _ _ => True) start ⟨(advance (Disk.exec blank) choices (rest, disk)).2, worker,
      [(advance (Disk.exec blank) choices (rest, disk)).1], store⟩ := by
  induction choices generalizing rest disk with
  | nil => exact reached
  | cons choice choices ih =>
    cases rest with
    | done value => exact reached
    | act command next =>
      exact ih (reached.tail (.sweeping _ [] [] command next choice rfl fun _ _ => trivial))

end Schedules

end Site

namespace Sample

def site : Site Bool :=
  ⟨tenant, none, [], false⟩

theorem restoring_reached (admits : Site Bool → String → Prop) (choices : List Bool) :
    Site.Reaches false admits site
      ⟨(advance (Disk.exec false) choices ((restoreStaged (fun _ => 0) (.staged "new") stamp).run, tenant)).2,
        some (.restoring stamp (.staged "new") true
          (advance (Disk.exec false) choices ((restoreStaged (fun _ => 0) (.staged "new") stamp).run, tenant)).1),
        [], false⟩ :=
  Site.Reaches.restoring choices
    (.single (.restores site (.whole false) (fun _ => 0) (.staged "new") stamp true rfl rfl ready.source))

theorem reopened_reached (admits : Site Bool → String → Prop) (cut : Site Bool) :
    Site.Reaches false admits cut
      ⟨(advance (Disk.exec false) (List.replicate 24 true) ((openTenant fun _ => 0).run, cut.crash.disk)).2,
        some (.opening (advance (Disk.exec false) (List.replicate 24 true) ((openTenant fun _ => 0).run, cut.crash.disk)).1),
        [], cut.crash.stored⟩ :=
  Site.Reaches.opening _ (.tail (.single (.crashes cut)) (.opens cut.crash (fun _ => 0) rfl rfl))

end Sample

/-- A restore cut off between its renames: the open after it serves the old store. -/
theorem serves_stored_cut : ∃ opened : Site Bool,
    Site.Reaches false (fun site id => ¬site.Pending id) Sample.site opened ∧ opened.worker = none ∧
    (∀ dir, opened.disk.engine = some dir → dir = .whole false) ∧ opened.disk.engine.isSome := by
  have cut := Sample.restoring_reached (fun site id => ¬site.Pending id) (List.replicate 13 true)
  have reached := (cut.trans (Sample.reopened_reached _ _)).tail (.opened _ (.ok ()) rfl)
  have served := Site.serves_stored false Sample.tenant Sample.ready.serving reached rfl
  exact ⟨_, reached, rfl, served.2, by decide⟩

/-- A restore that was done is not undone by a crash before it returns; and one whose backup is deleted before it fails
returns an error with the new store served, and no copy of the old one left. -/
theorem previous_store_lost :
    (∃ cut next opened, Site.Reaches false (fun _ _ => True) Sample.site cut ∧
      cut.worker = some (.restoring Sample.stamp (.staged "new") true (.act (.syncDir .snapshots) next)) ∧
      Site.Reaches false (fun _ _ => True) cut opened ∧ opened.worker = some (.opening (.done (.ok ()))) ∧
      opened.disk.engine = some (.whole true)) ∧
    ∃ failed error, Site.Reaches false (fun _ _ => True) Sample.site failed ∧
      failed.worker = some (.restoring Sample.stamp (.staged "new") true (.done (.error error))) ∧
      failed.disk.engine = some (.whole true) ∧ failed.disk.dirs .live = some (.whole true) ∧
      failed.disk.dirs (.snapshot (backupId Sample.stamp)) = none := by
  constructor
  · have cut := Sample.restoring_reached (fun _ _ => True) (List.replicate 19 true)
    exact ⟨_, _, _, cut, rfl, Sample.reopened_reached _ _, rfl, by decide⟩
  · have moved := Sample.restoring_reached (fun _ _ => True) (List.replicate 17 true)
    have swept := Site.Reaches.deleting [true, true] (moved.tail (.deletes _ (backupId Sample.stamp) 0))
    exact ⟨_, .engine, Site.Reaches.restoring (false :: List.replicate 12 true) swept, rfl, by decide,
      by decide, by decide⟩

end Warm.Server
