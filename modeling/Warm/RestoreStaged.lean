import Warm.RestoreSafety

/-! The whole of `restore_staged`, and of the open after it. -/
namespace Warm.Server

open Interleaving CrashLogic List
open Safely (act ask bind ensure mapError outcome pure)

variable {σ : Type} {blank : σ} {kept : String → Prop} {old new : σ} {named : Intent} {disk : Disk σ}

/-- An engine serves the old store, and no other copy is pending. -/
structure Serving (old : σ) (disk : Disk σ) : Prop where
  engine : disk.engine = some (.whole old)
  live : disk.dirs .live = some (.whole old)
  pending : ∀ intent, disk.intent = some intent → intent.Sound ∧ disk.dirs (.snapshot intent.backup) = none

theorem Serving.held (serving : Serving old disk) : Held old disk := by
  unfold Held
  split
  next => exact serving.live
  next intent pending =>
    obtain ⟨sound, missing⟩ := serving.pending intent pending
    exact ⟨sound, .inr ⟨missing, serving.live⟩⟩

theorem Serving.stable (disk disk' : Disk σ) (serving : Serving old disk) (moved : Elsewhere kept disk disk') :
    Serving old disk' where
  engine := moved.engine.trans serving.engine
  live := (moved.dirs .live (by simp)).trans serving.live
  pending := by
    intro intent pending
    obtain ⟨sound, missing⟩ := serving.pending intent (moved.intent.symm.trans pending)
    exact ⟨sound, moved.gone _ missing⟩

/-- The intent file was written and then removed for good: the restore is done. -/
def done : List Touch :=
  [.written, .removed]

/-- Where a restore may stop. -/
def Crash (named : Intent) (old new : σ) (disk : Disk σ) : Prop :=
  Held old disk ∧ disk.touched ≠ done ∨ Replaced named old new disk ∧ disk.touched = done

theorem Replaced.held (replaced : Replaced named old new disk) : Held new disk := by
  rw [Held, replaced.intent]
  exact replaced.live

theorem Crash.held (crash : Crash named old new disk) : Held (if disk.touched = done then new else old) disk := by
  rcases crash with ⟨held, pending⟩ | ⟨replaced, finished⟩
  · rwa [if_neg pending]
  · rw [if_pos finished]
    exact replaced.held

theorem Crash.stable (protect : kept named.backup) (disk disk' : Disk σ) (crash : Crash named old new disk)
    (moved : Elsewhere kept disk disk') : Crash named old new disk' := by
  rw [Crash, moved.touched]
  refine crash.imp (And.imp_left fun held => held.stable moved) (And.imp_left fun replaced => ?_)
  exact ⟨moved.intent.trans replaced.intent, (moved.dirs .live (by simp)).trans replaced.live,
    (moved.kept _ (.inl protect)).trans replaced.backup⟩

def staged (old new : σ) (live backup staged : Option (Dir σ)) : Prop :=
  live = some (.whole old) ∧ backup = none ∧ staged = some (.whole new)

def moved (old new : σ) (live backup staged : Option (Dir σ)) : Prop :=
  live = none ∧ backup = some (.whole old) ∧ staged = some (.whole new)

def published (old new : σ) (live backup _staged : Option (Dir σ)) : Prop :=
  live = some (.whole new) ∧ backup = some (.whole old)

/-- Before `begin_` is done: nothing happened, or the intent was written and could not be synced. -/
structure Unbegun (old : σ) (disk : Disk σ) : Prop where
  serving : Serving old disk
  touched : disk.touched ≠ done

theorem Unbegun.stable (disk disk' : Disk σ) (unbegun : Unbegun old disk) (moved : Elsewhere kept disk disk') :
    Unbegun old disk' :=
  ⟨Serving.stable disk disk' unbegun.serving moved, moved.touched ▸ unbegun.touched⟩

theorem Unbegun.crash (unbegun : Unbegun old disk) : Crash named old new disk :=
  .inl ⟨unbegun.serving.held, unbegun.touched⟩

/-- What is known before a restore begins. -/
structure Ready (old new : σ) (source : Place) (disk : Disk σ) : Prop where
  serving : Serving old disk
  touched : disk.touched = []
  source : ∀ name, source = .staged name → disk.dirs source = some (.whole new)

theorem Ready.stable {source : Place} (disk disk' : Disk σ) (ready : Ready old new source disk)
    (moved : Elsewhere kept disk disk') : Ready old new source disk' where
  serving := Serving.stable disk disk' ready.serving moved
  touched := moved.touched.trans ready.touched
  source := by
    rintro name rfl
    exact (moved.dirs _ (by simp)).trans (ready.source name rfl)

theorem Ready.unbegun {source : Place} (ready : Ready old new source disk) : Unbegun old disk :=
  ⟨ready.serving, by simp [ready.touched, done]⟩

def intentOf (source : Place) (stamp : TimeStamp) : Intent :=
  ⟨1, backupId stamp, (Restore.stagedName source).getD ""⟩

theorem sourcesPresent_safe {source directory : Place} (stop : ∀ disk, Ready old new source disk → crash disk)
    (here : Ready old new source disk) :
    Safely (Disk.exec blank) (Elsewhere kept) crash (fun _ => Ready old new source) (fun _ => Ready old new source)
      (Restore.sourcesPresent directory) disk := by
  refine bind ((directory_safe here Ready.stable stop).mono (fun live disk known => ?_) fun _ _ ready => ready)
  split
  next => exact (directory_safe known.1 Ready.stable stop).mono (fun _ _ known => known.1) fun _ _ ready => ready
  next => exact pure known.1

theorem alreadyPending_safe (stop : ∀ disk, Ready old new source disk → crash disk) (here : Ready old new source disk) :
    Safely (Disk.exec blank) (Elsewhere kept) crash
      (fun pending disk => Ready old new source disk ∧
        (pending = false → disk.dirs (.snapshot backup) = none ∧ disk.intent = none))
      (fun _ => Ready old new source) (Restore.alreadyPending backup) disk := by
  refine bind ((look_safe (fun _ _ => rfl) here Ready.stable stop).mono (fun taken disk known => ?_)
    fun _ _ ready => ready)
  obtain ⟨here, works, answered⟩ := known
  cases taken with
  | true => exact pure ⟨here, by simp⟩
  | false =>
    have missing : disk.dirs (.snapshot backup) = none := by cases works <;> simp_all [Disk.exec]
    let untaken (disk : Disk σ) : Prop := Ready old new source disk ∧ disk.dirs (.snapshot backup) = none
    have start : untaken disk := ⟨here, missing⟩
    refine (look_safe (fun _ _ => rfl) start (fun disk disk' here moved => ?_) fun disk here => stop disk here.1).mono
      (fun pending disk known => ?_) fun _ _ here => here.1
    · exact ⟨Ready.stable disk disk' here.1 moved, moved.gone _ here.2⟩
    · obtain ⟨here, works, answered⟩ := known
      refine ⟨here.1, fun absent => ⟨here.2, ?_⟩⟩
      cases works <;> simp_all [Disk.exec]

theorem begin_safe (protect : kept (backupId stamp)) (here : Ready old new source disk) :
    Safely (Disk.exec blank) (Elsewhere kept) (Crash (intentOf source stamp) old new)
      (fun intent disk => intent = intentOf source stamp ∧ intent.Sound ∧
        Stage intent (some (.whole old)) (some intent) [.written] (staged old new) disk)
      (fun _ => Unbegun old) (Restore.begin_ source (backupId stamp)) disk := by
  have stop (disk : Disk σ) (ready : Ready old new source disk) : Crash (intentOf source stamp) old new disk :=
    ready.unbegun.crash
  refine bind (ensure (fun valid => ?_) fun _ => here.unbegun)
  refine bind ((sourcesPresent_safe stop here).mono (fun present disk here => ?_) fun _ _ ready => ready.unbegun)
  refine bind (ensure (fun _ => ?_) fun _ => here.unbegun)
  refine bind ((io_safe (fun _ _ => rfl) here Ready.stable stop).mono (fun _ disk here => ?_)
    fun _ _ ready => ready.unbegun)
  refine bind (ensure (fun inside => ?_) fun _ => here.unbegun)
  refine bind (ensure (fun safe => ?_) fun _ => here.unbegun)
  have sound : (intentOf source stamp).Sound := ⟨rfl, valid, safe, stamp, rfl⟩
  refine bind ((alreadyPending_safe stop here).mono (fun pending disk known => ?_) fun _ _ ready => ready.unbegun)
  obtain ⟨here, absent⟩ := known
  refine bind (ensure (fun free => ?_) fun _ => here.unbegun)
  obtain ⟨missing, idle⟩ := absent (by simpa using free)
  obtain ⟨name, rfl⟩ : ∃ name, source = .staged name := by
    cases source with
    | staged name => exact ⟨name, rfl⟩
    | _ => exact absurd inside (by simp [Restore.stagedName])
  let intent := intentOf (.staged name) stamp
  let fresh : Disk σ → Prop := Stage intent (some (.whole old)) none [] (staged old new)
  let begun : Disk σ → Prop := Stage intent (some (.whole old)) (some intent) [.written] (staged old new)
  have start : fresh disk :=
    ⟨here.serving.engine, idle, here.touched, here.serving.live, missing, here.source name rfl⟩
  have fresh_unbegun (disk : Disk σ) (here : fresh disk) : Unbegun old disk :=
    ⟨⟨here.engine, here.places.1, fun _ pending => absurd (here.intent.symm.trans pending) (by simp)⟩,
      by simp [here.touched, done]⟩
  have begun_unbegun (disk : Disk σ) (here : begun disk) : Unbegun old disk := by
    refine ⟨⟨here.engine, here.places.1, fun other pending => ?_⟩, by simp [here.touched, done]⟩
    obtain rfl : intent = other := Option.some.inj (here.intent.symm.trans pending)
    exact ⟨sound, here.places.2.1⟩
  refine bind ((persist_safe start (fun _ _ here moved => here.stable (.inl protect) moved)
    (fun _ _ here moved => here.stable (.inl protect) moved) (fun disk here => (fresh_unbegun disk here).crash)
    (fun disk here => (begun_unbegun disk here).crash) fun disk here => ?_).mono
    (fun _ disk here => pure ⟨rfl, sound, here⟩) fun _ disk here => here.elim (fresh_unbegun disk) (begun_unbegun disk))
  exact ⟨here.engine, rfl, by simp [here.touched], here.places⟩

theorem publish_safe (stop : ∀ disk, Pending named [.written] (backed old) disk → crash disk)
    (here : Pending named [.written] (staged old new) disk) :
    Safely (Disk.exec blank) (Elsewhere kept) crash (fun _ => Pending named [.written] (published old new))
      (fun _ => Pending named [.written] (backed old)) (Restore.publish named) disk := by
  have ofStaged (disk : Disk σ) (here : Pending named [.written] (staged old new) disk) :
      Pending named [.written] (backed old) disk := here.imp fun _ _ _ places => .inr ⟨places.2.1, places.1⟩
  have ofMoved (disk : Disk σ) (here : Pending named [.written] (moved old new) disk) :
      Pending named [.written] (backed old) disk := here.imp fun _ _ _ places => .inl places.2.1
  have ofPublished (disk : Disk σ) (here : Pending named [.written] (published old new) disk) :
      Pending named [.written] (backed old) disk := here.imp fun _ _ _ places => .inl places.2
  have sync {places : Option (Dir σ) → Option (Dir σ) → Option (Dir σ) → Prop} (root : Root)
      (of : ∀ disk, Pending named [.written] places disk → Pending named [.written] (backed old) disk) (disk : Disk σ)
      (here : Pending named [.written] places disk) :
      Safely (Disk.exec blank) (Elsewhere kept) crash (fun _ => Pending named [.written] places)
        (fun _ => Pending named [.written] (backed old)) (syncDir root) disk :=
    (io_safe (fun _ _ => rfl) here Pending.stable fun disk here => stop disk (of disk here)).mono
      (fun _ _ here => here) fun _ disk here => of disk here
  refine bind ((mapError ((rename_safe here Pending.stable (fun disk here => stop disk (ofStaged disk here))
    (fun disk here => stop disk (ofMoved disk here)) fun disk here => ?_).mono (fun _ _ here => here)
    fun _ disk here => ofStaged disk here)).mono (fun _ disk here => ?_) fun _ _ here => here)
  · obtain ⟨live, _, staged⟩ := here.places
    exact ⟨here.engine, here.intent, here.touched, by simp [moved, live, staged]⟩
  refine bind ((sync .snapshots ofMoved disk here).mono (fun _ disk here => ?_) fun _ _ here => here)
  refine bind ((sync .tenants ofMoved disk here).mono (fun _ disk here => ?_) fun _ _ here => here)
  refine bind ((mapError ((rename_safe here Pending.stable (fun disk here => stop disk (ofMoved disk here))
    (fun disk here => stop disk (ofPublished disk here)) fun disk here => ?_).mono (fun _ _ here => here)
    fun _ disk here => ofMoved disk here)).mono (fun _ disk here => ?_) fun _ _ here => here)
  · obtain ⟨_, backup, staged⟩ := here.places
    exact ⟨here.engine, here.intent, here.touched, by simp [published, backup, staged]⟩
  refine bind ((sync .tenants ofPublished disk here).mono (fun _ disk here => ?_) fun _ _ here => here)
  exact sync .staging ofPublished disk here

theorem openCore_safe {crash holds : Disk σ → Prop} (here : holds disk)
    (stable : Stable kept holds)
    (stop : ∀ disk, holds disk → crash disk) (live : ∀ disk, holds disk → disk.dirs .live = some (.whole store)) :
    Safely (Disk.exec blank) (Elsewhere kept) crash (fun core disk => core = .whole store ∧ holds disk)
      (fun error disk => error = .engine ∧ holds disk) openCore disk := by
  refine ask fun disk' moved works => ?_
  have still := stable disk disk' here moved
  have same : disk'.put .live (some (.whole store)) = disk' := by
    rw [Disk.put, ← live disk' still, Function.update_eq_self]
  cases works with
  | false => exact ⟨stop disk' still, rfl, still⟩
  | true =>
    simp only [Disk.exec, if_true, id, live disk' still, Option.getD_some, same]
    exact ⟨stop disk' still, trivial, still⟩

/-- The old store is there, but no engine serves it: the rollback failed, or the open after it. -/
structure Unserved (named : Intent) (old new : σ) (error : Failure) (disk : Disk σ) : Prop where
  crash : Crash named old new disk
  engine : disk.engine = none
  cause : (∃ cause, error = .context "restore rollback failed" cause) ∨
    (error = .engine ∨ error = .context "rollback reopen failed" .engine) ∧ disk.intent = none ∧ disk.touched ≠ done ∧
      disk.dirs .live = some (.whole old)

theorem Back.unbegun (back : Back old touched disk) (begun : touched ≠ []) : disk.touched ≠ done := by
  rw [back.2.2.1]
  intro same
  have lengths := congrArg List.length same
  simp only [length_append, length_cons, length_nil, done] at lengths
  exact begun (length_eq_zero_iff.mp (by omega))

theorem Back.stable (disk disk' : Disk σ) (back : Back old touched disk) (moved : Elsewhere kept disk disk') :
    Back old touched disk' :=
  ⟨moved.engine.trans back.1, moved.intent.trans back.2.1, moved.touched.trans back.2.2.1,
    (moved.dirs .live (by simp)).trans back.2.2.2⟩

theorem Back.crash (back : Back old touched disk) (begun : touched ≠ []) : Crash named old new disk :=
  .inl ⟨by rw [Held, back.2.1]; exact back.2.2.2, back.unbegun begun⟩

theorem Rolling.crash (begun : touched ≠ []) (stop : ∀ disk, start disk → Crash named old new disk)
    (rolling : Rolling old start touched disk) : Crash named old new disk := by
  rcases rolling.2 with here | ⟨held, written | removed⟩
  · exact stop disk here
  · refine .inl ⟨held, fun same => ?_⟩
    have last := congrArg List.getLast? (written.symm.trans same)
    simp [done] at last
  · refine .inl ⟨held, fun same => begun ?_⟩
    have lengths := congrArg List.length (removed.symm.trans same)
    simp only [length_append, length_cons, length_nil, done] at lengths
    exact length_eq_zero_iff.mp (by omega)

theorem giveUp_safe {start : Disk σ → Prop} (begun : touched ≠ []) (sound : named.Sound) (here : start disk)
    (stable : Stable kept start)
    (begins : ∀ disk, start disk → disk.engine = none ∧ disk.touched = touched ∧ Backed old named disk)
    (stop : ∀ disk, start disk → Crash named old new disk) (entries : Place → Nat) (reopen : Io σ (Dir σ))
    (reopens : ∀ disk, Back old touched disk → Safely (Disk.exec blank) (Elsewhere kept) (Crash named old new) (fun core disk => core = .whole old ∧ Back old touched disk) (fun error disk => (error = .engine ∨ error = .context "rollback reopen failed" .engine) ∧ Back old touched disk) reopen disk)
    (error : Failure) :
    Safely (Disk.exec blank) (Elsewhere kept) (Crash named old new) (fun _ _ => False)
      (fun error disk => Unbegun old disk ∨ Unserved named old new error disk)
      (do
        .mapError (.context "restore rollback failed") (Restore.rollback entries named)
        let core ← reopen
        .act (.serve core)
        throw error : Io σ String) disk := by
  have crashed (disk : Disk σ) (rolling : Rolling old start touched disk) : Crash named old new disk :=
    rolling.crash begun stop
  have rolled : Safely (Disk.exec blank) (Elsewhere kept) (Crash named old new) (fun _ => Back old touched)
      (fun _ => Rolling old start touched) (Restore.rollback entries named) disk :=
    Safe.mono (rollback_safe sound here stable begins entries) crashed fun _ _ ends => ends
  refine bind (mapError (rolled.mono (fun _ disk back => ?_) fun cause disk rolling => ?_))
  · refine bind ((reopens disk back).mono (fun core disk opened => ?_) fun error disk failed => ?_)
    · obtain ⟨rfl, back⟩ := opened
      refine bind (act fun disk' moved _ => ?_)
      have back := Back.stable disk disk' back moved
      have serving : Unbegun old { disk' with engine := some (.whole old) } :=
        ⟨⟨rfl, back.2.2.2, fun intent pending => absurd (back.2.1.symm.trans pending) (by simp)⟩, back.unbegun begun⟩
      exact ⟨serving.crash, Safely.throw (.inl serving)⟩
    · obtain ⟨cause, back⟩ := failed
      exact .inr ⟨back.crash begun, back.1, .inr ⟨cause, back.2.1, back.unbegun begun, back.2.2.2⟩⟩
  · exact .inr ⟨crashed disk rolling, rolling.1, .inl ⟨cause, rfl⟩⟩

theorem restoreStaged_safe {stamp : TimeStamp} (protect : kept (backupId stamp)) (entries : Place → Nat)
    (here : Ready old new source disk) :
    Safely (Disk.exec blank) (Elsewhere kept) (Crash (intentOf source stamp) old new)
      (fun backup disk => backup = backupId stamp ∧ disk.engine = some (.whole new) ∧
        Replaced (intentOf source stamp) old new disk ∧ disk.touched = done)
      (fun error disk => Unbegun old disk ∨ Unserved (intentOf source stamp) old new error disk)
      (restoreStaged entries source stamp) disk := by
  have stop (disk : Disk σ) (ready : Ready old new source disk) : Crash (intentOf source stamp) old new disk :=
    ready.unbegun.crash
  refine bind ((io_safe (fun _ _ => rfl) here Ready.stable stop).mono (fun _ disk here => ?_)
    fun _ _ ready => .inl ready.unbegun)
  refine bind ((io_safe (fun _ _ => rfl) here Ready.stable stop).mono (fun _ disk here => ?_)
    fun _ _ ready => .inl ready.unbegun)
  refine bind ((begin_safe protect here).mono (fun intent disk begun => ?_) fun _ _ unbegun => .inl unbegun)
  obtain ⟨named, sound, begun⟩ := begun
  rw [← named]
  have protect' : kept intent.backup := by rw [named]; exact protect
  have held (disk : Disk σ) (here : Pending intent [.written] (backed old) disk) : Crash intent old new disk :=
    .inl ⟨here.held sound fun _ _ _ => id, by simp [here.touched, done]⟩
  have ofPublished (disk : Disk σ) (here : Pending intent [.written] (published old new) disk) :
      Pending intent [.written] (backed old) disk := here.imp fun _ _ _ places => .inl places.2
  refine bind (act fun disk' moved _ => ?_)
  have begun := begun.stable (.inl protect') moved
  have closed : Pending intent [.written] (staged old new) { disk' with engine := none } :=
    ⟨rfl, begun.intent, begun.touched, begun.places⟩
  refine ⟨held _ (closed.imp fun _ _ _ places => .inr ⟨places.2.1, places.1⟩), ?_⟩
  have opens : Safely (Disk.exec blank) (Elsewhere kept) (Crash intent old new)
      (fun core disk => core = .whole new ∧ Pending intent [.written] (published old new) disk)
      (fun _ disk => Pending intent [.written] (backed old) disk)
      (do Restore.publish intent; openCore) { disk' with engine := none } :=
    bind ((publish_safe held closed).mono
      (fun _ disk here => (openCore_safe here Pending.stable (fun disk here => held disk (ofPublished disk here))
        fun disk here => here.places.1).mono (fun _ _ opened => opened) fun _ disk failed => ofPublished disk failed.2)
      fun _ _ here => here)
  have reopen {touched : List Touch} (written : touched ≠ []) (disk : Disk σ) (back : Back old touched disk) :
      Safely (Disk.exec blank) (Elsewhere kept) (Crash intent old new)
        (fun core disk => core = .whole old ∧ Back old touched disk)
        (fun error disk => error = .engine ∧ Back old touched disk) openCore disk :=
    openCore_safe back Back.stable (fun _ back => back.crash written) fun _ back => back.2.2.2
  refine bind (outcome (opens.mono (fun core disk opened => ?_) fun error disk here => ?_))
  · obtain ⟨rfl, here⟩ := opened
    let replaced : Disk σ → Prop := Stage intent none none done (published old new)
    have stable (disk disk' : Disk σ) (here : replaced disk) (moved : Elsewhere kept disk disk') : replaced disk' :=
      here.stable (.inl protect') moved
    have ended (disk : Disk σ) (here : replaced disk) : Crash intent old new disk :=
      .inr ⟨⟨here.intent, here.places.1, here.places.2⟩, here.touched⟩
    refine bind (outcome ((finish_safe here Pending.stable stable
      (fun disk here => held disk (ofPublished disk here)) ended fun disk here =>
        ⟨here.engine, rfl, by simp [here.touched, done], here.places⟩).mono
      (fun _ disk here => ?_) fun error disk here => ?_))
    · refine bind (act fun disk' moved _ => ?_)
      have still := stable disk disk' here moved
      have last : Replaced intent old new { disk' with engine := some (.whole new) } :=
        ⟨still.intent, still.places.1, still.places.2⟩
      exact ⟨.inr ⟨last, still.touched⟩, pure ⟨rfl, rfl, last, still.touched⟩⟩
    · rcases here with here | here
      · exact (giveUp_safe (by simp) sound here Pending.stable
          (fun disk here => ⟨here.engine, here.touched, .inl here.places.2⟩)
          (fun disk here => held disk (ofPublished disk here)) entries _ (fun disk back =>
            (reopen (by simp) disk back).mono (fun _ _ opened => opened) fun _ _ failed => ⟨.inl failed.1, failed.2⟩)
          error).mono (fun _ _ never => never.elim) fun _ _ failed => failed
      · exact (giveUp_safe (by simp [done]) sound here stable
          (fun disk here => ⟨here.engine, here.touched, .inl here.places.2⟩) ended entries _ (fun disk back =>
            (reopen (by simp [done]) disk back).mono (fun _ _ opened => opened)
              fun _ _ failed => ⟨.inl failed.1, failed.2⟩)
          error).mono (fun _ _ never => never.elim) fun _ _ failed => failed
  · refine (giveUp_safe (by simp) sound here Pending.stable (fun disk here => ⟨here.engine, here.touched, here.places⟩)
      held entries _ (fun disk back => ?_) error).mono (fun _ _ never => never.elim) fun _ _ failed => failed
    exact mapError ((reopen (by simp) disk back).mono (fun _ _ opened => opened)
      fun error _ failed => ⟨.inr (by rw [failed.1]), failed.2⟩)

end Warm.Server
