import Warm.Restore

/-! A restore stopped anywhere leaves the old store whole, in place or set aside under the name its intent gives, until
its intent is gone and the new store is in place. Snapshots of other names may be deleted meanwhile. -/
namespace Warm.Server

open Interleaving CrashLogic
open Safely (ask bind call ensure pure)

variable {σ : Type}

structure Intent.Sound (intent : Intent) : Prop where
  version : intent.version = 1
  backup : validSnapshotId intent.backup = true
  staged : safeName intent.staged = true
  named : ∃ stamp, intent.backup = backupId stamp

/-- The old store is whole under its backup name, or in place and not yet set aside. -/
def Backed (old : σ) (intent : Intent) (disk : Disk σ) : Prop :=
  disk.dirs (.snapshot intent.backup) = some (.whole old) ∨
    disk.dirs (.snapshot intent.backup) = none ∧ disk.dirs .live = some (.whole old)

/-- What the next open finds is the old store. -/
def Held (old : σ) (disk : Disk σ) : Prop :=
  match disk.intent with
  | none => disk.dirs .live = some (.whole old)
  | some intent => intent.Sound ∧ Backed old intent disk

/-- The new store is in place for good, and the old one set aside. -/
structure Replaced (named : Intent) (old new : σ) (disk : Disk σ) : Prop where
  intent : disk.intent = none
  live : disk.dirs .live = some (.whole new)
  backup : disk.dirs (.snapshot named.backup) = some (.whole old)

/-- What deletes of snapshots do that are not kept: they take directories apart, and away. -/
structure Elsewhere (kept : String → Prop) (disk disk' : Disk σ) : Prop where
  intent : disk'.intent = disk.intent
  engine : disk'.engine = disk.engine
  touched : disk'.touched = disk.touched
  dirs : ∀ place, (∀ id, place ≠ .snapshot id) → disk'.dirs place = disk.dirs place
  kept : ∀ id, (kept id ∨ ∃ intent, disk.intent = some intent ∧ intent.backup = id) →
    disk'.dirs (.snapshot id) = disk.dirs (.snapshot id)
  gone : ∀ id, disk.dirs (.snapshot id) = none → disk'.dirs (.snapshot id) = none

instance (kept : String → Prop) : Std.Refl (Elsewhere (σ := σ) kept) where
  refl _ := ⟨rfl, rfl, rfl, fun _ _ => rfl, fun _ _ => rfl, fun _ none => none⟩

instance (kept : String → Prop) : IsTrans (Disk σ) (Elsewhere kept) where
  trans _ _ _ first second :=
    { intent := second.intent.trans first.intent
      engine := second.engine.trans first.engine
      touched := second.touched.trans first.touched
      dirs := fun place other => (second.dirs place other).trans (first.dirs place other)
      kept := fun id held => by
        rw [second.kept id (by rw [first.intent]; exact held), first.kept id held]
      gone := fun id none => second.gone id (first.gone id none) }

/-- The places of a restore: the live directory, the backup and the staged store. -/
structure Stage (named : Intent) (engine : Option (Dir σ)) (intent : Option Intent) (touched : List Touch)
    (places : Option (Dir σ) → Option (Dir σ) → Option (Dir σ) → Prop) (disk : Disk σ) : Prop where
  engine : disk.engine = engine
  intent : disk.intent = intent
  touched : disk.touched = touched
  places : places (disk.dirs .live) (disk.dirs (.snapshot named.backup)) (disk.dirs (.staged named.staged))

section Stages

variable {named : Intent} {engine : Option (Dir σ)} {intent : Option Intent} {touched : List Touch}
  {places : Option (Dir σ) → Option (Dir σ) → Option (Dir σ) → Prop} {kept : String → Prop} {disk disk' : Disk σ}

theorem Stage.stable (stage : Stage named engine intent touched places disk)
    (held : kept named.backup ∨ intent = some named) (moved : Elsewhere kept disk disk') :
    Stage named engine intent touched places disk' where
  engine := moved.engine.trans stage.engine
  intent := moved.intent.trans stage.intent
  touched := moved.touched.trans stage.touched
  places := by
    have backup : disk'.dirs (.snapshot named.backup) = disk.dirs (.snapshot named.backup) := by
      apply moved.kept
      rcases held with held | named
      · exact .inl held
      · exact .inr ⟨_, stage.intent.trans named, rfl⟩
    rw [moved.dirs .live (by simp), moved.dirs (.staged named.staged) (by simp), backup]
    exact stage.places

theorem Held.stable (held : Held old disk) (moved : Elsewhere kept disk disk') : Held old disk' := by
  unfold Held at held ⊢
  rw [moved.intent]
  split at held
  next => rwa [moved.dirs .live (by simp)]
  next intent pending =>
    have backup := moved.kept intent.backup (.inr ⟨intent, pending, rfl⟩)
    refine ⟨held.1, ?_⟩
    rw [Backed, backup, moved.dirs .live (by simp)]
    exact held.2

theorem Stage.held (stage : Stage named engine (some named) touched places disk) (sound : named.Sound)
    (backed : ∀ live backup staged, places live backup staged → backup = some (.whole old) ∨ backup = none ∧ live = some (.whole old)) :
    Held old disk := by
  rw [Held, stage.intent]
  exact ⟨sound, backed _ _ _ stage.places⟩

end Stages

/-- What a step elsewhere does not end. -/
def Stable (kept : String → Prop) (holds : Disk σ → Prop) : Prop :=
  ∀ disk disk', holds disk → Elsewhere kept disk disk' → holds disk'

section Rules

variable {blank : σ} {kept : String → Prop} {crash : Disk σ → Prop} {disk : Disk σ}

theorem io_safe (same : ∀ works disk, (Disk.exec blank command works disk).2 = disk) (here : holds disk)
    (stable : Stable kept holds)
    (stop : ∀ disk, holds disk → crash disk) :
    Safely (Disk.exec blank) (Elsewhere kept) crash (fun _ => holds) (fun _ => holds) (io command worked) disk := by
  refine call fun disk' moved works => ?_
  rw [same]
  have still := stable disk disk' here moved
  exact ⟨stop disk' still, by split <;> exact still⟩

theorem look_safe {command : Disk.Command σ} {read : Disk.Answer command → Option α} {holds : Disk σ → Prop}
    (same : ∀ works disk, (Disk.exec blank command works disk).2 = disk) (here : holds disk)
    (stable : Stable kept holds)
    (stop : ∀ disk, holds disk → crash disk) :
    Safely (Disk.exec blank) (Elsewhere kept) crash
      (fun value disk => holds disk ∧ ∃ works, read (Disk.exec blank command works disk).1 = some value) (fun _ => holds)
      (look command read) disk := by
  refine ask fun disk' moved works => ?_
  have still := stable disk disk' here moved
  refine ⟨by rw [same]; exact stop disk' still, ?_⟩
  split
  next value found =>
    rw [same]
    exact ⟨still, works, found⟩
  next => rw [same]; exact still

theorem directory_safe {holds : Disk σ → Prop} (here : holds disk)
    (stable : Stable kept holds)
    (stop : ∀ disk, holds disk → crash disk) :
    Safely (Disk.exec blank) (Elsewhere kept) crash
      (fun present disk => holds disk ∧ present = (disk.dirs place).isSome) (fun _ => holds) (directory place) disk := by
  refine (look_safe (fun _ _ => rfl) here stable stop).mono (fun present disk known => ⟨known.1, ?_⟩) fun _ _ holds => holds
  obtain ⟨works, answered⟩ := known.2
  cases works <;> simp_all [Disk.exec]

theorem rename_safe (here : before disk) (stable : Stable kept before)
    (stop : ∀ disk, before disk → crash disk) (stop' : ∀ disk, after disk → crash disk)
    (renamed : ∀ disk, before disk → after ((disk.put source none).put target (disk.dirs source))) :
    Safely (Disk.exec blank) (Elsewhere kept) crash (fun _ => after) (fun _ => before)
      (io (.rename source target) id) disk := by
  refine call fun disk' moved works => ?_
  have still := stable disk disk' here moved
  simp only [Disk.exec]
  split
  next => exact ⟨stop' _ (renamed _ still), renamed _ still⟩
  next => exact ⟨stop _ still, still⟩

theorem removeDirAll_safe (stable : Stable kept holds)
    (stop : ∀ disk, holds disk → crash disk) (unlinked : ∀ disk, holds disk → holds (disk.put place (some .part)))
    (removed : ∀ disk, holds disk → gone (disk.put place none)) (stop' : ∀ disk, gone disk → crash disk) (entries : Nat) :
    ∀ disk, holds disk → Safely (Disk.exec blank) (Elsewhere kept) crash (fun _ => gone) (fun _ => holds)
      (removeDirAll place entries) disk := by
  induction entries with
  | zero =>
    refine fun disk here => call fun disk' moved works => ?_
    have still := stable disk disk' here moved
    simp only [Disk.exec]
    split
    next => exact ⟨stop' _ (removed _ still), removed _ still⟩
    next => exact ⟨stop _ still, still⟩
  | succ entries ih =>
    refine fun disk here => bind (call fun disk' moved works => ?_)
    have still := stable disk disk' here moved
    simp only [Disk.exec]
    split
    next => exact ⟨stop _ (unlinked _ still), ih _ (unlinked _ still)⟩
    next => exact ⟨stop _ still, still⟩

variable {before after : Disk σ → Prop} (here : before disk)
  (stable : Stable kept before)
  (stable' : Stable kept after)
  (stop : ∀ disk, before disk → crash disk) (stop' : ∀ disk, after disk → crash disk)

include here stable stable' stop stop'

theorem persist_safe
    (written : ∀ disk, before disk → after { disk with intent := some named, touched := disk.touched ++ [.written] }) :
    Safely (Disk.exec blank) (Elsewhere kept) crash (fun _ => after) (fun _ disk => before disk ∨ after disk)
      (Restore.persist named) disk := by
  refine bind ((io_safe (fun _ _ => rfl) here stable stop).mono (fun _ disk here => ?_) fun _ _ here => .inl here)
  refine bind (call fun disk' moved works => ?_)
  have still := stable disk disk' here moved
  simp only [Disk.exec]
  split
  next =>
    refine ⟨stop' _ (written _ still), ?_⟩
    exact (io_safe (fun _ _ => rfl) (written _ still) stable' stop').mono (fun _ _ here => here) fun _ _ here => .inr here
  next => exact ⟨stop _ still, .inl still⟩

theorem finish_safe
    (removed : ∀ disk, before disk → after { disk with intent := none, touched := disk.touched ++ [.removed] }) :
    Safely (Disk.exec blank) (Elsewhere kept) crash (fun _ => after) (fun _ disk => before disk ∨ after disk)
      Restore.finish disk := by
  refine bind (call fun disk' moved works => ?_)
  have still := stable disk disk' here moved
  simp only [Disk.exec]
  split
  next =>
    refine ⟨stop' _ (removed _ still), ?_⟩
    exact (io_safe (fun _ _ => rfl) (removed _ still) stable' stop').mono (fun _ _ here => here) fun _ _ here => .inr here
  next => exact ⟨stop _ still, .inl still⟩

end Rules

section Rollback

variable {blank : σ} {kept : String → Prop} {old : σ} {named : Intent} {touched : List Touch} {disk : Disk σ}

def backed (old : σ) (live backup _staged : Option (Dir σ)) : Prop :=
  backup = some (.whole old) ∨ backup = none ∧ live = some (.whole old)

def aside (old : σ) (_live backup _staged : Option (Dir σ)) : Prop :=
  backup = some (.whole old)

def inPlace (old : σ) (live backup _staged : Option (Dir σ)) : Prop :=
  backup = none ∧ live = some (.whole old)

/-- A stage of a rollback: the engine is closed and the intent is there. -/
abbrev Pending (named : Intent) (touched : List Touch)
    (places : Option (Dir σ) → Option (Dir σ) → Option (Dir σ) → Prop) : Disk σ → Prop :=
  Stage named none (some named) touched places

theorem Stage.imp {engine : Option (Dir σ)} {intent : Option Intent}
    {places places' : Option (Dir σ) → Option (Dir σ) → Option (Dir σ) → Prop}
    (stage : Stage named engine intent touched places disk)
    (weaker : ∀ live backup staged, places live backup staged → places' live backup staged) :
    Stage named engine intent touched places' disk :=
  ⟨stage.engine, stage.intent, stage.touched, weaker _ _ _ stage.places⟩

/-- The old store is set aside, and nothing is in its place. -/
def cleared (old : σ) (live backup _staged : Option (Dir σ)) : Prop :=
  live = none ∧ backup = some (.whole old)

theorem Pending.stable (disk disk' : Disk σ) (stage : Pending named touched places disk)
    (moved : Elsewhere kept disk disk') : Pending named touched places disk' :=
  Stage.stable stage (.inr rfl) moved

theorem aside_backed (disk : Disk σ) (stage : Pending named touched (aside old) disk) :
    Pending named touched (backed old) disk :=
  stage.imp fun _ _ _ => .inl

theorem cleared_backed (disk : Disk σ) (stage : Pending named touched (cleared old) disk) :
    Pending named touched (backed old) disk :=
  stage.imp fun _ _ _ places => .inl places.2

theorem inPlace_backed (disk : Disk σ) (stage : Pending named touched (inPlace old) disk) :
    Pending named touched (backed old) disk :=
  stage.imp fun _ _ _ => .inr

theorem clearLive_safe (stop : ∀ disk, Pending named touched (backed old) disk → crash disk) (entries : Nat)
    (here : Pending named touched (aside old) disk) :
    Safely (Disk.exec blank) (Elsewhere kept) crash (fun _ => Pending named touched (cleared old))
      (fun _ => Pending named touched (backed old))
      (Restore.clearLive entries) disk := by
  refine bind ((directory_safe here Pending.stable fun disk here => stop disk (aside_backed disk here)).mono
    (fun live disk known => ?_) fun _ disk here => aside_backed disk here)
  obtain ⟨here, found⟩ := known
  cases live with
  | false =>
    have missing : disk.dirs .live = none := by simpa using found.symm
    exact pure ⟨here.engine, here.intent, here.touched, missing, here.places⟩
  | true =>
    refine (removeDirAll_safe Pending.stable (fun disk here => stop disk (aside_backed disk here)) ?_ ?_
      (fun disk here => stop disk (cleared_backed disk here)) entries disk here).mono (fun _ _ here => here)
      fun _ disk here => aside_backed disk here
    · intro disk here
      exact ⟨here.engine, here.intent, here.touched, by simpa [aside] using here.places⟩
    · intro disk here
      exact ⟨here.engine, here.intent, here.touched, by simpa [aside, cleared] using here.places⟩

theorem putBack_safe (stop : ∀ disk, Pending named touched (backed old) disk → crash disk) (entries : Place → Nat)
    (here : Pending named touched (backed old) disk) :
    Safely (Disk.exec blank) (Elsewhere kept) crash (fun _ => Pending named touched (inPlace old))
      (fun _ => Pending named touched (backed old)) (Restore.putBack entries named) disk := by
  refine bind ((directory_safe here Pending.stable stop).mono (fun present disk known => ?_) fun _ _ here => here)
  obtain ⟨here, found⟩ := known
  cases present with
  | false =>
    have missing : disk.dirs (.snapshot named.backup) = none := by simpa using found.symm
    rcases here.places with whole | inPlace
    · exact absurd (missing.symm.trans whole) (by simp)
    · exact pure ⟨here.engine, here.intent, here.touched, inPlace⟩
  | true =>
    have whole : Pending named touched (aside old) disk := by
      rcases here.places with whole | ⟨missing, _⟩
      · exact ⟨here.engine, here.intent, here.touched, whole⟩
      · rw [missing] at found
        exact absurd found (by simp)
    refine bind ((clearLive_safe stop (entries .live) whole).mono (fun _ disk here => ?_) fun _ _ here => here)
    have sync (root : Root) (disk : Disk σ) (here : Pending named touched (inPlace old) disk) :
        Safely (Disk.exec blank) (Elsewhere kept) crash (fun _ => Pending named touched (inPlace old))
          (fun _ => Pending named touched (backed old)) (syncDir root) disk :=
      (io_safe (fun _ _ => rfl) here Pending.stable fun disk here => stop disk (inPlace_backed disk here)).mono
        (fun _ _ here => here) fun _ disk here => inPlace_backed disk here
    refine bind ((rename_safe here Pending.stable (fun disk here => stop disk (cleared_backed disk here))
      (fun disk here => stop disk (inPlace_backed disk here)) fun disk here => ?_).mono
      (fun _ disk placed => ?_) fun _ disk here => cleared_backed disk here)
    · exact ⟨here.engine, here.intent, here.touched, by simpa [inPlace] using here.places.2⟩
    · exact bind ((sync .tenants _ placed).mono (fun _ disk here => sync .snapshots disk here) fun _ _ here => here)

theorem discardStaged_safe (stop : ∀ disk, Pending named touched (inPlace old) disk → crash disk)
    (entries : Place → Nat) (here : Pending named touched (inPlace old) disk) :
    Safely (Disk.exec blank) (Elsewhere kept) crash (fun _ => Pending named touched (inPlace old))
      (fun _ => Pending named touched (inPlace old)) (Restore.discardStaged entries named) disk := by
  refine bind ((directory_safe here Pending.stable stop).mono (fun present disk known => ?_) fun _ _ here => here)
  cases present with
  | false => exact pure known.1
  | true =>
    have parted (dir : Option (Dir σ)) (disk : Disk σ) (here : Pending named touched (inPlace old) disk) :
        Pending named touched (inPlace old) (disk.put (.staged named.staged) dir) :=
      ⟨here.engine, here.intent, here.touched, by simpa [inPlace] using here.places⟩
    refine bind ((removeDirAll_safe Pending.stable stop (parted _) (parted _) stop _ disk known.1).mono
      (fun _ disk here => ?_) fun _ _ here => here)
    exact io_safe (fun _ _ => rfl) here Pending.stable stop

/-- Where a rollback may stop: where it began, or with the old store held. -/
def Rolling (old : σ) (start : Disk σ → Prop) (touched : List Touch) (disk : Disk σ) : Prop :=
  disk.engine = none ∧ (start disk ∨ Held old disk ∧
    (disk.touched = touched ++ [.written] ∨ disk.touched = touched ++ [.written, .removed]))

/-- The old store in place, and the intent gone. -/
def Back (old : σ) (touched : List Touch) (disk : Disk σ) : Prop :=
  disk.engine = none ∧ disk.intent = none ∧ disk.touched = touched ++ [.written, .removed] ∧
    disk.dirs .live = some (.whole old)

theorem rollback_safe (sound : named.Sound) {start : Disk σ → Prop} (here : start disk)
    (stable : Stable kept start)
    (begins : ∀ disk, start disk → disk.engine = none ∧ disk.touched = touched ∧ Backed old named disk)
    (entries : Place → Nat) :
    Safely (Disk.exec blank) (Elsewhere kept) (Rolling old start touched) (fun _ => Back old touched)
      (fun _ => Rolling old start touched) (Restore.rollback entries named) disk := by
  have starts (disk : Disk σ) (here : start disk) : Rolling old start touched disk := ⟨(begins disk here).1, .inl here⟩
  have stop (disk : Disk σ) (here : Pending named (touched ++ [.written]) (backed old) disk) :
      Rolling old start touched disk :=
    ⟨here.engine, .inr ⟨here.held sound fun _ _ _ => id, .inl here.touched⟩⟩
  have stop' (disk : Disk σ) (here : Pending named (touched ++ [.written]) (inPlace old) disk) :
      Rolling old start touched disk := stop disk (inPlace_backed disk here)
  have ended (disk : Disk σ) (here : Back old touched disk) : Rolling old start touched disk :=
    ⟨here.1, .inr ⟨by rw [Held, here.2.1]; exact here.2.2.2, .inr here.2.2.1⟩⟩
  refine bind ((persist_safe here stable Pending.stable starts stop fun disk here => ?_).mono
    (fun _ disk here => ?_) fun _ disk here => here.elim (starts disk) (stop disk))
  · obtain ⟨engine, same, places⟩ := begins disk here
    exact ⟨engine, rfl, by rw [← same], places⟩
  refine bind ((putBack_safe stop entries here).mono (fun _ disk here => ?_) fun _ disk here => stop disk here)
  refine bind ((directory_safe here Pending.stable stop').mono (fun live disk known => ?_)
    fun _ disk here => stop' disk here)
  refine bind (ensure (fun _ => ?_) fun _ => stop' disk known.1)
  refine bind ((discardStaged_safe stop' entries known.1).mono (fun _ disk here => ?_)
    fun _ disk here => stop' disk here)
  refine (finish_safe here Pending.stable (fun disk disk' back moved => ?_) stop' ended fun disk here => ?_).mono
    (fun _ _ here => here) fun _ disk here => here.elim (stop' disk) (ended disk)
  · exact ⟨moved.engine.trans back.1, moved.intent.trans back.2.1, moved.touched.trans back.2.2.1,
      (moved.dirs .live (by simp)).trans back.2.2.2⟩
  · exact ⟨here.engine, rfl, by simp [here.touched], here.places.2⟩

end Rollback

section Recover

variable {blank : σ} {kept : String → Prop} {old : σ} {disk : Disk σ}

def Closed (old : σ) (disk : Disk σ) : Prop :=
  disk.engine = none ∧ Held old disk

/-- The store is in place and nothing is pending. -/
def Recovered (old : σ) (disk : Disk σ) : Prop :=
  disk.engine = none ∧ disk.intent = none ∧ disk.dirs .live = some (.whole old)

theorem Closed.stable (disk disk' : Disk σ) (closed : Closed old disk) (moved : Elsewhere kept disk disk') :
    Closed old disk' :=
  ⟨moved.engine.trans closed.1, closed.2.stable moved⟩

theorem Recovered.stable (disk disk' : Disk σ) (recovered : Recovered old disk) (moved : Elsewhere kept disk disk') :
    Recovered old disk' :=
  ⟨moved.engine.trans recovered.1, moved.intent.trans recovered.2.1, (moved.dirs .live (by simp)).trans recovered.2.2⟩

theorem Recovered.closed (recovered : Recovered old disk) : Closed old disk :=
  ⟨recovered.1, by rw [Held, recovered.2.1]; exact recovered.2.2⟩

theorem recover_safe (entries : Place → Nat) (here : Closed old disk) :
    Safely (Disk.exec blank) (Elsewhere kept) (Closed old) (fun _ => Recovered old) (fun _ => Closed old)
      (Restore.recover entries) disk := by
  refine bind ((look_safe (fun _ _ => rfl) here Closed.stable fun _ => id).mono (fun pending disk known => ?_)
    fun _ _ here => here)
  obtain ⟨⟨engine, held⟩, works, answered⟩ := known
  have read : disk.intent = pending := by cases works <;> simp_all [Disk.exec]
  rw [Held, read] at held
  cases pending with
  | none => exact pure ⟨engine, read, held⟩
  | some named =>
    obtain ⟨sound, backed⟩ := held
    refine bind (ensure (fun _ => ?_) fun refused => ?_)
    · have start : Pending named disk.touched (Server.backed old) disk := ⟨engine, read, rfl, backed⟩
      refine Safe.mono (rollback_safe sound start Pending.stable
        (fun disk' here => ⟨here.engine, here.touched, here.places⟩) entries) (fun disk' rolling => ?_)
        fun result disk' ends => ?_
      · exact ⟨rolling.1, rolling.2.elim (fun here => here.held sound fun _ _ _ => id) And.left⟩
      · cases result with
        | ok => exact ⟨ends.1, ends.2.1, ends.2.2.2⟩
        | error => exact ⟨ends.1, ends.2.elim (fun here => here.held sound fun _ _ _ => id) And.left⟩
    · simp [sound.version, sound.backup, sound.staged] at refused

theorem recover_again (entries : Place → Nat) (recovered : disk.intent = none) :
    Safely (Disk.exec blank) Eq (fun disk' => disk' = disk) (fun _ disk' => disk' = disk) (fun _ disk' => disk' = disk)
      (Restore.recover entries) disk := by
  refine bind (ask fun disk' moved works => ?_)
  subst moved
  refine ⟨rfl, ?_⟩
  cases works with
  | false => rfl
  | true =>
    simp only [Disk.exec, if_true, id, recovered]
    exact pure rfl

end Recover

end Warm.Server
