import Warm.RestoreStaged

/-! Restores that stop anywhere, and the recoveries after them. -/
namespace Warm.Server

open Interleaving CrashLogic

variable {σ : Type} {blank : σ} {old new : σ} {named : Intent} {disk : Disk σ}

section Failures

variable {α : Type} {command : Disk.Command σ}

/-- A restore works only if every call it makes does. -/
abbrev AllWork (blank : σ) (program : Io σ α) : Prop :=
  Strict (Disk.exec blank) Disk.refused program

theorem io_works
    (accepts : ∀ answer, worked answer = true → Disk.refused command answer = false := by simp [Disk.refused]) :
    AllWork blank (io command worked) :=
  Strict.call accepts

theorem look_works {read : Disk.Answer command → Option α}
    (accepts : ∀ answer, (read answer).isSome → Disk.refused command answer = false := by simp [Disk.refused]) :
    AllWork blank (look command read) :=
  Strict.ask accepts

theorem openCore_works : AllWork blank openCore :=
  Strict.ask (by simp [Disk.refused])

theorem persist_works (intent : Intent) : AllWork blank (Restore.persist intent) :=
  .bind io_works fun _ => .bind io_works fun _ => io_works

theorem begin_works (source : Place) (backup : String) : AllWork blank (Restore.begin_ source backup) := by
  have present : AllWork blank (Restore.sourcesPresent source) :=
    .bind look_works fun live => by cases live <;> first | exact Strict.pure | exact look_works
  have pending : AllWork blank (Restore.alreadyPending backup) :=
    .bind look_works fun taken => by cases taken <;> first | exact Strict.pure | exact look_works
  exact .bind .ensure fun _ => .bind present fun _ => .bind .ensure fun _ => .bind io_works fun _ =>
    .bind .ensure fun _ => .bind .ensure fun _ => .bind pending fun _ => .bind .ensure fun _ =>
      .bind (persist_works _) fun _ => .pure

theorem publish_works (intent : Intent) : AllWork blank (Restore.publish intent) :=
  .bind (.mapError io_works) fun _ => .bind io_works fun _ => .bind io_works fun _ =>
    .bind (.mapError io_works) fun _ => .bind io_works fun _ => io_works

theorem finish_works : AllWork blank Restore.finish :=
  .bind io_works fun _ => io_works

theorem restoreStaged_works (entries : Place → Nat) (source : Place) (stamp : TimeStamp) :
    AllWork blank (restoreStaged entries source stamp) := by
  have serves (core : Dir σ) : AllWork blank (.act (.serve core)) := Strict.act fun _ => rfl
  have closes : AllWork blank (.act .closeEngine) := Strict.act fun _ => rfl
  refine .bind io_works fun _ => .bind io_works fun _ => .bind (begin_works _ _) fun intent => .bind closes fun _ =>
    .outcome (.bind (publish_works intent) fun _ => openCore_works) (fun core => ?_) fun error => ?_
  · refine Strict.outcome finish_works (fun _ => (serves core).bind fun _ => Strict.pure) fun error => ?_
    exact Hopeless.bind fun _ => Hopeless.bind fun _ => Hopeless.bind fun _ => Hopeless.throw
  · exact Hopeless.bind fun _ => Hopeless.bind fun _ => Hopeless.bind fun _ => Hopeless.throw

end Failures

/-- One more recovery, stopped anywhere. -/
def Recovers (blank : σ) (disk disk' : Disk σ) : Prop :=
  ∃ entries rest, Reaches (Disk.exec blank) Eq ((Restore.recover entries).run, disk) (rest, disk')

/-- A whole copy of the old store, in place or under the name of an intent that is pending or done. -/
def Copied (named : Intent) (old : σ) (disk : Disk σ) : Prop :=
  disk.dirs .live = some (.whole old) ∨
    ∃ intent, (disk.intent = some intent ∨ intent = named) ∧ disk.dirs (.snapshot intent.backup) = some (.whole old)

theorem Held.copied (held : Held old disk) : Copied named old disk := by
  unfold Held at held
  split at held
  next => exact .inl held
  next intent pending => exact held.2.symm.imp And.right fun backup => ⟨intent, .inl pending, backup⟩

theorem Crash.copied (crash : Crash named old new disk) : Copied named old disk :=
  crash.elim (fun held => held.1.copied) fun replaced => .inr ⟨named, .inr rfl, replaced.1.backup⟩

theorem recover_alone (blank : σ) (entries : Place → Nat) (closed : Closed old disk) :
    Safely (Disk.exec blank) Eq (Closed old) (fun _ => Recovered old) (fun _ => Closed old) (Restore.recover entries) disk := by
  have among : Safely (Disk.exec blank) (Elsewhere fun _ => True) (Closed old) _ _ (Restore.recover entries) disk :=
    recover_safe entries closed
  exact Safe.alone_eq among

theorem Closed.recovers (closed : Closed old disk) (recovers : Recovers blank disk disk') : Closed old disk' := by
  obtain ⟨entries, rest, reached⟩ := recovers
  exact (reached.safe (recover_alone blank entries closed) closed (fun _ _ closed same => same ▸ closed)
    fun _ _ _ ends same => same ▸ ends).1

theorem Closed.recovered (closed : Closed old disk)
    (reached : Reaches (Disk.exec blank) Eq ((Restore.recover entries).run, disk) (.done (.ok ()), disk')) :
    Recovered old disk' :=
  (reached.safe (recover_alone blank entries closed) closed (fun _ _ closed same => same ▸ closed)
    fun _ _ _ ends same => same ▸ ends).2

theorem recovers_idle (idle : disk.intent = none) (recovers : Recovers blank disk disk') : disk' = disk := by
  obtain ⟨entries, rest, reached⟩ := recovers
  exact (reached.safe (recover_again entries idle) rfl (fun _ _ here same => same ▸ here)
    fun _ _ _ ends same => same ▸ ends).1

theorem Crash.recovers (crash : Crash named old new disk)
    (recovers : Relation.ReflTransGen (Recovers blank) disk.halted disk') :
    Copied named old disk' ∧ Closed (if disk.touched = done then new else old) disk' := by
  have start : Closed (if disk.touched = done then new else old) disk.halted := ⟨rfl, crash.held⟩
  rcases crash with ⟨held, pending⟩ | ⟨replaced, finished⟩
  · rw [if_neg pending] at start ⊢
    have closed : Closed old disk' := by
      induction recovers with
      | refl => exact start
      | tail _ recovers ih => exact ih.recovers recovers
    exact ⟨closed.2.copied, closed⟩
  · have same : disk' = disk.halted := by
      induction recovers with
      | refl => rfl
      | tail _ recovers ih =>
        subst ih
        exact recovers_idle replaced.intent recovers
    subst same
    exact ⟨.inr ⟨named, .inr rfl, replaced.backup⟩, start⟩

/-- However a restore stops, and however often the recoveries after it do: a whole copy of the old store is there, the first
recovery that completes leaves the new store if the restore had removed its intent for good and the old one otherwise, and
no later one changes anything. A restore that ends works only if all its calls do; else the old store is served again, or
the rollback or the open after it failed too. -/
theorem restore_crash_safe {source : Place} (ready : Ready old new source disk) (stamp : TimeStamp) (entries : Place → Nat)
    {rest : Program (Disk.Command σ) Disk.Answer (Except Failure String)} {stopped : Disk σ} {failed : Bool}
    (reached : Reaches (noted (Disk.exec blank) Disk.refused) Eq ((restoreStaged entries source stamp).run, (disk, false))
      (rest, (stopped, failed))) :
    Copied (intentOf source stamp) old stopped ∧
    (∀ disk', Relation.ReflTransGen (Recovers blank) stopped.halted disk' →
      Copied (intentOf source stamp) old disk' ∧ ∀ entries recovered,
        Reaches (Disk.exec blank) Eq ((Restore.recover entries).run, disk') (.done (.ok ()), recovered) →
          recovered.intent = none ∧
          recovered.dirs .live = some (.whole (if stopped.touched = done then new else old)) ∧
          ∀ again, Recovers blank recovered again → again = recovered) ∧
    (∀ backup, rest = .done (.ok backup) → failed = false ∧ stopped.engine = some (.whole new) ∧
      Replaced (intentOf source stamp) old new stopped ∧ stopped.touched = done) ∧
    ∀ error, rest = .done (.error error) →
      Serving old stopped ∨ Unserved (intentOf source stamp) old new error stopped := by
  have start : Crash (intentOf source stamp) old new disk := ready.unbegun.crash
  have among : Safely (Disk.exec blank) (Elsewhere fun _ => True) (Crash (intentOf source stamp) old new) _ _
      (restoreStaged entries source stamp) disk := restoreStaged_safe trivial entries ready
  obtain ⟨crash, ends⟩ := reached.safe ((Safe.alone_eq among).noted false) start (fun _ _ crash same => same ▸ crash)
    fun _ _ _ ends same => same ▸ ends
  have strict := (reached.safe (restoreStaged_works entries source stamp (disk, false) rfl) trivial (fun _ _ _ _ => trivial)
    fun _ _ _ ends same => same ▸ ends).2
  refine ⟨crash.copied, fun disk' recovers => ?_, fun backup value => ?_, fun error value => ?_⟩
  · obtain ⟨copied, closed⟩ := crash.recovers recovers
    refine ⟨copied, fun entries recovered completes => ?_⟩
    have last := closed.recovered completes
    exact ⟨last.2.1, last.2.2, fun again recovers => recovers_idle last.2.1 recovers⟩
  · subst value
    exact ⟨strict, ends.2.1, ends.2.2.1, ends.2.2.2⟩
  · subst value
    exact Or.imp Unbegun.serving id ends

namespace Sample

def stamp : TimeStamp := ⟨2, "0260101t000000000z"⟩

/-- The old store, `false`, is served; the new one is staged. -/
def tenant : Disk Bool where
  dirs
    | .live => some (.whole false)
    | .staged "new" => some (.whole true)
    | _ => none
  intent := none
  engine := some (.whole false)
  touched := []

theorem ready : Ready false true (.staged "new") tenant where
  serving := ⟨rfl, rfl, fun _ pending => absurd pending (by simp [tenant])⟩
  touched := rfl
  source := by
    rintro name same
    cases same
    rfl

/-- The program left and the disk, once the calls have gone as chosen. -/
def restoring (choices : List Bool) :=
  advance (noted (Disk.exec false) Disk.refused) choices
    ((restoreStaged (fun _ => 0) (.staged "new") stamp).run, (tenant, false))

def recovering (disk : Disk Bool) :=
  advance (Disk.exec false) (List.replicate 24 true) ((Restore.recover fun _ => 0).run, disk)

end Sample

theorem restore_crash_safe_done : ∃ stopped, Reaches (noted (Disk.exec false) Disk.refused) Eq
    ((restoreStaged (fun _ => 0) (.staged "new") Sample.stamp).run, (Sample.tenant, false))
      (.done (.ok "pre-restore-20260101t000000000z"), (stopped, false)) ∧
    Copied (intentOf (.staged "new") Sample.stamp) false stopped ∧ stopped.engine = some (.whole true) := by
  have reached : Reaches (noted (Disk.exec false) Disk.refused) Eq
      ((restoreStaged (fun _ => 0) (.staged "new") Sample.stamp).run, (Sample.tenant, false))
      (.done (.ok "pre-restore-20260101t000000000z"), (Sample.restoring (List.replicate 40 true)).2) :=
    Reaches.advance (List.replicate 40 true) _
  have safe := restore_crash_safe Sample.ready Sample.stamp (fun _ => 0) reached
  exact ⟨_, reached, safe.1, (safe.2.2.1 _ rfl).2.1⟩

/-- A restore whose last sync fails undoes what it did, though its intent was removed; and when the open after that fails
as well, no store is served. -/
theorem restore_undone :
    (¬∀ rest stopped failed recovered, Reaches (noted (Disk.exec false) Disk.refused) Eq
      ((restoreStaged (fun _ => 0) (.staged "new") Sample.stamp).run, (Sample.tenant, false)) (rest, (stopped, failed)) →
        Reaches (Disk.exec false) Eq ((Restore.recover fun _ => 0).run, stopped.halted) (.done (.ok ()), recovered) →
          (recovered.dirs .live = some (.whole true) ↔ .removed ∈ stopped.touched)) ∧
    ∃ stopped failed, Reaches (noted (Disk.exec false) Disk.refused) Eq
      ((restoreStaged (fun _ => 0) (.staged "new") Sample.stamp).run, (Sample.tenant, false))
        (.done (.error .engine), (stopped, failed)) ∧ stopped.engine = none := by
  constructor
  · intro holds
    let choices := List.replicate 19 true ++ [false, true, true]
    have same := holds _ _ _ (Sample.recovering (Sample.restoring choices).2.1.halted).2
      (Reaches.advance choices _) (Reaches.advance (List.replicate 24 true) _)
    have live : (Sample.recovering (Sample.restoring choices).2.1.halted).2.dirs .live = some (.whole false) := by
      decide
    have removed : Touch.removed ∈ (Sample.restoring choices).2.1.touched := by decide
    exact absurd (live.symm.trans (same.mpr removed)) (by simp)
  · let choices := List.replicate 19 true ++ [false] ++ List.replicate 13 true ++ [false]
    have reached : Reaches (noted (Disk.exec false) Disk.refused) Eq
        ((restoreStaged (fun _ => 0) (.staged "new") Sample.stamp).run, (Sample.tenant, false))
        (.done (.error .engine), (Sample.restoring choices).2) := Reaches.advance choices _
    exact ⟨_, _, reached, by decide⟩

end Warm.Server
