import Warm.MemoryForget

/-! Runs of any number of calls by any number of memories over one store, among writers that know nothing of memories:
in every state they reach, an index that is marked with the store's revision holds what a rebuild would. -/
namespace Warm.Memory

open Interleaving World List

section Consolidating

variable {admits : Command → World → Prop} {property : World → Prop} {settings : WriteSettings}
  {policy : ConsolidationPolicy} {options : ConsolidateOptions} {now : Millis} {withText : Bool} {memory : Nat}
  {world : World} {trace : List (Event Command Command.Reply World)}

theorem summariesSnapshot_follows (kept : Kept admits property) (attempts : Nat) :
    Follows execute Later (Keeping property) admits (fun result trace' world' => ReadOnly world trace trace' world' ∧
      ∀ revision facts, result = .ok (revision, facts) → Anchored memory revision world')
      (summariesSnapshot memory withText now attempts) trace world := by
  suffices claim : ∀ world' trace', ReadOnly world trace trace' world' →
      Follows execute Later (Keeping property) admits (fun result trace' world' => ReadOnly world trace trace' world' ∧
        ∀ revision facts, result = .ok (revision, facts) → Anchored memory revision world')
        (summariesSnapshot memory withText now attempts) trace' world' by
    exact claim world trace ReadOnly.start
  induction attempts with
  | zero =>
    intro world' trace' reads
    exact ⟨reads, fun _ _ same => by simp at same⟩
  | succ attempts ih =>
    intro world' trace' reads
    unfold summariesSnapshot
    apply Follows.bind
    refine (planningRevision_follows kept).mono ?_
    rintro (_ | revision) trace1 first ⟨⟨moved, same⟩, anchored⟩
    · exact ih first trace1 ⟨reads.1.trans moved, same.trans reads.2⟩
    have anchored := (anchored revision rfl).2
    refine Follows.reads (fun _ _ => rfl) fun second moved' _ _ => ?_
    have reads' : ReadOnly world trace (trace1 ++ [⟨.summarize memory revision withText now,
        summarized second memory revision withText now, second⟩]) second :=
      ReadOnly.step ⟨reads.1.trans moved, same.trans reads.2⟩ moved' rfl
    simp only [execute]
    cases found : summarized second memory revision withText now with
    | none =>
      rw [found] at reads'
      exact ih second _ reads'
    | some result =>
      rw [found] at reads'
      apply revisionMatches_follows
      intro third trace2 moved'' same''
      have reads'' : ReadOnly world trace trace2 third := ⟨reads'.1.trans moved'', same''.trans reads'.2⟩
      split
      · refine ⟨reads'', fun found' facts same => ?_⟩
        subst same
        have own : found' = revision := by
          unfold summarized at found
          split at found
          · simp at found
          · next marked =>
            rw [Option.some.injEq] at found
            unfold check at found
            split at found
            · next current =>
              simp only [bind, Except.bind, pure, Except.pure, Except.ok.injEq, Prod.mk.injEq] at found
              rw [← found.1]
              rw [not_not] at marked
              have current := of_decide_eq_true current
              rw [marked, Option.some.injEq] at current
              exact current.symm
            · simp [bind, Except.bind] at found
        rw [own]
        exact (anchored.later moved').later moved''
      · exact ih third trace2 reads''

theorem doomedSources_of_gentle (gentle : options.allowDestructive = false) (actions : List ConsolidationAction) :
    doomedSources options actions = [] := by
  simp [doomedSources, gentle]

/-- A consolidation has written nothing on an error, unless the error says that a transaction is durable. -/
def ConsolidatePost (result : Except MemoryError ConsolidationReport) (trace : List (Event Command Command.Reply World))
    (_ : World) : Prop :=
  match result with
  | .ok _ => True
  | .error (.committed _) => True
  | .error _ => ownCommits trace = []

theorem ConsolidatePost.error {error : MemoryError} (quiet : ownCommits trace = []) :
    ConsolidatePost (.error error) trace world := by
  cases error <;> first | exact quiet | trivial

theorem consolidate_follows (kept : Kept admits property) (gentle : options.allowDestructive = false) :
    Follows execute Later (Keeping property) admits ConsolidatePost (consolidate settings policy memory options now)
      [] world := by
  unfold consolidate
  suffices claim : ∀ attempts world' trace', ownCommits trace' = [] →
      Follows execute Later (Keeping property) admits ConsolidatePost
        (consolidateAttempts settings policy memory options now attempts) trace' world' by
    exact claim WRITE_ATTEMPTS world [] rfl
  intro attempts
  induction attempts with
  | zero => exact fun _ _ quiet => quiet
  | succ attempts ih =>
    intro world' trace' quiet
    unfold consolidateAttempts
    apply Follows.bind
    refine (summariesSnapshot_follows kept _).mono ?_
    rintro (error | ⟨revision, facts⟩) trace1 first ⟨reads, anchored⟩
    · exact ConsolidatePost.error (reads.2.trans quiet)
    have quiet' : ownCommits trace1 = [] := reads.2.trans quiet
    simp only [doomedSources_of_gentle gentle]
    split
    · apply revisionMatches_follows
      intro second trace2 _ same
      split
      · exact ih second trace2 (same.trans quiet')
      · split <;> exact trivial
    · apply Follows.bind
      refine (rememberAtRevision_follows kept (anchored revision facts rfl) quiet').mono ?_
      rintro (error | _ | created) trace2 second post
      · cases error <;> exact post
      · exact ih second trace2 post
      · exact trivial

end Consolidating

/-- A call of a memory. Reads only bring the memory's index up to date. -/
inductive Call where
  | remember (settings : WriteSettings) (memory : Nat) (inputs : List RememberInput) (now : Millis)
  | forget (memory : Nat) (scope : ForgetScope) (options : ForgetOptions)
  | consolidate (settings : WriteSettings) (policy : ConsolidationPolicy) (memory : Nat) (options : ConsolidateOptions)
    (now : Millis)
  | read (memory : Nat)

inductive Outcome where
  | remembered (result : Except MemoryError (List Remembered))
  | forgot (result : Except MemoryError ForgetReport)
  | consolidated (result : Except MemoryError ConsolidationReport)
  | read

def Call.code : Call → Code Outcome
  | .remember settings memory inputs now => do return .remembered (← rememberMany settings memory inputs now)
  | .forget memory scope options => do return .forgot (← Memory.forget memory scope options)
  | .consolidate settings policy memory options now => do
    return .consolidated (← Memory.consolidate settings policy memory options now)
  | .read memory => do
    ensureFresh memory
    return .read

/-- The calls that remove documents only where they were told to. -/
def Call.gentle : Call → Bool
  | .consolidate _ _ _ options _ => !options.allowDestructive
  | _ => true

abbrev GentleCall := { call : Call // call.gentle = true }

/-- A writer that knows nothing of memories leaves any documents. -/
def RawWrite (world world' : World) : Prop :=
  ∃ documents, world' = world.write documents

abbrev MemoryPool := Pool Command Command.Reply GentleCall Outcome World

/-- The pools that runs of calls and of other writers reach from an empty store. -/
def Runs (admits : Command → World → Prop) (pool : MemoryPool) : Prop :=
  Pool.Reaches execute admits (fun call : GentleCall => call.1.code) RawWrite World.empty pool

def CallPost (call : GentleCall) (began : World) (outcome : Outcome) (trace : List (Event Command Command.Reply World))
    (world : World) : Prop :=
  Later began world ∧ match call.1, outcome with
  | .remember settings _ inputs now, .remembered result => RememberPost settings inputs now result trace world
  | .forget _ scope options, .forgot result => ForgetPost scope options began.revision result trace world
  | .consolidate _ _ _ _ _, .consolidated result => ConsolidatePost result trace world
  | _, _ => True

theorem CallPost.later (post : CallPost call began outcome trace world) (moved : Later world world') :
    CallPost call began outcome trace world' := by
  refine ⟨post.1.trans moved, ?_⟩
  have done := post.2
  split at done
  · exact RememberPost.later done moved
  · exact ForgetPost.later done moved rfl
  · exact done
  · trivial

theorem Call.follows (kept : Kept admits property) (call : GentleCall) (world : World) :
    Follows execute Later (Keeping property) admits (CallPost call world) call.1.code [] world := by
  obtain ⟨call, gentle⟩ := call
  cases call with
  | remember settings memory inputs now =>
    apply Follows.bind
    exact (rememberMany_follows kept).moved.mono fun _ _ _ both => ⟨both.2, both.1⟩
  | forget memory scope options =>
    apply Follows.bind
    exact (forget_follows kept).moved.mono fun _ _ _ both => ⟨both.2, both.1⟩
  | consolidate settings policy memory options now =>
    apply Follows.bind
    exact (consolidate_follows kept (by simpa [Call.gentle] using gentle)).moved.mono fun _ _ _ both => ⟨both.2, both.1⟩
  | read memory =>
    apply Follows.bind
    exact (ensureFresh_follows kept).mono fun _ _ _ reads => ⟨reads.1, trivial⟩

theorem Runs.keeping (kept : Kept admits property) (initial : property World.empty)
    (raw : ∀ world documents, property world → property (world.write documents)) (reached : Runs admits pool) :
    Keeping property pool.shared ∧ ∀ thread ∈ pool.threads,
      Follows execute Later (Keeping property) admits (CallPost thread.call thread.began) thread.program thread.trace
        pool.shared := by
  refine Pool.Reaches.follows reached ⟨Sound.empty, initial⟩ (fun call world _ => Call.follows kept call world) ?_ ?_
  · rintro world world' holds ⟨documents, rfl⟩
    exact ⟨⟨holds.1.write documents, raw world documents holds.2⟩, later_write world documents⟩
  · intro call began outcome trace world world' post moved
    exact post.later moved

theorem kept_showing : Kept ShowingOnly fun _ => True where
  shows := fun _ _ admitted => admitted rfl
  index := fun _ _ _ _ => trivial
  remember := fun _ _ _ _ => trivial
  forget := fun _ _ _ => trivial

/-- In every run whose transactions show in the stamps they store, an index that is marked with the store's revision has the
windowed count, links, groups and entity postings that a rebuild of the stored documents gives. -/
theorem index_same_as_rebuild {pool : MemoryPool} (reached : Runs ShowingOnly pool) (memory : Nat)
    (current : (pool.shared.index memory).revision = some pool.shared.revision) :
    (pool.shared.index memory).Same (Index.rebuild pool.shared.documents pool.shared.revision) := by
  have sound := (Runs.keeping kept_showing trivial (fun _ _ _ => trivial) reached).1.1
  have describes := (sound memory pool.shared.revision current).2
  exact describes.mirrors.same (Index.rebuild_mirrors _ _)

section Serial

variable {pool : MemoryPool} {thread : Thread Command Command.Reply GentleCall Outcome World}

theorem Runs.finished (reached : Runs ShowingOnly pool) (member : thread ∈ pool.threads)
    (finished : thread.program = .done outcome) :
    CallPost thread.call thread.began outcome thread.trace pool.shared := by
  have follows := (keeping kept_showing trivial (fun _ _ _ => trivial) reached).2 thread member
  rw [finished] at follows
  exact follows

theorem PlannedIn.free (planning : PlannedIn settings inputs now state planned)
    (reject : settings.onIdConflict = .reject) : ∀ fact ∈ writtenFacts planned, state.documents[fact.id]? = none := by
  intro fact member
  obtain ⟨inside, written⟩ := mem_filter.mp member
  rcases planning.from_.fact inside with kept | ⟨_, _, _, _, _, _, new⟩
  · simp [kept.idempotent] at written
  · exact new.reject reject

/-- Whether an error says that a transaction is durable. -/
def MemoryError.durable : MemoryError → Bool
  | .committed _ => true
  | _ => false

/-- In every run whose transactions show in the stamps they store, a finished forget has planned at one revision, with no
other transaction between its own; what it planned to remove is gone, and nothing its scope selects is stored, at the last. -/
theorem forget_finished (reached : Runs ShowingOnly pool) (member : thread ∈ pool.threads)
    (called : thread.call.1 = .forget memory scope options) {result : Except MemoryError ForgetReport}
    (finished : thread.program = .done (.forgot result)) :
    ForgetPost scope options thread.began.revision result thread.trace pool.shared := by
  have post := (reached.finished member finished).2
  rw [called] at post
  exact post

end Serial

section Alone

def World.after (world : World) : List GentleCall → World
  | [] => world
  | call :: rest => World.after (call.1.code.run execute Fault.none world).2 rest

/-- Calls one after another, each command in a state that admits it. -/
def World.Admits (admits : Command → World → Prop) (world : World) : List GentleCall → Prop
  | [] => True
  | call :: rest => call.1.code.Admitted execute admits Fault.none world ∧
      Admits admits (call.1.code.run execute Fault.none world).2 rest

instance World.decidableAdmits (admits : Command → World → Prop) [∀ command world, Decidable (admits command world)] :
    (calls : List GentleCall) → (world : World) → Decidable (world.Admits admits calls)
  | [], _ => .isTrue trivial
  | call :: rest, world =>
    have := decidableAdmits admits rest (call.1.code.run execute Fault.none world).2
    inferInstanceAs (Decidable (_ ∧ _))

theorem Runs.after (reached : Runs admits pool) (calls : List GentleCall) (admitted : pool.shared.Admits admits calls) :
    ∃ pool', Runs admits pool' ∧ pool'.shared = pool.shared.after calls := by
  induction calls generalizing pool with
  | nil => exact ⟨pool, reached, rfl⟩
  | cons call rest ih =>
    obtain ⟨trace, reached'⟩ := Pool.Reaches.run reached call Fault.none admitted.1
    exact ih reached' admitted.2

theorem Runs.start (admits : Command → World → Prop) : Runs admits ⟨World.empty, []⟩ :=
  Relation.ReflTransGen.refl

end Alone

namespace Sample

/-- Settings that take the latest fact of a subject. -/
def latest : WriteSettings :=
  ⟨.reject, none, true, latestBySubject, fun _ => "hash", fun _ => [], fun _ => .ok 1, fun text => text⟩

def input (id text : String) (event : Millis) (subject : Option String) (entities : Option (List String)) :
    RememberInput :=
  ⟨some id, text, some event, none, none, subject, none, entities, none, none, none⟩

def oslo : GentleCall :=
  ⟨.remember latest 0 [input "a" "Oslo" 10 (some "city") none] 100, rfl⟩

def rome : GentleCall :=
  ⟨.remember latest 0 [input "z" "Rome" 5 (some "city") none] 200, rfl⟩

/-- A fact that takes effect at 10, then one of the same subject that took effect at 5. -/
def late : List GentleCall :=
  [oslo, rome]

/-- The first fact is forgotten and its id remembered again, without a subject. -/
def again : List GentleCall :=
  [⟨.forget 0 (.ids ["a"]) ⟨false, false, false⟩, rfl⟩,
    ⟨.remember latest 0 [input "a" "a note" 10 none (some ["note"])] 300, rfl⟩]

end Sample

theorem index_same_as_rebuild_late : ∃ pool, Runs ShowingOnly pool ∧ pool.shared = World.empty.after Sample.late ∧
    (pool.shared.index 0).Same (Index.rebuild pool.shared.documents pool.shared.revision) := by
  obtain ⟨pool, reached, same⟩ := (Runs.start ShowingOnly).after Sample.late (by decide +kernel)
  refine ⟨pool, reached, same, index_same_as_rebuild reached 0 ?_⟩
  rw [same]
  decide +kernel

/-- The stored hint of the second fact names the first: once it is forgotten and remembered again, a rebuild links the two
and the index that followed the calls does not. -/
theorem index_differs_from_rebuild : ∃ pool, Runs (fun _ _ => True) pool ∧
    (pool.shared.index 0).revision = some pool.shared.revision ∧
    ¬(pool.shared.index 0).Same (Index.rebuild pool.shared.documents pool.shared.revision) := by
  obtain ⟨pool, reached, same⟩ :=
    (Runs.start fun _ _ => True).after (Sample.late ++ Sample.again) (by decide +kernel)
  refine ⟨pool, reached, ?_, fun equal => ?_⟩
  · rw [same]
    decide +kernel
  · have missing : (pool.shared.index 0).edges "z" = [] := by
      rw [same]
      decide +kernel
    have linked : (⟨"a", 10, 300⟩ : Edge) ∈ (Index.rebuild pool.shared.documents pool.shared.revision).edges "z" := by
      rw [same]
      decide +kernel
    rw [← equal.edges "z", missing] at linked
    exact absurd linked not_mem_nil

/-- The facts a remember call created, none on an error. -/
def Outcome.created : Outcome → Option (List Remembered)
  | .remembered (.ok outcomes) => if outcomes.any (·.created) then some outcomes else none
  | _ => none

def Outcome.failed : Outcome → Bool
  | .remembered (.error _) => true
  | _ => false

namespace Sample

def forgetting : GentleCall :=
  ⟨.forget 0 (.ids ["a"]) ⟨false, false, false⟩, rfl⟩

end Sample

theorem forget_finished_oslo : ∃ pool thread result, Runs ShowingOnly pool ∧ thread ∈ pool.threads ∧
    thread.program = .done (.forgot result) ∧ result.toOption.map ForgetReport.forgotten = some ["a"] ∧
    ForgetPost (.ids ["a"]) ⟨false, false, false⟩ thread.began.revision result thread.trace pool.shared := by
  obtain ⟨pool, reached, same⟩ := (Runs.start ShowingOnly).after [Sample.oslo] (by decide +kernel)
  have admitted : Sample.forgetting.1.code.Admitted execute ShowingOnly Fault.none (World.empty.after [Sample.oslo]) := by
    decide +kernel
  obtain ⟨result, last, ran, removed⟩ : ∃ result last,
      Sample.forgetting.1.code.run execute Fault.none (World.empty.after [Sample.oslo]) = (.forgot result, last) ∧
        result.toOption.map ForgetReport.forgotten = some ["a"] := by
    refine ⟨_, _, Program.run_bind .., ?_⟩
    decide +kernel
  rw [← same] at admitted ran
  obtain ⟨trace, reached'⟩ := Pool.Reaches.run reached Sample.forgetting Fault.none admitted
  rw [ran] at reached'
  exact ⟨_, _, result, reached', mem_append_right _ mem_cons_self, rfl, removed,
    forget_finished reached' (mem_append_right _ mem_cons_self) rfl rfl⟩

end Warm.Memory
