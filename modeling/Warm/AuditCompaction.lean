import Warm.AuditQueue

/-! The audit queue across compactions. A compaction takes a snapshot, prepares a new generation
beside running commits, copies the frames committed meanwhile, appends its own intent and moves
the generation pointer. The process adds that intent to its queue only after the move has
returned, and the move can fail before and after the pointer is on disk. -/
namespace Warm.Audit

open List

/-- A generation in preparation: the snapshot's frames, and how many frames of the arena they stand
for. -/
structure Snapshot where
  frames : List (List Mutation)
  cursor : Nat
  deriving DecidableEq

/-- `arena` is the generation the process appends to. `current` is the generation `CURRENT` names
when that is another one. -/
structure Store where
  arena : List (List Mutation)
  current : Option (List (List Mutation))
  pending : List AuditIntent
  compaction : Option Snapshot
  deriving DecidableEq

namespace Store

def new : Store := ⟨[], none, [], none⟩

/-- The journal a reopened process replays. -/
def durable (store : Store) : List (List Mutation) := store.current.getD store.arena

end Store

/-- Where `replace_with_compacted` fails: before the pointer is renamed; after the rename, with a
pointer that does not read back; after the rename, with one that does; or in the cleanup of the
old generation. -/
inductive PublicationFault where
  | staging
  | unreadable
  | unsynced
  | cleanup
  deriving DecidableEq, Repr

/-- The store after the call, and whether it returned `Ok`. -/
def replaceWithCompacted (store : Store) (prepared : List (List Mutation)) :
    Option PublicationFault → Store × Bool
  | some .staging => (store, false)
  | some .unreadable => ({ store with current := some prepared }, false)
  | some .unsynced | some .cleanup => ({ store with arena := prepared, current := none }, false)
  | none => ({ store with arena := prepared, current := none }, true)

/-- `compaction_snapshot`: one frame a mutation, the queue behind the other live state and the
documents behind the queue. -/
def compactionSnapshot (store : Store) (state documents : List Mutation) : Snapshot :=
  ⟨(state ++ store.pending.map Mutation.auditPending ++ documents).map ([·]), store.arena.length⟩

/-- `audit_intent`: nothing when auditing is off or the schema has no effect stream; an intent is
prepared with an identity. -/
def auditIntent (config : Config) (drawn : Option AuditIntent) : Option AuditIntent :=
  drawn.filter fun intent => decide (AUDIT_EFFECTS_SCHEMA_VERSION ≤ config.schema) && intent.id.isSome

/-- The end of `compact_impl`, under the writer lease. -/
def publish (config : Config) (store : Store) (snapshot : Snapshot) (drawn : Option AuditIntent)
    (fault : Option PublicationFault) : Store :=
  let idle := { store with compaction := none }
  let copied := snapshot.frames ++ store.arena.drop snapshot.cursor
  match auditIntent config drawn with
  | none => (replaceWithCompacted idle copied fault).1
  | some intent =>
    match validateAuditTransitions store.pending [.auditPending intent] with
    | .error _ => idle
    | .ok () =>
      match replaceWithCompacted idle (copied ++ [[.auditPending intent]]) fault with
      | (store, true) => { store with pending := store.pending ++ [intent] }
      | (store, false) => store

inductive CompactionStep where
  | commit (mutations : List Mutation) (appendFails : Bool)
  | snapshot (state documents : List Mutation)
  | abandon
  | publish (drawn : Option AuditIntent) (fault : Option PublicationFault)
  | reopen
  deriving DecidableEq

/-- The live state without the queue, as a snapshot writes it. -/
def snapshotMutation (config : Config) (mutation : Mutation) : Bool :=
  !isAudit mutation && decide (validateMutation config mutation = .ok ())

/-- Audited commits and acknowledgements are both transactions. Reopening may follow a crash. -/
def compactionStep (config : Config) (store : Store) : CompactionStep → Except ReplayError Store
  | .commit mutations appendFails =>
    match commit config store.arena store.pending mutations with
    | .ok (arena, pending) => .ok (if appendFails then store else { store with arena, pending })
    | .error _ => .ok store
  | .snapshot state documents =>
    if (state ++ documents).all (snapshotMutation config) then
      .ok { store with compaction := some (compactionSnapshot store state documents) }
    else .ok store
  | .abandon => .ok { store with compaction := none }
  | .publish drawn fault =>
    match store.compaction with
    | some snapshot => .ok (publish config store snapshot drawn fault)
    | none => .ok store
  | .reopen => do
    let pending ← replayQueue config store.durable
    .ok ⟨store.durable, none, pending, none⟩

def compactionRun (config : Config) (store : Store) : List CompactionStep → Except ReplayError Store
  | [] => .ok store
  | first :: rest => do
    let next ← compactionStep config store first
    compactionRun config next rest

/-- A compaction that fails does so before its generation is published, or without an intent of its
own and with the pointer read back. -/
def CompactionStep.FailsInTime (config : Config) : CompactionStep → Prop
  | .publish drawn fault =>
    fault = none ∨ fault = some .staging ∨ (fault ≠ some .unreadable ∧ auditIntent config drawn = none)
  | _ => True

variable {config : Config} {store : Store} {pending after : List AuditIntent}

theorem advance_fresh (fresh : Queue (pending ++ [intent])) :
    advance pending (.auditPending intent) = some (pending ++ [intent]) := by
  have identified := fresh.identified intent (by simp)
  have room : pending.length < MAX_PENDING := by
    have bounded := fresh.bounded
    rw [length_append, length_singleton] at bounded
    exact bounded
  have apart : intent.id ∉ pending.map AuditIntent.id := by
    have distinct := fresh.distinct
    rw [map_append] at distinct
    intro known
    exact (nodup_append.mp distinct).2.2 _ known _ (by simp) rfl
  rw [advance, if_pos ⟨identified, room, apart⟩]

theorem Queue.front (queue : Queue (pending ++ more)) : Queue pending := by
  refine ⟨(forall_mem_append.mp queue.identified).1, ?_, ?_⟩
  · have distinct := queue.distinct
    rw [map_append] at distinct
    exact (nodup_append.mp distinct).1
  · have bounded := queue.bounded
    rw [length_append] at bounded
    omega

theorem Queue.rebuild (queue : Queue (pending ++ more)) :
    (more.map Mutation.auditPending).foldlM Audit.advance pending = some (pending ++ more) := by
  induction more generalizing pending with
  | nil => simp
  | cons intent more ih =>
    have shape : pending ++ intent :: more = pending ++ [intent] ++ more := append_cons ..
    rw [shape] at queue ⊢
    rw [map_cons, foldlM_cons, advance_fresh queue.front]
    exact ih queue

theorem Queue.replay_singletons (queue : Queue pending) (mutations : List Mutation)
    (valid : ∀ mutation ∈ mutations, validateMutation config mutation = .ok ())
    (moved : mutations.foldlM Audit.advance pending = some after) :
    (mutations.map ([·])).foldlM (replayFrame config) pending = .ok after := by
  induction mutations generalizing pending with
  | nil => exact congrArg Except.ok (Option.some.inj moved)
  | cons mutation mutations ih =>
    obtain ⟨next, first, rest⟩ := foldlM_cons_eq_some.mp moved
    have one : [mutation].foldlM Audit.advance pending = some next := by
      rw [foldlM_cons, first]
      rfl
    have alone : ∀ m ∈ [mutation], validateMutation config m = .ok () := by
      intro m member
      rw [mem_singleton.mp member]
      exact valid mutation (mem_cons_self ..)
    rw [map_cons, foldlM_cons, queue.replayFrame_eq alone one]
    exact ih (queue.advance first) (forall_mem_cons.mp valid).2 rest

theorem Queue.compactionSnapshot (queue : Queue store.pending)
    (supported : ∀ intent ∈ store.pending, validateMutation config (.auditPending intent) = .ok ())
    (state documents : List Mutation) (plain : (state ++ documents).all (snapshotMutation config) = true) :
    replayQueue config (Audit.compactionSnapshot store state documents).frames = .ok store.pending := by
  have each (mutation : Mutation) (member : mutation ∈ state ++ documents) :
      isAudit mutation = false ∧ validateMutation config mutation = .ok () := by
    have checked := all_eq_true.mp plain mutation member
    simpa [snapshotMutation] using checked
  have quiet (mutations : List Mutation) (within : ∀ m ∈ mutations, m ∈ state ++ documents) :
      mutations.any isAudit = false := by
    rw [any_eq_false]
    intro mutation member
    simp [(each mutation (within mutation member)).1]
  have moved : (state ++ store.pending.map Mutation.auditPending ++ documents).foldlM Audit.advance [] =
      some store.pending := by
    have rebuilt : (store.pending.map Mutation.auditPending).foldlM Audit.advance [] = some ([] ++ store.pending) :=
      rebuild queue
    rw [foldlM_append, foldlM_append,
      advance_all_of_not_audit (quiet state fun m => mem_append_left _)]
    change ((store.pending.map Mutation.auditPending).foldlM Audit.advance [] >>= _) = _
    rw [rebuilt, nil_append]
    exact advance_all_of_not_audit (quiet documents fun m => mem_append_right _) _
  refine nil.replay_singletons _ ?_ moved
  intro mutation member
  rcases mem_append.mp member with front | document
  · rcases mem_append.mp front with live | queued
    · exact (each mutation (mem_append_left _ live)).2
    · obtain ⟨intent, listed, rfl⟩ := mem_map.mp queued
      exact supported intent listed
  · exact (each mutation (mem_append_right _ document)).2

/-- The process and the journal agree, and a generation in preparation leads to the same queue once
the frames committed since its snapshot follow it. -/
structure Agrees (config : Config) (store : Store) : Prop where
  queue : Queue store.pending
  supported : ∀ intent ∈ store.pending, validateMutation config (.auditPending intent) = .ok ()
  current : store.current = none
  replays : replayQueue config store.arena = .ok store.pending
  snapshot : ∀ snapshot, store.compaction = some snapshot → snapshot.cursor ≤ store.arena.length ∧
    replayQueue config (snapshot.frames ++ store.arena.drop snapshot.cursor) = .ok store.pending

theorem Agrees.new : Agrees config Store.new where
  queue := Queue.nil
  supported := fun _ member => nomatch member
  current := rfl
  replays := rfl
  snapshot := fun _ none => nomatch none

theorem Agrees.durable (agrees : Agrees config store) : store.durable = store.arena := by
  rw [Store.durable, agrees.current]
  rfl

theorem mem_of_advance_all {mutations : List Mutation} (moved : mutations.foldlM advance pending = some after)
    (member : intent ∈ after) : intent ∈ pending ∨ .auditPending intent ∈ mutations := by
  obtain ⟨taken, split, _⟩ := advance_all_split moved
  have listed : intent ∈ pending ++ committed mutations := by
    rw [← split]
    exact mem_append_right _ member
  rcases mem_append.mp listed with old | new
  · exact .inl old
  · obtain ⟨mutation, found, same⟩ := mem_filterMap.mp new
    cases mutation with
    | auditPending other =>
      obtain rfl : other = intent := Option.some.inj same
      exact .inr found
    | _ => contradiction

theorem Agrees.commit (agrees : Agrees config store)
    (done : Audit.commit config store.arena store.pending mutations = .ok (arena, after)) :
    Agrees config { store with arena, pending := after } := by
  obtain ⟨rfl, valid, moved⟩ := agrees.queue.commit_ok done
  refine ⟨agrees.queue.advance_all moved, ?_, agrees.current, ?_, ?_⟩
  · intro intent member
    rcases mem_of_advance_all moved member with old | new
    · exact agrees.supported intent old
    · exact valid _ new
  · rw [replayQueue_append agrees.replays]
    exact agrees.queue.replayFrame_eq valid moved
  · intro snapshot preparing
    obtain ⟨inside, replayed⟩ := agrees.snapshot snapshot preparing
    refine ⟨Nat.le_trans inside (by simp), ?_⟩
    rw [drop_append_of_le_length inside, ← append_assoc, replayQueue_append replayed]
    exact agrees.queue.replayFrame_eq valid moved

theorem Agrees.idle (agrees : Agrees config store) : Agrees config { store with compaction := none } :=
  { agrees with snapshot := fun _ none => nomatch none }

theorem Agrees.replaced (queue : Queue pending)
    (supported : ∀ intent ∈ pending, validateMutation config (.auditPending intent) = .ok ())
    (replays : replayQueue config arena = .ok pending) : Agrees config ⟨arena, none, pending, none⟩ :=
  ⟨queue, supported, rfl, replays, fun _ none => nomatch none⟩

theorem auditIntent_valid (drawn : auditIntent config intent? = some intent) :
    validateMutation config (.auditPending intent) = .ok () := by
  have passed := (Option.filter_eq_some_iff.mp drawn).2
  simp only [Bool.and_eq_true, decide_eq_true_eq] at passed
  simp [validateMutation, ensure, passed.1, passed.2]
  rfl

theorem Agrees.publish {snapshot : Snapshot} (agrees : Agrees config store) (preparing : store.compaction = some snapshot)
    (inTime : (CompactionStep.publish drawn fault).FailsInTime config) :
    Agrees config (publish config store snapshot drawn fault) := by
  obtain ⟨_, replayed⟩ := agrees.snapshot snapshot preparing
  have moved := replaced agrees.queue agrees.supported replayed
  rw [Audit.publish]
  cases own : auditIntent config drawn with
  | none =>
    rcases inTime with rfl | rfl | ⟨readable, _⟩
    · exact moved
    · exact agrees.idle
    · rcases fault with _ | _ | _ | _ | _
      · exact moved
      · exact agrees.idle
      · exact absurd rfl readable
      · exact moved
      · exact moved
  | some intent =>
    rcases checked : validateAuditTransitions store.pending [.auditPending intent] with e | _
    · simp only [checked]
      exact agrees.idle
    · simp only [checked]
      rcases inTime with rfl | rfl | ⟨_, none⟩
      · obtain ⟨after, allowed⟩ := (agrees.queue.validate_iff _).mp checked
        have joined : after = store.pending ++ [intent] := by
          obtain ⟨taken, split, acks⟩ := advance_all_split allowed
          obtain rfl := map_eq_nil_iff.mp acks
          exact split
        subst joined
        have valid : ∀ m ∈ [Mutation.auditPending intent], validateMutation config m = .ok () := by
          intro m member
          rw [mem_singleton.mp member]
          exact auditIntent_valid own
        refine replaced (agrees.queue.advance_all allowed) ?_ ?_
        · exact forall_mem_append.mpr ⟨agrees.supported, forall_mem_singleton.mpr (auditIntent_valid own)⟩
        · rw [replayQueue_append replayed]
          exact agrees.queue.replayFrame_eq valid allowed
      · exact agrees.idle
      · rw [own] at none
        contradiction

theorem Agrees.step (agrees : Agrees config store) (next : CompactionStep) (inTime : next.FailsInTime config) :
    ∃ store', compactionStep config store next = .ok store' ∧ Agrees config store' := by
  cases next with
  | commit mutations appendFails =>
    rcases outcome : Audit.commit config store.arena store.pending mutations with e | ⟨arena, after⟩
    · exact ⟨store, by rw [compactionStep, outcome], agrees⟩
    · refine ⟨_, by rw [compactionStep, outcome], ?_⟩
      by_cases failed : appendFails = true
      · rw [if_pos failed]
        exact agrees
      · rw [if_neg failed]
        exact agrees.commit outcome
  | snapshot state documents =>
    by_cases plain : (state ++ documents).all (snapshotMutation config) = true
    · refine ⟨{ store with compaction := some (compactionSnapshot store state documents) },
        by rw [compactionStep, if_pos plain], { agrees with snapshot := ?_ }⟩
      rintro _ ⟨⟩
      refine ⟨Nat.le_refl _, ?_⟩
      simp only [compactionSnapshot, drop_length, append_nil]
      exact agrees.queue.compactionSnapshot agrees.supported state documents plain
    · exact ⟨store, by rw [compactionStep, if_neg plain], agrees⟩
  | abandon => exact ⟨_, rfl, agrees.idle⟩
  | publish drawn fault =>
    cases preparing : store.compaction with
    | none => exact ⟨store, by rw [compactionStep, preparing], agrees⟩
    | some snapshot => exact ⟨_, by rw [compactionStep, preparing], agrees.publish preparing inTime⟩
  | reopen =>
    refine ⟨⟨store.arena, none, store.pending, none⟩, ?_, .replaced agrees.queue agrees.supported agrees.replays⟩
    rw [compactionStep, agrees.durable, agrees.replays]
    rfl

theorem Agrees.run (agrees : Agrees config store) (steps : List CompactionStep)
    (inTime : ∀ next ∈ steps, next.FailsInTime config) :
    ∃ final, compactionRun config store steps = .ok final ∧ Agrees config final := by
  induction steps generalizing store with
  | nil => exact ⟨store, rfl, agrees⟩
  | cons first rest ih =>
    obtain ⟨next, stepped, kept⟩ := agrees.step first (inTime first (mem_cons_self ..))
    obtain ⟨final, ran, done⟩ := ih kept (forall_mem_cons.mp inTime).2
    exact ⟨final, by rw [compactionRun, stepped]; exact ran, done⟩

/-- In a run whose compactions fail in time, every open succeeds and the queue is always the one the
durable journal replays to. -/
theorem compactionRun_replays (config : Config) (steps : List CompactionStep)
    (inTime : ∀ next ∈ steps, next.FailsInTime config) :
    ∃ final, compactionRun config Store.new steps = .ok final ∧
      replayQueue config final.durable = .ok final.pending := by
  obtain ⟨final, ran, agrees⟩ := Agrees.new.run steps inTime
  exact ⟨final, ran, by rw [agrees.durable, agrees.replays]⟩

/-- A commit, a compaction that is abandoned before publication, one that is published beside a
commit, and the acknowledgements. -/
theorem compactionRun_replays_published : ∃ final,
    compactionRun ⟨64, 6, false, 0⟩ Store.new
      [.commit [.auditPending (sampleIntent .memorize 1)] false, .snapshot [.deleteDocument "a"] [],
        .publish (some (sampleIntent .compact 2)) (some .staging), .snapshot [] [],
        .commit [.auditPending (sampleIntent .delete 3)] false, .publish (some (sampleIntent .compact 4)) none,
        .commit [.auditAcknowledged ⟨List.replicate 16 1, rfl⟩] false, .reopen] = .ok final ∧
      replayQueue ⟨64, 6, false, 0⟩ final.durable = .ok final.pending :=
  compactionRun_replays _ _ (by simp [CompactionStep.FailsInTime])

/-- A compaction whose cleanup fails after publication, then an audited commit and its
acknowledgement, which the process accepts: the journal has the compaction's intent in front and
does not replay. -/
theorem compactionRun_cleanup_diverges : ∃ final,
    compactionRun ⟨64, 6, false, 0⟩ Store.new
      [.snapshot [] [], .publish (some (sampleIntent .compact 1)) (some .cleanup),
        .commit [.auditPending (sampleIntent .memorize 2)] false,
        .commit [.auditAcknowledged ⟨List.replicate 16 2, rfl⟩] false] = .ok final ∧
      final.pending = [] ∧ replayQueue ⟨64, 6, false, 0⟩ final.durable = .error (.audit .outOfOrder) := by
  refine ⟨⟨[[.auditPending (sampleIntent .compact 1)], [.auditPending (sampleIntent .memorize 2)],
    [.auditAcknowledged ⟨List.replicate 16 2, rfl⟩]], none, [], none⟩, ?_, rfl, ?_⟩
  · decide
  · decide

end Warm.Audit
