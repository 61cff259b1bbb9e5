import Warm.MemoryCommits

/-! Remembering among other calls: the plan of a call that commits is the plan against the documents just before its
commit, and its index update leaves the index a rebuild would give. -/
namespace Warm.Memory

open Interleaving World List
open Transaction (deleted remember)

section Reading

variable {admits : Command → World → Prop} {property : World → Prop} {α : Type} {memory : Nat} {world : World}
  {trace : List (Event Command Command.Reply World)}

/-- What a call has only read: a later world, and no commit of its own. -/
def ReadOnly (world : World) (trace : List (Event Command Command.Reply World)) (trace' : List (Event Command Command.Reply World))
    (world' : World) : Prop :=
  Later world world' ∧ ownCommits trace' = ownCommits trace

theorem ReadOnly.step (reads : ReadOnly world trace trace' world') (moved : Later world' world'')
    (silent : ownCommit event = none) : ReadOnly world trace (trace' ++ [event]) world'' := by
  refine ⟨reads.1.trans moved, ?_⟩
  rw [ownCommits_append, reads.2]
  simp [ownCommits, silent]

theorem ReadOnly.start : ReadOnly world trace trace world :=
  ⟨Later.refl world, rfl⟩

theorem coreRevision_follows {next}
    (rest : ∀ world', Later world world' → Keeping property world' → Follows execute Later (Keeping property) admits post (next world'.revision) (trace ++ [⟨.coreRevision, world'.revision, world'⟩]) world') :
    Follows execute Later (Keeping property) admits post (perform .coreRevision >>= next) trace world :=
  Follows.reads (fun _ _ => rfl) fun world' moved sound _ => rest world' moved sound

theorem indexRevision_follows {next}
    (rest : ∀ world', Later world world' → Keeping property world' → Follows execute Later (Keeping property) admits post (next (world'.index memory).revision) (trace ++ [⟨.indexRevision memory, (world'.index memory).revision, world'⟩]) world') :
    Follows execute Later (Keeping property) admits post (perform (.indexRevision memory) >>= next) trace world :=
  Follows.reads (fun _ _ => rfl) fun world' moved sound _ => rest world' moved sound

theorem ensureFresh_follows (kept : Kept admits property) :
    Follows execute Later (Keeping property) admits (fun _ trace' world' => ReadOnly world trace trace' world') (ensureFresh memory)
      trace world := by
  unfold ensureFresh
  apply coreRevision_follows
  intro first moved _
  apply indexRevision_follows
  intro second moved' _
  have reads : ReadOnly world trace (trace ++ [⟨.coreRevision, first.revision, first⟩] ++
      [⟨.indexRevision memory, (second.index memory).revision, second⟩]) second :=
    (ReadOnly.start.step moved rfl).step moved' rfl
  split
  · exact reads
  · intro third more sound _ choice
    refine ⟨⟨sound.1.refreshed memory, kept.refreshed memory sound.2⟩, later_refreshed third memory, ?_⟩
    exact reads.step (more.trans (later_refreshed third memory)) rfl

/-- The store has been at the revision, and while it stays there the memory's index is held. -/
def Anchored (memory before : Nat) (world : World) : Prop :=
  before ≤ world.revision ∧ (world.revision = before → world.Held memory)

theorem Anchored.later (anchored : Anchored memory before world) (moved : Later world world') :
    Anchored memory before world' := by
  refine ⟨anchored.1.trans moved.revision, fun same => ?_⟩
  have stayed : world.revision = before := by
    have := moved.revision
    have := anchored.1
    omega
  exact moved.held memory (same.trans stayed.symm) (anchored.2 stayed)

theorem planningRevision_follows (kept : Kept admits property) :
    Follows execute Later (Keeping property) admits (fun found trace' world' => ReadOnly world trace trace' world' ∧
      ∀ before, found = some before → world.revision ≤ before ∧ Anchored memory before world') (planningRevision memory)
      trace world := by
  unfold planningRevision
  apply Follows.bind
  refine (ensureFresh_follows kept).mono fun _ trace' world' reads => ?_
  apply coreRevision_follows
  intro first moved _
  apply indexRevision_follows
  intro second moved' sound
  refine ⟨(reads.step moved rfl).step moved' rfl, fun before found => ?_⟩
  split at found
  · next marked =>
    rw [Option.some.injEq] at found
    rw [found] at marked
    obtain ⟨bound, describes⟩ := sound.1 memory before marked
    refine ⟨found ▸ reads.1.revision.trans moved.revision, bound, fun same =>
      ⟨.inl (marked.trans (congrArg some same.symm)), ?_⟩⟩
    unfold World.documents
    rw [same]
    exact describes
  · simp at found

theorem readPlan_follows (anchored : Anchored memory before world) (plan : Plan α) :
    Follows execute Later (Keeping property) admits (fun value trace' world' => ReadOnly world trace trace' world' ∧
      (world'.revision ≤ before → value = plan.eval (freshView (world.history before) before)))
      (readPlan memory plan) trace world := by
  have agree : ∀ world', Later world world' → Keeping property world' → world'.revision ≤ before → ∀ query (fault : Fault),
      (execute (.read memory query) fault world').1 = freshView (world.history before) before query := by
    intro world' moved _ bound query _
    have here := anchored.later moved
    have same : world'.revision = before := le_antisymm bound here.1
    have documents : world'.documents = world.history before := by
      unfold World.documents
      rw [same, moved.history before anchored.1]
    have describes := (here.2 same).2
    rw [documents] at describes
    have rebuilt := Index.rebuild_describes (world.history before) before
    simp only [execute, freshView]
    rw [documents]
    exact answer_congr describes.mirrors rebuilt.mirrors describes.tidy rebuilt.tidy query
  have reading : Follows execute Later (Keeping property) admits (fun value trace' world' => Later world world' ∧
      (world'.revision ≤ before → value = plan.eval (freshView (world.history before) before)) ∧
        ∃ asked, trace' = trace ++ asked ∧ ∀ event ∈ asked, ∃ query, event.command = .read memory query)
      (readPlan memory plan) trace world :=
    @Follows.lift Command Command.Reply _ World Fault execute Later (Keeping property) admits _ _ Query Query.Reply (Command.read memory)
      (fun _ found => found) (fun _ _ _ => rfl) (fun world' => world'.revision ≤ before)
      (fun _ _ moved bound => moved.revision.trans bound) (freshView (world.history before) before) world agree plan trace
  refine reading.mono ?_
  rintro value trace' world' ⟨moved, same, asked, grown, queries⟩
  refine ⟨⟨moved, ?_⟩, same⟩
  have silent : ownCommits asked = [] := by
    unfold ownCommits
    rw [filterMap_eq_nil_iff]
    intro event member
    obtain ⟨query, own⟩ := queries event member
    obtain ⟨command, found, state⟩ := event
    simp only at own
    subst own
    rfl
  rw [grown, ownCommits_append, silent, append_nil]

end Reading

section Effects

variable {documents : Documents}

section

variable (writes : Writes documents (writtenFacts planned))
include writes

theorem apply_remember_with
    (kept : ∀ fact ∈ planned, fact.idempotent = true → fact.document = none) :
    With documents ((remember (planned.filterMap Planned.entry)).apply (fun _ => true) documents)
      (writtenFacts planned) := by
  have entries : planned.filterMap Planned.entry = (writtenFacts planned).filterMap Planned.entry := by
    clear writes
    unfold writtenFacts
    induction planned with
    | nil => rfl
    | cons fact planned ih =>
      have rest := ih (forall_mem_cons.mp kept).2
      cases same : fact.idempotent with
      | true =>
        have none := kept fact mem_cons_self same
        simp [same, Planned.entry, none, rest]
      | false => simp [same, rest, filterMap_cons]
  have applied (id : String) :
      ((remember (planned.filterMap Planned.entry)).apply (fun _ => true) documents)[id]? =
        (((writtenFacts planned).filterMap Planned.entry).foldl
          (fun documents entry => documents.insert entry.1 entry.2) documents)[id]? := by
    simp [Transaction.apply, Transaction.inputs, deleted, entries]
  have ids : (((writtenFacts planned).filterMap Planned.entry).map Prod.fst) = (writtenFacts planned).map (·.id) := by
    have all : ∀ fact ∈ writtenFacts planned, ∃ parts, fact.document = some parts := fun fact member => by
      obtain ⟨parts, own, -⟩ := writes.document fact member
      exact ⟨parts, own⟩
    generalize writtenFacts planned = facts at all
    induction facts with
    | nil => rfl
    | cons fact facts ih =>
      obtain ⟨parts, own⟩ := all fact mem_cons_self
      rw [filterMap_cons]
      simp only [Planned.entry, own, Option.map_some, map_cons]
      exact congrArg _ (ih (forall_mem_cons.mp all).2)
  have distinct : (((writtenFacts planned).filterMap Planned.entry).map Prod.fst).Nodup := ids ▸ writes.distinct
  have found (id : String) := Table.getElem?_foldl_insert Prod.fst Prod.snd distinct documents id
  constructor
  · intro fact member
    obtain ⟨parts, own, -⟩ := writes.document fact member
    have listed : (fact.id, parts) ∈ (writtenFacts planned).filterMap Planned.entry :=
      mem_filterMap.mpr ⟨fact, member, by simp [Planned.entry, own]⟩
    have first := (find?_key_eq_some distinct fact.id (fact.id, parts)).mpr ⟨listed, rfl⟩
    rw [applied, found, first, own]
    rfl
  · intro id apart
    have absent : (((writtenFacts planned).filterMap Planned.entry).find? fun entry => decide (entry.1 = id)) = none := by
      rw [find?_eq_none]
      intro entry member same
      exact apart (ids ▸ mem_map.mpr ⟨entry, member, of_decide_eq_true same⟩)
    rw [applied, found, absent]
    rfl

theorem mem_storedStamps (member : fact ∈ writtenFacts planned) :
    (fact.id, fact.stamp) ∈ storedStamps (planned.filterMap Planned.entry) := by
  obtain ⟨parts, own, stamped⟩ := writes.document fact member
  refine mem_filterMap.mpr ⟨(fact.id, parts), mem_filterMap.mpr ⟨fact, (mem_filter.mp member).1, ?_⟩, ?_⟩
  · simp [Planned.entry, own]
  · simp [stamped]

theorem ShowsInStamps.followable
    (kept : ∀ fact ∈ planned, fact.idempotent = true → fact.document = none)
    (shows : ShowsInStamps documents (planned.filterMap Planned.entry)) :
    Followable documents (writtenFacts planned) where
  unhinted := by
    intro fact member tracked before id stamp known apart
    refine shows.unhinted _ (mem_storedStamps writes member) tracked before id stamp known ?_
    intro listed
    obtain ⟨entry, inside, same⟩ := mem_map.mp listed
    obtain ⟨other, planned', own⟩ := mem_filterMap.mp inside
    obtain ⟨parts, document, rfl⟩ := Option.map_eq_some_iff.mp own
    apply apart
    rw [← same]
    refine mem_map_of_mem (mem_filter.mpr ⟨planned', ?_⟩)
    cases idempotent : other.idempotent with
    | false => rfl
    | true =>
      rw [kept other planned' idempotent] at document
      simp at document
  tracked := by
    intro fact member by_ hint other listed same
    exact shows.tracked _ (mem_storedStamps writes member) by_ hint _ (mem_storedStamps writes listed) same

end

end Effects

section Remembering

variable {admits : Command → World → Prop} {property : World → Prop} {settings : WriteSettings}
  {inputs : List RememberInput} {now : Millis} {memory before : Nat} {world : World}
  {trace : List (Event Command Command.Reply World)}

section

variable (planning : PlannedIn settings inputs now state planned)
include planning

theorem PlannedIn.from_ :
    PlannedFrom state.documents (Index.rebuild state.documents state.revision) settings now inputs planned := by
  simpa using planAll_ok .nil planning

theorem PlannedIn.writes :
    Writes state.documents (writtenFacts planned) :=
  planning.from_.writes (Index.rebuild_mirrors state.documents state.revision)

theorem PlannedIn.idle :
    ∀ fact ∈ planned, fact.idempotent = true → fact.document = none := by
  intro fact member idempotent
  rcases planning.from_.fact member with kept | ⟨_, _, _, _, _, _, new⟩
  · exact kept.document
  · rw [new.idempotent] at idempotent
    simp at idempotent

end

/-- A call's only transaction writes its plan over the documents it was planned against. -/
structure WritesPlan (planned : List Planned) (state : World) (trace : List (Event Command Command.Reply World))
    (world : World) : Prop where
  only : ownCommits trace = [(.remember (planned.filterMap Planned.entry), state)]
  reached : state.revision + 1 ≤ world.revision
  past : world.history state.revision = state.documents
  written : world.history (state.revision + 1) =
    (remember (planned.filterMap Planned.entry)).apply (fun _ => true) state.documents

/-- What a remember has done when it returns: on success its plan, planned against the documents just before its only
transaction; nothing on an error, unless the error says that the transaction is durable. -/
def RememberPost (settings : WriteSettings) (inputs : List RememberInput) (now : Millis)
    (result : Except MemoryError (List Remembered)) (trace : List (Event Command Command.Reply World)) (world : World) :
    Prop :=
  match result with
  | .ok outcomes => ∃ planned state, outcomes = planned.map Planned.outcome ∧ PlannedIn settings inputs now state planned ∧
      ((ownCommits trace = [] ∧ writtenFacts planned = []) ∨ WritesPlan planned state trace world)
  | .error (.committed _) => True
  | .error _ => ownCommits trace = []

def AttemptPost (settings : WriteSettings) (inputs : List RememberInput) (now : Millis)
    (result : Except MemoryError (Option (List Remembered))) (trace : List (Event Command Command.Reply World))
    (world : World) : Prop :=
  match result with
  | .ok none => ownCommits trace = []
  | .ok (some outcomes) => RememberPost settings inputs now (.ok outcomes) trace world
  | .error error => RememberPost settings inputs now (.error error) trace world

theorem WritesPlan.later (writes : WritesPlan planned state trace world) (moved : Later world world') :
    WritesPlan planned state trace world' :=
  ⟨writes.only, writes.reached.trans moved.revision,
    (moved.history _ (Nat.le_of_succ_le writes.reached)).trans writes.past,
    (moved.history _ writes.reached).trans writes.written⟩

theorem RememberPost.later (post : RememberPost settings inputs now result trace world) (moved : Later world world') :
    RememberPost settings inputs now result trace world' := by
  unfold RememberPost at post ⊢
  split at post
  · obtain ⟨planned, state, same, planning, nothing | writes⟩ := post
    · exact ⟨planned, state, same, planning, .inl nothing⟩
    · exact ⟨planned, state, same, planning, .inr (writes.later moved)⟩
  · trivial
  · exact post

theorem ownCommit_change (transaction : Transaction) (revision : Nat) (found : Except MemoryError Bool) (state : World)
    (filled : ¬(transaction.inputs = [] ∧ transaction.deleted = [])) :
    ownCommit ⟨.change transaction revision, found, state⟩ =
      match found with
      | .ok true => some (transaction, state)
      | .error (.committed _) => some (transaction, state)
      | _ => none := by
  have full : (transaction.inputs.isEmpty && transaction.deleted.isEmpty) = false := by
    rw [← Bool.not_eq_true, Bool.and_eq_true, List.isEmpty_iff, List.isEmpty_iff]
    exact filled
  simp only [ownCommit, full, Bool.false_eq_true, if_false]
  cases found with
  | ok committed => cases committed <;> rfl
  | error error => cases error <;> rfl

theorem ownCommit_change_empty (transaction : Transaction) (revision : Nat) (found : Except MemoryError Bool) (state : World)
    (none' : transaction.inputs = [] ∧ transaction.deleted = []) :
    ownCommit ⟨.change transaction revision, found, state⟩ = none := by
  simp [ownCommit, none'.1, none'.2]

theorem ownCommit_unchanged {revision : Nat} {fault : Fault}
    (answered : ((changed world transaction revision fault).1 = .ok true → transaction.inputs = [] ∧ transaction.deleted = [] ∧ world.revision = revision) ∧ ∀ effect, (changed world transaction revision fault).1 ≠ .error (.committed effect)) :
    ownCommit ⟨.change transaction revision, (changed world transaction revision fault).1, world⟩ = none := by
  by_cases none' : transaction.inputs = [] ∧ transaction.deleted = []
  · exact ownCommit_change_empty _ _ _ _ none'
  · rw [ownCommit_change _ _ _ _ none']
    split
    · next yes => exact absurd ⟨(answered.1 yes).1, (answered.1 yes).2.1⟩ none'
    · next effect committed => exact absurd committed (answered.2 effect)
    · rfl

/-- A transaction that changes something: it is refused, it comes too late, or it commits at the revision it was planned
at, perhaps without reaching the live store whole. -/
theorem change_follows {transaction : Transaction} {revision : Nat} {next : Except MemoryError Bool → Code α}
    {post : α → List (Event Command Command.Reply World) → World → Prop}
    (filled : ¬(transaction.inputs = [] ∧ transaction.deleted = []))
    (keeps : ∀ state, Later world state → Keeping property state → state.revision = revision → admits (.change transaction state.revision) state → ∀ installed, property (state.commit transaction installed))
    (refused : ∀ state trace' error, Later world state → ownCommits trace' = ownCommits trace → (∀ effect, error ≠ .committed effect) → Follows execute Later (Keeping property) admits post (next (.error error)) trace' state)
    (stale : ∀ state trace', Later world state → state.revision ≠ revision → ownCommits trace' = ownCommits trace → Follows execute Later (Keeping property) admits post (next (.ok false)) trace' state)
    (committed : ∀ state trace', Later world state → state.revision = revision → admits (.change transaction state.revision) state → ownCommits trace' = ownCommits trace ++ [(transaction, state)] → Follows execute Later (Keeping property) admits post (next (.ok true)) trace' (state.commit transaction fun _ => true))
    (durable : ∀ state trace' installed, Later world state → state.revision = revision → admits (.change transaction state.revision) state → ownCommits trace' = ownCommits trace ++ [(transaction, state)] → Follows execute Later (Keeping property) admits post (next (.error (.committed "live publication"))) trace' (state.commit transaction installed)) :
    Follows execute Later (Keeping property) admits post (perform (.change transaction revision) >>= next) trace world := by
  intro state moved holds admitted fault
  have cases := changed_cases state transaction revision fault
  have keeping : Keeping property (changed state transaction revision fault).2 := by
    refine ⟨holds.1.changed _ revision fault, ?_⟩
    rcases cases with ⟨unchanged, -⟩ | ⟨same, -, installed, into, -⟩
    · rw [unchanged]
      exact holds.2
    · rw [into]
      exact keeps state moved holds same (same ▸ admitted) installed
  refine ⟨keeping, later_changed state transaction revision fault, ?_⟩
  simp only [execute] at *
  rcases cases with ⟨unchanged, late, answered⟩ | ⟨same, -, installed, into, ⟨yes, all⟩ | durably⟩
  · have silent := ownCommit_unchanged answered
    have still : ownCommits (trace ++ [⟨.change transaction revision,
        (changed state transaction revision fault).1, state⟩]) = ownCommits trace := by
      rw [ownCommits_append]
      simp [ownCommits, silent]
    rw [unchanged]
    generalize (changed state transaction revision fault).1 = found at late answered still ⊢
    match found with
    | .error error => exact refused state _ error moved still fun effect same => answered.2 effect (congrArg _ same)
    | .ok false => exact stale state _ moved (late rfl) still
    | .ok true => exact absurd ⟨(answered.1 rfl).1, (answered.1 rfl).2.1⟩ filled
  · subst all
    rw [into, yes]
    refine committed state _ moved same (same ▸ admitted) ?_
    rw [ownCommits_append]
    simp [ownCommits, ownCommit_change _ _ _ _ filled]
  · rw [into, durably]
    refine durable state _ installed moved same (same ▸ admitted) ?_
    rw [ownCommits_append]
    simp [ownCommits, ownCommit_change _ _ _ _ filled]

theorem settleRemember_follows (kept : Kept admits property)
    {post : List (Event Command Command.Reply World) → World → Prop} (state : World)
    (reached : before + 1 ≤ world.revision) (past : world.history before = state.documents)
    (written : world.history (before + 1) = (remember (planned.filterMap Planned.entry)).apply (fun _ => true) state.documents)
    (planning : PlannedIn settings inputs now state planned)
    (shows : ShowsInStamps state.documents (planned.filterMap Planned.entry))
    (rest : ∀ world' trace', ReadOnly world trace trace' world' → post trace' world') :
    Follows execute Later (Keeping property) admits (fun _ trace' world' => post trace' world') (do
      let after ← perform .coreRevision
      perform (.settle memory before after 1 (settleWritten (writtenFacts planned)))) trace world := by
  apply coreRevision_follows
  intro first moved _ second moved' sound _ fault
  have whole := moved.trans moved'
  have writes := planning.writes
  have idle := planning.idle
  have settles : (second.setIndex memory (settled (second.index memory) before first.revision 1
      (settleWritten (writtenFacts planned)))).Sound := by
    apply sound.1.settle moved'.revision
    intro own index updated describes applied
    rw [whole.history before (Nat.le_of_succ_le reached), past] at describes
    rw [own, whole.history (before + 1) reached, written]
    refine ⟨settleWritten_mirrors describes.mirrors writes (shows.followable writes idle)
      (apply_remember_with writes idle) applied, ?_⟩
    unfold settleWritten at applied
    split at applied
    · simp at applied
    · rw [Option.some.injEq, foldl_removePrevious] at applied
      rw [← applied]
      have tidy := describes.tidy.removeAll (removedEntries (writtenFacts planned))
      generalize index.removeAll (removedEntries (writtenFacts planned)) = current at tidy
      have folded : ∀ (facts : List Planned) (current : Index), current.Tidy →
          (facts.foldl (fun index fact => index.insert fact.id fact.stamp
            (settleLookup (writtenFacts planned) fact index)) current).Tidy := by
        intro facts
        induction facts with
        | nil => exact fun _ tidy => tidy
        | cons fact facts ih => exact fun current tidy => ih _ (tidy.insert _ _ _)
      exact folded _ current tidy
  refine ⟨⟨settles, kept.index _ _ _ sound.2⟩, later_settle second _ Nat.one_pos moved'.revision, ?_⟩
  apply rest
  exact (ReadOnly.start.step moved rfl).step (moved'.trans (later_settle second _ Nat.one_pos moved'.revision)) rfl

theorem PlannedIn.written_documents (planning : PlannedIn settings inputs now state planned)
    (none' : planned.filterMap Planned.entry = []) : writtenFacts planned = [] := by
  have writes := planning.writes
  rw [eq_nil_iff_forall_not_mem]
  intro fact member
  obtain ⟨parts, own, -⟩ := writes.document fact member
  have listed : (fact.id, parts) ∈ planned.filterMap Planned.entry :=
    mem_filterMap.mpr ⟨fact, (mem_filter.mp member).1, by simp [Planned.entry, own]⟩
  rw [none'] at listed
  exact absurd listed not_mem_nil

section

variable (kept : Kept admits property)
include kept

theorem commitPlanned_follows {planned : List Planned} (reached : before ≤ world.revision)
    (plan : world.revision ≤ before →
      (planAll settings now inputs []).eval (freshView (world.history before) before) = .ok planned)
    (quiet : ownCommits trace = []) :
    Follows execute Later (Keeping property) admits (AttemptPost settings inputs now) (commitPlanned memory before planned) trace
      world := by
  unfold commitPlanned
  intro state moved sound shows fault
  have after := later_changed state (.remember (planned.filterMap Planned.entry)) before fault
  have cases := changed_cases state (.remember (planned.filterMap Planned.entry)) before fault
  -- at the revision of the plan its documents are the current ones
  have here (same : state.revision = before) : PlannedIn settings inputs now state planned ∧
      state.documents = world.history before := by
    have documents : state.documents = world.history before := by
      unfold World.documents
      rw [same, moved.history before reached]
    refine ⟨?_, documents⟩
    unfold PlannedIn
    rw [documents, same]
    exact plan (same ▸ moved.revision)
  have keeps : Keeping property (changed state (.remember (planned.filterMap Planned.entry)) before fault).2 := by
    refine ⟨sound.1.changed _ before fault, ?_⟩
    rcases cases with ⟨unchanged, -⟩ | ⟨same, -, installed, committed, -⟩
    · rw [unchanged]
      exact sound.2
    · rw [committed]
      exact kept.remember installed sound.2 (here same).1 (same ▸ shows)
  refine ⟨keeps, after, ?_⟩
  simp only [execute] at *
  rcases cases with ⟨unchanged, -, answered⟩ | ⟨same, filled, installed, committed, ⟨yes, all⟩ | durable⟩
  · have silent := ownCommit_unchanged answered
    have still : ownCommits (trace ++ [⟨.change (.remember (planned.filterMap Planned.entry)) before,
        (changed state (.remember (planned.filterMap Planned.entry)) before fault).1, state⟩]) = [] := by
      rw [ownCommits_append, quiet]
      simp [ownCommits, silent]
    rw [unchanged]
    generalize (changed state (.remember (planned.filterMap Planned.entry)) before fault).1 = found at answered still ⊢
    match found with
    | .error (.committed effect) => exact absurd rfl (answered.2 effect)
    | .error (.invalid message) => exact still
    | .error (.conflict message) => exact still
    | .error (.concurrent message) => exact still
    | .error (.engine message) => exact still
    | .ok false => exact still
    | .ok true =>
      obtain ⟨none', -, same⟩ := answered.1 rfl
      have nothing := (here same).1.written_documents none'
      have skipped : (planned.filter fun fact => !fact.idempotent) = [] := nothing
      simp only [skipped, isEmpty_nil, Bool.not_true, Bool.false_eq_true, if_false]
      exact ⟨planned, state, rfl, (here same).1, .inl ⟨still, nothing⟩⟩
  · subst all
    obtain ⟨planning, documents⟩ := here same
    rw [committed, yes, commit_eq_write]
    have own : ownCommits (trace ++ [⟨.change (.remember (planned.filterMap Planned.entry)) before, .ok true, state⟩]) =
        [(.remember (planned.filterMap Planned.entry), state)] := by
      rw [ownCommits_append, quiet]
      simp [ownCommits, ownCommit_change _ _ _ _ filled]
    have written := state.write_history_new
      ((remember (planned.filterMap Planned.entry)).apply (fun _ => true) state.documents)
    have done : ∀ world' trace', ReadOnly _ _ trace' world' →
        AttemptPost settings inputs now (.ok (some (planned.map Planned.outcome))) trace' world' :=
      fun world' trace' reads => ⟨planned, state, rfl, planning, .inr ⟨reads.2.trans own, reads.1.revision,
        (reads.1.history _ (Nat.le_succ _)).trans (state.write_history_old _ (le_refl _)), (reads.1.history _ (le_refl _)).trans written⟩⟩
    have full : (planned.filterMap Planned.entry).isEmpty = false := by
      simpa [Transaction.inputs, deleted] using filled
    by_cases none' : writtenFacts planned = []
    · have skipped : (planned.filter fun fact => !fact.idempotent) = [] := none'
      simp only [skipped, isEmpty_nil, Bool.not_true, Bool.false_eq_true, if_false]
      exact done _ _ ReadOnly.start
    · have taken : (!(planned.filter fun fact => !fact.idempotent).isEmpty) = true := by
        simpa [writtenFacts] using none'
      show Follows execute Later (Keeping property) admits (AttemptPost settings inputs now)
        (if (!(planned.filter fun fact => !fact.idempotent).isEmpty) = true then (do
            let after ← perform .coreRevision
            perform (.settle memory before after (if (planned.filterMap Planned.entry).isEmpty then 0 else 1)
              (settleWritten (writtenFacts planned)))) >>= fun _ => pure (.ok (some (planned.map Planned.outcome)))
          else pure (.ok (some (planned.map Planned.outcome)))) _ _
      rw [if_pos taken, full, if_neg Bool.false_ne_true]
      apply Follows.bind
      apply settleRemember_follows kept state (by rw [write_revision, same]) ?_ ?_ planning (kept.shows _ _ (same ▸ shows))
      · intro world' trace' reads
        exact done world' trace' reads
      · rw [write_history_old _ _ (le_of_eq same.symm), documents, moved.history before reached]
      · rw [← same]
        exact written
  · rw [durable]
    exact trivial

theorem rememberAtRevision_follows (anchored : Anchored memory before world) (quiet : ownCommits trace = []) :
    Follows execute Later (Keeping property) admits (AttemptPost settings inputs now)
      (rememberAtRevision settings memory inputs now before) trace world := by
  unfold rememberAtRevision
  split
  · exact quiet
  apply indexRevision_follows
  intro first moved _
  have reads : ReadOnly world trace (trace ++ [⟨.indexRevision memory, (first.index memory).revision, first⟩]) first :=
    ReadOnly.start.step moved rfl
  split
  · exact reads.2.trans quiet
  apply Follows.bind
  refine (readPlan_follows (anchored.later moved) _).mono ?_
  rintro found trace' second ⟨more, plan⟩
  have still : ownCommits trace' = [] := more.2.trans (reads.2.trans quiet)
  cases found with
  | ok planned =>
    refine commitPlanned_follows kept ((anchored.later moved).later more.1).1 (fun bound => ?_) still
    rw [more.1.history before (anchored.later moved).1]
    exact (plan bound).symm
  | error error =>
    apply coreRevision_follows
    intro third moved' _
    have end_ : ownCommits (trace' ++ [⟨.coreRevision, third.revision, third⟩]) = [] := by
      rw [ownCommits_append, still]
      rfl
    split
    · exact end_
    · match error with
      | .committed _ => exact trivial
      | .invalid _ => exact end_
      | .conflict _ => exact end_
      | .concurrent _ => exact end_
      | .engine _ => exact end_

theorem rememberAttempts_follows (attempts : Nat) (quiet : ownCommits trace = []) :
    Follows execute Later (Keeping property) admits (RememberPost settings inputs now)
      (rememberAttempts settings memory inputs now attempts) trace world := by
  induction attempts generalizing trace world with
  | zero => exact quiet
  | succ attempts ih =>
    unfold rememberAttempts
    apply Follows.bind
    refine (planningRevision_follows kept).mono ?_
    rintro found trace' first ⟨reads, anchored⟩
    have still : ownCommits trace' = [] := reads.2.trans quiet
    cases found with
    | none => exact ih still
    | some before =>
      apply Follows.bind
      refine (rememberAtRevision_follows kept (anchored before rfl).2 still).mono ?_
      intro result trace'' second post
      match result with
      | .ok none => exact ih post
      | .ok (some outcomes) => exact post
      | .error error => exact post

theorem rememberMany_follows :
    Follows execute Later (Keeping property) admits (RememberPost settings inputs now) (rememberMany settings memory inputs now) []
      world := by
  unfold rememberMany
  split
  · exact rememberAttempts_follows kept _ rfl
  · exact rfl

end

end Remembering

end Warm.Memory
