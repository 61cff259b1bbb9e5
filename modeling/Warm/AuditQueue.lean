import Warm.Checked
import Warm.Mutation
import Mathlib.Data.List.Nodup

/-! The queue of committed audit intents that await their acknowledgement: what a transaction may
do to it, how it is applied, and its replay from the journal in chunks of mutations. -/
namespace Warm.Audit

open List

theorem foldlM_cons_eq_some {step : β → α → Option β} {b : β} :
    (a :: items).foldlM step b = some c ↔ ∃ next, step b a = some next ∧ items.foldlM step next = some c := by
  rw [foldlM_cons, Option.bind_eq_bind, Option.bind_eq_some_iff]

abbrev EffectId := Octets 16

inductive AuditError where
  | noIdentity
  | backlogFull
  | duplicate
  | outOfOrder
  deriving DecidableEq, Repr

inductive ReplayError where
  | invalid (error : ValidationError)
  | audit (error : AuditError)
  deriving DecidableEq, Repr

def intentOf : Mutation → Option AuditIntent
  | .auditPending intent => some intent
  | _ => none

def acknowledgementOf : Mutation → Option EffectId
  | .auditAcknowledged id => some id
  | _ => none

def committed (mutations : List Mutation) : List AuditIntent := mutations.filterMap intentOf

/-- The ids the mutations acknowledge, in order. -/
def acknowledged (mutations : List Mutation) : List EffectId := mutations.filterMap acknowledgementOf

def isAudit (mutation : Mutation) : Bool := (intentOf mutation).isSome || (acknowledgementOf mutation).isSome

def identify (intent : AuditIntent) : Except AuditError EffectId :=
  match intent.id with
  | some id => .ok id
  | none => .error .noIdentity

/-- One mutation's effect on the queue of ids, if it is allowed. -/
def auditTransition (ids : List EffectId) : Mutation → Except AuditError (List EffectId)
  | .auditPending intent => do
    let id ← identify intent
    if ids.length < MAX_PENDING then
      if id ∈ ids then .error .duplicate else .ok (ids ++ [id])
    else .error .backlogFull
  | .auditAcknowledged id => if ids.head? = some id then .ok ids.tail else .error .outOfOrder
  | _ => .ok ids

def validateAuditTransitions (pending : List AuditIntent) (mutations : List Mutation) : Except AuditError Unit :=
  if mutations.any isAudit then do
    let ids ← pending.mapM identify
    let _ ← mutations.foldlM auditTransition ids
    .ok ()
  else .ok ()

/-- `apply_mutation` on the queue. -/
def applyAudit (pending : List AuditIntent) : Mutation → Except AuditError (List AuditIntent)
  | .auditPending intent => .ok (pending ++ [intent])
  | .auditAcknowledged id =>
    if (pending.head?.bind AuditIntent.id) = some id then .ok pending.tail else .error .outOfOrder
  | _ => .ok pending

/-- The batch on the queue: a mutation that fails leaves it and the rest still applies. -/
def applyAuditBatch (pending : List AuditIntent) (mutations : List Mutation) : List AuditIntent :=
  mutations.foldl (fun pending mutation => (applyAudit pending mutation).toOption.getD pending) pending

def REPLAY_CHUNK : Nat := 512

/-- `replay_mutations` on the queue, after the checks of every mutation of the chunk. -/
def replayMutations (config : Config) (pending : List AuditIntent) (chunk : List Mutation) :
    Except ReplayError (List AuditIntent) := do
  (chunk.forM (validateMutation config)).mapError .invalid
  (validateAuditTransitions pending chunk).mapError .audit
  (chunk.foldlM applyAudit pending).mapError .audit

/-- The decoding loop of one frame: mutations collect in `chunk` and apply when it is full, or at
the end. -/
def replayFrameFrom (config : Config) (chunk : List Mutation) (pending : List AuditIntent) :
    List Mutation → Except ReplayError (List AuditIntent)
  | [] => if chunk.isEmpty then .ok pending else replayMutations config pending chunk
  | mutation :: rest =>
    let chunk := chunk ++ [mutation]
    if chunk.length = REPLAY_CHUNK then do
      let pending ← replayMutations config pending chunk
      replayFrameFrom config [] pending rest
    else replayFrameFrom config chunk pending rest

def replayFrame (config : Config) (pending : List AuditIntent) (frame : List Mutation) :
    Except ReplayError (List AuditIntent) := replayFrameFrom config [] pending frame

/-- The queue a reopened store starts with: the replay of every frame of the journal. -/
def replayQueue (config : Config) (journal : List (List Mutation)) : Except ReplayError (List AuditIntent) :=
  journal.foldlM (replayFrame config) []

/-- `commit_payload_at_revision` on the journal and the queue, for an append that succeeds. -/
def commit (config : Config) (journal : List (List Mutation)) (pending : List AuditIntent)
    (mutations : List Mutation) : Except ReplayError (List (List Mutation) × List AuditIntent) := do
  (validateTransaction config mutations).mapError .invalid
  (validateAuditTransitions pending mutations).mapError .audit
  .ok (journal ++ [mutations], applyAuditBatch pending mutations)

/-- A queue of distinct ids within its bound. -/
structure Queue (pending : List AuditIntent) : Prop where
  identified : ∀ intent ∈ pending, intent.id.isSome = true
  distinct : (pending.map AuditIntent.id).Nodup
  bounded : pending.length ≤ MAX_PENDING

variable {pending after : List AuditIntent} {mutations : List Mutation}

/-- The queue as it is meant: an intent joins behind the others, an acknowledgement takes the
first one off. -/
def advance (pending : List AuditIntent) : Mutation → Option (List AuditIntent)
  | .auditPending intent =>
    if intent.id.isSome ∧ pending.length < MAX_PENDING ∧ intent.id ∉ pending.map AuditIntent.id then
      some (pending ++ [intent])
    else none
  | .auditAcknowledged id => if pending.head?.bind AuditIntent.id = some id then some pending.tail else none
  | _ => some pending

theorem advance_of_not_audit (plain : isAudit mutation = false) (pending : List AuditIntent) :
    advance pending mutation = some pending := by
  cases mutation <;> first | rfl | simp [isAudit, intentOf, acknowledgementOf] at plain

theorem advance_all_of_not_audit (plain : mutations.any isAudit = false) (pending : List AuditIntent) :
    mutations.foldlM advance pending = some pending := by
  induction mutations with
  | nil => rfl
  | cons mutation mutations ih =>
    simp only [any_cons, Bool.or_eq_false_iff] at plain
    rw [foldlM_cons, advance_of_not_audit plain.1]
    exact ih plain.2

theorem advance_cases (moved : advance pending mutation = some after) :
    (isAudit mutation = false ∧ after = pending) ∨
    (∃ intent, mutation = .auditPending intent ∧ intent.id.isSome = true ∧ pending.length < MAX_PENDING ∧
      intent.id ∉ pending.map AuditIntent.id ∧ after = pending ++ [intent]) ∨
    ∃ id intent, mutation = .auditAcknowledged id ∧ intent.id = some id ∧ pending = intent :: after := by
  cases mutation with
  | auditPending intent =>
    simp only [advance] at moved
    split at moved
    next allowed => exact .inr (.inl ⟨intent, rfl, allowed.1, allowed.2.1, allowed.2.2, (Option.some.inj moved).symm⟩)
    next => contradiction
  | auditAcknowledged id =>
    simp only [advance] at moved
    split at moved
    next first =>
      obtain ⟨intent, found, same⟩ := Option.bind_eq_some_iff.mp first
      obtain ⟨rest, rfl⟩ := head?_eq_some_iff.mp found
      obtain rfl := Option.some.inj moved
      exact .inr (.inr ⟨id, intent, rfl, same, rfl⟩)
    next => contradiction
  | _ => exact .inl ⟨rfl, (Option.some.inj moved).symm⟩

theorem Queue.nil : Queue [] := ⟨by simp, by simp, by decide⟩

theorem Queue.advance (queue : Queue pending) (moved : Audit.advance pending mutation = some after) :
    Queue after := by
  rcases advance_cases moved with ⟨_, rfl⟩ | ⟨intent, rfl, identified, room, fresh, rfl⟩ | ⟨id, intent, rfl, _, rfl⟩
  · exact queue
  · refine ⟨?_, ?_, ?_⟩
    · exact forall_mem_append.mpr ⟨queue.identified, forall_mem_singleton.mpr identified⟩
    · rw [map_append, map_singleton]
      exact nodup_append.mpr ⟨queue.distinct, nodup_singleton _, by
        intro a old b new
        rw [mem_singleton.mp new]
        exact fun same => fresh (same ▸ old)⟩
    · rw [length_append, length_singleton]
      exact room
  · refine ⟨(forall_mem_cons.mp queue.identified).2, ?_, ?_⟩
    · exact (nodup_cons.mp queue.distinct).2
    · exact Nat.le_of_succ_le queue.bounded

theorem Queue.advance_all (queue : Queue pending) (moved : mutations.foldlM Audit.advance pending = some after) :
    Queue after := by
  induction mutations generalizing pending with
  | nil =>
    obtain rfl := Option.some.inj moved
    exact queue
  | cons mutation mutations ih =>
    obtain ⟨next, first, rest⟩ := foldlM_cons_eq_some.mp moved
    exact ih (queue.advance first) rest

def ids (pending : List AuditIntent) : List EffectId := pending.filterMap AuditIntent.id

section

variable (queue : Queue pending)
include queue

theorem Queue.identifies : pending.mapM identify = .ok (ids pending) ∧ (ids pending).map some = pending.map AuditIntent.id := by
  have identified := queue.identified
  clear queue
  induction pending with
  | nil => exact ⟨rfl, rfl⟩
  | cons intent pending ih =>
    obtain ⟨id, found⟩ := Option.isSome_iff_exists.mp (identified intent (mem_cons_self ..))
    obtain ⟨mapped, rest⟩ := ih (forall_mem_cons.mp identified).2
    constructor
    · simp only [mapM_cons, identify, found, mapped, ids, filterMap_cons]
      rfl
    · rw [map_cons, ← rest, ids, filterMap_cons, found]
      rfl

theorem Queue.mapM_identify : pending.mapM identify = .ok (ids pending) := queue.identifies.1

theorem Queue.ids_some : (ids pending).map some = pending.map AuditIntent.id := queue.identifies.2

theorem Queue.auditTransition_eq (mutation : Mutation) :
    (auditTransition (ids pending) mutation).toOption = (Audit.advance pending mutation).map ids := by
  cases mutation with
  | auditPending intent =>
    have size : (ids pending).length = pending.length := by
      rw [← length_map some, queue.ids_some, length_map]
    have listed (id : EffectId) : id ∈ ids pending ↔ some id ∈ pending.map AuditIntent.id := by
      rw [← queue.ids_some]
      simp
    cases found : intent.id with
    | none => simp [auditTransition, identify, found, Audit.advance, bind, Except.bind, Except.toOption]
    | some id =>
      by_cases room : pending.length < MAX_PENDING
      · by_cases known : some id ∈ pending.map AuditIntent.id
        · simp [auditTransition, identify, found, Audit.advance, bind, Except.bind, Except.toOption, size, room,
            listed, known]
        · have joined : ids (pending ++ [intent]) = ids pending ++ [id] := by simp [ids, found]
          simp [auditTransition, identify, found, Audit.advance, bind, Except.bind, Except.toOption, size, room,
            listed, known, joined]
      · simp [auditTransition, identify, found, Audit.advance, bind, Except.bind, Except.toOption, size, room]
  | auditAcknowledged id =>
    cases pending with
    | nil => rfl
    | cons intent pending =>
      obtain ⟨own, found⟩ := Option.isSome_iff_exists.mp (queue.identified intent (mem_cons_self ..))
      by_cases same : own = id
      · simp [auditTransition, Audit.advance, ids, found, same, Except.toOption]
      · simp [auditTransition, Audit.advance, ids, found, same, Except.toOption]
  | _ => rfl

theorem Queue.foldlM_auditTransition (mutations : List Mutation) :
    (mutations.foldlM auditTransition (ids pending)).toOption = (mutations.foldlM Audit.advance pending).map ids := by
  induction mutations generalizing pending with
  | nil => rfl
  | cons mutation mutations ih =>
    have first := queue.auditTransition_eq mutation
    rw [foldlM_cons, foldlM_cons]
    cases moved : Audit.advance pending mutation with
    | none =>
      rw [moved] at first
      rcases outcome : auditTransition (ids pending) mutation with e | next
      · rfl
      · rw [outcome] at first
        contradiction
    | some after =>
      rw [moved] at first
      rcases outcome : auditTransition (ids pending) mutation with e | next
      · rw [outcome] at first
        contradiction
      · rw [outcome] at first
        obtain rfl : next = ids after := Option.some.inj first
        exact ih (queue.advance moved)

theorem Queue.validate_iff (mutations : List Mutation) :
    validateAuditTransitions pending mutations = .ok () ↔
      ∃ after, mutations.foldlM Audit.advance pending = some after := by
  rw [validateAuditTransitions]
  cases audits : mutations.any isAudit with
  | false => simp [advance_all_of_not_audit audits]
  | true =>
    have fold := queue.foldlM_auditTransition mutations
    rw [if_pos rfl, queue.mapM_identify]
    rcases outcome : mutations.foldlM auditTransition (ids pending) with e | next
    · rw [outcome] at fold
      cases moved : mutations.foldlM Audit.advance pending with
      | none =>
        simp only [reduceCtorEq, exists_const, iff_false]
        intro ok
        simp [bind, Except.bind, outcome] at ok
      | some after =>
        rw [moved] at fold
        contradiction
    · rw [outcome] at fold
      cases moved : mutations.foldlM Audit.advance pending with
      | none =>
        rw [moved] at fold
        contradiction
      | some after => simp [bind, Except.bind, outcome]

end

theorem applyAudit_of_advance (moved : advance pending mutation = some after) :
    applyAudit pending mutation = .ok after := by
  cases mutation with
  | auditPending intent =>
    simp only [advance] at moved
    split at moved
    · rw [applyAudit, Option.some.inj moved]
    · contradiction
  | auditAcknowledged id =>
    simp only [advance] at moved
    split at moved
    next first => rw [applyAudit, if_pos first, Option.some.inj moved]
    next => contradiction
  | _ => exact congrArg Except.ok (Option.some.inj moved)

theorem foldlM_applyAudit (moved : mutations.foldlM advance pending = some after) :
    mutations.foldlM applyAudit pending = .ok after := by
  induction mutations generalizing pending with
  | nil => exact congrArg Except.ok (Option.some.inj moved)
  | cons mutation mutations ih =>
    obtain ⟨next, first, rest⟩ := foldlM_cons_eq_some.mp moved
    rw [foldlM_cons, applyAudit_of_advance first]
    exact ih rest

theorem applyAuditBatch_eq (moved : mutations.foldlM advance pending = some after) :
    applyAuditBatch pending mutations = after := by
  induction mutations generalizing pending with
  | nil => exact Option.some.inj moved
  | cons mutation mutations ih =>
    obtain ⟨next, first, rest⟩ := foldlM_cons_eq_some.mp moved
    rw [applyAuditBatch, foldl_cons, applyAudit_of_advance first]
    exact ih rest

theorem forM_ok_iff (check : α → Except ε Unit) (items : List α) :
    items.forM check = .ok () ↔ ∀ item ∈ items, check item = .ok () := by
  induction items with
  | nil => simp [List.forM, pure, Except.pure]
  | cons item items ih =>
    change (check item >>= fun _ => items.forM check) = _ ↔ _
    rw [forall_mem_cons]
    rcases outcome : check item with e | _
    · simp [bind, Except.bind]
    · simpa [bind, Except.bind] using ih

theorem Queue.replayMutations_eq (queue : Queue pending)
    (valid : ∀ mutation ∈ mutations, validateMutation config mutation = .ok ())
    (moved : mutations.foldlM Audit.advance pending = some after) :
    replayMutations config pending mutations = .ok after := by
  rw [replayMutations, (forM_ok_iff _ mutations).mpr valid, (queue.validate_iff mutations).mpr ⟨after, moved⟩,
    foldlM_applyAudit moved]
  rfl

theorem Queue.replayFrameFrom_eq (queue : Queue pending) (chunk : List Mutation)
    (valid : ∀ mutation ∈ chunk ++ mutations, validateMutation config mutation = .ok ())
    (moved : (chunk ++ mutations).foldlM Audit.advance pending = some after) :
    replayFrameFrom config chunk pending mutations = .ok after := by
  induction mutations generalizing chunk pending with
  | nil =>
    rw [append_nil] at valid moved
    rw [replayFrameFrom]
    split
    next empty =>
      rw [List.isEmpty_iff.mp empty] at moved
      exact congrArg Except.ok (Option.some.inj moved)
    next => exact queue.replayMutations_eq valid moved
  | cons mutation mutations ih =>
    rw [append_cons] at valid moved
    rw [replayFrameFrom]
    split
    next =>
      rw [foldlM_append, Option.bind_eq_bind, Option.bind_eq_some_iff] at moved
      obtain ⟨next, first, rest⟩ := moved
      rw [queue.replayMutations_eq (forall_mem_append.mp valid).1 first]
      exact ih (queue.advance_all first) [] (forall_mem_append.mp valid).2 rest
    next => exact ih queue (chunk ++ [mutation]) valid moved

theorem Queue.replayFrame_eq (queue : Queue pending)
    (valid : ∀ mutation ∈ mutations, validateMutation config mutation = .ok ())
    (moved : mutations.foldlM Audit.advance pending = some after) :
    replayFrame config pending mutations = .ok after :=
  queue.replayFrameFrom_eq [] valid moved

theorem replayQueue_append (replayed : replayQueue config journal = .ok pending) (frame : List Mutation) :
    replayQueue config (journal ++ [frame]) = replayFrame config pending frame := by
  rw [replayQueue] at replayed
  rw [replayQueue, foldlM_append, replayed]
  change (replayFrame config pending frame >>= pure) = _
  rw [bind_pure]

theorem Queue.commit_ok (queue : Queue pending)
    (done : commit config journal pending mutations = .ok (journal', after)) :
    journal' = journal ++ [mutations] ∧ (∀ mutation ∈ mutations, validateMutation config mutation = .ok ()) ∧
      mutations.foldlM Audit.advance pending = some after := by
  obtain ⟨_, checked, done⟩ := bind_eq_ok.mp done
  obtain ⟨_, audited, done⟩ := bind_eq_ok.mp done
  obtain ⟨rfl, rfl⟩ := Prod.mk.inj (Except.ok.inj done)
  obtain ⟨after, moved⟩ := (queue.validate_iff mutations).mp (mapError_eq_ok.mp audited)
  obtain ⟨_, -, valid⟩ := bind_eq_ok.mp (mapError_eq_ok.mp checked)
  refine ⟨rfl, (forM_ok_iff _ mutations).mp valid, ?_⟩
  rw [applyAuditBatch_eq moved, moved]

theorem advance_all_split (moved : mutations.foldlM advance pending = some after) :
    ∃ taken, taken ++ after = pending ++ committed mutations ∧
      taken.map AuditIntent.id = (acknowledged mutations).map some := by
  induction mutations generalizing pending with
  | nil =>
    obtain rfl := Option.some.inj moved
    exact ⟨[], by simp [committed], rfl⟩
  | cons mutation mutations ih =>
    obtain ⟨next, first, rest⟩ := foldlM_cons_eq_some.mp moved
    obtain ⟨taken, split, acks⟩ := ih rest
    rcases advance_cases first with ⟨plain, rfl⟩ | ⟨intent, rfl, _, _, _, rfl⟩ | ⟨id, intent, rfl, own, rfl⟩
    · simp only [isAudit, Bool.or_eq_false_iff, Option.isSome_eq_false_iff, Option.isNone_iff_eq_none] at plain
      refine ⟨taken, ?_, ?_⟩
      · rw [split, committed, committed, filterMap_cons, plain.1]
      · rw [acks, acknowledged, acknowledged, filterMap_cons, plain.2]
    · refine ⟨taken, ?_, ?_⟩
      · rw [split, append_assoc]
        rfl
      · exact acks
    · refine ⟨intent :: taken, ?_, ?_⟩
      · rw [cons_append, split]
        rfl
      · rw [map_cons, acks, own]
        rfl

/-- An intent of a given operation with every byte of its identity `n`. -/
def sampleIntent (op : AuditOp) (n : UInt8) : AuditIntent :=
  ⟨⟨0, op, ⟨List.replicate 32 n, rfl⟩, ⟨List.replicate 64 0, rfl⟩, some ⟨List.replicate 16 n, rfl⟩⟩⟩

end Warm.Audit
