import Warm.AuditQueue
import Warm.PlainCodec

/-! Audit delivery as a system of three parts: the journal of committed transactions, the effect
stream's file, and the process with its queue and its one drainer. Commits of other threads fall
anywhere between the drainer's steps; a crash takes the process and what was not synced. -/
namespace Warm.Audit

open List hiding after all flatten_concat head tail

open Bytes

/-- Where `flush_audit` stands. The delivery lease admits one drainer. -/
inductive Drainer where
  | idle
  | draining (target : EffectId)
  | delivered (target id : EffectId)
  deriving DecidableEq, Repr

structure Live where
  pending : List AuditIntent
  publishedLen : Nat
  drainer : Drainer
  deriving DecidableEq

/-- `live` is absent between a crash and the next open. -/
structure System where
  journal : List (List Mutation)
  file : StreamFile
  live : Option Live
  deriving DecidableEq

inductive OpenError where
  | stream (error : StreamError)
  | replay (error : ReplayError)
  deriving DecidableEq, Repr

inductive Step where
  | commit (mutations : List Mutation)
  | flush
  | deliver (faults : Faults)
  | acknowledge (appendFails : Bool)
  | crash (kept : Nat) (torn : Bytes)
  | reopen
  deriving DecidableEq

/-- A store just created: an empty journal and the stream's header, both synced. -/
def System.new : System := ⟨[], ⟨MAGIC, MAGIC.length⟩, none⟩

/-- Only the drainer acknowledges; every other transaction may commit intents with its changes. -/
def commitStep (config : Config) (system : System) (live : Live) (mutations : List Mutation) : System :=
  if (acknowledged mutations).isEmpty then
    match commit config system.journal live.pending mutations with
    | .ok (journal, pending) => { system with journal, live := some { live with pending } }
    | .error _ => system
  else system

/-- The start of `flush_audit`: the last intent pending now is its target. -/
def flushStep (live : Live) : Live :=
  match live.drainer with
  | .idle =>
    match live.pending.getLast?.bind AuditIntent.id with
    | some target => { live with drainer := .draining target }
    | none => live
  | _ => live

variable (crc32 : Bytes → UInt32)

/-- One turn of the drainer's loop up to the delivery. -/
def deliverStep (system : System) (live : Live) (faults : Faults) : System :=
  match live.drainer with
  | .draining target =>
    match live.pending.head? with
    | none => { system with live := some { live with drainer := .idle } }
    | some intent =>
      match (AuditEffectStream.mk system.file live.publishedLen).deliver crc32 intent faults, intent.id with
      | (stream, .ok ()), some id =>
        { system with
          file := stream.file
          live := some ⟨live.pending, stream.publishedLen, .delivered target id⟩ }
      | (stream, _), _ =>
        { system with file := stream.file, live := some ⟨live.pending, stream.publishedLen, .idle⟩ }
  | _ => system

/-- The acknowledgement's own commit, which ends the flush when it fails or has met the target. -/
def acknowledgeStep (config : Config) (system : System) (live : Live) (appendFails : Bool) : System :=
  match live.drainer with
  | .delivered target id =>
    match commit config system.journal live.pending [.auditAcknowledged id] with
    | .ok (journal, pending) =>
      if appendFails then { system with live := some { live with drainer := .idle } }
      else
        { system with
          journal
          live := some ⟨pending, live.publishedLen, if id = target then .idle else .draining target⟩ }
    | .error _ => { system with live := some { live with drainer := .idle } }
  | _ => system

/-- The file as a crash may leave it: whole records up to `kept`, at least the synced ones, then
some bytes of a torn one. -/
def crashFile (file : StreamFile) (kept : Nat) (torn : Bytes) : Option StreamFile :=
  if file.synced ≤ kept ∧ kept ≤ file.bytes.length ∧ wholeLength kept = kept ∧ torn.length < RECORD_SIZE then
    some { file with bytes := file.bytes.take kept ++ torn }
  else none

/-- Opening: the stream is inspected and repaired, the queue replayed from the journal. -/
def reopenStep (config : Config) (system : System) : Except OpenError System := do
  let stream ← (AuditEffectStream.fromFile crc32 system.file).mapError .stream
  let pending ← (replayQueue config system.journal).mapError .replay
  .ok { system with file := stream.file, live := some ⟨pending, stream.publishedLen, .idle⟩ }

/-- A step that cannot happen in the state leaves it; only an open can fail. -/
def step (config : Config) (system : System) : Step → Except OpenError System
  | .commit mutations => .ok (system.live.elim system (commitStep config system · mutations))
  | .flush => .ok { system with live := system.live.map flushStep }
  | .deliver faults => .ok (system.live.elim system (deliverStep crc32 system · faults))
  | .acknowledge appendFails => .ok (system.live.elim system (acknowledgeStep config system · appendFails))
  | .crash kept torn =>
    .ok ((crashFile system.file kept torn).elim system fun file => { system with file, live := none })
  | .reopen =>
    match system.live with
    | none => reopenStep crc32 config system
    | some _ => .ok system

def run (config : Config) (system : System) : List Step → Except OpenError System
  | [] => .ok system
  | first :: rest => do
    let next ← step crc32 config system first
    run config next rest

def Step.intents : Step → List AuditIntent
  | .commit mutations => committed mutations
  | _ => []

/-- The journal, the file and the process agree: the acknowledged intents are on disk, at most the
first pending one follows them, and what the drainer holds as delivered is synced. -/
structure Invariant (config : Config) (system : System) (front pending records : List AuditIntent)
    (torn : Bytes) : Prop where
  committed : committed system.journal.flatten = front ++ pending
  distinct : ((front ++ pending).map AuditIntent.id).Nodup
  acknowledged : (acknowledged system.journal.flatten).map some = front.map AuditIntent.id
  replays : replayQueue config system.journal = .ok pending
  queue : Queue pending
  kept : Kept crc32 system.file records torn (MAGIC.length + front.length * RECORD_SIZE)
  ahead : records = front ∨ ∃ head, pending.head? = some head ∧ records = front ++ [head]
  live : ∀ live, system.live = some live → live.pending = pending ∧
    ∀ target id, live.drainer = .delivered target id → ∃ head, pending.head? = some head ∧ head.id = some id ∧
      records = front ++ [head] ∧ system.file.synced = MAGIC.length + records.length * RECORD_SIZE

variable {crc32 : Bytes → UInt32} {config : Config} {system : System} {live : Live}
  {front pending records : List AuditIntent} {torn : Bytes}

theorem flatten_concat (journal : List (List Mutation)) (frame : List Mutation) :
    (journal ++ [frame]).flatten = journal.flatten ++ frame := by
  simp

theorem head?_append_of_head? (found : intents.head? = some head) (more : List AuditIntent) :
    (intents ++ more).head? = some head := by
  obtain ⟨rest, rfl⟩ := head?_eq_some_iff.mp found
  rfl

theorem Invariant.new : Invariant crc32 config System.new [] [] [] [] where
  committed := rfl
  distinct := nodup_nil
  acknowledged := rfl
  replays := rfl
  queue := Queue.nil
  kept := ⟨⟨rfl, by decide, by simp⟩, Nat.le_refl _, Nat.le_refl _⟩
  ahead := .inl rfl
  live := fun _ none => nomatch none

section

variable (inv : Invariant crc32 config system front pending records torn)
include inv

theorem Invariant.commitStep
    (running : system.live = some live) (mutations : List Mutation)
    (fresh : ((front ++ pending ++ Audit.committed mutations).map AuditIntent.id).Nodup) :
    ∃ more, Invariant crc32 config (commitStep config system live mutations) front (pending ++ more) records torn ∧
      (more = [] ∨ more = Audit.committed mutations) := by
  obtain ⟨same, drained⟩ := inv.live live running
  rw [Audit.commitStep]
  split
  next plain =>
    rcases outcome : commit config system.journal live.pending mutations with e | ⟨journal, after⟩
    · exact ⟨[], by rwa [append_nil], .inl rfl⟩
    · rw [same] at outcome
      obtain ⟨rfl, valid, moved⟩ := inv.queue.commit_ok outcome
      obtain ⟨taken, split, acks⟩ := advance_all_split moved
      rw [List.isEmpty_iff.mp plain] at acks
      obtain rfl := map_eq_nil_iff.mp acks
      obtain rfl : after = pending ++ Audit.committed mutations := split
      refine ⟨Audit.committed mutations, ⟨?_, ?_, ?_, ?_, ?_, inv.kept, ?_, ?_⟩, .inr rfl⟩
      · rw [flatten_concat, Audit.committed, filterMap_append]
        rw [← Audit.committed, inv.committed, append_assoc]
        rfl
      · rwa [← append_assoc]
      · rw [flatten_concat, Audit.acknowledged, filterMap_append]
        rw [← Audit.acknowledged, ← Audit.acknowledged, List.isEmpty_iff.mp plain, append_nil, inv.acknowledged]
      · rw [replayQueue_append inv.replays]
        exact inv.queue.replayFrame_eq valid moved
      · exact inv.queue.advance_all moved
      · rcases inv.ahead with level | ⟨head, found, one⟩
        · exact .inl level
        · exact .inr ⟨head, head?_append_of_head? found _, one⟩
      · rintro _ ⟨⟩
        refine ⟨rfl, fun target id phase => ?_⟩
        obtain ⟨head, found, rest⟩ := drained target id phase
        exact ⟨head, head?_append_of_head? found _, rest⟩
  next => exact ⟨[], by rwa [append_nil], .inl rfl⟩

theorem Invariant.flushStep :
    Invariant crc32 config { system with live := system.live.map flushStep } front pending records torn := by
  refine { inv with live := ?_ }
  intro next running
  obtain ⟨live, found, rfl⟩ := Option.map_eq_some_iff.mp running
  obtain ⟨same, drained⟩ := inv.live live found
  rw [Audit.flushStep]
  split
  · split
    · exact ⟨same, fun target id phase => nomatch phase⟩
    · exact ⟨same, drained⟩
  · exact ⟨same, drained⟩

theorem Invariant.head_fresh
    (found : pending.head? = some head) (old : AuditIntent) (member : old ∈ front) : old.id ≠ head.id := by
  have distinct := inv.distinct
  rw [map_append] at distinct
  have later : head.id ∈ pending.map AuditIntent.id :=
    mem_map_of_mem (mem_of_mem_head? found)
  exact fun same => (nodup_append.mp distinct).2.2 _ (mem_map_of_mem member) _ later same

theorem Invariant.delivered_eq
    (found : pending.head? = some head) : delivered records head = front ++ [head] := by
  rcases inv.ahead with rfl | ⟨other, same, rfl⟩
  · have absent : records.getLast? ≠ some head := by
      intro last
      exact inv.head_fresh found head (mem_of_getLast? last) rfl
    rw [delivered, if_neg absent]
  · obtain rfl : other = head := Option.some.inj (same.symm.trans found)
    rw [delivered, if_pos (by simp)]

theorem Invariant.last_known
    (found : pending.head? = some head) (last : AuditIntent) (final : records.getLast? = some last)
    (same : last.id = head.id) : last = head := by
  rcases inv.ahead with rfl | ⟨other, first, rfl⟩
  · exact absurd same (inv.head_fresh found last (mem_of_getLast? final))
  · rw [getLast?_concat] at final
    rw [← Option.some.inj final]
    exact Option.some.inj (first.symm.trans found)

theorem Invariant.deliverStep
    (running : system.live = some live) (faults : Faults) :
    ∃ after left, Invariant crc32 config (deliverStep crc32 system live faults) front pending after left := by
  obtain ⟨same, drained⟩ := inv.live live running
  rw [Audit.deliverStep]
  split
  next target draining =>
    rw [same]
    cases found : pending.head? with
    | none =>
      refine ⟨records, torn, { inv with live := ?_ }⟩
      rintro _ ⟨⟩
      exact ⟨rfl, fun target id phase => nomatch phase⟩
    | some head =>
      have identified := inv.queue.identified head (mem_of_mem_head? found)
      obtain ⟨id, own⟩ := Option.isSome_iff_exists.mp identified
      obtain ⟨after, left, kept, grown, synced⟩ := AuditEffectStream.deliver_kept
        ⟨system.file, live.publishedLen⟩ identified faults inv.kept (inv.last_known found)
      rw [inv.delivered_eq found] at grown synced
      have ahead : after = front ∨ ∃ head, pending.head? = some head ∧ after = front ++ [head] := by
        rcases grown with rfl | rfl
        · exact inv.ahead
        · exact .inr ⟨head, found, rfl⟩
      rcases outcome : (AuditEffectStream.mk system.file live.publishedLen).deliver crc32 head faults with
        ⟨stream, e | _⟩
      · rw [outcome] at kept
        simp only [outcome]
        refine ⟨after, left, { inv with kept, ahead, live := ?_ }⟩
        rintro _ ⟨⟩
        exact ⟨rfl, fun target id phase => nomatch phase⟩
      · rw [outcome] at kept synced
        obtain ⟨rfl, onDisk⟩ := synced rfl
        simp only [outcome, own]
        refine ⟨front ++ [head], left, { inv with kept, ahead, live := ?_ }⟩
        rintro _ ⟨⟩
        refine ⟨rfl, ?_⟩
        rintro _ _ ⟨⟩
        exact ⟨head, found, own, rfl, onDisk⟩
  next => exact ⟨records, torn, inv⟩

theorem Invariant.acknowledgeStep
    (running : system.live = some live) (appendFails : Bool) :
    ∃ front' pending', Invariant crc32 config (acknowledgeStep config system live appendFails) front' pending'
      records torn ∧ front' ++ pending' = front ++ pending := by
  obtain ⟨same, drained⟩ := inv.live live running
  have stopped : Invariant crc32 config { system with live := some { live with drainer := .idle } } front pending
      records torn := by
    refine { inv with live := ?_ }
    rintro _ ⟨⟩
    exact ⟨same, fun target id phase => nomatch phase⟩
  rw [Audit.acknowledgeStep]
  split
  next target id phase =>
    obtain ⟨head, found, own, rfl, onDisk⟩ := drained target id phase
    rcases outcome : commit config system.journal live.pending [.auditAcknowledged id] with e | ⟨journal, after⟩
    · exact ⟨front, pending, stopped, rfl⟩
    · rw [same] at outcome
      obtain ⟨rfl, valid, moved⟩ := inv.queue.commit_ok outcome
      obtain ⟨rest, rfl⟩ := head?_eq_some_iff.mp found
      obtain rfl : after = rest := by
        simpa [Audit.advance, own, eq_comm] using moved
      simp only
      split
      · exact ⟨front, head :: after, stopped, rfl⟩
      · refine ⟨front ++ [head], after, ⟨?_, ?_, ?_, ?_, inv.queue.advance_all moved, ?_, .inl rfl, ?_⟩, by simp⟩
        · rw [flatten_concat, Audit.committed, filterMap_append]
          rw [← Audit.committed, inv.committed]
          simp [intentOf]
        · have distinct := inv.distinct
          rwa [append_cons] at distinct
        · rw [flatten_concat, Audit.acknowledged, filterMap_append]
          rw [← Audit.acknowledged, map_append, inv.acknowledged]
          simp [acknowledgementOf, own]
        · rw [replayQueue_append inv.replays]
          exact inv.queue.replayFrame_eq valid moved
        · exact ⟨inv.kept.holds, by rw [onDisk], inv.kept.bounded⟩
        · rintro _ ⟨⟩
          refine ⟨rfl, fun target' id' phase' => ?_⟩
          simp only at phase'
          split at phase' <;> contradiction
  next => exact ⟨front, pending, inv, rfl⟩

end

theorem wholeLength_eq (whole : wholeLength n = n) (long : MAGIC.length ≤ n) :
    n = MAGIC.length + (n - MAGIC.length) / RECORD_SIZE * RECORD_SIZE := by
  have exact_ : (n - MAGIC.length) % RECORD_SIZE = 0 := by
    have short := Nat.mod_le (n - MAGIC.length) RECORD_SIZE
    simp only [wholeLength] at whole
    omega
  have parts := Nat.mod_add_div (n - MAGIC.length) RECORD_SIZE
  rw [exact_, Nat.zero_add, Nat.mul_comm] at parts
  omega

section

variable (inv : Invariant crc32 config system front pending records torn)
include inv

theorem Invariant.crashed (kept : Nat)
    (tail : Bytes) (survived : crashFile system.file kept tail = some file) :
    ∃ after, Invariant crc32 config { system with file, live := none } front pending after tail := by
  rw [crashFile] at survived
  split at survived
  next possible =>
    obtain ⟨synced, inside, whole, short⟩ := possible
    obtain rfl := Option.some.inj survived
    have bounded := inv.kept.bounded
    have grown := inv.kept.grown
    have size := inv.kept.holds.length
    have last := inv.kept.holds.short
    have boundary := wholeLength_eq whole (by omega)
    generalize (kept - MAGIC.length) / RECORD_SIZE = n at boundary
    subst boundary
    have enough : front.length ≤ n := by
      rw [recordSize_eq] at *
      omega
    have within : n ≤ records.length := by
      rw [recordSize_eq] at *
      omega
    refine ⟨records.take n, { inv with kept := ?_, ahead := ?_, live := fun _ none => nomatch none }⟩
    · refine ⟨(inv.kept.holds.take n within).appendTorn short, grown, ?_⟩
      rw [length_take, Nat.min_eq_left within]
      exact synced
    · rcases inv.ahead with rfl | ⟨head, found, rfl⟩
      · obtain rfl : n = records.length := by omega
        exact .inl take_length
      · rw [length_append, length_singleton] at within
        by_cases all : n = front.length
        · exact .inl (by rw [all, take_left])
        · refine .inr ⟨head, found, take_of_length_le ?_⟩
          rw [length_append, length_singleton]
          omega
  next => contradiction

theorem Invariant.reopenStep :
    ∃ next, reopenStep crc32 config system = .ok next ∧
      Invariant crc32 config next front pending records [] := by
  obtain ⟨stream, opened, kept⟩ := AuditEffectStream.fromFile_ok system.file inv.kept
  refine ⟨{ system with file := stream.file, live := some ⟨pending, stream.publishedLen, .idle⟩ }, ?_, ?_⟩
  · rw [Audit.reopenStep, opened, inv.replays]
    rfl
  · refine { inv with kept, live := ?_ }
    rintro _ ⟨⟩
    exact ⟨rfl, fun target id phase => nomatch phase⟩

theorem Invariant.step (next : Step)
    (fresh : ((front ++ pending ++ next.intents).map AuditIntent.id).Nodup) :
    ∃ system' front' pending' records' torn' more, Audit.step crc32 config system next = .ok system' ∧
      Invariant crc32 config system' front' pending' records' torn' ∧
      front' ++ pending' = front ++ pending ++ more ∧ (more = [] ∨ more = next.intents) := by
  cases next with
  | commit mutations =>
    cases running : system.live with
    | none => exact ⟨system, front, pending, records, torn, [], by simp [Audit.step, running], inv, by simp, .inl rfl⟩
    | some live =>
      obtain ⟨more, kept, grown⟩ := inv.commitStep running mutations fresh
      exact ⟨_, front, pending ++ more, records, torn, more, by simp [Audit.step, running], kept, by simp, grown⟩
  | flush => exact ⟨_, front, pending, records, torn, [], rfl, inv.flushStep, by simp, .inl rfl⟩
  | deliver faults =>
    cases running : system.live with
    | none => exact ⟨system, front, pending, records, torn, [], by simp [Audit.step, running], inv, by simp, .inl rfl⟩
    | some live =>
      obtain ⟨after, left, kept⟩ := inv.deliverStep running faults
      exact ⟨_, front, pending, after, left, [], by simp [Audit.step, running], kept, by simp, .inl rfl⟩
  | acknowledge appendFails =>
    cases running : system.live with
    | none => exact ⟨system, front, pending, records, torn, [], by simp [Audit.step, running], inv, by simp, .inl rfl⟩
    | some live =>
      obtain ⟨front', pending', kept, same⟩ := inv.acknowledgeStep running appendFails
      exact ⟨_, front', pending', records, torn, [], by simp [Audit.step, running], kept, by simp [same], .inl rfl⟩
  | crash kept tail =>
    cases survived : crashFile system.file kept tail with
    | none => exact ⟨system, front, pending, records, torn, [], by simp [Audit.step, survived], inv, by simp, .inl rfl⟩
    | some file =>
      obtain ⟨after, crashed⟩ := inv.crashed kept tail survived
      exact ⟨_, front, pending, after, tail, [], by simp [Audit.step, survived], crashed, by simp, .inl rfl⟩
  | reopen =>
    cases running : system.live with
    | none =>
      obtain ⟨system', opened, kept⟩ := inv.reopenStep
      exact ⟨system', front, pending, records, [], [], by simp [Audit.step, running, opened], kept, by simp, .inl rfl⟩
    | some live => exact ⟨system, front, pending, records, torn, [], by simp [Audit.step, running], inv, by simp, .inl rfl⟩

theorem Invariant.run (steps : List Step)
    (fresh : ((front ++ pending ++ steps.flatMap Step.intents).map AuditIntent.id).Nodup) :
    ∃ final front' pending' records' torn', Audit.run crc32 config system steps = .ok final ∧
      Invariant crc32 config final front' pending' records' torn' := by
  induction steps generalizing system front pending records torn with
  | nil => exact ⟨system, front, pending, records, torn, rfl, inv⟩
  | cons first rest ih =>
    rw [flatMap_cons, ← append_assoc, map_append] at fresh
    obtain ⟨next, front', pending', records', torn', more, ran, kept, grown, added⟩ :=
      inv.step first (nodup_append.mp fresh).1
    have later : ((front' ++ pending' ++ rest.flatMap Step.intents).map AuditIntent.id).Nodup := by
      refine fresh.sublist ?_
      rw [grown, map_append]
      refine List.Sublist.append (List.Sublist.map _ ?_) (List.Sublist.refl _)
      rcases added with rfl | rfl
      · rw [append_nil]
        exact sublist_append_left _ _
      · exact List.Sublist.refl _
    obtain ⟨final, front'', pending'', records'', torn'', finished, done⟩ := ih kept later
    exact ⟨final, front'', pending'', records'', torn'', by rw [Audit.run, ran]; exact finished, done⟩

end

/-- What delivery promises of a state: the repaired stream holds every acknowledged intent once, in
the order of their commits, and beyond them at most committed ones; the queue holds the rest. -/
structure ExactlyOnce (crc32 : Bytes → UInt32) (config : Config) (system : System) (acked pending records : List AuditIntent) : Prop where
  repaired : ∃ stream, AuditEffectStream.fromFile crc32 system.file = .ok stream ∧
    decodeRecords crc32 stream.file.bytes stream.file.bytes.length = .ok records
  commits : committed system.journal.flatten = acked ++ pending
  acknowledgements : (acknowledged system.journal.flatten).map some = acked.map AuditIntent.id
  ordered : acked <+: records
  nothingElse : records <+: acked ++ pending
  once : ∀ intent ∈ acked, records.count intent = 1
  queue : Queue pending
  replayed : replayQueue config system.journal = .ok pending
  memory : ∀ live, system.live = some live → live.pending = pending

theorem Invariant.exactlyOnce (inv : Invariant crc32 config system front pending records torn) :
    ExactlyOnce crc32 config system front pending records := by
  have ordered : front <+: records := by
    rcases inv.ahead with rfl | ⟨head, _, rfl⟩
    · exact prefix_rfl
    · exact prefix_append front [head]
  have nothingElse : records <+: front ++ pending := by
    rcases inv.ahead with rfl | ⟨head, found, rfl⟩
    · exact prefix_append records pending
    · obtain ⟨rest, rfl⟩ := head?_eq_some_iff.mp found
      exact ⟨rest, by simp⟩
  have distinct : records.Nodup := by
    have ids := inv.distinct.sublist (nothingElse.sublist.map AuditIntent.id)
    exact List.Nodup.of_map _ ids
  obtain ⟨stream, opened, kept⟩ := AuditEffectStream.fromFile_ok system.file inv.kept
  exact {
    repaired := ⟨stream, opened, kept.holds.decodeRecords_eq⟩
    commits := inv.committed
    acknowledgements := inv.acknowledged
    ordered
    nothingElse
    once := fun intent member => count_eq_one_of_mem distinct (ordered.subset member)
    queue := inv.queue
    replayed := inv.replays
    memory := fun live running => (inv.live live running).1 }

/-- Any interleaving of commits, deliveries, acknowledgements, failing calls, crashes and opens
delivers exactly once and in order, and every open succeeds. The effect ids are random, so those a
run draws are distinct. -/
theorem run_exactlyOnce (crc32 : Bytes → UInt32) (config : Config) (steps : List Step)
    (fresh : ((steps.flatMap Step.intents).map AuditIntent.id).Nodup) :
    ∃ final acked pending records, run crc32 config System.new steps = .ok final ∧
      ExactlyOnce crc32 config final acked pending records := by
  have start : Invariant crc32 config System.new [] [] [] [] := Invariant.new
  obtain ⟨final, front, pending, records, torn, ran, inv⟩ := start.run steps fresh
  exact ⟨final, front, pending, records, ran, inv.exactlyOnce⟩

/-- An intent whose first delivery is torn by a crash, and a second one committed meanwhile. -/
def tornDelivery : List Step :=
  let intent := sampleIntent .memorize
  [.reopen, .commit [.deleteDocument "a", .auditPending (intent 1)], .flush, .deliver ⟨false, false, some 60, false⟩,
    .commit [.auditPending (intent 2)], .crash 8 (List.replicate 60 1), .reopen, .flush, .deliver Faults.none,
    .acknowledge false, .deliver Faults.none, .crash 258 [], .reopen, .flush, .deliver Faults.none, .acknowledge false]

theorem run_exactlyOnce_torn : ∃ final acked pending records,
    run (fun data => UInt32.ofNat (PlainCodec.crc32 data)) ⟨64, 6, false, 0⟩ System.new tornDelivery = .ok final ∧
      ExactlyOnce (fun data => UInt32.ofNat (PlainCodec.crc32 data)) ⟨64, 6, false, 0⟩ final acked pending records :=
  run_exactlyOnce _ _ tornDelivery (by decide)

end Warm.Audit
