import Warm.Idempotency

/-! Runs of requests under idempotency keys. A begin reads the clock, and takes the lock later and in any order; a guard
completes or goes away at any time. The invariant ties the records to the guards that are out and to the log of what
happened, from which a key's record is seen to be that of the last request that ran under it. -/
namespace Warm.Server

open KeyedTotals List
open Prod (fst snd)

/-- What the records, the queue and the byte count say of each other. -/
structure Inner.Valid (capacity maxBytes clock : Nat) (inner : Inner) : Prop where
  counted : inner.records.entries.length ≤ capacity
  accounted : inner.bodyBytes = total Record.bytes inner.records
  within : inner.bodyBytes ≤ maxBytes
  queued : ∀ key, key ∈ inner.completed.map snd ↔
    ∃ record, inner.records.lookup key = some record ∧ record.state ≠ .running
  once : (inner.completed.map snd).Nodup
  ordered : (inner.completed.map fst).Pairwise (· ≤ ·)
  past : ∀ entry ∈ inner.completed, entry.1 ≤ clock

namespace Inner

variable {capacity maxBytes clock : Nat} {inner : Inner}

theorem empty_valid : Valid capacity maxBytes clock .empty where
  counted := Nat.zero_le _
  accounted := rfl
  within := Nat.zero_le _
  queued := by simp [Inner.empty]
  once := nodup_nil
  ordered := List.Pairwise.nil
  past := by simp [Inner.empty]

theorem Valid.later (valid : inner.Valid capacity maxBytes clock) (after : clock ≤ clock') :
    inner.Valid capacity maxBytes clock' :=
  { valid with past := fun entry member => Nat.le_trans (valid.past entry member) after }

theorem remove_ok (accounted : inner.bodyBytes = total Record.bytes inner.records) (key : Key) :
    inner.remove key = some { inner with
      records := inner.records.erase key
      bodyBytes := total Record.bytes (inner.records.erase key) } := by
  cases found : inner.records.lookup key with
  | none => simp [remove, found, erase_absent found, accounted]
  | some record =>
    have shares := total_erase Record.bytes found
    obtain ⟨fingerprint, state⟩ := record
    cases state with
    | done response =>
      simp only [Record.bytes] at shares
      have covered : response.allocatedBytes ≤ inner.bodyBytes := by omega
      simp only [remove, found, if_pos covered, Option.some.injEq, Inner.mk.injEq, true_and]
      omega
    | running | unreplayable =>
      simp only [Record.bytes] at shares
      simp only [remove, found, Option.some.injEq, Inner.mk.injEq, true_and]
      omega

theorem total_erase_le (records : AList fun _ : Key => Record) (key : Key) :
    total Record.bytes (records.erase key) ≤ total Record.bytes records := by
  cases found : records.lookup key with
  | none => rw [erase_absent found]
  | some record =>
    have := total_erase Record.bytes found
    omega

theorem Valid.pop (valid : Valid capacity maxBytes clock { inner with completed := (created, key) :: rest }) :
    Valid capacity maxBytes clock
      ⟨inner.records.erase key, rest, total Record.bytes (inner.records.erase key)⟩ where
  counted := Nat.le_trans (size_erase_le _ _) valid.counted
  accounted := rfl
  within := Nat.le_trans (total_erase_le _ _) (valid.accounted ▸ valid.within)
  queued := by
    intro other
    have once := nodup_cons.mp valid.once
    have queued := valid.queued other
    simp only [map_cons, mem_cons] at queued
    by_cases same : other = key
    · subst same
      simp [AList.lookup_erase, once.1]
    · rw [AList.lookup_erase_ne same, ← queued, or_iff_right same]
  once := (nodup_cons.mp valid.once).2
  ordered := (pairwise_cons.mp valid.ordered).2
  past := (forall_mem_cons.mp valid.past).2

theorem expire_ok (ttl now : Nat) : ∀ inner : Inner, Valid capacity maxBytes clock { inner with completed := queue } →
      ∃ next dropped, inner.expire ttl now queue = some next ∧ next.Valid capacity maxBytes clock ∧
        queue = dropped ++ next.completed ∧ (∀ entry ∈ dropped, ttl ≤ now - entry.1) ∧
        ∀ key, next.records.lookup key =
          if key ∈ dropped.map snd then none else inner.records.lookup key := by
  induction queue with
  | nil => exact fun inner valid => ⟨_, [], rfl, valid, rfl, by simp, by simp⟩
  | cons front rest ih =>
    intro inner valid
    obtain ⟨created, expired⟩ := front
    by_cases old : now - created ≥ ttl
    · obtain ⟨next, dropped, ran, kept, split, aged, found⟩ := ih
        { inner with records := inner.records.erase expired, bodyBytes := total Record.bytes (inner.records.erase expired) }
        valid.pop
      refine ⟨next, (created, expired) :: dropped, ?_, kept, by rw [split, cons_append], ?_, ?_⟩
      · have accounted : inner.bodyBytes = total Record.bytes inner.records := valid.accounted
        rw [expire, if_pos old, remove_ok accounted, Option.bind_some]
        exact ran
      · exact forall_mem_cons.mpr ⟨old, aged⟩
      · intro key
        rw [found key, map_cons]
        by_cases same : key = expired
        · subst same
          simp [AList.lookup_erase]
        · rw [AList.lookup_erase_ne same]
          simp only [mem_cons, same, false_or]
    · exact ⟨_, [], by rw [expire, if_neg old], valid, rfl, by simp, by simp⟩

section

variable (valid : inner.Valid capacity maxBytes clock)
include valid

theorem Valid.add (absent : inner.records.lookup key = none)
    (room : inner.records.entries.length < capacity) (fingerprint : Fingerprint) :
    Valid capacity maxBytes clock { inner with records := inner.records.insert key ⟨fingerprint, .running⟩ } where
  __ := valid
  counted := by rw [size_insert, erase_absent absent]; exact room
  accounted := by
    rw [total_insert, erase_absent absent]
    exact valid.accounted.trans (Nat.zero_add _).symm
  queued := by
    intro other
    rw [valid.queued other]
    by_cases same : other = key
    · subst same
      simp [absent, AList.lookup_insert]
    · rw [AList.lookup_insert_ne same]

theorem Valid.release (found : inner.records.lookup key = some record)
    (running : record.state = .running) :
    Valid capacity maxBytes clock { inner with records := inner.records.erase key } where
  __ := valid
  counted := Nat.le_trans (size_erase_le _ _) valid.counted
  accounted := by
    have shares := total_erase Record.bytes found
    have none : record.bytes = 0 := by rw [Record.bytes, running]
    have := valid.accounted
    change inner.bodyBytes = total Record.bytes (inner.records.erase key)
    omega
  queued := by
    intro other
    rw [valid.queued other]
    by_cases same : other = key
    · subst same
      simp [found, running, AList.lookup_erase]
    · rw [AList.lookup_erase_ne same]

theorem Valid.settle (found : inner.records.lookup key = some record)
    (running : record.state = .running) (settled : state ≠ .running)
    (adds : (⟨record.fingerprint, state⟩ : Record).bytes = bytes) (fits : inner.bodyBytes + bytes ≤ maxBytes) :
    Valid capacity maxBytes clock
      { records := inner.records.insert key { record with state }
        completed := inner.completed ++ [(clock, key)]
        bodyBytes := inner.bodyBytes + bytes } where
  counted := by
    have := size_erase found
    rw [size_insert, this]
    exact valid.counted
  accounted := by
    have shares := total_erase Record.bytes found
    have none : record.bytes = 0 := by rw [Record.bytes, running]
    have := valid.accounted
    change inner.bodyBytes + bytes = total Record.bytes (inner.records.insert key ⟨record.fingerprint, state⟩)
    rw [total_insert, adds]
    omega
  within := fits
  queued := by
    intro other
    rw [map_append, mem_append, valid.queued other]
    by_cases same : other = key
    · subst same
      simp [AList.lookup_insert, settled]
    · rw [AList.lookup_insert_ne same]
      simp [same]
  once := by
    rw [map_append, nodup_append]
    refine ⟨valid.once, by simp, ?_⟩
    intro queued member other same equal
    simp only [map_cons, map_nil, mem_singleton] at same
    subst same equal
    obtain ⟨other, again, idle⟩ := (valid.queued _).mp member
    rw [found] at again
    exact idle (Option.some.inj again ▸ running)
  ordered := by
    rw [map_append, pairwise_append]
    refine ⟨valid.ordered, by simp, ?_⟩
    intro created member now same
    simp only [map_cons, map_nil, mem_singleton] at same
    subst same
    obtain ⟨entry, listed, rfl⟩ := mem_map.mp member
    exact valid.past entry listed
  past := by
    intro entry member
    rcases mem_append.mp member with member | member
    · exact valid.past entry member
    · rw [mem_singleton.mp member]

end

end Inner

/-- What a begin with old records gone can answer. -/
inductive Idempotency.Admits (store : Idempotency) (id : Key) (fingerprint : Fingerprint) (inner : Inner) :
    Except ApiError Begin → Inner → Prop where
  | refused (error : ApiError) : Admits store id fingerprint inner (.error error) inner
  | replayed {response : StoredResponse} (found : inner.records.lookup id = some ⟨fingerprint, .done response⟩) :
      Admits store id fingerprint inner (.ok (.replay response)) inner
  | proceeds (absent : inner.records.lookup id = none) (room : inner.records.entries.length < store.capacity) :
      Admits store id fingerprint inner (.ok (.proceed id))
        { inner with records := inner.records.insert id ⟨fingerprint, .running⟩ }

theorem Idempotency.admit_admits (store : Idempotency) (id : Key) (fingerprint : Fingerprint) (now : Nat)
    (inner : Inner) :
    store.Admits id fingerprint inner (store.admission id fingerprint now inner).1 (store.admission id fingerprint now inner).2 := by
  unfold admission
  split
  next record found =>
    split
    next => exact .refused _
    next same =>
      obtain ⟨known, state⟩ := record
      obtain rfl : known = fingerprint := Decidable.not_not.mp same
      cases state with
      | done response => exact .replayed found
      | running => exact .refused _
      | unreplayable => exact .refused _
  next absent =>
    split
    next => exact .refused _
    next room => exact .proceeds absent (Nat.lt_of_not_le room)

/-- A request that read the clock and waits for the lock. -/
structure Arrival where
  key : Key
  fingerprint : Fingerprint
  time : Nat

/-- What happened under the lock, with its time: that of a begin is the one it read before. -/
inductive Happening where
  | began (time : Nat) (key : Key) (fingerprint : Fingerprint) (answer : Except ApiError Begin)
  | completed (time : Nat) (key : Key) (response : StoredResponse)
  | dropped (time : Nat) (key : Key)

namespace Happening

/-- When a happening settles a key's request for a time to live. -/
def settles (key : Key) : Happening → Option Nat
  | .completed time done response => if done = key ∧ response.retryable = false then some time else none
  | .dropped time done => if done = key then some time else none
  | .began .. => none

/-- A guard of the key comes out, completes or goes away. -/
def moves (key : Key) : Happening → Bool
  | .began _ id _ (.ok (.proceed _)) => id = key
  | .began .. => false
  | .completed _ done _ => done = key
  | .dropped _ done => done = key

/-- A begin late enough for what was settled at the time to be gone. -/
def outlives (ttl settled : Nat) : Happening → Prop
  | .began time _ _ _ => ttl ≤ time - settled
  | _ => False

end Happening

/-- The records, the requests on their way, the keys whose guards are out, and what happened, the latest first. -/
structure Requests where
  clock : Nat
  store : Idempotency
  arrived : List Arrival
  guards : List Key
  log : List Happening

inductive Move where
  | tick (elapsed : Nat)
  | arrive (key : Key) (fingerprint : Fingerprint)
  /-- A request that arrived takes the lock. -/
  | enter (index : Nat)
  | complete (index : Nat) (response : StoredResponse)
  | drop (index : Nat)

namespace Requests

def start (ttl capacity maxBytes : Nat) : Requests :=
  ⟨0, .new ttl capacity maxBytes, [], [], []⟩

/-- One step; nothing where an `expect` fails. A step of a request or a guard that is not there changes nothing. -/
def step (requests : Requests) : Move → Option Requests
  | .tick elapsed => some { requests with clock := requests.clock + elapsed }
  | .arrive key fingerprint =>
    some { requests with arrived := requests.arrived ++ [⟨key, fingerprint, requests.clock⟩] }
  | .enter index =>
    match requests.arrived[index]? with
    | none => some requests
    | some ⟨key, fingerprint, time⟩ =>
      (requests.store.beginAt key fingerprint time).map fun (answer, store) =>
        { requests with
          store
          arrived := requests.arrived.eraseIdx index
          guards :=
            match answer with
            | .ok (.proceed guard) => guard :: requests.guards
            | _ => requests.guards
          log := .began time key fingerprint answer :: requests.log }
  | .complete index response =>
    match requests.guards[index]? with
    | none => some requests
    | some key =>
      (requests.store.complete key response requests.clock).map fun store =>
        { requests with
          store
          guards := requests.guards.eraseIdx index
          log := .completed requests.clock key response :: requests.log }
  | .drop index =>
    match requests.guards[index]? with
    | none => some requests
    | some key =>
      (requests.store.drop key requests.clock).map fun store =>
        { requests with
          store
          guards := requests.guards.eraseIdx index
          log := .dropped requests.clock key :: requests.log }

def run (requests : Requests) : List Move → Option Requests
  | [] => some requests
  | move :: moves => (requests.step move).bind fun next => next.run moves

end Requests


/-- What a key's guards did, the latest first. -/
def guarded (key : Key) (log : List Happening) : List Happening :=
  log.filter fun event => event.moves key

def Record.Reflects (record : Record) (key : Key) (history : List Happening) : Prop :=
  ∃ began rest, match record.state with
    | .running => history = .began began key record.fingerprint (.ok (.proceed key)) :: rest
    | .done response => response.retryable = false ∧ ∃ done,
        history = .completed done key response :: .began began key record.fingerprint (.ok (.proceed key)) :: rest
    | .unreplayable => ∃ last, history = last :: .began began key record.fingerprint (.ok (.proceed key)) :: rest

/-- What a begin is answered when it is the latest happening after earlier ones. -/
structure Happening.Lawful (ttl : Nat) (event : Happening) (earlier : List Happening) : Prop where
  proceeds : ∀ time key fingerprint guard, event = .began time key fingerprint (.ok (.proceed guard)) →
    guard = key ∧ ∀ between settled before done, earlier = between ++ settled :: before →
      settled.settles key = some done → ∃ late ∈ event :: between, late.outlives ttl done
  replays : ∀ time key fingerprint response, event = .began time key fingerprint (.ok (.replay response)) →
    response.retryable = false ∧ ∃ done began rest, guarded key earlier =
      .completed done key response :: .began began key fingerprint (.ok (.proceed key)) :: rest

theorem Happening.Lawful.ending {event : Happening} {earlier : List Happening}
    (ends : ∀ time key fingerprint answer, event ≠ .began time key fingerprint answer) : event.Lawful ttl earlier :=
  ⟨fun _ _ _ _ same => absurd same (ends _ _ _ _), fun _ _ _ _ same => absurd same (ends _ _ _ _)⟩

structure Tied (ttl : Nat) (inner : Inner) (guards : List Key) (log : List Happening) : Prop where
  alone : guards.Nodup
  out : ∀ key, key ∈ guards ↔ ∃ record, inner.records.lookup key = some record ∧ record.state = .running
  recorded : ∀ key record, inner.records.lookup key = some record → record.Reflects key (guarded key log)
  kept : ∀ between settled before key done, log = between ++ settled :: before → settled.settles key = some done →
    (done, key) ∈ inner.completed ∨ ∃ late ∈ between, late.outlives ttl done
  lawful : ∀ event earlier, event :: earlier <:+ log → event.Lawful ttl earlier

namespace Tied

variable {ttl : Nat} {inner : Inner} {guards : List Key} {log : List Happening}

theorem guarded_cons (key : Key) (event : Happening) (log : List Happening) :
    guarded key (event :: log) = if event.moves key then event :: guarded key log else guarded key log :=
  filter_cons

theorem lawful_cons (lawful : ∀ event earlier, event :: earlier <:+ log → event.Lawful ttl earlier)
    (new : event.Lawful ttl log) : ∀ event' earlier, event' :: earlier <:+ event :: log → event'.Lawful ttl earlier := by
  intro event' earlier suffixed
  rcases suffix_cons_iff.mp suffixed with same | suffixed
  · obtain ⟨rfl, rfl⟩ := List.cons.inj same
    exact new
  · exact lawful event' earlier suffixed

theorem kept_cons {completed : List (Nat × Key)}
    (here : ∀ key done, event.settles key = some done → (done, key) ∈ completed)
    (earlier : ∀ between settled before key done, log = between ++ settled :: before → settled.settles key = some done → (done, key) ∈ completed ∨ ∃ late ∈ event :: between, late.outlives ttl done)
    (between : List Happening) (settled : Happening) (before : List Happening) (key : Key) (done : Nat)
    (split : event :: log = between ++ settled :: before) (settles : settled.settles key = some done) :
    (done, key) ∈ completed ∨ ∃ late ∈ between, late.outlives ttl done := by
  cases between with
  | nil =>
    obtain ⟨rfl, rfl⟩ := List.cons.inj split
    exact .inl (here key done settles)
  | cons first between =>
    obtain ⟨rfl, parts⟩ := List.cons.inj split
    exact earlier between settled before key done parts settles

/-- Records, guards and log after the old records are dropped at the time of a begin, which is not logged yet. -/
structure Expired (ttl time : Nat) (inner : Inner) (guards : List Key) (log : List Happening) : Prop where
  out : ∀ key, key ∈ guards ↔ ∃ record, inner.records.lookup key = some record ∧ record.state = .running
  recorded : ∀ key record, inner.records.lookup key = some record → record.Reflects key (guarded key log)
  kept : ∀ between settled before key done, log = between ++ settled :: before → settled.settles key = some done →
    (done, key) ∈ inner.completed ∨ ttl ≤ time - done ∨ ∃ late ∈ between, late.outlives ttl done

theorem expire {next} (tied : Tied ttl inner guards log) (valid : inner.Valid capacity maxBytes clock)
    (split : inner.completed = dropped ++ next.completed) (aged : ∀ entry ∈ dropped, ttl ≤ time - entry.1)
    (found : ∀ key, next.records.lookup key = if key ∈ dropped.map snd then none else inner.records.lookup key) :
    Expired ttl time next guards log where
  out := by
    intro key
    rw [tied.out key, found key]
    by_cases old : key ∈ dropped.map snd
    · rw [if_pos old]
      have queued : key ∈ inner.completed.map snd := by
        rw [split, map_append]
        exact mem_append_left _ old
      obtain ⟨record, present, idle⟩ := (valid.queued key).mp queued
      simp [present, idle]
    · rw [if_neg old]
  recorded := by
    intro key record present
    rw [found key] at present
    split at present
    · exact absurd present (by simp)
    · exact tied.recorded key record present
  kept := by
    intro between settled before key done parts settles
    rcases tied.kept between settled before key done parts settles with queued | late
    · rw [split, mem_append] at queued
      rcases queued with old | queued
      · exact .inr (.inl (aged _ old))
      · exact .inl queued
    · exact .inr (.inr late)

theorem Expired.later (expired : Expired ttl time inner guards log) (split : log = between ++ settled :: before)
    (settles : settled.settles other = some done) :
    (done, other) ∈ inner.completed ∨ ∃ late ∈ .began time key fingerprint answer :: between, late.outlives ttl done := by
  rcases expired.kept between settled before other done split settles with queued | old | ⟨late, member, after⟩
  · exact .inl queued
  · exact .inr ⟨_, mem_cons_self, old⟩
  · exact .inr ⟨late, mem_cons_of_mem _ member, after⟩

theorem Expired.answered {next} {time : Nat} (tied : Tied ttl inner guards log) (expired : Expired ttl time next guards log)
    {key : Key} {fingerprint : Fingerprint} {answer : Except ApiError Begin}
    (stays : ∀ guard, answer ≠ .ok (.proceed guard))
    (stored : ∀ response, answer = .ok (.replay response) → next.records.lookup key = some ⟨fingerprint, .done response⟩) :
    Tied ttl next guards (.began time key fingerprint answer :: log) where
  alone := tied.alone
  out := expired.out
  recorded := by
    intro other record present
    have unmoved : (Happening.began time key fingerprint answer).moves other = false := by
      unfold Happening.moves
      split <;> simp_all
    rw [guarded_cons, unmoved]
    exact expired.recorded other record present
  kept := by
    refine kept_cons (fun key done settles => by simp [Happening.settles] at settles) ?_
    exact fun _ _ _ _ _ split settles => expired.later split settles
  lawful := by
    refine lawful_cons tied.lawful ⟨?_, ?_⟩
    · intro _ _ _ guard same
      cases same
      exact absurd rfl (stays guard)
    · intro _ _ _ response same
      cases same
      obtain ⟨began, rest, kept, done, history⟩ := expired.recorded key _ (stored response rfl)
      exact ⟨kept, done, began, rest, history⟩

/-- A begin that proceeds: what was settled under the key before is no longer recorded. -/
theorem Expired.proceeds {next} {capacity maxBytes clock time : Nat} (tied : Tied ttl inner guards log)
    (expired : Expired ttl time next guards log) (valid : next.Valid capacity maxBytes clock) {key : Key}
    (absent : next.records.lookup key = none) (fingerprint : Fingerprint) :
    Tied ttl { next with records := next.records.insert key ⟨fingerprint, .running⟩ } (key :: guards)
      (.began time key fingerprint (.ok (.proceed key)) :: log) where
  alone := by
    refine nodup_cons.mpr ⟨fun out => ?_, tied.alone⟩
    obtain ⟨record, present, _⟩ := (expired.out key).mp out
    rw [absent] at present
    exact absurd present (by simp)
  out := by
    intro other
    rw [mem_cons, expired.out other]
    by_cases same : other = key
    · subst same
      simp [AList.lookup_insert]
    · rw [AList.lookup_insert_ne same]
      simp only [same, false_or]
  recorded := by
    intro other record present
    rw [guarded_cons]
    by_cases same : other = key
    · subst same
      rw [AList.lookup_insert, Option.some.injEq] at present
      subst present
      exact ⟨time, guarded other log, by simp [Happening.moves]⟩
    · rw [AList.lookup_insert_ne same] at present
      have unmoved : (Happening.began time key fingerprint (.ok (.proceed key))).moves other = false := by
        simp [Happening.moves, Ne.symm same]
      rw [unmoved]
      exact expired.recorded other record present
  kept := by
    refine kept_cons (fun key done settles => by simp [Happening.settles] at settles) ?_
    exact fun _ _ _ _ _ split settles => expired.later split settles
  lawful := by
    refine lawful_cons tied.lawful ⟨?_, ?_⟩
    · intro _ _ _ guard same
      cases same
      refine ⟨rfl, fun between settled before done split settles => ?_⟩
      refine (expired.later split settles).resolve_left fun queued => ?_
      obtain ⟨record, present, _⟩ := (valid.queued key).mp (mem_map_of_mem (f := snd) queued)
      rw [absent] at present
      exact absurd present (by simp)
    · intro _ _ _ response same
      cases same

theorem mem_eraseIdx (alone : guards.Nodup) (held : guards[index]? = some key) (other : Key) :
    other ∈ guards.eraseIdx index ↔ other ∈ guards ∧ other ≠ key := by
  obtain ⟨inside, rfl⟩ := List.getElem?_eq_some_iff.mp held
  rw [← alone.erase_getElem index inside, alone.mem_erase_iff, and_comm]

theorem held {index : Nat} (tied : Tied ttl inner guards log) (held : guards[index]? = some key) :
    ∃ record, inner.records.lookup key = some record ∧ record.state = .running :=
  (tied.out key).mp (mem_of_getElem? held)

theorem settle {index clock bytes : Nat} (tied : Tied ttl inner guards log) (held : guards[index]? = some key)
    {record : Record} (found : inner.records.lookup key = some record) (running : record.state = .running)
    {state : RecordState} {event : Happening}
    (settles : ∀ other, event.settles other = if key = other then some clock else none)
    (moves : ∀ other, event.moves other = decide (key = other))
    (settled : state = .unreplayable ∨ ∃ response, state = .done response ∧ response.retryable = false ∧ event = .completed clock key response)
    (lawful : event.Lawful ttl log) :
    Tied ttl ⟨inner.records.insert key { record with state }, inner.completed ++ [(clock, key)], bytes⟩
      (guards.eraseIdx index) (event :: log) where
  alone := tied.alone.eraseIdx index
  out := by
    intro other
    rw [mem_eraseIdx tied.alone held, tied.out other]
    by_cases same : other = key
    · subst same
      rcases settled with rfl | ⟨_, rfl, _⟩ <;> simp [AList.lookup_insert]
    · rw [AList.lookup_insert_ne same, and_iff_left same]
  recorded := by
    intro other record' present
    rw [guarded_cons, moves]
    by_cases same : other = key
    · subst same
      rw [AList.lookup_insert, Option.some.injEq] at present
      subst present
      obtain ⟨began, rest, history⟩ := tied.recorded other record found
      rw [running] at history
      refine ⟨began, rest, ?_⟩
      rcases settled with rfl | ⟨response, rfl, kept, rfl⟩
      · exact ⟨event, by rw [history]; simp⟩
      · exact ⟨kept, clock, by rw [history]; simp⟩
    · rw [AList.lookup_insert_ne same] at present
      simpa [Ne.symm same] using tied.recorded other record' present
  kept := by
    refine kept_cons ?_ ?_
    · intro other done settled
      rw [settles] at settled
      split at settled
      next same =>
        subst same
        obtain rfl := Option.some.inj settled
        exact mem_append_right _ mem_cons_self
      next => exact absurd settled (by simp)
    · intro between settled before other done split settles
      rcases tied.kept between settled before other done split settles with queued | ⟨late, member, after⟩
      · exact .inl (mem_append_left _ queued)
      · exact .inr ⟨late, mem_cons_of_mem _ member, after⟩
  lawful := lawful_cons tied.lawful lawful

theorem release {index clock : Nat} (tied : Tied ttl inner guards log) (held : guards[index]? = some key)
    {response : StoredResponse} (transient : response.retryable = true) :
    Tied ttl { inner with records := inner.records.erase key } (guards.eraseIdx index)
      (.completed clock key response :: log) where
  alone := tied.alone.eraseIdx index
  out := by
    intro other
    rw [mem_eraseIdx tied.alone held, tied.out other]
    by_cases same : other = key
    · subst same
      simp [AList.lookup_erase]
    · rw [AList.lookup_erase_ne same, and_iff_left same]
  recorded := by
    intro other record present
    by_cases same : other = key
    · subst same
      rw [AList.lookup_erase] at present
      exact absurd present (by simp)
    · rw [AList.lookup_erase_ne same] at present
      have unmoved : (Happening.completed clock key response).moves other = false := by
        simp [Happening.moves, Ne.symm same]
      rw [guarded_cons, unmoved]
      exact tied.recorded other record present
  kept := by
    refine kept_cons (fun other done settles => by simp [Happening.settles, transient] at settles) ?_
    intro between settled before other done split settles
    rcases tied.kept between settled before other done split settles with queued | ⟨late, member, after⟩
    · exact .inl queued
    · exact .inr ⟨late, mem_cons_of_mem _ member, after⟩
  lawful := lawful_cons tied.lawful (.ending fun _ _ _ _ => by simp)

end Tied

theorem Inner.remove_running {inner : Inner} {record : Record} (found : inner.records.lookup key = some record)
    (running : record.state = .running) :
    inner.remove key = some { inner with records := inner.records.erase key } := by
  obtain ⟨fingerprint, state⟩ := record
  subst running
  simp [remove, found]

theorem Idempotency.settle_ok {store : Idempotency} {record : Record}
    (found : store.inner.records.lookup key = some record) (state : RecordState) (bodyBytes now : Nat) :
    store.settle key state bodyBytes now = some { store with
      inner := ⟨store.inner.records.insert key { record with state }, store.inner.completed ++ [(now, key)], bodyBytes⟩ } := by
  rw [settle, found]
  rfl

/-- What holds of the requests after any moves. -/
structure Requests.Sound (ttl capacity maxBytes : Nat) (requests : Requests) : Prop where
  configured : requests.store.ttl = ttl ∧ requests.store.capacity = capacity ∧ requests.store.maxBytes = maxBytes
  valid : requests.store.inner.Valid capacity maxBytes requests.clock
  tied : Tied ttl requests.store.inner requests.guards requests.log

namespace Requests

variable {ttl capacity maxBytes : Nat} {requests : Requests}

theorem start_sound (ttl capacity maxBytes : Nat) : (start ttl capacity maxBytes).Sound ttl capacity maxBytes where
  configured := ⟨rfl, rfl, rfl⟩
  valid := Inner.empty_valid
  tied :=
    { alone := nodup_nil
      out := by simp [start, Idempotency.new, Inner.empty]
      recorded := by simp [start, Idempotency.new, Inner.empty]
      kept := by
        intro between settled before key done split
        exact absurd split (by simp [start])
      lawful := fun _ _ suffixed => absurd (suffix_nil.mp suffixed) (by simp) }

section

variable (sound : requests.Sound ttl capacity maxBytes)
include sound

theorem Sound.enter (index : Nat) :
    ∃ next, requests.step (.enter index) = some next ∧ next.Sound ttl capacity maxBytes := by
  cases waiting : requests.arrived[index]? with
  | none => exact ⟨requests, by simp only [step, waiting], sound⟩
  | some arrival =>
    obtain ⟨key, fingerprint, time⟩ := arrival
    obtain ⟨next, dropped, ran, valid, split, aged, found⟩ :=
      Inner.expire_ok requests.store.ttl time requests.store.inner sound.valid
    rw [sound.configured.1] at aged
    have expired := sound.tied.expire sound.valid split aged found
    have admits := requests.store.admit_admits key fingerprint time next
    simp only [step, waiting, Idempotency.beginAt, ran, Option.map_some]
    refine ⟨_, rfl, ?_⟩
    generalize requests.store.admission key fingerprint time next = answered at admits ⊢
    obtain ⟨answer, after⟩ := answered
    cases admits with
    | refused error =>
      exact ⟨sound.configured, valid, expired.answered sound.tied (fun _ => by simp) (fun _ => by simp)⟩
    | replayed stored =>
      refine ⟨sound.configured, valid, expired.answered sound.tied (fun _ => by simp) ?_⟩
      intro response same
      cases same
      exact stored
    | proceeds absent room =>
      rw [sound.configured.2.1] at room
      exact ⟨sound.configured, valid.add absent room fingerprint, expired.proceeds sound.tied valid absent fingerprint⟩

theorem Sound.drop (index : Nat) :
    ∃ next, requests.step (.drop index) = some next ∧ next.Sound ttl capacity maxBytes := by
  cases out : requests.guards[index]? with
  | none => exact ⟨requests, by simp only [step, out], sound⟩
  | some key =>
    obtain ⟨record, found, running⟩ := sound.tied.held out
    simp only [step, out, Idempotency.drop, Idempotency.settle_ok found, Option.map_some]
    refine ⟨_, rfl, sound.configured, ?_, ?_⟩
    · have free : (⟨record.fingerprint, .unreplayable⟩ : Record).bytes = 0 := rfl
      exact sound.valid.settle found running (by simp) free sound.valid.within
    · exact sound.tied.settle out found running (fun _ => rfl) (fun _ => rfl) (.inl rfl)
        (.ending fun _ _ _ _ => by simp)

theorem Sound.release {index : Nat}
    (out : requests.guards[index]? = some key) {response : StoredResponse} (transient : response.retryable = true) :
    ∃ next, requests.step (.complete index response) = some next ∧ next.Sound ttl capacity maxBytes ∧
      next.store.inner = { requests.store.inner with records := requests.store.inner.records.erase key } := by
  obtain ⟨record, found, running⟩ := sound.tied.held out
  simp only [step, out, Idempotency.complete, transient, if_true, Inner.remove_running found running, Option.map_some]
  exact ⟨_, rfl, ⟨sound.configured, sound.valid.release found running, sound.tied.release out transient⟩, rfl⟩

theorem Sound.complete (index : Nat) (response : StoredResponse) :
    ∃ next, requests.step (.complete index response) = some next ∧ next.Sound ttl capacity maxBytes := by
  cases out : requests.guards[index]? with
  | none => exact ⟨requests, by simp only [step, out], sound⟩
  | some key =>
    cases transient : response.retryable with
    | true =>
      obtain ⟨next, stepped, kept, _⟩ := sound.release out transient
      exact ⟨next, stepped, kept⟩
    | false =>
      obtain ⟨record, found, running⟩ := sound.tied.held out
      have settles (other : Key) : (Happening.completed requests.clock key response).settles other =
          if key = other then some requests.clock else none := by
        simp [Happening.settles, transient]
      simp only [step, out, Idempotency.complete, transient, Bool.false_eq_true, if_false]
      split
      next fits =>
        rw [sound.configured.2.2] at fits
        have within := sound.valid.within
        rw [Idempotency.settle_ok found]
        refine ⟨_, rfl, sound.configured, ?_, ?_⟩
        · exact sound.valid.settle found running (by simp) rfl (by omega)
        · exact sound.tied.settle out found running settles (fun _ => rfl) (.inr ⟨response, rfl, transient, rfl⟩)
            (.ending fun _ _ _ _ => by simp)
      next =>
        rw [Idempotency.settle_ok found]
        refine ⟨_, rfl, sound.configured, ?_, ?_⟩
        · have free : (⟨record.fingerprint, .unreplayable⟩ : Record).bytes = 0 := rfl
          exact sound.valid.settle found running (by simp) free sound.valid.within
        · exact sound.tied.settle out found running settles (fun _ => rfl) (.inl rfl) (.ending fun _ _ _ _ => by simp)

theorem Sound.step (move : Move) :
    ∃ next, requests.step move = some next ∧ next.Sound ttl capacity maxBytes := by
  cases move with
  | tick elapsed => exact ⟨_, rfl, sound.configured, sound.valid.later (Nat.le_add_right _ _), sound.tied⟩
  | arrive key fingerprint => exact ⟨_, rfl, sound.configured, sound.valid, sound.tied⟩
  | enter index => exact sound.enter index
  | complete index response => exact sound.complete index response
  | drop index => exact sound.drop index

theorem Sound.run (moves : List Move) :
    ∃ next, requests.run moves = some next ∧ next.Sound ttl capacity maxBytes := by
  induction moves generalizing requests with
  | nil => exact ⟨requests, rfl, sound⟩
  | cons move moves ih =>
    obtain ⟨next, stepped, kept⟩ := sound.step move
    obtain ⟨last, ran, ends⟩ := ih kept
    exact ⟨last, by rw [Requests.run, stepped]; exact ran, ends⟩

end

/-- No request is answered as if it were the first under its key before what was settled under the key is a time to
live old for it or for a request answered since, and a replay is the response of the one request that ran. -/
structure Once (ttl capacity maxBytes : Nat) (requests : Requests) : Prop where
  alone : requests.guards.Nodup
  proceeds : ∀ time key fingerprint guard earlier,
    .began time key fingerprint (.ok (.proceed guard)) :: earlier <:+ requests.log →
      guard = key ∧ ∀ between settled before done, earlier = between ++ settled :: before →
        settled.settles key = some done →
          ∃ late ∈ .began time key fingerprint (.ok (.proceed guard)) :: between, late.outlives ttl done
  replays : ∀ time key fingerprint response earlier,
    .began time key fingerprint (.ok (.replay response)) :: earlier <:+ requests.log →
      ∃ done began rest, guarded key earlier =
        .completed done key response :: .began began key fingerprint (.ok (.proceed key)) :: rest
  releases : ∀ index key response, requests.guards[index]? = some key → response.retryable = true →
    ∃ next, requests.step (.complete index response) = some next ∧
      next.store.inner.records.lookup key = none ∧ key ∉ next.store.inner.completed.map snd ∧
      (∀ other, other ≠ key → next.store.inner.records.lookup other = requests.store.inner.records.lookup other) ∧
      next.store.inner.completed = requests.store.inner.completed ∧
      next.store.inner.bodyBytes = requests.store.inner.bodyBytes
  counted : requests.store.inner.records.entries.length ≤ capacity
  accounted : requests.store.inner.bodyBytes = total Record.bytes requests.store.inner.records
  within : requests.store.inner.bodyBytes ≤ maxBytes
  queued : ∀ key, key ∈ requests.store.inner.completed.map snd ↔
    ∃ record, requests.store.inner.records.lookup key = some record ∧ record.state ≠ .running
  once : (requests.store.inner.completed.map snd).Nodup
  ordered : (requests.store.inner.completed.map fst).Pairwise (· ≤ ·)

/-- However requests interleave, no `expect` fails and each runs at most once a time to live. -/
theorem run_once (ttl capacity maxBytes : Nat) (moves : List Move) :
    ∃ requests, (start ttl capacity maxBytes).run moves = some requests ∧ requests.Once ttl capacity maxBytes := by
  obtain ⟨requests, ran, sound⟩ := (start_sound ttl capacity maxBytes).run moves
  refine ⟨requests, ran, ?_⟩
  exact
    { alone := sound.tied.alone
      proceeds := fun time key fingerprint guard earlier suffixed =>
        (sound.tied.lawful _ earlier suffixed).proceeds time key fingerprint guard rfl
      replays := fun time key fingerprint response earlier suffixed =>
        ((sound.tied.lawful _ earlier suffixed).replays time key fingerprint response rfl).2
      releases := by
        intro index key response out transient
        obtain ⟨next, stepped, _, left⟩ := sound.release out transient
        obtain ⟨record, found, running⟩ := sound.tied.held out
        refine ⟨next, stepped, ?_⟩
        rw [left]
        refine ⟨AList.lookup_erase _ _, fun member => ?_, fun other apart => AList.lookup_erase_ne apart, rfl, rfl⟩
        obtain ⟨record', found', idle⟩ := (sound.valid.queued key).mp member
        rw [found] at found'
        exact idle (Option.some.inj found' ▸ running)
      counted := sound.valid.counted
      accounted := sound.valid.accounted
      within := sound.valid.within
      queued := sound.valid.queued
      once := sound.valid.once
      ordered := sound.valid.ordered }

/-- A request that reads the clock before another is settled, and takes the lock after a later request has made it
expire, runs again. -/
theorem early_begin_proceeds : ¬∀ ttl capacity maxBytes moves requests,
    (start ttl capacity maxBytes).run moves = some requests → ∀ time key fingerprint guard earlier,
      .began time key fingerprint (.ok (.proceed guard)) :: earlier <:+ requests.log →
        ∀ done, done ∈ earlier.filterMap (Happening.settles key) → done + ttl ≤ time := by
  intro holds
  let key : Key := ("t", "k")
  let other : Key := ("t", "other")
  let sent : Fingerprint := Vector.replicate 32 0
  let moves : List Move :=
    [.arrive key sent, .enter 0, .arrive key sent, .tick 1, .complete 0 ⟨.ok, "", 0, false⟩, .tick 60, .arrive other sent,
      .enter 1, .enter 0]
  have late := holds 60 8 1024 moves _ rfl 0 key sent key _ (suffix_refl _) 1 (by decide)
  exact absurd late (by decide)

end Requests

end Warm.Server
