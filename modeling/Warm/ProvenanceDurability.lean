import Warm.ProvenanceLog
import Warm.ProvenanceTrust
import Mathlib.Logic.Encodable.Basic
import Mathlib.Logic.Equiv.List

/-! What a provenance log keeps over runs of calls, failed appends, crashes and reopens. The run
records what the calls returned; a call that did not return `Ok` may still have left lines. -/
namespace Warm.Provenance

open List hiding after all below contains count head max

open Bytes Binary Lines

variable {texts : List String}

inductive Event where
  | call (request : Call) (fate : Fate)
  | revoke (statusIndex : Nat)
  | reopen

/-- The store with what its callers were told: the records of calls that returned `Ok` and that no
later such call replaced or deleted, and every sequence number such a call returned. -/
structure Run where
  store : Store
  acked : Table String ProvenanceRecord
  returned : List Nat

def sequences (logged : List LogLine) : List Nat :=
  logged.filterMap fun line => match line with
    | .entry _ record => some record.sequence
    | .deletion _ _ => none

def advance (codec : LogCodec) (issuer : Issuer) (run : Run) : Event → Run
  | .call request fate =>
    match call codec issuer run.store request fate with
    | (store, none) => { run with store := store }
    | (store, some logged) => ⟨store, logged.foldl applyLine run.acked, run.returned ++ sequences logged⟩
  | .revoke statusIndex =>
    match revokeCredential run.store.bits statusIndex with
    | .error _ => run
    | .ok bits => { run with store := { run.store with bits := bits } }
  | .reopen => { run with store := reopen codec run.store }

/-- An empty directory before its first open. -/
def emptyRun : Run := ⟨⟨[], [], none⟩, ∅, []⟩

def EveryStep (codec : LogCodec) (issuer : Issuer) (property : Run → Event → Prop) : Run → List Event → Prop
  | _, [] => True
  | run, event :: events => property run event ∧ EveryStep codec issuer property (advance codec issuer run event) events

/-- A reopen finds every acknowledged record and the digest of the last complete line; a batch
is given sequence numbers that no returned record has. -/
def Durable (codec : LogCodec) (issuer : Issuer) (run : Run) : Event → Prop
  | .reopen => ∃ manager, (reopen codec run.store).manager = some manager ∧
      (∀ (factId : String) record, run.acked[factId]? = some record → manager.records[factId]? = some record) ∧
      manager.chainHead = ((lastComplete run.store.log).map codec.sha256).getD zeroHash
  | .call (.createBatchProvenance items) fate =>
    ∀ logged, (call codec issuer run.store (.createBatchProvenance items) fate).2 = some logged →
      (sequences logged).Nodup ∧ ∀ sequence ∈ sequences logged, sequence ∉ run.returned
  | _ => True

/-- The bytes a call leaves in the log when it does not return `Ok`. -/
def Fate.left (log bytes : Bytes) : Fate → Option Bytes
  | .completes => none
  | .rejected => some []
  | .unsynced => if log = [] then some bytes else none
  | .unsigned => some bytes
  | .torn kept => some (bytes.take kept)

/-- A call that does not return `Ok` leaves only whole lines, and none about a fact whose record
was acknowledged. -/
def Whole (codec : LogCodec) (issuer : Issuer) (run : Run) : Event → Prop
  | .call request fate => ∀ manager prepared left, run.store.manager = some manager →
      prepare issuer manager request = .ok prepared →
      fate.left run.store.log (appended codec manager.chainHead prepared.logged) = some left →
      (left = [] ∨ left.getLast? = some NEWLINE) ∧
        ∀ line ∈ prepared.logged.take (left.count NEWLINE), run.acked[line.factId]? = none
  | _ => True

/-! ### Calls up to their append -/

/-- What `prepare` promises about the lines: their sequences are in range and below the clock after
the append, and a batch's are new. -/
structure Prepared.Sound (manager : Manager) (request : Call) (prepared : Prepared) : Prop where
  bounded : ∀ sequence ∈ sequences prepared.logged, sequence + 1 < 2 ^ 64
  below : ∀ sequence ∈ sequences prepared.logged, sequence < prepared.advanced
  reserved : manager.logicalClock ≤ prepared.reserved
  advanced : manager.logicalClock ≤ prepared.advanced
  batch : ∀ items, request = .createBatchProvenance items →
    (sequences prepared.logged).Nodup ∧ ∀ sequence ∈ sequences prepared.logged, manager.logicalClock ≤ sequence

theorem batchRecord_sequence (made : batchRecord issuer levels envelope first item = .ok record) :
    record.sequence = first + item.2 := by
  unfold batchRecord at made
  cases signed : issuer.signCredential item.1.factId (issuer.lib.sha256 item.1.content) item.1.sourceUri
      (first + item.2) with
  | error message => simp [signed, bind, Except.bind] at made
  | ok json =>
    simp only [signed, bind, Except.bind, Except.ok.injEq] at made
    subst made
    rfl

theorem sequences_zip (items : List BatchItem) (records : List ProvenanceRecord) (same : items.length = records.length) :
    sequences ((items.zip records).map fun item => .entry item.1.factId item.2) = records.map (·.sequence) := by
  induction items generalizing records with
  | nil =>
    cases records with
    | nil => rfl
    | cons record records => simp at same
  | cons item items ih =>
    cases records with
    | nil => simp at same
    | cons record records =>
      have rest := ih records (by simpa using same)
      unfold sequences at rest ⊢
      simp only [zip_cons_cons, map_cons, filterMap_cons, rest]

theorem batch_sequences {levels : List (List Array32)} {envelope : Bytes} {first offset : Nat} {items : List BatchItem}
    {records : List ProvenanceRecord}
    (made : List.Forall₂ (fun item record => batchRecord issuer levels envelope first item = .ok record) (items.zipIdx offset) records) :
    items.length = records.length ∧ records.map (·.sequence) = List.range' (first + offset) items.length := by
  induction items generalizing offset records with
  | nil =>
    cases made
    exact ⟨rfl, rfl⟩
  | cons item items ih =>
    rw [zipIdx_cons] at made
    cases made with
    | cons own rest =>
      obtain ⟨lengths, ordered⟩ := ih rest
      refine ⟨by simp [lengths], ?_⟩
      rw [map_cons, batchRecord_sequence own, ordered, length_cons, range'_succ, Nat.add_assoc]

theorem prepare_sound (done : prepare issuer manager request = .ok prepared) : prepared.Sound manager request := by
  cases request with
  | storeRecord factId record =>
    simp only [prepare] at done
    split at done
    · rename_i room
      cases done
      have small : record.sequence + 1 < 2 ^ 64 := by
        have limit : MAX_BYTES * 8 < 2 ^ 64 := by decide
        omega
      refine ⟨?_, ?_, le_rfl, le_max_left _ _, by simp⟩
      · simpa [sequences] using small
      · simp [sequences]
    · cases done
  | recordDeletion factId reason now =>
    simp only [prepare] at done
    split at done
    · cases done
    · cases done
      exact ⟨by simp [sequences], by simp [sequences], le_rfl, le_rfl, by simp⟩
  | createBatchProvenance items =>
    simp only [prepare] at done
    split at done
    · cases done
      exact ⟨by simp [sequences], by simp [sequences], le_rfl, le_rfl, by simp [sequences]⟩
    · split at done
      · cases done
      rename_i first outcome made
      split at done
      · cases done
      rename_i records
      cases done
      unfold batchRecords at made
      obtain ⟨envelope, -, made⟩ := bind_eq_ok.mp made
      obtain ⟨start, room, made⟩ := bind_eq_ok.mp made
      simp only [Except.ok.injEq, Prod.mk.injEq] at made
      obtain ⟨rfl, all⟩ := made
      unfold reserveSequences at room
      split at room
      · rename_i fits
        cases room
        obtain ⟨lengths, ordered⟩ := batch_sequences (mapM_eq_ok.mp all)
        rw [Nat.add_zero] at ordered
        have given := (sequences_zip items records lengths).trans ordered
        have limit : MAX_BYTES * 8 < 2 ^ 64 := by decide
        refine ⟨?_, ?_, Nat.le_add_right _ _, Nat.le_add_right _ _, ?_⟩
        · intro sequence member
          rw [given, mem_range'_1] at member
          omega
        · intro sequence member
          rw [given, mem_range'_1] at member
          exact member.2
        · intro _ _
          rw [given]
          refine ⟨nodup_range', ?_⟩
          intro sequence member
          exact (mem_range'_1.mp member).1
      · cases room

/-! ### Replaying lines -/

theorem chain_take (codec : LogCodec) (head : Array32) (logged : List LogLine) (count : Nat) :
    (chain codec head (logged.take count)).1 = (chain codec head logged).1.take count := by
  induction logged generalizing head count with
  | nil => simp [chain]
  | cons line logged ih =>
    cases count with
    | zero => rfl
    | succ count => simp [chain, ih]

theorem chain_plain (lawful : codec.Lawful) (head : Array32) (logged : List LogLine) :
    ∀ text ∈ (chain codec head logged).1, Plain (utf8 text) := by
  induction logged generalizing head with
  | nil => simp [chain]
  | cons line logged ih =>
    simp only [chain, forall_mem_cons]
    exact ⟨lawful.plain _ _, ih _⟩

/-- Replaying chained lines does to the records what the calls did, and moves the clock past their
sequences. -/
theorem replay_chain (lawful : codec.Lawful) (head : Array32) (logged : List LogLine)
    (bounded : ∀ sequence ∈ sequences logged, sequence + 1 < 2 ^ 64) (state : Manager) :
    ∃ after, (chain codec head logged).1.foldlM (replayText codec) state = .ok after ∧
      after.records = logged.foldl applyLine state.records ∧ state.logicalClock ≤ after.logicalClock ∧
      ∀ sequence ∈ sequences logged, sequence < after.logicalClock := by
  induction logged generalizing head state with
  | nil => exact ⟨state, rfl, rfl, le_rfl, by simp [sequences]⟩
  | cons line logged ih =>
    simp only [chain, foldlM_cons]
    cases line with
    | entry factId record =>
      have small : record.sequence + 1 < 2 ^ 64 := bounded record.sequence (by simp [sequences])
      obtain ⟨after, replayed, records, later, below⟩ := ih (codec.sha256 (utf8 (codec.text (hexEncode head.val)
        (.entry factId record)))) (fun sequence member => bounded sequence (by
          unfold sequences at member ⊢
          exact mem_cons_of_mem _ member))
        ⟨state.records.insert factId record, codec.sha256 (utf8 (codec.text (hexEncode head.val) (.entry factId record))),
          max state.logicalClock (record.sequence + 1)⟩
      refine ⟨after, ?_, records, le_trans (le_max_left _ _) later, ?_⟩
      · have one : replayText codec state (codec.text (hexEncode head.val) (.entry factId record)) = .ok
            ⟨state.records.insert factId record, codec.sha256 (utf8 (codec.text (hexEncode head.val) (.entry factId record))),
              max state.logicalClock (record.sequence + 1)⟩ := by
          simp only [replayText, lawful.entry, if_pos small]
        rw [one]
        exact replayed
      · intro sequence member
        have either : sequence = record.sequence ∨ sequence ∈ sequences logged := by
          simpa [sequences] using member
        rcases either with rfl | rest
        · exact lt_of_lt_of_le (Nat.lt_succ_self _) (le_trans (le_max_right _ _) later)
        · exact below sequence rest
    | deletion factId deletion =>
      obtain ⟨after, replayed, records, later, below⟩ := ih (codec.sha256 (utf8 (codec.text (hexEncode head.val)
        (.deletion factId deletion)))) (fun sequence member => bounded sequence member)
        ⟨state.records.erase factId, codec.sha256 (utf8 (codec.text (hexEncode head.val) (.deletion factId deletion))),
          state.logicalClock⟩
      refine ⟨after, ?_, records, later, below⟩
      have one : replayText codec state (codec.text (hexEncode head.val) (.deletion factId deletion)) = .ok
          ⟨state.records.erase factId, codec.sha256 (utf8 (codec.text (hexEncode head.val) (.deletion factId deletion))),
            state.logicalClock⟩ := by
        simp only [replayText, lawful.deletion]
      rw [one]
      exact replayed

theorem foldlM_replayLine (codec : LogCodec) (texts : List String) (state : Manager) :
    (texts.map utf8).foldlM (replayLine codec) state = texts.foldlM (replayText codec) state := by
  rw [foldlM_map]
  congr 1
  funext state text
  simp [replayLine, Reader.fromUtf8_utf8]

theorem replayText_head (done : replayText codec state text = .ok after) : after.chainHead = codec.sha256 (utf8 text) := by
  unfold replayText at done
  split at done
  · split at done
    · cases done
      rfl
    · cases done
  · cases done
    rfl
  · cases done
    rfl

theorem replay_head {state after : Manager}
    (done : texts.foldlM (replayText codec) state = .ok after) :
    after.chainHead = ((texts.getLast?).map fun text => codec.sha256 (utf8 text)).getD state.chainHead := by
  rcases eq_nil_or_concat texts with rfl | ⟨before, text, rfl⟩
  · cases done
    rfl
  · rw [concat_eq_append, foldlM_append] at done
    obtain ⟨middle, -, last⟩ := bind_eq_ok.mp done
    rw [foldlM_cons] at last
    obtain ⟨next, one, rest⟩ := bind_eq_ok.mp last
    cases rest
    simp [replayText_head one]

/-! ### Acknowledged records -/

def Contains (acked records : Table String ProvenanceRecord) : Prop :=
  ∀ (factId : String) record, acked[factId]? = some record → records[factId]? = some record

theorem getElem?_applyLine_of_ne (apart : factId ≠ line.factId) : (applyLine records line)[factId]? = records[factId]? := by
  cases line with
  | entry own record =>
    have other : factId ≠ own := apart
    simp [applyLine, Table.getElem?_insert, other]
  | deletion own deletion =>
    have other : factId ≠ own := apart
    simp [applyLine, Table.getElem?_erase, other]

theorem Contains.foldl (contains : Contains acked records) (logged : List LogLine) :
    Contains (logged.foldl applyLine acked) (logged.foldl applyLine records) := by
  induction logged generalizing acked records with
  | nil => exact contains
  | cons line logged ih =>
    apply ih
    intro factId record found
    cases line with
    | entry own stored =>
      simp only [applyLine, Table.getElem?_insert] at found ⊢
      split at found <;> simp_all [contains factId record]
    | deletion own deletion =>
      simp only [applyLine, Table.getElem?_erase] at found ⊢
      split at found <;> simp_all [contains factId record]

theorem Contains.foldl_of_absent (contains : Contains acked records) {logged : List LogLine}
    (absent : ∀ line ∈ logged, acked[line.factId]? = none) : Contains acked (logged.foldl applyLine records) := by
  induction logged generalizing records with
  | nil => exact contains
  | cons line logged ih =>
    rw [forall_mem_cons] at absent
    apply ih _ absent.2
    intro factId record found
    have apart : factId ≠ line.factId := by
      rintro rfl
      rw [absent.1] at found
      cases found
    rw [getElem?_applyLine_of_ne apart]
    exact contains factId record found

/-! ### The invariant -/

/-- The log is whole lines whose replay has every acknowledged record and is past every returned
sequence. -/
structure Kept (codec : LogCodec) (texts : List String) (replayed : Manager) (run : Run) : Prop where
  log : run.store.log = terminated (texts.map utf8)
  plain : ∀ text ∈ texts, Plain (utf8 text)
  replay : texts.foldlM (replayText codec) ⟨∅, zeroHash, 0⟩ = .ok replayed
  contains : Contains run.acked replayed.records
  below : ∀ sequence ∈ run.returned, sequence < replayed.logicalClock
  clock : ∀ manager, run.store.manager = some manager → ∀ sequence ∈ run.returned, sequence < manager.logicalClock
  bits : run.store.bits.length ≤ MAX_BYTES

theorem plain_map (plain : ∀ text ∈ texts, Plain (utf8 text)) :
    ∀ line ∈ texts.map utf8, Plain line := by
  intro line member
  obtain ⟨text, given, rfl⟩ := mem_map.mp member
  exact plain text given

theorem Kept.load {replayed : Manager} {run : Run} (kept : Kept codec texts replayed run) :
    loadLog codec run.store.log = .ok replayed := by
  unfold loadLog
  rw [kept.log, lines_terminated (plain_map kept.plain), foldlM_replayLine, kept.replay]

theorem Kept.reopens (kept : Kept codec texts replayed run) :
    (reopen codec run.store).manager =
      some { replayed with logicalClock := max replayed.logicalClock (statusClock run.store.bits) } := by
  simp [reopen, openManager, kept.load, kept.bits, ensure, bind, Except.bind, Except.toOption]

theorem Kept.head {codec : LogCodec} {replayed : Manager} {run : Run}
    (kept : Kept codec texts replayed run) :
    replayed.chainHead = ((lastComplete run.store.log).map codec.sha256).getD zeroHash := by
  rw [replay_head kept.replay, kept.log, lastComplete_terminated (plain_map kept.plain), getLast?_map, Option.map_map]
  rfl

theorem Kept.append (lawful : codec.Lawful) (kept : Kept codec texts replayed run) (manager : Manager)
    (logged : List LogLine) (count : Nat) (bounded : ∀ sequence ∈ sequences logged, sequence + 1 < 2 ^ 64) :
    ∃ (texts' : List String) (after : Manager), run.store.log ++ terminated (((chain codec manager.chainHead logged).1.take count).map utf8) =
        terminated (texts'.map utf8) ∧ (∀ text ∈ texts', Plain (utf8 text)) ∧
      texts'.foldlM (replayText codec) ⟨∅, zeroHash, 0⟩ = .ok after ∧
      after.records = (logged.take count).foldl applyLine replayed.records ∧
      (∀ sequence ∈ run.returned, sequence < after.logicalClock) ∧
      ∀ sequence ∈ sequences (logged.take count), sequence < after.logicalClock := by
  have few : ∀ sequence ∈ sequences (logged.take count), sequence + 1 < 2 ^ 64 := by
    intro sequence member
    apply bounded
    exact (List.Sublist.filterMap _ (take_sublist count logged)).subset member
  obtain ⟨after, replay, records, later, below⟩ := replay_chain lawful manager.chainHead (logged.take count) few replayed
  refine ⟨texts ++ (chain codec manager.chainHead (logged.take count)).1, after, ?_, ?_, ?_, records, ?_, below⟩
  · rw [← chain_take, kept.log, map_append, terminated_append]
  · exact forall_mem_append.mpr ⟨kept.plain, chain_plain lawful _ _⟩
  · rw [foldlM_append, kept.replay]
    exact replay
  · intro sequence member
    exact lt_of_lt_of_le (kept.below sequence member) later

theorem prepare_error_clock (failed : prepare issuer manager request = .error (after, message)) :
    manager.logicalClock ≤ after.logicalClock := by
  cases request with
  | storeRecord factId record =>
    simp only [prepare] at failed
    split at failed
    · cases failed
    · cases failed
      exact le_rfl
  | recordDeletion factId reason now =>
    simp only [prepare] at failed
    split at failed
    · cases failed
      exact le_rfl
    · cases failed
  | createBatchProvenance items =>
    simp only [prepare] at failed
    split at failed
    · cases failed
    · split at failed
      · cases failed
        exact le_rfl
      rename_i first outcome made
      split at failed
      · cases failed
        unfold batchRecords at made
        obtain ⟨envelope, -, made⟩ := bind_eq_ok.mp made
        obtain ⟨start, room, made⟩ := bind_eq_ok.mp made
        simp only [Except.ok.injEq, Prod.mk.injEq] at made
        obtain ⟨rfl, -⟩ := made
        unfold reserveSequences at room
        split at room
        · cases room
          exact Nat.le_add_right _ _
        · cases room
      · cases failed

theorem Fate.left_lines (lawful : codec.Lawful) {log left : Bytes} {fate : Fate} {head : Array32}
    {logged : List LogLine} (remains : fate.left log (appended codec head logged) = some left)
    (boundary : left = [] ∨ left.getLast? = some NEWLINE) :
    left = terminated (((chain codec head logged).1.take (left.count NEWLINE)).map utf8) := by
  have first : ∃ kept, left = (appended codec head logged).take kept := by
    have all : appended codec head logged =
        (appended codec head logged).take (appended codec head logged).length := take_length.symm
    cases fate with
    | completes => cases remains
    | rejected =>
      cases remains
      exact ⟨0, rfl⟩
    | unsynced =>
      simp only [Fate.left] at remains
      split at remains
      · cases remains
        exact ⟨_, all⟩
      · cases remains
    | unsigned =>
      cases remains
      exact ⟨_, all⟩
    | torn kept =>
      cases remains
      exact ⟨kept, rfl⟩
  obtain ⟨kept, rfl⟩ := first
  have cut := take_terminated (plain_map (chain_plain lawful head logged)) boundary
  rw [← map_take] at cut
  exact cut

theorem call_cases (codec : LogCodec) (fate : Fate) (opened : store.manager = some manager)
    (ready : prepare issuer manager request = .ok prepared) (writes : prepared.logged ≠ [])
    (sound : prepared.Sound manager request) :
    (∃ after, call codec issuer store request fate =
        ({ store with log := store.log ++ appended codec manager.chainHead prepared.logged, manager := some after },
          some prepared.logged) ∧ after.logicalClock = prepared.advanced) ∨
      ∃ left after, fate.left store.log (appended codec manager.chainHead prepared.logged) = some left ∧
        call codec issuer store request fate = ({ store with log := store.log ++ left, manager := after }, none) ∧
        ∀ manager', after = some manager' → manager.logicalClock ≤ manager'.logicalClock := by
  unfold call
  simp only [opened, ready, if_neg writes, appendChained]
  cases fate with
  | completes => exact .inl ⟨_, rfl, rfl⟩
  | rejected =>
    refine .inr ⟨[], _, rfl, by simp [appendSynced]; rfl, ?_⟩
    rintro manager' ⟨⟩
    exact sound.reserved
  | unsynced =>
    by_cases new : store.log = []
    · refine .inr ⟨appended codec manager.chainHead prepared.logged,
        some { manager with logicalClock := prepared.reserved }, by simp [Fate.left, new],
        by simp [appendSynced, new], ?_⟩
      rintro manager' ⟨⟩
      exact sound.reserved
    · exact .inl ⟨_, by simp [appendSynced, new]; rfl, rfl⟩
  | unsigned =>
    refine .inr ⟨_, _, rfl, by simp [appendSynced]; rfl, ?_⟩
    rintro manager' ⟨⟩
    exact sound.advanced
  | torn kept =>
    refine .inr ⟨_, none, rfl, rfl, ?_⟩
    rintro manager' ⟨⟩

theorem Kept.step_call (lawful : codec.Lawful) (kept : Kept codec texts replayed run)
    (whole : Whole codec issuer run (.call request fate)) :
    ∃ texts' replayed', Kept codec texts' replayed' (advance codec issuer run (.call request fate)) := by
  cases opened : run.store.manager with
  | none =>
    refine ⟨texts, replayed, ?_⟩
    simpa [advance, call, opened] using kept
  | some manager =>
    cases ready : prepare issuer manager request with
    | error failure =>
      refine ⟨texts, replayed, ?_⟩
      have same : advance codec issuer run (.call request fate) =
          { run with store := { run.store with manager := some failure.1 } } := by
        simp [advance, call, opened, ready]
      rw [same]
      refine { kept with clock := ?_ }
      rintro manager' ⟨⟩ sequence member
      exact lt_of_lt_of_le (kept.clock manager opened sequence member) (prepare_error_clock ready)
    | ok prepared =>
      have sound := prepare_sound ready
      by_cases writes : prepared.logged = []
      · refine ⟨texts, replayed, ?_⟩
        have same : advance codec issuer run (.call request fate) = run := by
          simp [advance, call, opened, ready, writes, sequences]
        rwa [same]
      rcases call_cases codec fate opened ready writes sound with ⟨after, done, clock⟩ |
        ⟨left, after, remains, done, clock⟩
      · obtain ⟨texts', replayed', log, plain, replay, records, below, own⟩ :=
          kept.append lawful manager prepared.logged prepared.logged.length sound.bounded
        have every : (chain codec manager.chainHead prepared.logged).1.take prepared.logged.length =
            (chain codec manager.chainHead prepared.logged).1 := by
          rw [← chain_take, take_length]
        rw [every] at log
        rw [take_length] at records own
        refine ⟨texts', replayed', ?_⟩
        simp only [advance, done]
        refine ⟨log, plain, replay, ?_, ?_, ?_, kept.bits⟩
        · rw [records]
          exact kept.contains.foldl prepared.logged
        · exact forall_mem_append.mpr ⟨below, own⟩
        · rintro manager' ⟨⟩ sequence member
          rw [clock]
          rcases mem_append.mp member with old | new
          · exact lt_of_lt_of_le (kept.clock manager opened sequence old) sound.advanced
          · exact sound.below sequence new
      · obtain ⟨boundary, absent⟩ := whole manager prepared left opened ready remains
        have lines := Fate.left_lines lawful remains boundary
        obtain ⟨texts', replayed', log, plain, replay, records, below, -⟩ :=
          kept.append lawful manager prepared.logged (left.count NEWLINE) sound.bounded
        rw [← lines] at log
        refine ⟨texts', replayed', ?_⟩
        simp only [advance, done]
        refine ⟨log, plain, replay, ?_, below, ?_, kept.bits⟩
        · rw [records]
          exact kept.contains.foldl_of_absent absent
        · intro manager' given sequence member
          exact lt_of_lt_of_le (kept.clock manager opened sequence member) (clock manager' given)

theorem length_revokeCredential {next} (small : bits.length ≤ MAX_BYTES) (done : revokeCredential bits statusIndex = .ok next) :
    next.length ≤ MAX_BYTES := by
  unfold revokeCredential at done
  split at done
  · rename_i room
    cases done
    rw [length_modify, length_append, length_replicate]
    omega
  · cases done

theorem Kept.step (lawful : codec.Lawful) (kept : Kept codec texts replayed run) (whole : Whole codec issuer run event) :
    ∃ texts' replayed', Kept codec texts' replayed' (advance codec issuer run event) := by
  cases event with
  | call request fate => exact kept.step_call lawful whole
  | revoke statusIndex =>
    refine ⟨texts, replayed, ?_⟩
    simp only [advance]
    split
    · exact kept
    · rename_i bits done
      exact { kept with bits := length_revokeCredential kept.bits done }
  | reopen =>
    refine ⟨texts, replayed, { kept with clock := ?_ }⟩
    intro manager opened sequence member
    simp only [advance] at opened member
    rw [kept.reopens] at opened
    cases opened
    exact lt_of_lt_of_le (kept.below sequence member) (le_max_left _ _)

theorem Kept.batch (kept : Kept codec texts replayed run)
    (done : (call codec issuer run.store (.createBatchProvenance items) fate).2 = some logged) :
    (sequences logged).Nodup ∧ ∀ sequence ∈ sequences logged, sequence ∉ run.returned := by
  cases opened : run.store.manager with
  | none => simp [call, opened] at done
  | some manager =>
    cases ready : prepare issuer manager (.createBatchProvenance items) with
    | error failure => simp [call, opened, ready] at done
    | ok prepared =>
      have sound := prepare_sound ready
      have same : logged = prepared.logged := by
        by_cases writes : prepared.logged = []
        · simp only [call, opened, ready, if_pos writes, Option.some.injEq] at done
          rw [← done, writes]
        · rcases call_cases codec fate opened ready writes sound with ⟨after, returned, -⟩ | ⟨left, after, -, failed, -⟩
          · rw [returned] at done
            simpa using done.symm
          · rw [failed] at done
            cases done
      rw [same]
      obtain ⟨distinct, new⟩ := sound.batch items rfl
      refine ⟨distinct, ?_⟩
      intro sequence member returned
      have old := kept.clock manager opened sequence returned
      have fresh := new sequence member
      omega

theorem Kept.durable (kept : Kept codec texts replayed run) (event : Event) : Durable codec issuer run event := by
  cases event with
  | reopen => exact ⟨_, kept.reopens, kept.contains, kept.head⟩
  | revoke statusIndex => trivial
  | call request fate =>
    cases request with
    | storeRecord factId record => trivial
    | recordDeletion factId reason now => trivial
    | createBatchProvenance items =>
      intro logged done
      exact kept.batch done

theorem Kept.everyStep (lawful : codec.Lawful) (events : List Event) (kept : Kept codec texts replayed run)
    (whole : EveryStep codec issuer (Whole codec issuer) run events) :
    EveryStep codec issuer (Durable codec issuer) run events := by
  induction events generalizing texts replayed run with
  | nil => trivial
  | cons event events ih =>
    obtain ⟨texts', replayed', next⟩ := kept.step lawful whole.1
    exact ⟨kept.durable event, ih next whole.2⟩

theorem kept_empty (codec : LogCodec) : Kept codec [] ⟨∅, zeroHash, 0⟩ emptyRun :=
  ⟨rfl, by simp, rfl, fun _ _ found => found, by simp [emptyRun], by simp [emptyRun], by simp [emptyRun]⟩

/-- In every run from an empty directory whose failed calls leave whole lines, about facts without
an acknowledged record, reopens find what was acknowledged and sequences are never given twice. -/
theorem provenance_log_durable {codec : LogCodec} (lawful : codec.Lawful) (issuer : Issuer) (events : List Event)
    (whole : EveryStep codec issuer (Whole codec issuer) emptyRun events) :
    EveryStep codec issuer (Durable codec issuer) emptyRun events :=
  (kept_empty codec).everyStep lawful events whole

/-! ### A torn line -/

namespace Sample

instance instEncodableChar : Encodable Char := Encodable.ofLeftInverse Char.toNat Char.ofNat Char.ofNat_toNat
instance instEncodableUInt8 : Encodable UInt8 := Encodable.ofLeftInverse UInt8.toNat UInt8.ofNat fun byte => by simp
instance instEncodableString : Encodable String := Encodable.ofLeftInverse String.toList String.ofList @String.ofList_toList

instance : Encodable ProvenanceRecord :=
  Encodable.ofLeftInverse
    (fun r => (r.sourceUri, r.sourceHash, r.timestampMs, r.sequence, r.issuerDid, r.coseEnvelope, r.vcJson,
      r.scittReceipt, r.merkleProof))
    (fun (a, b, c, d, e, f, g, h, i) => ⟨a, b, c, d, e, f, g, h, i⟩) fun _ => rfl

instance : Encodable DeletionRecord :=
  Encodable.ofLeftInverse (fun r => (r.factId, r.deletedBy, r.timestampMs, r.reason, r.coseEnvelope))
    (fun (a, b, c, d, e) => ⟨a, b, c, d, e⟩) fun _ => rfl

instance : Encodable LogLine :=
  Encodable.ofLeftInverse
    (fun line : LogLine => match line with
      | .entry factId record => (Sum.inl (factId, record) : (String × ProvenanceRecord) ⊕ (String × DeletionRecord))
      | .deletion factId deletion => .inr (factId, deletion))
    (fun
      | .inl (factId, record) => .entry factId record
      | .inr (factId, deletion) => .deletion factId deletion)
    fun line => by cases line <;> rfl

def recordText : String :=
  "\"record\":\x7b\"source_uri\":null,\"source_hash\":null,\"timestamp_ms\":0,\"sequence\":0,\"issuer_did\":null,\"cose_envelope\":null,\"vc_json\":null,\"scitt_receipt\":null\x7d"

def zeros : String := "0000000000000000000000000000000000000000000000000000000000000000"

/-- The hex of the SHA-256 of an opening brace. -/
def braceHash : String := "021fb596db81e6d02bf3d2586ee3981fe519f275c0ac9ca76bbcf2ebb4097d96"

def firstText : String := "\x7b\"prev_hash\":\"" ++ zeros ++ "\",\"fact_id\":\"a\"," ++ recordText ++ "\x7d"
def secondText : String := "\x7b\"prev_hash\":\"" ++ braceHash ++ "\",\"fact_id\":\"b\"," ++ recordText ++ "\x7d"

/-- The digests of the texts the sample's run hashes. -/
def sha256 (bytes : Bytes) : Array32 :=
  if bytes = utf8 "\x7b" then
    ⟨[0x02, 0x1f, 0xb5, 0x96, 0xdb, 0x81, 0xe6, 0xd0, 0x2b, 0xf3, 0xd2, 0x58, 0x6e, 0xe3, 0x98, 0x1f,
    0xe5, 0x19, 0xf2, 0x75, 0xc0, 0xac, 0x9c, 0xa7, 0x6b, 0xbc, 0xf2, 0xeb, 0xb4, 0x09, 0x7d, 0x96], by decide⟩
  else if bytes = utf8 firstText then
    ⟨[0xc8, 0xaa, 0x07, 0x18, 0x78, 0x30, 0x33, 0x96, 0x3d, 0xa2, 0x9c, 0xfb, 0xaa, 0x6a, 0xe8, 0x76,
    0x4b, 0xf2, 0x0f, 0xba, 0xfb, 0xb5, 0xd7, 0x47, 0xc9, 0x28, 0xb0, 0x3f, 0x09, 0x25, 0xc3, 0xef], by decide⟩
  else if bytes = utf8 secondText then
    ⟨[0x96, 0xf1, 0xb2, 0x5f, 0xe1, 0x73, 0xa7, 0x10, 0x5b, 0xaa, 0x8d, 0x05, 0xeb, 0x37, 0x2c, 0x20,
    0x40, 0x33, 0x7f, 0x88, 0x2e, 0xc6, 0x1c, 0x64, 0x4e, 0xb2, 0xae, 0x22, 0x96, 0xa8, 0xef, 0x8d], by decide⟩
  else
    ⟨[0xfe, 0x3d, 0xf1, 0x6f, 0xf7, 0xdd, 0x00, 0xed, 0xe5, 0x3f, 0x51, 0x51, 0xa6, 0x72, 0x13, 0x42,
    0xf6, 0xb6, 0x39, 0x45, 0xee, 0x8e, 0x0d, 0x22, 0x48, 0x4a, 0xf7, 0x29, 0x13, 0xf2, 0x71, 0x70], by decide⟩

/-- A text that stands for a line of no sample. -/
def numbered (previous : String) (line : LogLine) : String :=
  String.ofList (List.replicate (Encodable.encode (previous, line)) 'x')

def parsedLine : LogLine → Parsed
  | .entry factId record => .entry factId record
  | .deletion factId _ => .value (some "delete") (some factId)

/-- serde's texts of the sample's own lines, and a code for all other lines. -/
def logCodec : LogCodec where
  sha256 := sha256
  text previous line :=
    if previous = zeros ∧ line = .entry "a" empty then firstText
    else if previous = braceHash ∧ line = .entry "b" empty then secondText
    else numbered previous line
  parse text :=
    if text = firstText then .entry "a" empty
    else if text = secondText then .entry "b" empty
    else if text.toList.all (· = 'x') then
      match (Encodable.decode text.toList.length : Option (String × LogLine)) with
      | none => .other
      | some (_, line) => parsedLine line
    else .other

theorem logCodec_parse (previous : String) (line : LogLine) :
    logCodec.parse (logCodec.text previous line) = parsedLine line := by
  have unquoted (n : Nat) (text : String) (quote : '"' ∈ text.toList) : String.ofList (List.replicate n 'x') ≠ text := by
    rintro rfl
    simp at quote
  have notFirst (n : Nat) := unquoted n firstText (by decide +kernel)
  have notSecond (n : Nat) := unquoted n secondText (by decide +kernel)
  have apart : secondText ≠ firstText := by decide +kernel
  simp only [logCodec]
  split
  · rename_i own
    simp [own.2, parsedLine]
  · split
    · rename_i own
      simp [own.2, parsedLine, apart]
    · simp [numbered, notFirst, notSecond]

theorem plain_numbered (previous : String) (line : LogLine) : Plain (utf8 (numbered previous line)) := by
  have letters (n : Nat) : utf8 (String.ofList (List.replicate n 'x')) = List.replicate n 120 := by
    have coded : String.utf8EncodeChar 'x' = [120] := by decide +kernel
    rw [utf8_ofList, flatMap_replicate, coded]
    simp
  unfold numbered
  rw [letters]
  constructor
  · simp [NEWLINE]
  · intro last
    have member := mem_of_getLast? last
    simp [RETURN] at member

theorem logCodec_lawful : logCodec.Lawful where
  entry previous factId record := logCodec_parse previous (.entry factId record)
  deletion previous factId deletion := logCodec_parse previous (.deletion factId deletion)
  plain previous line := by
    simp only [logCodec]
    split
    · exact ⟨by decide +kernel, by decide +kernel⟩
    · split
      · exact ⟨by decide +kernel, by decide +kernel⟩
      · exact plain_numbered previous line

def issuer : Issuer := ⟨libraries, manager.issuerDid, fun _ _ => .ok [], fun _ _ => .ok [], fun _ _ _ _ => .ok ""⟩

/-- A store that a crash cuts after one byte, and one after it that returns `Ok`. -/
def tornEvents : List Event :=
  [.reopen, .call (.storeRecord "a" empty) (.torn 1), .reopen, .call (.storeRecord "b" empty) .completes]

def tornRun : Run := tornEvents.foldl (advance logCodec issuer) emptyRun

end Sample

/-- The line appended after a torn one does not read back: the acknowledged record is lost. -/
theorem provenance_log_torn :
    ¬ EveryStep Sample.logCodec Sample.issuer (Durable Sample.logCodec Sample.issuer) emptyRun
      (Sample.tornEvents ++ [.reopen]) := by
  rintro ⟨-, -, -, -, ⟨manager, opened, contains, -⟩, -⟩
  have acked : Sample.tornRun.acked["b"]? = some Sample.empty := by decide +kernel
  have lost : ((reopen Sample.logCodec Sample.tornRun.store).manager.bind fun manager => manager.records["b"]?) = none := by
    decide +kernel
  have found : manager.records["b"]? = some Sample.empty := contains "b" Sample.empty acked
  have same : (reopen Sample.logCodec Sample.tornRun.store).manager = some manager := opened
  rw [same] at lost
  simp only [Option.bind_some] at lost
  rw [found] at lost
  cases lost

/-- The hypotheses hold of a run that keeps whole lines. -/
theorem provenance_log_durable_two :
    EveryStep Sample.logCodec Sample.issuer (Durable Sample.logCodec Sample.issuer) emptyRun
      [.reopen, .call (.storeRecord "a" Sample.empty) (.torn 0), .reopen,
        .call (.storeRecord "a" Sample.empty) .completes, .reopen] := by
  apply provenance_log_durable Sample.logCodec_lawful
  refine ⟨trivial, ?_, trivial, ?_, trivial, trivial⟩
  · intro manager prepared left _ _ remains
    cases remains
    simp
  · intro manager prepared left _ _ remains
    cases remains

end Warm.Provenance
