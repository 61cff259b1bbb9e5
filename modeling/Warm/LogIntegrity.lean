import Warm.HashChain
import Warm.Hex
import Warm.ProvenanceDurability
import Warm.StatusList

/-! The integrity of the signed log. The check walks the chain of digests through the raw lines and
compares its end with the head the manager holds and the head its key signed. -/
namespace Warm.Provenance

open List hiding after head

open Bytes Binary Lines HashChain

inductive LogIntegrity where
  | verified
  | empty
  | unanchored
  | corrupt
  | volatile
  deriving DecidableEq, Repr

structure KeyRotation where
  oldDid : String
  newDid : String
  coseEnvelope : Bytes

/-- serde's code for every kind of line: `value` is `from_str::<Value>`, and `rotation` takes the hex of
the predecessor's hash as `text` does. -/
structure ChainCodec extends LogCodec where
  value : String → Option Value
  rotation : String → KeyRotation → String

namespace ChainCodec

/-- The digest a line declares for the line before it. -/
def previous (codec : ChainCodec) (line : String) : Option Array32 := do
  let obj ← codec.value line
  let prev ← (obj.get "prev_hash").bind Value.asStr
  hexDecode prev

def declared (codec : ChainCodec) (line : Bytes) : Option Array32 := (Reader.fromUtf8 line).bind codec.previous

end ChainCodec

/-- The head computed from the lines, or `none` when a line does not declare the digest before it. -/
def computedHead (codec : ChainCodec) : Array32 → List Bytes → Except String (Option Array32)
  | expected, [] => .ok (some expected)
  | expected, line :: rest =>
    match Reader.fromUtf8 line with
    | none => .error "log read error: stream did not contain valid UTF-8"
    | some text =>
      match codec.previous text with
      | none => .ok none
      | some declared => if declared = expected then computedHead codec (codec.sha256 (utf8 text)) rest else .ok none

/-- The log file and the signed head file, when they exist. -/
structure LogFiles where
  log : Option Bytes
  head : Option Bytes

/-- `log_integrity` of a manager with this key and chain head; `none` when it keeps no files. -/
def logIntegrity (lib : Libraries) (codec : ChainCodec) (verifyingKey knownHead : Array32) :
    Option LogFiles → Except String LogIntegrity
  | none => .ok .volatile
  | some files =>
    match files.log with
    | none => .ok (if files.head.isSome ∨ knownHead ≠ zeroHash then .corrupt else .empty)
    | some log => do
      match ← computedHead codec zeroHash (lines log) with
      | none => .ok .corrupt
      | some computed =>
        if computed ≠ knownHead then .ok .corrupt
        else match files.head with
          | none => .ok (if lines log = [] then .empty else .unanchored)
          | some signed =>
            match verifyAndExtract lib verifyingKey signed with
            | .ok stored => .ok (if stored = computed.val then .verified else .corrupt)
            | .error _ => .ok .corrupt

/-! ### Runs -/

structure Signing where
  issuer : SigningKey → Issuer
  signPayload : SigningKey → Bytes → Except String Bytes
  rotationPayload : String → String → Except String Bytes

structure SignedLog where
  store : Store
  head : Option Bytes
  signingKey : SigningKey

namespace SignedLog

/-- The files as they are on disk: the log is created by its first append. -/
def files (state : SignedLog) : LogFiles := ⟨if state.store.log = [] then none else some state.store.log, state.head⟩

/-- A call that returns `Ok`: its lines are appended, and the new head is signed. -/
def call (codec : ChainCodec) (signing : Signing) (state : SignedLog) (request : Call) : Option SignedLog :=
  match Provenance.call codec.toLogCodec (signing.issuer state.signingKey) state.store request .completes with
  | (_, none) => none
  | (store, some logged) =>
    if logged = [] then some { state with store := store }
    else do
      let manager ← store.manager
      let signed ← (signing.signPayload state.signingKey manager.chainHead.val).toOption
      some { state with store := store, head := some signed }

/-- `rotate_key` to the key of a new key file, when it returns `Ok`. -/
def rotateKey (lib : Libraries) (codec : ChainCodec) (signing : Signing) (state : SignedLog) (newSigningKey : SigningKey) :
    Option SignedLog := do
  let manager ← state.store.manager
  let oldDid := didKeyFromEd25519 lib state.signingKey.publicKey
  let newDid := didKeyFromEd25519 lib newSigningKey.publicKey
  let payload ← (signing.rotationPayload oldDid newDid).toOption
  let envelope ← (signing.signPayload state.signingKey payload).toOption
  let line := codec.rotation (hexEncode manager.chainHead.val) ⟨oldDid, newDid, envelope⟩
  let newHead := codec.sha256 (utf8 line)
  let signed ← (signing.signPayload newSigningKey newHead.val).toOption
  some {
    store := { state.store with
      log := state.store.log ++ terminated [utf8 line]
      manager := some { manager with chainHead := newHead } }
    head := some signed
    signingKey := newSigningKey }

inductive Event where
  | call (request : Call)
  | rotateKey (newSigningKey : SigningKey)
  | reopen

/-- One event; `none` when it does not succeed. -/
def step (lib : Libraries) (codec : ChainCodec) (signing : Signing) (state : SignedLog) : Event → Option SignedLog
  | .call request => state.call codec signing request
  | .rotateKey newSigningKey => state.rotateKey lib codec signing newSigningKey
  | .reopen =>
    let store := Provenance.reopen codec.toLogCodec state.store
    if store.manager.isSome then some { state with store := store } else none

/-- The event adds lines to the log. -/
def Event.Appends : Event → Prop
  | .call (.createBatchProvenance items) => items ≠ []
  | .call _ => True
  | .rotateKey _ => True
  | .reopen => False

def run (lib : Libraries) (codec : ChainCodec) (signing : Signing) (state : SignedLog) (events : List Event) :
    Option SignedLog :=
  events.foldlM (step lib codec signing) state

/-- An empty directory, before a manager with this key opens it. -/
def fresh (bits : Bytes) (signingKey : SigningKey) : SignedLog := ⟨⟨[], bits, none⟩, none, signingKey⟩

end SignedLog

/-- Documented behaviour of `serde_json` and of the signatures: a line reads back with the hash it was
written with, a rotation is no deletion and one line, and what a key signs verifies under it. -/
structure ChainCodec.Lawful (codec : ChainCodec) (lib : Libraries) (signing : Signing) : Prop where
  lines : codec.toLogCodec.Lawful
  text : ∀ previous line, ((codec.value (codec.text previous line)).bind (Value.get "prev_hash")).bind Value.asStr = some previous
  rotation : ∀ previous rotation,
    ((codec.value (codec.rotation previous rotation)).bind (Value.get "prev_hash")).bind Value.asStr = some previous
  rotation_plain : ∀ previous rotation, Plain (utf8 (codec.rotation previous rotation))
  signature : ∀ signingKey payload signed, signing.signPayload signingKey payload = .ok signed →
    verifyAndExtract lib signingKey.publicKey signed = .ok payload

/-! ### What the check accepts -/

theorem toOption_eq_some {x : Except String α} {a : α} : x.toOption = some a ↔ x = .ok a := by
  cases x <;> simp [Except.toOption]

theorem utf8_of_fromUtf8 (read : Reader.fromUtf8 data = some text) : utf8 text = data := by
  unfold Reader.fromUtf8 String.fromUTF8? at read
  split at read
  · cases read
    rfl
  · cases read

variable {lib : Libraries} {codec : ChainCodec}

theorem computedHead_eq_some :
    computedHead codec start ls = .ok (some head) ↔ Chained codec.sha256 codec.declared start ls head := by
  induction ls generalizing start with
  | nil => simp [computedHead, Chained]
  | cons line ls ih =>
    unfold computedHead Chained
    cases read : Reader.fromUtf8 line with
    | none => simp [ChainCodec.declared, read]
    | some text =>
      have own : codec.declared line = codec.previous text := by simp [ChainCodec.declared, read]
      rw [own]
      dsimp only
      cases declared : codec.previous text with
      | none => simp
      | some hash =>
        dsimp only
        by_cases same : hash = start
        · rw [if_pos same, ih, utf8_of_fromUtf8 read]
          simp [same]
        · rw [if_neg same]
          simp [same]

theorem logIntegrity_verified_iff {verifyingKey knownHead : Array32} :
    logIntegrity lib codec verifyingKey knownHead (some files) = .ok .verified ↔
      ∃ log signed, files.log = some log ∧ files.head = some signed ∧
        Chained codec.sha256 codec.declared zeroHash (lines log) knownHead ∧
        verifyAndExtract lib verifyingKey signed = .ok knownHead.val := by
  unfold logIntegrity
  dsimp only
  cases present : files.log with
  | none =>
    dsimp only
    constructor
    · intro done
      split at done <;> cases done
    · rintro ⟨_, _, absent, -⟩
      cases absent
  | some log =>
    rw [bind_eq_ok]
    constructor
    · rintro ⟨computed, walked, done⟩
      cases computed with
      | none => cases done
      | some computed =>
        dsimp only at done
        split at done
        · cases done
        · rename_i same
          rw [ne_eq, not_not] at same
          subst same
          cases anchored : files.head with
          | none =>
            rw [anchored] at done
            dsimp only at done
            split at done <;> cases done
          | some signed =>
            rw [anchored] at done
            dsimp only at done
            cases checked : verifyAndExtract lib verifyingKey signed with
            | error message => simp [checked] at done
            | ok stored =>
              rw [checked] at done
              simp only [Except.ok.injEq] at done
              split at done
              · rename_i own
                exact ⟨log, signed, rfl, rfl, computedHead_eq_some.mp walked, by rw [checked, own]⟩
              · cases done
    · rintro ⟨own, signed, same, anchored, chained, checked⟩
      cases same
      refine ⟨some knownHead, computedHead_eq_some.mpr chained, ?_⟩
      simp [anchored, checked]


/-! ### Runs -/

theorem declared_utf8
    (read : ((codec.value text).bind (Value.get "prev_hash")).bind Value.asStr = some (hexEncode start.val)) :
    codec.declared (utf8 text) = some start := by
  obtain ⟨field, looked, string⟩ := Option.bind_eq_some_iff.mp read
  obtain ⟨obj, parsed, found⟩ := Option.bind_eq_some_iff.mp looked
  have field_ : (obj.get "prev_hash").bind Value.asStr = some (hexEncode start.val) := by rw [found, Option.bind_some, string]
  simp only [ChainCodec.declared, Reader.fromUtf8_utf8, Option.bind_some, ChainCodec.previous, parsed, field_,
    Option.bind_eq_bind, hexDecode_hexEncode]

section
variable {signing : Signing}

theorem chain_chained (lawful : codec.Lawful lib signing) (start : Array32) (logged : List LogLine) :
    Chained codec.sha256 codec.declared start ((chain codec.toLogCodec start logged).1.map utf8)
      (chain codec.toLogCodec start logged).2 := by
  induction logged generalizing start with
  | nil => rfl
  | cons line logged ih => exact ⟨declared_utf8 (lawful.text _ _), ih _⟩

namespace SignedLog

/-- The log is a chain of lines whose last digest the manager holds, and the key has signed. -/
structure Anchored (lib : Libraries) (codec : ChainCodec) (state : SignedLog) (texts : List String) (head : Array32) :
    Prop where
  log : state.store.log = terminated (texts.map utf8)
  plain : ∀ text ∈ texts, Plain (utf8 text)
  chained : Chained codec.sha256 codec.declared zeroHash (texts.map utf8) head
  held : ∀ manager, state.store.manager = some manager → manager.chainHead = head
  signed : texts ≠ [] → ∃ signed, state.head = some signed ∧
    verifyAndExtract lib state.signingKey.publicKey signed = .ok head.val
  unsigned : texts = [] → state.head = none

variable {state next : SignedLog} {texts : List String} {head : Array32}

theorem Anchored.append (anchored : Anchored lib codec state texts head) {head' : Array32}
    (plain : ∀ text ∈ added, Plain (utf8 text))
    (chained : Chained codec.sha256 codec.declared head (added.map utf8) head') (nonempty : added ≠ [])
    (log : next.store.log = state.store.log ++ terminated (added.map utf8))
    (held : ∀ manager, next.store.manager = some manager → manager.chainHead = head') {signed : Bytes}
    (anchor : next.head = some signed)
    (verifies : verifyAndExtract lib next.signingKey.publicKey signed = .ok head'.val) :
    Anchored lib codec next (texts ++ added) head' where
  log := by rw [log, anchored.log, map_append, terminated_append]
  plain := fun text member => (mem_append.mp member).elim (anchored.plain text) (plain text)
  chained := by
    rw [map_append]
    exact anchored.chained.append chained
  held := held
  signed := fun _ => ⟨signed, anchor, verifies⟩
  unsigned := fun none => absurd (append_eq_nil_iff.mp none).2 nonempty

theorem prepare_logged (done : prepare issuer manager request = .ok prepared) (none : prepared.logged = []) :
    ¬ (Event.call request).Appends := by
  cases request with
  | storeRecord factId record =>
    simp only [prepare] at done
    split at done
    · cases done
      cases none
    · cases done
  | recordDeletion factId reason now =>
    simp only [prepare] at done
    split at done
    · cases done
    · cases done
      cases none
  | createBatchProvenance items =>
    intro appends
    simp only [prepare, if_neg appends] at done
    split at done
    · cases done
    · rename_i first records batched
      split at done
      · cases done
      · rename_i made
        cases done
        unfold batchRecords at batched
        obtain ⟨envelope, -, batched⟩ := bind_eq_ok.mp batched
        obtain ⟨start, -, batched⟩ := bind_eq_ok.mp batched
        obtain ⟨rfl, records⟩ := Prod.mk.inj (Except.ok.inj batched)
        have same := (batch_sequences (mapM_eq_ok.mp records)).1
        rw [map_eq_nil_iff, zip_eq_nil_iff] at none
        rcases none with empty | empty
        · exact appends empty
        · rw [empty] at same
          exact appends (length_eq_zero_iff.mp same)

theorem Anchored.call (lawful : codec.Lawful lib signing) (anchored : Anchored lib codec state texts head) {request : Call}
    (done : state.call codec signing request = some next) :
    ∃ added head', Anchored lib codec next (texts ++ added) head' ∧ (Event.Appends (.call request) → added ≠ []) := by
  unfold SignedLog.call Provenance.call at done
  cases opened : state.store.manager with
  | none => simp [opened] at done
  | some manager =>
    rw [opened] at done
    dsimp only at done
    cases prepared : prepare (signing.issuer state.signingKey) manager request with
    | error failed => simp [prepared] at done
    | ok lines =>
      rw [prepared] at done
      dsimp only at done
      by_cases empty : lines.logged = []
      · rw [if_pos empty] at done
        cases done
        exact ⟨[], head, by rwa [append_nil], fun appends => absurd appends (prepare_logged prepared empty)⟩
      · rw [if_neg empty] at done
        simp only [appendChained, appendSynced, if_true] at done
        rw [if_neg empty] at done
        obtain ⟨after, same, done⟩ := Option.bind_eq_some_iff.mp done
        cases same
        obtain ⟨signed, signs, done⟩ := Option.bind_eq_some_iff.mp done
        cases done
        have start := anchored.held manager opened
        have nonempty : (chain codec.toLogCodec head lines.logged).1 ≠ [] := by
          obtain ⟨line, rest, split⟩ := exists_cons_of_ne_nil empty
          rw [split]
          simp [chain]
        refine ⟨_, _, anchored.append (chain_plain lawful.lines head lines.logged) (chain_chained lawful head lines.logged)
          nonempty ?_ ?_ rfl ?_, fun _ => nonempty⟩
        · rw [start]
          rfl
        · intro after same
          cases same
          rw [start]
        · rw [start] at signs
          exact lawful.signature _ _ _ (toOption_eq_some.mp signs)

theorem Anchored.rotateKey (lawful : codec.Lawful lib signing) (anchored : Anchored lib codec state texts head)
    {newSigningKey : SigningKey} (done : state.rotateKey lib codec signing newSigningKey = some next) :
    ∃ added head', Anchored lib codec next (texts ++ added) head' ∧ added ≠ [] := by
  unfold SignedLog.rotateKey at done
  obtain ⟨manager, opened, done⟩ := Option.bind_eq_some_iff.mp done
  obtain ⟨payload, -, done⟩ := Option.bind_eq_some_iff.mp done
  obtain ⟨envelope, -, done⟩ := Option.bind_eq_some_iff.mp done
  obtain ⟨signed, signs, done⟩ := Option.bind_eq_some_iff.mp done
  cases done
  have start := anchored.held manager opened
  rw [start] at signs ⊢
  refine ⟨[_], _, anchored.append (by simpa using lawful.rotation_plain _ _) ⟨declared_utf8 (lawful.rotation _ _), rfl⟩
    (by simp) rfl ?_ rfl (lawful.signature _ _ _ (toOption_eq_some.mp signs)), by simp⟩
  intro after same
  cases same
  rfl

theorem Anchored.reopen (anchored : Anchored lib codec state texts head)
    (done : state.step lib codec signing .reopen = some next) : Anchored lib codec next texts head := by
  unfold step at done
  dsimp only at done
  split at done
  · cases done
    refine { anchored with held := fun manager opened => ?_ }
    obtain ⟨replayed, loaded, rest⟩ := bind_eq_ok.mp (toOption_eq_some.mp opened)
    obtain ⟨_, -, rest⟩ := bind_eq_ok.mp rest
    cases rest
    unfold loadLog at loaded
    rw [anchored.log, lines_terminated (plain_map anchored.plain), foldlM_replayLine] at loaded
    rw [anchored.chained.last_eq, replay_head loaded, getLast?_map, Option.map_map]
    rfl
  · cases done

theorem Anchored.step (lawful : codec.Lawful lib signing) (anchored : Anchored lib codec state texts head)
    (done : state.step lib codec signing event = some next) :
    ∃ added head', Anchored lib codec next (texts ++ added) head' ∧ (event.Appends → added ≠ []) := by
  cases event with
  | call request => exact anchored.call lawful done
  | rotateKey newSigningKey =>
    obtain ⟨added, head', after, nonempty⟩ := anchored.rotateKey lawful done
    exact ⟨added, head', after, fun _ => nonempty⟩
  | reopen => exact ⟨[], head, by rw [append_nil]; exact anchored.reopen done, fun appends => appends.elim⟩

theorem Anchored.run (lawful : codec.Lawful lib signing) (anchored : Anchored lib codec state texts head)
    (done : state.run lib codec signing events = some next) :
    ∃ added head', Anchored lib codec next (texts ++ added) head' ∧ ((∃ event ∈ events, event.Appends) → added ≠ []) := by
  induction events generalizing state texts head with
  | nil =>
    cases done
    exact ⟨[], head, by rwa [append_nil], by simp⟩
  | cons event events ih =>
    obtain ⟨middle, first, rest⟩ := Option.bind_eq_some_iff.mp (show (state.step lib codec signing event).bind
      (fun middle => middle.run lib codec signing events) = some next by simpa [run] using done)
    obtain ⟨added, head', after, appends⟩ := anchored.step lawful first
    obtain ⟨more, last, final, appends'⟩ := ih after rest
    refine ⟨added ++ more, last, by rwa [append_assoc] at final, ?_⟩
    rintro ⟨own, member, adds⟩ none
    obtain ⟨rfl, rfl⟩ := append_eq_nil_iff.mp none
    rcases mem_cons.mp member with rfl | member
    · exact appends adds rfl
    · exact appends' ⟨own, member, adds⟩ rfl

theorem Anchored.verified (anchored : Anchored lib codec state texts head) (nonempty : texts ≠ []) {manager : Manager}
    (opened : state.store.manager = some manager) :
    logIntegrity lib codec state.signingKey.publicKey manager.chainHead (some state.files) = .ok .verified := by
  obtain ⟨signed, anchor, verifies⟩ := anchored.signed nonempty
  have written : state.store.log ≠ [] := by
    obtain ⟨text, rest, rfl⟩ := exists_cons_of_ne_nil nonempty
    rw [anchored.log]
    simp
  refine logIntegrity_verified_iff.mpr ⟨state.store.log, signed, by simp [files, written], anchor, ?_, ?_⟩
  · rw [anchored.held manager opened, anchored.log, lines_terminated (plain_map anchored.plain)]
    exact anchored.chained
  · rw [anchored.held manager opened]
    exact verifies

end SignedLog

end

/-! ### A log of one line -/

namespace Sample

def signing : Signing where
  issuer _ := issuer
  signPayload _ payload := if payload.length = 32 then .ok payload else .error "signature error"
  rotationPayload _ _ := .ok zeroHash.val

end Sample

end Warm.Provenance
