import Warm.Lines
import Warm.Table
import Warm.ProvenanceVerify

/-! The provenance log: a hash-chained file of JSON lines that a manager appends to and replays
when it is opened. A call's append may fail, or a crash may keep only its first bytes. -/
namespace Warm.Provenance

open Bytes Binary Lines

structure DeletionRecord where
  factId : String
  deletedBy : Option String
  timestampMs : Nat
  reason : Option String
  coseEnvelope : Option Bytes
  deriving DecidableEq

inductive LogLine where
  | entry (factId : String) (record : ProvenanceRecord)
  | deletion (factId : String) (deletion : DeletionRecord)
  deriving DecidableEq

def LogLine.factId : LogLine → String
  | .entry factId _ => factId
  | .deletion factId _ => factId

/-- What the log's JSON is to a replay: `from_str::<LogEntry>`, and else the value's `action` and
`fact_id`. -/
inductive Parsed where
  | entry (factId : String) (record : ProvenanceRecord)
  | value (action factId : Option String)
  | other
  deriving DecidableEq

/-- serde's code for the log's lines, and SHA-256. `text` takes the hex of the predecessor's hash. -/
structure LogCodec where
  sha256 : Bytes → Array32
  text : String → LogLine → String
  parse : String → Parsed

/-- Documented behaviour of `serde_json`: it reads back what it wrote, and writes one line. A
deletion lacks the field `record`, so it is no log entry. -/
structure LogCodec.Lawful (codec : LogCodec) : Prop where
  entry : ∀ previous factId record, codec.parse (codec.text previous (.entry factId record)) = .entry factId record
  deletion : ∀ previous factId deletion,
    codec.parse (codec.text previous (.deletion factId deletion)) = .value (some "delete") (some factId)
  plain : ∀ previous line, Plain (utf8 (codec.text previous line))

structure Manager where
  records : Table String ProvenanceRecord
  chainHead : Array32
  logicalClock : Nat

theorem zeroHash_length : (List.replicate 32 (0 : UInt8)).length = 32 := rfl

def zeroHash : Array32 := ⟨List.replicate 32 0, zeroHash_length⟩

/-! ### Replay -/

/-- One line that is valid text. -/
def replayText (codec : LogCodec) (state : Manager) (text : String) : Except String Manager :=
  let state := { state with chainHead := codec.sha256 (utf8 text) }
  match codec.parse text with
  | .entry factId record =>
    if record.sequence + 1 < 2 ^ 64 then
      .ok { state with
        records := state.records.insert factId record
        logicalClock := max state.logicalClock (record.sequence + 1) }
    else .error "provenance sequence is exhausted"
  | .value (some "delete") (some factId) => .ok { state with records := state.records.erase factId }
  | _ => .ok state

/-- A line that is not UTF-8 is skipped. -/
def replayLine (codec : LogCodec) (state : Manager) (line : Bytes) : Except String Manager :=
  match Reader.fromUtf8 line with
  | none => .ok state
  | some text => replayText codec state text

def loadLog (codec : LogCodec) (log : Bytes) : Except String Manager :=
  (lines log).foldlM (replayLine codec) ⟨∅, zeroHash, 0⟩

/-- The index after the highest bit that is set. -/
def statusClock (bits : Bytes) : Nat :=
  match (bits.zipIdx.reverse.find? fun entry => entry.1 ≠ 0) with
  | none => 0
  | some (byte, index) => index * 8 + Nat.log2 byte.toNat + 1

/-- `ProvenanceManager::new` on a log and a status list. -/
def openManager (codec : LogCodec) (log bits : Bytes) : Except String Manager := do
  let manager ← loadLog codec log
  ensure (bits.length ≤ MAX_BYTES) "revocation status list exceeds size limit"
  .ok { manager with logicalClock := max manager.logicalClock (statusClock bits) }

/-! ### Appends -/

/-- The texts of chained lines, and the head after them. -/
def chain (codec : LogCodec) (head : Array32) : List LogLine → List String × Array32
  | [] => ([], head)
  | line :: rest =>
    let text := codec.text (hexEncode head.val) line
    let later := chain codec (codec.sha256 (utf8 text)) rest
    (text :: later.1, later.2)

/-- The bytes `append_chained` writes. -/
def appended (codec : LogCodec) (head : Array32) (logged : List LogLine) : Bytes :=
  terminated ((chain codec head logged).1.map utf8)

/-- What becomes of a call's append: it completes; it fails and is cut back; its directory entry
is not synced; its lines are durable but the head is not signed; or a crash keeps its first bytes. -/
inductive Fate where
  | completes
  | rejected
  | unsynced
  | unsigned
  | torn (kept : Nat)
  deriving DecidableEq, Repr

inductive Appended where
  | failed (log : Bytes)
  | committed (log : Bytes) (anchored : Bool)
  | crashed (log : Bytes)

/-- `append_synced` and the signing of the head. Only a new file has its directory synced. -/
def appendSynced (log bytes : Bytes) : Fate → Appended
  | .completes => .committed (log ++ bytes) true
  | .rejected => .failed log
  | .unsynced => if log = [] then .failed (log ++ bytes) else .committed (log ++ bytes) true
  | .unsigned => .committed (log ++ bytes) false
  | .torn kept => .crashed (log ++ bytes.take kept)

/-- `append_chained`: the log, and the manager's new head when the lines are durable. -/
def appendChained (codec : LogCodec) (log : Bytes) (manager : Manager) (logged : List LogLine) (fate : Fate) :
    Appended :=
  appendSynced log (appended codec manager.chainHead logged) fate

def reserveSequences (manager : Manager) (count : Nat) : Except String Nat :=
  if manager.logicalClock + count ≤ MAX_BYTES * 8 then .ok manager.logicalClock
  else .error "credential status sequence space is exhausted"

/-! ### Batches -/

def merkleParents (lib : Libraries) (hashing : MerkleHashing) : List Array32 → List Array32
  | left :: right :: rest => hashing.node lib left right :: merkleParents lib hashing rest
  | [last] => [last]
  | [] => []

theorem length_merkleParents (lib : Libraries) (hashing : MerkleHashing) (level : List Array32) :
    (merkleParents lib hashing level).length = (level.length + 1) / 2 := by
  fun_induction merkleParents lib hashing level with
  | case1 left right rest ih => simp [ih]; omega
  | case2 last => simp
  | case3 => simp

/-- The levels of the tree over a level, that level first and the root alone last. -/
def merkleLevels (lib : Libraries) (hashing : MerkleHashing) (level : List Array32) : List (List Array32) :=
  if level.length ≤ 1 then [level] else level :: merkleLevels lib hashing (merkleParents lib hashing level)
termination_by level.length
decreasing_by
  rw [length_merkleParents]
  omega

/-- The siblings of a leaf on the way up, each flagged when it sits to the left. -/
def merkleProof : List (List Array32) → Nat → List (Bool × Array32)
  | level :: upper :: rest, index =>
    (level[index ^^^ 1]?).toList.map (fun sibling => (decide (index % 2 = 1), sibling)) ++
      merkleProof (upper :: rest) (index / 2)
  | _, _ => []

/-- The signing side of a manager: what it signs a batch root, a deletion and a credential with. -/
structure Issuer where
  lib : Libraries
  issuerDid : String
  signRoot : Array32 → Nat → Except String Bytes
  signDeletion : String → Nat → Except String Bytes
  signCredential : String → Array32 → Option String → Nat → Except String String

/-- An item of a batch, with the clock's reading when its record is made. -/
structure BatchItem where
  factId : String
  content : Bytes
  sourceUri : Option String
  now : Nat

def batchRecord (issuer : Issuer) (levels : List (List Array32)) (envelope : Bytes) (first : Nat)
    (item : BatchItem × Nat) : Except String ProvenanceRecord := do
  let contentHash := issuer.lib.sha256 item.1.content
  let vcJson ← issuer.signCredential item.1.factId contentHash item.1.sourceUri (first + item.2)
  .ok {
    sourceUri := some (item.1.sourceUri.getD "")
    sourceHash := some contentHash
    timestampMs := item.1.now
    sequence := first + item.2
    issuerDid := some issuer.issuerDid
    coseEnvelope := some envelope
    vcJson := some vcJson
    scittReceipt := none
    merkleProof := some (merkleProof levels item.2) }

/-- The records of a batch, before they are logged: the first error leaves the manager as it is,
one after the sequences are reserved leaves them reserved. -/
def batchRecords (issuer : Issuer) (manager : Manager) (items : List BatchItem) :
    Except String (Nat × Except String (List ProvenanceRecord)) := do
  let leaves := items.map fun item => MerkleHashing.rfc6962.leaf issuer.lib (issuer.lib.sha256 item.content)
  let levels := merkleLevels issuer.lib .rfc6962 leaves
  let root := ((levels.getLast?.bind List.head?).getD zeroHash)
  let envelope ← issuer.signRoot root leaves.length
  let first ← reserveSequences manager items.length
  .ok (first, items.zipIdx.mapM (batchRecord issuer levels envelope first))

/-! ### Calls -/

inductive Call where
  | storeRecord (factId : String) (record : ProvenanceRecord)
  | createBatchProvenance (items : List BatchItem)
  | recordDeletion (factId : String) (reason : Option String) (now : Nat)

/-- A call up to its append: an error with the manager after it, or the lines to append, the
sequence clock before the append and the one after it. -/
structure Prepared where
  logged : List LogLine
  reserved : Nat
  advanced : Nat

def prepare (issuer : Issuer) (manager : Manager) : Call → Except (Manager × String) Prepared
  | .storeRecord factId record =>
    if record.sequence + 1 ≤ MAX_BYTES * 8 then
      .ok ⟨[.entry factId record], manager.logicalClock, max manager.logicalClock (record.sequence + 1)⟩
    else .error (manager, "credential status sequence space is exhausted")
  | .createBatchProvenance items =>
    if items = [] then .ok ⟨[], manager.logicalClock, manager.logicalClock⟩
    else match batchRecords issuer manager items with
      | .error message => .error (manager, message)
      | .ok (first, records) =>
        let reserved := first + items.length
        match records with
        | .error message => .error ({ manager with logicalClock := reserved }, message)
        | .ok records => .ok ⟨(items.zip records).map fun item => .entry item.1.factId item.2, reserved, reserved⟩
  | .recordDeletion factId reason now =>
    match issuer.signDeletion factId now with
    | .error message => .error (manager, message)
    | .ok envelope =>
      .ok ⟨[.deletion factId ⟨factId, some issuer.issuerDid, now, reason, some envelope⟩], manager.logicalClock,
        manager.logicalClock⟩

/-- The live records after lines. -/
def applyLine (records : Table String ProvenanceRecord) : LogLine → Table String ProvenanceRecord
  | .entry factId record => records.insert factId record
  | .deletion factId _ => records.erase factId

/-- The files, and the manager while a process has it open. -/
structure Store where
  log : Bytes
  bits : Bytes
  manager : Option Manager

/-- A call on an open manager, and the lines it returned `Ok` for. An empty batch writes nothing. -/
def call (codec : LogCodec) (issuer : Issuer) (store : Store) (request : Call) (fate : Fate) :
    Store × Option (List LogLine) :=
  match store.manager with
  | none => (store, none)
  | some manager =>
    match prepare issuer manager request with
    | .error (manager, _) => ({ store with manager := some manager }, none)
    | .ok prepared =>
      if prepared.logged = [] then (store, some [])
      else match appendChained codec store.log manager prepared.logged fate with
        | .failed log =>
          ({ store with log := log, manager := some { manager with logicalClock := prepared.reserved } }, none)
        | .committed log anchored =>
          ({ store with
              log := log
              manager := some
                ⟨prepared.logged.foldl applyLine manager.records, (chain codec manager.chainHead prepared.logged).2,
                  prepared.advanced⟩ },
            if anchored then some prepared.logged else none)
        | .crashed log => ({ store with log := log, manager := none }, none)

/-- The bit `revoke_credential` sets in the list, which it replaces atomically. -/
def revokeCredential (bits : Bytes) (statusIndex : Nat) : Except String Bytes :=
  if statusIndex / 8 + 1 ≤ MAX_BYTES then
    let next := bits ++ List.replicate (statusIndex / 8 + 1 - bits.length) 0
    .ok (next.modify (statusIndex / 8) fun byte => byte ||| UInt8.ofNat (2 ^ (statusIndex % 8)))
  else .error "status index exceeds list size limit"

/-- Opens the files again, after a crash or not. -/
def reopen (codec : LogCodec) (store : Store) : Store :=
  { store with manager := (openManager codec store.log store.bits).toOption }

end Warm.Provenance
