import Warm.Binary
import Warm.Interleaving
import Warm.MemoryRecall

/-! Planning one remembered fact: the checks on its input, what is stored under its id, the links it asks for and those
its policy adds, and the document to write. Planning reads the store and the index piece by piece, so it is a program of
queries. -/
namespace Warm.Memory

open Interleaving
open Binary (utf8)

structure RememberInput where
  id : Option String
  text : String
  eventTime : Option Millis
  validFrom : Option Millis
  validTo : Option Millis
  subject : Option String
  supersedes : Option (List String)
  entities : Option (List String)
  metadata : Option Metadata
  embedding : Option (List UInt64)
  sourceUri : Option String

/-- A fact as supersession policies see it. -/
structure FactView where
  id : String
  subject : Option String
  effectiveFrom : Millis
  ingestTime : Millis
  deriving DecidableEq, Repr

/-- The links a policy asks for. -/
structure Resolution where
  /-- Existing facts the incoming fact supersedes. -/
  supersedes : List String
  /-- Existing facts that already supersede the incoming fact. -/
  supersededBy : List String
  deriving DecidableEq, Repr

abbrev SupersessionPolicy := FactView → List FactView → Resolution

/-- Supersession happens only where the caller names it. -/
def explicitOnly : SupersessionPolicy :=
  fun _ _ => ⟨[], []⟩

/-- A fact supersedes the latest earlier-or-equal fact of its subject and is superseded by the earliest later one. -/
def latestBySubject : SupersessionPolicy :=
  fun incoming sameSubject =>
    let before := sameSubject.reverse.find? fun fact =>
      fact.id != incoming.id && decide (fact.effectiveFrom ≤ incoming.effectiveFrom)
    let after := sameSubject.find? fun fact =>
      fact.id != incoming.id && decide (incoming.effectiveFrom < fact.effectiveFrom)
    ⟨(before.map (·.id)).toList, (after.map (·.id)).toList⟩

inductive IdConflict where
  | reject
  | replace
  deriving DecidableEq, Repr

/-- Errors of the memory API; `engine` and `committed` are those the engine reports, the second once the transaction
is durable. -/
inductive MemoryError where
  | invalid (message : String)
  | conflict (message : String)
  | concurrent (message : String)
  | engine (message : String)
  | committed (effect : String)
  deriving DecidableEq, Repr

/-- What a memory's writes depend on. -/
structure WriteSettings where
  onIdConflict : IdConflict
  extractor : Option (String → List String)
  supersessionActive : Bool
  policy : SupersessionPolicy
  /-- `stable_hash` of the parts of a payload. -/
  stableHash : List Bytes → String
  /-- `serde_json::to_vec` of the caller's metadata. -/
  metadataBytes : Table String Json → Bytes
  /-- The number of chunks `chunk_document` cuts a document into. -/
  chunkCount : DocumentParts → Except String Nat
  /-- How `{:?}` prints a text. -/
  debug : String → String

def MAX_BATCH : Nat := 4096
def WRITE_ATTEMPTS : Nat := 16
def MAX_TEXT_BYTES : Nat := 64 * 1024
def CHUNK_WORDS : Nat := 4096
def MAX_ID_BYTES : Nat := 4096
def MAX_LABEL_BYTES : Nat := 1024
def MAX_LABELS : Nat := 256
def MAX_LINKS : Nat := 256

/-- The reserved metadata key. -/
def KEY : String := "_mem"

/-- `char::is_control`. -/
def isControl (c : Char) : Bool :=
  c.toNat < 0x20 || (0x7F ≤ c.toNat && c.toNat < 0xA0)

def validId (id : String) : Bool :=
  !id.toList.isEmpty && decide (id.utf8ByteSize ≤ MAX_ID_BYTES) && !id.toList.any isControl &&
    !"hms:".toList.isPrefixOf id.toList

def check (condition : Bool) (message : String) : Except MemoryError Unit :=
  if condition then .ok () else .error (.invalid message)

def label (value what : String) : Except MemoryError String := do
  let value := trim value
  check (!value.toList.isEmpty && decide (value.utf8ByteSize ≤ MAX_LABEL_BYTES) && !value.toList.contains '\x00')
    (what ++ " must contain 1..=1024 bytes")
  return value

def pushUnique (list : List String) (value : String) : List String :=
  if list.contains value then list else list ++ [value]

def sortIds (ids : List String) : List String :=
  ids.mergeSort fun a b => decide (a ≤ b)

def timePart (value : Option Millis) : Bytes :=
  match value with
  | none => utf8 "-"
  | some value => utf8 (toString value)

def Metadata.isNull : Metadata → Bool
  | .object _ => false
  | .other value => value.text == utf8 "null"

def userMetadata (metadata : Option Metadata) : Except MemoryError (Table String Json) :=
  match metadata with
  | none => .ok ∅
  | some (.object entries) => .ok entries
  | some (.other value) =>
    if (Metadata.other value).isNull then .ok ∅ else .error (.invalid "metadata must be a JSON object")

/-- The entities named by the caller, each checked, then those the extractor finds. -/
def collectEntities (settings : WriteSettings) (input : RememberInput) : Except MemoryError (List String) := do
  let named ← (input.entities.getD []).foldlM (fun entities entity => do
    return pushUnique entities (← label entity "entity")) []
  let found := (settings.extractor.map fun extractor => extractor input.text).getD []
  let entities := found.foldl (fun entities entity =>
    match label entity "entity" with
    | .ok entity => pushUnique entities entity
    | .error _ => entities) named
  check (decide (entities.length ≤ MAX_LABELS)) "at most 256 entities"
  return entities

/-- The facts the caller names as superseded, each once and in order. -/
def collectExplicit (input : RememberInput) : Except MemoryError (List String) := do
  let explicit ← (input.supersedes.getD []).foldlM (fun explicit id => do
    check (validId id) "supersedes holds an invalid fact id"
    return pushUnique explicit id) []
  check (decide (explicit.length ≤ MAX_LINKS)) "at most 256 supersedes"
  return sortIds explicit

/-- What the checks on an input leave. -/
structure Checked where
  metadata : Table String Json
  subject : Option String
  entities : List String
  explicit : List String
  hash : String
  id : String

def joined (ids : List String) : Bytes :=
  utf8 ("\x01".intercalate ids)

def payloadHash (settings : WriteSettings) (input : RememberInput) (metadata : Table String Json)
    (subject : Option String) (entities explicit : List String) : String :=
  settings.stableHash [utf8 input.text, settings.metadataBytes metadata, timePart input.eventTime,
    timePart input.validFrom, timePart input.validTo, utf8 (subject.getD ""), joined explicit, joined entities,
    utf8 (input.sourceUri.getD ""),
    (input.embedding.getD []).flatMap fun value => (List.range 8).map fun i => (value >>> (8 * i).toUInt64).toUInt8]

def checkInput (settings : WriteSettings) (input : RememberInput) : Except MemoryError Checked := do
  check (!(trim input.text).toList.isEmpty && decide (input.text.utf8ByteSize ≤ MAX_TEXT_BYTES))
    "text must contain 1..=65536 bytes"
  match input.validFrom, input.validTo with
  | some start, some limit => check (decide (start < limit)) "validFrom must be before validTo"
  | _, _ => pure ()
  let metadata ← userMetadata input.metadata
  check (!metadata.contains KEY) "metadata key \"_mem\" is reserved"
  let subject ← input.subject.mapM fun subject => label subject "subject"
  let entities ← collectEntities settings input
  let explicit ← collectExplicit input
  let hash := payloadHash settings input metadata subject entities explicit
  let id ← match input.id with
    | some id => do
      check (validId id)
        "id must be 1..=4096 bytes, without control characters or the \"hms:\" prefix"
      pure id
    | none => pure ("mem:" ++ hash)
  check (!explicit.contains id) "a fact cannot supersede itself"
  return ⟨metadata, subject, entities, explicit, hash, id⟩

/-- One read of the store or of a memory's index, each under its own lock. -/
inductive Query where
  | snapshot (id : String)
  | hasDocument (id : String)
  | members (subject : String)
  | superseded (id : String)
  | supersedesTransitively (source target : String)
  | subjectIds (subject : String)
  | entityIds (entity : String)
  | component (id : String)
  | superseders (id : String)
  | bridge (start : String) (dead : List String)
  | scan (keep : DocumentParts → Bool)

abbrev Query.Reply : Query → Type
  | .snapshot _ => Option DocumentParts
  | .hasDocument _ => Bool
  | .members _ => List Member
  | .superseded _ => Bool
  | .supersedesTransitively _ _ => Bool
  | .subjectIds _ => List String
  | .entityIds _ => List String
  | .component _ => List String
  | .superseders _ => List String
  | .bridge _ _ => List String
  | .scan _ => List String

/-- What a read finds. -/
def answer (documents : Documents) (index : Index) : (query : Query) → query.Reply
  | .snapshot id => documents[id]?
  | .hasDocument id => documents.contains id
  | .members subject => index.members subject
  | .superseded id => !(index.edges id).isEmpty
  | .supersedesTransitively source target => index.supersedesTransitively source target
  | .subjectIds subject => orderedIds (index.subjectIds subject)
  | .entityIds entity => orderedIds (index.entityIds entity)
  | .component id => orderedIds (index.component id)
  | .superseders id => orderedIds ((index.edges id).map (·.by_))
  | .bridge start dead => orderedIds (index.bridge start dead.contains)
  | .scan keep => (documents.toList.filter fun entry => keep entry.2).map Prod.fst

/-- A plan: reads, and then a result or an error. -/
abbrev Plan (α : Type) := ExceptT MemoryError (Program Query Query.Reply) α

namespace Plan

def ask (query : Query) : Plan query.Reply :=
  ExceptT.lift (Program.perform query)

/-- A result that reads nothing. -/
def lift {α : Type} (result : Except MemoryError α) : Plan α :=
  ExceptT.mk (.done result)

def require (condition : Bool) (message : String) : Plan Unit :=
  lift (check condition message)

/-- The result of a plan when every read finds one state. -/
def eval {α : Type} (plan : Plan α) (view : (query : Query) → query.Reply) : Except MemoryError α :=
  Program.eval view (ExceptT.run plan)

end Plan

/-- One input after validation and policy resolution; the document to write is absent when the identical fact was
already stored. -/
structure Planned where
  id : String
  stamp : Stamp
  /-- The identical fact was already stored. -/
  idempotent : Bool
  /-- A stored document is overwritten. -/
  replaces : Bool
  /-- The overwritten fact's stamp, when the replaced document was a memory fact. -/
  previous : Option Stamp
  document : Option DocumentParts

/-- What is stored under a fact's id. -/
inductive Existing where
  | nothing
  | identical (stamp : Stamp)
  | replaced (previous : Option Stamp)

/-- What the fact meets under its id, or why it may not be written. -/
def planExisting (settings : WriteSettings) (checked : Checked) : Plan Existing := do
  match ← Plan.ask (.snapshot checked.id) with
  | none => return .nothing
  | some parts =>
    match parts.stamp with
    | some stamp =>
      if stamp.hash = some checked.hash then return .identical stamp
      else if settings.onIdConflict = .replace then return .replaced (some stamp)
      else throw (conflict checked.id)
    | none =>
      if settings.onIdConflict = .replace then
        let linked ← Plan.ask (.superseded checked.id)
        Plan.require (!linked) ("document " ++ settings.debug checked.id ++ " is not a memory fact and is superseded by others")
        return .replaced none
      else throw (conflict checked.id)
where
  conflict (id : String) : MemoryError :=
    .conflict ("fact " ++ settings.debug id ++ " already exists with different content; use another id or set onIdConflict to \"replace\"")

/-- Every fact named as superseded is stored or comes earlier in the call. -/
def planKnown (settings : WriteSettings) (earlier : List Planned) : List String → Plan Unit
  | [] => return ()
  | old :: rest => do
    let stored ← Plan.ask (.hasDocument old)
    Plan.require (stored || earlier.any fun fact => fact.id == old) ("cannot supersede unknown fact " ++ settings.debug old)
    planKnown settings earlier rest

/-- Whether the first view comes no later in the order by effect, ingest, id. -/
def FactView.upTo (a b : FactView) : Bool :=
  decide (a.effectiveFrom < b.effectiveFrom) || (a.effectiveFrom == b.effectiveFrom &&
    (decide (a.ingestTime < b.ingestTime) || (a.ingestTime == b.ingestTime && decide (a.id ≤ b.id))))

/-- The facts of the subject the policy chooses among: the stored ones, with those the call wrote before. -/
def subjectGroup (members : List Member) (earlier : List Planned) (subject id : String) : List FactView :=
  let stored := (members.filter fun member => member.id != id).map fun member =>
    (⟨member.id, some subject, member.effective, member.ingest⟩ : FactView)
  let mixed := (earlier.filter fun fact => fact.stamp.subject == some subject).foldl (fun group fact =>
    group.filter (fun view => view.id != fact.id) ++
      [⟨fact.id, some subject, fact.stamp.effectiveFrom, fact.stamp.ingest⟩]) stored
  mixed.mergeSort FactView.upTo

/-- `check!` for each of several ids. -/
def checkEach (condition : String → Bool) (message : String → String) : List String → Except MemoryError Unit
  | [] => .ok ()
  | id :: rest => do
    check (condition id) (message id)
    checkEach condition message rest

/-- The links of a fact: those its caller names, and those its policy resolves for its subject. -/
def planLinks (settings : WriteSettings) (earlier : List Planned) (input : RememberInput) (checked : Checked)
    (now : Millis) : Plan Resolution := do
  match settings.supersessionActive, checked.subject with
  | true, some subject =>
    let members ← Plan.ask (.members subject)
    let group := subjectGroup members earlier subject checked.id
    let incoming : FactView := ⟨checked.id, some subject, (input.validFrom.or input.eventTime).getD now, now⟩
    let resolution := settings.policy incoming group
    Plan.lift (checkEach (fun linked => group.any fun member => member.id == linked) (fun linked =>
      "supersession policy returned " ++ settings.debug linked ++ ", which is not a stored fact of subject " ++
        settings.debug subject) (resolution.supersedes ++ resolution.supersededBy))
    return ⟨sortIds (resolution.supersedes.foldl pushUnique checked.explicit),
      sortIds (resolution.supersededBy.foldl pushUnique [])⟩
  | _, _ => return ⟨checked.explicit, []⟩

/-- For each of several facts, the index has no chain between the two it is asked about. -/
def planNoChain (message source target : String → String) : List String → Plan Unit
  | [] => return ()
  | linked :: rest => do
    let reaches ← Plan.ask (.supersedesTransitively (source linked) (target linked))
    Plan.require (!reaches) (message linked)
    planNoChain message source target rest

def planAcyclic (settings : WriteSettings) (id : String) (links : Resolution) : Plan Unit := do
  planNoChain (fun old => "superseding " ++ settings.debug old ++ " would make a cycle") (fun old => old) (fun _ => id)
    links.supersedes
  planNoChain (fun newer => "being superseded by " ++ settings.debug newer ++ " would make a cycle") (fun _ => id)
    (fun newer => newer) links.supersededBy

def planDocument (settings : WriteSettings) (input : RememberInput) (checked : Checked) (stamp : Stamp) :
    Except MemoryError DocumentParts := do
  let document : DocumentParts :=
    ⟨some input.text, input.sourceUri, .object checked.metadata, input.embedding, some stamp⟩
  match settings.chunkCount document with
  | .error reason => throw (.invalid ("invalid fact: " ++ reason))
  | .ok count =>
    check (count == 1) "text must fit one chunk of at most 4096 words; remember it as several facts"
    return document

def planOne (settings : WriteSettings) (earlier : List Planned) (input : RememberInput) (now : Millis) : Plan Planned := do
  let checked ← Plan.lift (checkInput settings input)
  match ← planExisting settings checked with
  | .identical stamp => return ⟨checked.id, stamp, true, false, none, none⟩
  | .nothing => planFact checked false none
  | .replaced previous => planFact checked true previous
where
  planFact (checked : Checked) (replaces : Bool) (previous : Option Stamp) : Plan Planned := do
    planKnown settings earlier checked.explicit
    let links ← planLinks settings earlier input checked now
    planAcyclic settings checked.id links
    let stamp : Stamp := ⟨now, input.eventTime, input.validFrom, input.validTo, checked.subject, links.supersedes,
      links.supersededBy, checked.entities, some checked.hash⟩
    let document ← Plan.lift (planDocument settings input checked stamp)
    return ⟨checked.id, stamp, false, replaces, previous, some document⟩

/-- The facts of one call, each planned after those before it. -/
def planAll (settings : WriteSettings) (now : Millis) : List RememberInput → List Planned → Plan (List Planned)
  | [], planned => return planned
  | input :: rest, planned => do
    let fact ← planOne settings planned input now
    Plan.require (!planned.any fun other => other.id == fact.id)
      ("fact id " ++ settings.debug fact.id ++ " appears twice in one call")
    planAll settings now rest (planned ++ [fact])

end Warm.Memory
