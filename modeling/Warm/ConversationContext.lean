import Warm.ProvenanceCredential
import Mathlib.Data.Finset.Sort
import Mathlib.Data.String.Basic
import Mathlib.Data.Prod.Lex

/-! The context encoding of conversation sources: sessions are interned, premises become ordinals,
and a decoder reconstructs the sources and checks every rule of the encoding. -/
namespace Warm.Conversation

open Bytes Binary Provenance

def MAX_CONVERSATION_BYTES : Nat := 2 * 1024 * 1024
def MAX_CONVERSATION_METADATA_BYTES : Nat := 60 * 1024
def MAX_CONVERSATION_RECORDS : Nat := 4096

inductive ConversationRole where
  | user
  | assistant
  deriving DecidableEq, Repr

structure ConversationSource where
  recordId : String
  sourceId : String
  sessionId : String
  version : String
  turnIndex : Nat
  role : ConversationRole
  observationTime : Int
  text : String
  premiseRecordIds : List String
  deriving DecidableEq, Repr

inductive ContextPremise where
  | localOrdinal (ordinal : Nat)
  | unresolved (id : String)
  deriving DecidableEq, Repr

structure ContextTurn where
  session : Nat
  index : Nat
  id : String
  role : ConversationRole
  time : Int
  text : String
  premises : List ContextPremise
  deriving DecidableEq, Repr

inductive ContextSufficiency where
  | unverified
  deriving DecidableEq, Repr

structure ConversationContext where
  schemaVersion : Nat
  sufficiency : ContextSufficiency
  sourcesSha256 : String
  sessions : List (String × String)
  turns : List ContextTurn
  deriving DecidableEq, Repr

/-- SHA-256 and the JSON texts that are hashed, written and read. `identity` is the text of
`(SCHEMA, "source", (session, version, index, source))`. -/
structure ContextCodec where
  digest : Bytes → Array32
  identity : String → String → Nat → String → Bytes
  sources : List ConversationSource → Bytes
  toVec : ConversationContext → Bytes
  fromSlice : Bytes → Option ConversationContext

/-- `serde_json` reads back what it wrote. -/
def ContextCodec.Lossless (codec : ContextCodec) : Prop := ∀ context, codec.fromSlice (codec.toVec context) = some context

def isControl (c : Char) : Bool := c.toNat < 0x20 || (0x7f ≤ c.toNat && c.toNat < 0xa0)

def label (value : String) : Bool :=
  value ≠ "" && (utf8 value).length ≤ 256 && ! value.toList.any isControl

def sha256 (codec : ContextCodec) (bytes : Bytes) : String := hexEncode (codec.digest bytes).val

def sourceId (codec : ContextCodec) (session version : String) (index : Nat) (source : String) : String :=
  "conversation:source:" ++ sha256 codec (codec.identity session version index source)

def isHexText (text : String) : Bool := (utf8 text).length = 64 && (utf8 text).all isHexDigit

def premiseId (id : String) : Bool := (stripStart "conversation:source:" id).any isHexText

/-! ### Decoding -/

structure Decoded where
  sources : List ConversationSource := []
  identities : List (Nat × String) := []
  used : List Nat := []
  bytes : Nat := 0
  previous : Option (Nat × Nat) := none

/-- The record ids of a turn's premises. A local premise is an earlier turn of the same session and
version, and local premises ascend. -/
def decodePremises (sources : List ConversationSource) (session version : String) (index : Nat) :
    List ContextPremise → Option Nat → Except String (List String)
  | [], _ => .ok []
  | .unresolved id :: rest, last =>
    if premiseId id then (decodePremises sources session version index rest last).map (id :: ·)
    else .error "invalid unresolved conversation premise"
  | .localOrdinal ordinal :: rest, last =>
    match sources[ordinal]? with
    | none => .error "conversation context premise is missing or forward"
    | some source =>
      if source.sessionId ≠ session ∨ source.version ≠ version ∨ source.turnIndex ≥ index ∨
          (last.any fun position => position ≥ ordinal) then
        .error "conversation context premise scope or order differs"
      else (decodePremises sources session version index rest (some ordinal)).map (source.recordId :: ·)

/-- The order of `(session, index)` pairs. -/
def before (a b : Nat × Nat) : Bool := a.1 < b.1 || (a.1 = b.1 && a.2 < b.2)

def decodeTurn (codec : ContextCodec) (sessions : List (String × String)) (state : Decoded) (turn : ContextTurn) :
    Except String Decoded := do
  let some (session, version) := sessions[turn.session]? | .error "conversation context session is missing"
  let bytes := state.bytes + (utf8 turn.text).length
  ensure (bytes ≤ MAX_CONVERSATION_BYTES) "conversation context source allocation exceeds limit"
  ensure (turn.index < MAX_CONVERSATION_RECORDS ∧ label turn.id ∧
    (utf8 turn.text).length ≤ MAX_CONVERSATION_METADATA_BYTES ∧ turn.premises.length ≤ 4 ∧
    (turn.session, turn.id) ∉ state.identities ∧
    state.previous.all fun position => before position (turn.session, turn.index))
    "invalid conversation context source"
  let premises ← decodePremises state.sources session version turn.index turn.premises none
  ensure premises.Nodup "duplicate conversation context premise"
  let source : ConversationSource := {
    recordId := sourceId codec session version turn.index turn.id
    sourceId := turn.id
    sessionId := session
    version := version
    turnIndex := turn.index
    role := turn.role
    observationTime := turn.time
    text := turn.text
    premiseRecordIds := premises }
  .ok {
    sources := state.sources ++ [source]
    identities := (turn.session, turn.id) :: state.identities
    used := if turn.session ∈ state.used then state.used else turn.session :: state.used
    bytes := bytes
    previous := some (turn.session, turn.index) }

/-- Sessions are interned in strictly ascending order. -/
def ascending (sessions : List (String × String)) : Bool :=
  (sessions.zip sessions.tail).all fun pair => decide (toLex pair.1 < toLex pair.2)

def unresolvedOf (premise : ContextPremise) : Option String :=
  match premise with
  | .localOrdinal _ => none
  | .unresolved id => some id

/-- Reconstructs the sources in canonical order. -/
def ConversationContext.sources (codec : ContextCodec) (context : ConversationContext) :
    Except String (List ConversationSource) := do
  ensure (context.schemaVersion = 1 ∧ isHexText context.sourcesSha256 ∧
    context.turns.length ≤ MAX_CONVERSATION_RECORDS ∧ context.sessions.length ≤ context.turns.length ∧
    (context.sessions.all fun session => label session.1 && label session.2) ∧ ascending context.sessions)
    "invalid conversation context metadata"
  let decoded ← context.turns.foldlM (decodeTurn codec context.sessions) {}
  let available := decoded.sources.map (·.recordId)
  ensure (∀ turn ∈ context.turns, ∀ id ∈ turn.premises.filterMap unresolvedOf, id ∉ available)
    "conversation premise must use its local ordinal"
  ensure (decoded.used.length = context.sessions.length ∧
    sha256 codec (codec.sources decoded.sources) = context.sourcesSha256)
    "conversation context source digest differs"
  .ok decoded.sources

/-! ### Encoding -/

def position (source : ConversationSource) : String ×ₗ String ×ₗ Nat :=
  toLex (source.sessionId, toLex (source.version, source.turnIndex))

def identity (source : ConversationSource) : String ×ₗ String := toLex (source.sessionId, source.version)

def checkSource (bytes : Nat) (source : ConversationSource) : Except String Nat := do
  let size := bytes + (utf8 source.text).length
  ensure (size ≤ MAX_CONVERSATION_BYTES) "conversation context source allocation exceeds limit"
  ensure (label source.sessionId ∧ label source.version ∧ label source.sourceId ∧
    source.turnIndex < MAX_CONVERSATION_RECORDS ∧ (utf8 source.text).length ≤ MAX_CONVERSATION_METADATA_BYTES ∧
    source.premiseRecordIds.length ≤ 4 ∧ source.premiseRecordIds.all premiseId)
    "invalid conversation context source"
  .ok size

def encodePremise (ordered : List ConversationSource) (id : String) : ContextPremise :=
  match ordered.findIdx? fun source => source.recordId = id with
  | some ordinal => .localOrdinal ordinal
  | none => .unresolved id

def encodeTurn (codec : ContextCodec) (sessions : List (String ×ₗ String)) (ordered : List ConversationSource)
    (source : ConversationSource) : Except String ContextTurn := do
  ensure (source.recordId = sourceId codec source.sessionId source.version source.turnIndex source.sourceId)
    "conversation context source identity differs"
  .ok {
    session := sessions.idxOf (identity source)
    index := source.turnIndex
    id := source.sourceId
    role := source.role
    time := source.observationTime
    text := source.text
    premises := source.premiseRecordIds.map (encodePremise ordered) }

/-- The sources by session, version and turn index. -/
def canonicalOrder (sources : List ConversationSource) : List ConversationSource :=
  sources.mergeSort fun a b => decide (position a ≤ position b)

def fromSourcesInner (codec : ContextCodec) (sources : List ConversationSource) : Except String ConversationContext := do
  ensure (sources.length ≤ MAX_CONVERSATION_RECORDS) "invalid conversation context bounds"
  let _ ← sources.foldlM checkSource 0
  let ordered := canonicalOrder sources
  let sessions := (ordered.map identity).toFinset.sort (· ≤ ·)
  ensure (ordered.map (·.recordId)).Nodup "duplicate conversation context source"
  let turns ← ordered.mapM (encodeTurn codec sessions ordered)
  let context : ConversationContext := {
    schemaVersion := 1
    sufficiency := .unverified
    sourcesSha256 := sha256 codec (codec.sources ordered)
    sessions := sessions.map ofLex
    turns := turns }
  let _ ← context.sources codec
  .ok context

/-- Decodes a bounded frame and checks it. -/
def fromJson (codec : ContextCodec) (bytes : Bytes) : Except String ConversationContext := do
  ensure (bytes.length ≤ MAX_CONVERSATION_BYTES) "conversation context exceeds frame limit"
  let some context := codec.fromSlice bytes | .error "invalid conversation context frame"
  let _ ← context.sources codec
  .ok context

end Warm.Conversation
