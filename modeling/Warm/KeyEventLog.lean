import Warm.HashChain
import Warm.Hex
import Warm.ProvenanceTrust

/-! Key event logs. An accepted log keeps one identifier, hands its keys on only as committed, and is
determined by the digest of its last event. -/
namespace Warm.Provenance

open Bytes Binary HashChain List

inductive EventType where
  | inception
  | rotation
  | interaction
  deriving DecidableEq, Repr

/-- serde's lowercase name. -/
def EventType.text : EventType → String
  | .inception => "inception"
  | .rotation => "rotation"
  | .interaction => "interaction"

structure KeyEvent where
  version : String
  eventType : EventType
  digest : String
  identifier : String
  sequence : Nat
  keyThreshold : Nat
  keys : List String
  nextThreshold : Option Nat
  nextKeysDigest : Option String
  priorDigest : Option String
  anchors : List Value
  signature : String

namespace KeyEvent

/-- The fields as they are serialized: in the order they are declared, without those that are skipped. -/
def toValue (event : KeyEvent) : Value :=
  let number := fun n : Nat => Value.number (toString n)
  .object ([("v", .string event.version), ("t", .string event.eventType.text), ("d", .string event.digest),
    ("i", .string event.identifier), ("s", number event.sequence), ("kt", number event.keyThreshold),
    ("k", .array (event.keys.map .string))] ++
    (event.nextThreshold.toList.map fun threshold => ("nt", number threshold)) ++
    (event.nextKeysDigest.toList.map fun digest => ("n", .string digest)) ++
    (event.priorDigest.toList.map fun digest => ("p", .string digest)) ++
    (if event.anchors = [] then [] else [("a", .array event.anchors)]) ++ [("signature", .string event.signature)])

def unsigned (event : KeyEvent) : KeyEvent := { event with signature := "" }

def undigested (event : KeyEvent) : KeyEvent := { event with digest := "", signature := "" }

end KeyEvent

def nextKeysDigest (lib : Libraries) (keys : List String) : Except String String := do
  let publicKeys ← keys.mapM (ed25519FromDidKey lib)
  .ok (hexEncode (lib.sha256 (publicKeys.flatMap (·.val))).val)

def selfAddressingDigest (lib : Libraries) (event : KeyEvent) : String :=
  hexEncode (lib.sha256 (lib.toVec event.undigested.toValue)).val

def keyVerifies (lib : Libraries) (message signature : Bytes) (keyDid : String) : Bool :=
  match ed25519FromDidKey lib keyDid with
  | .error _ => false
  | .ok bytes =>
    match verifyingKey lib bytes with
    | .error _ => false
    | .ok key => lib.verifyStrict key message signature

def verifyEventSignature (lib : Libraries) (event : KeyEvent) (signerKeys : List String) : Except String Unit := do
  let decoded ← (lib.decodeMultibase event.signature).mapError fun e => "multibase decode failed: " ++ e
  ensure (decoded.2.length = 64) "invalid signature: signature error"
  ensure (signerKeys.any (keyVerifies lib (lib.toVec event.unsigned.toValue) decoded.2))
    "no authorized key verified the signature"

/-- An interaction leaves the key state of the event before it. -/
def KeyEvent.sameKeyState (event prior : KeyEvent) : Prop :=
  event.keys = prior.keys ∧ event.keyThreshold = prior.keyThreshold ∧ event.nextThreshold = prior.nextThreshold ∧
    event.nextKeysDigest = prior.nextKeysDigest

instance (event prior : KeyEvent) : Decidable (event.sameKeyState prior) := by
  unfold KeyEvent.sameKeyState
  infer_instance

/-- The checks of an event against the one before it. -/
def checkLinkage (lib : Libraries) (i : Nat) (prior event : KeyEvent) : Except String Unit := do
  ensure (event.eventType ≠ .inception) ("inception event at position " ++ toString i)
  ensure (event.eventType = .interaction → event.sameKeyState prior)
    ("interaction at event " ++ toString i ++ " changes the key state")
  ensure (event.priorDigest = some prior.digest) ("chain break at event " ++ toString i)
  if event.eventType = .rotation then do
    let some committed := prior.nextKeysDigest
      | .error ("rotation at event " ++ toString i ++ " but prior event pre-committed no next key")
    ensure ((← nextKeysDigest lib event.keys) = committed)
      ("rotation at event " ++ toString i ++ " installs keys not matching the prior commitment")
  else .ok ()

/-- The checks of an event, after the event `prior`. -/
def verifyEvent (lib : Libraries) (identifier : String) (i : Nat) (prior : Option KeyEvent) (event : KeyEvent) :
    Except String Unit := do
  ensure (event.identifier = identifier) ("identifier changes at event " ++ toString i)
  ensure (event.sequence = i) ("sequence gap: expected " ++ toString i ++ ", got " ++ toString event.sequence)
  ensure (event.keyThreshold ≤ 1)
    ("multisig key threshold (" ++ toString event.keyThreshold ++ ") not supported at event " ++ toString i)
  ensure (selfAddressingDigest lib event = event.digest) ("digest mismatch at event " ++ toString i)
  match prior with
  | none => verifyEventSignature lib event event.keys
  | some prior => do
    checkLinkage lib i prior event
    verifyEventSignature lib event prior.keys

def verifyEvents (lib : Libraries) (identifier : String) : Nat → Option KeyEvent → List KeyEvent → Except String Unit
  | _, _, [] => .ok ()
  | i, prior, event :: events => do
    verifyEvent lib identifier i prior event
    verifyEvents lib identifier (i + 1) (some event) events

def verifyKeyEventLog (lib : Libraries) (events : List KeyEvent) : Except String Unit := do
  let inception :: _ := events | .error "empty KEL"
  ensure (inception.eventType = .inception) "first event must be inception"
  let identifierKey ← ed25519FromDidKey lib inception.identifier
  let [key] := inception.keys | .error "identifier is not derived from the inception key"
  let inceptionKey ← ed25519FromDidKey lib key
  ensure (inceptionKey = identifierKey) "identifier is not derived from the inception key"
  verifyEvents lib inception.identifier 0 none events

/-! ### Serialized events -/

theorem lookup_append (key : String) (first second : List (String × Value)) :
    Value.lookup key (first ++ second) = (Value.lookup key first).or (Value.lookup key second) := by
  unfold Value.lookup
  rw [find?_append]
  cases List.find? (fun entry => decide (entry.1 = key)) first <;> simp

theorem lookup_optional (key name : String) (field : Option α) (value : α → Value) :
    Value.lookup key (field.toList.map fun a => (name, value a)) = if name = key then field.map value else none := by
  cases field <;> simp [Value.lookup_cons]

theorem lookup_anchors (key : String) (anchors : List Value) :
    Value.lookup key (if anchors = [] then [] else [("a", Value.array anchors)]) =
      if "a" = key ∧ anchors ≠ [] then some (.array anchors) else none := by
  by_cases empty : anchors = [] <;> simp [empty, Value.lookup_cons]

theorem text_injective {a b : EventType} (same : a.text = b.text) : a = b := by
  cases a <;> cases b <;> simp_all [EventType.text]

theorem toString_injective {a b : Nat} (same : toString a = toString b) : a = b := by
  have read (n : Nat) : Nat.ofDigitChars 10 (toString n).toList 0 = n := by
    rw [Nat.toString_eq_repr, Nat.toList_repr, Nat.ofDigitChars_toDigits (by decide) (by decide)]
  rw [← read a, same, read b]

theorem map_string_injective {first second : List String} (same : first.map Value.string = second.map Value.string) :
    first = second :=
  map_injective_iff.mpr (fun _ _ own => Value.string.inj own) same

theorem toValue_injective {a b : KeyEvent} (same : a.toValue = b.toValue) : a = b := by
  have field (key : String) := congrArg (Value.lookup key) (Value.object.inj same)
  simp only [lookup_append, lookup_optional, lookup_anchors, Value.lookup_cons] at field
  have version : a.version = b.version := by simpa using field "v"
  have eventType : a.eventType = b.eventType := text_injective (by simpa using field "t")
  have digest : a.digest = b.digest := by simpa using field "d"
  have identifier : a.identifier = b.identifier := by simpa using field "i"
  have sequence : a.sequence = b.sequence := toString_injective (by simpa using field "s")
  have keyThreshold : a.keyThreshold = b.keyThreshold := toString_injective (by simpa using field "kt")
  have keys : a.keys = b.keys := map_string_injective (by simpa using field "k")
  have numbers : Function.Injective fun n : Nat => Value.number (toString n) := fun _ _ own =>
    toString_injective (Value.number.inj own)
  have strings : Function.Injective Value.string := fun _ _ own => Value.string.inj own
  have nextThreshold : a.nextThreshold = b.nextThreshold :=
    Option.map_injective numbers (by simpa using field "nt")
  have nextKeysDigest : a.nextKeysDigest = b.nextKeysDigest := Option.map_injective strings (by simpa using field "n")
  have priorDigest : a.priorDigest = b.priorDigest := Option.map_injective strings (by simpa using field "p")
  have anchors : a.anchors = b.anchors := by
    have listed : (if a.anchors = [] then none else some (Value.array a.anchors)) =
        if b.anchors = [] then none else some (Value.array b.anchors) := by simpa using field "a"
    by_cases left : a.anchors = [] <;> by_cases right : b.anchors = [] <;> simp_all
  have signature : a.signature = b.signature := by simpa using field "signature"
  cases a
  cases b
  simp_all

/-! ### One event -/

def SignedByOneOf (lib : Libraries) (keys : List String) (event : KeyEvent) : Prop :=
  ∃ keyDid ∈ keys, ∃ key base signature, ed25519FromDidKey lib keyDid = .ok key ∧
    lib.decodeMultibase event.signature = .ok (base, signature) ∧
    lib.verifyStrict key (lib.toVec event.unsigned.toValue) signature = true

theorem verifyEventSignature_signed {keys} (verified : verifyEventSignature lib event keys = .ok ()) : SignedByOneOf lib keys event := by
  unfold verifyEventSignature at verified
  obtain ⟨⟨base, signature⟩, decoded, verified⟩ := bind_eq_ok.mp verified
  obtain ⟨_, -, signed⟩ := bind_eq_ok.mp verified
  obtain ⟨keyDid, member, verifies⟩ := any_eq_true.mp (ensure_eq_ok.mp signed)
  unfold keyVerifies at verifies
  split at verifies
  · cases verifies
  · rename_i bytes resolved
    split at verifies
    · cases verifies
    · rename_i key valid
      obtain ⟨rfl, -⟩ := verifyingKey_eq_ok valid
      exact ⟨keyDid, member, bytes, base, signature, resolved, mapError_eq_ok.mp decoded, verifies⟩

/-- What an accepted event may change of the keys of the event before it. -/
structure Follows (lib : Libraries) (prior event : KeyEvent) : Prop where
  linked : event.priorDigest = some prior.digest
  later : event.eventType ≠ .inception
  signed : SignedByOneOf lib prior.keys event
  committed : event.keys ≠ prior.keys ∨ event.nextKeysDigest ≠ prior.nextKeysDigest →
    event.eventType = .rotation ∧ ∃ commitment, prior.nextKeysDigest = some commitment ∧
      nextKeysDigest lib event.keys = .ok commitment

theorem checkLinkage_eq_ok (checked : checkLinkage lib i prior event = .ok ()) :
    event.priorDigest = some prior.digest ∧ event.eventType ≠ .inception ∧
      (event.eventType = .interaction → event.sameKeyState prior) ∧
      (event.eventType = .rotation → ∃ commitment, prior.nextKeysDigest = some commitment ∧
        nextKeysDigest lib event.keys = .ok commitment) := by
  unfold checkLinkage at checked
  obtain ⟨_, later, checked⟩ := bind_eq_ok.mp checked
  obtain ⟨_, kept, checked⟩ := bind_eq_ok.mp checked
  obtain ⟨_, linked, checked⟩ := bind_eq_ok.mp checked
  refine ⟨ensure_eq_ok.mp linked, ensure_eq_ok.mp later, ensure_eq_ok.mp kept, fun rotation => ?_⟩
  rw [if_pos rotation] at checked
  cases committed : prior.nextKeysDigest with
  | none => simp [committed] at checked
  | some commitment =>
    rw [committed] at checked
    obtain ⟨own, digest, same⟩ := bind_eq_ok.mp checked
    exact ⟨commitment, rfl, by rw [digest, ensure_eq_ok.mp same]⟩

/-- What an accepted event is on its own. -/
structure Sealed (lib : Libraries) (identifier : String) (event : KeyEvent) : Prop where
  identifier : event.identifier = identifier
  digest : selfAddressingDigest lib event = event.digest

theorem verifyEvent_eq_ok (verified : verifyEvent lib identifier i prior event = .ok ()) :
    Sealed lib identifier event ∧ ∀ before, prior = some before → Follows lib before event := by
  unfold verifyEvent at verified
  obtain ⟨_, named, verified⟩ := bind_eq_ok.mp verified
  obtain ⟨_, -, verified⟩ := bind_eq_ok.mp verified
  obtain ⟨_, -, verified⟩ := bind_eq_ok.mp verified
  obtain ⟨_, digest, verified⟩ := bind_eq_ok.mp verified
  refine ⟨⟨ensure_eq_ok.mp named, ensure_eq_ok.mp digest⟩, ?_⟩
  rintro before rfl
  obtain ⟨_, linkage, signature⟩ := bind_eq_ok.mp verified
  obtain ⟨linked, later, kept, rotated⟩ := checkLinkage_eq_ok linkage
  refine ⟨linked, later, verifyEventSignature_signed signature, fun changed => ?_⟩
  have rotation : event.eventType = .rotation := by
    cases type : event.eventType with
    | inception => exact absurd type later
    | rotation => rfl
    | interaction =>
      obtain ⟨keys, -, -, commitment⟩ := kept type
      rcases changed with other | other
      · exact absurd keys other
      · exact absurd commitment other
  exact ⟨rotation, rotated rotation⟩

/-! ### Whole logs -/

variable {lib : Libraries}

theorem verifyEvents_eq_ok (verified : verifyEvents lib identifier i prior events = .ok ()) :
    (∀ event ∈ events, Sealed lib identifier event) ∧ (prior.toList ++ events).IsChain (Follows lib) := by
  induction events generalizing i prior with
  | nil => cases prior <;> simp
  | cons event events ih =>
    obtain ⟨_, own, rest⟩ := bind_eq_ok.mp verified
    obtain ⟨sealed_, follows⟩ := verifyEvent_eq_ok own
    obtain ⟨others, chain⟩ := ih rest
    refine ⟨forall_mem_cons.mpr ⟨sealed_, others⟩, ?_⟩
    cases prior with
    | none => exact chain
    | some before => exact isChain_cons_cons.mpr ⟨follows before rfl, chain⟩

/-- What an accepted log is: an inception that names its own key, then events that follow each other. -/
structure Accepted (lib : Libraries) (events : List KeyEvent) : Prop where
  inception : ∃ inception rest keyDid key, events = inception :: rest ∧ inception.eventType = .inception ∧
    inception.keys = [keyDid] ∧ ed25519FromDidKey lib keyDid = .ok key ∧
    ed25519FromDidKey lib inception.identifier = .ok key ∧ ∀ event ∈ events, Sealed lib inception.identifier event
  follows : events.IsChain (Follows lib)

theorem verifyKeyEventLog_accepted (verified : verifyKeyEventLog lib events = .ok ()) : Accepted lib events := by
  unfold verifyKeyEventLog at verified
  cases events with
  | nil => cases verified
  | cons inception rest =>
    obtain ⟨_, type, verified⟩ := bind_eq_ok.mp verified
    obtain ⟨identifierKey, resolved, verified⟩ := bind_eq_ok.mp verified
    split at verified
    · rename_i keyDid keys
      obtain ⟨key, own, verified⟩ := bind_eq_ok.mp verified
      obtain ⟨_, same, verified⟩ := bind_eq_ok.mp verified
      obtain ⟨each, chain⟩ := verifyEvents_eq_ok verified
      exact ⟨⟨inception, rest, keyDid, key, rfl, ensure_eq_ok.mp type, keys, own,
        by rw [resolved, ensure_eq_ok.mp same], each⟩, chain⟩
    · cases verified

theorem Accepted.digests (accepted : Accepted lib events) :
    ∀ event ∈ events, selfAddressingDigest lib event = event.digest := by
  obtain ⟨_, _, _, _, _, _, _, _, _, each⟩ := accepted.inception
  exact fun event member => (each event member).digest

/-- What an event's digest links it to: the start of the log, or an earlier digest. -/
def KeyEvent.link (event : KeyEvent) : Option (Option String) :=
  if event.eventType = .inception then some none else event.priorDigest.map some

def KeyEvent.seal (event : KeyEvent) : Option String := some event.digest

theorem chained_of_isChain (chain : (first :: events).IsChain (Follows lib)) (linked : first.link = some start) :
    Chained KeyEvent.seal KeyEvent.link start ((first :: events).map KeyEvent.unsigned)
      ((first :: events).getLast?.map (·.digest)) := by
  induction events generalizing first start with
  | nil => exact ⟨linked, rfl⟩
  | cons event events ih =>
    obtain ⟨follows, rest⟩ := isChain_cons_cons.mp chain
    have next : event.link = some (some first.digest) := by
      unfold KeyEvent.link
      rw [if_neg follows.later, follows.linked]
      rfl
    rw [getLast?_cons_cons]
    exact ⟨linked, ih rest next⟩

theorem Accepted.chained (accepted : Accepted lib events) :
    Chained KeyEvent.seal KeyEvent.link none (events.map KeyEvent.unsigned) (events.getLast?.map (·.digest)) := by
  obtain ⟨inception, rest, _, _, rfl, type, -⟩ := accepted.inception
  exact chained_of_isChain accepted.follows (if_pos type)

def DigestsApart (lib : Libraries) (events : List KeyEvent) : Prop :=
  ∀ a ∈ events, ∀ b ∈ events, lib.sha256 (lib.toVec a.undigested.toValue) = lib.sha256 (lib.toVec b.undigested.toValue) →
    a.undigested.toValue = b.undigested.toValue

theorem unsigned_of_digest (apart : DigestsApart lib events) {a b : KeyEvent} (memberA : a ∈ events)
    (memberB : b ∈ events) (digestA : selfAddressingDigest lib a = a.digest)
    (digestB : selfAddressingDigest lib b = b.digest) (same : a.digest = b.digest) : a.unsigned = b.unsigned := by
  have hashes := hexEncode_injective (digestA.trans (same.trans digestB.symm))
  have fields := toValue_injective (apart a memberA b memberB hashes)
  cases a
  cases b
  simp_all [KeyEvent.undigested, KeyEvent.unsigned]

/-- An accepted log keeps the identifier of its inception key; every later event is signed by a key of
the one before it and changes keys or commitment only as a rotation to the committed keys. The digest of
the last event determines the log, up to the texts of signatures. -/
theorem keyEventLog_exact (lib : Libraries) :
    (∀ events, verifyKeyEventLog lib events = .ok () →
      (∃ inception rest keyDid key, events = inception :: rest ∧ inception.keys = [keyDid] ∧
        ed25519FromDidKey lib keyDid = .ok key ∧ ed25519FromDidKey lib inception.identifier = .ok key ∧
        ∀ event ∈ events, event.identifier = inception.identifier) ∧
      ∀ i prior event, events[i]? = some prior → events[i + 1]? = some event →
        SignedByOneOf lib prior.keys event ∧
        (event.keys ≠ prior.keys ∨ event.nextKeysDigest ≠ prior.nextKeysDigest →
          event.eventType = .rotation ∧ ∃ commitment, prior.nextKeysDigest = some commitment ∧
            nextKeysDigest lib event.keys = .ok commitment)) ∧
    ∀ events others, verifyKeyEventLog lib events = .ok () → verifyKeyEventLog lib others = .ok () →
      DigestsApart lib (events ++ others) → events.getLast?.map (·.digest) = others.getLast?.map (·.digest) →
      events.length = others.length ∧ events.map KeyEvent.unsigned = others.map KeyEvent.unsigned := by
  refine ⟨fun events verified => ?_, fun events others verified verified' apart same => ?_⟩
  · have accepted := verifyKeyEventLog_accepted verified
    obtain ⟨inception, rest, keyDid, key, start, -, keys, own, resolved, each⟩ := accepted.inception
    refine ⟨⟨inception, rest, keyDid, key, start, keys, own, resolved, fun event member => (each event member).identifier⟩,
      fun i prior event before after => ?_⟩
    obtain ⟨_, rfl⟩ := List.getElem?_eq_some_iff.mp before
    obtain ⟨inside, rfl⟩ := List.getElem?_eq_some_iff.mp after
    have follows := accepted.follows.getElem i inside
    exact ⟨follows.signed, follows.committed⟩
  · have chained := (verifyKeyEventLog_accepted verified).chained
    have chained' := (verifyKeyEventLog_accepted verified').chained
    rw [← same] at chained'
    have sealed_ : ∀ event ∈ events ++ others, selfAddressingDigest lib event = event.digest := by
      exact forall_mem_append.mpr
        ⟨(verifyKeyEventLog_accepted verified).digests, (verifyKeyEventLog_accepted verified').digests⟩
    have all : events.map KeyEvent.unsigned = others.map KeyEvent.unsigned := by
      refine chained.unique chained' ⟨?_, fun event _ fresh => by cases fresh⟩
      rw [← map_append]
      intro a memberA b memberB digests
      obtain ⟨own, member, rfl⟩ := mem_map.mp memberA
      obtain ⟨other, member', rfl⟩ := mem_map.mp memberB
      exact unsigned_of_digest apart member member' (sealed_ own member) (sealed_ other member') (Option.some.inj digests)
    exact ⟨by simpa using congrArg List.length all, all⟩

end Warm.Provenance
