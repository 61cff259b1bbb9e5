import Warm.ProvenanceTrust
import Warm.Table
import Warm.TimestampUtc

/-! Agents admitted by credentials of trusted issuers. A grant stands until the agent's next admission
or revocation, and a credential valid from a revocation's second or earlier admits no more. -/
namespace Warm.Provenance

open Bytes Binary
open Checked (lift require require_bind_eq_ok)

inductive Permission where
  | read
  | write
  deriving DecidableEq, Repr

def Permission.text : Permission → String
  | .read => "read"
  | .write => "write"

structure AccessSubject where
  id : String
  permissions : List Permission

structure AccessCredential where
  context : List String
  credentialType : List String
  id : String
  issuer : String
  validFrom : String
  validUntil : Option String
  credentialSubject : AccessSubject
  proof : Option DataIntegrityProof

/-- `serde_json::to_value` of the credential without its proof. -/
def AccessCredential.unsigned (credential : AccessCredential) : List (String × Value) :=
  let subject := Value.object (Value.collect [("id", .string credential.credentialSubject.id),
    ("permissions", .array (credential.credentialSubject.permissions.map fun p => .string p.text))])
  Value.collect ([("@context", .array (credential.context.map .string)),
    ("type", .array (credential.credentialType.map .string)), ("id", .string credential.id),
    ("issuer", .string credential.issuer), ("validFrom", .string credential.validFrom)] ++
    (credential.validUntil.toList.map fun text => ("validUntil", .string text)) ++ [("credentialSubject", subject)])

structure Grant where
  permissions : List Permission
  expiresAt : Option Nat

structure AgentRegistry where
  issuers : TrustStore
  grants : Table String Grant
  revoked : Table String Nat

def AgentRegistry.new (issuers : TrustStore) : AgentRegistry := ⟨issuers, ∅, ∅⟩

def ACCESS_CREDENTIAL_TYPE : String := "WarmAccessCredential"
def VC_TYPE : String := "VerifiableCredential"

/-- `trust_did`, with the key it resolves to. -/
def TrustStore.trustDid (lib : Libraries) (trust : TrustStore) (did : String) : Except String (TrustStore × Array32) := do
  let key ← ed25519FromDidKey lib did
  .ok ({ trust with keys := trust.keys.insert key }, key)

def expiry (credential : AccessCredential) : Checked (Option Nat) :=
  match credential.validUntil with
  | none => .ok none
  | some text => do
    .ok (some (← parseIso8601Utc text))

namespace AgentRegistry

def trustIssuer (lib : Libraries) (registry : AgentRegistry) (issuerDid : String) : Except String (AgentRegistry × Array32) := do
  let (issuers, key) ← registry.issuers.trustDid lib issuerDid
  .ok ({ registry with issuers := issuers }, key)

def admitAt (lib : Libraries) (registry : AgentRegistry) (credential : AccessCredential) (now : Nat) :
    Checked AgentRegistry := do
  let some proof := credential.proof | .error (.error "credential has no proof")
  require (VC_TYPE ∈ credential.credentialType ∧ ACCESS_CREDENTIAL_TYPE ∈ credential.credentialType)
    ("credential is not an " ++ ACCESS_CREDENTIAL_TYPE)
  require (credential.credentialSubject.permissions ≠ []) "credential grants no permission"
  let _ ← lift (ed25519FromDidKey lib credential.credentialSubject.id)
  let issuerKey ← lift (verifyDocument lib credential.unsigned credential.issuer proof)
  require (registry.issuers.isTrusted issuerKey) "credential issuer is not trusted"
  let validFrom ← parseIso8601Utc credential.validFrom
  require (validFrom ≤ now) "credential is not yet valid"
  require (registry.revoked[credential.credentialSubject.id]?.all fun revokedAt => validFrom > revokedAt)
    "credential was issued before the agent's revocation"
  let expiresAt ← expiry credential
  require (expiresAt.all fun stop => now < stop) "credential has expired"
  .ok { registry with
    grants := registry.grants.insert credential.credentialSubject.id ⟨credential.credentialSubject.permissions, expiresAt⟩ }

/-- The registry after a revocation, and whether there was a grant. -/
def revokeAt (registry : AgentRegistry) (agentDid : String) (now : Nat) : AgentRegistry × Bool :=
  let revokedAt := max (registry.revoked[agentDid]?.getD 0) now
  ({ registry with
      revoked := registry.revoked.insert agentDid revokedAt
      grants := registry.grants.erase agentDid }, registry.grants[agentDid]?.isSome)

def authorizeAt (registry : AgentRegistry) (agentDid : String) (permission : Permission) (now : Nat) :
    Except String Unit := do
  let some grant := registry.grants[agentDid]? | .error "agent has no admitted credential"
  ensure (grant.expiresAt.all fun stop => now < stop) "agent credential has expired"
  ensure (permission ∈ grant.permissions)
    ("agent credential does not grant " ++ match permission with | .read => "Read" | .write => "Write")

end AgentRegistry

/-! ### Runs -/

inductive RegistryCall where
  | trustIssuer (issuerDid : String)
  | admitAt (credential : AccessCredential) (now : Nat)
  | revokeAt (agentDid : String) (now : Nat)
  | authorizeAt (agentDid : String) (permission : Permission) (now : Nat)

/-- What a call did; a call that failed or only looked did nothing. -/
inductive RegistryEvent where
  | trusted (key : Array32)
  | admitted (credential : AccessCredential) (now : Nat)
  | revoked (agentDid : String) (now : Nat)

namespace AgentRegistry

def step (lib : Libraries) (registry : AgentRegistry) : RegistryCall → AgentRegistry × Option RegistryEvent
  | .trustIssuer issuerDid =>
    match registry.trustIssuer lib issuerDid with
    | .ok (registry, key) => (registry, some (.trusted key))
    | .error _ => (registry, none)
  | .admitAt credential now =>
    match registry.admitAt lib credential now with
    | .ok registry => (registry, some (.admitted credential now))
    | .error _ => (registry, none)
  | .revokeAt agentDid now => ((registry.revokeAt agentDid now).1, some (.revoked agentDid now))
  | .authorizeAt _ _ _ => (registry, none)

/-- The registry after calls, and what they did, the latest first. -/
def run (lib : Libraries) (registry : AgentRegistry) (history : List RegistryEvent) :
    List RegistryCall → AgentRegistry × List RegistryEvent
  | [] => (registry, history)
  | call :: calls =>
    let next := registry.step lib call
    run lib next.1 (next.2.toList ++ history) calls

end AgentRegistry

def RegistryEvent.agent : RegistryEvent → Option String
  | .trusted _ => none
  | .admitted credential _ => some credential.credentialSubject.id
  | .revoked agentDid _ => some agentDid

def latest (history : List RegistryEvent) (agentDid : String) : Option RegistryEvent :=
  history.find? fun event => event.agent = some agentDid

def AccessCredential.Unexpired (credential : AccessCredential) (now : Nat) : Prop :=
  ∀ text, credential.validUntil = some text → ∃ stop, parseIso8601Utc text = .ok stop ∧ now < stop

/-- What an admission promises at its time, given what was done before it: the credential is signed by
an issuer trusted then, valid then, and valid from a time after every revocation of the agent. -/
structure Admissible (lib : Libraries) (issuers : TrustStore) (earlier : List RegistryEvent)
    (credential : AccessCredential) (now : Nat) : Prop where
  signed : ∃ key proof, credential.proof = some proof ∧
    DocumentSignedBy lib key credential.unsigned credential.issuer proof ∧
    (key ∈ issuers.keys ∨ RegistryEvent.trusted key ∈ earlier)
  valid : credential.Unexpired now
  begun : ∃ validFrom, parseIso8601Utc credential.validFrom = .ok validFrom ∧ validFrom ≤ now ∧
    ∀ revokedAt, RegistryEvent.revoked credential.credentialSubject.id revokedAt ∈ earlier → revokedAt < validFrom

/-! ### One call -/

theorem expiry_unexpired (read : expiry credential = .ok stop) (now : Nat) :
    (stop.all fun stop => now < stop) = true ↔ credential.Unexpired now := by
  unfold expiry at read
  unfold AccessCredential.Unexpired
  cases until_ : credential.validUntil with
  | none =>
    rw [until_] at read
    cases read
    simp
  | some text =>
    rw [until_] at read
    obtain ⟨seconds, parsed, rfl⟩ : ∃ seconds, parseIso8601Utc text = .ok seconds ∧ stop = some seconds := by
      obtain ⟨seconds, parsed, done⟩ := bind_eq_ok.mp read
      cases done
      exact ⟨seconds, parsed, rfl⟩
    simp [parsed]

theorem admitAt_eq_ok {registry next : AgentRegistry} {credential : AccessCredential} {now : Nat}
    (done : registry.admitAt lib credential now = .ok next) :
    ∃ key proof validFrom stop, credential.proof = some proof ∧
      DocumentSignedBy lib key credential.unsigned credential.issuer proof ∧ key ∈ registry.issuers.keys ∧
      parseIso8601Utc credential.validFrom = .ok validFrom ∧ validFrom ≤ now ∧
      (∀ revokedAt, registry.revoked[credential.credentialSubject.id]? = some revokedAt → revokedAt < validFrom) ∧
      expiry credential = .ok stop ∧ credential.Unexpired now ∧
      next = { registry with
        grants := registry.grants.insert credential.credentialSubject.id ⟨credential.credentialSubject.permissions, stop⟩ } := by
  unfold AgentRegistry.admitAt at done
  cases carried : credential.proof with
  | none => simp [carried] at done
  | some proof =>
    rw [carried] at done
    rw [require_bind_eq_ok, require_bind_eq_ok] at done
    obtain ⟨-, -, done⟩ := done
    obtain ⟨_, -, done⟩ := bind_eq_ok.mp done
    obtain ⟨key, verified, done⟩ := bind_eq_ok.mp done
    rw [require_bind_eq_ok] at done
    obtain ⟨trusted, done⟩ := done
    obtain ⟨validFrom, parsed, done⟩ := bind_eq_ok.mp done
    rw [require_bind_eq_ok, require_bind_eq_ok] at done
    obtain ⟨begun, after, done⟩ := done
    obtain ⟨stop, read, done⟩ := bind_eq_ok.mp done
    rw [require_bind_eq_ok] at done
    obtain ⟨unexpired, done⟩ := done
    cases done
    refine ⟨key, proof, validFrom, stop, rfl, verifyDocument_signed (Checked.lift_eq_ok.mp verified), ?_, parsed, begun,
      fun revokedAt found => ?_, read, (expiry_unexpired read now).mp unexpired, rfl⟩
    · simpa [TrustStore.isTrusted] using trusted
    · rw [found] at after
      simpa using after

/-! ### The invariant -/

/-- What the registry holds is what was done: the trusted keys, for each agent the grant of its latest
admission unless it was revoked since, and a time no earlier than any of its revocations. -/
structure RegistryInvariant (lib : Libraries) (issuers : TrustStore) (registry : AgentRegistry)
    (history : List RegistryEvent) : Prop where
  keys : ∀ key, key ∈ registry.issuers.keys ↔ key ∈ issuers.keys ∨ RegistryEvent.trusted key ∈ history
  granted : ∀ agentDid credential at_, latest history agentDid = some (.admitted credential at_) →
    ∃ stop, expiry credential = .ok stop ∧
      registry.grants[agentDid]? = some ⟨credential.credentialSubject.permissions, stop⟩
  removed : ∀ agentDid, (∀ credential at_, latest history agentDid ≠ some (.admitted credential at_)) →
    registry.grants[agentDid]? = none
  revoked : ∀ agentDid at_, RegistryEvent.revoked agentDid at_ ∈ history →
    ∃ revokedAt, registry.revoked[agentDid]? = some revokedAt ∧ at_ ≤ revokedAt
  admitted : ∀ later credential at_ earlier, history = later ++ .admitted credential at_ :: earlier →
    Admissible lib issuers earlier credential at_

theorem registryInvariant_new (lib : Libraries) (issuers : TrustStore) :
    RegistryInvariant lib issuers (.new issuers) [] where
  keys := by simp [AgentRegistry.new]
  granted := by simp [latest]
  removed := by simp [AgentRegistry.new]
  revoked := by simp
  admitted := by simp

theorem latest_cons (event : RegistryEvent) (history : List RegistryEvent) (agentDid : String) :
    latest (event :: history) agentDid = if event.agent = some agentDid then some event else latest history agentDid := by
  unfold latest
  rw [List.find?_cons]
  by_cases own : event.agent = some agentDid <;> simp [own]

@[simp] theorem latest_trusted (key : Array32) (history : List RegistryEvent) (agentDid : String) :
    latest (.trusted key :: history) agentDid = latest history agentDid := by
  simp [latest_cons, RegistryEvent.agent]

theorem latest_admitted (credential : AccessCredential) (now : Nat) (history : List RegistryEvent) (agentDid : String) :
    latest (.admitted credential now :: history) agentDid =
      if agentDid = credential.credentialSubject.id then some (.admitted credential now) else latest history agentDid := by
  simp [latest_cons, RegistryEvent.agent, eq_comm]

theorem latest_revoked (own : String) (now : Nat) (history : List RegistryEvent) (agentDid : String) :
    latest (.revoked own now :: history) agentDid =
      if agentDid = own then some (.revoked own now) else latest history agentDid := by
  simp [latest_cons, RegistryEvent.agent, eq_comm]

theorem admitted_cons (holds : RegistryInvariant lib issuers registry history)
    (own : ∀ credential at_, event = .admitted credential at_ → Admissible lib issuers history credential at_)
    (split : event :: history = later ++ .admitted credential at_ :: earlier) :
    Admissible lib issuers earlier credential at_ := by
  cases later with
  | nil =>
    obtain ⟨same, rfl⟩ := List.cons.inj split
    exact own credential at_ same
  | cons first later => exact holds.admitted later credential at_ earlier (List.cons.inj split).2

variable {lib : Libraries} {issuers : TrustStore} {registry : AgentRegistry} {history : List RegistryEvent}

section

variable (holds : RegistryInvariant lib issuers registry history)
include holds

theorem RegistryInvariant.trusted (trust : TrustStore)
    (key : Array32) (added : trust.keys = registry.issuers.keys.insert key) :
    RegistryInvariant lib issuers { registry with issuers := trust } (.trusted key :: history) where
  keys := by
    intro other
    rw [added, List.mem_insert_iff, holds.keys, List.mem_cons, RegistryEvent.trusted.injEq]
    exact or_left_comm
  granted := by
    intro agentDid credential at_ found
    rw [latest_trusted] at found
    exact holds.granted agentDid credential at_ found
  removed := by
    intro agentDid none
    refine holds.removed agentDid fun credential at_ found => none credential at_ ?_
    rw [latest_trusted, found]
  revoked := by
    intro agentDid at_ member
    exact holds.revoked agentDid at_ (by simpa using member)
  admitted := fun later credential at_ earlier split =>
    admitted_cons holds (fun credential at_ same => by cases same) split

theorem RegistryInvariant.admission {now : Nat}
    {next : AgentRegistry} (done : registry.admitAt lib credential now = .ok next) :
    RegistryInvariant lib issuers next (.admitted credential now :: history) := by
  obtain ⟨key, proof, validFrom, stop, carried, signed, trusted, parsed, begun, after, read, unexpired, rfl⟩ :=
    admitAt_eq_ok done
  have own : Admissible lib issuers history credential now := by
    refine ⟨⟨key, proof, carried, signed, (holds.keys key).mp trusted⟩, unexpired, validFrom, parsed, begun, ?_⟩
    intro revokedAt member
    obtain ⟨last, found, le⟩ := holds.revoked _ _ member
    exact le.trans_lt (after last found)
  refine ⟨fun other => ?_, fun agentDid credential' at_ found => ?_, fun agentDid none => ?_,
    fun agentDid at_ member => holds.revoked agentDid at_ (by simpa using member),
    fun later credential' at_ earlier split => admitted_cons holds (fun other at_ same => ?_) split⟩
  · rw [holds.keys]
    simp
  · rw [latest_admitted] at found
    rw [Table.getElem?_insert]
    split at found
    · rename_i same
      cases found
      exact ⟨stop, read, by rw [if_pos same]⟩
    · rename_i different
      rw [if_neg different]
      exact holds.granted agentDid credential' at_ found
  · have different : agentDid ≠ credential.credentialSubject.id := by
      rintro rfl
      exact none credential now (by rw [latest_admitted, if_pos rfl])
    rw [Table.getElem?_insert, if_neg different]
    refine holds.removed agentDid fun credential' at_ found => none credential' at_ ?_
    rw [latest_admitted, if_neg different, found]
  · cases same
    exact own

theorem RegistryInvariant.revocation (agentDid : String) (now : Nat) :
    RegistryInvariant lib issuers (registry.revokeAt agentDid now).1 (.revoked agentDid now :: history) := by
  refine ⟨fun key => ?_, fun other credential at_ found => ?_, fun other none => ?_, fun other at_ member => ?_,
    fun later credential at_ earlier split => admitted_cons holds (fun credential at_ same => by cases same) split⟩
  · have same := holds.keys key
    simpa [AgentRegistry.revokeAt] using same
  · rw [latest_revoked] at found
    split at found
    · cases found
    · rename_i different
      unfold AgentRegistry.revokeAt
      rw [Table.getElem?_erase, if_neg different]
      exact holds.granted other credential at_ found
  · unfold AgentRegistry.revokeAt
    rw [Table.getElem?_erase]
    split
    · rfl
    · rename_i different
      refine holds.removed other fun credential at_ found => none credential at_ ?_
      rw [latest_revoked, if_neg different, found]
  · unfold AgentRegistry.revokeAt
    rw [Table.getElem?_insert]
    rw [List.mem_cons] at member
    split
    · rename_i same
      subst same
      refine ⟨_, rfl, ?_⟩
      rcases member with latest | earlier
      · cases latest
        exact le_max_right _ _
      · obtain ⟨last, found, le⟩ := holds.revoked _ _ earlier
        rw [found]
        exact le.trans (le_max_left _ _)
    · rename_i different
      rcases member with latest | earlier
      · cases latest
        exact absurd rfl different
      · exact holds.revoked other at_ earlier

theorem RegistryInvariant.step (call : RegistryCall) :
    RegistryInvariant lib issuers (registry.step lib call).1 ((registry.step lib call).2.toList ++ history) := by
  cases call with
  | trustIssuer issuerDid =>
    unfold AgentRegistry.step
    dsimp only
    cases done : registry.trustIssuer lib issuerDid with
    | error message => exact holds
    | ok result =>
      obtain ⟨issuers', trusted, same⟩ := bind_eq_ok.mp done
      obtain ⟨key, resolved, rest⟩ := bind_eq_ok.mp trusted
      cases rest
      cases same
      exact holds.trusted _ key rfl
  | admitAt credential now =>
    unfold AgentRegistry.step
    dsimp only
    cases done : registry.admitAt lib credential now with
    | error fault => exact holds
    | ok next => exact holds.admission done
  | revokeAt agentDid now => exact holds.revocation agentDid now
  | authorizeAt agentDid permission now => exact holds

theorem RegistryInvariant.run (calls : List RegistryCall) :
    RegistryInvariant lib issuers (AgentRegistry.run lib registry history calls).1
      (AgentRegistry.run lib registry history calls).2 := by
  induction calls generalizing registry history with
  | nil => exact holds
  | cons call calls ih => exact ih (holds.step call)

theorem RegistryInvariant.authorize (agentDid : String)
    (permission : Permission) (now : Nat) :
    registry.authorizeAt agentDid permission now = .ok () ↔
      ∃ credential at_, latest history agentDid = some (.admitted credential at_) ∧
        permission ∈ credential.credentialSubject.permissions ∧ credential.Unexpired now := by
  unfold AgentRegistry.authorizeAt
  by_cases admitted : ∃ credential at_, latest history agentDid = some (.admitted credential at_)
  · obtain ⟨credential, at_, found⟩ := admitted
    obtain ⟨stop, read, grant⟩ := holds.granted agentDid credential at_ found
    rw [grant]
    constructor
    · intro done
      obtain ⟨_, unexpired, permitted⟩ := bind_eq_ok.mp done
      exact ⟨credential, at_, found, ensure_eq_ok.mp permitted, (expiry_unexpired read now).mp (ensure_eq_ok.mp unexpired)⟩
    · rintro ⟨other, _, again, permitted, unexpired⟩
      rw [found] at again
      cases again
      exact bind_eq_ok.mpr ⟨(), ensure_eq_ok.mpr ((expiry_unexpired read now).mpr unexpired), ensure_eq_ok.mpr permitted⟩
  · rw [holds.removed agentDid fun credential at_ found => admitted ⟨credential, at_, found⟩]
    refine iff_of_false (by simp) ?_
    rintro ⟨credential, at_, found, -⟩
    exact admitted ⟨credential, at_, found⟩

end

theorem AgentRegistry.step_admitAt_none (failed : (registry.step lib (.admitAt credential now)).2 = none) :
    (registry.step lib (.admitAt credential now)).1 = registry := by
  unfold step at failed ⊢
  dsimp only at failed ⊢
  cases done : registry.admitAt lib credential now with
  | error fault => rfl
  | ok next =>
    rw [done] at failed
    cases failed

/-- After any calls to a new registry, at any times, authorization is decided by the agent's latest
admission or revocation, every admission was due when it was made, and one that fails changes nothing. -/
theorem registry_history (lib : Libraries) (issuers : TrustStore) (calls : List RegistryCall) :
    let registry := (AgentRegistry.run lib (.new issuers) [] calls).1
    let history := (AgentRegistry.run lib (.new issuers) [] calls).2
    (∀ agentDid permission now, registry.authorizeAt agentDid permission now = .ok () ↔
      ∃ credential at_, latest history agentDid = some (.admitted credential at_) ∧
        permission ∈ credential.credentialSubject.permissions ∧ credential.Unexpired now) ∧
    (∀ later credential at_ earlier, history = later ++ .admitted credential at_ :: earlier →
      Admissible lib issuers earlier credential at_) ∧
    ∀ credential now, (registry.step lib (.admitAt credential now)).2 = none →
      (registry.step lib (.admitAt credential now)).1.grants = registry.grants := by
  have holds := (registryInvariant_new lib issuers).run calls
  refine ⟨fun agentDid permission now => holds.authorize agentDid permission now, holds.admitted, ?_⟩
  intro credential now failed
  rw [AgentRegistry.step_admitAt_none failed]

end Warm.Provenance
