import Warm.ProvenanceLog
import Warm.StatusList
import Mathlib.Data.Nat.Digits.Lemmas

/-! Revocation over runs. The manager's own list only grows, on disk before in memory, and a signed
list replaces the trusted one only when it keeps every revocation of it. -/
namespace Warm.Provenance

open Bytes Binary List

variable {revoked : Bool}

structure ListTrust where
  trust : TrustStore
  statusListPublishers : List (String × Array32)

/-- What an import checks against the list it replaces, when that one was imported too. -/
def checkReplaced (old : Option StatusListSnapshot) (signedAt : Int) (bits : Bytes) : Except String Unit :=
  match old with
  | none => .ok ()
  | some old =>
    match old.signedAt with
    | none => .ok ()
    | some oldAt => do
      ensure (signedAt ≥ oldAt) "status list snapshot is older than the trusted one"
      ensure (old.bits.zipIdx.all fun entry => bits[entry.2]?.any fun byte => byte &&& entry.1 == entry.1)
        "status list cannot clear a revocation bit"

def ListTrust.trustStatusListCredentialAt (lib : ListLibraries) (store : ListTrust) (credential : StatusListCredential)
    (now : StatusTime) : Except String ListTrust := do
  let (key, bits) ← verifyStatusListCredentialAt lib credential now
  ensure (store.trust.isTrusted key) "status list credential issuer is not trusted"
  ensure (store.statusListPublishers.lookup credential.id = some key)
    "status list credential issuer is not authorized for this URL"
  let signed ← parseDatetimeStamp credential.validFrom
  let validUntil ← credential.validUntil
  checkReplaced (store.trust.statusLists.lookup credential.id) signed.1 bits
  .ok { store with
    trust := { store.trust with
      statusLists := (credential.id, ⟨bits, some signed.1, validUntil⟩) :: store.trust.statusLists } }

/-- How the atomic write of the list ends: done, without a change, or with the new file in place and
the directory not synced, which the caller sees as an error. -/
inductive Persist where
  | completes
  | rejected
  | unsynced
  deriving DecidableEq

structure RevocationState where
  statusFile : Option Bytes
  revocationBitstring : Option Bytes
  store : ListTrust

def loadRevocationBitstring (statusFile : Option Bytes) : Except String Bytes :=
  match statusFile with
  | none => .ok []
  | some bits => if bits.length ≤ MAX_BYTES then .ok bits else .error "revocation status list exceeds size limit"

inductive RevocationCall where
  | revokeCredential (statusIndex : Nat) (persist : Persist)
  | reopen
  | trustStatusListCredentialAt (credential : StatusListCredential) (now : StatusTime)

namespace RevocationState

/-- `revoke_credential`, and whether it succeeded. -/
def revoke (state : RevocationState) (statusIndex : Nat) (persist : Persist) : RevocationState × Bool :=
  match state.revocationBitstring with
  | none => (state, false)
  | some bits =>
    match revokeCredential bits statusIndex with
    | .error _ => (state, false)
    | .ok next =>
      match persist with
      | .completes => ({ state with statusFile := some next, revocationBitstring := some next }, true)
      | .rejected => (state, false)
      | .unsynced => ({ state with statusFile := some next }, false)

def step (lib : ListLibraries) (state : RevocationState) : RevocationCall → RevocationState × Bool
  | .revokeCredential statusIndex persist => state.revoke statusIndex persist
  | .reopen =>
    match loadRevocationBitstring state.statusFile with
    | .ok bits => ({ state with revocationBitstring := some bits }, true)
    | .error _ => ({ state with revocationBitstring := none }, false)
  | .trustStatusListCredentialAt credential now =>
    match state.store.trustStatusListCredentialAt lib credential now with
    | .ok store => ({ state with store := store }, true)
    | .error _ => (state, false)

def run (lib : ListLibraries) (state : RevocationState) (calls : List RevocationCall) : RevocationState :=
  calls.foldl (fun state call => (state.step lib call).1) state

/-- No manager is open yet. -/
def closed (statusFile : Option Bytes) (store : ListTrust) : RevocationState := ⟨statusFile, none, store⟩

end RevocationState

/-- The manager's own list, or the list published at a URL. -/
inductive ListName where
  | own
  | published (url : String)
  deriving DecidableEq

/-- What is reported of an index: by `is_revoked` and `local_status` of an open manager, and by the
trust store's lookup at any time. -/
inductive Reports (state : RevocationState) : ListName → Nat → Bool → Prop where
  | isRevoked (bits : Bytes) (index : Nat) (held : state.revocationBitstring = some bits) :
    Reports state .own index (statusBit bits index)
  | localStatus (manager : Verifier) (index : Nat) (revoked : Bool)
    (held : state.revocationBitstring = some manager.revocationBitstring)
    (found : manager.localStatus index = .value revoked) : Reports state .own index revoked
  | statusLookupAt (now : Option StatusTime) (url : String) (index : Nat) (revoked : Bool)
    (found : state.store.trust.statusLookup now url index = .value revoked) : Reports state (.published url) index revoked

/-- A revocation whose write fails does not fail after the file was replaced, and an import does not
replace a list that was trusted without a signature. -/
def RevocationCall.Clean (state : RevocationState) : RevocationCall → Prop
  | .revokeCredential _ persist => persist ≠ .unsynced
  | .reopen => True
  | .trustStatusListCredentialAt credential _ =>
    ∀ snapshot, state.store.trust.statusLists.lookup credential.id = some snapshot → snapshot.signedAt ≠ none

def EveryClean (lib : ListLibraries) : RevocationState → List RevocationCall → Prop
  | _, [] => True
  | state, call :: calls => call.Clean state ∧ EveryClean lib (state.step lib call).1 calls

/-! ### Lists that keep their revocations -/

def Keeps (older newer : Bytes) : Prop := ∀ index, statusBit older index = true → statusBit newer index = true

theorem Keeps.refl (bits : Bytes) : Keeps bits bits := fun _ set => set

theorem Keeps.trans (left : Keeps first second) (right : Keeps second third) :
    Keeps first third := fun index set => right index (left index set)

theorem statusBit_eq_true :
    statusBit bits index = true ↔ ∃ byte, bits[index / 8]? = some byte ∧ byteBit byte index = true := by
  unfold statusBit
  rw [Option.any_eq_true]

theorem byteBit_or (byte other : UInt8) (index : Nat) :
    byteBit (byte ||| other) index = (byteBit byte index || byteBit other index) := by
  simp [byteBit]

theorem byteBit_and (byte other : UInt8) (index : Nat) :
    byteBit (byte &&& other) index = (byteBit byte index && byteBit other index) := by
  simp [byteBit]

theorem revokeCredential_keeps {next} (done : revokeCredential bits statusIndex = .ok next) : Keeps bits next := by
  unfold revokeCredential at done
  split at done
  · cases done
    intro index set
    obtain ⟨byte, found, own⟩ := statusBit_eq_true.mp set
    have inside : index / 8 < bits.length := (List.getElem?_eq_some_iff.mp found).1
    rw [statusBit_eq_true, getElem?_modify, getElem?_append_left inside, found]
    by_cases same : statusIndex / 8 = index / 8
    · exact ⟨byte ||| UInt8.ofNat (2 ^ (statusIndex % 8)), by simp [same], by rw [byteBit_or, own, Bool.true_or]⟩
    · exact ⟨byte, by simp [same], own⟩
  · cases done

theorem checkReplaced_keeps (imported : old.signedAt ≠ none) (checked : checkReplaced (some old) signedAt bits = .ok ()) :
    Keeps old.bits bits := by
  unfold checkReplaced at checked
  dsimp only at checked
  split at checked
  · rename_i unsigned
    exact absurd unsigned imported
  · obtain ⟨_, -, covers⟩ := bind_eq_ok.mp checked
    intro index set
    obtain ⟨byte, found, own⟩ := statusBit_eq_true.mp set
    have member : (byte, index / 8) ∈ old.bits.zipIdx := by
      rw [mem_zipIdx_iff_getElem?]
      exact found
    have above := all_eq_true.mp (ensure_eq_ok.mp covers) _ member
    obtain ⟨newer, present, contains⟩ := (Option.any_eq_true _ _).mp above
    refine statusBit_eq_true.mpr ⟨newer, present, ?_⟩
    have both : byteBit (newer &&& byte) index = true := by rw [beq_iff_eq.mp contains, own]
    rw [byteBit_and] at both
    exact (Bool.and_eq_true_iff.mp both).1

/-! ### One call -/

/-- The manager's list, or the file while none is open. -/
def RevocationState.issued (state : RevocationState) : Bytes :=
  state.revocationBitstring.getD (state.statusFile.getD [])

/-- What the open manager holds is in the file. -/
def RevocationState.Recorded (state : RevocationState) : Prop := Keeps state.issued (state.statusFile.getD [])

structure Permanent (earlier later : RevocationState) : Prop where
  own : Keeps earlier.issued later.issued
  published : ∀ url old, earlier.store.trust.statusLists.lookup url = some old →
    ∃ new, later.store.trust.statusLists.lookup url = some new ∧ Keeps old.bits new.bits

theorem Permanent.refl (state : RevocationState) : Permanent state state :=
  ⟨Keeps.refl _, fun _ old found => ⟨old, found, Keeps.refl _⟩⟩

theorem Permanent.trans (left : Permanent first second) (right : Permanent second third) : Permanent first third where
  own := left.own.trans right.own
  published := by
    intro url old found
    obtain ⟨middle, between, keeps⟩ := left.published url old found
    obtain ⟨new, last, keeps'⟩ := right.published url middle between
    exact ⟨new, last, keeps.trans keeps'⟩

theorem loadRevocationBitstring_eq_ok (done : loadRevocationBitstring statusFile = .ok bits) : bits = statusFile.getD [] := by
  unfold loadRevocationBitstring at done
  split at done
  · cases done
    rfl
  · split at done <;> cases done
    rfl

theorem trustStatusListCredentialAt_eq_ok {store next : ListTrust} {credential : StatusListCredential}
    {now : StatusTime} (done : store.trustStatusListCredentialAt lib credential now = .ok next) :
    ∃ new, next.trust.statusLists = (credential.id, new) :: store.trust.statusLists ∧
      ∃ signedAt, checkReplaced (store.trust.statusLists.lookup credential.id) signedAt new.bits = .ok () := by
  unfold ListTrust.trustStatusListCredentialAt at done
  obtain ⟨⟨key, bits⟩, -, done⟩ := bind_eq_ok.mp done
  obtain ⟨_, -, done⟩ := bind_eq_ok.mp done
  obtain ⟨_, -, done⟩ := bind_eq_ok.mp done
  obtain ⟨signed, -, done⟩ := bind_eq_ok.mp done
  obtain ⟨stop, -, done⟩ := bind_eq_ok.mp done
  obtain ⟨_, checked, done⟩ := bind_eq_ok.mp done
  cases done
  exact ⟨_, rfl, signed.1, checked⟩

variable {lib : ListLibraries}

theorem RevocationState.revoke_permanent (recorded : state.Recorded) (statusIndex : Nat) (persist : Persist) :
    (state.revoke statusIndex persist).1.Recorded ∧ Permanent state (state.revoke statusIndex persist).1 := by
  unfold revoke
  cases held : state.revocationBitstring with
  | none => exact ⟨recorded, .refl state⟩
  | some bits =>
    dsimp only
    cases done : revokeCredential bits statusIndex with
    | error message => exact ⟨recorded, .refl state⟩
    | ok next =>
      have same : state.issued = bits := by simp [issued, held]
      have grows : Keeps state.issued next := same ▸ revokeCredential_keeps done
      cases persist with
      | completes => exact ⟨Keeps.refl _, grows, fun _ old found => ⟨old, found, Keeps.refl _⟩⟩
      | rejected => exact ⟨recorded, .refl state⟩
      | unsynced =>
        refine ⟨revokeCredential_keeps done, ?_, fun _ old found => ⟨old, found, Keeps.refl _⟩⟩
        rw [same]
        exact Keeps.refl bits

theorem RevocationState.step_permanent (recorded : state.Recorded) {call : RevocationCall} (clean : call.Clean state) :
    (state.step lib call).1.Recorded ∧ Permanent state (state.step lib call).1 := by
  cases call with
  | revokeCredential statusIndex persist => exact revoke_permanent recorded statusIndex persist
  | reopen =>
    unfold step
    cases loaded : loadRevocationBitstring state.statusFile with
    | error message => exact ⟨Keeps.refl _, recorded, fun _ old found => ⟨old, found, Keeps.refl _⟩⟩
    | ok bits =>
      rw [loadRevocationBitstring_eq_ok loaded]
      exact ⟨Keeps.refl _, recorded, fun _ old found => ⟨old, found, Keeps.refl _⟩⟩
  | trustStatusListCredentialAt credential now =>
    unfold step
    dsimp only
    cases done : state.store.trustStatusListCredentialAt lib credential now with
    | error message => exact ⟨recorded, .refl state⟩
    | ok store =>
      obtain ⟨new, lists, signedAt, checked⟩ := trustStatusListCredentialAt_eq_ok done
      refine ⟨recorded, Keeps.refl _, fun url old found => ?_⟩
      rw [lists, List.lookup_cons]
      by_cases same : url = credential.id
      · subst same
        rw [found] at checked
        exact ⟨new, by simp, checkReplaced_keeps (clean old found) checked⟩
      · rw [beq_eq_false_iff_ne.mpr same]
        exact ⟨old, found, Keeps.refl _⟩

theorem RevocationState.run_permanent (recorded : state.Recorded) (clean : EveryClean lib state calls) :
    Permanent state (state.run lib calls) := by
  induction calls generalizing state with
  | nil => exact .refl state
  | cons call calls ih =>
    obtain ⟨recorded', permanent⟩ := step_permanent recorded clean.1
    exact permanent.trans (ih recorded' clean.2)

theorem statusLookup_eq_value {trust : TrustStore} {url : String} {index : Nat}
    (found : trust.statusLookup now url index = .value revoked) :
    ∃ snapshot, trust.statusLists.lookup url = some snapshot ∧ statusBit snapshot.bits index = revoked := by
  unfold TrustStore.statusLookup at found
  split at found
  · cases found
  · rename_i snapshot held
    refine ⟨snapshot, held, ?_⟩
    split at found
    · cases found
    · split at found
      · cases found
      · split at found
        · cases found
        · rename_i byte present
          cases found
          simp [statusBit, present]

theorem localStatus_eq_value {manager : Verifier} (found : manager.localStatus index = .value revoked) :
    statusBit manager.revocationBitstring index = revoked := by
  unfold Verifier.localStatus at found
  split at found
  · cases found
  · split at found
    · cases found
    · cases found
      rfl

theorem reports_own {state : RevocationState} (reported : Reports state .own index revoked) :
    statusBit state.issued index = revoked := by
  cases reported with
  | isRevoked bits _ held => simp [RevocationState.issued, held]
  | localStatus manager _ _ held found =>
    rw [← localStatus_eq_value found]
    simp [RevocationState.issued, held]

theorem reports_published {state : RevocationState} {index : Nat}
    (reported : Reports state (.published url) index revoked) :
    ∃ snapshot, state.store.trust.statusLists.lookup url = some snapshot ∧ statusBit snapshot.bits index = revoked := by
  cases reported with
  | statusLookupAt now _ _ _ found => exact statusLookup_eq_value found

theorem Permanent.reports (permanent : Permanent earlier later) (revoked : Reports earlier list index true) :
    ¬ Reports later list index false := by
  intro cleared
  cases list with
  | own =>
    have kept := permanent.own index (reports_own revoked)
    rw [reports_own cleared] at kept
    cases kept
  | published url =>
    obtain ⟨old, held, set⟩ := reports_published revoked
    obtain ⟨new, replaced, keeps⟩ := permanent.published url old held
    obtain ⟨found, now, clear⟩ := reports_published cleared
    rw [replaced] at now
    cases now
    rw [keeps index set] at clear
    cases clear

theorem RevocationState.step_failed {call : RevocationCall} (clean : call.Clean state) (called : call ≠ .reopen)
    (failed : (state.step lib call).2 = false) : (state.step lib call).1 = state := by
  cases call with
  | reopen => exact absurd rfl called
  | revokeCredential statusIndex persist =>
    unfold step revoke at failed ⊢
    cases held : state.revocationBitstring with
    | none => rfl
    | some bits =>
      rw [held] at failed
      dsimp only at failed ⊢
      cases done : revokeCredential bits statusIndex with
      | error message => rfl
      | ok next =>
        rw [done] at failed
        cases persist with
        | completes => cases failed
        | rejected => rfl
        | unsynced => exact absurd rfl clean
  | trustStatusListCredentialAt credential now =>
    unfold step at failed ⊢
    dsimp only at failed ⊢
    cases done : state.store.trustStatusListCredentialAt lib credential now with
    | error message => rfl
    | ok store =>
      rw [done] at failed
      cases failed

theorem everyClean_append (clean : EveryClean lib state (earlier ++ later)) :
    EveryClean lib state earlier ∧ EveryClean lib (state.run lib earlier) later := by
  induction earlier generalizing state with
  | nil => exact ⟨trivial, clean⟩
  | cons call earlier ih =>
    obtain ⟨rest, after⟩ := ih clean.2
    exact ⟨⟨clean.1, rest⟩, after⟩

theorem RevocationState.run_append (state : RevocationState) (earlier later : List RevocationCall) :
    state.run lib (earlier ++ later) = (state.run lib earlier).run lib later :=
  foldl_append ..

theorem RevocationState.run_recorded (recorded : state.Recorded) (clean : EveryClean lib state calls) :
    (state.run lib calls).Recorded := by
  induction calls generalizing state with
  | nil => exact recorded
  | cons call calls ih => exact ih (step_permanent recorded clean.1).1 clean.2

/-- In a run of clean calls a revocation that was reported stays one, and a call that fails changes
nothing. A published list reads back with the revocations it was made with, and is accepted from then on. -/
theorem revocation_permanent {signingKey : SigningKey} (lawful : lib.Lawful signingKey) (statusFile : Option Bytes)
    (store : ListTrust) (calls : List RevocationCall) (clean : EveryClean lib (.closed statusFile store) calls) :
    (∀ earlier later list index, calls = earlier ++ later →
      Reports ((RevocationState.closed statusFile store).run lib earlier) list index true →
      ¬ Reports ((RevocationState.closed statusFile store).run lib calls) list index false) ∧
    (∀ earlier call later, calls = earlier ++ call :: later → call ≠ .reopen →
      (((RevocationState.closed statusFile store).run lib earlier).step lib call).2 = false →
      (((RevocationState.closed statusFile store).run lib earlier).step lib call).1 =
        (RevocationState.closed statusFile store).run lib earlier) ∧
    ∀ now created url bits highest credential,
      createStatusListCredential lib signingKey now created url bits highest = .ok credential →
      (∀ time key recovered, verifyStatusListCredentialAt lib credential time = .ok (key, recovered) →
        ∀ index, statusBit recovered index = statusBit bits index) ∧
      ∀ start signed time, parseDatetimeStamp now = .ok start → parseDatetimeStamp created = .ok signed →
        StatusTime.le start time = true →
        ∃ recovered, verifyStatusListCredentialAt lib credential time = .ok (signingKey.publicKey, recovered) := by
  have recorded : (RevocationState.closed statusFile store).Recorded := Keeps.refl _
  refine ⟨?_, ?_, ?_⟩
  · rintro earlier later list index rfl revoked
    obtain ⟨before, after⟩ := everyClean_append clean
    rw [RevocationState.run_append]
    exact (RevocationState.run_permanent (RevocationState.run_recorded recorded before) after).reports revoked
  · rintro earlier call later rfl called failed
    exact RevocationState.step_failed (everyClean_append clean).2.1 called failed
  · intro now created url bits highest credential done
    refine ⟨fun time key recovered verified index => ?_, fun start signed time begun stamped later =>
      verify_published_ok lawful done begun stamped later⟩
    obtain ⟨count, rfl⟩ := verify_published_bits lawful done verified
    exact statusBit_append_zeros bits count index

/-! ### A failed write -/

namespace Sample

/-- Bytes as letters from `@` on, six bits each, under a code letter. -/
def letters (code : Char) (bytes : Bytes) : String :=
  String.ofList (code :: (Nat.digits 64 (Nat.ofDigits 256 (bytes.map (·.toNat) ++ [1]))).map fun d => Char.ofNat (64 + d))

def readLetters (text : List Char) : Bytes :=
  (Nat.digits 256 (Nat.ofDigits 64 (text.map fun c => c.toNat - 64))).dropLast.map UInt8.ofNat

def listLibraries : ListLibraries where
  toLibraries := { libraries with
    fromBytes := fun _ => .ok ()
    verify := fun _ _ _ => true
    encodeBase58 := letters 'z'
    decodeMultibase := fun text =>
      match text.toList with
      | 'z' :: rest => if '#' ∈ rest then .error "Invalid character" else .ok (.base58Btc, readLetters rest)
      | 'u' :: rest => .ok (BASE64URL, readLetters rest)
      | _ => .error "Unknown base code" }
  gzip bytes := bytes
  gunzip limit bytes := .ok (bytes.take limit)
  encodeBase64Url := letters 'u'

def signingKey : SigningKey := ⟨key, fun _ => List.replicate 64 0⟩

theorem letter_toNat (small : d < 64) : (Char.ofNat (64 + d)).toNat = 64 + d := by
  have each : ∀ d < 64, (Char.ofNat (64 + d)).toNat = 64 + d := by decide
  exact each d small

theorem digits_small (n : Nat) : ∀ d ∈ Nat.digits 64 n, d < 64 := fun _ member => Nat.digits_lt_base (by omega) member

theorem readLetters_letters (bytes : Bytes) :
    readLetters ((Nat.digits 64 (Nat.ofDigits 256 (bytes.map (·.toNat) ++ [1]))).map fun d => Char.ofNat (64 + d)) = bytes := by
  have back : ((Nat.digits 64 (Nat.ofDigits 256 (bytes.map (·.toNat) ++ [1]))).map fun d => Char.ofNat (64 + d)).map
      (fun c => c.toNat - 64) = Nat.digits 64 (Nat.ofDigits 256 (bytes.map (·.toNat) ++ [1])) := by
    rw [map_map]
    conv => rhs; rw [← map_id (Nat.digits 64 _)]
    refine map_congr_left fun d member => ?_
    simp [letter_toNat (digits_small _ d member)]
  have digits : Nat.digits 256 (Nat.ofDigits 256 (bytes.map (·.toNat) ++ [1])) = bytes.map (·.toNat) ++ [1] := by
    refine Nat.digits_ofDigits 256 (by omega) _ (fun d member => ?_) (by simp)
    rcases mem_append.mp member with own | last
    · obtain ⟨byte, -, rfl⟩ := mem_map.mp own
      exact byte.toNat_lt
    · simp at last
      omega
  unfold readLetters
  rw [back, Nat.ofDigits_digits, digits, dropLast_concat, map_map]
  conv => rhs; rw [← map_id bytes]
  exact map_congr_left fun byte _ => by simp

theorem mem_letters (member : c ∈ (letters code bytes).toList) : c = code ∨ 64 ≤ c.toNat ∧ c.toNat < 128 := by
  simp only [letters, String.toList_ofList, mem_cons, mem_map] at member
  rcases member with own | ⟨d, digit, rfl⟩
  · exact .inl own
  · rw [letter_toNat (digits_small _ d digit)]
    have := digits_small _ d digit
    omega

theorem length_letters (bytes : Bytes) : (letters 'u' bytes).toList.length ≤ 4 * bytes.length / 3 + 4 := by
  have small : Nat.ofDigits 256 (bytes.map (·.toNat) ++ [1]) < 64 ^ ((4 * (bytes.length + 1) + 2) / 3) := by
    have own := Nat.ofDigits_lt_base_pow_length (b := 256) (l := bytes.map (·.toNat) ++ [1]) (by omega) (by
      intro d member
      rcases mem_append.mp member with own | last
      · obtain ⟨byte, -, rfl⟩ := mem_map.mp own
        exact byte.toNat_lt
      · simp at last
        omega)
    refine own.trans_le ?_
    have wide : (256 : Nat) = 2 ^ 8 := by norm_num
    have narrow : (64 : Nat) = 2 ^ 6 := by norm_num
    rw [wide, narrow, ← pow_mul, ← pow_mul]
    refine Nat.pow_le_pow_right (by omega) ?_
    simp only [length_append, length_map, length_singleton]
    omega
  have few := (Nat.digits_length_le_iff (by omega) _).mpr small
  simp only [letters, String.toList_ofList, length_cons, length_map]
  omega

theorem utf8_ascii (text : String) (ascii : ∀ c ∈ text.toList, c.toNat < 128) :
    (utf8 text).length = text.toList.length := by
  have single : ∀ n < 128, (String.utf8EncodeChar (Char.ofNat n)).length = 1 := by decide
  have whole := utf8_ofList text.toList
  rw [String.ofList_toList] at whole
  rw [whole]
  generalize text.toList = letters at ascii
  induction letters with
  | nil => rfl
  | cons c letters ih =>
    have one := single c.toNat (ascii c mem_cons_self)
    rw [Char.ofNat_toNat] at one
    rw [flatMap_cons, length_append, one, ih (forall_mem_cons.mp ascii).2,
      length_cons]
    omega

theorem listLibraries_lawful : listLibraries.Lawful signingKey where
  multibase := {
    base58 := by
      intro bytes
      have plain : '#' ∉ (letters 'z' bytes).toList := by
        intro member
        rcases mem_letters member with own | ⟨low, -⟩
        · cases own
        · exact absurd low (by decide)
      simp only [letters, String.toList_ofList, mem_cons, not_or] at plain
      simp only [listLibraries, letters, String.toList_ofList]
      rw [if_neg plain.2, readLetters_letters]
    alphabet := by
      intro text bytes decoded
      simp only [listLibraries] at decoded
      split at decoded
      · rename_i rest split
        split at decoded
        · cases decoded
        · rename_i plain
          rw [split]
          simpa using plain
      · cases decoded
      · cases decoded }
  base58_code := by
    intro bytes
    simp [listLibraries, letters, startsWith]
  base64 := by
    intro bytes
    simp only [listLibraries, letters, String.toList_ofList]
    rw [readLetters_letters]
  base64_unpadded := by
    intro bytes member
    rcases mem_letters member with own | ⟨low, -⟩
    · cases own
    · exact absurd low (by decide)
  base64_length := by
    intro bytes
    have ascii : ∀ c ∈ (letters 'u' bytes).toList, c.toNat < 128 := by
      intro c member
      rcases mem_letters member with rfl | ⟨-, high⟩
      · decide
      · exact high
    exact (utf8_ascii _ ascii).trans_le (length_letters bytes)
  gzip := by
    intro bytes limit fits
    exact congrArg Except.ok (take_of_length_le fits)
  gzip_length := by
    intro bytes
    change bytes.length ≤ _
    omega
  key := rfl
  signature_length := by
    intro data
    rfl
  signature := fun _ => rfl

/-- A trust store without keys or lists. -/
def listTrust : ListTrust := ⟨⟨[], [], false, none⟩, []⟩

end Sample

/-- A revocation before a reopen and a failed one. -/
theorem revocation_permanent_thirteen :
    ¬ Reports ((RevocationState.closed none Sample.listTrust).run Sample.listLibraries
      [.reopen, .revokeCredential 13 .completes, .reopen, .revokeCredential 4 .rejected]) .own 13 false := by
  have clean : EveryClean Sample.listLibraries (.closed none Sample.listTrust)
      [.reopen, .revokeCredential 13 .completes, .reopen, .revokeCredential 4 .rejected] :=
    ⟨trivial, by simp [RevocationCall.Clean], trivial, by simp [RevocationCall.Clean], trivial⟩
  have revoked : Reports ((RevocationState.closed none Sample.listTrust).run Sample.listLibraries
      [.reopen, .revokeCredential 13 .completes]) .own 13 true := .isRevoked [0, 32] 13 rfl
  exact (revocation_permanent Sample.listLibraries_lawful none Sample.listTrust _ clean).1
    [.reopen, .revokeCredential 13 .completes] _ .own 13 rfl revoked

/-- A revocation whose directory sync fails is an error, and has replaced the file: a reopen reports it. -/
theorem revokeCredential_unsynced :
    let opened := (RevocationState.closed none Sample.listTrust).run Sample.listLibraries [.reopen]
    let failed := opened.step Sample.listLibraries (.revokeCredential 13 .unsynced)
    failed.2 = false ∧ failed.1 ≠ opened ∧ Reports opened .own 13 false ∧
      Reports (failed.1.step Sample.listLibraries .reopen).1 .own 13 true := by
  refine ⟨rfl, fun same => ?_, .isRevoked [] 13 rfl, .isRevoked [0, 32] 13 rfl⟩
  have file := congrArg RevocationState.statusFile same
  cases file

end Warm.Provenance
