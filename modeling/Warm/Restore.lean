import Warm.CrashLogic
import Mathlib.Logic.Function.Basic

/-! Replacing a tenant's store by one that was staged. The store is set aside as a snapshot and the staged one renamed in
its place; an intent file written before and removed after lets the next open put the old store back. Every filesystem
call is one command that takes effect and is durable, or fails and changes nothing. -/
namespace Warm.Server

open Interleaving CrashLogic

/-- The contents of a directory: a store, or what is left of one that is being removed or copied. -/
inductive Dir (σ : Type) where
  | whole (store : σ)
  | part
  deriving DecidableEq

/-- A directory of a tenant, or one outside its three roots. -/
inductive Place where
  | live
  | snapshot (id : String)
  | staged (name : String)
  | elsewhere (path : String)
  deriving DecidableEq

structure Intent where
  version : Nat
  backup : String
  staged : String
  deriving DecidableEq

/-- What a call did to the intent file. -/
inductive Touch where
  | written
  | removed
  deriving DecidableEq

/-- The directories of a tenant, its intent file, and the engine that serves it. `touched` is what the last restore did to
the intent file so far; nothing reads it. -/
structure Disk (σ : Type) where
  dirs : Place → Option (Dir σ)
  intent : Option Intent
  engine : Option (Dir σ)
  touched : List Touch

/-- The directories whose entries are synced. -/
inductive Root where
  | tenants
  | snapshots
  | staging

/-- One filesystem call, or one step of the engine. -/
inductive Disk.Command (σ : Type) where
  | settle
  | createDirs
  | directory (place : Place)
  | tryExists (place : Place)
  | intentExists
  | canonicalize
  /-- A new temporary file next to the intent, written and synced. -/
  | writeTemp
  | persistTemp (intent : Intent)
  | syncDir (root : Root)
  | rename (source target : Place)
  /-- One entry of a directory that is being removed. -/
  | unlink (place : Place)
  | removeDir (place : Place)
  | removeIntent
  | readIntent
  /-- A directory to copy into. -/
  | createDir (place : Place)
  | copyLive (place : Place)
  | closeEngine
  /-- Opens the store in the live directory, or a new one. -/
  | openEngine
  | serve (opened : Dir σ)

abbrev Disk.Answer {σ : Type} : Command σ → Type
  | .directory _ => Option Bool
  | .tryExists _ => Option Bool
  | .intentExists => Option Bool
  | .readIntent => Option (Option Intent)
  | .openEngine => Option (Dir σ)
  | .closeEngine => Unit
  | .serve _ => Unit
  | _ => Bool

namespace Disk

variable {σ : Type}

def put (disk : Disk σ) (place : Place) (dir : Option (Dir σ)) : Disk σ :=
  { disk with dirs := Function.update disk.dirs place dir }

@[simp] theorem put_dirs (disk : Disk σ) (place other : Place) (dir : Option (Dir σ)) :
    (disk.put place dir).dirs other = if other = place then dir else disk.dirs other :=
  Function.update_apply disk.dirs place dir other

section

variable (disk : Disk σ) (place : Place) (dir : Option (Dir σ))
include disk place dir

end

/-- Runs a command, which fails if it does not work. An open of no directory makes an empty store. -/
def exec (blank : σ) : (command : Command σ) → Bool → Disk σ → Answer command × Disk σ
  | .settle, works, disk => (works, disk)
  | .createDirs, works, disk => (works, disk)
  | .directory place, works, disk => (if works then some (disk.dirs place).isSome else none, disk)
  | .tryExists place, works, disk => (if works then some (disk.dirs place).isSome else none, disk)
  | .intentExists, works, disk => (if works then some disk.intent.isSome else none, disk)
  | .canonicalize, works, disk => (works, disk)
  | .writeTemp, works, disk => (works, disk)
  | .persistTemp intent, works, disk =>
    if works then (true, { disk with intent := some intent, touched := disk.touched ++ [.written] }) else (false, disk)
  | .syncDir _, works, disk => (works, disk)
  | .rename source target, works, disk =>
    if works ∧ (disk.dirs source).isSome ∧ (disk.dirs target).isNone then
      (true, (disk.put source none).put target (disk.dirs source))
    else
      (false, disk)
  | .unlink place, works, disk =>
    if works ∧ (disk.dirs place).isSome then (true, disk.put place (some .part)) else (false, disk)
  | .removeDir place, works, disk =>
    if works ∧ (disk.dirs place).isSome then (true, disk.put place none) else (false, disk)
  | .removeIntent, works, disk =>
    if works ∧ disk.intent.isSome then (true, { disk with intent := none, touched := disk.touched ++ [.removed] })
    else (false, disk)
  | .readIntent, works, disk => (if works then some disk.intent else none, disk)
  | .createDir place, works, disk =>
    if works then (true, disk.put place (some ((disk.dirs place).getD .part))) else (false, disk)
  | .copyLive place, works, disk =>
    if works then (true, disk.put place (disk.dirs .live)) else (false, disk)
  | .closeEngine, _, disk => ((), { disk with engine := none })
  | .openEngine, works, disk =>
    if works then
      let dir := (disk.dirs .live).getD (.whole blank)
      (some dir, disk.put .live (some dir))
    else
      (none, disk)
  | .serve opened, _, disk => ((), { disk with engine := some opened })

def refused : (command : Command σ) → Answer command → Bool
  | .directory _, answer => answer.isNone
  | .tryExists _, answer => answer.isNone
  | .intentExists, answer => answer.isNone
  | .readIntent, answer => answer.isNone
  | .openEngine, answer => answer.isNone
  | .closeEngine, _ => false
  | .serve _, _ => false
  | .settle, answer => !answer
  | .createDirs, answer => !answer
  | .canonicalize, answer => !answer
  | .writeTemp, answer => !answer
  | .persistTemp _, answer => !answer
  | .syncDir _, answer => !answer
  | .rename _ _, answer => !answer
  | .unlink _, answer => !answer
  | .removeDir _, answer => !answer
  | .removeIntent, answer => !answer
  | .createDir _, answer => !answer
  | .copyLive _, answer => !answer

def halted (disk : Disk σ) : Disk σ :=
  { disk with engine := none }

end Disk

inductive Failure where
  | io
  | engine
  | message (text : String)
  | context (text : String) (cause : Failure)
  deriving DecidableEq

abbrev Io (σ α : Type) : Type :=
  Attempt (Disk.Command σ) Disk.Answer Failure α

section

variable {σ : Type}

def validSnapshotId (id : String) : Bool :=
  1 ≤ id.utf8ByteSize && id.utf8ByteSize ≤ 64 && id.toList.head? != some '.' &&
    id.toList.all fun c => c.isAlphanum || c == '-' || c == '_'

def safeName (name : String) : Bool :=
  !name.isEmpty && name.utf8ByteSize ≤ 255 && name != "." && name != ".." &&
    name.toList.all fun c => c.isAlphanum || c == '.' || c == '_' || c == '-'

/-- A filesystem call that works or fails. -/
def io (command : Disk.Command σ) (worked : Disk.Answer command → Bool) : Io σ Unit :=
  .call command worked .io

/-- A filesystem call that answers or fails. -/
def look {α : Type} (command : Disk.Command σ) (read : Disk.Answer command → Option α) : Io σ α :=
  .ask command read .io

def directory (place : Place) : Io σ Bool :=
  look (.directory place) id

def syncDir (root : Root) : Io σ Unit :=
  io (.syncDir root) id

/-- `remove_dir_all`, which unlinks entries one by one before the directory itself. -/
def removeDirAll (place : Place) : Nat → Io σ Unit
  | 0 => io (.removeDir place) id
  | entries + 1 => do
    io (.unlink place) id
    removeDirAll place entries

namespace Restore

def persist (intent : Intent) : Io σ Unit := do
  io .writeTemp id
  io (.persistTemp intent) id
  syncDir .snapshots

/-- The name of a directory right under the staging root. -/
def stagedName : Place → Option String
  | .staged name => some name
  | _ => none

/-- `directory(live)? && directory(staged)?` -/
def sourcesPresent (staged : Place) : Io σ Bool := do
  let live ← directory .live
  if live then directory staged else pure false

/-- Whether the backup name or the intent is in use. -/
def alreadyPending (backup : String) : Io σ Bool := do
  let taken ← look (.tryExists (.snapshot backup)) id
  if taken then pure true else look .intentExists id

def begin_ (staged : Place) (backup : String) : Io σ Intent := do
  .ensure (validSnapshotId backup) (.message "invalid restore backup name")
  let present ← sourcesPresent staged
  .ensure present (.message "missing restore source")
  io .canonicalize id
  .ensure (stagedName staged).isSome (.message "staged restore escapes staging root")
  let name := (stagedName staged).getD ""
  .ensure (safeName name) (.message "unsafe restore directory name")
  let pending ← alreadyPending backup
  .ensure (!pending) (.message "restore already pending")
  persist ⟨1, backup, name⟩
  return ⟨1, backup, name⟩

def publish (intent : Intent) : Io σ Unit := do
  .mapError (.context "cannot set current store aside") (io (.rename .live (.snapshot intent.backup)) id)
  syncDir .snapshots
  syncDir .tenants
  .mapError (.context "cannot publish restored store") (io (.rename (.staged intent.staged) .live) id)
  syncDir .tenants
  syncDir .staging

def finish : Io σ Unit := do
  io .removeIntent id
  syncDir .snapshots

def clearLive (entries : Nat) : Io σ Unit := do
  let live ← directory .live
  if live then removeDirAll .live entries else pure ()

/-- The old store back in the live directory, if it was set aside. -/
def putBack (entries : Place → Nat) (intent : Intent) : Io σ Unit := do
  let aside ← directory (.snapshot intent.backup)
  if aside then do
    clearLive (entries .live)
    io (.rename (.snapshot intent.backup) .live) id
    syncDir .tenants
    syncDir .snapshots
  else
    pure ()

def discardStaged (entries : Place → Nat) (intent : Intent) : Io σ Unit := do
  let present ← directory (.staged intent.staged)
  if present then do
    removeDirAll (.staged intent.staged) (entries (.staged intent.staged))
    syncDir .staging
  else
    pure ()

/-- `entries` are those that each directory still has when it is removed. -/
def rollback (entries : Place → Nat) (intent : Intent) : Io σ Unit := do
  persist intent
  putBack entries intent
  let live ← directory .live
  .ensure live (.message "restore recovery has neither live nor backup store")
  discardStaged entries intent
  finish

def recover (entries : Place → Nat) : Io σ Unit := do
  let pending ← look .readIntent id
  match pending with
  | none => pure ()
  | some intent =>
    .ensure (intent.version == 1 && validSnapshotId intent.backup && safeName intent.staged)
      (.message "unsupported or unsafe restore intent")
    rollback entries intent

end Restore

/-- A time as the log prints it, punctuation left out: its year comes first. -/
structure TimeStamp where
  year : Fin 10
  rest : String

def TimeStamp.text (stamp : TimeStamp) : String :=
  toString stamp.year.val ++ stamp.rest

def backupId (stamp : TimeStamp) : String :=
  "pre-restore-" ++ stamp.text

def openCore : Io σ (Dir σ) :=
  .ask .openEngine id .engine

/-- `restore_staged` from the time it holds the tenant's store exclusively. -/
def restoreStaged (entries : Place → Nat) (staged : Place) (stamp : TimeStamp) : Io σ String := do
  io .settle id
  io .createDirs id
  let intent ← Restore.begin_ staged (backupId stamp)
  .act .closeEngine
  let reopened ← .outcome do
    Restore.publish intent
    openCore
  match reopened with
  | .ok core =>
    let finished ← .outcome Restore.finish
    match finished with
    | .ok _ =>
      .act (.serve core)
      return backupId stamp
    | .error error =>
      .mapError (.context "restore rollback failed") (Restore.rollback entries intent)
      let core ← openCore
      .act (.serve core)
      throw error
  | .error error =>
    .mapError (.context "restore rollback failed") (Restore.rollback entries intent)
    let core ← .mapError (.context "rollback reopen failed") openCore
    .act (.serve core)
    throw error

/-- `open_tenant` from the time it owns the tenant. -/
def openTenant (entries : Place → Nat) : Io σ Unit := do
  Restore.recover entries
  io .createDirs id
  let core ← openCore
  .act (.serve core)

/-- `delete_snapshot`, which takes no lock. -/
def deleteSnapshot (id : String) (entries : Nat) : Io σ Unit := do
  .ensure (validSnapshotId id) (.message "invalid snapshot id")
  let present ← directory (.snapshot id)
  .ensure present (.message "no such snapshot")
  removeDirAll (.snapshot id) entries

def snapshotId (stamp : TimeStamp) (suffix : String) : String :=
  stamp.text ++ "-" ++ suffix

def partialId (id : String) : String :=
  ".partial-" ++ id

/-- `create_snapshot` while it holds the tenant's store exclusively. -/
def createSnapshot (entries : Nat) (made : String) : Io σ String := do
  io .settle id
  io .createDirs id
  io (.createDir (.snapshot (partialId made))) id
  io (.copyLive (.snapshot (partialId made))) id
  io (.rename (.snapshot (partialId made)) (.snapshot made)) id
  let synced ← .outcome (syncDir .snapshots)
  match synced with
  | .ok _ => return made
  | .error error =>
    let _removed ← .outcome (removeDirAll (.snapshot made) entries)
    throw error

end

end Warm.Server
