import Warm.MemoryPlan

/-! `remember_many` and `forget` as programs over a store that other calls share: reads under their own locks,
transactions that commit only at the revision they were planned at, and the update of the memory's index afterwards. -/
namespace Warm.Memory

open Interleaving
open Binary (utf8)
open Plan (ask require)

/-- A store and the indexes of the memories over it. `history` keeps the documents of every revision so far; calls read
only those of the current one. -/
structure World where
  history : Nat → Documents
  revision : Nat
  index : Nat → Index

def World.documents (world : World) : Documents :=
  world.history world.revision

/-- A store that holds nothing, and memories that have indexed nothing. -/
def World.empty : World :=
  ⟨fun _ => ∅, 0, fun _ => Index.empty⟩

/-- The document changes of one memory transaction. -/
inductive Transaction where
  | remember (documents : List (String × DocumentParts))
  | relink (documents : List (String × DocumentParts))
  | delete (ids : List String)

def Transaction.inputs : Transaction → List (String × DocumentParts)
  | .remember documents => documents
  | .relink documents => documents
  | .delete _ => []

def Transaction.deleted : Transaction → List String
  | .delete ids => ids
  | _ => []

/-- What may go wrong with a command that touches storage. -/
inductive Fault where
  | none
  /-- It fails and changes nothing. -/
  | refused (message : String)
  /-- Its transaction is durable, but only some of its documents reach the live store and it reports a failure. -/
  | unpublished (installed : String → Bool)

/-- The documents with those changes of a transaction that reach the live store. -/
def Transaction.apply (transaction : Transaction) (installed : String → Bool) (documents : Documents) : Documents :=
  let written := (transaction.inputs.filter fun entry => installed entry.1).foldl
    (fun documents entry => documents.insert entry.1 entry.2) documents
  (transaction.deleted.filter installed).foldl (fun documents id => documents.erase id) written

def World.commit (world : World) (transaction : Transaction) (installed : String → Bool) : World :=
  { world with
    revision := world.revision + 1
    history := Function.update world.history (world.revision + 1) (transaction.apply installed world.documents) }

def World.setIndex (world : World) (memory : Nat) (index : Index) : World :=
  { world with index := Function.update world.index memory index }

/-- A stored fact as a maintenance policy sees it. -/
structure FactSummary where
  id : String
  text : Option String
  status : FactStatus
  ingestTime : Option Millis
  eventTime : Option Millis
  validFrom : Option Millis
  validTo : Option Millis
  effectiveFrom : Millis
  subject : Option String
  supersededAt : Option Millis
  deriving DecidableEq, Repr

def FactSummary.of (index : Index) (withText : Bool) (now : Millis) (id : String) (parts : DocumentParts) (stamp : Stamp) :
    FactSummary :=
  ⟨id, if withText then parts.text else none, (evaluate (some stamp) (index.edges id) now none).getD .current,
    some stamp.ingest, stamp.event, stamp.validFrom, stamp.validTo, stamp.effectiveFrom, stamp.subject,
    ((index.edges id).map (·.effective)).min?⟩

/-- Every stored fact, by id; plain documents are not facts. -/
def summaries (documents : Documents) (index : Index) (withText : Bool) (now : Millis) : List FactSummary :=
  documents.toList.filterMap fun entry => entry.2.stamp.map fun stamp => FactSummary.of index withText now entry.1 entry.2 stamp

/-- One atomic action of a call. -/
inductive Command where
  | read (memory : Nat) (query : Query)
  | coreRevision
  | indexRevision (memory : Nat)
  /-- The locked part of `ensure_fresh`. -/
  | refresh (memory : Nat)
  /-- `change_memory_documents`. -/
  | change (transaction : Transaction) (revision : Nat)
  | revisionMatches (revision : Nat)
  /-- The locked part of `settle`. -/
  | settle (memory : Nat) (before after commits : Nat) (apply : Index → Option Index)
  /-- `self.index.write().revision = None`. -/
  | unsettle (memory : Nat)
  /-- Synchronizing or compacting storage after a commit. -/
  | afterCommit (effect : String)
  /-- The facts of the store, read under the index's lock when the index is at the revision. -/
  | summarize (memory revision : Nat) (withText : Bool) (now : Millis)

abbrev Command.Reply : Command → Type
  | .read _ query => query.Reply
  | .coreRevision => Nat
  | .indexRevision _ => Option Nat
  | .refresh _ => Unit
  | .change _ _ => Except MemoryError Bool
  | .revisionMatches _ => Bool
  | .settle _ _ _ _ _ => Unit
  | .unsettle _ => Unit
  | .afterCommit _ => Except MemoryError Unit
  | .summarize _ _ _ _ => Option (Except MemoryError (Nat × List FactSummary))

def refreshed (world : World) (memory : Nat) : World :=
  if (world.index memory).revision = some world.revision then world
  else world.setIndex memory (Index.rebuild world.documents world.revision)

/-- A transaction at an expected revision. -/
def changed (world : World) (transaction : Transaction) (revision : Nat) (fault : Fault) :
    Except MemoryError Bool × World :=
  if MAX_BATCH < transaction.inputs.length + transaction.deleted.length then
    (.error (.engine "memory transaction requires at most 4096 document changes"), world)
  else if transaction.inputs.isEmpty && transaction.deleted.isEmpty then
    (.ok (world.revision == revision), world)
  else match fault with
    | .refused message => (.error (.engine message), world)
    | .none => if world.revision = revision then (.ok true, world.commit transaction fun _ => true) else (.ok false, world)
    | .unpublished installed =>
      if world.revision = revision then (.error (.committed "live publication"), world.commit transaction installed)
      else (.ok false, world)

/-- The facts of the store, none when the index is not at the revision. -/
def summarized (world : World) (memory revision : Nat) (withText : Bool) (now : Millis) :
    Option (Except MemoryError (Nat × List FactSummary)) :=
  if (world.index memory).revision ≠ some revision then none
  else some (do
    let facts := summaries world.documents (world.index memory) withText now
    check (decide ((world.index memory).revision = some world.revision)) "snapshot revision changed"
    return (world.revision, facts))

/-- The index after a call's own commits: updated in place when nothing else moved the store meanwhile, and to be
rebuilt otherwise. -/
def settled (index : Index) (before after commits : Nat) (apply : Index → Option Index) : Index :=
  if index.revision = some before ∧ after = before + commits then
    match apply index with
    | some updated => { updated with revision := some after }
    | none => { index with revision := none }
  else { index with revision := none }

def execute : (command : Command) → Fault → World → command.Reply × World
  | .read memory query, _, world => (answer world.documents (world.index memory) query, world)
  | .coreRevision, _, world => (world.revision, world)
  | .indexRevision memory, _, world => ((world.index memory).revision, world)
  | .refresh memory, _, world => ((), refreshed world memory)
  | .change transaction revision, fault, world => changed world transaction revision fault
  | .revisionMatches revision, _, world => (world.revision == revision, world)
  | .settle memory before after commits apply, _, world =>
    ((), world.setIndex memory (settled (world.index memory) before after commits apply))
  | .unsettle memory, _, world => ((), world.setIndex memory { world.index memory with revision := none })
  | .afterCommit effect, fault, world =>
    match fault with
    | .none => (.ok (), world)
    | _ => (.error (.committed effect), world)
  | .summarize memory revision withText now, _, world => (summarized world memory revision withText now, world)

abbrev Code (α : Type) := Program Command Command.Reply α

def perform (command : Command) : Code command.Reply :=
  Program.perform command

/-- A plan's reads by a memory. -/
def readPlan {α : Type} (memory : Nat) (plan : Plan α) : Code (Except MemoryError α) :=
  Program.lift (fun query => Command.read memory query) (fun _ found => found) plan

section Remember

/-- Brings the index up to the store's current revision. -/
def ensureFresh (memory : Nat) : Code Unit := do
  let revision ← perform .coreRevision
  let indexed ← perform (.indexRevision memory)
  if indexed = some revision then return () else perform (.refresh memory)

def planningRevision (memory : Nat) : Code (Option Nat) := do
  ensureFresh memory
  let revision ← perform .coreRevision
  let indexed ← perform (.indexRevision memory)
  return if indexed = some revision then some revision else none

def replacesLinked (index : Index) (fact : Planned) : Bool :=
  fact.replaces && (!(index.edges fact.id).isEmpty || !(index.directPredecessors fact.id).isEmpty)

def removePrevious (index : Index) (fact : Planned) : Index :=
  match fact.previous with
  | none => index
  | some old => index.remove fact.id old

/-- The times of a superseder: of a fact written by the call, or of a member of the fact's subject. -/
def settleLookup (written : List Planned) (fact : Planned) (index : Index) (id : String) : Option (Millis × Millis) :=
  match written.find? fun other => other.id == id with
  | some other => some other.stamp.times
  | none => fact.stamp.subject.bind fun subject => index.member subject id

/-- The index update of a remember: none when the index links a replaced fact, else old stamps out and new ones in. -/
def settleWritten (written : List Planned) (index : Index) : Option Index :=
  if written.any (replacesLinked index) then none
  else some (written.foldl (fun index fact => index.insert fact.id fact.stamp (settleLookup written fact index))
    (written.foldl removePrevious index))

structure Remembered where
  id : String
  created : Bool
  supersedes : List String
  supersededBy : List String
  ingestTime : Millis
  deriving DecidableEq, Repr

def Planned.outcome (fact : Planned) : Remembered :=
  ⟨fact.id, !fact.idempotent, fact.stamp.supersedes, fact.stamp.supersededBy, fact.stamp.ingest⟩

def Planned.entry (fact : Planned) : Option (String × DocumentParts) :=
  fact.document.map fun document => (fact.id, document)

def batchCheck (inputs : List RememberInput) : Bool :=
  !inputs.isEmpty && decide (inputs.length ≤ MAX_BATCH)

def batchMessage : String := "remember requires 1..=4096 facts"

def commitPlanned (memory before : Nat) (planned : List Planned) : Code (Except MemoryError (Option (List Remembered))) := do
  let documents := planned.filterMap Planned.entry
  match ← perform (.change (.remember documents) before) with
  | .error error => return .error error
  | .ok false => return .ok none
  | .ok true =>
    let written := planned.filter fun fact => !fact.idempotent
    if !written.isEmpty then
      let after ← perform .coreRevision
      perform (.settle memory before after (if documents.isEmpty then 0 else 1) (settleWritten written))
    return .ok (some (planned.map Planned.outcome))

def rememberAtRevision (settings : WriteSettings) (memory : Nat) (inputs : List RememberInput) (now : Millis)
    (before : Nat) : Code (Except MemoryError (Option (List Remembered))) := do
  if !batchCheck inputs then return .error (.invalid batchMessage)
  let indexed ← perform (.indexRevision memory)
  if indexed ≠ some before then return .ok none
  match ← readPlan memory (planAll settings now inputs []) with
  | .error error =>
    let revision ← perform .coreRevision
    return if revision ≠ before then .ok none else .error error
  | .ok planned => commitPlanned memory before planned

def rememberAttempts (settings : WriteSettings) (memory : Nat) (inputs : List RememberInput) (now : Millis) :
    Nat → Code (Except MemoryError (List Remembered))
  | 0 => return .error (.concurrent "memory changed while planning remember; retry the operation")
  | attempts + 1 => do
    match ← planningRevision memory with
    | none => rememberAttempts settings memory inputs now attempts
    | some before =>
      match ← rememberAtRevision settings memory inputs now before with
      | .ok (some outcomes) => return .ok outcomes
      | .ok none => rememberAttempts settings memory inputs now attempts
      | .error error => return .error error

/-- Remembers facts in one transaction; `now` is what the clock reads when the call begins. -/
def rememberMany (settings : WriteSettings) (memory : Nat) (inputs : List RememberInput) (now : Millis) :
    Code (Except MemoryError (List Remembered)) :=
  if batchCheck inputs then rememberAttempts settings memory inputs now WRITE_ATTEMPTS
  else return .error (.invalid batchMessage)

end Remember

section Forget

inductive ForgetScope where
  | ids (ids : List String)
  | subject (subject : String)
  | entity (entity : String)
  | ingestedBefore (time : Millis)
  | eventBefore (time : Millis)
  | matching (filter : Metadata)

structure ForgetOptions where
  includeChain : Bool
  dryRun : Bool
  purge : Bool
  deriving DecidableEq, Repr

structure ForgetReport where
  forgotten : List String
  dryRun : Bool
  purged : Bool
  deriving DecidableEq, Repr

def resolveScope : ForgetScope → Plan (List String)
  | .ids ids => do
    require (ids.all validId) "ids must be valid fact ids"
    return orderedIds ids
  | .subject subject => ask (.subjectIds (trim subject))
  | .entity entity => ask (.entityIds (trim entity))
  | .ingestedBefore time => ask (.scan fun parts => parts.stamp.any fun stamp => decide (stamp.ingest < time))
  | .eventBefore time => ask (.scan fun parts => parts.stamp.any fun stamp =>
      decide ((stamp.event.or stamp.validFrom).getD stamp.ingest < time))
  | .matching filter => do
    require (!(filterEntries (some filter)).isEmpty) "filter must be a non-empty JSON object"
    require ((filter.get KEY).isNone) "metadata key \"_mem\" is reserved"
    ask (.scan fun parts => parts.stamp.isSome && matchesMetadata parts.metadata (some filter))

def planComponents : List String → Plan (List String)
  | [] => return []
  | id :: rest => do
    let component ← ask (.component id)
    return component ++ (← planComponents rest)

/-- The stored ones of several ids, with their stamps; a plain document counts as one with no memory fields. -/
def planStamps : List String → Plan (List (String × Stamp))
  | [] => return []
  | id :: rest => do
    match ← ask (.snapshot id) with
    | none => planStamps rest
    | some parts => return (id, parts.stamp.getD Stamp.default) :: (← planStamps rest)

/-- The facts that supersede one of several. -/
def planSuperseders : List String → Plan (List String)
  | [] => return []
  | id :: rest => do
    let by_ ← ask (.superseders id)
    return by_ ++ (← planSuperseders rest)

/-- A survivor's stamp once the dead facts are gone: it supersedes what they superseded. -/
def relinkedStamp (stamp : Stamp) (dead bridged : List String) : Stamp :=
  { stamp with
    supersedes := orderedIds ((stamp.supersedes.filter fun id => !dead.contains id) ++ bridged)
    supersededBy := stamp.supersededBy.filter fun id => !dead.contains id }

/-- The rewrites of the surviving facts whose links run through the dead ones. -/
def planRewrites (dead : List String) : List String → Plan (List (String × DocumentParts))
  | [] => return []
  | survivor :: rest => do
    match ← ask (.snapshot survivor) with
    | none => planRewrites dead rest
    | some parts =>
      match parts.stamp with
      | none => planRewrites dead rest
      | some stamp =>
        let bridged ← ask (.bridge survivor dead)
        let relinked := relinkedStamp stamp dead bridged
        let later ← planRewrites dead rest
        if relinked.supersedes = sortIds stamp.supersedes ∧ relinked.supersededBy = stamp.supersededBy then return later
        else return (survivor, { parts with text := some (parts.text.getD ""), stamp := some relinked }) :: later

def bridgeSurvivors (forgotten : List String) : Plan (List (String × DocumentParts)) := do
  let superseders ← planSuperseders forgotten
  planRewrites forgotten (orderedIds (superseders.filter fun by_ => !forgotten.contains by_))

/-- The documents a forget removes, with their stamps. -/
def planForgotten (scope : ForgetScope) (options : ForgetOptions) : Plan (List (String × Stamp)) := do
  let ids ← resolveScope scope
  let ids ← if options.includeChain then (do return orderedIds (← planComponents ids)) else pure ids
  planStamps ids

/-- Cuts a list into transactions. -/
def batchesOf {α : Type} : Nat → List α → List (List α)
  | 0, _ => []
  | _ + 1, [] => []
  | fuel + 1, item :: items => (item :: items).take MAX_BATCH :: batchesOf fuel ((item :: items).drop MAX_BATCH)

def batches {α : Type} (items : List α) : List (List α) :=
  batchesOf items.length items

/-- Commits rewrites one batch after another; none when another writer came between. -/
def relinkEach : List (List (String × DocumentParts)) → Nat → Code (Except MemoryError (Option Nat))
  | [], revision => return .ok (some revision)
  | batch :: rest, revision => do
    match ← perform (.change (.relink batch) revision) with
    | .error error => return .error error
    | .ok false => return .ok none
    | .ok true => relinkEach rest (revision + 1)

/-- Commits removals one batch after another, adding what is removed to what the call removed before. -/
def deleteEach : List (List String) → Nat → List String → Code (Except MemoryError (Option Nat) × List String)
  | [], revision, completed => return (.ok (some revision), completed)
  | batch :: rest, revision, completed => do
    match ← perform (.change (.delete batch) revision) with
    | .error error => return (.error error, completed)
    | .ok false => return (.ok none, completed)
    | .ok true => deleteEach rest (revision + 1) (completed ++ batch)

def textEffect : String := "forgotten-text synchronization"
def purgeEffect : String := "forgotten-data purge"

/-- Synchronizes the text segment and, on request, compacts. -/
def syncAndPurge (options : ForgetOptions) : Code (Except MemoryError Unit) := do
  match ← perform (.afterCommit textEffect) with
  | .error error => return .error error
  | .ok () => if options.purge then perform (.afterCommit purgeEffect) else return .ok ()

/-- Nothing is left to remove, or nothing is to be removed. -/
def finishForget (options : ForgetOptions) (before : Nat) (forgotten completed : List String) :
    Code (Except MemoryError (Option ForgetReport)) := do
  let current ← perform (.revisionMatches before)
  if !current then return .ok none
  if options.dryRun then return .ok (some ⟨forgotten, true, false⟩)
  if completed.isEmpty then return .ok (some ⟨[], false, false⟩)
  match ← syncAndPurge options with
  | .error error => return .error error
  | .ok () => return .ok (some ⟨orderedIds completed, false, options.purge⟩)

def settleForget (memory before commits : Nat) (stamps : List (String × Stamp)) (relinked : Bool) : Code Unit := do
  if relinked then perform (.unsettle memory)
  else
    let after ← perform .coreRevision
    perform (.settle memory before after commits fun index =>
      some (stamps.foldl (fun index entry => index.remove entry.1 entry.2) index))

/-- Rewrites the survivors, removes the facts, and updates the index. -/
def commitForget (memory : Nat) (options : ForgetOptions) (before : Nat) (stamps : List (String × Stamp))
    (rewrites : List (String × DocumentParts)) (completed : List String) :
    Code (Except MemoryError (Option ForgetReport) × List String) := do
  match ← relinkEach (batches rewrites) before with
  | .error error => return (.error error, completed)
  | .ok none => return (.ok none, completed)
  | .ok (some revision) =>
    match ← deleteEach (batches (stamps.map Prod.fst)) revision completed with
    | (.error error, completed) => return (.error error, completed)
    | (.ok none, completed) => return (.ok none, completed)
    | (.ok (some revision), completed) =>
      match ← perform (.afterCommit textEffect) with
      | .error error => return (.error error, completed)
      | .ok () =>
        settleForget memory before (revision - before) stamps (!rewrites.isEmpty)
        if options.purge then
          match ← perform (.afterCommit purgeEffect) with
          | .error error => return (.error error, completed)
          | .ok () =>
            perform (.unsettle memory)
            return (.ok (some ⟨orderedIds completed, false, true⟩), completed)
        else return (.ok (some ⟨orderedIds completed, false, false⟩), completed)

def forgetAtRevision (memory : Nat) (scope : ForgetScope) (options : ForgetOptions) (before : Nat)
    (completed : List String) : Code (Except MemoryError (Option ForgetReport) × List String) := do
  match ← readPlan memory (planForgotten scope options) with
  | .error error => return (.error error, completed)
  | .ok stamps =>
    if options.dryRun || stamps.isEmpty then
      return (← finishForget options before (stamps.map Prod.fst) completed, completed)
    else
      match ← readPlan memory (bridgeSurvivors (stamps.map Prod.fst)) with
      | .error error => return (.error error, completed)
      | .ok rewrites => commitForget memory options before stamps rewrites completed

def forgetAttempts (memory : Nat) (scope : ForgetScope) (options : ForgetOptions) :
    Nat → List String → Code (Except MemoryError ForgetReport)
  | 0, _ => return .error (.concurrent "memory changed during forgetting; retry to finish any committed prefix")
  | attempts + 1, completed => do
    match ← planningRevision memory with
    | none => forgetAttempts memory scope options attempts completed
    | some before =>
      match ← forgetAtRevision memory scope options before completed with
      | (.ok (some report), _) => return .ok report
      | (.ok none, completed) => forgetAttempts memory scope options attempts completed
      | (.error error, _) => return .error error

def forget (memory : Nat) (scope : ForgetScope) (options : ForgetOptions) : Code (Except MemoryError ForgetReport) :=
  forgetAttempts memory scope options WRITE_ATTEMPTS []

end Forget

section Consolidate

structure ConsolidationAction where
  sources : List String
  /-- The merged fact; its `supersedes` is filled with the sources. -/
  summary : RememberInput
  forgetSources : Bool

structure ConsolidationPolicy where
  needsText : Bool
  plan : List FactSummary → Millis → List ConsolidationAction

structure ConsolidateOptions where
  dryRun : Bool
  allowDestructive : Bool
  deriving DecidableEq, Repr

structure ConsolidationReport where
  created : List Remembered
  forgotten : List String
  dryRun : Bool
  deriving DecidableEq, Repr

def summariesSnapshot (memory : Nat) (withText : Bool) (now : Millis) :
    Nat → Code (Except MemoryError (Nat × List FactSummary))
  | 0 => return .error (.concurrent "memory changed during the snapshot; retry the operation")
  | attempts + 1 => do
    match ← planningRevision memory with
    | none => summariesSnapshot memory withText now attempts
    | some revision =>
      match ← perform (.summarize memory revision withText now) with
      | none => summariesSnapshot memory withText now attempts
      | some result =>
        let current ← perform (.revisionMatches revision)
        if current then return result else summariesSnapshot memory withText now attempts

def mergedInput (settings : WriteSettings) (action : ConsolidationAction) : RememberInput :=
  let sources := orderedIds action.sources
  { action.summary with
    supersedes := some sources
    id := some (action.summary.id.getD ("mem:merged:" ++ settings.stableHash (sources.map utf8))) }

def mergedInputs (settings : WriteSettings) (actions : List ConsolidationAction) : List RememberInput :=
  (actions.filter fun action => !action.sources.isEmpty).map (mergedInput settings)

def doomedSources (options : ConsolidateOptions) (actions : List ConsolidationAction) : List String :=
  (actions.filter fun action => action.forgetSources && options.allowDestructive).flatMap fun action =>
    orderedIds action.sources

/-- Removes the merged sources once their summaries are in. -/
def consolidateCleanup (memory expected : Nat) (doomed : List String) : Code (Except MemoryError (List String)) := do
  if doomed.isEmpty then return .ok []
  match ← forgetAtRevision memory (.ids doomed) ⟨false, false, false⟩ expected [] with
  | (.ok (some report), _) => return .ok report.forgotten
  | _ => return .error (.committed "consolidation source cleanup")

def consolidateAttempts (settings : WriteSettings) (policy : ConsolidationPolicy) (memory : Nat)
    (options : ConsolidateOptions) (now : Millis) : Nat → Code (Except MemoryError ConsolidationReport)
  | 0 => return .error (.concurrent "memory changed during consolidation policy evaluation; retry the operation")
  | attempts + 1 => do
    match ← summariesSnapshot memory policy.needsText now WRITE_ATTEMPTS with
    | .error error => return .error error
    | .ok (revision, facts) =>
      let actions := policy.plan facts now
      let inputs := mergedInputs settings actions
      let doomed := doomedSources options actions
      if inputs.isEmpty || options.dryRun then
        let current ← perform (.revisionMatches revision)
        if !current then consolidateAttempts settings policy memory options now attempts
        else if inputs.isEmpty then return .ok ⟨[], [], options.dryRun⟩
        else return .ok ⟨inputs.map fun input => ⟨input.id.getD "", true, input.supersedes.getD [], [], now⟩,
          orderedIds doomed, true⟩
      else
        match ← rememberAtRevision settings memory inputs now revision with
        | .error error => return .error error
        | .ok none => consolidateAttempts settings policy memory options now attempts
        | .ok (some created) =>
          let expected := revision + if created.any (·.created) then 1 else 0
          match ← consolidateCleanup memory expected doomed with
          | .error error => return .error error
          | .ok forgotten => return .ok ⟨created, forgotten, false⟩

/-- Writes each planned summary as a fact that supersedes its sources. -/
def consolidate (settings : WriteSettings) (policy : ConsolidationPolicy) (memory : Nat) (options : ConsolidateOptions)
    (now : Millis) : Code (Except MemoryError ConsolidationReport) :=
  consolidateAttempts settings policy memory options now WRITE_ATTEMPTS

end Consolidate

end Warm.Memory
