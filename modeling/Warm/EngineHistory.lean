import Warm.DocumentListing
import Warm.EngineCompacted

/-! Runs of a store with compactions: after every step the journal describes the live state, as
long as no replay makes the store over a checkpoint index itself anew and a compaction finds every
chain of relations leading to the last rule that has it. -/
namespace Warm.Engine

open List hiding after all length tail

open Binary Audit
open Generation (Steady append drop_extend extend view_extend)
open DocumentStore (Keyed base_insert containsKey get_empty get_insert length_lexicalDocument lexicalDocument values view_of_bare view_reset)

variable {config : Config} {encoder : Encoder dimensions} {store : Store} {chunks : Nat}

theorem Recorded.committed (recorded : Recorded config encoder store) (seen : DocumentStore) (expected : Option Nat)
    (appends : Bool) (issued : ∀ mutation ∈ mutations, Issued mutation)
    (steady : store.core.documents.base = none ∨ (store.generation.append mutations).Steady) :
    Recorded config encoder (store.commit config encoder seen expected appends mutations).1 ∧
      ((store.commit config encoder seen expected appends mutations).1.generation = store.generation ∨
        (store.commit config encoder seen expected appends mutations).1.generation = store.generation.append mutations) ∧
      (store.core.documents.base = none →
        (store.commit config encoder seen expected appends mutations).1.core.documents.base = none) := by
  obtain ⟨core, again, sound, shown, base⟩ := recorded.sound.hydrateUnlessAccepted mutations
  have kept (bare : store.core.documents.base = none) : core.documents.base = none := by
    rcases base with bare | ⟨_, rfl⟩ <;> exact bare
  rcases commit_cases config encoder store recorded.sound.stored.keyed seen expected appends mutations with
    same | ⟨ready, readied, same | ⟨valid, audited, same⟩⟩
  · rw [same]
    exact ⟨recorded, .inl rfl, id⟩
  · obtain rfl := Except.ok.inj (readied.symm.trans again)
    rw [same]
    refine ⟨⟨recorded.written, sound, shown.trans recorded.shown, ?_⟩, .inl rfl, kept⟩
    rcases base with bare | ⟨_, rfl⟩
    · exact .inl bare
    · exact recorded.atop
  · obtain rfl := Except.ok.inj (readied.symm.trans again)
    have committed : Committed config mutations := fun m member => ⟨validateTransaction_ok valid m member, issued m member⟩
    rw [same]
    refine ⟨recorded.commit readied committed audited steady, .inr rfl, ?_⟩
    intro bare
    have rebuilt := kept bare
    obtain ⟨after, moved⟩ := (sound.queue.validate_iff mutations).mp audited
    obtain ⟨_, _, written⟩ := sound.steps encoder committed (.inl rebuilt) moved
    rw [written]
    exact base_foldl_writeDocuments rebuilt mutations

def Batch.Issued (batch : Batch) : Prop := ∀ mutation ∈ batch.mutations, Engine.Issued mutation

theorem Recorded.batches (recorded : Recorded config encoder store) (bare : store.core.documents.base = none)
    {tail : List Batch} (issued : ∀ batch ∈ tail, batch.Issued) :
    Recorded config encoder (tail.foldl (Store.batch config encoder) store) ∧
      (tail.foldl (Store.batch config encoder) store).core.documents.base = none ∧
      ∃ more, (tail.foldl (Store.batch config encoder) store).generation = store.generation.extend more := by
  induction tail generalizing store with
  | nil => exact ⟨recorded, bare, [], by simp [extend]⟩
  | cons batch tail ih =>
    obtain ⟨done, written, kept⟩ := recorded.committed batch.seen batch.expected batch.appends
      (issued batch mem_cons_self) (.inl bare)
    obtain ⟨last, final, more, longer⟩ := ih done (kept bare) (forall_mem_cons.mp issued).2
    refine ⟨last, final, ?_⟩
    rcases written with same | same
    · rw [same] at longer
      exact ⟨more, longer⟩
    · rw [same] at longer
      refine ⟨batch.mutations :: more, longer.trans ?_⟩
      simp only [append, extend, append_assoc, singleton_append]

theorem flatten_singletons (items : List α) (make : α → Mutation) :
    (items.map fun item => [make item]).flatten = items.map make := by
  induction items with
  | nil => rfl
  | cons item items ih => rw [map_cons, flatten_cons, ih, map_cons, singleton_append]

theorem view_opened_eq (config : Config) (checkpoint : Option ServingImage) :
    (opened config 0 checkpoint).view =
      bare config (opened config 0 checkpoint).documents.view (fun _ => none) fun _ => none := by
  simp only [opened, WarmCore.view, bare, View.mk.injEq, and_true]
  refine ⟨?_, ?_, ?_, rfl, ?_⟩
  · funext id
    simp
  · cases config.meaningEnabled <;> rfl
  · funext id
    simp
  · funext id
    simp [RelationStore.empty]

section

variable (keyed : Keyed core.documents.documents) (encoded : encodeCheckpoint config core taken = some image)
include keyed encoded

theorem find_encodeCheckpoint (id : String) :
    image.find id = core.documents.get id := by
  rw [encodeCheckpoint] at encoded
  split at encoded
  next =>
    have shape := Option.some.inj encoded
    have entries : image.documents = imageEntries core.documents := by rw [← shape]
    apply Option.ext
    intro document
    rw [ServingImage.find, Option.map_eq_some_iff]
    constructor
    · rintro ⟨entry, found, rfl⟩
      obtain ⟨member, rfl⟩ := (find?_key_eq_some image.distinct id entry).mp found
      rw [entries] at member
      obtain ⟨⟨key, stored⟩, inside, rfl⟩ := mem_map.mp member
      have known := (Table.mem_toList core.documents.documents key stored).mp inside
      have own : stored.id = key := keyed key stored known
      rw [own]
      exact known
    · intro known
      have own : document.id = id := keyed id document known
      refine ⟨(document, core.documents.table.slots[id]?.getD []),
        (find?_key_eq_some image.distinct id _).mpr ⟨?_, own⟩, rfl⟩
      rw [entries]
      exact mem_map.mpr ⟨(id, document), (Table.mem_toList _ id document).mpr known, rfl⟩
  next => contradiction

theorem mem_encodeCheckpoint (member : entry ∈ image.documents) :
    core.documents.get entry.1.id = some entry.1 := by
  rw [← find_encodeCheckpoint keyed encoded, ServingImage.find, Option.map_eq_some_iff]
  exact ⟨entry, (find?_key_eq_some image.distinct entry.1.id entry).mpr ⟨member, rfl⟩, rfl⟩

end

/-- What a compaction meets in the store it starts from: the types in some order, and callers that
issue ids. -/
structure Compaction.Fits (plan : Compaction) (store : Store) : Prop where
  listing : plan.types.Perm store.core.graph.typeSnapshot
  issued : ∀ batch ∈ plan.tail, batch.Issued

section Compacted

variable {plan : Compaction} {mutations : List Mutation}

theorem flatten_compacted (store : Store) (plan : Compaction) (mutations : List Mutation) :
    (compacted config encoder store plan mutations).frames.flatten =
      mutations ++ (carried config encoder store plan).map .document ++
        ((plan.tail.foldl (Store.batch config encoder) store).generation.frames.drop
          store.generation.frames.length).flatten ++ (auditIntent config plan.intent).toList.map .auditPending := by
  simp only [compacted, List.flatten_append, flatten_singletons, map_id']

theorem Recorded.extended (recorded : Recorded config encoder store) (final : Recorded config encoder last)
    (longer : last.generation = store.generation.extend more) :
    last.core.view = more.flatten.foldl (View.apply encoder) store.core.view := by
  rw [final.shown, recorded.shown, longer, view_extend]

theorem containsKey_eq (documents : DocumentStore) (id : String) : documents.containsKey id = (documents.view id).isSome := by
  rw [containsKey, DocumentStore.view, Option.isSome_or]

theorem rewritten_of_isDeleted (recorded : Recorded config encoder store) (bare : store.core.documents.base = none)
    (issued : ∀ batch ∈ plan.tail, batch.Issued) {id : String} (stored : (store.core.view.documents id).isSome = true)
    (deleted : isDeleted config encoder store plan id = true) :
    ((plan.tail.foldl (Store.batch config encoder) store).generation.frames.drop
      store.generation.frames.length).flatten.any (rewrites id) = true := by
  rw [isDeleted] at deleted
  generalize front : plan.tail.take (plan.moment id) = before at deleted
  generalize back : plan.tail.drop (plan.moment id) = after
  have whole : plan.tail = before ++ after := by rw [← front, ← back, take_append_drop]
  rw [whole] at issued ⊢
  obtain ⟨half, kept, part, longer⟩ := recorded.batches bare (forall_mem_append.mp issued).1
  obtain ⟨_, _, rest, longest⟩ := half.batches kept (forall_mem_append.mp issued).2
  have shown := recorded.extended half longer
  rw [foldl_append, longest, longer, Generation.extend_extend, drop_extend, List.flatten_append,
    any_append]
  rw [longer, drop_extend, Bool.or_eq_true, Bool.and_eq_true, Bool.not_eq_true', containsKey_eq] at deleted
  rcases deleted with gone | ⟨_, wrote⟩
  · cases found : part.flatten.any (rewrites id) with
    | true => rfl
    | false =>
      have unwritten := isSome_of_unwritten encoder store.core.view fun mutation member =>
        Bool.not_eq_true _ ▸ any_eq_false.mp found mutation member
      rw [← shown, stored] at unwritten
      exact absurd unwritten (by rw [WarmCore.view, gone]; simp)
  · rw [wrote]
    rfl

/-- The documents the transactions of the new generation start with. -/
def kept (config : Config) (encoder : Encoder dimensions) (store : Store) (plan : Compaction) (id : String) :
    Option StoredDocument :=
  if isDeleted config encoder store plan id = true then none else store.core.documents.get id

theorem mem_carried (keyed : Keyed store.core.documents.documents)
    (plain : encodeCheckpoint config store.core plan.checkpoint = none) (id : String) (document : StoredDocument) :
    (id, document) ∈ (carried config encoder store plan).map (fun d => (d.id, d)) ↔
      kept config encoder store plan id = some document := by
  rw [kept, carried, plain, if_neg (by simp), mem_map]
  constructor
  · rintro ⟨other, member, same⟩
    obtain ⟨rfl, rfl⟩ := Prod.mk.inj same
    obtain ⟨listed, kept⟩ := mem_filter.mp member
    obtain ⟨⟨key, _⟩, inside, rfl⟩ := mem_map.mp listed
    have known := (Table.mem_toList store.core.documents.documents key _).mp inside
    have own := keyed key _ known
    rw [if_neg (by simpa using kept), own]
    exact known
  · intro found
    split at found
    · contradiction
    next kept =>
      have own : document.id = id := keyed id document found
      refine ⟨document, mem_filter.mpr ⟨mem_map.mpr ⟨(id, document), (Table.mem_toList _ id document).mpr found,
        rfl⟩, ?_⟩, by rw [own]⟩
      rw [own]
      simpa using kept

section

variable (recorded : Recorded config encoder store)
include recorded

section

variable (bare : store.core.documents.base = none)
include bare

section

variable (valid : store.core.view.Valid config) (fits : plan.Fits store) (written : snapshotMutations config store.core plan.types = some mutations)
include valid fits written

/-- The compacted generation describes what the transactions beside it make of the state, with every
chain leading to the last rule that has it. -/
theorem view_compacted :
    ∃ more, (plan.tail.foldl (Store.batch config encoder) store).generation = store.generation.extend more ∧
      (compacted config encoder store plan mutations).view config encoder =
        ((auditIntent config plan.intent).toList.map .auditPending).foldl (View.apply encoder)
          (more.flatten.foldl (View.apply encoder) store.core.view.canonical) := by
  obtain ⟨_, _, more, longer⟩ := recorded.batches bare fits.issued
  refine ⟨more, longer, ?_⟩
  have rewritten (id : String) (stored : (store.core.view.documents id).isSome = true) :=
    rewritten_of_isDeleted recorded bare fits.issued stored
  rw [longer, drop_extend] at rewritten
  have shown (id : String) : store.core.view.canonical.documents id = store.core.documents.get id :=
    view_of_bare bare id
  have agree : more.flatten.foldl (View.apply encoder)
      (((carried config encoder store plan).map Mutation.document).foldl (View.apply encoder)
        { store.core.view.canonical with
          documents := (opened config 0 (compacted config encoder store plan mutations).checkpoint).documents.view }) =
      more.flatten.foldl (View.apply encoder) store.core.view.canonical := by
    have checkpoint : (compacted config encoder store plan mutations).checkpoint =
      encodeCheckpoint config store.core plan.checkpoint := rfl
    rw [checkpoint]
    cases encoded : encodeCheckpoint config store.core plan.checkpoint with
    | some image =>
      have none : carried config encoder store plan = [] := by rw [carried, encoded]; rfl
      have same : (opened config 0 (some image)).documents.view = store.core.view.canonical.documents := by
        funext id
        rw [shown, ← find_encodeCheckpoint recorded.sound.stored.keyed encoded]
        rfl
      rw [none, same]
      rfl
    | none =>
      have empty (id : String) : (opened config 0 none).documents.view id = none := get_empty id
      have agree : AgreeOff (fun id => isDeleted config encoder store plan id = true ∧
            (store.core.view.canonical.documents id).isSome = true)
          store.core.view.canonical { store.core.view.canonical with documents := kept config encoder store plan } := by
        refine ⟨rfl, fun id off => ?_⟩
        dsimp only at off ⊢
        rw [shown] at off ⊢
        rw [kept]
        split
        next deleted =>
          cases found : store.core.documents.get id with
          | none => rfl
          | some document =>
            rw [found] at off
            exact absurd ⟨deleted, rfl⟩ off
        next => rfl
      rw [apply_documents, ← agree.eq encoder fun id listed => rewritten id listed.2 listed.1]
      simp only [putAll_eq (mem_carried recorded.sound.stored.keyed encoded), empty, Option.or_none]
  rw [Generation.view, flatten_compacted, longer, drop_extend, view_opened_eq]
  simp only [foldl_append]
  rw [view_snapshotMutations valid fits.listing written encoder, agree]

theorem written_compacted
    (audited : validateAuditTransitions (plan.tail.foldl (Store.batch config encoder) store).core.auditPending
      ((auditIntent config plan.intent).toList.map .auditPending) = .ok ()) :
    (compacted config encoder store plan mutations).Written config ∧
      CheckedImage config (compacted config encoder store plan mutations).checkpoint := by
  obtain ⟨final, _, more, longer⟩ := recorded.batches bare fits.issued
  have keyed := recorded.sound.stored.keyed
  have stored (document : StoredDocument) (known : store.core.documents.get document.id = some document) :
      validateMutation config (.document document) = .ok () ∧ Named document :=
    (valid.documents document.id document ((view_of_bare bare document.id).trans known)).2
  have image (image : ServingImage) (encoded : encodeCheckpoint config store.core plan.checkpoint = some image)
      (entry : StoredDocument × List Nat) (member : entry ∈ image.documents) :=
    stored entry.1 (mem_encodeCheckpoint keyed encoded member)
  refine ⟨⟨fun i encoded entry member => (image i encoded entry member).2, ?_, ?_⟩,
    fun i encoded entry member => (image i encoded entry member).1⟩
  · rw [flatten_compacted, longer, drop_extend]
    refine committed_append (committed_append (committed_append (committed_snapshotMutations valid fits.listing written)
      ?_) ?_) ?_
    · refine committed_map fun document member => stored document ?_
      cases encoded : encodeCheckpoint config store.core plan.checkpoint with
      | some image =>
        rw [carried, encoded] at member
        contradiction
      | none =>
        have listed := (mem_carried keyed encoded document.id document).mp (mem_map.mpr ⟨document, member, rfl⟩)
        rw [kept] at listed
        split at listed
        · contradiction
        · exact listed
    · intro mutation member
      refine final.written.committed mutation ?_
      rw [longer, extend, List.flatten_append]
      exact mem_append_right _ member
    · refine committed_map fun intent member => ⟨?_, trivial⟩
      exact auditIntent_valid (Option.mem_toList.mp member)
  · obtain ⟨after, moved⟩ := (final.sound.queue.validate_iff _).mp audited
    refine ⟨after, ?_⟩
    have pending := final.written.pending encoder
    rw [longer, extend, List.flatten_append, foldlM_append, recorded.written.pending encoder,
      ← recorded.shown, ← extend] at pending
    have grown : more.flatten.foldlM advance store.core.auditPending =
        some (plan.tail.foldl (Store.batch config encoder) store).core.auditPending := by
      refine pending.trans ?_
      rw [← longer, ← final.shown]
      rfl
    have quiet : ((carried config encoder store plan).map Mutation.document).any isAudit = false := by
      rw [any_eq_false]
      intro mutation member
      obtain ⟨_, _, rfl⟩ := mem_map.mp member
      exact Bool.false_ne_true
    rw [flatten_compacted, longer, drop_extend]
    simp only [foldlM_append]
    rw [advance_snapshotMutations recorded.sound.queue written]
    change ((((carried config encoder store plan).map Mutation.document).foldlM advance store.core.auditPending >>= _) >>= _) = _
    rw [advance_all_of_not_audit quiet]
    change (more.flatten.foldlM advance store.core.auditPending >>= _) = _
    rw [grown]
    exact moved

end

theorem Recorded.published
    (valid : store.core.view.Valid config) (canonical : Canonical store.core) (fits : plan.Fits store)
    (written : snapshotMutations config store.core plan.types = some mutations)
    (audited : validateAuditTransitions (plan.tail.foldl (Store.batch config encoder) store).core.auditPending
      ((auditIntent config plan.intent).toList.map .auditPending) = .ok ()) (revision : Nat) :
    Recorded config encoder
      ⟨{ (plan.tail.foldl (Store.batch config encoder) store).core with
          auditPending := (plan.tail.foldl (Store.batch config encoder) store).core.auditPending ++
            (auditIntent config plan.intent).toList
          revision }, compacted config encoder store plan mutations⟩ := by
  obtain ⟨final, rebuilt, _⟩ := recorded.batches bare fits.issued
  obtain ⟨ledger, indexed⟩ := final.sound.indexed
  obtain ⟨more, longer, shown⟩ := view_compacted recorded bare valid fits written
  refine ⟨(written_compacted recorded bare valid fits written audited).1,
    ⟨⟨ledger, indexed.congr rfl rfl rfl rfl⟩, final.sound.stored, ?_, final.sound.based⟩, ?_, .inl rebuilt⟩
  · obtain ⟨after, moved⟩ := (final.sound.queue.validate_iff _).mp audited
    have grown : (((auditIntent config plan.intent).toList.map Mutation.auditPending).foldl (View.apply encoder)
        (plan.tail.foldl (Store.batch config encoder) store).core.view).auditPending = after := auditPending_foldl encoder moved
    rw [apply_intents] at grown
    have joined : (plan.tail.foldl (Store.batch config encoder) store).core.auditPending ++
        (auditIntent config plan.intent).toList = after := grown
    rw [joined]
    exact final.sound.queue.advance_all moved
  · rw [shown, canonical.view_eq, ← recorded.extended final longer, apply_intents]
    rfl

end

end

end Compacted

theorem Compaction.Fits.hydrated {plan : Compaction} (fits : plan.Fits store)
    (hydrated : hydrateDocuments store.core = .ok core) : plan.Fits { store with core } := by
  refine ⟨?_, fits.issued⟩
  rcases hydrateDocuments_ok hydrated with ⟨rfl, _⟩ | ⟨base, _, rfl⟩ <;> exact fits.listing

theorem Canonical.hydrated (canonical : Canonical core) (hydrated : hydrateDocuments core = .ok after) :
    Canonical after := by
  rcases hydrateDocuments_ok hydrated with ⟨rfl, _⟩ | ⟨base, _, rfl⟩ <;> exact canonical

/-- What happens to a store, with compactions. -/
inductive Step where
  | act (action : Action)
  | compact (plan : Compaction)

def step (config : Config) (encoder : Encoder dimensions) (store : Store) : Step → Store
  | .act action => act config encoder store action
  | .compact plan => (store.compact config encoder plan).1

def runSteps (config : Config) (encoder : Encoder dimensions) (store : Store) (steps : List Step) : Store :=
  steps.foldl (step config encoder) store

/-- A condition on each step of a run and the store it finds. -/
def Along (config : Config) (encoder : Encoder dimensions) (holds : Store → Step → Prop) : Store → List Step → Prop
  | _, [] => True
  | store, next :: rest => holds store next ∧ Along config encoder holds (step config encoder store next) rest

/-- What callers see to. -/
def Step.Issued (store : Store) : Step → Prop
  | .act action => action.Issued
  | .compact plan => plan.Fits store

/-- The journal after the step replays without indexing the store over its checkpoint anew, and a
compaction finds every chain leading to the last rule with it and does not lose its own intent. -/
def Step.Steady (config : Config) (encoder : Encoder dimensions) (store : Store) : Step → Prop
  | .act (.commit _ _ _ mutations) => (store.generation.append mutations).Steady
  | .act _ => True
  | .compact plan =>
    Canonical store.core ∧ (plan.publication = .unclean → auditIntent config plan.intent = none) ∧
      (store.compact config encoder plan).1.generation.Steady

/-- What holds between the steps of a run. -/
structure Settled (config : Config) (encoder : Encoder dimensions) (store : Store) : Prop where
  recorded : Recorded config encoder store
  steady : store.generation.Steady
  checked : CheckedImage config store.generation.checkpoint

namespace Settled

theorem start (config : Config) (encoder : Encoder dimensions) (more : Nat) :
    Settled config encoder (.start config more none) := by
  refine ⟨.start config encoder more (fun image found => by contradiction), .inl rfl, fun image found => by contradiction⟩

theorem valid {encoder : Encoder config.dimensions} (settled : Settled config encoder store) :
    store.core.view.Valid config := by
  rw [settled.recorded.shown]
  exact (valid_opened settled.recorded.written.image settled.checked).applyAll encoder settled.recorded.written.committed

theorem load (settled : Settled config encoder store) (more : Nat) :
    ∃ core, loadFromLog config encoder more store.generation = .ok core ∧ Recorded config encoder { store with core } ∧
      core.liveState = store.core.liveState := by
  obtain ⟨core, loaded, sound, shown, atop⟩ := settled.recorded.written.load settled.steady encoder more
  exact ⟨core, loaded, ⟨settled.recorded.written, sound, shown, atop⟩,
    liveState_eq settled.recorded.sound sound (shown.trans settled.recorded.shown.symm)⟩

theorem act (settled : Settled config encoder store) (issued : action.Issued)
    (steady : (Step.act action).Steady config encoder store) : Settled config encoder (act config encoder store action) := by
  cases action with
  | commit seen expected appends mutations =>
    obtain ⟨done, written, _⟩ := settled.recorded.committed seen expected appends issued (.inr steady)
    rcases written with same | same
    · exact ⟨done, (congrArg Steady same).mpr settled.steady,
        (congrArg (fun g => CheckedImage config g.checkpoint) same).mpr settled.checked⟩
    · exact ⟨done, (congrArg Steady same).mpr steady,
        (congrArg (fun g => CheckedImage config g.checkpoint) same).mpr settled.checked⟩
  | read =>
    obtain ⟨core, hydrated, recorded, _⟩ := settled.recorded.hydrate
    rw [Engine.act, hydrated]
    exact ⟨recorded, settled.steady, settled.checked⟩
  | reopen more =>
    obtain ⟨core, loaded, recorded, _⟩ := settled.load more
    rw [Engine.act, loaded]
    exact ⟨recorded, settled.steady, settled.checked⟩

theorem compact {encoder : Encoder config.dimensions} (settled : Settled config encoder store) (fits : plan.Fits store)
    (steady : (Step.compact plan).Steady config encoder store) :
    Settled config encoder (store.compact config encoder plan).1 := by
  obtain ⟨canonical, clean, steady⟩ := steady
  obtain ⟨core, hydrated, recorded, bare⟩ := settled.recorded.hydrate
  have valid : core.view.Valid config := Settled.valid ⟨recorded, settled.steady, settled.checked⟩
  have canonical := canonical.hydrated hydrated
  have fits := fits.hydrated hydrated
  have last := recorded.batches bare fits.issued
  have idle (steady : (plan.tail.foldl (Store.batch config encoder) { store with core }).generation.Steady) :
      Settled config encoder (plan.tail.foldl (Store.batch config encoder) { store with core }) := by
    obtain ⟨final, _, more, longer⟩ := last
    exact ⟨final, steady, (congrArg (fun g => CheckedImage config g.checkpoint) longer).mpr settled.checked⟩
  rw [Store.compact, hydrated] at steady ⊢
  dsimp only at steady ⊢
  cases written : snapshotMutations config core plan.types with
  | none => exact ⟨recorded, settled.steady, settled.checked⟩
  | some mutations =>
    rw [written] at steady
    rcases audited : validateAuditTransitions
        (plan.tail.foldl (Store.batch config encoder) { store with core }).core.auditPending
        ((auditIntent config plan.intent).toList.map Mutation.auditPending) with error | ok
    · rw [audited] at steady
      exact idle steady
    · rw [audited] at steady
      obtain ⟨_, checked⟩ := written_compacted recorded bare valid fits written audited
      have done := recorded.published bare valid canonical fits written audited
      cases publication : plan.publication with
      | abandoned =>
        rw [publication] at steady
        exact idle steady
      | published =>
        rw [publication] at steady
        exact ⟨done _, steady, checked⟩
      | unclean =>
        rw [publication] at steady
        have silent := clean publication
        have kept := done (plan.tail.foldl (Store.batch config encoder) { store with core }).core.revision
        rw [silent, Option.toList_none, append_nil] at kept
        exact ⟨kept, steady, checked⟩

theorem step {next} {encoder : Encoder config.dimensions} (settled : Settled config encoder store) (issued : next.Issued store)
    (steady : next.Steady config encoder store) : Settled config encoder (step config encoder store next) := by
  cases next with
  | act action => exact settled.act issued steady
  | compact plan => exact settled.compact issued steady

theorem run {encoder : Encoder config.dimensions} (settled : Settled config encoder store)
    (issued : Along config encoder Step.Issued store steps)
    (steady : Along config encoder (Step.Steady config encoder) store steps) :
    Settled config encoder (runSteps config encoder store steps) := by
  induction steps generalizing store with
  | nil => exact settled
  | cons next rest ih => exact ih (settled.step issued.1 steady.1) issued.2 steady.2

end Settled

/-- After any run of steady steps the journal replays to the live state, with any number of shards. -/
theorem replay_history (config : Config) (encoder : Encoder config.dimensions) (more : Nat) (steps : List Step)
    (issued : Along config encoder Step.Issued (.start config more none) steps)
    (steady : Along config encoder (Step.Steady config encoder) (.start config more none) steps) (shards : Nat) :
    ∃ core, loadFromLog config encoder shards (runSteps config encoder (.start config more none) steps).generation = .ok core ∧
      core.liveState = (runSteps config encoder (.start config more none) steps).core.liveState := by
  obtain ⟨core, loaded, _, same⟩ := ((Settled.start config encoder more).run issued steady).load shards
  exact ⟨core, loaded, same⟩

section Reset

theorem commit_eq (encoder : Encoder dimensions) (store : Store)
    (keyed : Keyed store.core.documents.documents) (idle : store.core.serving = false)
    (valid : validateTransaction config mutations = .ok ())
    (audited : validateAuditTransitions store.core.auditPending mutations = .ok ()) (seen : DocumentStore) :
    (store.commit config encoder seen none true mutations).1 =
      ⟨{ mutations.foldl (applyDirect encoder) store.core with
          revision := (mutations.foldl (applyDirect encoder) store.core).revision + 1 },
        store.generation.append mutations⟩ := by
  have ready : hydrateUnlessAccepted store.core mutations = .ok store.core := by
    rw [hydrateUnlessAccepted, checkpointAccepts, hydrateDocuments, idle]
    rfl
  rw [Store.commit, ready]
  dsimp only
  rw [valid]
  rw [commitPayload, audited, ← applyMutations_eq keyed encoder mutations seen]
  rfl

theorem encodeCheckpoint_isSome (config : Config) (stored : core.documents.Valid)
    (schema : CHECKPOINT_SCHEMA_VERSION ≤ config.schema) (other : core.otherState = false)
    (none : core.shards.patterns = [])
    (shaped : ∀ id document, core.documents.get id = some document → representable document = true) :
    (encodeCheckpoint config core true).isSome = true := by
  have entry (entry : StoredDocument × List Nat) (member : entry ∈ imageEntries core.documents) :
      core.documents.get entry.1.id = some entry.1 ∧ entry.2 = core.documents.table.slots[entry.1.id]?.getD [] := by
    obtain ⟨⟨id, document⟩, inside, rfl⟩ := mem_map.mp member
    have found := (Table.mem_toList core.documents.documents id document).mp inside
    have own : document.id = id := stored.keyed id document found
    exact ⟨own ▸ found, own ▸ rfl⟩
  rw [encodeCheckpoint, dif_pos]
  · rfl
  refine ⟨rfl, schema, other, none, ?_, ?_, ?_⟩
  · exact fun e member => shaped e.1.id e.1 (entry e member).1
  · have ordered := DocumentStore.values_ordered stored.keyed
    rw [imageEntries, map_map]
    rw [values, pairwise_map] at ordered
    exact pairwise_map.mpr ordered
  · intro e member
    obtain ⟨found, slots⟩ := entry e member
    have size := stored.sized e.1.id
    rw [found, Option.map_some] at size
    obtain ⟨list, placed, length⟩ := Option.map_eq_some_iff.mp size
    rw [slots, placed, Option.getD_some, length]

theorem replay_document (keyed : Keyed core.documents.documents) (serving : core.serving = true)
    (plain : isDocumentOrAudit mutation = true) (replayed : replayMutations config encoder core [mutation] = .ok after) :
    after.documents = writeDocuments core.documents mutation ∧ after.serving = true ∧
      Keyed after.documents.documents := by
  obtain ⟨_, ready, readied, rfl⟩ := replayMutations_ok keyed replayed
  rw [hydrateUnlessAccepted, checkpointAccepts, serving, all_cons, plain] at readied
  obtain rfl := Except.ok.inj readied
  obtain ⟨documents, kept⟩ := documents_applyDirect encoder core mutation
  exact ⟨documents, kept.trans serving, keyed_applyDirect keyed encoder mutation⟩

theorem lost_in_replay (large : 1024 ≤ chunks) {shards : Nat} {core : WarmCore}
    (loaded : loadFromLog config encoder shards ⟨some image, [[.document (lexicalDocument "a" chunks)], [.document (lexicalDocument "b" 1)], [.deleteDocument "a"]]⟩ = .ok core) :
    core.documents.view "keep" = none := by
  rw [loadFromLog_eq] at loaded
  change (replayMutations config encoder (opened config shards (some image))
      [.document (lexicalDocument "a" chunks)] >>= fun next =>
    replayMutations config encoder next [.document (lexicalDocument "b" 1)] >>= fun next =>
      replayMutations config encoder next [.deleteDocument "a"] >>= pure) = .ok core at loaded
  obtain ⟨one, first, loaded⟩ := bind_eq_ok.mp loaded
  obtain ⟨two, second, loaded⟩ := bind_eq_ok.mp loaded
  obtain ⟨three, third, loaded⟩ := bind_eq_ok.mp loaded
  obtain rfl := Except.ok.inj loaded
  obtain ⟨wrote, serving, keyed⟩ := replay_document (keyed_opened config shards (some image)) rfl rfl first
  obtain ⟨wrote', serving, keyed⟩ := replay_document keyed serving rfl second
  obtain ⟨wrote'', _, _⟩ := replay_document keyed serving rfl third
  have reset := view_reset image chunks large "keep" (by decide)
  rw [wrote'', wrote', wrote]
  exact reset

/-- A store without a meaning memory. -/
def plainConfig : Config := ⟨64, 6, false, 0⟩

/-- A compaction with nothing beside it. -/
def alone (checkpoint : Bool) : Compaction where
  types := []
  checkpoint
  tail := []
  moment _ := 0
  zeroed _ := false
  intent := none
  publication := .published

theorem validate_lexicalDocument {id : String} (valid : validateId id = true) (short : id.utf8ByteSize ≤ 100)
    (some : 0 < chunks) (few : chunks ≤ 4096) :
    validateTransaction plainConfig [.document (lexicalDocument id chunks)] = .ok () := by
  have one : validateMutation plainConfig (.document (lexicalDocument id chunks)) = .ok () := by
    rw [validateMutation, ensure_bind_ok, ensure_bind_ok, forM_ok_iff, length_lexicalDocument]
    refine ⟨valid, ?_, ?_⟩
    · have full : (lexicalDocument id chunks).chunks.isEmpty = false := by
        rw [isEmpty_eq_false_iff, ← length_pos_iff, length_lexicalDocument]
        exact some
      rw [full, decide_eq_true few]
      rfl
    · intro chunk member
      obtain ⟨i, inside, rfl⟩ := mem_map.mp member
      rw [mem_range] at inside
      have named : validateId (chunkId id i) = true := validateId_chunkId valid short (by omega)
      have size : UInt32.size = 4294967296 := rfl
      have first : (UInt32.ofNat i).toNat = i := UInt32.toNat_ofNat_of_lt' (by omega)
      have last : (UInt32.ofNat (i + 1)).toNat = i + 1 := UInt32.toNat_ofNat_of_lt' (by omega)
      have step : i + 1 - i = 1 := by omega
      rw [validateChunk, ensure_bind_ok]
      refine ⟨named, ?_⟩
      change (do
        ensure (VectorRecord.valid plainConfig.dimensions ⟨64, []⟩ && decide (UInt32.ofNat i < UInt32.ofNat (i + 1)) &&
          decide ((UInt32.ofNat (i + 1)).toNat ≤ MAX_DOCUMENT_BYTES) &&
          decide ((UInt32.ofNat (i + 1)).toNat - (UInt32.ofNat i).toNat ≤ MAX_CHUNK_BYTES) &&
          decide ("x".utf8ByteSize = (UInt32.ofNat (i + 1)).toNat - (UInt32.ofNat i).toNat)) .documentVector
        ensure true .embedding) = .ok ()
      rw [ensure_bind_ok, ensure_ok]
      simp only [Bool.and_eq_true, decide_eq_true_eq, and_true, UInt32.lt_iff_toNat_lt, first, last, step]
      refine ⟨⟨⟨⟨by decide, by omega⟩, ?_⟩, by decide⟩, by decide⟩
      rw [MAX_DOCUMENT_BYTES]
      omega
  rw [validateTransaction, ensure_bind_ok]
  exact ⟨rfl, (forM_ok_iff _ _).mpr fun m member => mem_singleton.mp member ▸ one⟩

theorem compact_eq (encoder : Encoder dimensions) (store : Store) (checkpoint : Bool)
    (idle : store.core.serving = false) (written : snapshotMutations config store.core [] = some mutations) :
    store.compact config encoder (alone checkpoint) =
      (⟨{ store.core with auditPending := store.core.auditPending ++ [], revision := store.core.revision + 1 },
        compacted config encoder store (alone checkpoint) mutations⟩, true) := by
  have ready : hydrateDocuments store.core = .ok store.core := by rw [hydrateDocuments, idle]; rfl
  have silent : auditIntent config (alone checkpoint).intent = none := rfl
  have types : (alone checkpoint).types = [] := rfl
  have tail : (alone checkpoint).tail.foldl (Store.batch config encoder) { store with core := store.core } = store := rfl
  rw [Store.compact, ready]
  dsimp only
  rw [types, written]
  rw [silent, tail]
  rfl

theorem compacted_alone (encoder : Encoder dimensions) (store : Store)
    (encoded : encodeCheckpoint config store.core true = some image) :
    compacted config encoder store (alone true) [] = ⟨some image, []⟩ := by
  have silent : auditIntent config (alone true).intent = none := rfl
  have checkpoint : (alone true).checkpoint = true := rfl
  have tail : (alone true).tail.foldl (Store.batch config encoder) store = store := rfl
  rw [compacted, carried, tail, silent, checkpoint, encoded]
  simp

def keepStep : Step := .act (.commit .empty none true [.document (lexicalDocument "keep" 1)])

/-- A document, and a compaction to a checkpoint. -/
def keepSteps : List Step := [keepStep, .compact (alone true)]

/-- Then a large document and a small one are written, and the large one is deleted. -/
def resetSteps (chunks : Nat) : List Step :=
  keepSteps ++ [.act (.commit .empty none true [.document (lexicalDocument "a" chunks)]),
    .act (.commit .empty none true [.document (lexicalDocument "b" 1)]),
    .act (.commit .empty none true [.deleteDocument "a"])]

theorem named_lexicalDocument (id : String) (chunks : Nat) : Named (lexicalDocument id chunks) := by
  intro i chunk found
  rw [lexicalDocument] at found
  rw [getElem?_map, Option.map_eq_some_iff] at found
  obtain ⟨j, inside, rfl⟩ := found
  obtain ⟨_, rfl⟩ := List.getElem?_eq_some_iff.mp inside
  rw [getElem_range]
  rfl

theorem snapshotMutations_nil (none : core.shards.patterns = []) (relations : core.graph = .empty)
    (meaning : core.meaning = Option.none) (derived : core.derived = ∅) (pending : core.auditPending = []) :
    snapshotMutations config core [] = some [] := by
  simp [snapshotMutations, standaloneVectors, none, relations, meaning, derived, pending, RelationStore.empty,
    RelationStore.snapshot]

theorem core_keep (core : WarmCore)
    (wrote : core = { [Mutation.document (lexicalDocument "keep" 1)].foldl (applyDirect plainEncoder)
        (opened plainConfig 0 none) with revision := 1 }) :
    core.shards.patterns = [] ∧ ∀ id, core.documents.get id =
      if id = "keep" then some (lexicalDocument "keep" 1) else none := by
  subst wrote
  constructor
  · rw [eq_nil_iff_forall_not_mem]
    rintro ⟨id, vector⟩ member
    rw [ShardSet.mem_patterns] at member
    change ((ShardSet.new 0).getVector id) = some vector at member
    rw [ShardSet.getVector_new] at member
    contradiction
  · intro id
    change (DocumentStore.empty.insert (lexicalDocument "keep" 1)).get id = _
    rw [get_insert _ DocumentStore.valid_empty.keyed, get_empty]
    rfl

/-- The store after the first document is compacted to a checkpoint with it. -/
theorem run_keepSteps :
    ∃ image, (Along plainConfig plainEncoder Step.Issued (.start plainConfig 0 none) keepSteps ∧
        Along plainConfig plainEncoder (Step.Steady plainConfig plainEncoder) (.start plainConfig 0 none) keepSteps ∧
        ((step plainConfig plainEncoder (.start plainConfig 0 none) keepStep).compact plainConfig plainEncoder
          (alone true)).2 = true) ∧
      (runSteps plainConfig plainEncoder (.start plainConfig 0 none) keepSteps).generation = ⟨some image, []⟩ ∧
      (runSteps plainConfig plainEncoder (.start plainConfig 0 none) keepSteps).core.documents.base = none ∧
      image.find "keep" = some (lexicalDocument "keep" 1) := by
  have valid : validateTransaction plainConfig [.document (lexicalDocument "keep" 1)] = .ok () :=
    validate_lexicalDocument (by decide) (by decide) (by decide) (by decide)
  have eq := commit_eq plainEncoder (.start plainConfig 0 none) (keyed_opened plainConfig 0 none) rfl valid rfl .empty
  have issued : (Action.commit .empty none true [.document (lexicalDocument "keep" 1)]).Issued :=
    fun mutation member => mem_singleton.mp member ▸ named_lexicalDocument "keep" 1
  have settled : Settled plainConfig plainEncoder (act plainConfig plainEncoder (.start plainConfig 0 none)
      (.commit .empty none true [.document (lexicalDocument "keep" 1)])) :=
    (Settled.start plainConfig plainEncoder 0).act issued (.inl rfl)
  rw [act, eq] at settled
  have one : step plainConfig plainEncoder (.start plainConfig 0 none) keepStep = _ := eq
  rw [keepSteps, runSteps, foldl_cons, foldl_cons, foldl_nil]
  simp only [Along]
  rw [one]
  dsimp only [step]
  generalize shape : ({ [Mutation.document (lexicalDocument "keep" 1)].foldl (applyDirect plainEncoder)
      (Store.start plainConfig 0 none).core with
    revision := ([Mutation.document (lexicalDocument "keep" 1)].foldl (applyDirect plainEncoder)
      (Store.start plainConfig 0 none).core).revision + 1 } : WarmCore) = core at settled ⊢
  obtain ⟨none, documents⟩ := core_keep core shape.symm
  have bare : core.documents.base = Option.none := by
    rw [← shape]
    exact base_insert rfl _
  have other : core.otherState = false := by rw [← shape]; rfl
  have idle : core.serving = false := by rw [← shape]; rfl
  have nothing : snapshotMutations plainConfig core [] = some [] :=
    snapshotMutations_nil none (by rw [← shape]; rfl) (by rw [← shape]; rfl) (by rw [← shape]; rfl) (by rw [← shape]; rfl)
  have encoded := encodeCheckpoint_isSome plainConfig settled.recorded.sound.stored (by decide) other none
    (by
      intro id document found
      rw [documents] at found
      split at found
      · rw [← Option.some.inj found]
        decide
      · contradiction)
  obtain ⟨image, encoded⟩ := Option.isSome_iff_exists.mp encoded
  have whole := compact_eq plainEncoder ⟨core, (Store.start plainConfig 0 Option.none).generation.append
    [.document (lexicalDocument "keep" 1)]⟩ true idle nothing
  rw [compacted_alone plainEncoder _ encoded] at whole
  refine ⟨image, ?_, ?_, ?_, ?_⟩
  · refine ⟨⟨issued, ⟨?_, fun batch member => by contradiction⟩, trivial⟩,
      ⟨.inl rfl, ⟨?_, fun unclean => by contradiction, ?_⟩, trivial⟩, ?_⟩
    · rw [← shape]
      exact List.Perm.nil
    · intro meaning on
      rw [← shape] at on
      contradiction
    · exact (congrArg (fun result : Store × Bool => result.1.generation.Steady) whole).mpr (.inr rfl)
    · exact congrArg Prod.snd whole
  · rw [whole]
  · rw [whole]
    exact bare
  · rw [find_encodeCheckpoint settled.recorded.sound.stored.keyed encoded, documents, if_pos rfl]

theorem Recorded.put (recorded : Recorded config encoder store) (bare : store.core.documents.base = none)
    (valid : validateTransaction config mutations = .ok ()) (plain : mutations.any isAudit = false)
    (issued : ∀ mutation ∈ mutations, Issued mutation) :
    Recorded config encoder (act config encoder store (.commit .empty none true mutations)) ∧
      (act config encoder store (.commit .empty none true mutations)).core.documents.base = none ∧
      (act config encoder store (.commit .empty none true mutations)).generation = store.generation.append mutations := by
  have idle : store.core.serving = false := by rw [← recorded.sound.based, bare]; rfl
  have audited : validateAuditTransitions store.core.auditPending mutations = .ok () :=
    (recorded.sound.queue.validate_iff mutations).mpr ⟨_, advance_all_of_not_audit plain _⟩
  obtain ⟨done, _, kept⟩ := recorded.committed .empty none true issued (.inl bare)
  refine ⟨done, kept bare, ?_⟩
  rw [act, commit_eq encoder store recorded.sound.stored.keyed idle valid audited .empty]

theorem run_resetSteps (some : 0 < chunks) (few : chunks ≤ 4096) :
    ∃ image, (runSteps plainConfig plainEncoder (.start plainConfig 0 none) (resetSteps chunks)).generation =
        ⟨Option.some image, [[.document (lexicalDocument "a" chunks)],
          [.document (lexicalDocument "b" 1)], [.deleteDocument "a"]]⟩ ∧
      (runSteps plainConfig plainEncoder (.start plainConfig 0 none) (resetSteps chunks)).core.documents.view "keep" =
        Option.some (lexicalDocument "keep" 1) := by
  obtain ⟨image, ⟨issued, steady, _⟩, generation, bare, kept⟩ := run_keepSteps
  have settled : Settled plainConfig plainEncoder (runSteps plainConfig plainEncoder (.start plainConfig 0 none) keepSteps) :=
    Settled.run (Settled.start plainConfig plainEncoder 0) issued steady
  have single (id : String) (chunks : Nat) : ∀ mutation ∈ [Mutation.document (lexicalDocument id chunks)],
      Issued mutation := fun mutation member => mem_singleton.mp member ▸ named_lexicalDocument id chunks
  have split : runSteps plainConfig plainEncoder (.start plainConfig 0 none) (resetSteps chunks) =
      act plainConfig plainEncoder (act plainConfig plainEncoder (act plainConfig plainEncoder
        (runSteps plainConfig plainEncoder (.start plainConfig 0 none) keepSteps)
        (.commit .empty none true [.document (lexicalDocument "a" chunks)]))
        (.commit .empty none true [.document (lexicalDocument "b" 1)]))
        (.commit .empty none true [.deleteDocument "a"]) := by
    rw [resetSteps, runSteps, foldl_append]
    rfl
  rw [split]
  clear split
  generalize runSteps plainConfig plainEncoder (.start plainConfig 0 none) keepSteps = store at settled generation bare
  obtain ⟨first, bare, large⟩ := settled.recorded.put bare (validate_lexicalDocument (by decide) (by decide) some few) rfl
    (single "a" chunks)
  obtain ⟨second, bare, small⟩ := first.put bare
    (validate_lexicalDocument (by decide) (by decide) Nat.one_pos (by decide)) rfl (single "b" 1)
  have delete : validateTransaction plainConfig [.deleteDocument "a"] = .ok () := by decide
  obtain ⟨third, _, gone⟩ := second.put bare delete rfl (fun mutation member => mem_singleton.mp member ▸ trivial)
  rw [small, large, generation] at gone
  refine ⟨image, gone, ?_⟩
  have shown := congrFun (congrArg View.documents third.shown) "keep"
  refine shown.trans ?_
  rw [gone]
  exact kept

theorem reset_diverges (large : 1024 ≤ chunks) (few : chunks ≤ 4096) (shards : Nat) :
    ¬∃ core, loadFromLog plainConfig plainEncoder shards
        (runSteps plainConfig plainEncoder (.start plainConfig 0 none) (resetSteps chunks)).generation = .ok core ∧
      core.liveState = (runSteps plainConfig plainEncoder (.start plainConfig 0 none) (resetSteps chunks)).core.liveState := by
  rintro ⟨core, loaded, same⟩
  obtain ⟨image, generation, kept⟩ := run_resetSteps (by omega) few
  rw [generation] at loaded
  have documents := congrFun (congrArg View.documents same) "keep"
  have lost := lost_in_replay large loaded
  change core.documents.view "keep" = _ at documents
  rw [lost] at documents
  exact absurd (documents.trans kept) (by simp)

theorem replay_history_checkpoint :
    ∃ core, loadFromLog plainConfig plainEncoder 3
        (runSteps plainConfig plainEncoder (.start plainConfig 0 none) keepSteps).generation = .ok core ∧
      core.liveState = (runSteps plainConfig plainEncoder (.start plainConfig 0 none) keepSteps).core.liveState := by
  obtain ⟨image, ⟨issued, steady, _⟩, _⟩ := run_keepSteps
  exact replay_history plainConfig plainEncoder 0 keepSteps issued steady 3

theorem replay_history_reset :
    ¬∃ core, loadFromLog plainConfig plainEncoder 0
        (runSteps plainConfig plainEncoder (.start plainConfig 0 none) (resetSteps 1024)).generation = .ok core ∧
      core.liveState = (runSteps plainConfig plainEncoder (.start plainConfig 0 none) (resetSteps 1024)).core.liveState :=
  reset_diverges (Nat.le_refl 1024) (by omega) 0

end Reset

/-- The journal that a compaction replaces, with the transactions committed beside it and its own
intent. -/
def uncompacted (config : Config) (encoder : Encoder dimensions) (store : Store) (plan : Compaction) : Generation :=
  let last := plan.tail.foldl (Store.batch config encoder) (act config encoder store .read)
  last.generation.extend ((auditIntent config plan.intent).toList.map ([.auditPending ·]))

theorem compact_ok (hydrated : hydrateDocuments store.core = .ok core)
    (returned : (store.compact config encoder plan).2 = true) :
    ∃ mutations, snapshotMutations config core plan.types = some mutations ∧
      validateAuditTransitions (plan.tail.foldl (Store.batch config encoder) { store with core }).core.auditPending
        ((auditIntent config plan.intent).toList.map .auditPending) = .ok () ∧
      (store.compact config encoder plan).1.generation = compacted config encoder { store with core } plan mutations := by
  rw [Store.compact, hydrated] at returned ⊢
  dsimp only at returned ⊢
  cases written : snapshotMutations config core plan.types with
  | none =>
    rw [written] at returned
    contradiction
  | some mutations =>
    rw [written] at returned
    rcases audited : validateAuditTransitions
        (plan.tail.foldl (Store.batch config encoder) { store with core }).core.auditPending
        ((auditIntent config plan.intent).toList.map Mutation.auditPending) with error | ok
    · rw [audited] at returned
      contradiction
    · rw [audited] at returned
      cases publication : plan.publication with
      | published => exact ⟨mutations, rfl, rfl, rfl⟩
      | _ =>
        rw [publication] at returned
        contradiction

/-- The compacted generation of any state that a steady run reaches replays to what the journal
with the same tail replays to. -/
theorem replay_compacted (config : Config) (encoder : Encoder config.dimensions) (more : Nat) (steps : List Step)
    (issued : Along config encoder Step.Issued (.start config more none) steps)
    (steady : Along config encoder (Step.Steady config encoder) (.start config more none) steps) (plan : Compaction)
    (fits : plan.Fits (runSteps config encoder (.start config more none) steps))
    (canonical : Canonical (runSteps config encoder (.start config more none) steps).core)
    (returned : ((runSteps config encoder (.start config more none) steps).compact config encoder plan).2 = true)
    (calm : ((runSteps config encoder (.start config more none) steps).compact config encoder plan).1.generation.Steady)
    (calm' : (uncompacted config encoder (runSteps config encoder (.start config more none) steps) plan).Steady)
    (shards shards' : Nat) :
    ∃ left right,
      loadFromLog config encoder shards
        ((runSteps config encoder (.start config more none) steps).compact config encoder plan).1.generation = .ok left ∧
      loadFromLog config encoder shards'
        (uncompacted config encoder (runSteps config encoder (.start config more none) steps) plan) = .ok right ∧
      left.liveState = right.liveState := by
  have settled := (Settled.start config encoder more).run issued steady
  generalize runSteps config encoder (.start config more none) steps = store at *
  obtain ⟨core, hydrated, recorded, bare⟩ := settled.recorded.hydrate
  have valid : core.view.Valid config := Settled.valid ⟨recorded, settled.steady, settled.checked⟩
  obtain ⟨mutations, written, audited, published⟩ := compact_ok hydrated returned
  have fits := fits.hydrated hydrated
  obtain ⟨whole, _⟩ := written_compacted recorded bare valid fits written audited
  obtain ⟨final, _, _⟩ := recorded.batches bare fits.issued
  rw [published] at calm ⊢
  have read : act config encoder store .read = { store with core } := by rw [act, hydrated]
  rw [uncompacted, read] at calm' ⊢
  obtain ⟨after, moved⟩ := (final.sound.queue.validate_iff _).mp audited
  have other := final.written.extend encoder ((auditIntent config plan.intent).toList.map ([.auditPending ·]))
    (by
      rw [flatten_singletons]
      exact committed_map fun intent member => ⟨auditIntent_valid (Option.mem_toList.mp member), trivial⟩)
    (by
      rw [flatten_singletons, ← final.shown]
      exact moved)
  obtain ⟨left, first, sound, shown, _⟩ := whole.load calm encoder shards
  obtain ⟨right, second, sound', shown', _⟩ := other.load calm' encoder shards'
  refine ⟨left, right, first, second, liveState_eq sound' sound (shown.trans (Eq.trans ?_ shown'.symm))⟩
  obtain ⟨more, longer, described⟩ := view_compacted recorded bare valid fits written
  rw [described, (canonical.hydrated hydrated).view_eq, ← recorded.extended final longer, view_extend,
    flatten_singletons, ← final.shown]

theorem replay_compacted_checkpoint :
    ∃ left right,
      loadFromLog plainConfig plainEncoder 3
        ((runSteps plainConfig plainEncoder (.start plainConfig 0 none) [keepStep]).compact plainConfig plainEncoder
          (alone true)).1.generation = .ok left ∧
      loadFromLog plainConfig plainEncoder 0
        (uncompacted plainConfig plainEncoder (runSteps plainConfig plainEncoder (.start plainConfig 0 none) [keepStep])
          (alone true)) = .ok right ∧
      left.liveState = right.liveState := by
  obtain ⟨image, ⟨issued, steady, returned⟩, _⟩ := run_keepSteps
  obtain ⟨first, fits, _⟩ := issued
  obtain ⟨calm, ⟨canonical, _, compact⟩, _⟩ := steady
  refine replay_compacted plainConfig plainEncoder 0 [keepStep] ⟨first, trivial⟩ ⟨calm, trivial⟩ (alone true) fits canonical
    returned compact (.inl ?_) 3 0
  have read (store : Store) : (act plainConfig plainEncoder store .read).generation = store.generation := by
    rw [act]
    split <;> rfl
  have bare : (step plainConfig plainEncoder (.start plainConfig 0 none) keepStep).generation.checkpoint = none := by
    obtain ⟨_, same | same, _⟩ := (Settled.start plainConfig plainEncoder 0).recorded.committed .empty none true first
      (.inl rfl)
    · exact congrArg Generation.checkpoint same
    · exact congrArg Generation.checkpoint same
  have whole : (uncompacted plainConfig plainEncoder (step plainConfig plainEncoder (.start plainConfig 0 none) keepStep)
      (alone true)).checkpoint = none := (congrArg Generation.checkpoint (read _)).trans bare
  change (((uncompacted plainConfig plainEncoder (step plainConfig plainEncoder (.start plainConfig 0 none) keepStep)
      (alone true)).checkpoint.map DocumentStore.over).getD .empty).base = none
  rw [whole]
  rfl

theorem snapshotMutations_isSome (config : Config) (schema : MEANING_MAINTENANCE_SCHEMA_VERSION ≤ config.schema) (core : WarmCore)
    (types : List RelationType) : ∃ mutations, snapshotMutations config core types = some mutations := by
  have each (entry : String × VectorRecord) : ∃ written, snapshotVector config core entry = some written := by
    rw [snapshotVector]
    split
    · exact ⟨_, rfl⟩
    · rw [if_pos schema]
      split <;> exact ⟨_, rfl⟩
  have all : ∃ vectors, (standaloneVectors core).mapM (snapshotVector config core) = some vectors := by
    induction standaloneVectors core with
    | nil => exact ⟨[], rfl⟩
    | cons entry entries ih =>
      obtain ⟨written, first⟩ := each entry
      obtain ⟨vectors, rest⟩ := ih
      exact ⟨written :: vectors, by rw [mapM_cons, first, rest]; rfl⟩
  obtain ⟨vectors, listed⟩ := all
  exact ⟨_, by rw [snapshotMutations, listed]; rfl⟩

/-- A store with a meaning memory. -/
def ruleConfig : Config := ⟨64, 6, true, 0⟩

def chainRule (name : String) : CompositionRule := ⟨name, ["a", "b"], "c"⟩

/-- Two rules with one chain, and the first one again. -/
def ruleStep : Step := .act (.commit .empty none true [.rule (chainRule "r"), .rule (chainRule "s"), .rule (chainRule "r")])

/-- The live store answers with the rule that was declared last, the compacted one with the rule
that stands last. -/
theorem replay_compacted_chain :
    ¬∃ left right,
      loadFromLog ruleConfig plainEncoder 0
        ((runSteps ruleConfig plainEncoder (.start ruleConfig 0 none) [ruleStep]).compact ruleConfig plainEncoder
          (alone false)).1.generation = .ok left ∧
      loadFromLog ruleConfig plainEncoder 0
        (uncompacted ruleConfig plainEncoder (runSteps ruleConfig plainEncoder (.start ruleConfig 0 none) [ruleStep])
          (alone false)) = .ok right ∧
      left.liveState = right.liveState := by
  rintro ⟨left, right, loads, loads', same⟩
  have valid : validateTransaction ruleConfig [.rule (chainRule "r"), .rule (chainRule "s"), .rule (chainRule "r")] = .ok () := by
    decide
  have issued : (Action.commit .empty none true
      [.rule (chainRule "r"), .rule (chainRule "s"), .rule (chainRule "r")]).Issued := by
    intro mutation member
    simp only [mem_cons, not_mem_nil, or_false] at member
    rcases member with rfl | rfl | rfl <;> trivial
  have settled : Settled ruleConfig plainEncoder (runSteps ruleConfig plainEncoder (.start ruleConfig 0 none) [ruleStep]) :=
    (Settled.start ruleConfig plainEncoder 0).act issued (.inl rfl)
  obtain ⟨recorded, bare, generation⟩ := (Settled.start ruleConfig plainEncoder 0).recorded.put rfl valid rfl issued
  change Recorded ruleConfig plainEncoder (runSteps ruleConfig plainEncoder (.start ruleConfig 0 none) [ruleStep]) at recorded
  change (runSteps ruleConfig plainEncoder (.start ruleConfig 0 none) [ruleStep]).generation = _ at generation
  change (runSteps ruleConfig plainEncoder (.start ruleConfig 0 none) [ruleStep]).core.documents.base = _ at bare
  have kept : (runSteps ruleConfig plainEncoder (.start ruleConfig 0 none) [ruleStep]).core.view.Valid ruleConfig := settled.valid
  generalize runSteps ruleConfig plainEncoder (.start ruleConfig 0 none) [ruleStep] = store at *
  have idle : store.core.serving = false := by rw [← recorded.sound.based, bare]; rfl
  obtain ⟨mutations, written⟩ := snapshotMutations_isSome ruleConfig (by decide) store.core []
  have types : store.core.view.types = fun _ => none := by
    rw [recorded.shown, generation]
    funext name
    simp [Generation.view, append, extend, Store.start, View.apply, View.withMeaning, opened,
      WarmCore.view, RelationStore.empty]
  have fits : (alone false).Fits store := by
    refine ⟨?_, fun batch member => by contradiction⟩
    have none : store.core.graph.typeSnapshot = [] := by
      rw [RelationStore.typeSnapshot, map_eq_nil_iff, eq_nil_iff_forall_not_mem]
      rintro ⟨name, relationType⟩ member
      have found := (Table.mem_toList store.core.graph.types name relationType).mp member
      exact absurd ((congrFun types name).symm.trans found) (by simp)
    rw [none]
    exact List.Perm.nil
  have plain : (compacted ruleConfig plainEncoder store (alone false) mutations).checkpoint = none := by
    rw [compacted, encodeCheckpoint, dif_neg]
    rintro ⟨taken, _⟩
    contradiction
  have steady (generation : Generation) (bare : generation.checkpoint = none) : generation.Steady := by
    refine .inl ?_
    rw [Generation.documents, bare]
    rfl
  -- The compacted journal describes the state with the chain at the rule that stands last.
  rw [compact_eq plainEncoder store false idle written] at loads
  obtain ⟨whole, _⟩ := written_compacted recorded bare kept fits written rfl
  obtain ⟨done, loaded, _, shown, _⟩ := whole.load (steady _ plain) plainEncoder 0
  obtain rfl := Except.ok.inj (loads.symm.trans loaded)
  obtain ⟨more, longer, described⟩ := view_compacted recorded bare kept fits written
  have none : more = [] := by
    have frames := congrArg (fun g : Generation => g.frames.length) longer
    simp only [extend, length_append] at frames
    change store.generation.frames.length = _ at frames
    exact length_eq_zero_iff.mp (by omega)
  subst none
  change _ = store.core.view.canonical at described
  -- The journal itself describes the state as it is.
  have ready : hydrateDocuments store.core = .ok store.core := by rw [hydrateDocuments, idle]; rfl
  have unchanged : uncompacted ruleConfig plainEncoder store (alone false) = store.generation := by
    rw [uncompacted, act, ready]
    simp [alone, auditIntent, extend]
  rw [unchanged] at loads'
  obtain ⟨done, loaded, _, shown', _⟩ := recorded.written.load (steady _ (by rw [generation]; rfl)) plainEncoder 0
  obtain rfl := Except.ok.inj (loads'.symm.trans loaded)
  have owners := congrArg (fun view : View => view.meaning.map fun meaning => meaning.owner ("a", "b")) same
  change left.view.meaning.map _ = right.view.meaning.map _ at owners
  rw [shown, described, shown', recorded.shown, generation] at owners
  exact absurd owners (by decide)

end Warm.Engine
