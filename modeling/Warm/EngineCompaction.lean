import Mathlib.Data.List.Induction
import Warm.AuditCompaction
import Warm.EngineValidity

/-! Compaction: the live state is written to a new generation as one transaction for each thing it
holds, the documents after the rest or as the generation's checkpoint, and behind them the
transactions committed meanwhile. -/
namespace Warm.Engine

open Binary Audit List

variable {core : WarmCore}

def compositeIds (core : WarmCore) : List String :=
  (core.meaning.map fun meaning => meaning.composites.allVectors.map Prod.fst).getD []

/-- The vectors of the shards that are neither of chunks nor of composites, in id order. -/
def standaloneVectors (core : WarmCore) : List (String × VectorRecord) :=
  (core.shards.patterns.filter fun entry => !isChunk entry.1 && decide (entry.1 ∉ compositeIds core)).mergeSort
    fun a b => decide (a.1 ≤ b.1)

/-- A vector is an atom too unless its atom was deleted, which only newer schemas record. -/
def snapshotVector (config : Config) (core : WarmCore) (entry : String × VectorRecord) : Option (List Mutation) :=
  match core.meaning with
  | none => some [.vector entry.1 entry.2]
  | some meaning =>
    if (meaning.atoms.get entry.1).isSome then some [.vector entry.1 entry.2]
    else if MEANING_MAINTENANCE_SCHEMA_VERSION ≤ config.schema then some [.vector entry.1 entry.2, .deleteAtom entry.1]
    else none

def snapshotMeaning (meaning : Meaning) : List Mutation :=
  meaning.atoms.allVectors.map (fun entry => .atom entry.1 entry.2) ++
    meaning.composites.allVectors.map (fun entry => .composite entry.1 entry.2) ++
    meaning.triples.snapshot.map .storedTriple ++ meaning.rules.rules.map .rule

/-- Everything but the documents. The relation types are in a hash map: `types` lists them in the
order it yields them. -/
def snapshotMutations (config : Config) (core : WarmCore) (types : List RelationType) : Option (List Mutation) := do
  let vectors ← (standaloneVectors core).mapM (snapshotVector config core)
  some (vectors.flatten ++ core.graph.snapshot.map .relation ++ types.map .relationType ++
    (core.meaning.map snapshotMeaning).getD [] ++ core.derived.toList.map (fun entry => .derived entry.1 entry.2) ++
    core.auditPending.map .auditPending)

def CHECKPOINT_SCHEMA_VERSION : Nat := 4

/-- The only chunks a checkpoint holds: lexical, without a vector, an embedding or word positions. -/
def representable (document : StoredDocument) : Bool :=
  document.chunks.all fun chunk =>
    chunk.vectorState == .lexical && chunk.embedding.isNone && chunk.vector.indices.isEmpty && chunk.terms.positions.isNone

/-- The documents in id order with their slots. -/
def imageEntries (documents : DocumentStore) : List (StoredDocument × List Nat) :=
  documents.documents.toList.map fun entry => (entry.2, documents.table.slots[entry.1]?.getD [])

/-- The documents as a checkpoint. `taken` says that checkpoints are enabled and that every offset
fits the format. -/
def encodeCheckpoint (config : Config) (core : WarmCore) (taken : Bool) : Option ServingImage :=
  if shaped : taken = true ∧ CHECKPOINT_SCHEMA_VERSION ≤ config.schema ∧ core.otherState = false ∧
      core.shards.patterns = [] ∧ (∀ entry ∈ imageEntries core.documents, representable entry.1 = true) ∧
      ((imageEntries core.documents).map fun entry => entry.1.id).Pairwise (· < ·) ∧
      ∀ entry ∈ imageEntries core.documents, entry.2.length = entry.1.chunks.length then
    some
      { documents := imageEntries core.documents
        slotCount := core.documents.table.slotCount
        ordered := shaped.2.2.2.2.2.1
        sized := shaped.2.2.2.2.2.2
        lexical := by
          intro entry member chunk inside
          have checked := all_eq_true.mp (shaped.2.2.2.2.1 entry member) chunk inside
          simp only [Bool.and_eq_true, beq_iff_eq] at checked
          exact checked.1.1.1 }
  else none

/-- A transaction another writer commits while the new generation is prepared. -/
structure Batch where
  seen : DocumentStore
  expected : Option Nat
  appends : Bool
  mutations : List Mutation

def Store.batch (config : Config) (encoder : Encoder dimensions) (store : Store) (batch : Batch) : Store :=
  (store.commit config encoder batch.seen batch.expected batch.appends batch.mutations).1

/-- How a compaction ends: before the new generation is published, with it, or with it and a
failure in the cleanup of the old one. -/
inductive Publication where
  | abandoned
  | published
  | unclean
  deriving DecidableEq, Repr

/-- What a compaction meets. When a document is written to the new generation, `moment` of its id
counts the batches that were committed before; `zeroed` says that its text was in the segment, so
that a replacement or a delete zeroed it. -/
structure Compaction where
  types : List RelationType
  checkpoint : Bool
  tail : List Batch
  moment : String → Nat
  zeroed : String → Bool
  intent : Option AuditIntent
  publication : Publication

/-- The mutation puts another document in the place of `id`, or none. -/
def rewrites (id : String) : Mutation → Bool
  | .document document => document.id == id
  | .deleteDocument other => other == id
  | _ => false

/-- `is_deleted`, for a document of the snapshot: it is gone, or its text was zeroed. -/
def isDeleted (config : Config) (encoder : Encoder dimensions) (store : Store) (plan : Compaction) (id : String) : Bool :=
  let now := (plan.tail.take (plan.moment id)).foldl (Store.batch config encoder) store
  !now.core.documents.containsKey id ||
    (plan.zeroed id && (now.generation.frames.drop store.generation.frames.length).flatten.any (rewrites id))

/-- The documents written as transactions of their own: none beside a checkpoint. -/
def carried (config : Config) (encoder : Encoder dimensions) (store : Store) (plan : Compaction) : List StoredDocument :=
  if (encodeCheckpoint config store.core plan.checkpoint).isSome then []
  else (store.core.documents.documents.toList.map Prod.snd).filter fun document =>
    !isDeleted config encoder store plan document.id

/-- The generation that the rebuilt `store` is compacted to, with the snapshot's mutations in front. -/
def compacted (config : Config) (encoder : Encoder dimensions) (store : Store) (plan : Compaction)
    (mutations : List Mutation) : Generation where
  checkpoint := encodeCheckpoint config store.core plan.checkpoint
  frames := mutations.map ([·]) ++ (carried config encoder store plan).map ([.document ·]) ++
    (plan.tail.foldl (Store.batch config encoder) store).generation.frames.drop store.generation.frames.length ++
    (auditIntent config plan.intent).toList.map ([.auditPending ·])

/-- `compact`: the store afterwards, and whether the call returned `Ok`. -/
def Store.compact (config : Config) (encoder : Encoder dimensions) (store : Store) (plan : Compaction) : Store × Bool :=
  match hydrateDocuments store.core with
  | .error _ => (store, false)
  | .ok core =>
    let store := { store with core }
    match snapshotMutations config core plan.types with
    | none => (store, false)
    | some mutations =>
      let last := plan.tail.foldl (batch config encoder) store
      let intents := (auditIntent config plan.intent).toList
      match validateAuditTransitions last.core.auditPending (intents.map .auditPending), plan.publication with
      | .error _, _ | .ok (), .abandoned => (last, false)
      | .ok (), .published =>
        (⟨{ last.core with
            auditPending := last.core.auditPending ++ intents
            revision := last.core.revision + 1 },
          compacted config encoder store plan mutations⟩, true)
      | .ok (), .unclean => (⟨last.core, compacted config encoder store plan mutations⟩, false)

section Phases

variable {config : Config} {encoder : Encoder dimensions} {view : View}

def putAll {α : Type} (entries : List (String × α)) (f : String → Option α) : String → Option α :=
  entries.foldl (fun f entry => Function.update f entry.1 (some entry.2)) f

theorem putAll_apply {entries : List (String × α)} {f : String → Option α}
    (sound : ∀ entry ∈ entries, f entry.1 = some entry.2) (g : String → Option α) (k : String) :
    putAll entries g k = if k ∈ entries.map Prod.fst then f k else g k := by
  induction entries generalizing g with
  | nil => rfl
  | cons entry entries ih =>
    have own := sound entry mem_cons_self
    rw [putAll, foldl_cons, ← putAll, ih (forall_mem_cons.mp sound).2]
    by_cases later : k ∈ entries.map Prod.fst
    · simp [later]
    · by_cases same : k = entry.1
      · subst same
        simp [later, own]
      · simp [later, same]

theorem putAll_eq {entries : List (String × α)} {f : String → Option α}
    (complete : ∀ k v, (k, v) ∈ entries ↔ f k = some v) (g : String → Option α) :
    putAll entries g = fun k => (f k).or (g k) := by
  funext k
  rw [putAll_apply fun entry member => (complete entry.1 entry.2).mp member]
  cases found : f k with
  | none =>
    rw [if_neg, Option.none_or]
    intro member
    obtain ⟨entry, inside, rfl⟩ := mem_map.mp member
    rw [(complete entry.1 entry.2).mp inside] at found
    contradiction
  | some v => rw [if_pos (mem_map_of_mem ((complete k v).mpr found)), Option.some_or]

theorem withMeaning_withMeaning (view : View) (first second : MeaningView → MeaningView) :
    (view.withMeaning first).withMeaning second = view.withMeaning fun meaning => second (first meaning) := by
  simp only [View.withMeaning, Option.map_map, Function.comp_def]

theorem withMeaning_id (view : View) : view.withMeaning (fun meaning => meaning) = view := by
  simp [View.withMeaning]

theorem apply_atoms (entries : List (String × VectorRecord)) :
    (entries.map fun entry => Mutation.atom entry.1 entry.2).foldl (View.apply encoder) view =
      view.withMeaning fun meaning =>
        { meaning with atoms := putAll entries meaning.atoms } := by
  induction entries generalizing view with
  | nil => exact (withMeaning_id view).symm
  | cons entry entries ih =>
    rw [map_cons, foldl_cons, ih]
    exact withMeaning_withMeaning view _ _

theorem apply_composites (entries : List (String × VectorRecord)) :
    (entries.map fun entry => Mutation.composite entry.1 entry.2).foldl (View.apply encoder) view =
      { view.withMeaning fun meaning =>
          { meaning with
            composites := putAll entries meaning.composites } with
        vectors := putAll entries view.vectors } := by
  induction entries generalizing view with
  | nil =>
    change view = { view.withMeaning (fun meaning => meaning) with vectors := view.vectors }
    rw [withMeaning_id]
  | cons entry entries ih =>
    rw [map_cons, foldl_cons, ih]
    simp only [View.apply, View.withMeaning, Option.map_map, Function.comp_def, putAll, foldl_cons]

theorem apply_triples (live : ∀ triple ∈ triples, triple.deleted = false) :
    (triples.map Mutation.storedTriple).foldl (View.apply encoder) view =
      view.withMeaning fun meaning => { meaning with triples := meaning.triples ++ triples } := by
  induction triples generalizing view with
  | nil =>
    simp only [append_nil]
    exact (withMeaning_id view).symm
  | cons triple triples ih =>
    have own := live triple mem_cons_self
    rw [map_cons, foldl_cons, ih (forall_mem_cons.mp live).2]
    obtain ⟨subject, relation, object, composite, deleted⟩ := triple
    subst own
    rw [View.apply, withMeaning_withMeaning]
    simp only [append_assoc, singleton_append]

theorem apply_rules (rules : List CompositionRule) :
    (rules.map Mutation.rule).foldl (View.apply encoder) view =
      view.withMeaning fun meaning => rules.foldl MeaningView.addRule meaning := by
  induction rules generalizing view with
  | nil => exact (withMeaning_id view).symm
  | cons rule rules ih =>
    rw [map_cons, foldl_cons, ih]
    exact withMeaning_withMeaning view _ _

theorem apply_relations (edges : (view.relations ++ relations).Pairwise fun r other => ¬SameEdge r other) :
    (relations.map Mutation.relation).foldl (View.apply encoder) view =
      { view with relations := view.relations ++ relations } := by
  induction relations generalizing view with
  | nil => simp
  | cons relation relations ih =>
    have kept : view.relations.eraseP
        (RelationStore.connects relation.sourceId relation.relationType relation.targetId) = view.relations := by
      apply eraseP_of_forall_not
      intro other member same
      have apart := (pairwise_append.mp edges).2.2 other member relation mem_cons_self
      rw [sameEdge_iff] at apart
      obtain ⟨source, kind, target⟩ := (sameEdge_iff relation other).mp same
      exact apart ⟨source.symm, kind.symm, target.symm⟩
    rw [map_cons, foldl_cons, View.apply, kept]
    rw [append_cons] at edges
    rw [ih edges]
    simp

theorem apply_types (types : List RelationType) :
    (types.map Mutation.relationType).foldl (View.apply encoder) view =
      { view with
        types := putAll (types.map fun t => (t.name, t)) view.types } := by
  induction types generalizing view with
  | nil => rfl
  | cons relationType types ih =>
    rw [map_cons, foldl_cons, ih]
    rfl

theorem apply_derived (entries : List (String × List String)) :
    (entries.map fun entry => Mutation.derived entry.1 entry.2).foldl (View.apply encoder) view =
      { view with
        derived := putAll entries view.derived } := by
  induction entries generalizing view with
  | nil => rfl
  | cons entry entries ih =>
    rw [map_cons, foldl_cons, ih]
    rfl

theorem apply_intents (intents : List AuditIntent) :
    (intents.map Mutation.auditPending).foldl (View.apply encoder) view =
      { view with auditPending := view.auditPending ++ intents } := by
  induction intents generalizing view with
  | nil => simp
  | cons intent intents ih =>
    rw [map_cons, foldl_cons, ih]
    simp [View.apply]

theorem apply_documents (documents : List StoredDocument) :
    (documents.map Mutation.document).foldl (View.apply encoder) view =
      { view with
        documents := putAll (documents.map fun d => (d.id, d)) view.documents } := by
  induction documents generalizing view with
  | nil => rfl
  | cons document documents ih =>
    rw [map_cons, foldl_cons, ih]
    rfl

/-- The position of the last rule with that chain. -/
def latest (rules : List CompositionRule) (chain : String × String) : Option Nat :=
  ((rules.zipIdx.filter fun entry => entry.1.inputRelations = [chain.1, chain.2]).getLast?).map Prod.snd

theorem latest_append (rules : List CompositionRule) (rule : CompositionRule) (chain : String × String) :
    latest (rules ++ [rule]) chain =
      if rule.inputRelations = [chain.1, chain.2] then some rules.length else latest rules chain := by
  rw [latest, latest, zipIdx_append, filter_append]
  by_cases own : rule.inputRelations = [chain.1, chain.2]
  · simp [own]
  · simp [own]

theorem latest_lt (found : latest rules chain = some index) : index < rules.length := by
  obtain ⟨entry, last, rfl⟩ := Option.map_eq_some_iff.mp found
  have member := mem_of_mem_filter (mem_of_getLast? last)
  have inside := mem_zipIdx member
  omega

theorem foldl_addRule (named : (rules.map CompositionRule.name).Nodup) (meaning : MeaningView)
    (fresh : meaning.rules = []) (unowned : meaning.owner = fun _ => none) :
    rules.foldl MeaningView.addRule meaning = { meaning with rules, owner := latest rules } := by
  induction rules using List.reverseRecOn with
  | nil =>
    obtain ⟨atoms, composites, triples, rules, owner⟩ := meaning
    subst fresh unowned
    rfl
  | append_singleton rules rule ih =>
    rw [map_append, map_singleton, ← concat_eq_append, nodup_concat] at named
    obtain ⟨position, put⟩ := putRule_of_fresh named.1
    rw [foldl_append, ih named.2, foldl_cons, foldl_nil, MeaningView.addRule]
    simp only [position, put, MeaningView.mk.injEq, true_and]
    funext chain
    rw [RuleStore.reown, latest_append]
    split
    · rfl
    · rw [if_neg]
      intro last
      exact absurd (latest_lt last) (lt_irrefl _)

/-- A state with vectors, atoms and documents only. -/
def bare (config : Config) (documents : String → Option StoredDocument) (vectors atoms : String → Option VectorRecord) :
    View where
  vectors
  meaning := if config.meaningEnabled then some ⟨atoms, fun _ => none, [], [], fun _ => none⟩ else none
  derived := fun _ => none
  relations := []
  types := fun _ => none
  documents
  auditPending := []

theorem bare_vector (encoder : Encoder dimensions) (config : Config) (documents : String → Option StoredDocument)
    (vectors atoms : String → Option VectorRecord) (entry : String × VectorRecord) :
    (bare config documents vectors atoms).apply encoder (.vector entry.1 entry.2) =
      bare config documents (Function.update vectors entry.1 (some entry.2))
        (Function.update atoms entry.1 (some entry.2)) := by
  simp only [View.apply, View.clear, bare, Option.getD_none, View.mk.injEq, and_true, Option.map_map]
  refine ⟨by simp, ?_, Function.update_eq_self_iff.mpr rfl⟩
  cases config.meaningEnabled with
  | false => rfl
  | true => simp [MeaningView.forget]

theorem bare_deleteAtom (encoder : Encoder dimensions) (config : Config) (documents : String → Option StoredDocument)
    (vectors atoms : String → Option VectorRecord) (id : String) :
    (bare config documents vectors atoms).apply encoder (.deleteAtom id) =
      bare config documents vectors (Function.update atoms id none) := by
  simp only [View.apply, View.withMeaning, bare]
  cases config.meaningEnabled <;> rfl

/-- The vectors of the snapshot make no atom that the store has not. -/
theorem apply_vectors (listed : entries.mapM (snapshotVector config core) = some written)
    (documents : String → Option StoredDocument)
    (known : ∀ meaning, core.meaning = some meaning → ∀ id, meaning.atoms.get id = none → atoms id = none) :
    ∃ atoms', written.flatten.foldl (View.apply encoder) (bare config documents vectors atoms) =
        bare config documents (putAll entries vectors) atoms' ∧
      ∀ meaning, core.meaning = some meaning → ∀ id, meaning.atoms.get id = none → atoms' id = none := by
  induction entries generalizing vectors atoms written with
  | nil =>
    obtain rfl := Option.some.inj listed
    exact ⟨atoms, rfl, known⟩
  | cons entry entries ih =>
    rw [mapM_cons, Option.bind_eq_bind, Option.bind_eq_some_iff] at listed
    obtain ⟨first, taken, rest⟩ := listed
    rw [Option.bind_eq_bind, Option.bind_eq_some_iff] at rest
    obtain ⟨later, others, done⟩ := rest
    obtain rfl := Option.some.inj done
    have one : ∃ atoms', first.foldl (View.apply encoder) (bare config documents vectors atoms) =
        bare config documents (Function.update vectors entry.1 (some entry.2)) atoms' ∧
        ∀ meaning, core.meaning = some meaning → ∀ id, meaning.atoms.get id = none → atoms' id = none := by
      rw [snapshotVector] at taken
      split at taken
      next off =>
        obtain rfl := Option.some.inj taken
        exact ⟨_, bare_vector encoder config documents vectors atoms entry, fun meaning on => by rw [off] at on; contradiction⟩
      next meaning on =>
        split at taken
        next atom =>
          obtain rfl := Option.some.inj taken
          refine ⟨_, bare_vector encoder config documents vectors atoms entry, ?_⟩
          intro other same id none
          rw [Function.update_of_ne]
          · exact known other same id none
          · rintro rfl
            rw [on, Option.some.injEq] at same
            subst same
            rw [none] at atom
            contradiction
        next =>
          split at taken
          · obtain rfl := Option.some.inj taken
            refine ⟨Function.update (Function.update atoms entry.1 (some entry.2)) entry.1 none, ?_, ?_⟩
            · rw [foldl_cons, bare_vector, foldl_cons, bare_deleteAtom, foldl_nil]
            · intro other same id none
              rw [Function.update_idem, Function.update_apply]
              split
              · rfl
              · exact known other same id none
          · contradiction
    obtain ⟨next, shown, kept⟩ := one
    obtain ⟨last, folded, final⟩ := ih others kept
    refine ⟨last, ?_, final⟩
    rw [flatten_cons, foldl_append, shown, folded]
    rfl

theorem mem_standaloneVectors (core : WarmCore) (id : String) (vector : VectorRecord) :
    (id, vector) ∈ standaloneVectors core ↔
      (if isChunk id = true ∨ id ∈ compositeIds core then none else core.shards.getVector id) = some vector := by
  rw [standaloneVectors, mem_mergeSort, mem_filter, ShardSet.mem_patterns]
  by_cases chunk : isChunk id = true
  · simp [chunk]
  · by_cases composed : id ∈ compositeIds core
    · simp [composed]
    · simp [chunk, composed]

theorem mem_compositeIds (on : core.meaning = some meaning) (id : String) :
    id ∈ compositeIds core ↔ (meaning.composites.get id).isSome = true := by
  rw [compositeIds, on, Option.map_some, Option.getD_some, mem_map, Option.isSome_iff_exists]
  constructor
  · rintro ⟨⟨_, vector⟩, member, rfl⟩
    exact ⟨vector, (meaning.composites.mem_allVectors _ vector).mp member⟩
  · rintro ⟨vector, found⟩
    exact ⟨(id, vector), (meaning.composites.mem_allVectors id vector).mpr found, rfl⟩

end Phases

/-- The state with every chain leading to the last of the rules that have it. -/
def View.canonical (view : View) : View :=
  view.withMeaning fun meaning => { meaning with owner := latest meaning.rules }

/-- Every chain leads to the last of the rules that have it. -/
def Canonical (core : WarmCore) : Prop :=
  ∀ meaning, core.meaning = some meaning → meaning.rules.owner = latest meaning.rules.rules

theorem Canonical.view_eq (canonical : Canonical core) : core.view.canonical = core.view := by
  rw [View.canonical, View.withMeaning, WarmCore.view]
  simp only [View.mk.injEq, true_and, and_true, Option.map_map]
  cases on : core.meaning with
  | none => rfl
  | some meaning => simp only [Option.map_some, Function.comp_apply, Meaning.view, canonical meaning on]

theorem putAll_standaloneVectors (core : WarmCore) :
    putAll (standaloneVectors core) (fun _ => none) =
      fun id => if isChunk id = true ∨ id ∈ compositeIds core then none else core.shards.getVector id := by
  rw [putAll_eq (mem_standaloneVectors core)]
  simp only [Option.or_none]

theorem putAll_types (valid : core.view.Valid config) {types : List RelationType}
    (listing : types.Perm core.graph.typeSnapshot) :
    putAll (types.map fun t => (t.name, t)) (fun _ => none) = core.view.types := by
  have complete (name : String) (t : RelationType) :
      (name, t) ∈ (types.map fun t => (t.name, t)) ↔ core.view.types name = some t := by
    rw [mem_map]
    constructor
    · rintro ⟨other, member, same⟩
      obtain ⟨rfl, rfl⟩ := Prod.mk.inj same
      obtain ⟨⟨key, _⟩, stored, rfl⟩ := mem_map.mp (listing.mem_iff.mp member)
      have found := (Table.mem_toList core.graph.types key _).mp stored
      rw [(valid.types key _ found).1]
      exact found
    · intro found
      have own := (valid.types name t found).1
      exact ⟨t, listing.mem_iff.mpr (mem_map.mpr ⟨(name, t), (Table.mem_toList _ name t).mpr found, rfl⟩),
        by rw [own]⟩
  rw [putAll_eq complete]
  simp only [Option.or_none]

theorem putAll_derived (core : WarmCore) : putAll core.derived.toList (fun _ => none) = core.view.derived := by
  rw [putAll_eq fun id children => Table.mem_toList core.derived id children]
  simp only [Option.or_none]
  rfl

section

variable (valid : core.view.Valid config) {meaning : Meaning} (on : core.meaning = some meaning)
include valid on

theorem putAll_composites :
    putAll meaning.composites.allVectors
      (fun id => if isChunk id = true ∨ id ∈ compositeIds core then none else core.shards.getVector id) =
        core.view.vectors := by
  have shown : core.view.meaning = some meaning.view := by rw [WarmCore.view, on, Option.map_some]
  rw [putAll_eq meaning.composites.mem_allVectors]
  funext id
  cases composed : meaning.composites.get id with
  | some vector => rw [Option.some_or, valid.composites meaning.view shown id vector composed]
  | none =>
    have plain : id ∉ compositeIds core := by
      rw [mem_compositeIds on, composed]
      simp
    simp only [Option.none_or, plain, or_false]
    rfl

theorem apply_snapshotMeaning (encoder : Encoder dimensions) {view : View}
    {atoms : String → Option VectorRecord} (known : ∀ id, meaning.atoms.get id = none → atoms id = none)
    (fresh : view.meaning = some ⟨atoms, fun _ => none, [], [], fun _ => none⟩)
    (vectors : view.vectors = fun id => if isChunk id = true ∨ id ∈ compositeIds core then none else core.shards.getVector id) :
    (snapshotMeaning meaning).foldl (View.apply encoder) view =
      { view with
        vectors := core.view.vectors
        meaning := some { meaning.view with owner := latest meaning.rules.rules } } := by
  have kept := valid.meaning meaning.view (by rw [WarmCore.view, on, Option.map_some])
  have learned : putAll meaning.atoms.allVectors atoms = meaning.atoms.get := by
    rw [putAll_eq meaning.atoms.mem_allVectors]
    funext id
    cases atom : meaning.atoms.get id with
    | none => rw [Option.none_or, known id atom]
    | some vector => rfl
  have composed : putAll meaning.composites.allVectors (fun _ => none) = meaning.composites.get := by
    rw [putAll_eq meaning.composites.mem_allVectors]
    simp only [Option.or_none]
  have live : ∀ triple ∈ meaning.triples.snapshot, triple.deleted = false := fun triple member =>
    (kept.triples triple member).2
  simp only [snapshotMeaning, foldl_append]
  rw [apply_atoms, apply_composites, apply_triples live, apply_rules]
  simp only [View.withMeaning, fresh, Option.map_some, vectors, putAll_composites valid on, learned, composed,
    nil_append]
  have named : (meaning.rules.rules.map CompositionRule.name).Nodup := kept.named
  rw [foldl_addRule named _ rfl rfl]
  rfl

end

theorem view_snapshotMutations (valid : core.view.Valid config) {types : List RelationType}
    (listing : types.Perm core.graph.typeSnapshot) {mutations : List Mutation}
    (written : snapshotMutations config core types = some mutations) (encoder : Encoder dimensions)
    (documents : String → Option StoredDocument) :
    mutations.foldl (View.apply encoder) (bare config documents (fun _ => none) fun _ => none) =
      { core.view.canonical with documents } := by
  rw [snapshotMutations, Option.bind_eq_bind, Option.bind_eq_some_iff] at written
  obtain ⟨vectors, listed, done⟩ := written
  obtain rfl := Option.some.inj done
  have start (meaning : Meaning) (_ : core.meaning = some meaning) (id : String) (_ : meaning.atoms.get id = none) :
      (fun _ : String => (none : Option VectorRecord)) id = none := rfl
  obtain ⟨atoms, shown, known⟩ := apply_vectors listed documents start
  have enabled := valid.enabled
  simp only [foldl_append]
  rw [shown, apply_relations (by exact valid.edges), apply_types, putAll_standaloneVectors]
  have types := putAll_types valid listing
  cases on : core.meaning with
  | none =>
    have off : config.meaningEnabled = false := by
      rw [← enabled, WarmCore.view, on]
      rfl
    have none (id : String) : id ∉ compositeIds core := by simp [compositeIds, on]
    rw [Option.map_none, Option.getD_none, foldl_nil, apply_derived, apply_intents]
    simp only [bare, off, types, putAll_derived, none, or_false, nil_append]
    simp only [View.canonical, View.withMeaning, WarmCore.view, on]
    rfl
  | some meaning =>
    have active : config.meaningEnabled = true := by
      rw [← enabled, WarmCore.view, on]
      rfl
    rw [Option.map_some, Option.getD_some, apply_snapshotMeaning valid on encoder (known meaning on)
      (by simp only [bare, active, if_true]) rfl, apply_derived, apply_intents]
    simp only [bare, types, putAll_derived, nil_append]
    simp only [View.canonical, View.withMeaning, WarmCore.view, on]
    rfl

end Warm.Engine
