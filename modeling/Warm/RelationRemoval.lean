import Warm.EngineValidity

/-! Removing a relation. Whether there was one is read off the relations that are valid now, while the
removal itself finds it among all stored ones. -/
namespace Warm

open List

namespace F64

def zero : F64 := ⟨0⟩

def isNan (x : F64) : Bool := decide (2047 * 2 ^ 52 < x.magnitude)

/-- Numbers are ordered as these integers; both zeros are 0. -/
def key (x : F64) : Int := if x.bits.toNat < 2 ^ 63 then x.magnitude else -x.magnitude

def le (x y : F64) : Bool := !x.isNan && !y.isNan && decide (x.key ≤ y.key)

end F64

namespace StoredRelation

def isValidAt (stored : StoredRelation) (timestampMs : F64) : Bool :=
  if stored.deleted then false
  else if timestampMs.isZero then stored.relation.validTo.isZero
  else
    (stored.relation.validFrom.isZero || stored.relation.validFrom.le timestampMs) &&
      (stored.relation.validTo.isZero || timestampMs.le stored.relation.validTo)

theorem isValidAt_zero (stored : StoredRelation) :
    stored.isValidAt .zero = (!stored.deleted && stored.relation.validTo.isZero) := by
  have now : F64.zero.isZero = true := rfl
  cases deleted : stored.deleted <;> simp [isValidAt, deleted, now]

end StoredRelation

namespace RelationStore

variable {store : RelationStore} {source relationType target : String}

/-- Relations out of a node that are valid at a time, of one type or of all. -/
def outgoing (store : RelationStore) (source : String) (relationType : Option String) (atTime : F64) : List Relation :=
  (store.relations.filter fun stored =>
    stored.relation.sourceId = source && stored.isValidAt atTime &&
      relationType.all (stored.relation.relationType = ·)).map StoredRelation.relation

theorem mem_snapshot (relation : Relation) :
    relation ∈ store.snapshot ↔ ∃ stored ∈ store.relations, stored.deleted = false ∧ stored.relation = relation := by
  simp [snapshot, and_assoc]

theorem any_outgoing :
    ((store.outgoing source (some relationType) .zero).any fun relation => relation.targetId = target) = true ↔
      ∃ relation ∈ store.snapshot, connects source relationType target relation = true ∧
        relation.validTo.isZero = true := by
  rw [any_eq_true]
  constructor
  · rintro ⟨relation, listed, ends⟩
    obtain ⟨stored, member, rfl⟩ := mem_map.mp listed
    obtain ⟨inside, shown⟩ := mem_filter.mp member
    rw [StoredRelation.isValidAt_zero] at shown
    simp only [Bool.and_eq_true, decide_eq_true_eq, Bool.not_eq_true', Option.all_some] at shown ends
    obtain ⟨⟨starts, live, open_⟩, typed⟩ := shown
    exact ⟨stored.relation, (mem_snapshot _).mpr ⟨stored, inside, live, rfl⟩, by simp [connects, starts, typed, ends], open_⟩
  · rintro ⟨relation, listed, edge, open_⟩
    obtain ⟨stored, inside, live, rfl⟩ := (mem_snapshot _).mp listed
    simp only [connects, Bool.and_eq_true, decide_eq_true_eq] at edge
    refine ⟨stored.relation, mem_map.mpr ⟨stored, mem_filter.mpr ⟨inside, ?_⟩, rfl⟩, by simp [edge.2]⟩
    rw [StoredRelation.isValidAt_zero]
    simp [edge.1.1, edge.1.2, live, open_]

end RelationStore

namespace Engine

open Audit

variable {config : Config} {encoder : Encoder config.dimensions} {core after : WarmCore} {store : Store}

/-- No two live relations have the same ends and type. -/
def Distinct (graph : RelationStore) : Prop := graph.snapshot.Pairwise fun relation other => ¬SameEdge relation other

theorem distinct_remove (distinct : Distinct graph) (source relationType target : String) :
    Distinct (graph.remove source relationType target) := by
  rw [Distinct, RelationStore.snapshot_remove]
  exact distinct.sublist eraseP_sublist

theorem distinct_replace (distinct : Distinct graph) (relation : Relation) :
    Distinct ((graph.remove relation.sourceId relation.relationType relation.targetId).add relation) := by
  rw [Distinct, RelationStore.snapshot_add, RelationStore.snapshot_remove, pairwise_append]
  refine ⟨distinct.sublist eraseP_sublist, pairwise_singleton _ _, ?_⟩
  intro other member last own same
  rw [mem_singleton.mp own, sameEdge_iff] at same
  exact not_sameEdge_of_mem_eraseP distinct member
    ((sameEdge_iff _ _).mpr ⟨same.1.symm, same.2.1.symm, same.2.2.symm⟩)

/-! ### What a mutation does to the graph -/

theorem graph_foldl_removeMemoryId (ids : List String) (core : WarmCore) :
    (ids.foldl removeMemoryId core).graph = core.graph := by
  induction ids generalizing core with
  | nil => rfl
  | cons id ids ih => exact ih _

@[simp] theorem graph_removeDerivedFromMemory (core : WarmCore) (id : String) :
    (removeDerivedFromMemory core id).graph = core.graph := by
  unfold removeDerivedFromMemory
  split
  · rfl
  · exact graph_foldl_removeMemoryId _ _

@[simp] theorem graph_installDeferredEncoding (core : WarmCore) (id version : String) (fingerprint : UInt64)
    (vectors : List VectorRecord) : (installDeferredEncoding core id version fingerprint vectors).graph = core.graph := by
  unfold installDeferredEncoding
  split
  · rfl
  · split <;> rfl

@[simp] theorem graph_applyTriplet (core : WarmCore) (id subject relation object : String) :
    (applyTriplet encoder core id subject relation object).graph = core.graph := by
  unfold applyTriplet
  dsimp only
  split
  · exact graph_removeDerivedFromMemory core id
  · exact graph_removeDerivedFromMemory core id

/-- All that a mutation may do to the relations. -/
inductive Rewires (before : RelationStore) : RelationStore → Prop
  | same : Rewires before before
  | removed (source relationType target : String) : Rewires before (before.remove source relationType target)
  | replaced (relation : Relation) :
      Rewires before ((before.remove relation.sourceId relation.relationType relation.targetId).add relation)
  | declared (relationType : RelationType) : Rewires before (before.declareType relationType)

theorem Rewires.distinct {before after : RelationStore} (rewires : Rewires before after) (distinct : Distinct before) :
    Distinct after := by
  cases rewires with
  | same => exact distinct
  | removed source relationType target => exact distinct_remove distinct source relationType target
  | replaced relation => exact distinct_replace distinct relation
  | declared relationType => exact distinct

theorem applyOther_rewires (applied : applyOther encoder core mutation = .ok after) :
    Rewires core.graph after.graph := by
  have unchanged (same : after.graph = core.graph) : Rewires core.graph after.graph := same ▸ .same
  cases mutation with
  | relation relation =>
    cases applied
    exact .replaced relation
  | removeRelation source relation target =>
    cases applied
    exact .removed source relation target
  | relationType relationType =>
    cases applied
    exact .declared relationType
  | auditPending intent | auditAcknowledged id =>
    obtain ⟨_, _, rest⟩ := bind_eq_ok.mp applied
    cases rest
    exact .same
  | vector id vector | delete id =>
    cases applied
    exact unchanged (graph_removeDerivedFromMemory core id)
  | encodeDocument id version fingerprint vectors =>
    cases applied
    exact unchanged (graph_installDeferredEncoding core id version fingerprint vectors)
  | triplet id subject relation object =>
    cases applied
    exact unchanged (graph_applyTriplet core id subject relation object)
  | _ =>
    cases applied
    exact unchanged rfl

theorem graph_applyDocument (state : Applying) (document : StoredDocument) (previous : Option StoredDocument)
    (stale : List String) (chunks : List (String × VectorRecord)) :
    (applyDocument state document previous stale chunks).core.graph = state.core.graph := by
  unfold applyDocument
  split <;> rfl

theorem applyMutation_rewires (state : Applying) (mutation : Mutation) (prepared : Prepared) :
    Rewires state.core.graph (applyMutation encoder state mutation prepared).1.core.graph := by
  unfold applyMutation
  dsimp only
  split
  next document previous stale chunks =>
    rw [graph_applyDocument]
    exact .same
  next =>
    split
    next core applied =>
      have rewires := applyOther_rewires applied
      exact rewires
    next => exact .same

theorem applyLoop_distinct (changes : List (Mutation × Prepared)) (state : Applying) (failure : Option AuditError)
    (distinct : Distinct state.core.graph) : Distinct (applyLoop encoder state failure changes).1.graph := by
  induction changes generalizing state failure with
  | nil => exact distinct
  | cons change changes ih =>
    obtain ⟨mutation, prepared⟩ := change
    exact ih _ _ ((applyMutation_rewires state mutation prepared).distinct distinct)

variable (encoder) in
theorem applyMutations_distinct (mutations : List Mutation) (prepared : List Prepared) (distinct : Distinct core.graph) :
    Distinct (applyMutations encoder core mutations prepared).1.graph :=
  applyLoop_distinct (mutations.zip prepared) ⟨core, [], []⟩ none distinct

/-! ### Runs -/

theorem graph_hydrateDocuments (hydrated : hydrateDocuments core = .ok after) : after.graph = core.graph := by
  unfold hydrateDocuments at hydrated
  split at hydrated
  · split at hydrated
    · cases hydrated
    · cases hydrated
      rfl
  · cases hydrated
    rfl

theorem graph_hydrateUnlessAccepted (hydrated : hydrateUnlessAccepted core mutations = .ok after) :
    after.graph = core.graph := by
  unfold hydrateUnlessAccepted at hydrated
  split at hydrated
  · cases hydrated
    rfl
  · exact graph_hydrateDocuments hydrated

theorem commitPayload_distinct {expected : Option Nat} {appends : Bool} {mutations : List Mutation} {committed : Bool}
    {failure : Option AuditError} (distinct : Distinct core.graph)
    (returned : commitPayload encoder core seen expected appends mutations = .ok (after, committed, failure)) :
    Distinct after.graph := by
  unfold commitPayload at returned
  split at returned
  · cases returned
    exact distinct
  · obtain ⟨_, _, returned⟩ := bind_eq_ok.mp returned
    split at returned
    · cases returned
      exact applyMutations_distinct encoder mutations (prepareMutations seen mutations) distinct
    · cases returned

theorem commit_distinct (seen : DocumentStore) (expected : Option Nat) (appends : Bool) (mutations : List Mutation)
    (distinct : Distinct store.core.graph) :
    Distinct (store.commit config encoder seen expected appends mutations).1.core.graph := by
  unfold Store.commit
  split
  · exact distinct
  next core hydrated =>
    rw [← graph_hydrateUnlessAccepted hydrated] at distinct
    split
    · exact distinct
    · split
      · exact distinct
      · exact distinct
      next committed failure returned => exact commitPayload_distinct distinct returned

theorem replayMutations_distinct (distinct : Distinct core.graph)
    (replayed : replayMutations config encoder core chunk = .ok after) : Distinct after.graph := by
  unfold replayMutations at replayed
  obtain ⟨_, _, replayed⟩ := bind_eq_ok.mp replayed
  obtain ⟨hydrated, own, replayed⟩ := bind_eq_ok.mp replayed
  obtain ⟨_, _, replayed⟩ := bind_eq_ok.mp replayed
  rw [← graph_hydrateUnlessAccepted own] at distinct
  split at replayed
  next applied installed =>
    cases replayed
    have kept := applyMutations_distinct encoder chunk (prepareMutations hydrated.documents chunk) distinct
    rw [installed] at kept
    exact kept
  next => cases replayed

theorem replayFrameFrom_distinct (frame chunk : List Mutation) (distinct : Distinct core.graph)
    (replayed : replayFrameFrom config encoder chunk core frame = .ok after) : Distinct after.graph := by
  induction frame generalizing core chunk with
  | nil =>
    unfold replayFrameFrom at replayed
    split at replayed
    · cases replayed
      exact distinct
    · exact replayMutations_distinct distinct replayed
  | cons mutation rest ih =>
    unfold replayFrameFrom at replayed
    dsimp only at replayed
    split at replayed
    · obtain ⟨next, own, replayed⟩ := bind_eq_ok.mp replayed
      exact ih [] (replayMutations_distinct distinct own) replayed
    · exact ih _ distinct replayed

theorem loadFromLog_distinct (loaded : loadFromLog config encoder more generation = .ok after) : Distinct after.graph := by
  have frames (frames : List (List Mutation)) (core : WarmCore) (distinct : Distinct core.graph)
      (replayed : frames.foldlM (replayFrame config encoder) core = .ok after) : Distinct after.graph := by
    induction frames generalizing core with
    | nil =>
      cases replayed
      exact distinct
    | cons frame frames ih =>
      rw [foldlM_cons] at replayed
      obtain ⟨next, own, replayed⟩ := bind_eq_ok.mp replayed
      exact ih next (replayFrameFrom_distinct frame [] distinct own) replayed
  exact frames generation.frames (opened config more generation.checkpoint) List.Pairwise.nil loaded

theorem act_distinct (action : Action) (distinct : Distinct store.core.graph) :
    Distinct (act config encoder store action).core.graph := by
  cases action with
  | commit seen expected appends mutations => exact commit_distinct seen expected appends mutations distinct
  | read =>
    unfold act
    dsimp only
    split
    next core hydrated => exact graph_hydrateDocuments hydrated ▸ distinct
    next => exact distinct
  | reopen more =>
    unfold act
    dsimp only
    split
    next core loaded => exact loadFromLog_distinct loaded
    next => exact distinct

variable (encoder) in
theorem run_distinct (more : Nat) (checkpoint : Option ServingImage) (actions : List Action) :
    Distinct (run config encoder (.start config more checkpoint) actions).core.graph := by
  have from_ (store : Store) (distinct : Distinct store.core.graph) : Distinct (run config encoder store actions).core.graph := by
    induction actions generalizing store with
    | nil => exact distinct
    | cons action actions ih => exact ih _ (act_distinct action distinct)
  exact from_ (.start config more checkpoint) List.Pairwise.nil

/-! ### `remove_relation` -/

/-- The relation is looked up before the commit. -/
def Store.removeRelation (config : Config) (encoder : Encoder config.dimensions) (store : Store) (seen : DocumentStore)
    (appends : Bool) (source relationType target : String) : Store × Except EngineError Bool :=
  let existed := (store.core.graph.outgoing source (some relationType) .zero).any fun relation => relation.targetId = target
  match store.commit config encoder seen none appends [.removeRelation source relationType target] with
  | (store, .error error) => (store, .error error)
  | (store, .ok _) => (store, .ok existed)

theorem commitPayload_removeRelation {appends : Bool} {source relationType target : String} {committed : Bool}
    {failure : Option AuditError}
    (returned : commitPayload encoder core seen none appends [.removeRelation source relationType target] = .ok (after, committed, failure)) :
    committed = true ∧ failure = none ∧ after.graph = core.graph.remove source relationType target := by
  unfold commitPayload at returned
  rw [if_neg (by simp)] at returned
  obtain ⟨_, _, returned⟩ := bind_eq_ok.mp returned
  split at returned
  · cases returned
    exact ⟨rfl, rfl, rfl⟩
  · cases returned

theorem commit_removeRelation {appends : Bool} {source relationType target : String} {store' : Store} {committed : Bool}
    (returned : store.commit config encoder seen none appends [.removeRelation source relationType target] = (store', .ok committed)) :
    store'.core.graph = store.core.graph.remove source relationType target := by
  unfold Store.commit at returned
  split at returned
  · cases returned
  next core hydrated =>
    rw [← graph_hydrateUnlessAccepted hydrated]
    split at returned
    · cases returned
    · split at returned
      · cases returned
      next kept _ payload => exact absurd (commitPayload_removeRelation payload).1 (by simp)
      next kept failure payload =>
        obtain ⟨_, rfl, graph⟩ := commitPayload_removeRelation payload
        cases returned
        exact graph

/-- What a call that returned `reported` is to have done. -/
structure Removes (before after : RelationStore) (reported : Bool) (source relationType target : String) : Prop where
  told : reported = true ↔ ∃ relation ∈ before.snapshot, RelationStore.connects source relationType target relation = true
  gone : ∀ relation ∈ after.snapshot, RelationStore.connects source relationType target relation = false
  others : after.snapshot = before.snapshot.filter fun relation => !RelationStore.connects source relationType target relation

section

variable {relations : List Relation} (distinct : relations.Pairwise fun r other => ¬SameEdge r other)
include distinct

theorem eq_of_connects
    {relation other : Relation} (member : relation ∈ relations) (listed : other ∈ relations)
    (edge : RelationStore.connects source relationType target relation = true)
    (same : RelationStore.connects source relationType target other = true) : relation = other := by
  simp only [RelationStore.connects, Bool.and_eq_true, decide_eq_true_eq] at edge same
  have edges : SameEdge relation other := (sameEdge_iff relation other).mpr
    ⟨same.1.1.trans edge.1.1.symm, same.1.2.trans edge.1.2.symm, same.2.trans edge.2.symm⟩
  have back : SameEdge other relation := (sameEdge_iff other relation).mpr
    ⟨edge.1.1.trans same.1.1.symm, edge.1.2.trans same.1.2.symm, edge.2.trans same.2.symm⟩
  induction relations with
  | nil => contradiction
  | cons first relations ih =>
    rw [pairwise_cons] at distinct
    rcases mem_cons.mp member with rfl | later
    · rcases mem_cons.mp listed with rfl | after
      · rfl
      · exact absurd edges (distinct.1 other after)
    · rcases mem_cons.mp listed with rfl | after
      · exact absurd back (distinct.1 relation later)
      · exact ih distinct.2 later after

theorem eraseP_eq_filter
    (source relationType target : String) :
    relations.eraseP (RelationStore.connects source relationType target) =
      relations.filter fun relation => !RelationStore.connects source relationType target relation := by
  induction relations with
  | nil => rfl
  | cons first relations ih =>
    rw [pairwise_cons] at distinct
    by_cases own : RelationStore.connects source relationType target first = true
    · rw [eraseP_cons_of_pos own, filter_cons_of_neg (by simp [own]), filter_eq_self.mpr]
      intro other member
      have apart := distinct.1 other member
      rw [sameEdge_iff] at apart
      simp only [RelationStore.connects, Bool.and_eq_true, decide_eq_true_eq] at own
      simp only [Bool.not_eq_true', Bool.eq_false_iff, ne_eq, RelationStore.connects, Bool.and_eq_true, decide_eq_true_eq]
      rintro ⟨⟨starts, typed⟩, ends⟩
      exact apart ⟨starts.trans own.1.1.symm, typed.trans own.1.2.symm, ends.trans own.2.symm⟩
    · rw [eraseP_cons_of_neg own, filter_cons_of_pos (by simpa using own), ih distinct.2]

end

/-- A removal in a reached state always takes the relation out and nothing else, and its answer is right
exactly when the relation has no end, if it is there. -/
theorem removeRelation_right_iff (config : Config) (encoder : Encoder config.dimensions) (more : Nat)
    (checkpoint : Option ServingImage) (actions : List Action) (seen : DocumentStore) (appends : Bool)
    (source relationType target : String) (after : Store) (reported : Bool)
    (returned : (run config encoder (.start config more checkpoint) actions).removeRelation config encoder seen appends
      source relationType target = (after, .ok reported)) :
    Removes (run config encoder (.start config more checkpoint) actions).core.graph after.core.graph reported
        source relationType target ↔
      ∀ relation ∈ (run config encoder (.start config more checkpoint) actions).core.graph.snapshot,
        RelationStore.connects source relationType target relation = true → relation.validTo.isZero = true := by
  have distinct := run_distinct encoder more checkpoint actions
  generalize run config encoder (.start config more checkpoint) actions = store at returned distinct ⊢
  unfold Store.removeRelation at returned
  dsimp only at returned
  split at returned
  · cases returned
  next own =>
    cases returned
    have left : after.core.graph.snapshot = _ :=
      (congrArg RelationStore.snapshot (commit_removeRelation own)).trans (RelationStore.snapshot_remove ..)
    rw [eraseP_eq_filter distinct] at left
    constructor
    · intro right relation member edge
      obtain ⟨other, listed, same, open_⟩ := RelationStore.any_outgoing.mp (right.told.mpr ⟨relation, member, edge⟩)
      rwa [eq_of_connects distinct member listed edge same]
    · intro ends
      refine ⟨?_, ?_, left⟩
      · rw [RelationStore.any_outgoing]
        constructor
        · rintro ⟨relation, member, edge, _⟩
          exact ⟨relation, member, edge⟩
        · rintro ⟨relation, member, edge⟩
          exact ⟨relation, member, edge, ends relation member edge⟩
      · intro relation member
        rw [left, mem_filter] at member
        simpa using member.2

/-- "a knows b" until `validTo`; bits 0 are no end. -/
def Sample.known (validTo : F64) : Relation := ⟨"a", "knows", "b", none, .zero, validTo⟩

def Sample.related (validTo : F64) : Store :=
  run ⟨64, 6, true, 0⟩ plainEncoder (.start ⟨64, 6, true, 0⟩ 3 none) [.commit .empty none true [.relation (known validTo)]]

def Sample.unrelated (validTo : F64) : Store × Except EngineError Bool :=
  (related validTo).removeRelation ⟨64, 6, true, 0⟩ plainEncoder .empty true "a" "knows" "b"

theorem removeRelation_right_endless :
    Removes (Sample.related .zero).core.graph (Sample.unrelated .zero).1.core.graph true "a" "knows" "b" := by
  refine (removeRelation_right_iff ⟨64, 6, true, 0⟩ plainEncoder 3 none
    [.commit .empty none true [.relation (Sample.known .zero)]] .empty true "a" "knows" "b" _ _ rfl).mpr ?_
  intro relation member _
  have only : relation ∈ [Sample.known .zero] := member
  rw [mem_singleton.mp only]
  rfl

/-- A relation that ends at 2000 is removed, and the answer is that there was none. -/
theorem removeRelation_denies :
    (Sample.unrelated ⟨0x409F400000000000⟩).2 = .ok false ∧
      ¬ ∀ (actions : List Action) (after : Store) (reported : Bool),
        (run ⟨64, 6, true, 0⟩ plainEncoder (.start ⟨64, 6, true, 0⟩ 3 none) actions).removeRelation ⟨64, 6, true, 0⟩
          plainEncoder .empty true "a" "knows" "b" = (after, .ok reported) →
        Removes (run ⟨64, 6, true, 0⟩ plainEncoder (.start ⟨64, 6, true, 0⟩ 3 none) actions).core.graph after.core.graph
          reported "a" "knows" "b" := by
  refine ⟨rfl, fun right => ?_⟩
  have told := (right [.commit .empty none true [.relation (Sample.known ⟨0x409F400000000000⟩)]] _ false rfl).told
  exact absurd (told.mpr ⟨Sample.known ⟨0x409F400000000000⟩, mem_singleton_self _, rfl⟩) Bool.false_ne_true

end Engine

end Warm
