import Warm.BreadthFirst
import Warm.GraphStore

/-! Traversing the graph from a node along valid relations. The paths found are shortest paths to all nodes
within the depth; those inferred from a transitive type come on top. -/
namespace Warm

open List

variable {S : Type}

structure PathHop (S : Type) where
  nodeId : String
  relationType : String
  similarity : S
  deriving DecidableEq, Repr

structure GraphPath (S : Type) where
  hops : List (PathHop S)
  score : S
  deriving DecidableEq, Repr

namespace GraphStore

def declares (store : GraphStore) (property : RelationType → Bool) (relationType : String) : Bool :=
  store.types[relationType]?.any property

/-- The nodes a hop leads to, with the types: along outgoing relations and against incoming symmetric ones. -/
def neighbors (store : GraphStore) (relationType : Option String) (atTime : F64) (node : String) :
    List (String × String) :=
  (store.outgoing node relationType atTime).map (fun rel => (rel.targetId, rel.relationType)) ++
    match relationType with
    | some rt =>
      if store.declares RelationType.symmetric rt then
        (store.incoming node (some rt) atTime).map fun rel => (rel.sourceId, rel.relationType)
      else []
    | none =>
      ((store.byTarget[node]?.getD []).filterMap (store.relations[·]?)).filterMap fun stored =>
        if !stored.isValidAt atTime || stored.deleted then none
        else if store.declares RelationType.symmetric stored.relation.relationType then
          some (stored.relation.sourceId, stored.relation.relationType)
        else none

def hops (store : GraphStore) (relationType : Option String) (atTime : F64) (similarity : String → String → S)
    (node : String) : List (String × PathHop S) :=
  (store.neighbors relationType atTime node).map fun (nextId, relType) =>
    (nextId, ⟨nextId, relType, similarity node nextId⟩)

/-- The paths of the search, in the order in which they were found. -/
def directPaths [One S] [Mul S] (store : GraphStore) (start : String) (relationType : Option String) (maxDepth : Nat)
    (atTime : F64) (similarity : String → String → S) (rounds : Nat) : Option (List (GraphPath S)) :=
  (BreadthFirst.run (store.hops relationType atTime similarity) maxDepth rounds (BreadthFirst.initial start)).map
    fun final => final.found.map fun (_, newPath) =>
      ⟨newPath, (newPath.map PathHop.similarity).foldl (· * ·) 1⟩

/-- For a transitive type the end of a longer path is one hop away as well. -/
def inferredPaths (store : GraphStore) (start : String) (relationType : Option String)
    (similarity : String → String → S) (results : List (GraphPath S)) : List (GraphPath S) :=
  match relationType with
  | some rt =>
    if store.declares RelationType.transitive rt then
      results.filterMap fun path =>
        if 2 ≤ path.hops.length then
          path.hops.getLast?.map fun final =>
            ⟨[⟨final.nodeId, rt, similarity start final.nodeId⟩], similarity start final.nodeId⟩
        else none
    else []
  | none => []

/-- Highest scores first; what does not compare counts as equal. -/
def byScore [LT S] [DecidableLT S] (results : List (GraphPath S)) : List (GraphPath S) :=
  results.mergeSort fun a b => !decide (a.score < b.score)

def traverse [One S] [Mul S] [LT S] [DecidableLT S] (store : GraphStore) (start : String) (relationType : Option String)
    (maxDepth : Nat) (atTime : F64) (similarity : String → String → S) (rounds : Nat) : Option (List (GraphPath S)) :=
  (store.directPaths start relationType maxDepth atTime similarity rounds).map fun results =>
    byScore (results ++ store.inferredPaths start relationType similarity results)

end GraphStore

namespace RelationStore

variable (store : RelationStore) (relationType : Option String) (atTime : F64)

/-- A valid relation can be followed from its source or, when its type is symmetric, from its target. -/
inductive Edge : String → String → String → Prop
  | forward {stored : StoredRelation} (member : stored ∈ store.relations) (valid : stored.isValidAt atTime = true)
      (asked : ∀ rt ∈ relationType, stored.relation.relationType = rt) :
      Edge stored.relation.sourceId stored.relation.relationType stored.relation.targetId
  | backward {stored : StoredRelation} {declared : RelationType} (member : stored ∈ store.relations)
      (valid : stored.isValidAt atTime = true) (asked : ∀ rt ∈ relationType, stored.relation.relationType = rt)
      (known : store.types[stored.relation.relationType]? = some declared) (symmetric : declared.symmetric = true) :
      Edge stored.relation.targetId stored.relation.relationType stored.relation.sourceId

inductive Reaches (start : String) : Nat → String → Prop
  | start : Reaches start 0 start
  | hop {n : Nat} {node rt target : String} (before : Reaches start n node)
      (edge : Edge store relationType atTime node rt target) : Reaches start (n + 1) target

/-- Each hop of a path is an edge from where the hop before it ended. -/
def Follows (similarity : String → String → S) (start : String) : List (PathHop S) → Prop
  | [] => True
  | hop :: rest => Edge store relationType atTime start hop.relationType hop.nodeId ∧
      hop.similarity = similarity start hop.nodeId ∧ Follows similarity hop.nodeId rest

end RelationStore

def pathEnd (start : String) (path : List (PathHop S)) : String := (path.getLast?.map PathHop.nodeId).getD start

theorem pathEnd_append (start : String) (path : List (PathHop S)) (hop : PathHop S) :
    pathEnd start (path ++ [hop]) = hop.nodeId := by
  rw [pathEnd, getLast?_concat]
  rfl

theorem pathEnd_cons (start : String) (hop : PathHop S) (path : List (PathHop S)) :
    pathEnd start (hop :: path) = pathEnd hop.nodeId path := by
  cases path with
  | nil => rfl
  | cons next rest =>
    rw [pathEnd, pathEnd, getLast?_cons_cons]
    cases found : (next :: rest).getLast? with
    | none => cases (getLast?_eq_none_iff.mp found)
    | some last => rfl

namespace RelationStore

variable {store : RelationStore} {relationType : Option String} {atTime : F64} {similarity : String → String → S}

theorem Follows.concat (follows : Follows store relationType atTime similarity start path)
    (edge : Edge store relationType atTime (pathEnd start path) hop.relationType hop.nodeId)
    (own : hop.similarity = similarity (pathEnd start path) hop.nodeId) :
    Follows store relationType atTime similarity start (path ++ [hop]) := by
  induction path generalizing start with
  | nil => exact ⟨edge, own, trivial⟩
  | cons first rest ih =>
    rw [pathEnd_cons] at edge own
    exact ⟨follows.1, follows.2.1, ih follows.2.2 edge own⟩

end RelationStore

namespace GraphStore

open RelationStore BreadthFirst

variable {store : GraphStore} {relationType : Option String} {atTime : F64} {similarity : String → String → S}

theorem declares_eq_true :
    store.declares property rt = true ↔ ∃ declared, store.types[rt]? = some declared ∧ property declared = true := by
  rw [declares, Option.any_eq_true]

theorem isValidAt_live {stored : StoredRelation} (valid : stored.isValidAt atTime = true) : stored.deleted = false := by
  rw [StoredRelation.isValidAt] at valid
  split at valid
  next => cases valid
  next live => exact Bool.eq_false_of_not_eq_true live

theorem mem_neighbors : (target, rt) ∈ store.neighbors relationType atTime node ↔
    Edge store.toRelationStore relationType atTime node rt target := by
  rw [neighbors.eq_def, mem_append]
  constructor
  · rintro (out | against)
    · obtain ⟨rel, listed, same⟩ := mem_map.mp out
      cases same
      obtain ⟨stored, member, rfl, valid, rfl, asked⟩ := (store.mem_validRelations store.sources).mp listed
      exact .forward member valid asked
    · cases relationType with
      | some asked =>
        dsimp only at against
        split at against
        next symmetric =>
          obtain ⟨rel, listed, same⟩ := mem_map.mp against
          cases same
          obtain ⟨stored, member, rfl, valid, rfl, typed⟩ := (store.mem_validRelations store.targets).mp listed
          obtain ⟨declared, known, symmetric⟩ := declares_eq_true.mp (typed asked rfl ▸ symmetric)
          exact .backward member valid typed known symmetric
        next => cases against
      | none =>
        rw [store.targets, filterMap_positions] at against
        obtain ⟨stored, listed, kept⟩ := mem_filterMap.mp against
        obtain ⟨member, own⟩ := mem_filter.mp listed
        split at kept
        next => cases kept
        next shown =>
          split at kept
          next symmetric =>
            cases kept
            cases of_decide_eq_true own
            obtain ⟨declared, known, symmetric⟩ := declares_eq_true.mp symmetric
            have valid : stored.isValidAt atTime = true := by
              cases valid : stored.isValidAt atTime <;> simp [valid] at shown ⊢
            exact .backward member valid (fun _ none => by cases none) known symmetric
          next => cases kept
  · rintro (⟨member, valid, asked⟩ | ⟨member, valid, asked, known, symmetric⟩)
    · exact .inl (mem_map.mpr ⟨_, (store.mem_validRelations store.sources).mpr ⟨_, member, rfl, valid, rfl, asked⟩, rfl⟩)
    · right
      have shown := declares_eq_true.mpr ⟨_, known, symmetric⟩
      cases relationType with
      | some rt =>
        cases asked rt rfl
        dsimp only
        rw [if_pos shown]
        exact mem_map.mpr ⟨_, (store.mem_validRelations store.targets).mpr ⟨_, member, rfl, valid, rfl, asked⟩, rfl⟩
      | none =>
        rw [store.targets, filterMap_positions]
        refine mem_filterMap.mpr ⟨_, mem_filter.mpr ⟨member, decide_eq_true rfl⟩, ?_⟩
        rw [valid, isValidAt_live valid, if_neg (by decide), if_pos shown]

theorem mem_hops :
    neighbor ∈ store.hops relationType atTime similarity node ↔
      neighbor.2.nodeId = neighbor.1 ∧ neighbor.2.similarity = similarity node neighbor.1 ∧
        Edge store.toRelationStore relationType atTime node neighbor.2.relationType neighbor.1 := by
  obtain ⟨target, nodeId, rt, sim⟩ := neighbor
  rw [hops, mem_map]
  constructor
  · rintro ⟨⟨target, rt⟩, listed, same⟩
    cases same
    exact ⟨rfl, rfl, mem_neighbors.mp listed⟩
  · rintro ⟨own, measured, edge⟩
    dsimp only at own measured edge
    subst own measured
    exact ⟨_, mem_neighbors.mpr edge, rfl⟩

theorem trail_follows (trail : Trail (store.hops relationType atTime similarity) start path node) :
    Follows store.toRelationStore relationType atTime similarity start path ∧ pathEnd start path = node ∧
      Reaches store.toRelationStore relationType atTime start path.length node := by
  induction trail with
  | nil => exact ⟨trivial, rfl, .start⟩
  | @hop path u v hop before edge ih =>
    obtain ⟨follows, rfl, reached⟩ := ih
    obtain ⟨own, measured, edge⟩ := mem_hops.mp edge
    dsimp only at own measured edge
    subst own
    rw [pathEnd_append, length_append, length_singleton]
    exact ⟨follows.concat edge measured, rfl, reached.hop edge⟩

theorem exists_trail (similarity : String → String → S)
    (reached : Reaches store.toRelationStore relationType atTime start n node) :
    ∃ path, Trail (store.hops relationType atTime similarity) start path node ∧ path.length = n := by
  induction reached with
  | start => exact ⟨[], .nil, rfl⟩
  | @hop n node rt target before edge ih =>
    obtain ⟨path, trail, rfl⟩ := ih
    have listed : (target, ⟨target, rt, similarity node target⟩) ∈ store.hops relationType atTime similarity node :=
      mem_hops.mpr ⟨rfl, rfl, edge⟩
    refine ⟨_, .hop trail listed, ?_⟩
    rw [length_append, length_singleton]

def nodes (store : GraphStore) : List String :=
  store.relations.map (·.relation.sourceId) ++ store.relations.map (·.relation.targetId)

theorem hops_mem_nodes (listed : neighbor ∈ store.hops relationType atTime similarity node) :
    neighbor.1 ∈ store.nodes.toFinset := by
  rw [mem_toFinset, nodes, mem_append]
  obtain ⟨target, hop⟩ := neighbor
  obtain ⟨_, _, edge⟩ := mem_hops.mp listed
  generalize hop.relationType = rt at edge
  cases edge with
  | forward member => exact .inr (mem_map.mpr ⟨_, member, rfl⟩)
  | backward member => exact .inl (mem_map.mpr ⟨_, member, rfl⟩)

/-- The paths found end at exactly the nodes within the depth, each once and by a shortest way. -/
theorem traverse_correct [One S] [Mul S] [LT S] [DecidableLT S] (store : GraphStore) (start : String)
    (relationType : Option String) (maxDepth : Nat) (atTime : F64) (similarity : String → String → S) (rounds : Nat)
    (enough : 2 * store.relations.length + 1 ≤ rounds) :
    ∃ direct, store.directPaths start relationType maxDepth atTime similarity rounds = some direct ∧
      (∃ results, store.traverse start relationType maxDepth atTime similarity rounds = some results ∧
        results.Perm (direct ++ store.inferredPaths start relationType similarity direct)) ∧
      (∀ node, node ∈ direct.map (fun path => pathEnd start path.hops) ↔ node ≠ start ∧
        ∃ n ≤ maxDepth, Reaches store.toRelationStore relationType atTime start n node) ∧
      (direct.map fun path => pathEnd start path.hops).Nodup ∧
      ∀ path ∈ direct, Follows store.toRelationStore relationType atTime similarity start path.hops ∧
        ∀ n, Reaches store.toRelationStore relationType atTime start n (pathEnd start path.hops) → path.hops.length ≤ n := by
  have few : store.nodes.toFinset.card + 1 ≤ rounds := by
    have bound := toFinset_card_le store.nodes
    rw [nodes, length_append, length_map, length_map, ← nodes] at bound
    omega
  have inside : ∀ node, ∀ neighbor ∈ store.hops relationType atTime similarity node, neighbor.1 ∈ store.nodes.toFinset :=
    fun _ _ => hops_mem_nodes
  obtain ⟨final, result, complete, distinct, shortest⟩ := @run_correct _ _ _ _ start maxDepth _ inside rounds few
  have ends : ∀ found ∈ final.found, pathEnd start found.2 = found.1 :=
    fun found member => (trail_follows (shortest found member).1).2.1
  have listed : (final.found.map fun found => pathEnd start found.2) = final.found.map Prod.fst :=
    map_congr_left ends
  refine ⟨_, by rw [directPaths, result]; rfl, ⟨_, by rw [traverse, directPaths, result]; rfl, mergeSort_perm ..⟩, ?_⟩
  simp only [map_map, Function.comp_def]
  rw [listed]
  refine ⟨fun node => (complete node).trans (and_congr_right fun _ => ?_), distinct, fun path member => ?_⟩
  · constructor
    · rintro ⟨path, trail, short⟩
      exact ⟨_, short, (trail_follows trail).2.2⟩
    · rintro ⟨n, short, reached⟩
      obtain ⟨path, trail, rfl⟩ := exists_trail similarity reached
      exact ⟨path, trail, short⟩
  · obtain ⟨found, inside, rfl⟩ := mem_map.mp member
    obtain ⟨trail, _, least⟩ := shortest found inside
    refine ⟨(trail_follows trail).1, fun n reached => ?_⟩
    dsimp only at reached ⊢
    rw [ends found inside] at reached
    obtain ⟨path, other, rfl⟩ := exists_trail similarity reached
    exact least path other

def twoLinks : GraphStore :=
  ((new.add ⟨"a", "links", "b", none, .zero, .zero⟩).1.add ⟨"b", "links", "a", none, .zero, .zero⟩).1

theorem traverse_correct_twoLinks : ∃ direct, twoLinks.directPaths "a" (some "links") 2 .zero (fun _ _ => 1) 5 = some direct ∧
    "b" ∈ direct.map (fun path => pathEnd "a" path.hops) ∧ "a" ∉ direct.map (fun path => pathEnd "a" path.hops) := by
  obtain ⟨direct, result, _, complete, _⟩ := traverse_correct twoLinks "a" (some "links") 2 .zero (fun _ _ => 1) 5 le_rfl
  have linked : ⟨⟨"a", "links", "b", none, .zero, .zero⟩, false⟩ ∈ twoLinks.toRelationStore.relations := mem_cons_self
  have edge : Edge twoLinks.toRelationStore (some "links") .zero "a" "links" "b" := .forward linked (by decide) (by simp)
  exact ⟨direct, result, (complete "b").mpr ⟨by decide, 1, by decide, .hop .start edge⟩, fun listed => ((complete "a").mp listed).1 rfl⟩

end GraphStore

end Warm
