import Mathlib.Data.Nat.Size
import Warm.Engine
import Warm.FilterExact

/-! The plastic connection graph: a field of integers, folded from an ordered stream of events.
A relation stands on the indices of its subject and its object, permuted by xor with the masks of
the relation. A failed field access ends the run, here with `none`. -/
namespace Warm.ConnectionGraph

open Binary (utf8)
open Engine (hashU64)
open Filter (mem_dedup)
open Filter.FilteredIndex (dedup)

inductive Event where
  | store (subject relation object : String)
  | strengthen (subject relation object : String)
  | decay
deriving DecidableEq

structure GraphConfig where
  strengthenOnRead : Bool
  decayInterval : Nat
  decayNum : Int
  decayDen : Int

def W_STORE : Int := 1
def W_STRENGTHEN : Int := 2

/-- FNV-1a, folded through the splitmix finalizer. -/
def strSeed (s : String) : UInt64 :=
  hashU64 ((utf8 s).foldl (fun h b => (h ^^^ b.toUInt64) * 0x100000001B3) 0xcbf29ce484222325) (utf8 s).length.toUInt64

def chainStep (prev : UInt64) : Event → UInt64
  | .store s r o => hashU64 (prev ^^^ 0x5701) (strSeed (s ++ "\x01" ++ r ++ "\x01" ++ o))
  | .strengthen s r o => hashU64 (prev ^^^ 0x5731) (strSeed (s ++ "\x01" ++ r ++ "\x01" ++ o))
  | .decay => hashU64 (prev ^^^ 0xDECA) 0

structure Graph where
  field : List Int
  events : List Event
  chain : UInt64
  queriesSinceDecay : Nat

section Source

variable (dim : Nat) (cfg : GraphConfig) (entityVec : String → List Nat)

def withConfig : Option Graph := if 0 < dim then some ⟨List.replicate dim 0, [], 0, 0⟩ else none

/-- A hash reduced modulo the dimension, cut to 32 bits and made odd. -/
def mask (seed : UInt64) : Nat := (seed.toNat % dim) % 2 ^ 32 ||| 1

def masks (relation : String) : Nat × Nat :=
  (mask dim (hashU64 (strSeed relation) 0x5B1EC7), mask dim (hashU64 (strSeed relation) 0x0B1EC7))

def edgeIndices (subject relation object : String) : List Nat :=
  let (subjMask, objMask) := masks dim relation
  dedup (((entityVec subject).map (· ^^^ subjMask) ++ (entityVec object).map (· ^^^ objMask)).mergeSort
    fun a b => decide (a ≤ b))

def foldEdge (indices : List Nat) (w : Int) (field : List Int) : Option (List Int) :=
  indices.foldlM (fun field i => if i < field.length then some (field.modify i (· + w)) else none) field

def applyDecay (field : List Int) : Option (List Int) :=
  if cfg.decayDen = 0 then none else some (field.map fun v => (v * cfg.decayNum).tdiv cfg.decayDen)

def apply (field : List Int) : Event → Option (List Int)
  | .store s r o => foldEdge (edgeIndices dim entityVec s r o) W_STORE field
  | .strengthen s r o => foldEdge (edgeIndices dim entityVec s r o) W_STRENGTHEN field
  | .decay => applyDecay cfg field

def record (graph : Graph) (event : Event) (field : List Int) : Graph :=
  { graph with field, chain := chainStep graph.chain event, events := graph.events ++ [event] }

def store (graph : Graph) (s r o : String) : Option Graph :=
  (foldEdge (edgeIndices dim entityVec s r o) W_STORE graph.field).map (record graph (.store s r o))

def edgeSum (field : List Int) (idx : List Nat) : Option Int := (idx.mapM (field[·]?)).map List.sum

/-- The mean over the edge less the mean over the field, where the source has floating point. -/
def scoreIndices (field : List Int) (idx : List Nat) : Option ℚ :=
  if idx = [] then some 0
  else (edgeSum field idx).map fun (total : Int) => (total : ℚ) / idx.length - (field.sum : ℚ) / field.length

def score (graph : Graph) (s r o : String) : Option ℚ :=
  scoreIndices graph.field (edgeIndices dim entityVec s r o)

def isPresent (field : List Int) (idx : List Nat) : Option Bool :=
  if idx = [] then some false
  else (edgeSum field idx).map fun total =>
    decide (2 * (total * field.length - field.sum * idx.length) ≥ W_STORE * idx.length * field.length)

/-- The decay that is due once every `decayInterval` mutating queries. -/
def countQuery (graph : Graph) : Option Graph :=
  if cfg.decayInterval = 0 then some graph
  else if graph.queriesSinceDecay + 1 < cfg.decayInterval then
    some { graph with queriesSinceDecay := graph.queriesSinceDecay + 1 }
  else (applyDecay cfg graph.field).map fun field => { record graph .decay field with queriesSinceDecay := 0 }

def query (graph : Graph) (s r o : String) : Option (Graph × ℚ) := do
  let idx := edgeIndices dim entityVec s r o
  let score ← scoreIndices graph.field idx
  if cfg.strengthenOnRead ∧ (← isPresent graph.field idx) then
    let field ← foldEdge idx W_STRENGTHEN graph.field
    let graph ← countQuery cfg (record graph (.strengthen s r o) field)
    return (graph, score)
  else return (graph, score)

def replayStep (state : List Int × UInt64) (event : Event) : Option (List Int × UInt64) :=
  (apply dim cfg entityVec state.1 event).map fun field => (field, chainStep state.2 event)

def replay (events : List Event) : Option (List Int × UInt64) :=
  (withConfig dim).bind fun graph => events.foldlM (replayStep dim cfg entityVec) (graph.field, graph.chain)

def verify (graph : Graph) : Option Bool :=
  (replay dim cfg entityVec graph.events).map fun (field, chain) => field == graph.field && chain == graph.chain

inductive Call where
  | store (subject relation object : String)
  | score (subject relation object : String)
  | query (subject relation object : String)
  | replay (events : List Event)

def call (graph : Graph) : Call → Option Graph
  | .store s r o => store dim entityVec graph s r o
  | .score s r o => (score dim entityVec graph s r o).map fun _ => graph
  | .query s r o => (query dim cfg entityVec graph s r o).map Prod.fst
  | .replay events => (replay dim cfg entityVec events).map fun _ => graph

def run (calls : List Call) : Option Graph := (withConfig dim).bind fun graph => calls.foldlM (call dim cfg entityVec) graph

/-- The event can be folded into every field of the dimension. -/
def Applies (event : Event) : Prop :=
  ∀ field : List Int, field.length = dim →
    ∃ applied, apply dim cfg entityVec field event = some applied ∧ applied.length = dim

end Source

def Event.edges : Event → List (String × String × String)
  | .store s r o | .strengthen s r o => [(s, r, o)]
  | .decay => []

def Call.edges : Call → List (String × String × String)
  | .store s r o | .score s r o | .query s r o => [(s, r, o)]
  | .replay events => events.flatMap Event.edges

def InRange (dim : Nat) (entityVec : String → List Nat) (edges : List (String × String × String)) : Prop :=
  ∀ edge ∈ edges, ∀ i ∈ edgeIndices dim entityVec edge.1 edge.2.1 edge.2.2, i < dim

/-- Sparse vectors of 32-bit indices. -/
def Vectors (dim : Nat) (entityVec : String → List Nat) : Prop :=
  ∀ id, (entityVec id).Pairwise (· < ·) ∧ ∀ i ∈ entityVec id, i < dim ∧ i < 2 ^ 32

/-- Dimensions that the xor with a mask maps into themselves. -/
def Closed (dim mask : Nat) : Prop := 2 ^ 32 ≤ dim ∨ 2 ^ mask.size ∣ dim

section Masks

variable {dim : Nat}

theorem mask_lt (seed : UInt64) : mask dim seed < 2 ^ 32 :=
  Nat.or_lt_two_pow (Nat.mod_lt _ (by decide)) (by decide)

theorem xor_lt_of_closed (closed : Closed dim m) (small : m < 2 ^ 32) (inside : i < dim) (word : i < 2 ^ 32) :
    i ^^^ m < dim := by
  rcases closed with wide | ⟨q, rfl⟩
  · exact (Nat.xor_lt_two_pow word small).trans_le wide
  · have block : (i ^^^ m) / 2 ^ m.size = i / 2 ^ m.size := by
      rw [Nat.xor_div_two_pow, Nat.div_eq_of_lt (Nat.lt_size_self m), Nat.xor_zero]
    rw [Nat.mul_comm, ← Nat.div_lt_iff_lt_mul (Nat.two_pow_pos _)] at inside ⊢
    exact block ▸ inside

theorem closed_two_pow (seed : UInt64) (pos : 0 < k) : Closed (2 ^ k) (mask (2 ^ k) seed) := by
  right
  apply Nat.pow_dvd_pow
  rw [Nat.size_le]
  exact Nat.or_lt_two_pow ((Nat.mod_le _ _).trans_lt (Nat.mod_lt _ (Nat.two_pow_pos k))) (Nat.one_lt_two_pow pos.ne')

end Masks

section Runs

variable {dim : Nat} {cfg : GraphConfig} {entityVec : String → List Nat}

theorem mem_edgeIndices (s r o : String) : i ∈ edgeIndices dim entityVec s r o ↔
    (∃ j ∈ entityVec s, j ^^^ (masks dim r).1 = i) ∨ ∃ j ∈ entityVec o, j ^^^ (masks dim r).2 = i := by
  simp [edgeIndices, mem_dedup]

theorem foldEdge_total (indices : List Nat) (w : Int) (field : List Int) (inside : ∀ i ∈ indices, i < field.length) :
    ∃ folded, foldEdge indices w field = some folded ∧ folded.length = field.length := by
  induction indices generalizing field with
  | nil => exact ⟨field, rfl, rfl⟩
  | cons i indices ih =>
    obtain ⟨folded, ran, same⟩ := ih (field.modify i (· + w)) (by simpa using fun j m => inside j (by simp [m]))
    refine ⟨folded, ?_, by simpa using same⟩
    simpa [foldEdge, inside i (by simp)] using ran

theorem edgeSum_total (idx : List Nat) (field : List Int) (inside : ∀ i ∈ idx, i < field.length) :
    ∃ total, edgeSum field idx = some total := by
  induction idx with
  | nil => exact ⟨0, rfl⟩
  | cons i idx ih =>
    obtain ⟨total, sum⟩ := ih fun j m => inside j (by simp [m])
    obtain ⟨values, read, -⟩ := Option.map_eq_some_iff.mp sum
    exact ⟨_, by simp [edgeSum, List.getElem?_eq_getElem (inside i (by simp)), read]; rfl⟩

theorem replay_append (events : List Event) (event : Event)
    (folded : replay dim cfg entityVec events = some state) :
    replay dim cfg entityVec (events ++ [event]) = replayStep dim cfg entityVec state event := by
  rw [replay] at folded ⊢
  obtain ⟨graph, fresh, ran⟩ := Option.bind_eq_some_iff.mp folded
  simp [fresh, List.foldlM_append, ran]

/-- The field and the chain are those of the events, as long as the field is. -/
structure Folded (dim : Nat) (cfg : GraphConfig) (entityVec : String → List Nat) (graph : Graph) : Prop where
  length : graph.field.length = dim
  replayed : replay dim cfg entityVec graph.events = some (graph.field, graph.chain)

theorem Folded.verify (folded : Folded dim cfg entityVec graph) :
    ConnectionGraph.verify dim cfg entityVec graph = some true := by
  simp [ConnectionGraph.verify, folded.replayed]

theorem folded_record (folded : Folded dim cfg entityVec graph)
    (applied : apply dim cfg entityVec graph.field event = some field) (length : field.length = dim) :
    Folded dim cfg entityVec (record graph event field) := by
  refine ⟨length, ?_⟩
  change replay dim cfg entityVec (graph.events ++ [event]) = _
  rw [replay_append _ _ folded.replayed, replayStep, applied]
  rfl

theorem apply_total (divisor : cfg.decayDen ≠ 0) (event : Event) (inside : InRange dim entityVec event.edges) :
    Applies dim cfg entityVec event := by
  rintro field rfl
  cases event with
  | store s r o | strengthen s r o => exact foldEdge_total _ _ _ (inside (s, r, o) List.mem_cons_self)
  | decay => exact ⟨_, if_neg divisor, by simp⟩

theorem replay_applies (positive : 0 < dim) (events : List Event)
    (applies : ∀ event ∈ events, Applies dim cfg entityVec event) :
    ∃ state, replay dim cfg entityVec events = some state ∧ state.1.length = dim := by
  induction events using List.reverseRecOn with
  | nil => exact ⟨(List.replicate dim 0, 0), by simp [replay, withConfig, positive], by simp⟩
  | append_singleton events event ih =>
    obtain ⟨state, ran, length⟩ := ih (List.forall_mem_append.mp applies).1
    obtain ⟨applied, done, same⟩ := applies event (by simp) state.1 length
    exact ⟨_, by rw [replay_append _ _ ran, replayStep, done]; rfl, same⟩

theorem countQuery_total (divisor : cfg.decayDen ≠ 0) (folded : Folded dim cfg entityVec graph) :
    ∃ after, countQuery cfg graph = some after ∧ Folded dim cfg entityVec after := by
  rw [countQuery]
  split_ifs
  · exact ⟨graph, rfl, folded⟩
  · exact ⟨_, rfl, folded.length, folded.replayed⟩
  · obtain ⟨field, done, same⟩ := @apply_total dim cfg entityVec divisor .decay (fun _ member => by cases member)
      graph.field folded.length
    have recorded := folded_record folded done same
    rw [apply] at done
    exact ⟨{ record graph .decay field with queriesSinceDecay := 0 }, by rw [done]; rfl,
      recorded.length, recorded.replayed⟩

theorem call_total (positive : 0 < dim) (divisor : cfg.decayDen ≠ 0) (folded : Folded dim cfg entityVec graph)
    (made : Call) (inside : InRange dim entityVec made.edges) :
    ∃ after, call dim cfg entityVec graph made = some after ∧ Folded dim cfg entityVec after := by
  have summed (s r o) (listed : (s, r, o) ∈ made.edges) :=
    edgeSum_total (edgeIndices dim entityVec s r o) graph.field (folded.length ▸ inside (s, r, o) listed)
  cases made with
  | store s r o =>
    obtain ⟨field, applied, same⟩ := apply_total divisor (.store s r o) inside graph.field folded.length
    refine ⟨_, ?_, folded_record folded applied same⟩
    rw [apply] at applied
    rw [call, store, applied, Option.map_some]
  | score s r o =>
    obtain ⟨total, sum⟩ := summed s r o List.mem_cons_self
    refine ⟨graph, ?_, folded⟩
    simp only [call, score, scoreIndices, sum]
    split <;> rfl
  | query s r o =>
    obtain ⟨total, sum⟩ := summed s r o List.mem_cons_self
    obtain ⟨field, applied, same⟩ := apply_total divisor (.strengthen s r o) inside graph.field folded.length
    obtain ⟨after, counted, kept⟩ := countQuery_total divisor (folded_record folded applied same)
    rw [apply] at applied
    by_cases none : edgeIndices dim entityVec s r o = []
    · exact ⟨graph, by simp [call, query, scoreIndices, isPresent, none], folded⟩
    · simp only [call, query, scoreIndices, isPresent, none, if_false, sum, applied, Option.map_some,
        Option.bind_eq_bind, Option.bind_some, apply_ite (Option.map Prod.fst)]
      split
      · exact ⟨after, by rw [counted]; rfl, kept⟩
      · exact ⟨graph, rfl, folded⟩
  | replay events =>
    obtain ⟨state, ran, -⟩ := replay_applies positive events fun event own =>
      apply_total divisor event fun edge member => inside edge (List.mem_flatMap.mpr ⟨event, own, member⟩)
    exact ⟨graph, by rw [call, ran]; rfl, folded⟩

end Runs

end Warm.ConnectionGraph
