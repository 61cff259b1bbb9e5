import Mathlib.Data.Finset.Card
import Mathlib.Data.List.Nodup

/-! Breadth-first search with a queue, over any nodes whose neighbours are a list: every node within the
depth is found once, along a shortest trail. A hop is what a neighbour's edge adds to the trail. -/
namespace Warm.BreadthFirst

open List
open Function (update update_apply)

variable {α γ : Type*} [DecidableEq α]

structure Entry (α γ : Type*) where
  node : α
  path : List γ
  depth : Nat

structure State (α γ : Type*) where
  visited : α → Option Nat
  queue : List (Entry α γ)
  found : List (α × List γ)

/-- Takes up a neighbour unless it was visited at that depth or before. -/
def visit (maxDepth : Nat) (entry : Entry α γ) (state : State α γ) (neighbor : α × γ) : State α γ :=
  let nextDepth := entry.depth + 1
  if (state.visited neighbor.1).any (· ≤ nextDepth) then state
  else
    let newPath := entry.path ++ [neighbor.2]
    { visited := update state.visited neighbor.1 (some nextDepth)
      found := state.found ++ [(neighbor.1, newPath)]
      queue := if nextDepth < maxDepth then state.queue ++ [⟨neighbor.1, newPath, nextDepth⟩] else state.queue }

def expand (next : α → List (α × γ)) (maxDepth : Nat) (entry : Entry α γ) (state : State α γ) : State α γ :=
  if entry.depth ≥ maxDepth then state else (next entry.node).foldl (visit maxDepth entry) state

def run (next : α → List (α × γ)) (maxDepth : Nat) : Nat → State α γ → Option (State α γ)
  | rounds, state =>
    match state.queue with
    | [] => some state
    | entry :: queue =>
      match rounds with
      | 0 => none
      | rounds + 1 => run next maxDepth rounds (expand next maxDepth entry { state with queue := queue })

def initial (start : α) : State α γ :=
  ⟨update (fun _ => none) start (some 0), [⟨start, [], 0⟩], []⟩

inductive Trail (next : α → List (α × γ)) (start : α) : List γ → α → Prop
  | nil : Trail next start [] start
  | hop {path : List γ} {u v : α} {hop : γ} (before : Trail next start path u) (edge : (v, hop) ∈ next u) :
      Trail next start (path ++ [hop]) v

/-- What holds of the search while `under` is expanded and all queued nodes are at least `level` deep. -/
structure Searched (next : α → List (α × γ)) (start : α) (maxDepth : Nat) (under : Option α) (level : Nat)
    (state : State α γ) : Prop where
  started : state.visited start = some 0
  minimal : ∀ v k path, state.visited v = some k → Trail next start path v → k ≤ path.length
  bounded : ∀ v k, state.visited v = some k → k ≤ maxDepth ∧ k ≤ level + 1
  queued : ∀ entry ∈ state.queue, state.visited entry.node = some entry.depth ∧
    Trail next start entry.path entry.node ∧ entry.path.length = entry.depth ∧ level ≤ entry.depth
  ordered : state.queue.Pairwise fun a b => a.depth ≤ b.depth
  closed : ∀ u k, state.visited u = some k → k < maxDepth → under = some u ∨ (∃ entry ∈ state.queue, entry.node = u) ∨
    ∀ neighbor ∈ next u, (state.visited neighbor.1).isSome
  ends : ∀ v, v ∈ state.found.map Prod.fst ↔ v ≠ start ∧ (state.visited v).isSome
  distinct : (state.found.map Prod.fst).Nodup
  trails : ∀ found ∈ state.found, Trail next start found.2 found.1 ∧ state.visited found.1 = some found.2.length

variable {next : α → List (α × γ)} {start : α} {maxDepth level : Nat} {under : Option α} {state : State α γ}

theorem visited_initial (start v : α) : (initial start : State α γ).visited v = if v = start then some 0 else none :=
  update_apply (fun _ => none) start (some 0) v

theorem initial_searched (next : α → List (α × γ)) (start : α) (maxDepth : Nat) :
    Searched next start maxDepth none 0 (initial start) where
  started := (visited_initial start start).trans (if_pos rfl)
  minimal v k path visited _ := by
    rw [visited_initial] at visited
    split at visited <;> cases visited
    exact Nat.zero_le _
  bounded v k visited := by
    rw [visited_initial] at visited
    split at visited <;> cases visited
    exact ⟨Nat.zero_le _, Nat.zero_le _⟩
  queued entry member := by
    rw [mem_singleton.mp member]
    exact ⟨(visited_initial start start).trans (if_pos rfl), .nil, rfl, le_rfl⟩
  ordered := pairwise_singleton _ _
  closed u k visited _ := by
    rw [visited_initial] at visited
    split at visited
    next same => exact .inr (.inl ⟨_, mem_singleton_self _, same.symm⟩)
    next => cases visited
  ends v := by
    refine iff_of_false not_mem_nil ?_
    rintro ⟨apart, visited⟩
    rw [visited_initial, if_neg apart] at visited
    cases visited
  distinct := .nil
  trails _ member := absurd member not_mem_nil

omit [DecidableEq α] in
theorem Searched.near (searched : Searched next start maxDepth under level state) (within : level ≤ maxDepth)
    (expanding : ∀ u, under = some u → ∃ k, state.visited u = some k ∧ level ≤ k) (trail : Trail next start path v)
    (short : path.length ≤ level) : (state.visited v).isSome := by
  induction trail with
  | nil => rw [searched.started]; rfl
  | @hop path u v hop before edge ih =>
    rw [length_append, length_singleton] at short
    obtain ⟨k, visited⟩ := Option.isSome_iff_exists.mp (ih (by omega))
    have least := searched.minimal u k path visited before
    rcases searched.closed u k visited (by omega) with same | ⟨entry, member, same⟩ | all
    · obtain ⟨depth, own, deep⟩ := expanding u same
      rw [visited] at own
      cases own
      omega
    · obtain ⟨own, _, _, deep⟩ := searched.queued entry member
      rw [same, visited] at own
      cases own
      omega
    · exact all (v, hop) edge

theorem visit_skip (visited : state.visited neighbor.1 = some m) (near : m ≤ entry.depth + 1) :
    visit maxDepth entry state neighbor = state := by
  rw [visit, visited]
  exact if_pos (by simpa using near)

theorem visit_take (unseen : state.visited neighbor.1 = none) :
    visit maxDepth entry state neighbor =
      { visited := update state.visited neighbor.1 (some (entry.depth + 1))
        found := state.found ++ [(neighbor.1, entry.path ++ [neighbor.2])]
        queue := if entry.depth + 1 < maxDepth then
          state.queue ++ [⟨neighbor.1, entry.path ++ [neighbor.2], entry.depth + 1⟩] else state.queue } := by
  rw [visit, unseen]
  rfl

omit [DecidableEq α] in
theorem mem_queue [Decidable condition] :
    entry ∈ (if condition then queue ++ [added] else queue) ↔ entry ∈ queue ∨ condition ∧ entry = added := by
  split
  next holds => rw [mem_append, mem_singleton, and_iff_right holds]
  next fails => exact ⟨.inl, fun either => either.elim id fun both => absurd both.1 fails⟩

/-- A node not visited before is taken up at the depth of its shortest trail. -/
theorem Searched.take (searched : Searched next start maxDepth (some entry.node) entry.depth state)
    (own : state.visited entry.node = some entry.depth) (trail : Trail next start entry.path entry.node)
    (length : entry.path.length = entry.depth) (deeper : entry.depth < maxDepth) (edge : neighbor ∈ next entry.node)
    (unseen : state.visited neighbor.1 = none) :
    Searched next start maxDepth (some entry.node) entry.depth (visit maxDepth entry state neighbor) := by
  have seen {v : α} {k : Nat} (visited : state.visited v = some k) : v ≠ neighbor.1 := by
    rintro rfl
    cases unseen.symm.trans visited
  have trail' : Trail next start (entry.path ++ [neighbor.2]) neighbor.1 := .hop trail edge
  have length' : (entry.path ++ [neighbor.2]).length = entry.depth + 1 := by
    rw [length_append, length, length_singleton]
  have expanding : ∀ u, some entry.node = some u → ∃ k, state.visited u = some k ∧ entry.depth ≤ k := by
    rintro u same
    cases same
    exact ⟨_, own, le_rfl⟩
  have updated (v : α) : update state.visited neighbor.1 (some (entry.depth + 1)) v =
      if v = neighbor.1 then some (entry.depth + 1) else state.visited v :=
    update_apply ..
  rw [visit_take unseen]
  constructor
  · exact (updated start).trans (if_neg (seen searched.started) ▸ searched.started)
  · intro v k path visited reached
    dsimp only at visited
    rw [updated] at visited
    split at visited
    next same =>
      cases visited
      subst same
      by_contra short
      have near := searched.near deeper.le expanding reached (by omega)
      rw [unseen] at near
      cases near
    next => exact searched.minimal v k path visited reached
  · intro v k visited
    dsimp only at visited
    rw [updated] at visited
    split at visited
    next =>
      cases visited
      exact ⟨deeper, le_rfl⟩
    next => exact searched.bounded v k visited
  · intro queued member
    rcases mem_queue.mp member with member | ⟨_, rfl⟩
    · obtain ⟨visited, rest⟩ := searched.queued queued member
      exact ⟨(updated _).trans (if_neg (seen visited) ▸ visited), rest⟩
    · exact ⟨(updated _).trans (if_pos rfl), trail', length', Nat.le_succ _⟩
  · dsimp only
    split
    · refine pairwise_append.mpr ⟨searched.ordered, pairwise_singleton _ _, fun queued member added last => ?_⟩
      rw [mem_singleton.mp last]
      exact (searched.bounded _ _ (searched.queued queued member).1).2
    · exact searched.ordered
  · intro u k visited inside
    dsimp only at visited ⊢
    rw [updated] at visited
    split at visited
    next same =>
      cases visited
      exact .inr (.inl ⟨_, mem_queue.mpr (.inr ⟨inside, rfl⟩), same.symm⟩)
    next =>
      rcases searched.closed u k visited inside with same | ⟨queued, member, same⟩ | all
      · exact .inl same
      · exact .inr (.inl ⟨queued, mem_queue.mpr (.inl member), same⟩)
      · refine .inr (.inr fun other edge => ?_)
        rw [updated]
        split
        · rfl
        · exact all other edge
  · intro v
    dsimp only
    rw [map_append, mem_append, searched.ends, map_singleton, mem_singleton, updated]
    by_cases same : v = neighbor.1
    · subst same
      rw [if_pos rfl]
      exact iff_of_true (.inr rfl) ⟨(seen searched.started).symm, rfl⟩
    · rw [if_neg same, or_iff_left same]
  · dsimp only
    rw [map_append, map_singleton]
    refine nodup_append.mpr ⟨searched.distinct, nodup_singleton _, fun v member w last same => ?_⟩
    rw [mem_singleton.mp last] at same
    subst same
    have visited := ((searched.ends _).mp member).2
    rw [unseen] at visited
    cases visited
  · intro found member
    dsimp only at member ⊢
    rcases mem_append.mp member with member | member
    · obtain ⟨reached, visited⟩ := searched.trails found member
      exact ⟨reached, (updated _).trans (if_neg (seen visited) ▸ visited)⟩
    · rw [mem_singleton.mp member]
      exact ⟨trail', by rw [updated, if_pos rfl, length']⟩

/-- How many more entries the search can take from the queue, when all nodes are among `nodes`. -/
def remaining (nodes : Finset α) (state : State α γ) : Nat :=
  state.queue.length + (nodes.filter fun v => state.visited v = none).card

theorem remaining_take (listed : neighbor.1 ∈ nodes) (unseen : state.visited neighbor.1 = none) :
    remaining nodes (visit maxDepth entry state neighbor) ≤ remaining nodes state := by
  have fewer : (nodes.filter fun v => update state.visited neighbor.1 (some (entry.depth + 1)) v = none) =
      (nodes.filter fun v => state.visited v = none).erase neighbor.1 := by
    ext v
    rw [Finset.mem_filter, Finset.mem_erase, Finset.mem_filter, update_apply]
    by_cases same : v = neighbor.1 <;> simp [same]
  have one := Finset.card_erase_add_one
    (show neighbor.1 ∈ nodes.filter fun v => state.visited v = none from Finset.mem_filter.mpr ⟨listed, unseen⟩)
  rw [remaining, remaining, visit_take unseen, fewer]
  dsimp only
  split
  · rw [length_append, length_singleton]
    omega
  · omega

theorem Searched.neighbor {entry : Entry α γ} {neighbor : α × γ}
    (searched : Searched next start maxDepth (some entry.node) entry.depth state)
    (own : state.visited entry.node = some entry.depth) (trail : Trail next start entry.path entry.node)
    (length : entry.path.length = entry.depth) (deeper : entry.depth < maxDepth) (edge : neighbor ∈ next entry.node)
    (listed : neighbor.1 ∈ nodes) :
    Searched next start maxDepth (some entry.node) entry.depth (visit maxDepth entry state neighbor) ∧
      remaining nodes (visit maxDepth entry state neighbor) ≤ remaining nodes state ∧
      ((visit maxDepth entry state neighbor).visited neighbor.1).isSome ∧
      ∀ v k, state.visited v = some k → (visit maxDepth entry state neighbor).visited v = some k := by
  cases before : state.visited neighbor.1 with
  | none =>
    refine ⟨searched.take own trail length deeper edge before, remaining_take listed before, ?_, fun v k visited => ?_⟩
    · rw [visit_take before]
      exact Option.isSome_iff_exists.mpr ⟨_, Function.update_self ..⟩
    · have apart : v ≠ neighbor.1 := by
        rintro rfl
        cases before.symm.trans visited
      rw [visit_take before]
      exact (Function.update_of_ne apart ..).trans visited
  | some m =>
    rw [visit_skip before (searched.bounded _ _ before).2, before]
    exact ⟨searched, le_rfl, rfl, fun _ _ visited => visited⟩

theorem Searched.neighbors {entry : Entry α γ} {neighbors : List (α × γ)}
    (searched : Searched next start maxDepth (some entry.node) entry.depth state)
    (own : state.visited entry.node = some entry.depth) (trail : Trail next start entry.path entry.node)
    (length : entry.path.length = entry.depth) (deeper : entry.depth < maxDepth)
    (edges : ∀ neighbor ∈ neighbors, neighbor ∈ next entry.node) (listed : ∀ neighbor ∈ neighbors, neighbor.1 ∈ nodes) :
    Searched next start maxDepth (some entry.node) entry.depth (neighbors.foldl (visit maxDepth entry) state) ∧
      remaining nodes (neighbors.foldl (visit maxDepth entry) state) ≤ remaining nodes state ∧
      (∀ neighbor ∈ neighbors, ((neighbors.foldl (visit maxDepth entry) state).visited neighbor.1).isSome) ∧
      ∀ v k, state.visited v = some k → (neighbors.foldl (visit maxDepth entry) state).visited v = some k := by
  induction neighbors generalizing state with
  | nil => exact ⟨searched, le_rfl, forall_mem_nil _, fun _ _ visited => visited⟩
  | cons neighbor neighbors ih =>
    obtain ⟨kept, fewer, taken, still⟩ := searched.neighbor own trail length deeper
      (edges _ mem_cons_self) (listed _ mem_cons_self)
    obtain ⟨kept', fewer', taken', still'⟩ := ih kept (still _ _ own)
      (forall_mem_cons.mp edges).2
      (forall_mem_cons.mp listed).2
    refine ⟨kept', fewer'.trans fewer, fun other member => ?_, fun v k visited => still' v k (still v k visited)⟩
    rcases mem_cons.mp member with rfl | member
    · obtain ⟨k, visited⟩ := Option.isSome_iff_exists.mp taken
      exact Option.isSome_iff_exists.mpr ⟨k, still' _ _ visited⟩
    · exact taken' other member

omit [DecidableEq α] in
theorem Searched.pop (searched : Searched next start maxDepth none level state) (first : state.queue = entry :: queue) :
    Searched next start maxDepth (some entry.node) entry.depth { state with queue := queue } := by
  obtain ⟨_, _, _, deep⟩ := searched.queued entry (first ▸ mem_cons_self)
  obtain ⟨nearest, ordered⟩ := pairwise_cons.mp (first ▸ searched.ordered)
  refine { searched with
    bounded := fun v k visited => ⟨(searched.bounded v k visited).1, (searched.bounded v k visited).2.trans (by omega)⟩
    queued := fun queued member => ?_
    ordered := ordered
    closed := fun u k visited inside => ?_ }
  · obtain ⟨visited, trail, length, _⟩ := searched.queued queued (first ▸ mem_cons_of_mem _ member)
    exact ⟨visited, trail, length, nearest queued member⟩
  · rcases searched.closed u k visited inside with same | ⟨queued, member, same⟩ | all
    · cases same
    · rw [first] at member
      rcases mem_cons.mp member with rfl | member
      · exact .inl (congrArg some same)
      · exact .inr (.inl ⟨queued, member, same⟩)
    · exact .inr (.inr all)

theorem Searched.round {entry : Entry α γ} {queue : List (Entry α γ)}
    (searched : Searched next start maxDepth none level state) (first : state.queue = entry :: queue)
    (listed : ∀ u, ∀ neighbor ∈ next u, neighbor.1 ∈ nodes) :
    Searched next start maxDepth none entry.depth (expand next maxDepth entry { state with queue := queue }) ∧
      remaining nodes (expand next maxDepth entry { state with queue := queue }) < remaining nodes state := by
  have popped := searched.pop first
  obtain ⟨own, trail, length, _⟩ := searched.queued entry (first ▸ mem_cons_self)
  have fewer : remaining nodes { state with queue := queue } < remaining nodes state := by
    rw [remaining, remaining, first, length_cons]
    dsimp only
    omega
  rw [expand]
  split
  next deep =>
    refine ⟨{ popped with closed := fun u k visited inside => ?_ }, fewer⟩
    rcases popped.closed u k visited inside with same | either
    · cases same
      cases own.symm.trans visited
      omega
    · exact .inr either
  next shallow =>
    obtain ⟨kept, fewer', taken, still⟩ := popped.neighbors own trail length (by omega)
      (fun neighbor member => member) (listed entry.node)
    refine ⟨{ kept with closed := fun u k visited inside => ?_ }, fewer'.trans_lt fewer⟩
    rcases kept.closed u k visited inside with same | either
    · cases same
      exact .inr (.inr taken)
    · exact .inr either

theorem Searched.loop (searched : Searched next start maxDepth none level state)
    (listed : ∀ u, ∀ neighbor ∈ next u, neighbor.1 ∈ nodes) (enough : remaining nodes state ≤ rounds) :
    ∃ final level, run next maxDepth rounds state = some final ∧ final.queue = [] ∧
      Searched next start maxDepth none level final := by
  induction rounds generalizing state level with
  | zero =>
    have empty : state.queue = [] := length_eq_zero_iff.mp (by rw [remaining] at enough; omega)
    exact ⟨state, level, by rw [run, empty], empty, searched⟩
  | succ rounds ih =>
    cases first : state.queue with
    | nil => exact ⟨state, level, by rw [run, first], first, searched⟩
    | cons entry queue =>
      obtain ⟨kept, fewer⟩ := searched.round first listed
      obtain ⟨final, level', result, rest⟩ := ih kept (by omega)
      exact ⟨final, level', by rw [run, first]; exact result, rest⟩

omit [DecidableEq α] in
theorem Searched.complete (searched : Searched next start maxDepth none level state) (empty : state.queue = [])
    (trail : Trail next start path v) (short : path.length ≤ maxDepth) : (state.visited v).isSome := by
  have all : Searched next start maxDepth none maxDepth state :=
    { searched with
      bounded := fun v k visited => ⟨(searched.bounded v k visited).1, (searched.bounded v k visited).1.trans (by omega)⟩
      queued := fun entry member => by
        rw [empty] at member
        cases member }
  exact all.near le_rfl (fun _ none => by cases none) trail short

theorem run_correct {nodes : Finset α} (listed : ∀ u, ∀ neighbor ∈ next u, neighbor.1 ∈ nodes) {rounds : Nat}
    (enough : nodes.card + 1 ≤ rounds) :
    ∃ final, run next maxDepth rounds (initial start) = some final ∧
      (∀ v, v ∈ final.found.map Prod.fst ↔ v ≠ start ∧ ∃ path, Trail next start path v ∧ path.length ≤ maxDepth) ∧
      (final.found.map Prod.fst).Nodup ∧
      ∀ found ∈ final.found, Trail next start found.2 found.1 ∧ found.2.length ≤ maxDepth ∧
        ∀ path, Trail next start path found.1 → found.2.length ≤ path.length := by
  have few : remaining nodes (initial start : State α γ) ≤ rounds := by
    have bound := Finset.card_filter_le nodes fun v => (initial start : State α γ).visited v = none
    rw [remaining]
    exact (Nat.add_le_add_left bound _).trans ((Nat.add_comm _ _).trans_le enough)
  obtain ⟨final, level, result, empty, searched⟩ :=
    (initial_searched next start maxDepth).loop listed few
  refine ⟨final, result, fun v => ?_, searched.distinct, fun found member => ?_⟩
  · rw [searched.ends]
    refine and_congr_right fun apart => ⟨fun visited => ?_, fun ⟨path, trail, short⟩ => searched.complete empty trail short⟩
    have listed : v ∈ final.found.map Prod.fst := (searched.ends v).mpr ⟨apart, visited⟩
    obtain ⟨found, member, rfl⟩ := mem_map.mp listed
    obtain ⟨trail, depth⟩ := searched.trails found member
    exact ⟨found.2, trail, (searched.bounded _ _ depth).1⟩
  · obtain ⟨trail, depth⟩ := searched.trails found member
    exact ⟨trail, (searched.bounded _ _ depth).1, fun path other => searched.minimal _ _ path depth other⟩

end Warm.BreadthFirst
