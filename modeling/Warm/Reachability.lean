import Mathlib.Data.Finset.Card
import Mathlib.Data.Finset.Dedup
import Mathlib.Logic.Relation
import Mathlib.Algebra.BigOperators.Group.Finset.Basic

/-! Worklist searches over a graph given by successor lists. One marks a node when it is pushed, the
other when it is popped; both find exactly the nodes reachable from where they start, once their fuel
covers the graph. -/
namespace Warm.Reachability

open List

variable {α : Type} [DecidableEq α] (step : α → List α)

/-- There is an edge from the first node to the second. -/
def Arrow (a b : α) : Prop :=
  b ∈ step a

/-- Marks and pushes the neighbours that were not seen yet. -/
def push (state : List α × List α) (neighbour : α) : List α × List α :=
  if neighbour ∈ state.1 then state else (neighbour :: state.1, neighbour :: state.2)

/-- Pops nodes from the frontier until it is empty, pushing their unseen neighbours. -/
def explore : Nat → List α → List α → List α
  | 0, seen, _ => seen
  | _ + 1, seen, [] => seen
  | fuel + 1, seen, next :: frontier =>
    explore fuel ((step next).foldl push (seen, frontier)).1 ((step next).foldl push (seen, frontier)).2

/-- Pops nodes from the stack until it is empty, skipping those seen and pushing all neighbours of the others. -/
def drain : Nat → List α → List α → List α
  | 0, seen, _ => seen
  | _ + 1, seen, [] => seen
  | fuel + 1, seen, next :: stack =>
    if next ∈ seen then drain fuel seen stack else drain fuel (next :: seen) ((step next).reverse ++ stack)

section Push

section

variable (neighbours : List α) (state : List α × List α)
include neighbours state

theorem mem_push_seen (x : α) :
    x ∈ (neighbours.foldl push state).1 ↔ x ∈ state.1 ∨ x ∈ neighbours := by
  induction neighbours generalizing state with
  | nil => simp
  | cons neighbour neighbours ih =>
    rw [foldl_cons, ih, mem_cons]
    by_cases known : neighbour ∈ state.1
    · have same : push state neighbour = state := if_pos known
      rw [same]
      constructor
      · rintro (old | later)
        · exact .inl old
        · exact .inr (.inr later)
      · rintro (old | rfl | later)
        · exact .inl old
        · exact .inl known
        · exact .inr later
    · have grown : (push state neighbour).1 = neighbour :: state.1 := by
        unfold push
        rw [if_neg known]
      rw [grown, mem_cons]
      tauto

theorem mem_push_frontier (x : α) :
    x ∈ (neighbours.foldl push state).2 ↔ x ∈ state.2 ∨ (x ∈ neighbours ∧ x ∉ state.1) := by
  induction neighbours generalizing state with
  | nil => simp
  | cons neighbour neighbours ih =>
    rw [foldl_cons, ih, mem_cons]
    by_cases known : neighbour ∈ state.1
    · have same : push state neighbour = state := if_pos known
      rw [same]
      constructor
      · rintro (old | ⟨later, fresh⟩)
        · exact .inl old
        · exact .inr ⟨.inr later, fresh⟩
      · rintro (old | ⟨rfl | later, fresh⟩)
        · exact .inl old
        · exact absurd known fresh
        · exact .inr ⟨later, fresh⟩
    · have grown : push state neighbour = (neighbour :: state.1, neighbour :: state.2) := if_neg known
      rw [grown]
      simp only [mem_cons]
      by_cases own : x = neighbour
      · subst own
        simp [known]
      · simp [own]

theorem push_lengths :
    (neighbours.foldl push state).2.length + state.1.length =
      state.2.length + (neighbours.foldl push state).1.length := by
  induction neighbours generalizing state with
  | nil => simp only [foldl_nil]
  | cons neighbour neighbours ih =>
    rw [foldl_cons]
    have rest := ih (push state neighbour)
    by_cases known : neighbour ∈ state.1
    · have same : push state neighbour = state := if_pos known
      rw [same] at rest ⊢
      exact rest
    · have grown : push state neighbour = (neighbour :: state.1, neighbour :: state.2) := if_neg known
      rw [grown] at rest ⊢
      simp only [length_cons] at rest ⊢
      omega

theorem push_nodup (distinct : state.1.Nodup) :
    (neighbours.foldl push state).1.Nodup := by
  induction neighbours generalizing state with
  | nil => exact distinct
  | cons neighbour neighbours ih =>
    rw [foldl_cons]
    apply ih
    unfold push
    split
    · exact distinct
    · next fresh => exact nodup_cons.mpr ⟨fresh, distinct⟩

end

end Push

section Explore

theorem seen_explore (fuel : Nat) (seen frontier : List α) (x : α) (member : x ∈ seen) :
    x ∈ explore step fuel seen frontier := by
  induction fuel generalizing seen frontier with
  | zero => exact member
  | succ fuel ih =>
    cases frontier with
    | nil => exact member
    | cons next frontier => exact ih _ _ ((mem_push_seen _ _ x).mpr (.inl member))

theorem explore_sound (start : α) (fuel : Nat) (seen frontier : List α)
    (reached : ∀ x ∈ seen, Relation.ReflTransGen (Arrow step) start x) (known : ∀ x ∈ frontier, x ∈ seen)
    (x : α) (member : x ∈ explore step fuel seen frontier) : Relation.ReflTransGen (Arrow step) start x := by
  induction fuel generalizing seen frontier with
  | zero => exact reached x member
  | succ fuel ih =>
    cases frontier with
    | nil => exact reached x member
    | cons next frontier =>
      refine ih _ _ ?_ ?_ member
      · intro y found
        rcases (mem_push_seen _ _ y).mp found with old | neighbour
        · exact reached y old
        · exact (reached next (known next mem_cons_self)).tail neighbour
      · intro y pending
        apply (mem_push_seen _ _ y).mpr
        rcases (mem_push_frontier _ _ y).mp pending with old | ⟨neighbour, -⟩
        · exact .inl (known y (mem_cons_of_mem next old))
        · exact .inr neighbour

/-- With fuel for every node that may still be pushed, all successors of what is found are found. -/
theorem explore_closed (domain : Finset α) (inside : ∀ a, ∀ b ∈ step a, b ∈ domain) (fuel : Nat)
    (seen frontier : List α) (distinct : seen.Nodup) (bounded : ∀ x ∈ seen, x ∈ domain)
    (enough : domain.card + frontier.length < fuel + seen.length + 1)
    (closed : ∀ x ∈ seen, x ∈ frontier ∨ ∀ y ∈ step x, y ∈ seen) :
    ∀ x ∈ explore step fuel seen frontier, ∀ y ∈ step x, y ∈ explore step fuel seen frontier := by
  induction fuel generalizing seen frontier with
  | zero =>
    have small : seen.length ≤ domain.card := by
      rw [← toFinset_card_of_nodup distinct]
      exact Finset.card_le_card fun x member => bounded x (mem_toFinset.mp member)
    have drained : frontier = [] := length_eq_zero_iff.mp (by omega)
    subst drained
    intro x member y neighbour
    rcases closed x member with pending | done
    · exact absurd pending not_mem_nil
    · exact done y neighbour
  | succ fuel ih =>
    cases frontier with
    | nil =>
      intro x member y neighbour
      rcases closed x member with pending | done
      · exact absurd pending not_mem_nil
      · exact done y neighbour
    | cons next frontier =>
      refine ih _ _ (push_nodup _ _ distinct) ?_ ?_ ?_
      · intro x found
        rcases (mem_push_seen _ _ x).mp found with old | neighbour
        · exact bounded x old
        · exact inside next x neighbour
      · have lengths := push_lengths (step next) (seen, frontier)
        simp only [length_cons] at enough lengths
        omega
      · intro x found
        have settled : ∀ y ∈ seen, (y ∈ frontier ∨ ∀ z ∈ step y, z ∈ seen) ∨ y = next := by
          intro y old
          rcases closed y old with pending | done
          · rcases mem_cons.mp pending with own | later
            · exact .inr own
            · exact .inl (.inl later)
          · exact .inl (.inr done)
        by_cases old : x ∈ seen
        · rcases settled x old with (pending | done) | rfl
          · exact .inl ((mem_push_frontier _ _ x).mpr (.inl pending))
          · exact .inr fun y neighbour => (mem_push_seen _ _ y).mpr (.inl (done y neighbour))
          · exact .inr fun y neighbour => (mem_push_seen _ _ y).mpr (.inr neighbour)
        · rcases (mem_push_seen _ _ x).mp found with seenBefore | neighbour
          · exact absurd seenBefore old
          · exact .inl ((mem_push_frontier _ _ x).mpr (.inr ⟨neighbour, old⟩))

theorem mem_explore_iff (domain : Finset α) (inside : ∀ a, ∀ b ∈ step a, b ∈ domain) (start : α)
    (fuel : Nat) (enough : domain.card < fuel) (x : α) :
    x ∈ explore step fuel [start] [start] ↔ Relation.ReflTransGen (Arrow step) start x := by
  constructor
  · intro member
    refine explore_sound step start fuel [start] [start] ?_ (fun y pending => pending) x member
    intro y found
    rw [mem_singleton.mp found]
  · intro reached
    have closed : ∀ x ∈ explore step fuel [start] [start], ∀ y ∈ step x, y ∈ explore step fuel [start] [start] := by
      refine explore_closed step (insert start domain) ?_ fuel [start] [start] (nodup_singleton start) ?_ ?_ ?_
      · intro a b neighbour
        exact Finset.mem_insert_of_mem (inside a b neighbour)
      · intro y found
        rw [mem_singleton.mp found]
        exact Finset.mem_insert_self start domain
      · have card := Finset.card_insert_le start domain
        simp only [length_singleton]
        omega
      · intro y found
        exact .inl found
    induction reached with
    | refl => exact seen_explore step fuel _ _ start (mem_singleton_self start)
    | tail _ arrow ih => exact closed _ ih _ arrow

end Explore

section Drain

theorem seen_drain (fuel : Nat) (seen stack : List α) (x : α) (member : x ∈ seen) :
    x ∈ drain step fuel seen stack := by
  induction fuel generalizing seen stack with
  | zero => exact member
  | succ fuel ih =>
    cases stack with
    | nil => exact member
    | cons next stack =>
      simp only [drain]
      split
      · exact ih seen stack member
      · exact ih _ _ (mem_cons_of_mem next member)

theorem drain_sound (holds : α → Prop) (passes : ∀ a, holds a → ∀ b ∈ step a, holds b) (fuel : Nat)
    (seen stack : List α) (old : ∀ x ∈ seen, holds x) (pending : ∀ x ∈ stack, holds x) :
    ∀ x ∈ drain step fuel seen stack, holds x := by
  induction fuel generalizing seen stack with
  | zero => exact old
  | succ fuel ih =>
    cases stack with
    | nil => exact old
    | cons next stack =>
      have own := pending next mem_cons_self
      have rest : ∀ x ∈ stack, holds x := (forall_mem_cons.mp pending).2
      simp only [drain]
      split
      · exact ih seen stack old rest
      · refine ih _ _ ?_ ?_
        · exact forall_mem_cons.mpr ⟨own, old⟩
        · exact forall_mem_append.mpr ⟨fun x neighbour => passes next own x (mem_reverse.mp neighbour), rest⟩

/-- With fuel for the stack and for every edge that may still be pushed, the stack and all successors of what
is found are found. -/
theorem drain_closed (domain : Finset α) (inside : ∀ a, ∀ b ∈ step a, b ∈ domain) (fuel : Nat)
    (seen stack : List α) (bounded : ∀ x ∈ stack, x ∈ domain)
    (enough : stack.length + ∑ x ∈ domain with x ∉ seen, (step x).length ≤ fuel)
    (closed : ∀ x ∈ seen, ∀ y ∈ step x, y ∈ seen ∨ y ∈ stack) :
    (∀ x ∈ stack, x ∈ drain step fuel seen stack) ∧
      ∀ x ∈ drain step fuel seen stack, ∀ y ∈ step x, y ∈ drain step fuel seen stack := by
  induction fuel generalizing seen stack with
  | zero =>
    have drained : stack = [] := length_eq_zero_iff.mp (by omega)
    subst drained
    refine ⟨forall_mem_nil _, fun x member y neighbour => ?_⟩
    rcases closed x member y neighbour with found | pending
    · exact found
    · exact absurd pending not_mem_nil
  | succ fuel ih =>
    cases stack with
    | nil =>
      refine ⟨forall_mem_nil _, fun x member y neighbour => ?_⟩
      rcases closed x member y neighbour with found | pending
      · exact found
      · exact absurd pending not_mem_nil
    | cons next stack =>
      simp only [drain]
      split
      · next known =>
        have rest := ih seen stack (forall_mem_cons.mp bounded).2
          (by simp only [length_cons] at enough; omega) (fun x member y neighbour => by
            rcases closed x member y neighbour with found | pending
            · exact .inl found
            · rcases mem_cons.mp pending with rfl | later
              · exact .inl known
              · exact .inr later)
        refine ⟨fun x member => ?_, rest.2⟩
        rcases mem_cons.mp member with rfl | later
        · exact seen_drain step fuel seen stack x known
        · exact rest.1 x later
      · next fresh =>
        have own := bounded next mem_cons_self
        have split : ∑ x ∈ domain with x ∉ seen, (step x).length =
            (step next).length + ∑ x ∈ domain with x ∉ next :: seen, (step x).length := by
          have grown : (domain.filter fun x => x ∉ seen) = insert next (domain.filter fun x => x ∉ next :: seen) := by
            ext x
            simp only [Finset.mem_filter, Finset.mem_insert, mem_cons]
            by_cases same : x = next
            · subst same
              simp [own, fresh]
            · simp [same]
          rw [grown, Finset.sum_insert (by simp)]
        have rest := ih (next :: seen) ((step next).reverse ++ stack)
          (fun x member => by
            rcases mem_append.mp member with neighbour | later
            · exact inside next x (mem_reverse.mp neighbour)
            · exact bounded x (mem_cons_of_mem next later))
          (by
            simp only [length_cons, length_append, length_reverse] at enough ⊢
            omega)
          (fun x member y neighbour => by
            rcases mem_cons.mp member with rfl | old
            · exact .inr (mem_append_left _ (mem_reverse.mpr neighbour))
            · rcases closed x old y neighbour with found | pending
              · exact .inl (mem_cons_of_mem next found)
              · rcases mem_cons.mp pending with rfl | later
                · exact .inl mem_cons_self
                · exact .inr (mem_append_right _ later))
        refine ⟨fun x member => ?_, rest.2⟩
        rcases mem_cons.mp member with rfl | later
        · exact seen_drain step fuel _ _ x mem_cons_self
        · exact rest.1 x (mem_append_right _ later)

theorem mem_drain_iff (domain : Finset α) (inside : ∀ a, ∀ b ∈ step a, b ∈ domain) (stack : List α)
    (bounded : ∀ x ∈ stack, x ∈ domain) (fuel : Nat)
    (enough : stack.length + ∑ x ∈ domain, (step x).length ≤ fuel) (x : α) :
    x ∈ drain step fuel [] stack ↔ ∃ start ∈ stack, Relation.ReflTransGen (Arrow step) start x := by
  constructor
  · refine drain_sound step (fun x => ∃ start ∈ stack, Relation.ReflTransGen (Arrow step) start x) ?_ fuel [] stack
      (forall_mem_nil _) (fun x member => ⟨x, member, .refl⟩) x
    rintro a ⟨start, member, reached⟩ b neighbour
    exact ⟨start, member, reached.tail neighbour⟩
  · rintro ⟨start, member, reached⟩
    have found := drain_closed step domain inside fuel [] stack bounded (by simpa using enough)
      (forall_mem_nil _)
    induction reached with
    | refl => exact found.1 start member
    | tail _ arrow ih => exact found.2 _ ih _ arrow

end Drain

end Warm.Reachability
