import Mathlib.Data.List.Basic

/-! Programs over a state that a failure leaves as it is at that moment: what a program leads to from the states of a
condition, in its result and in its failure. -/
namespace Warm.Panics

variable {ε σ α β γ : Type}

/-- From a state of `before` the program ends in a result of `after` or fails in a state of `failed`. -/
def Leads (before : σ → Prop) (program : EStateM ε σ α) (after : α → σ → Prop) (failed : σ → Prop) : Prop :=
  ∀ state, before state → match program state with
    | .ok value left => after value left
    | .error _ left => failed left

/-- The state a program leaves, whether it returns or fails. -/
def left (program : EStateM ε σ α) (state : σ) : σ :=
  match program state with
  | .ok _ left => left
  | .error _ left => left

def result (program : EStateM ε σ α) (state : σ) : Option α :=
  match program state with
  | .ok value _ => some value
  | .error _ _ => none

namespace Leads

variable {before : σ → Prop} {after : α → σ → Prop} {failed : σ → Prop}

theorem pure (holds : ∀ state, before state → after value state) :
    Leads before (Pure.pure value : EStateM ε σ α) after failed :=
  holds

theorem throw (holds : ∀ state, before state → failed state) :
    Leads before (throw error : EStateM ε σ α) after failed :=
  holds

theorem modify {after : Unit → σ → Prop} (holds : ∀ state, before state → after () (change state)) :
    Leads before (modify change : EStateM ε σ Unit) after failed :=
  holds

theorem bind {rest : α → EStateM ε σ β} {M : α → σ → Prop} {after : β → σ → Prop}
    (first : Leads before program M failed) (second : ∀ value, Leads (M value) (rest value) after failed) :
    Leads before (program >>= rest) after failed := by
  intro state held
  have step := first state held
  change match EStateM.bind program rest state with
    | .ok value left => after value left
    | .error _ left => failed left
  unfold EStateM.bind
  cases run : program state with
  | ok value next =>
    rw [run] at step
    exact second value next step
  | error error next =>
    rw [run] at step
    exact step

theorem mono (leads : Leads before program after failed) (enters : ∀ state, before' state → before state)
    (returns : ∀ value state, after value state → after' value state) (fails : ∀ state, failed state → failed' state) :
    Leads before' program after' failed' := by
  intro state held
  have step := leads state (enters state held)
  cases run : program state with
  | ok value next =>
    rw [run] at step
    exact returns value next step
  | error error next =>
    rw [run] at step
    exact fails next step

theorem both (one : Leads before program after failed) (two : Leads before program after' failed') :
    Leads before program (fun value state => after value state ∧ after' value state)
      (fun state => failed state ∧ failed' state) := by
  intro state held
  have first := one state held
  have second := two state held
  cases run : program state with
  | ok value next | error error next =>
    rw [run] at first second
    exact ⟨first, second⟩

theorem ite [Decidable condition] (yes : condition → Leads before first after failed)
    (no : ¬condition → Leads before second after failed) :
    Leads before (if condition then first else second) after failed := by
  by_cases holds : condition
  · rw [if_pos holds]
    exact yes holds
  · rw [if_neg holds]
    exact no holds

theorem foldlM (held : List β → γ → σ → Prop)
    (round : ∀ done item rest value, items = done ++ item :: rest → Leads (held done value) (step value item) (held (done ++ [item])) failed) :
    Leads (held [] start) (items.foldlM step start) (held items) failed := by
  suffices general : ∀ done rest value, items = done ++ rest →
      Leads (held done value) (rest.foldlM step value) (held items) failed from general [] items start rfl
  intro done rest
  induction rest generalizing done with
  | nil =>
    intro value whole
    rw [List.append_nil] at whole
    rw [whole]
    exact Leads.pure fun _ kept => kept
  | cons item rest ih =>
    intro value whole
    rw [List.foldlM_cons]
    refine Leads.bind (round done item rest value whole) fun next => ?_
    exact ih (done ++ [item]) next (by rw [whole, List.append_assoc, List.singleton_append])

theorem left_of (leads : Leads before program (fun _ => kept) kept) (held : before state) : kept (left program state) := by
  have step := leads state held
  unfold left
  cases run : program state with
  | ok value next | error error next =>
    rw [run] at step
    exact step

theorem returns (leads : Leads before program after fun _ => False) (held : before state) :
    ∃ value next, program state = .ok value next ∧ after value next := by
  have step := leads state held
  cases run : program state with
  | ok value next =>
    rw [run] at step
    exact ⟨value, next, rfl, step⟩
  | error error next =>
    rw [run] at step
    exact step.elim

section Known

variable {state next : σ}

theorem of_known (known : ∀ state, before state → Leads (· = state) program after failed) :
    Leads before program after failed :=
  fun state held => known state held state rfl

theorem known_bind (first : Leads (· = state) program M failed)
    (second : ∀ value next, M value next → Leads (· = next) (rest value) after failed) :
    Leads (· = state) (program >>= rest) after failed :=
  first.bind fun value => of_known fun next reached => second value next reached

theorem get_bind (reads : Leads (· = state) (rest state) after failed) :
    Leads (· = state) (MonadState.get >>= rest) after failed := by
  rintro _ rfl
  exact reads _ rfl

theorem set_bind (writes : Leads (· = next) (rest ⟨⟩) after failed) :
    Leads (· = state) (MonadStateOf.set next >>= rest) after failed :=
  fun _ _ => writes next rfl

theorem modify_bind {change : σ → σ} (changes : Leads (· = change state) (rest ⟨⟩) after failed) :
    Leads (· = state) ((MonadState.modifyGet fun state => (⟨⟩, change state) : EStateM ε σ PUnit) >>= rest) after failed := by
  rintro _ rfl
  exact changes _ rfl

end Known

end Leads

end Warm.Panics
