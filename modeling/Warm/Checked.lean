import Mathlib.Data.List.Forall2
import Mathlib.Tactic.Linarith

/-! Machine integers whose operations are checked: a result outside the type's range is a fault of
its own, apart from the errors a computation returns. -/
namespace Warm

open List

/-- How a computation ends without a value: an operation leaves its type's range, or it returns an
error. -/
inductive Fault where
  | overflow
  | error (message : String)
  deriving DecidableEq, Repr

abbrev Checked (α : Type) := Except Fault α

theorem bind_eq_ok {x : Except ε α} {f : α → Except ε β} {r : β} : x >>= f = .ok r ↔ ∃ a, x = .ok a ∧ f a = .ok r := by
  cases x <;> simp [bind, Except.bind]

theorem mapError_eq_ok {x : Except ε α} {f : ε → ε'} {a : α} : x.mapError f = .ok a ↔ x = .ok a := by
  cases x <;> simp [Except.mapError]

theorem mapM_eq_ok {f : α → Except ε β} {items : List α} {results : List β} :
    items.mapM f = .ok results ↔ List.Forall₂ (fun a b => f a = .ok b) items results := by
  induction items generalizing results with
  | nil => simp [pure, Except.pure, eq_comm]
  | cons item items ih =>
    rw [mapM_cons, bind_eq_ok, forall₂_cons_left_iff]
    constructor
    · rintro ⟨first, own, rest⟩
      obtain ⟨others, mapped, done⟩ := bind_eq_ok.mp rest
      exact ⟨first, others, own, ih.mp mapped, (Except.ok.inj done).symm⟩
    · rintro ⟨first, others, own, mapped, rfl⟩
      exact ⟨first, own, bind_eq_ok.mpr ⟨others, ih.mpr mapped, rfl⟩⟩

theorem exists_mapM_eq_ok {f : α → Except ε β} {items : List α} (each : ∀ a ∈ items, ∃ b, f a = .ok b) :
    ∃ results, items.mapM f = .ok results := by
  induction items with
  | nil => exact ⟨[], rfl⟩
  | cons item items ih =>
    obtain ⟨first, own⟩ := each item mem_cons_self
    obtain ⟨others, rest⟩ := ih (forall_mem_cons.mp each).2
    exact ⟨first :: others, mapM_eq_ok.mpr (.cons own (mapM_eq_ok.mp rest))⟩

theorem mem_left_of_forall₂ (paired : List.Forall₂ R as bs) (member : a ∈ as) : ∃ b ∈ bs, R a b := by
  induction paired with
  | nil => cases member
  | cons own _ ih =>
    rcases mem_cons.mp member with rfl | rest
    · exact ⟨_, mem_cons_self, own⟩
    · obtain ⟨b, given, related⟩ := ih rest
      exact ⟨b, mem_cons_of_mem _ given, related⟩

theorem mem_right_of_forall₂ (paired : List.Forall₂ R as bs) (member : b ∈ bs) : ∃ a ∈ as, R a b :=
  mem_left_of_forall₂ (R := fun b a => R a b) (List.Forall₂.flip paired) member

namespace Checked

/-- A computation that checks no range. -/
def lift {α : Type} : Except String α → Checked α
  | .ok a => .ok a
  | .error message => .error (.error message)

def require (condition : Prop) [Decidable condition] (message : String) : Checked Unit :=
  if condition then .ok () else .error (.error message)

@[simp] theorem lift_ok (a : α) : lift (.ok a : Except String α) = .ok a := rfl

@[simp] theorem lift_error (message : String) : lift (.error message : Except String α) = .error (.error message) := rfl

theorem lift_ne_overflow (x : Except String α) : lift x ≠ .error .overflow := by
  cases x <;> simp [lift]

theorem lift_eq_ok : lift x = .ok a ↔ x = .ok a := by
  cases x <;> simp [lift]

@[simp] theorem ok_bind (a : α) (f : α → Checked β) : ((.ok a : Checked α) >>= f) = f a := rfl

@[simp] theorem error_bind (fault : Fault) (f : α → Checked β) :
    ((.error fault : Checked α) >>= f) = .error fault := rfl

section

variable [Decidable condition]

@[simp] theorem require_eq_ok : require condition message = .ok () ↔ condition := by
  unfold require
  split <;> simp_all

theorem require_bind_eq_ok : (require condition message >>= f) = .ok r ↔ condition ∧ f () = .ok r := by
  by_cases holds : condition <;> simp [require, holds]

theorem require_true (holds : condition) (message : String) :
    require condition message = .ok () :=
  require_eq_ok.mpr holds

theorem require_false (fails : ¬ condition) (message : String) :
    require condition message = .error (.error message) :=
  if_neg fails

end

end Checked

/-! ### Unsigned words -/

namespace U64

def add (a b : Nat) : Checked Nat := if a + b < 2 ^ 64 then .ok (a + b) else .error .overflow

def sub (a b : Nat) : Checked Nat := if b ≤ a then .ok (a - b) else .error .overflow

def mul (a b : Nat) : Checked Nat := if a * b < 2 ^ 64 then .ok (a * b) else .error .overflow

theorem add_ok (fits : a + b < 2 ^ 64) : add a b = .ok (a + b) := if_pos fits

theorem sub_ok (fits : b ≤ a) : sub a b = .ok (a - b) := if_pos fits

theorem mul_ok (fits : a * b < 2 ^ 64) : mul a b = .ok (a * b) := if_pos fits

theorem add_overflow (past : 2 ^ 64 ≤ a + b) : add a b = .error .overflow := if_neg (by omega)

end U64

/-! ### Signed words -/

namespace I64

def fit (value : Int) : Checked Int :=
  if -2 ^ 63 ≤ value ∧ value < 2 ^ 63 then .ok value else .error .overflow

def add (a b : Int) : Checked Int := fit (a + b)

def sub (a b : Int) : Checked Int := fit (a - b)

def mul (a b : Int) : Checked Int := fit (a * b)

theorem add_ok (low : -2 ^ 63 ≤ a + b) (high : a + b < 2 ^ 63) : add a b = .ok (a + b) :=
  if_pos ⟨low, high⟩

theorem sub_ok (low : -2 ^ 63 ≤ a - b) (high : a - b < 2 ^ 63) : sub a b = .ok (a - b) :=
  if_pos ⟨low, high⟩

theorem mul_ok (low : -2 ^ 63 ≤ a * b) (high : a * b < 2 ^ 63) : mul a b = .ok (a * b) :=
  if_pos ⟨low, high⟩

end I64

end Warm
