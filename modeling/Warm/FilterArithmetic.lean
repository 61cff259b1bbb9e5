import Mathlib.Data.Int.Lemmas
import Mathlib.Algebra.BigOperators.Group.List.Basic
import Mathlib.Algebra.Order.BigOperators.Group.List
import Mathlib.Data.List.Induction
import Mathlib.Tactic.Linarith
import Mathlib.Tactic.Ring

/-! The integer arithmetic of the filtered index: rows shifted to signed bytes, dot products of the
kernel tiers, and distances from norms. Plain sums are checked, so a sum that leaves its type is a
fault and not a wrong value; the vector instructions wrap around. -/
namespace Warm.Filter

open List

/-- An error of the index, or an overflow, which would be a panic. -/
inductive Fault where
  | invalid (message : String)
  | overflow
  deriving DecidableEq, Repr

def maxDimensions : Nat := 4294967295 / (255 * 255)

def checked (bits : Nat) (x : Int) : Except Fault Int :=
  if -2 ^ (bits - 1) ≤ x ∧ x < 2 ^ (bits - 1) then .ok x else .error .overflow

/-- A sum in a signed type, one term after the other. -/
def sumFrom (bits : Nat) (sum : Int) : List Int → Except Fault Int
  | [] => .ok sum
  | x :: xs =>
    match checked bits (sum + x) with
    | .error e => .error e
    | .ok sum => sumFrom bits sum xs

def sumChecked (bits : Nat) (xs : List Int) : Except Fault Int := sumFrom bits 0 xs

/-- `(v ^ 0x80) as i8`. -/
def shift (v : UInt8) : Int := (v ^^^ 0x80).toInt8.toInt

/-- The wrapping value of an `i32`. -/
def wrap (x : Int) : Int := Int.bmod x (2 ^ 32)

/-- The kernels: the scalar sum, products summed in wrapping lanes, and `vpdpbusd` with the row
biased into the unsigned range and the bias taken off at the end. -/
inductive Tier where
  | scalar
  | lanes
  | biased
  deriving DecidableEq, Repr

def dotI8Query (tier : Tier) (a b : List Int) (qsum : Int) : Except Fault Int :=
  match tier with
  | .scalar => sumChecked 32 (List.zipWith (· * ·) a b)
  | .lanes => .ok ((List.zipWith (· * ·) a b).foldl (fun s x => wrap (s + x)) 0)
  | .biased =>
    let total := (List.zipWith (fun q r => (r + 128) * q) a b).foldl (fun s x => wrap (s + x)) 0
    .ok (wrap (total - wrap (128 * qsum)))

def Octet (x : Int) : Prop := -128 ≤ x ∧ x ≤ 127

def dot (a b : List Int) : Int := (List.zipWith (· * ·) a b).sum

/-- The squared distance of two rows. -/
def squared (a b : List Int) : Int := (List.zipWith (fun q x => (q - x) * (q - x)) a b).sum

theorem shift_eq (v : UInt8) : shift v = (v.toNat : Int) - 128 := by
  have all : ∀ n : Fin 256, shift (UInt8.ofNat n) = ((UInt8.ofNat n).toNat : Int) - 128 := by decide +kernel
  have own := all ⟨v.toNat, v.toNat_lt⟩
  rwa [UInt8.ofNat_toNat] at own

theorem octet_shift (v : UInt8) : Octet (shift v) := by
  have bound := v.toNat_lt
  rw [shift_eq]
  constructor <;> omega

theorem checked_ok (low : -2 ^ (bits - 1) ≤ x) (high : x < 2 ^ (bits - 1)) :
    checked bits x = .ok x := if_pos ⟨low, high⟩

theorem sumFrom_ok (bits : Nat) (limit : Int) (xs : List Int) (each : ∀ x ∈ xs, |x| ≤ limit) (sum : Int)
    (room : |sum| + xs.length * limit < 2 ^ (bits - 1)) : sumFrom bits sum xs = .ok (sum + xs.sum) := by
  induction xs generalizing sum with
  | nil => simp [sumFrom]
  | cons x xs ih =>
    have own := each x mem_cons_self
    have triangle := abs_add_le sum x
    have positive : 0 ≤ limit := (abs_nonneg x).trans own
    have rest : 0 ≤ (xs.length : Int) * limit := by positivity
    rw [length_cons] at room
    push_cast at room
    have next : |sum + x| + xs.length * limit < 2 ^ (bits - 1) := by linarith
    have bound : |sum + x| < 2 ^ (bits - 1) := by linarith
    have fits := abs_lt.mp bound
    rw [sumFrom, checked_ok (le_of_lt fits.1) fits.2]
    dsimp only
    rw [ih (forall_mem_cons.mp each).2 (sum + x) next, sum_cons, add_assoc]

theorem sumChecked_ok (bits : Nat) (limit : Int) (xs : List Int) (each : ∀ x ∈ xs, |x| ≤ limit)
    (room : xs.length * limit < 2 ^ (bits - 1)) : sumChecked bits xs = .ok xs.sum := by
  rw [sumChecked, sumFrom_ok bits limit xs each 0 (by simpa using room), zero_add]

theorem wrap_add_wrap (x y : Int) : wrap (wrap x + y) = wrap (x + y) := Int.bmod_add_bmod ..

theorem wrap_eq (low : -2 ^ 31 ≤ x) (high : x < 2 ^ 31) : wrap x = x := by
  rw [wrap, Int.bmod_eq_of_le (by norm_num; omega) (by norm_num; omega)]

theorem foldl_wrap (xs : List Int) (start : Int) :
    wrap (xs.foldl (fun s x => wrap (s + x)) start) = wrap (start + xs.sum) := by
  induction xs generalizing start with
  | nil => simp
  | cons x xs ih => rw [foldl_cons, ih, wrap_add_wrap, sum_cons, add_assoc]

theorem foldl_wrap_zero (xs : List Int) : xs.foldl (fun s x => wrap (s + x)) 0 = wrap xs.sum := by
  cases xs using List.reverseRecOn with
  | nil => rfl
  | append_singleton xs x =>
    rw [foldl_append, foldl_cons, foldl_nil, ← wrap_add_wrap, foldl_wrap, wrap_add_wrap,
      sum_append]
    simp

/-- Rows and centroids are this wide at most: the largest dimension, rounded up to the kernels' width. -/
def maxStride : Nat := 66064

theorem abs_mul_octet (left : Octet a) (right : Octet b) : |a * b| ≤ 16384 := by
  have first : |a| ≤ 128 := abs_le.mpr ⟨left.1, by linarith [left.2]⟩
  have second : |b| ≤ 128 := abs_le.mpr ⟨right.1, by linarith [right.2]⟩
  calc |a * b| = |a| * |b| := abs_mul a b
    _ ≤ 128 * 128 := mul_le_mul first second (abs_nonneg b) (by norm_num)

theorem mem_products (left : ∀ x ∈ a, Octet x) (right : ∀ x ∈ b, Octet x) :
    ∀ x ∈ List.zipWith (· * ·) a b, |x| ≤ 16384 := by
  induction a generalizing b with
  | nil => simp
  | cons q a ih =>
    cases b with
    | nil => simp
    | cons r b =>
      rw [zipWith_cons_cons]
      intro x member
      rcases mem_cons.mp member with rfl | later
      · exact abs_mul_octet (left q mem_cons_self) (right r mem_cons_self)
      · exact ih (forall_mem_cons.mp left).2
          (forall_mem_cons.mp right).2 x later

theorem abs_sum_le {xs : List Int} (each : ∀ x ∈ xs, |x| ≤ limit) : |xs.sum| ≤ xs.length * limit := by
  induction xs with
  | nil => simp
  | cons x xs ih =>
    have own := each x mem_cons_self
    have rest := ih (forall_mem_cons.mp each).2
    have triangle := abs_add_le x xs.sum
    rw [sum_cons, length_cons]
    push_cast
    linarith

variable {a b : List Int}

theorem products_length (narrow : a.length ≤ maxStride) : ((List.zipWith (· * ·) a b).length : Int) ≤ maxStride := by
  have short : (List.zipWith (· * ·) a b).length ≤ maxStride := by
    rw [length_zipWith]
    omega
  exact_mod_cast short

theorem abs_dot_lt (left : ∀ x ∈ a, Octet x) (right : ∀ x ∈ b, Octet x) (narrow : a.length ≤ maxStride) :
    |dot a b| < 2 ^ 31 := by
  have bound := abs_sum_le (mem_products left right)
  have length := products_length (b := b) narrow
  have : (maxStride : Int) * 16384 < 2 ^ 31 := by decide
  rw [dot]
  linarith

theorem sum_biased (same : a.length = b.length) :
    (List.zipWith (fun q r => (r + 128) * q) a b).sum = dot a b + 128 * a.sum := by
  induction a generalizing b with
  | nil => simp [dot]
  | cons q a ih =>
    obtain ⟨r, b, rfl⟩ := exists_cons_of_length_eq_add_one same.symm
    have rest := ih (b := b) (by simpa using same)
    simp only [dot, zipWith_cons_cons, sum_cons] at rest ⊢
    rw [rest]
    ring

theorem dotI8Query_ok (tier : Tier) (left : ∀ x ∈ a, Octet x) (right : ∀ x ∈ b, Octet x) (same : a.length = b.length)
    (narrow : a.length ≤ maxStride) : dotI8Query tier a b a.sum = .ok (dot a b) := by
  have range := abs_lt.mp (abs_dot_lt left right narrow)
  cases tier with
  | scalar =>
    have length := products_length (b := b) narrow
    have room : (maxStride : Int) * 16384 < 2 ^ (32 - 1) := by decide
    exact sumChecked_ok 32 16384 _ (mem_products left right) (by linarith)
  | lanes =>
    rw [dotI8Query, foldl_wrap_zero]
    exact congrArg Except.ok (wrap_eq (le_of_lt range.1) range.2)
  | biased =>
    have total : wrap (wrap (dot a b + 128 * a.sum) - wrap (128 * a.sum)) = dot a b := by
      have unwrapped : wrap (wrap (dot a b + 128 * a.sum) - wrap (128 * a.sum)) = wrap (dot a b) := by
        simp only [wrap, Int.sub_bmod_bmod, Int.bmod_sub_bmod]
        rw [add_sub_cancel_right]
      rw [unwrapped]
      exact wrap_eq (le_of_lt range.1) range.2
    simp only [dotI8Query, foldl_wrap_zero, sum_biased same]
    exact congrArg Except.ok total

theorem squared_eq (same : a.length = b.length) : squared a b = dot b b - 2 * dot a b + dot a a := by
  induction a generalizing b with
  | nil =>
    obtain rfl := length_eq_zero_iff.mp same.symm
    rfl
  | cons q a ih =>
    obtain ⟨r, b, rfl⟩ := exists_cons_of_length_eq_add_one same.symm
    have rest := ih (b := b) (by simpa using same)
    simp only [squared, dot, zipWith_cons_cons, sum_cons] at rest ⊢
    rw [rest]
    ring

/-- A row as the index keeps it: shifted, and padded with zeros to the kernels' width. -/
def padded (stride : Nat) (row : List UInt8) : List Int :=
  row.map shift ++ List.replicate (stride - row.length) 0

/-- The squared Euclidean distance of two rows of bytes. -/
def distance (q x : List UInt8) : Nat :=
  (List.zipWith (fun (a b : UInt8) => ((a.toNat : Int) - b.toNat).natAbs ^ 2) q x).sum

theorem octet_padded (stride : Nat) (row : List UInt8) : ∀ x ∈ padded stride row, Octet x := by
  intro x member
  rcases mem_append.mp member with shifted | zero
  · obtain ⟨v, -, rfl⟩ := mem_map.mp shifted
    exact octet_shift v
  · rw [eq_of_mem_replicate zero]
    constructor <;> norm_num

theorem padded_length (wide : row.length ≤ stride) : (padded stride row).length = stride := by
  rw [padded, length_append, length_map, length_replicate]
  omega

theorem squared_padded (stride : Nat) (same : q.length = x.length) :
    squared (padded stride q) (padded stride x) = distance q x := by
  have zeros : (List.zipWith (fun q x : Int => (q - x) * (q - x)) (List.replicate (stride - q.length) 0)
      (List.replicate (stride - x.length) 0)).sum = 0 := by
    rw [zipWith_replicate]
    simp
  rw [squared, padded, padded, zipWith_append (by simpa using same), sum_append, zeros, add_zero]
  clear zeros
  induction q generalizing x with
  | nil => simp [distance]
  | cons a q ih =>
    obtain ⟨b, x, rfl⟩ := exists_cons_of_length_eq_add_one same.symm
    have rest := ih (x := x) (by simpa using same)
    simp only [distance, map_cons, zipWith_cons_cons, sum_cons] at rest ⊢
    rw [rest, shift_eq, shift_eq]
    push_cast
    rw [sq_abs]
    ring

theorem distance_le (q x : List UInt8) : distance q x ≤ q.length * 65025 := by
  induction q generalizing x with
  | nil => simp [distance]
  | cons a q ih =>
    cases x with
    | nil => simp [distance]
    | cons b x =>
      have rest := ih x
      have small := a.toNat_lt
      have narrow := b.toNat_lt
      have gap : ((a.toNat : Int) - b.toNat).natAbs ≤ 255 := by omega
      have square : ((a.toNat : Int) - b.toNat).natAbs ^ 2 ≤ 255 ^ 2 := Nat.pow_le_pow_left gap 2
      simp only [distance, zipWith_cons_cons, sum_cons, length_cons] at rest ⊢
      omega

end Warm.Filter
