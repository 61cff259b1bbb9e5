import Warm.Bytes
import Warm.Calendar
import Mathlib.Data.List.DropRight
import Mathlib.Data.Rat.Defs
import Mathlib.Algebra.Order.Ring.Rat
import Mathlib.Algebra.Order.Field.Basic
import Mathlib.Tactic.Positivity

/-! RFC 3339 date-times with upper case letters: their texts, the instants they name, and the order
of instants read off whole seconds and the digits of a fraction. -/
namespace Warm.Rfc3339

open List

def digit (byte : UInt8) : Bool := 48 ≤ byte ∧ byte ≤ 57

def digitByte (n : Nat) : UInt8 := UInt8.ofNat (48 + n % 10)

def twoDigits (n : Nat) : Bytes := [digitByte (n / 10), digitByte n]

def fourDigits (n : Nat) : Bytes := [digitByte (n / 1000), digitByte (n / 100), digitByte (n / 10), digitByte n]

/-- The number a text of digits stands for. -/
def decimal (digits : Bytes) : Nat := digits.foldl (fun value byte => value * 10 + (byte.toNat - 48)) 0

/-- The part of a second that the digits after the point stand for. -/
def fractionValue : Bytes → ℚ
  | [] => 0
  | byte :: rest => ((byte.toNat - 48 : Nat) + fractionValue rest) / 10

inductive Offset where
  | utc
  | numeric (east : Bool) (hours minutes : Nat)

namespace Offset

def text : Offset → Bytes
  | utc => [90]
  | numeric east hours minutes => (if east then 43 else 45) :: (twoDigits hours ++ 58 :: twoDigits minutes)

def seconds : Offset → Int
  | utc => 0
  | numeric east hours minutes => (if east then 1 else -1) * (hours * 3600 + minutes * 60)

def AtMost14 : Offset → Prop
  | utc => True
  | numeric _ hours minutes => minutes ≤ 59 ∧ hours * 60 + minutes ≤ 14 * 60

end Offset

structure DateTime where
  date : Date
  hour : Nat
  minute : Nat
  second : Nat
  fraction : Bytes
  offset : Offset

namespace DateTime

/-- The fields are in range: a year of four digits from 1 on, a second up to 59 and an offset of at
most 14 hours. -/
structure Admissible (time : DateTime) : Prop where
  year_pos : 1 ≤ time.date.year
  year_le : time.date.year ≤ 9999
  hour : time.hour ≤ 23
  minute : time.minute ≤ 59
  second : time.second ≤ 59
  fraction : ∀ byte ∈ time.fraction, digit byte = true
  offset : time.offset.AtMost14

def dateText (year month day hour minute second : Nat) : Bytes :=
  fourDigits year ++ 45 :: (twoDigits month ++ 45 :: (twoDigits day ++ 84 :: (twoDigits hour ++ 58 ::
    (twoDigits minute ++ 58 :: twoDigits second))))

/-- What follows the second. -/
def tail (time : DateTime) : Bytes :=
  (if time.fraction = [] then [] else 46 :: time.fraction) ++ time.offset.text

def text (time : DateTime) : Bytes :=
  dateText time.date.year time.date.month time.date.day time.hour time.minute time.second ++ time.tail

def seconds (time : DateTime) : Int :=
  time.date.number * 86400 + time.hour * 3600 + time.minute * 60 + time.second - time.offset.seconds

def instant (time : DateTime) : ℚ := time.seconds + fractionValue time.fraction

end DateTime

/-! ### Digits -/

theorem digit_digitByte (n : Nat) : digit (digitByte n) = true := by
  have each : ∀ k < 10, digit (UInt8.ofNat (48 + k)) = true := by decide
  exact each _ (Nat.mod_lt n (by decide))

theorem toNat_digitByte (n : Nat) : (digitByte n).toNat = 48 + n % 10 := by
  have each : ∀ k < 10, (UInt8.ofNat (48 + k)).toNat = 48 + k := by decide
  exact each _ (Nat.mod_lt n (by decide))

theorem digit_iff : digit byte = true ↔ 48 ≤ byte.toNat ∧ byte.toNat ≤ 57 := by
  simp [digit, UInt8.le_iff_toNat_le]

theorem eq_digitByte (isDigit : digit byte = true) (value : n % 10 = byte.toNat - 48) : byte = digitByte n := by
  have bounds := digit_iff.mp isDigit
  apply UInt8.toNat_inj.mp
  rw [toNat_digitByte]
  omega

theorem decimal_twoDigits (small : n < 100) : decimal (twoDigits n) = n := by
  simp only [decimal, twoDigits, foldl_cons, foldl_nil, toNat_digitByte]
  omega

theorem decimal_fourDigits (small : n < 10000) : decimal (fourDigits n) = n := by
  simp only [decimal, fourDigits, foldl_cons, foldl_nil, toNat_digitByte]
  omega

theorem twoDigits_decimal (digits : digit a = true ∧ digit b = true) :
    twoDigits (decimal [a, b]) = [a, b] ∧ decimal [a, b] < 100 := by
  have boundsA := digit_iff.mp digits.1
  have boundsB := digit_iff.mp digits.2
  simp only [decimal, foldl_cons, foldl_nil]
  refine ⟨?_, by omega⟩
  unfold twoDigits
  rw [← eq_digitByte digits.1 (by omega), ← eq_digitByte digits.2 (by omega)]

theorem fourDigits_decimal (digits : digit a = true ∧ digit b = true ∧ digit c = true ∧ digit d = true) :
    fourDigits (decimal [a, b, c, d]) = [a, b, c, d] ∧ decimal [a, b, c, d] < 10000 := by
  obtain ⟨first, second, third, fourth⟩ := digits
  have boundsA := digit_iff.mp first
  have boundsB := digit_iff.mp second
  have boundsC := digit_iff.mp third
  have boundsD := digit_iff.mp fourth
  simp only [decimal, foldl_cons, foldl_nil]
  refine ⟨?_, by omega⟩
  unfold fourDigits
  rw [← eq_digitByte first (by omega), ← eq_digitByte second (by omega), ← eq_digitByte third (by omega),
    ← eq_digitByte fourth (by omega)]

/-! ### Fractions -/

def Trimmed (digits : Bytes) : Prop := digits.getLast? ≠ some 48

theorem trimmed_rdropWhile (digits : Bytes) : Trimmed (digits.rdropWhile (· == 48)) := by
  intro zero
  by_cases empty : digits.rdropWhile (· == 48) = []
  · simp [empty] at zero
  · rw [getLast?_eq_some_getLast empty, Option.some.injEq] at zero
    have kept := rdropWhile_last_not (· == 48) digits empty
    simp [zero] at kept

theorem Trimmed.tail {byte : UInt8} {digits : Bytes} (trimmed : Trimmed (byte :: digits)) : Trimmed digits := by
  cases digits with
  | nil => simp [Trimmed]
  | cons next rest => simpa [Trimmed, getLast?_cons_cons] using trimmed

theorem fractionValue_nonneg (digits : Bytes) : 0 ≤ fractionValue digits := by
  induction digits with
  | nil => exact le_rfl
  | cons byte rest ih =>
    unfold fractionValue
    positivity

theorem fractionValue_lt_one (all : ∀ byte ∈ digits, digit byte = true) : fractionValue digits < 1 := by
  induction digits with
  | nil => exact zero_lt_one
  | cons byte rest ih =>
    have below := ih (forall_mem_cons.mp all).2
    have bounds := digit_iff.mp (all byte (mem_cons_self ..))
    have top : ((byte.toNat - 48 : Nat) : ℚ) ≤ 9 := by exact_mod_cast (show byte.toNat - 48 ≤ 9 by omega)
    unfold fractionValue
    rw [div_lt_one (by norm_num)]
    linarith

theorem fractionValue_append_zero (digits : Bytes) : fractionValue (digits ++ [48]) = fractionValue digits := by
  induction digits with
  | nil => simp [fractionValue]
  | cons byte rest ih => rw [cons_append, fractionValue, ih, fractionValue]

theorem fractionValue_rdropWhile (digits : Bytes) :
    fractionValue (digits.rdropWhile (· == 48)) = fractionValue digits := by
  induction digits using List.reverseRecOn with
  | nil => rfl
  | append_singleton digits byte ih =>
    by_cases zero : byte = 48
    · subst zero
      rw [rdropWhile_concat_pos _ _ _ (by simp), ih, fractionValue_append_zero]
    · rw [rdropWhile_concat_neg _ _ _ (by simpa using zero)]

theorem fractionValue_pos (all : ∀ byte ∈ digits, digit byte = true) (trimmed : Trimmed digits) (some_ : digits ≠ []) :
    0 < fractionValue digits := by
  induction digits with
  | nil => exact absurd rfl some_
  | cons byte rest ih =>
    unfold fractionValue
    cases rest with
    | nil =>
      have bounds := digit_iff.mp (all byte (mem_cons_self ..))
      have nonzero : byte.toNat ≠ 48 := fun zero => trimmed (by simp [← UInt8.toNat_inj, zero])
      have positive : (0 : ℚ) < (byte.toNat - 48 : Nat) := by exact_mod_cast (show 0 < byte.toNat - 48 by omega)
      simp only [fractionValue, add_zero]
      positivity
    | cons next rest =>
      have rest := ih (forall_mem_cons.mp all).2 trimmed.tail (by simp)
      positivity

theorem lt_iff_fractionValue (allA : ∀ byte ∈ a, digit byte = true) (allB : ∀ byte ∈ b, digit byte = true)
    (trimmedA : Trimmed a) (trimmedB : Trimmed b) : a < b ↔ fractionValue a < fractionValue b := by
  induction a generalizing b with
  | nil =>
    cases b with
    | nil => simp
    | cons y bs => simpa [fractionValue] using fractionValue_pos allB trimmedB (by simp)
  | cons x as ih =>
    cases b with
    | nil => simpa [fractionValue] using fractionValue_nonneg (x :: as)
    | cons y bs =>
      have restA (byte : UInt8) (member : byte ∈ as) := allA byte (mem_cons_of_mem _ member)
      have restB (byte : UInt8) (member : byte ∈ bs) := allB byte (mem_cons_of_mem _ member)
      have boundsX := digit_iff.mp (allA x (mem_cons_self ..))
      have boundsY := digit_iff.mp (allB y (mem_cons_self ..))
      have lowA := fractionValue_nonneg as
      have lowB := fractionValue_nonneg bs
      have highA := fractionValue_lt_one restA
      have highB := fractionValue_lt_one restB
      rw [cons_lt_cons_iff, ih restA restB trimmedA.tail trimmedB.tail, fractionValue, fractionValue,
        div_lt_div_iff_of_pos_right (by norm_num), UInt8.lt_iff_toNat_lt]
      rcases lt_trichotomy x.toNat y.toNat with below | same | above
      · have apart : ((x.toNat - 48 : Nat) : ℚ) + 1 ≤ (y.toNat - 48 : Nat) := by
          exact_mod_cast (show x.toNat - 48 + 1 ≤ y.toNat - 48 by omega)
        exact iff_of_true (.inl below) (by linarith)
      · have equal : x = y := UInt8.toNat_inj.mp same
        subst equal
        simp
      · have apart : ((y.toNat - 48 : Nat) : ℚ) + 1 ≤ (x.toNat - 48 : Nat) := by
          exact_mod_cast (show y.toNat - 48 + 1 ≤ x.toNat - 48 by omega)
        have different : x ≠ y := fun same => above.ne (by rw [same])
        exact iff_of_false (by simp [different, above.le]) (by linarith)

theorem instant_le_iff {a b : DateTime} (admissibleA : a.Admissible) (admissibleB : b.Admissible) :
    a.instant ≤ b.instant ↔ a.seconds < b.seconds ∨ a.seconds = b.seconds ∧
      ¬ b.fraction.rdropWhile (· == 48) < a.fraction.rdropWhile (· == 48) := by
  have kept (digits : Bytes) (all : ∀ byte ∈ digits, digit byte = true) :
      ∀ byte ∈ digits.rdropWhile (· == 48), digit byte = true := by
    have front := rdropWhile_prefix (· == 48) digits
    exact fun byte member => all byte (front.subset member)
  rw [lt_iff_fractionValue (kept _ admissibleB.fraction) (kept _ admissibleA.fraction) (trimmed_rdropWhile _)
    (trimmed_rdropWhile _), fractionValue_rdropWhile, fractionValue_rdropWhile]
  have lowA := fractionValue_nonneg a.fraction
  have lowB := fractionValue_nonneg b.fraction
  have highA := fractionValue_lt_one admissibleA.fraction
  have highB := fractionValue_lt_one admissibleB.fraction
  unfold DateTime.instant
  rcases lt_trichotomy a.seconds b.seconds with below | same | above
  · have apart : (a.seconds : ℚ) + 1 ≤ b.seconds := by exact_mod_cast below
    exact iff_of_true (by linarith) (.inl below)
  · simp [same]
  · have apart : (b.seconds : ℚ) + 1 ≤ a.seconds := by exact_mod_cast above
    exact iff_of_false (by linarith) (by omega)

end Warm.Rfc3339
