import Mathlib.Tactic.IntervalCases
import Mathlib.Tactic.Linarith

/-! The proleptic Gregorian calendar: dates, their day numbers counted year by year and month by
month, and the closed form of the count that starts the year in March. -/
namespace Warm

namespace Calendar

def leap (year : Nat) : Bool := year % 4 = 0 ∧ (year % 100 ≠ 0 ∨ year % 400 = 0)

def yearLength (year : Nat) : Nat := if leap year then 366 else 365

def monthLength (year month : Nat) : Nat :=
  match month with
  | 2 => if leap year then 29 else 28
  | 4 | 6 | 9 | 11 => 30
  | _ => 31

def daysBeforeYear : Nat → Nat
  | 0 => 0
  | year + 1 => daysBeforeYear year + yearLength year

def daysBeforeMonth (year : Nat) : Nat → Nat
  | 0 => 0
  | 1 => 0
  | month + 1 => daysBeforeMonth year month + monthLength year month

end Calendar

open Calendar

structure Date where
  year : Nat
  month : Nat
  day : Nat
  month_pos : 1 ≤ month
  month_le : month ≤ 12
  day_pos : 1 ≤ day
  day_le : day ≤ monthLength year month

namespace Date

def ordinal (date : Date) : Nat :=
  daysBeforeYear date.year + daysBeforeMonth date.year date.month + (date.day - 1)

/-- Days since 1 January 1970. -/
def number (date : Date) : Int := (date.ordinal : Int) - daysBeforeYear 1970

@[ext] theorem ext {a b : Date} (year : a.year = b.year) (month : a.month = b.month) (day : a.day = b.day) : a = b := by
  cases a
  cases b
  simp_all

end Date

namespace Calendar

theorem leap_iff (year : Nat) : leap year = true ↔ year % 4 = 0 ∧ (year % 100 ≠ 0 ∨ year % 400 = 0) := by
  simp [leap]

/-- Leap years counted by the three rules. -/
def leaps (year : Nat) : Nat := year / 4 - year / 100 + year / 400

theorem leaps_succ (year : Nat) : leaps (year + 1) = leaps year + if leap (year + 1) then 1 else 0 := by
  have rule := leap_iff (year + 1)
  have fewer : year / 100 ≤ year / 4 := by omega
  unfold leaps
  rw [Nat.succ_div, Nat.succ_div, Nat.succ_div]
  simp only [Nat.dvd_iff_mod_eq_zero]
  by_cases four : (year + 1) % 4 = 0
  · by_cases hundred : (year + 1) % 100 = 0
    · by_cases fourHundred : (year + 1) % 400 = 0
      · simp only [four, hundred, fourHundred, rule.mpr ⟨four, .inr fourHundred⟩, if_true]
        omega
      · have common : leap (year + 1) = false := by simp [leap, hundred, fourHundred]
        simp only [four, hundred, fourHundred, common, if_true, if_false, Bool.false_eq_true]
        omega
    · have fourHundred : (year + 1) % 400 ≠ 0 := by omega
      simp only [four, hundred, fourHundred, rule.mpr ⟨four, .inl hundred⟩, if_true, if_false]
      omega
  · have hundred : (year + 1) % 100 ≠ 0 := by omega
    have fourHundred : (year + 1) % 400 ≠ 0 := by omega
    have common : leap (year + 1) = false := by simp [leap, four]
    simp only [four, hundred, fourHundred, common, if_false, Bool.false_eq_true]
    omega

theorem daysBeforeYear_succ (year : Nat) : daysBeforeYear (year + 1) = 366 + 365 * year + leaps year := by
  induction year with
  | zero => rfl
  | succ year ih =>
    rw [daysBeforeYear, ih, leaps_succ, yearLength]
    split <;> omega

theorem daysBeforeYear_epoch : daysBeforeYear 1970 = 719528 := by
  have closed := daysBeforeYear_succ 1969
  norm_num at closed
  exact closed

theorem daysBeforeMonth_eq (year month : Nat) (low : 1 ≤ month) (high : month ≤ 12) :
    daysBeforeMonth year month =
      if month ≤ 2 then (153 * (month + 9) + 2) / 5 - 306
      else (153 * (month - 3) + 2) / 5 + (if leap year then 60 else 59) := by
  interval_cases month <;> simp [daysBeforeMonth, monthLength] <;> split <;> rfl

def marchDays (year : Nat) : Nat := 365 * year + leaps year

theorem marchDays_succ (year : Nat) :
    marchDays (year + 1) = marchDays year + 365 + if leap (year + 1) then 1 else 0 := by
  unfold marchDays
  rw [leaps_succ]
  omega

theorem monotone_marchDays : Monotone marchDays :=
  monotone_nat_of_le_succ fun year => by rw [marchDays_succ]; omega

theorem marchDays_add_era (year era : Nat) : marchDays (year + 400 * era) = marchDays year + 146097 * era := by
  unfold marchDays leaps
  omega

/-- The day count with years that start in March, where the leap day is the last of its year. -/
def civil (year month day : Nat) : Nat :=
  let y := if month ≤ 2 then year - 1 else year
  let mp := (month + 9) % 12
  marchDays y + ((153 * mp + 2) / 5 + day - 1)

end Calendar

namespace Date

theorem ordinal_eq_civil (date : Date) (year : 1 ≤ date.year) :
    date.ordinal = civil date.year date.month date.day + 60 := by
  obtain ⟨before, same⟩ : ∃ before, date.year = before + 1 := ⟨date.year - 1, by omega⟩
  have low := date.month_pos
  have high := date.month_le
  have first := date.day_pos
  unfold ordinal civil marchDays
  rw [daysBeforeMonth_eq _ _ low high, same, daysBeforeYear_succ]
  dsimp only
  by_cases early : month date ≤ 2
  · rw [if_pos early, if_pos early]
    have shifted : (date.month + 9) % 12 = date.month + 9 := Nat.mod_eq_of_lt (by omega)
    rw [shifted]
    have january : (306 : Nat) ≤ (153 * (date.month + 9) + 2) / 5 := by omega
    rw [Nat.add_sub_cancel]
    omega
  · rw [if_neg early, if_neg early]
    have shifted : (date.month + 9) % 12 = date.month - 3 := by omega
    rw [shifted]
    rw [leaps_succ]
    split <;> omega

theorem number_eq_civil (date : Date) (year : 1 ≤ date.year) :
    date.number = (civil date.year date.month date.day : Int) - 719468 := by
  have shift (count : Nat) : ((count + 60 : Nat) : Int) - (719528 : Nat) = count - 719468 := by omega
  unfold number
  rw [date.ordinal_eq_civil year, daysBeforeYear_epoch, shift]

end Date

namespace Calendar

theorem daysBeforeMonth_succ (year : Nat) (low : 1 ≤ month) :
    daysBeforeMonth year (month + 1) = daysBeforeMonth year month + monthLength year month := by
  obtain ⟨before, rfl⟩ : ∃ before, month = before + 1 := ⟨month - 1, by omega⟩
  rfl

theorem daysBeforeMonth_thirteen (year : Nat) : daysBeforeMonth year 13 = yearLength year := by
  simp only [daysBeforeMonth, monthLength, yearLength]
  split <;> rfl

theorem monotone_daysBeforeYear : Monotone daysBeforeYear :=
  monotone_nat_of_le_succ fun year => Nat.le_add_right (daysBeforeYear year) (yearLength year)

theorem daysBeforeMonth_le (year : Nat) (low : 1 ≤ a) (le : a ≤ b) :
    daysBeforeMonth year a ≤ daysBeforeMonth year b := by
  induction b, le using Nat.le_induction with
  | base => rfl
  | succ b le ih =>
    rw [daysBeforeMonth_succ year (by omega)]
    omega

end Calendar

namespace Date

theorem ordinal_lt (date : Date) : date.ordinal < daysBeforeYear (date.year + 1) := by
  have low := date.month_pos
  have inMonth : daysBeforeMonth date.year date.month + (date.day - 1) < daysBeforeMonth date.year (date.month + 1) := by
    have last := date.day_le
    have first := date.day_pos
    rw [daysBeforeMonth_succ _ low]
    omega
  have inYear := daysBeforeMonth_le date.year (a := date.month + 1) (b := 13) (by omega) (by have := date.month_le; omega)
  rw [daysBeforeMonth_thirteen] at inYear
  unfold ordinal
  rw [daysBeforeYear]
  omega

theorem ordinal_lt_of_year {a b : Date} (before : a.year < b.year) : a.ordinal < b.ordinal := by
  calc a.ordinal < daysBeforeYear (a.year + 1) := a.ordinal_lt
    _ ≤ daysBeforeYear b.year := monotone_daysBeforeYear before
    _ ≤ b.ordinal := by unfold ordinal; omega

theorem ordinal_lt_of_month {a b : Date} (year : a.year = b.year) (before : a.month < b.month) :
    a.ordinal < b.ordinal := by
  have inMonth : daysBeforeMonth a.year a.month + (a.day - 1) < daysBeforeMonth a.year (a.month + 1) := by
    have last := a.day_le
    have first := a.day_pos
    rw [daysBeforeMonth_succ _ a.month_pos]
    omega
  have later := daysBeforeMonth_le a.year (a := a.month + 1) (b := b.month) (by omega) before
  unfold ordinal
  rw [← year]
  omega

theorem number_injective {a b : Date} (same : a.number = b.number) : a = b := by
  have ordinal : a.ordinal = b.ordinal := by
    unfold number at same
    exact Int.ofNat.inj (add_right_cancel (b := -(daysBeforeYear 1970 : Int)) same)
  have year : a.year = b.year := by
    rcases lt_trichotomy a.year b.year with before | same | after
    · exact absurd ordinal (ordinal_lt_of_year before).ne
    · exact same
    · exact absurd ordinal (ordinal_lt_of_year after).ne'
  have month : a.month = b.month := by
    rcases lt_trichotomy a.month b.month with before | same | after
    · exact absurd ordinal (ordinal_lt_of_month year before).ne
    · exact same
    · exact absurd ordinal (ordinal_lt_of_month year.symm after).ne'
  have day : a.day = b.day := by
    have firstA := a.day_pos
    have firstB := b.day_pos
    unfold Date.ordinal at ordinal
    rw [year, month] at ordinal
    omega
  exact Date.ext year month day

end Date

namespace Calendar

/-- The year of an era of 400 years that a day of the era falls in. -/
def eraYear (doe : Nat) : Nat := (doe - doe / 1460 + doe / 36524 - doe / 146096) / 365

theorem eraYear_bounds : ∀ yoe < 400, eraYear (marchDays yoe) = yoe ∧ eraYear (marchDays (yoe + 1) - 1) = yoe := by
  decide +kernel

theorem eraYear_mono (le : a ≤ b) (inside : b < 146096) : eraYear a ≤ eraYear b := by
  unfold eraYear
  have early (day : Nat) (before : day < 146096) : day / 146096 = 0 := Nat.div_eq_of_lt before
  rw [early a (by omega), early b inside]
  exact Nat.div_le_div_right (by omega)

theorem eraYear_eq (year : yoe < 400) (starts : marchDays yoe ≤ doe) (ends : doe < marchDays (yoe + 1)) :
    eraYear doe = yoe := by
  have room : marchDays (yoe + 1) ≤ 146097 := monotone_marchDays (show yoe + 1 ≤ 400 by omega)
  obtain ⟨first, last⟩ := eraYear_bounds yoe year
  by_cases final : doe = 146096
  · have own : marchDays (yoe + 1) - 1 = doe := by omega
    rw [own] at last
    exact last
  · have low := eraYear_mono starts (by omega)
    by_cases edge : marchDays (yoe + 1) = 146097
    · have full : yoe = 399 := by
        by_contra early
        have below := monotone_marchDays (show yoe + 1 ≤ 399 by omega)
        have known : marchDays 399 = 145731 := rfl
        omega
      have top := eraYear_mono (a := doe) (b := 146095) (by omega) (by omega)
      have known : eraYear 146095 = 399 := rfl
      omega
    · have high := eraYear_mono (a := doe) (b := marchDays (yoe + 1) - 1) (by omega) (by omega)
      omega

theorem exists_eraYear (inside : doe < 146097) : ∃ yoe < 400, marchDays yoe ≤ doe ∧ doe < marchDays (yoe + 1) := by
  have reached (years : Nat) : doe < marchDays years → ∃ yoe < years, marchDays yoe ≤ doe ∧ doe < marchDays (yoe + 1) := by
    induction years with
    | zero => exact fun none => absurd none (Nat.not_lt_zero _)
    | succ years ih =>
      intro before
      by_cases earlier : doe < marchDays years
      · obtain ⟨yoe, below, bounds⟩ := ih earlier
        exact ⟨yoe, by omega, bounds⟩
      · exact ⟨years, by omega, by omega, before⟩
  exact reached 400 inside

theorem civil_lt (small : year < 10000) (two : day < 100) : civil year month day < 4000000 := by
  have known : marchDays 9999 = 3652059 := rfl
  have twelve : (month + 9) % 12 < 12 := Nat.mod_lt _ (by decide)
  have before : marchDays (if month ≤ 2 then year - 1 else year) ≤ marchDays 9999 :=
    monotone_marchDays (by split <;> omega)
  unfold civil
  dsimp only
  omega

theorem march_month (inside : doy ≤ 365) (quotient : mp = (5 * doy + 2) / 153) :
    mp ≤ 11 ∧ (153 * mp + 2) / 5 ≤ doy ∧ doy < (153 * (mp + 1) + 2) / 5 := by
  omega

theorem monthLength_le (year month : Nat) : monthLength year month ≤ 31 := by
  unfold monthLength
  split
  · split <;> omega
  all_goals omega

theorem march_length (year : Nat) (before : mp < 10) :
    (153 * (mp + 1) + 2) / 5 = (153 * mp + 2) / 5 + monthLength year (mp + 3) := by
  interval_cases mp <;> rfl

/-- The year, month and day of a count of days from 1 March of year 0. -/
def ofCivil (z : Nat) : Nat × Nat × Nat :=
  let era := z / 146097
  let doe := z - era * 146097
  let yoe := eraYear doe
  let y := yoe + era * 400
  let doy := doe - (365 * yoe + yoe / 4 - yoe / 100)
  let mp := (5 * doy + 2) / 153
  let d := doy - (153 * mp + 2) / 5 + 1
  let m := if mp < 10 then mp + 3 else mp - 9
  (if m ≤ 2 then y + 1 else y, m, d)

theorem exists_date (short : doy ≤ 365) (leapLast : doy = 365 → leap (y + 1) = true)
    (quotient : mp = (5 * doy + 2) / 153) :
    ∃ date : Date, date.year = (if (if mp < 10 then mp + 3 else mp - 9) ≤ 2 then y + 1 else y) ∧
      date.month = (if mp < 10 then mp + 3 else mp - 9) ∧ date.day = doy - (153 * mp + 2) / 5 + 1 ∧
      civil date.year date.month date.day = marchDays y + doy := by
  obtain ⟨low, first, last⟩ := march_month short quotient
  by_cases before : mp < 10
  · simp only [if_pos before, if_neg (show ¬ mp + 3 ≤ 2 by omega)]
    refine ⟨⟨y, mp + 3, doy - (153 * mp + 2) / 5 + 1, by omega, by omega, by omega, ?_⟩, rfl, rfl, rfl, ?_⟩
    · have length := march_length y before
      omega
    · have month : (mp + 3 + 9) % 12 = mp := by omega
      unfold civil
      simp only [if_neg (show ¬ mp + 3 ≤ 2 by omega), month]
      omega
  · simp only [if_neg before, if_pos (show mp - 9 ≤ 2 by omega)]
    refine ⟨⟨y + 1, mp - 9, doy - (153 * mp + 2) / 5 + 1, by omega, by omega, by omega, ?_⟩, rfl, rfl, rfl, ?_⟩
    · by_cases january : mp = 10
      · subst january
        simp only [monthLength]
        omega
      · have february : mp = 11 := by omega
        subst february
        simp only [monthLength]
        split
        · omega
        · rename_i common
          have notLast : doy ≠ 365 := fun final => common (leapLast final)
          omega
    · have month : (mp - 9 + 9) % 12 = mp := by omega
      unfold civil
      simp only [if_pos (show mp - 9 ≤ 2 by omega), month, Nat.add_sub_cancel]
      omega

theorem ofCivil_spec (z : Nat) :
    ∃ date : Date, ofCivil z = (date.year, date.month, date.day) ∧ civil date.year date.month date.day = z := by
  have inside : z - z / 146097 * 146097 < 146097 := by omega
  obtain ⟨yoe, year, starts, ends⟩ := exists_eraYear inside
  have found := eraYear_eq year starts ends
  have era : marchDays yoe = 365 * yoe + yoe / 4 - yoe / 100 := by unfold marchDays leaps; omega
  have length := marchDays_succ yoe
  obtain ⟨doy, same⟩ : ∃ doy, z - z / 146097 * 146097 - marchDays yoe = doy := ⟨_, rfl⟩
  have leapLast : doy = 365 → leap (yoe + z / 146097 * 400 + 1) = true := by
    intro final
    have rule := leap_iff (yoe + 1)
    split at length
    · rename_i isLeap
      rw [rule] at isLeap
      rw [leap_iff]
      omega
    · omega
  obtain ⟨date, dateYear, dateMonth, dateDay, count⟩ :=
    exists_date (y := yoe + z / 146097 * 400) (by split at length <;> omega) leapLast rfl
  refine ⟨date, ?_, ?_⟩
  · rw [dateYear, dateMonth, dateDay]
    unfold ofCivil
    dsimp only
    rw [found, ← era, same]
  · rw [count, Nat.mul_comm _ 400, marchDays_add_era]
    omega

end Calendar

end Warm
