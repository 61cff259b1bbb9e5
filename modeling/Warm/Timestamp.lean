import Warm.Checked
import Warm.ProvenanceCredential
import Warm.Rfc3339

/-! Timestamps: the parser of credentials with its arithmetic on `i64`, the parser of whole UTC
seconds on `u64`, and the calendar date of a day. -/
namespace Warm.Provenance

open Bytes Binary Rfc3339 List
open Calendar (eraYear leaps marchDays monthLength ofCivil)
open Checked (lift lift_ok ok_bind require)

def daysToYmd (daysSinceEpoch : Nat) : Checked (Nat × Nat × Nat) := do
  let z ← U64.add daysSinceEpoch 719468
  let era := z / 146097
  let doe ← U64.sub z (← U64.mul era 146097)
  let yoe := (← U64.sub (← U64.add (← U64.sub doe (doe / 1460)) (doe / 36524)) (doe / 146096)) / 365
  let y ← U64.add yoe (← U64.mul era 400)
  let doy ← U64.sub doe (← U64.sub (← U64.add (← U64.mul 365 yoe) (yoe / 4)) (yoe / 100))
  let mp := (← U64.add (← U64.mul 5 doy) 2) / 153
  let d ← U64.add (← U64.sub doy ((← U64.add (← U64.mul 153 mp) 2) / 5)) 1
  let m ← if mp < 10 then U64.add mp 3 else U64.sub mp 9
  let y ← if m ≤ 2 then U64.add y 1 else .ok y
  .ok (y, m, d)

/-- The closure `field(range)`: the text is ASCII on both sides of each range, so the slice is whole
characters. -/
def utcField (b : Bytes) (start stop : Nat) : Option Nat :=
  let part := (b.take stop).drop start
  if part.all isAsciiDigit then some (part.foldl (fun value byte => value * 10 + (byte.toNat - 48)) 0) else none

def malformedUtc : String := "timestamp must be YYYY-MM-DDTHH:MM:SSZ"

def utcFields (b : Bytes) : Option (Nat × Nat × Nat × Nat × Nat × Nat) :=
  if b.length = 20 ∧ b.getD 4 0 = 45 ∧ b.getD 7 0 = 45 ∧ b.getD 10 0 = 84 ∧ b.getD 13 0 = 58 ∧ b.getD 16 0 = 58 ∧
      b.getD 19 0 = 90 then do
    some (← utcField b 0 4, ← utcField b 5 7, ← utcField b 8 10, ← utcField b 11 13, ← utcField b 14 16,
      ← utcField b 17 19)
  else none

/-- The year that a month counts to when years start in March. -/
def shiftedYear (year month : Nat) : Checked Nat := if month ≤ 2 then U64.sub year 1 else .ok year

/-- The day count of `parse_iso8601_utc`, taken before the day of the month is checked. -/
def utcDays (year month day : Nat) : Checked Nat := do
  let y ← shiftedYear year month
  let era := y / 400
  let yoe ← U64.sub y (← U64.mul era 400)
  let mp := (← U64.add month 9) % 12
  let doy ← U64.sub (← U64.add ((← U64.add (← U64.mul 153 mp) 2) / 5) day) 1
  let doe ← U64.add (← U64.sub (← U64.add (← U64.mul yoe 365) (yoe / 4)) (yoe / 100)) doy
  U64.sub (← U64.add (← U64.mul era 146097) doe) 719468

/-- `parse_iso8601_utc`: seconds since the epoch. -/
def parseIso8601Utc (value : String) : Checked Nat := do
  let some (year, month, day, hour, minute, second) := utcFields (utf8 value) | .error (.error malformedUtc)
  require (¬ (year < 1970 ∨ ¬ (1 ≤ month ∧ month ≤ 12) ∨ hour > 23 ∨ minute > 59 ∨ second > 59))
    "timestamp field out of range"
  let days ← utcDays year month day
  require (day ≠ 0) "timestamp is not a valid calendar date"
  require ((← daysToYmd days) = (year, month, day)) "timestamp is not a valid calendar date"
  U64.add (← U64.add (← U64.add (← U64.mul days 86400) (← U64.mul hour 3600)) (← U64.mul minute 60)) second

/-- The offset of `parse_datetime_stamp` on `i64`. -/
def stampOffsetI64 (b : Bytes) (pos : Nat) : Checked Int :=
  let tz := b.drop pos
  if tz = [90] then .ok 0
  else if tz.length = 6 ∧ (tz.headD 0 = 43 ∨ tz.headD 0 = 45) ∧ tz.getD 3 0 = 58 then do
    let hours ← lift (stampField b (pos + 1) (pos + 3))
    let minutes ← lift (stampField b (pos + 4) (pos + 6))
    if hours > 14 ∨ minutes > 59 ∨ (hours = 14 ∧ minutes ≠ 0) then .error (.error invalidStamp)
    else I64.mul (if tz.headD 0 = 43 then 1 else -1) (← I64.add (← I64.mul hours 3600) (← I64.mul minutes 60))
  else .error (.error invalidStamp)

/-- The instant of checked fields on `i64`. -/
def stampSeconds (year month day hour minute second offset : Int) : Checked Int := do
  let adjustedYear ← I64.sub year (if month ≤ 2 then 1 else 0)
  let era := adjustedYear.ediv 400
  let yoe ← I64.sub adjustedYear (← I64.mul era 400)
  let mp ← I64.add month (if month > 2 then -3 else 9)
  let doy ← I64.sub (← I64.add ((← I64.add (← I64.mul 153 mp) 2) / 5) day) 1
  let doe ← I64.add (← I64.sub (← I64.add (← I64.mul yoe 365) (yoe / 4)) (yoe / 100)) doy
  let days ← I64.sub (← I64.add (← I64.mul era 146097) doe) 719468
  I64.sub (← I64.add (← I64.add (← I64.add (← I64.mul days 86400) (← I64.mul hour 3600)) (← I64.mul minute 60)) second)
    offset

/-- `parse_datetime_stamp`, each operation on `i64` checked. -/
def parseDatetimeStampI64 (value : String) : Checked (Int × Bytes) := do
  let b := utf8 value
  if b.length < 20 ∨ b.getD 4 0 ≠ 45 ∨ b.getD 7 0 ≠ 45 ∨ b.getD 10 0 ≠ 84 ∨ b.getD 13 0 ≠ 58 ∨ b.getD 16 0 ≠ 58 then
    .error (.error invalidStamp)
  let year ← lift (stampField b 0 4)
  let month ← lift (stampField b 5 7)
  let day ← lift (stampField b 8 10)
  let hour ← lift (stampField b 11 13)
  let minute ← lift (stampField b 14 16)
  let second ← lift (stampField b 17 19)
  let leap : Bool := year % 4 = 0 ∧ (year % 100 ≠ 0 ∨ year % 400 = 0)
  if ¬ (1 ≤ year ∧ year ≤ 9999) ∨ ¬ (1 ≤ month ∧ month ≤ 12) ∨ ¬ (1 ≤ day ∧ day ≤ daysInMonth leap month) ∨
      hour > 23 ∨ minute > 59 ∨ second > 59 then
    .error (.error invalidStamp)
  let dotted : Bool := b.getD 19 0 = 46
  let fraction := if dotted then (b.drop 20).takeWhile isAsciiDigit else []
  if dotted ∧ fraction = [] then
    .error (.error invalidStamp)
  let offset ← stampOffsetI64 b (if dotted then 20 + fraction.length else 19)
  let seconds ← stampSeconds year month day hour minute second offset
  .ok (seconds, trimZeros fraction)

/-! ### The date of a day -/

theorem daysToYmd_ok (fits : days + 719468 < 2 ^ 64) : daysToYmd days = .ok (ofCivil (days + 719468)) := by
  have inside : days + 719468 - (days + 719468) / 146097 * 146097 < 146097 := by omega
  obtain ⟨yoe, small, starts, ends⟩ := Calendar.exists_eraYear inside
  have found := Calendar.eraYear_eq small starts ends
  have era : marchDays yoe = 365 * yoe + yoe / 4 - yoe / 100 := by unfold marchDays leaps; omega
  have length := Calendar.marchDays_succ yoe
  have short : days + 719468 - (days + 719468) / 146097 * 146097 - (365 * yoe + yoe / 4 - yoe / 100) ≤ 365 := by
    split at length <;> omega
  obtain ⟨low, first, last⟩ := Calendar.march_month short rfl
  rw [era] at starts
  unfold daysToYmd ofCivil
  rw [U64.add_ok fits, ok_bind]
  generalize days + 719468 = z at *
  dsimp only
  rw [U64.mul_ok (by omega), ok_bind, U64.sub_ok (by omega), ok_bind]
  generalize z - z / 146097 * 146097 = doe at *
  rw [found]
  unfold eraYear at found
  rw [U64.sub_ok (by omega), ok_bind, U64.add_ok (by omega), ok_bind, U64.sub_ok (by omega),
    ok_bind, found]
  rw [U64.mul_ok (by omega), ok_bind, U64.add_ok (by omega), ok_bind, U64.mul_ok (by omega),
    ok_bind, U64.add_ok (by omega), ok_bind, U64.sub_ok (by omega), ok_bind,
    U64.sub_ok (by omega), ok_bind]
  generalize doe - (365 * yoe + yoe / 4 - yoe / 100) = doy at *
  rw [U64.mul_ok (by omega), ok_bind, U64.add_ok (by omega), ok_bind]
  generalize (5 * doy + 2) / 153 = mp at *
  rw [U64.mul_ok (by omega), ok_bind, U64.add_ok (by omega), ok_bind, U64.sub_ok (by omega),
    ok_bind, U64.add_ok (by omega), ok_bind]
  by_cases before : mp < 10
  · rw [if_pos before, U64.add_ok (by omega), ok_bind, if_neg (by omega)]
    simp [before]
  · rw [if_neg before, U64.sub_ok (by omega), ok_bind, if_pos (by omega), U64.add_ok (by omega)]
    simp only [if_neg before, if_pos (show mp - 9 ≤ 2 by omega), ok_bind]

theorem daysToYmd_overflow (past : 2 ^ 64 ≤ days + 719468) : daysToYmd days = .error .overflow := by
  unfold daysToYmd
  rw [U64.add_overflow past, Checked.error_bind]

theorem daysToYmd_spec {days : Nat} (fits : days + 719468 < 2 ^ 64) :
    ∃ date : Date, daysToYmd days = .ok (date.year, date.month, date.day) ∧ date.number = days := by
  obtain ⟨date, found, count⟩ := Calendar.ofCivil_spec (days + 719468)
  have year : 1 ≤ date.year := by
    by_contra zero
    have first : date.year = 0 := by omega
    have last := date.day_le
    have longest : monthLength 0 date.month ≤ 31 := by
      unfold monthLength
      split <;> first | omega | (split <;> omega)
    rw [first] at last count
    unfold Calendar.civil marchDays leaps at count
    dsimp only at count
    split at count <;> omega
  refine ⟨date, by rw [daysToYmd_ok fits, found], ?_⟩
  rw [date.number_eq_civil year, count]
  omega

/-! ### The day count on `u64` -/

/-- The day before a month that starts the count: the subtraction of one day has nothing to take from,
or the count falls before the epoch. -/
def BeforeFirst (year month day : Nat) : Prop := day = 0 ∧ (month = 3 ∨ year = 1970 ∧ month = 1)

instance (year month day : Nat) : Decidable (BeforeFirst year month day) := inferInstanceAs (Decidable (_ ∧ _))

theorem civil_epoch (recent : 1970 ≤ year) (low : 1 ≤ month) (high : month ≤ 12) (inside : ¬ BeforeFirst year month day) :
    719468 ≤ Calendar.civil year month day := by
  unfold BeforeFirst at inside
  have known : marchDays 1969 = 719162 := rfl
  have same : marchDays 1970 = 719527 := rfl
  unfold Calendar.civil
  dsimp only
  by_cases early : month ≤ 2
  · rw [if_pos early]
    have months : (month + 9) % 12 = month + 9 := by omega
    rw [months]
    by_cases first : year = 1970
    · subst first
      rw [known]
      omega
    · have mono := Calendar.monotone_marchDays (show 1970 ≤ year - 1 by omega)
      omega
  · rw [if_neg early]
    have mono := Calendar.monotone_marchDays recent
    omega

section
variable {year month day : Nat} (recent : 1970 ≤ year) (small : year < 10000) (low : 1 ≤ month) (high : month ≤ 12)
  (two : day < 100)
include recent small low high two

theorem utcDays_ok (inside : ¬ BeforeFirst year month day) :
    utcDays year month day = .ok (Calendar.civil year month day - 719468) := by
  have reached := civil_epoch recent low high inside
  have started : month = 3 → day ≠ 0 := fun march none => inside ⟨none, .inl march⟩
  unfold utcDays
  obtain ⟨y, shifted, own⟩ : ∃ y, shiftedYear year month = .ok y ∧ y = if month ≤ 2 then year - 1 else year := by
    unfold shiftedYear
    split
    · exact ⟨_, U64.sub_ok (by omega), rfl⟩
    · exact ⟨_, rfl, rfl⟩
  have fewer : y < 10000 := by split at own <;> omega
  have civil : Calendar.civil year month day = marchDays y + ((153 * ((month + 9) % 12) + 2) / 5 + day - 1) := by
    rw [own]
    rfl
  have days : 365 * (y - y / 400 * 400) + (y - y / 400 * 400) / 4 - (y - y / 400 * 400) / 100 + y / 400 * 146097 =
      marchDays y := by
    unfold marchDays leaps
    omega
  rw [shifted, ok_bind]
  dsimp only
  rw [U64.mul_ok (by omega), ok_bind, U64.sub_ok (by omega), ok_bind, U64.add_ok (by omega),
    ok_bind]
  have inEra : y - y / 400 * 400 < 400 := by omega
  generalize y - y / 400 * 400 = yoe at *
  have marches : (month + 9) % 12 = 0 → day ≠ 0 := fun march => started (by omega)
  have twelve : (month + 9) % 12 < 12 := Nat.mod_lt _ (by decide)
  generalize (month + 9) % 12 = mp at *
  rw [U64.mul_ok (by omega), ok_bind, U64.add_ok (by omega), ok_bind, U64.add_ok (by omega),
    ok_bind, U64.sub_ok (by omega), ok_bind, U64.mul_ok (by omega), ok_bind,
    U64.add_ok (by omega), ok_bind, U64.sub_ok (by omega), ok_bind, U64.add_ok (by omega),
    ok_bind, U64.mul_ok (by omega), ok_bind, U64.add_ok (by omega), ok_bind,
    U64.sub_ok (by omega), civil, ← days]
  exact congrArg Except.ok (by omega)
end

theorem utcDays_overflow (small : year < 10000) (early : BeforeFirst year month day) :
    utcDays year month day = .error .overflow := by
  obtain ⟨none, first⟩ := early
  subst none
  unfold utcDays shiftedYear
  rcases first with march | ⟨epoch, january⟩
  · subst march
    rw [if_neg (by omega), ok_bind]
    dsimp only
    rw [U64.mul_ok (by omega), ok_bind, U64.sub_ok (by omega), ok_bind]
    rfl
  · subst epoch january
    rfl

/-! ### Fields of a text -/

/-- The separators of a date and a time of day. -/
def Separated (b : Bytes) : Prop :=
  b.getD 4 0 = 45 ∧ b.getD 7 0 = 45 ∧ b.getD 10 0 = 84 ∧ b.getD 13 0 = 58 ∧ b.getD 16 0 = 58

def part (b : Bytes) (start stop : Nat) : Bytes := (b.take stop).drop start

def Digits (b : Bytes) (start stop : Nat) : Prop := ∀ byte ∈ part b start stop, digit byte = true

theorem length_part (inside : stop ≤ b.length) : (part b start stop).length = stop - start := by
  simp [part, Nat.min_eq_left inside]

theorem drop_eq_part (b : Bytes) (le : start ≤ stop) : b.drop start = part b start stop ++ b.drop stop := by
  have same : b.drop stop = (b.drop start).drop (stop - start) := by
    rw [drop_drop]
    congr 1
    omega
  rw [same, part, drop_take, take_append_drop]

theorem drop_eq_separator {b : Bytes} {byte : UInt8} (inside : i < b.length) (found : b.getD i 0 = byte) :
    b.drop i = byte :: b.drop (i + 1) := by
  rw [drop_eq_getElem_cons inside, ← found, getD_eq_getElem?_getD, getElem?_eq_getElem inside]
  rfl

theorem split_text {b : Bytes} (long : 20 ≤ b.length) (separated : Separated b) :
    b = part b 0 4 ++ 45 :: (part b 5 7 ++ 45 :: (part b 8 10 ++ 84 :: (part b 11 13 ++ 58 ::
      (part b 14 16 ++ 58 :: (part b 17 19 ++ b.drop 19))))) := by
  obtain ⟨first, second, third, fourth, fifth⟩ := separated
  have whole := drop_eq_part b (show 0 ≤ 4 by omega)
  rw [drop_eq_separator (by omega) first, drop_eq_part b (show 4 + 1 ≤ 7 by omega),
    drop_eq_separator (by omega) second, drop_eq_part b (show 7 + 1 ≤ 10 by omega),
    drop_eq_separator (by omega) third, drop_eq_part b (show 10 + 1 ≤ 13 by omega),
    drop_eq_separator (by omega) fourth, drop_eq_part b (show 13 + 1 ≤ 16 by omega),
    drop_eq_separator (by omega) fifth, drop_eq_part b (show 16 + 1 ≤ 19 by omega)] at whole
  exact whole

theorem twoDigits_part (inside : start + 2 ≤ b.length) (digits : Digits b start (start + 2)) :
    twoDigits (decimal (part b start (start + 2))) = part b start (start + 2) ∧
      decimal (part b start (start + 2)) < 100 := by
  obtain ⟨x, y, same⟩ := length_eq_two.mp ((length_part inside).trans (by omega : start + 2 - start = 2))
  unfold Digits at digits
  rw [same] at digits ⊢
  exact twoDigits_decimal ⟨digits x (by simp), digits y (by simp)⟩

theorem fourDigits_part (inside : 4 ≤ b.length) (digits : Digits b 0 4) :
    fourDigits (decimal (part b 0 4)) = part b 0 4 ∧ decimal (part b 0 4) < 10000 := by
  have size : (part b 0 4).length = 4 - 0 := length_part inside
  unfold Digits at digits
  match same : part b 0 4, size with
  | [w, x, y, z], _ =>
    rw [same] at digits
    exact fourDigits_decimal ⟨digits w (by simp), digits x (by simp), digits y (by simp), digits z (by simp)⟩

/-- The fields of a date and a time of day, each of its own number of digits. -/
structure Fields where
  year : Nat
  month : Nat
  day : Nat
  hour : Nat
  minute : Nat
  second : Nat
  year_lt : year < 10000
  month_lt : month < 100
  day_lt : day < 100
  hour_lt : hour < 100
  minute_lt : minute < 100
  second_lt : second < 100

def Fields.text (fields : Fields) : Bytes :=
  DateTime.dateText fields.year fields.month fields.day fields.hour fields.minute fields.second

@[simp] theorem Fields.text_length (fields : Fields) : fields.text.length = 19 := rfl

/-- The digits that the six fields of a text consist of. -/
def AllDigits (b : Bytes) : Prop :=
  Digits b 0 4 ∧ Digits b 5 7 ∧ Digits b 8 10 ∧ Digits b 11 13 ∧ Digits b 14 16 ∧ Digits b 17 19

theorem exists_fields (long : 20 ≤ b.length) (separated : Separated b) (digits : AllDigits b) :
    ∃ fields : Fields, ∃ rest, rest ≠ [] ∧ b = fields.text ++ rest := by
  obtain ⟨year, month, day, hour, minute, second⟩ := digits
  obtain ⟨yearText, yearLt⟩ := fourDigits_part (by omega) year
  obtain ⟨monthText, monthLt⟩ := twoDigits_part (by omega) month
  obtain ⟨dayText, dayLt⟩ := twoDigits_part (by omega) day
  obtain ⟨hourText, hourLt⟩ := twoDigits_part (by omega) hour
  obtain ⟨minuteText, minuteLt⟩ := twoDigits_part (by omega) minute
  obtain ⟨secondText, secondLt⟩ := twoDigits_part (by omega) second
  refine ⟨⟨_, _, _, _, _, _, yearLt, monthLt, dayLt, hourLt, minuteLt, secondLt⟩, b.drop 19, ?_, ?_⟩
  · exact fun none => by
      have size := congrArg List.length none
      simp at size
      omega
  · unfold Fields.text DateTime.dateText
    rw [yearText, monthText, dayText, hourText, minuteText, secondText]
    simpa using split_text long separated

theorem part_fields (fields : Fields) (rest : Bytes) :
    part (fields.text ++ rest) 0 4 = fourDigits fields.year ∧ part (fields.text ++ rest) 5 7 = twoDigits fields.month ∧
    part (fields.text ++ rest) 8 10 = twoDigits fields.day ∧ part (fields.text ++ rest) 11 13 = twoDigits fields.hour ∧
    part (fields.text ++ rest) 14 16 = twoDigits fields.minute ∧
    part (fields.text ++ rest) 17 19 = twoDigits fields.second :=
  ⟨rfl, rfl, rfl, rfl, rfl, rfl⟩

theorem separated_fields (fields : Fields) (rest : Bytes) : Separated (fields.text ++ rest) :=
  ⟨rfl, rfl, rfl, rfl, rfl⟩

/-! ### The readers of a field -/

theorem all_digits {digits : Bytes} : digits.all isAsciiDigit = true ↔ ∀ byte ∈ digits, digit byte = true :=
  all_eq_true

theorem foldl_decimal {digits : Bytes} (all : ∀ byte ∈ digits, digit byte = true) (value : Nat) :
    digits.foldl (fun value byte => value * 10 + (byte.toNat - 48 : Int)) (value : Int) =
      ((digits.foldl (fun value byte => value * 10 + (byte.toNat - 48)) value : Nat) : Int) := by
  induction digits generalizing value with
  | nil => rfl
  | cons byte rest ih =>
    have bounds := digit_iff.mp (all byte (mem_cons_self ..))
    have step : (value : Int) * 10 + (byte.toNat - 48 : Int) = ((value * 10 + (byte.toNat - 48) : Nat) : Int) := by omega
    rw [foldl_cons, foldl_cons, step, ih (forall_mem_cons.mp all).2]

theorem stampField_eq_ok {start stop : Nat} {value : Int} :
    stampField b start stop = .ok value ↔
      stop ≤ b.length ∧ Digits b start stop ∧ value = (decimal (part b start stop) : Nat) := by
  unfold stampField
  by_cases inside : stop ≤ b.length
  · rw [if_neg (by omega)]
    by_cases digits : Digits b start stop
    · have all : ((b.take stop).drop start).all isAsciiDigit = true := all_digits.mpr digits
      have sum := foldl_decimal digits 0
      rw [if_pos all, Except.ok.injEq, eq_comm]
      simp only [inside, digits, true_and]
      exact Iff.of_eq (congrArg (value = ·) sum)
    · have none : ¬ ((b.take stop).drop start).all isAsciiDigit = true := fun all => digits (all_digits.mp all)
      simp [none, digits]
  · simp [inside, show stop > b.length by omega]

theorem utcField_eq_some {start stop value : Nat} :
    utcField b start stop = some value ↔ Digits b start stop ∧ value = decimal (part b start stop) := by
  unfold utcField
  by_cases digits : Digits b start stop
  · have all : ((b.take stop).drop start).all isAsciiDigit = true := all_digits.mpr digits
    rw [if_pos all, Option.some.injEq, eq_comm, and_iff_right digits]
    rfl
  · have none : ¬ ((b.take stop).drop start).all isAsciiDigit = true := fun all => digits (all_digits.mp all)
    simp [none, digits]


theorem part_append (front rest : Bytes) (start stop : Nat) :
    part (front ++ rest) (front.length + start) (front.length + stop) = part rest start stop := by
  unfold part
  rw [List.take_append, take_of_length_le (by omega), Nat.add_sub_cancel_left, drop_append,
    drop_eq_nil_of_le (by omega), Nat.add_sub_cancel_left, nil_append]

theorem stampField_append (front rest : Bytes) (start stop : Nat) :
    stampField (front ++ rest) (front.length + start) (front.length + stop) = stampField rest start stop := by
  have same := part_append front rest start stop
  unfold part at same
  unfold stampField
  rw [same, length_append]
  by_cases past : stop > rest.length
  · rw [if_pos past, if_pos (by omega)]
  · rw [if_neg past, if_neg (by omega)]

theorem stampField_offset {sign colon a b c d : UInt8} {hours minutes : Int} :
    (stampField [sign, a, b, colon, c, d] 1 3 = .ok hours ∧ stampField [sign, a, b, colon, c, d] 4 6 = .ok minutes) ↔
      ∃ h < 100, ∃ m < 100, [a, b] = twoDigits h ∧ [c, d] = twoDigits m ∧ hours = (h : Nat) ∧ minutes = (m : Nat) := by
  have first : part [sign, a, b, colon, c, d] 1 3 = [a, b] := rfl
  have second : part [sign, a, b, colon, c, d] 4 6 = [c, d] := rfl
  simp only [stampField_eq_ok, Digits, first, second]
  constructor
  · rintro ⟨⟨-, hourDigits, rfl⟩, -, minuteDigits, rfl⟩
    obtain ⟨hourText, hourLt⟩ := twoDigits_decimal ⟨hourDigits a (by simp), hourDigits b (by simp)⟩
    obtain ⟨minuteText, minuteLt⟩ := twoDigits_decimal ⟨minuteDigits c (by simp), minuteDigits d (by simp)⟩
    exact ⟨_, hourLt, _, minuteLt, hourText.symm, minuteText.symm, rfl, rfl⟩
  · rintro ⟨h, hourLt, m, minuteLt, hourText, minuteText, rfl, rfl⟩
    have digits (n : Nat) : ∀ byte ∈ twoDigits n, digit byte = true := by simp [twoDigits, digit_digitByte]
    rw [hourText, minuteText, decimal_twoDigits hourLt, decimal_twoDigits minuteLt]
    exact ⟨⟨by simp, digits h, rfl⟩, by simp [twoDigits], digits m, rfl⟩

theorem stampOffset_eq_ok {front tz : Bytes} {value : Int} :
    stampOffset (front ++ tz) front.length = .ok value ↔
      ∃ offset : Offset, offset.AtMost14 ∧ tz = offset.text ∧ value = offset.seconds := by
  unfold stampOffset
  rw [drop_left]
  simp only [stampField_append]
  constructor
  · intro found
    split at found
    · rename_i zulu
      cases found
      exact ⟨.utc, trivial, zulu, rfl⟩
    · split at found
      · rename_i shape
        obtain ⟨size, signed, colon⟩ := shape
        obtain ⟨hours, readHours, found⟩ := bind_eq_ok.mp found
        obtain ⟨minutes, readMinutes, found⟩ := bind_eq_ok.mp found
        match tz, size with
        | [sign, a, b, c, d, e], _ =>
          obtain ⟨h, -, m, -, hourText, minuteText, rfl, rfl⟩ := stampField_offset.mp ⟨readHours, readMinutes⟩
          split at found
          · cases found
          · cases found
            refine ⟨.numeric (sign = 43) h m, ⟨by omega, by omega⟩, ?_, by simp [Offset.seconds]⟩
            have colon : c = 58 := colon
            rw [Offset.text, ← hourText, ← minuteText, colon]
            rcases signed with plus | minus
            · have plus : sign = 43 := plus
              simp [plus]
            · have minus : sign = 45 := minus
              simp [minus]
      · cases found
  · rintro ⟨offset, inside, rfl, rfl⟩
    cases offset with
    | utc => rfl
    | numeric east hours minutes =>
      obtain ⟨minuteLe, total⟩ := inside
      obtain ⟨readHours, readMinutes⟩ := (@stampField_offset (if east then 43 else 45) 58 _ _ _ _ _ _).mpr
        ⟨hours, by omega, minutes, by omega, rfl, rfl, rfl, rfl⟩
      rw [if_neg (by simp [Offset.text, twoDigits]), if_pos (by cases east <;> simp [Offset.text, twoDigits])]
      rw [bind_eq_ok]
      refine ⟨_, readHours, bind_eq_ok.mpr ⟨_, readMinutes, ?_⟩⟩
      rw [if_neg (by omega)]
      cases east <;> simp [Offset.seconds, Offset.text]

/-! ### The fraction -/

def restFraction (rest : Bytes) : Bytes :=
  if rest.head? = some 46 then (rest.drop 1).takeWhile isAsciiDigit else []

def offsetStart (rest : Bytes) : Nat := if rest.head? = some 46 then 1 + (restFraction rest).length else 0

theorem restFraction_digits (rest : Bytes) : ∀ byte ∈ restFraction rest, digit byte = true := by
  unfold restFraction
  split
  · exact fun byte member => mem_takeWhile_imp member
  · simp

theorem restFraction_point (rest : Bytes) : restFraction (46 :: rest) = rest.takeWhile isAsciiDigit := if_pos rfl

theorem rest_split (present : ¬ (rest.head? = some 46 ∧ restFraction rest = [])) :
    (if restFraction rest = [] then [] else 46 :: restFraction rest) ++ rest.drop (offsetStart rest) = rest := by
  by_cases dotted : rest.head? = some 46
  · have digits : restFraction rest ≠ [] := fun none => present ⟨dotted, none⟩
    obtain ⟨after, rfl⟩ : ∃ after, rest = 46 :: after := by
      cases rest with
      | nil => cases dotted
      | cons byte after => exact ⟨after, by rw [Option.some.inj dotted]⟩
    have kept : after.drop (after.takeWhile isAsciiDigit).length = after.dropWhile isAsciiDigit := by
      have whole := congrArg (List.drop (after.takeWhile isAsciiDigit).length)
        (takeWhile_append_dropWhile (p := isAsciiDigit) (l := after))
      rw [drop_left] at whole
      exact whole.symm
    rw [if_neg digits, offsetStart, if_pos dotted, restFraction_point, Nat.add_comm, drop_succ_cons, kept,
      cons_append, takeWhile_append_dropWhile]
  · simp [restFraction, offsetStart, dotted]

theorem offset_head (offset : Offset) : ∃ byte rest, offset.text = byte :: rest ∧ isAsciiDigit byte = false ∧ byte ≠ 46 := by
  cases offset with
  | utc => exact ⟨90, [], rfl, by decide, by decide⟩
  | numeric east hours minutes => cases east <;> exact ⟨_, _, rfl, by decide, by decide⟩

theorem rest_tail {time : DateTime} (digits : ∀ byte ∈ time.fraction, digit byte = true) :
    restFraction time.tail = time.fraction ∧ time.tail.drop (offsetStart time.tail) = time.offset.text ∧
      ¬ (time.tail.head? = some 46 ∧ restFraction time.tail = []) := by
  obtain ⟨byte, rest, head, notDigit, notPoint⟩ := offset_head time.offset
  by_cases none : time.fraction = []
  · have tail : time.tail = time.offset.text := by simp [DateTime.tail, none]
    have bare : ¬ time.offset.text.head? = some 46 := by simp [head, notPoint]
    rw [tail]
    simp [restFraction, offsetStart, bare, none]
  · have tail : time.tail = 46 :: (time.fraction ++ time.offset.text) := by simp [DateTime.tail, none]
    have all : ∀ byte ∈ time.fraction, isAsciiDigit byte = true := digits
    have taken : (time.fraction ++ time.offset.text).takeWhile isAsciiDigit = time.fraction := by
      rw [head, takeWhile_append_of_pos all, takeWhile_cons_of_neg (by simp [notDigit]), append_nil]
    have fraction : restFraction time.tail = time.fraction := by rw [tail, restFraction_point, taken]
    refine ⟨fraction, ?_, by rw [fraction]; exact fun both => none both.2⟩
    unfold offsetStart
    rw [fraction, tail, head?_cons, if_pos rfl, Nat.add_comm, drop_succ_cons, drop_left]

/-! ### Dates -/

theorem leap_int (year : Nat) :
    decide ((year : Int) % 4 = 0 ∧ ((year : Int) % 100 ≠ 0 ∨ (year : Int) % 400 = 0)) = Calendar.leap year := by
  unfold Calendar.leap
  congr 1
  apply propext
  omega

theorem daysInMonth_eq (year : Nat) {month : Nat} (low : 1 ≤ month) (high : month ≤ 12) :
    daysInMonth (Calendar.leap year) month = monthLength year month := by
  interval_cases month <;> simp [daysInMonth, monthLength]

theorem stampDays_eq (date : Date) (pos : 1 ≤ date.year) :
    let adjustedYear : Int := if (date.month : Int) ≤ 2 then (date.year : Int) - 1 else date.year
    let era := adjustedYear.ediv 400
    let yoe := adjustedYear - era * 400
    let mp := (date.month : Int) + (if (date.month : Int) > 2 then -3 else 9)
    let doy := (153 * mp + 2) / 5 + date.day - 1
    let doe := yoe * 365 + yoe / 4 - yoe / 100 + doy
    era * 146097 + doe - 719468 = date.number := by
  have low := date.month_pos
  have high := date.month_le
  have first := date.day_pos
  rw [date.number_eq_civil pos]
  unfold Calendar.civil marchDays leaps
  dsimp only
  have division (a : Int) : a.ediv 400 = a / 400 := rfl
  rw [division]
  by_cases early : date.month ≤ 2
  · have months : (date.month + 9) % 12 = date.month + 9 := by omega
    rw [if_pos early, if_pos (by omega), if_neg (by omega), months]
    obtain ⟨y, same⟩ : ∃ y, date.year = y + 1 := ⟨date.year - 1, by omega⟩
    rw [same]
    push_cast
    omega
  · have months : (date.month + 9) % 12 = date.month - 3 := by omega
    rw [if_neg early, if_neg (by omega), if_pos (by omega), months]
    omega

/-! ### The arithmetic stays in range -/

theorem stampOffsetI64_eq (b : Bytes) (pos : Nat) : stampOffsetI64 b pos = lift (stampOffset b pos) := by
  unfold stampOffsetI64 stampOffset
  dsimp only
  split
  · rfl
  · split
    · cases hoursRead : stampField b (pos + 1) (pos + 3) with
      | error message => rfl
      | ok hours =>
        cases minutesRead : stampField b (pos + 4) (pos + 6) with
        | error message => rfl
        | ok minutes =>
          obtain ⟨-, -, hoursNat⟩ := stampField_eq_ok.mp hoursRead
          obtain ⟨-, -, minutesNat⟩ := stampField_eq_ok.mp minutesRead
          simp only [lift_ok, ok_bind]
          change _ = lift (if _ then _ else _)
          split
          · rfl
          · rename_i inside
            rw [I64.mul_ok (by omega) (by omega), ok_bind, I64.mul_ok (by omega) (by omega), ok_bind,
              I64.add_ok (by omega) (by omega), ok_bind]
            split
            · exact I64.mul_ok (by omega) (by omega)
            · exact I64.mul_ok (by omega) (by omega)
    · rfl

/-- The date and the time of day of a well-formed text, and its fraction. -/
def stampResult (year month day hour minute second offset : Int) (fraction : Bytes) : Int × Bytes :=
  let adjustedYear := if month ≤ 2 then year - 1 else year
  let era := adjustedYear.ediv 400
  let yoe := adjustedYear - era * 400
  let mp := month + (if month > 2 then -3 else 9)
  let doy := (153 * mp + 2) / 5 + day - 1
  let doe := yoe * 365 + yoe / 4 - yoe / 100 + doy
  let days := era * 146097 + doe - 719468
  (days * 86400 + hour * 3600 + minute * 60 + second - offset, trimZeros fraction)

theorem stampSeconds_ok (yearLow : 1 ≤ year) (yearHigh : year ≤ 9999) (monthLow : 1 ≤ month) (monthHigh : month ≤ 12)
    (dayLow : 1 ≤ day) (dayHigh : day ≤ 31) (hourLow : 0 ≤ hour) (hourHigh : hour ≤ 23) (minuteLow : 0 ≤ minute)
    (minuteHigh : minute ≤ 59) (secondLow : 0 ≤ second) (secondHigh : second ≤ 59) (offsetLow : -50400 ≤ offset)
    (offsetHigh : offset ≤ 50400) :
    stampSeconds year month day hour minute second offset =
      .ok (stampResult year month day hour minute second offset []).1 := by
  have division (a : Int) : a.ediv 400 = a / 400 := rfl
  obtain ⟨y, own, yLow, yHigh⟩ : ∃ y, (if month ≤ 2 then year - 1 else year) = y ∧ 0 ≤ y ∧ y ≤ 9999 := by
    split <;> exact ⟨_, rfl, by omega, by omega⟩
  obtain ⟨mp, shifted, mpLow, mpHigh⟩ : ∃ mp, month + (if month > 2 then -3 else 9) = mp ∧ 0 ≤ mp ∧ mp ≤ 11 := by
    split <;> exact ⟨_, rfl, by omega, by omega⟩
  have less : year - (if month ≤ 2 then 1 else 0) = y := by
    rw [← own]
    split <;> omega
  unfold stampSeconds stampResult
  rw [I64.sub_ok (by omega) (by omega), ok_bind, less]
  simp only [own, shifted, division]
  rw [I64.mul_ok (by omega) (by omega), ok_bind, I64.sub_ok (by omega) (by omega), ok_bind,
    I64.add_ok (by omega) (by omega), ok_bind, shifted]
  have inEra : 0 ≤ y - y / 400 * 400 ∧ y - y / 400 * 400 < 400 := by omega
  have eras : 0 ≤ y / 400 ∧ y / 400 ≤ 24 := by omega
  generalize y - y / 400 * 400 = yoe at *
  generalize y / 400 = era at *
  rw [I64.mul_ok (by omega) (by omega), ok_bind, I64.add_ok (by omega) (by omega), ok_bind,
    I64.add_ok (by omega) (by omega), ok_bind, I64.sub_ok (by omega) (by omega), ok_bind]
  have inYear : 0 ≤ (153 * mp + 2) / 5 + day - 1 ∧ (153 * mp + 2) / 5 + day - 1 ≤ 400 := by omega
  generalize (153 * mp + 2) / 5 + day - 1 = doy at *
  rw [I64.mul_ok (by omega) (by omega), ok_bind, I64.add_ok (by omega) (by omega), ok_bind,
    I64.sub_ok (by omega) (by omega), ok_bind, I64.add_ok (by omega) (by omega), ok_bind]
  have inDays : 0 ≤ yoe * 365 + yoe / 4 - yoe / 100 + doy ∧ yoe * 365 + yoe / 4 - yoe / 100 + doy ≤ 150000 := by omega
  generalize yoe * 365 + yoe / 4 - yoe / 100 + doy = doe at *
  rw [I64.mul_ok (by omega) (by omega), ok_bind, I64.add_ok (by omega) (by omega), ok_bind,
    I64.sub_ok (by omega) (by omega), ok_bind]
  rw [I64.mul_ok (by omega) (by omega), ok_bind, I64.mul_ok (by omega) (by omega), ok_bind,
    I64.add_ok (by omega) (by omega), ok_bind, I64.mul_ok (by omega) (by omega), ok_bind,
    I64.add_ok (by omega) (by omega), ok_bind, I64.add_ok (by omega) (by omega), ok_bind,
    I64.sub_ok (by omega) (by omega)]

def ReadFields (b : Bytes) (year month day hour minute second : Int) : Prop :=
  stampField b 0 4 = .ok year ∧ stampField b 5 7 = .ok month ∧ stampField b 8 10 = .ok day ∧
    stampField b 11 13 = .ok hour ∧ stampField b 14 16 = .ok minute ∧ stampField b 17 19 = .ok second

/-- A field is not that of a date or a time of day. -/
def OutOfRange (year month day hour minute second : Int) : Prop :=
  ¬ (1 ≤ year ∧ year ≤ 9999) ∨ ¬ (1 ≤ month ∧ month ≤ 12) ∨
    ¬ (1 ≤ day ∧ day ≤ daysInMonth (year % 4 = 0 ∧ (year % 100 ≠ 0 ∨ year % 400 = 0)) month) ∨
    hour > 23 ∨ minute > 59 ∨ second > 59

instance (year month day hour minute second : Int) : Decidable (OutOfRange year month day hour minute second) :=
  inferInstanceAs (Decidable (_ ∨ _))

theorem stampOffset_bounds (read : stampOffset b pos = .ok offset) : -50400 ≤ offset ∧ offset ≤ 50400 := by
  by_cases inside : pos ≤ b.length
  · obtain ⟨front, tz, rfl, rfl⟩ : ∃ front tz, b = front ++ tz ∧ pos = front.length :=
      ⟨b.take pos, b.drop pos, (take_append_drop pos b).symm, by simp [inside]⟩
    obtain ⟨known, small, -, rfl⟩ := stampOffset_eq_ok.mp read
    cases known with
    | utc => simp [Offset.seconds]
    | numeric east hours minutes =>
      obtain ⟨-, total⟩ := small
      cases east <;> simp [Offset.seconds] <;> omega
  · have none : b.drop pos = [] := drop_eq_nil_of_le (by omega)
    simp [stampOffset, none] at read

theorem daysInMonth_le (leap : Bool) (month : Int) : daysInMonth leap month ≤ 31 := by
  unfold daysInMonth
  generalize (month - 1).toNat = index
  by_cases inside : index < 12
  · interval_cases index <;> cases leap <;> decide
  · rw [getD_eq_getElem?_getD, getElem?_eq_none (by simpa using inside)]
    decide

theorem parseDatetimeStampI64_eq (value : String) :
    parseDatetimeStampI64 value = lift (parseDatetimeStamp value) := by
  unfold parseDatetimeStampI64 parseDatetimeStamp
  simp only [stampOffsetI64_eq]
  generalize utf8 value = b
  by_cases malformed : b.length < 20 ∨ b.getD 4 0 ≠ 45 ∨ b.getD 7 0 ≠ 45 ∨ b.getD 10 0 ≠ 84 ∨ b.getD 13 0 ≠ 58 ∨
      b.getD 16 0 ≠ 58
  · rw [if_pos malformed, if_pos malformed]
    rfl
  rw [if_neg malformed, if_neg malformed]
  cases readYear : stampField b 0 4 with
  | error message => rfl
  | ok year =>
  cases readMonth : stampField b 5 7 with
  | error message => rfl
  | ok month =>
  cases readDay : stampField b 8 10 with
  | error message => rfl
  | ok day =>
  cases readHour : stampField b 11 13 with
  | error message => rfl
  | ok hour =>
  cases readMinute : stampField b 14 16 with
  | error message => rfl
  | ok minute =>
  cases readSecond : stampField b 17 19 with
  | error message => rfl
  | ok second =>
  simp only [lift_ok, bind, Except.bind]
  split
  · rfl
  rename_i inside
  generalize decide (b.getD 19 0 = 46) = dotted
  generalize (if dotted = true then (b.drop 20).takeWhile isAsciiDigit else []) = fraction
  generalize (if dotted = true then 20 + fraction.length else 19) = pos
  split
  · rfl
  cases readOffset : stampOffset b pos with
  | error message => rfl
  | ok offset =>
  simp only [lift_ok]
  obtain ⟨offsetLow, offsetHigh⟩ := stampOffset_bounds readOffset
  obtain ⟨-, -, hourNat⟩ := stampField_eq_ok.mp readHour
  obtain ⟨-, -, minuteNat⟩ := stampField_eq_ok.mp readMinute
  obtain ⟨-, -, secondNat⟩ := stampField_eq_ok.mp readSecond
  have longest := daysInMonth_le (year % 4 = 0 ∧ (year % 100 ≠ 0 ∨ year % 400 = 0)) month
  rw [stampSeconds_ok (by omega) (by omega) (by omega) (by omega) (by omega) (by omega) (by omega) (by omega)
    (by omega) (by omega) (by omega) (by omega) offsetLow offsetHigh]
  rfl

/-! ### The grammar -/

theorem Fields.read (fields : Fields) {rest : Bytes} :
    ReadFields (fields.text ++ rest) fields.year fields.month fields.day fields.hour fields.minute fields.second := by
  obtain ⟨year, month, day, hour, minute, second⟩ := part_fields fields rest
  have long : 19 ≤ (fields.text ++ rest).length := by simp
  have two (n : Nat) : ∀ byte ∈ twoDigits n, digit byte = true := by simp [twoDigits, digit_digitByte]
  have four (n : Nat) : ∀ byte ∈ fourDigits n, digit byte = true := by simp [fourDigits, digit_digitByte]
  have field {start stop n : Nat} (small : n < 100) (inside : stop ≤ 19)
      (same : part (fields.text ++ rest) start stop = twoDigits n) :
      stampField (fields.text ++ rest) start stop = .ok (n : Int) :=
    stampField_eq_ok.mpr ⟨by omega, by rw [Digits, same]; exact two n, by rw [same, decimal_twoDigits small]⟩
  exact ⟨stampField_eq_ok.mpr ⟨by omega, by rw [Digits, year]; exact four _, by
      rw [year, decimal_fourDigits fields.year_lt]⟩, field fields.month_lt (by omega) month,
    field fields.day_lt (by omega) day, field fields.hour_lt (by omega) hour, field fields.minute_lt (by omega) minute,
    field fields.second_lt (by omega) second⟩

/-- What the parser makes of a text whose fields are digits and separators. -/
theorem parseDatetimeStamp_fields {value : String} {fields : Fields} {rest : Bytes} (some_ : rest ≠ [])
    (same : utf8 value = fields.text ++ rest) :
    parseDatetimeStamp value =
      if OutOfRange fields.year fields.month fields.day fields.hour fields.minute fields.second then .error invalidStamp
      else if rest.head? = some 46 ∧ restFraction rest = [] then .error invalidStamp
      else (stampOffset (fields.text ++ rest) (19 + offsetStart rest)).map fun offset =>
        stampResult fields.year fields.month fields.day fields.hour fields.minute fields.second offset
          (restFraction rest) := by
  obtain ⟨readYear, readMonth, readDay, readHour, readMinute, readSecond⟩ := @Fields.read fields rest
  have point : (fields.text ++ rest).getD 19 0 = 46 ↔ rest.head? = some 46 := by
    cases rest with
    | nil => exact absurd rfl some_
    | cons byte rest => exact (Option.some.injEq byte 46 ▸ Iff.rfl)
  have digits : (fields.text ++ rest).drop 20 = rest.drop 1 := rfl
  have shape : ¬ ((fields.text ++ rest).length < 20 ∨ (fields.text ++ rest).getD 4 0 ≠ 45 ∨
      (fields.text ++ rest).getD 7 0 ≠ 45 ∨ (fields.text ++ rest).getD 10 0 ≠ 84 ∨
      (fields.text ++ rest).getD 13 0 ≠ 58 ∨ (fields.text ++ rest).getD 16 0 ≠ 58) := by
    obtain ⟨a, b, c, d, e⟩ := separated_fields fields rest
    have size : 0 < rest.length := length_pos_iff.mpr some_
    rintro (short | wrong | wrong | wrong | wrong | wrong)
    · simp at short
      omega
    · exact wrong a
    · exact wrong b
    · exact wrong c
    · exact wrong d
    · exact wrong e
  unfold parseDatetimeStamp
  rw [same, if_neg shape, readYear, readMonth, readDay, readHour, readMinute, readSecond, digits]
  simp only [bind, Except.bind, point, decide_eq_true_eq]
  change (if OutOfRange fields.year fields.month fields.day fields.hour fields.minute fields.second then _ else _) = _
  by_cases outside : OutOfRange fields.year fields.month fields.day fields.hour fields.minute fields.second
  · rw [if_pos outside, if_pos outside]
  rw [if_neg outside, if_neg outside]
  by_cases dotted : rest.head? = some 46
  · have own : restFraction rest = (rest.drop 1).takeWhile isAsciiDigit := if_pos dotted
    simp only [if_true, offsetStart, own, dotted, true_and]
    by_cases none : (rest.drop 1).takeWhile isAsciiDigit = []
    · rw [if_pos none, if_pos none]
    rw [if_neg none, if_neg none, show 19 + (1 + ((rest.drop 1).takeWhile isAsciiDigit).length) =
      20 + ((rest.drop 1).takeWhile isAsciiDigit).length by omega]
    cases stampOffset (fields.text ++ rest) _ <;> rfl
  · have own : restFraction rest = [] := if_neg dotted
    simp only [offsetStart, own, dotted, false_and, if_false]
    cases stampOffset (fields.text ++ rest) _ <;> rfl


theorem parseDatetimeStamp_fields_of_ok (done : parseDatetimeStamp value = .ok result) :
    ∃ fields : Fields, ∃ rest, rest ≠ [] ∧ utf8 value = fields.text ++ rest := by
  unfold parseDatetimeStamp at done
  by_cases shape : (utf8 value).length < 20 ∨ (utf8 value).getD 4 0 ≠ 45 ∨ (utf8 value).getD 7 0 ≠ 45 ∨
      (utf8 value).getD 10 0 ≠ 84 ∨ (utf8 value).getD 13 0 ≠ 58 ∨ (utf8 value).getD 16 0 ≠ 58
  · rw [if_pos shape] at done
    cases done
  rw [if_neg shape] at done
  simp only [not_or, not_lt, not_not] at shape
  obtain ⟨long, separated⟩ := shape
  obtain ⟨_, year, done⟩ := bind_eq_ok.mp done
  obtain ⟨_, month, done⟩ := bind_eq_ok.mp done
  obtain ⟨_, day, done⟩ := bind_eq_ok.mp done
  obtain ⟨_, hour, done⟩ := bind_eq_ok.mp done
  obtain ⟨_, minute, done⟩ := bind_eq_ok.mp done
  obtain ⟨_, second, -⟩ := bind_eq_ok.mp done
  exact exists_fields long separated ⟨(stampField_eq_ok.mp year).2.1, (stampField_eq_ok.mp month).2.1,
    (stampField_eq_ok.mp day).2.1, (stampField_eq_ok.mp hour).2.1, (stampField_eq_ok.mp minute).2.1,
    (stampField_eq_ok.mp second).2.1⟩

theorem inRange_iff (fields : Fields) :
    ¬ OutOfRange fields.year fields.month fields.day fields.hour fields.minute fields.second ↔
      ∃ date : Date, date.year = fields.year ∧ date.month = fields.month ∧ date.day = fields.day ∧
        1 ≤ fields.year ∧ fields.hour ≤ 23 ∧ fields.minute ≤ 59 ∧ fields.second ≤ 59 := by
  unfold OutOfRange
  rw [leap_int]
  have year := fields.year_lt
  constructor
  · intro inside
    have months : 1 ≤ fields.month ∧ fields.month ≤ 12 := by omega
    rw [daysInMonth_eq _ months.1 months.2] at inside
    exact ⟨⟨fields.year, fields.month, fields.day, by omega, by omega, by omega, by omega⟩, rfl, rfl, rfl, by omega,
      by omega, by omega, by omega⟩
  · rintro ⟨date, ownYear, ownMonth, ownDay, pos, hour, minute, second⟩
    have low := date.month_pos
    have high := date.month_le
    have first := date.day_pos
    have last := date.day_le
    rw [ownMonth] at low high
    rw [ownDay] at first last
    rw [ownYear, ownMonth] at last
    rw [daysInMonth_eq _ low high]
    omega

theorem stampResult_eq (date : Date) (pos : 1 ≤ date.year) (hour minute second : Nat) (offset : Int) (fraction : Bytes) :
    stampResult date.year date.month date.day hour minute second offset fraction =
      (date.number * 86400 + hour * 3600 + minute * 60 + second - offset, trimZeros fraction) := by
  have days := stampDays_eq date pos
  unfold stampResult
  dsimp only at days ⊢
  rw [days]

theorem stampOffset_rest {fields : Fields} {rest : Bytes} (present : ¬ (rest.head? = some 46 ∧ restFraction rest = []))
    {value : Int} :
    stampOffset (fields.text ++ rest) (19 + offsetStart rest) = .ok value ↔
      ∃ offset : Offset, offset.AtMost14 ∧ rest.drop (offsetStart rest) = offset.text ∧ value = offset.seconds := by
  have size : (fields.text ++ (if restFraction rest = [] then [] else 46 :: restFraction rest)).length =
      19 + offsetStart rest := by
    unfold offsetStart
    by_cases dotted : rest.head? = some 46
    · have digits : restFraction rest ≠ [] := fun none => present ⟨dotted, none⟩
      simp [dotted, digits, Nat.add_comm]
    · simp [dotted, restFraction]
  rw [← @stampOffset_eq_ok (fields.text ++ (if restFraction rest = [] then [] else 46 :: restFraction rest)),
    append_assoc, rest_split present, size]

/-- The texts accepted are the RFC 3339 date-times in range, and the result is the instant. -/
theorem parseDatetimeStamp_iff {seconds : Int} {digits : Bytes} :
    parseDatetimeStamp value = .ok (seconds, digits) ↔
      ∃ time : DateTime, time.Admissible ∧ utf8 value = time.text ∧ seconds = time.seconds ∧
        digits = trimZeros time.fraction := by
  constructor
  · intro done
    obtain ⟨fields, rest, some_, same⟩ := parseDatetimeStamp_fields_of_ok done
    rw [parseDatetimeStamp_fields some_ same] at done
    split at done
    · cases done
    rename_i inside
    split at done
    · cases done
    rename_i present
    obtain ⟨date, ownYear, ownMonth, ownDay, pos, hour, minute, second⟩ := (inRange_iff fields).mp inside
    cases read : stampOffset (fields.text ++ rest) (19 + offsetStart rest) with
    | error message => simp [read, Except.map] at done
    | ok value =>
      obtain ⟨offset, small, text, rfl⟩ := (stampOffset_rest present).mp read
      rw [read, ← ownYear, ← ownMonth, ← ownDay] at done
      simp only [Except.map, stampResult_eq date (ownYear ▸ pos), Except.ok.injEq, Prod.mk.injEq] at done
      refine ⟨⟨date, fields.hour, fields.minute, fields.second, restFraction rest, offset⟩,
        ⟨ownYear ▸ pos, ?_, hour, minute, second, restFraction_digits rest, small⟩, ?_, done.1.symm, done.2.symm⟩
      · have year := fields.year_lt
        simp only
        omega
      · have whole := rest_split present
        rw [text] at whole
        rw [same, DateTime.text, DateTime.tail, whole, Fields.text, ownYear, ownMonth, ownDay]
  · rintro ⟨time, admissible, same, ownSeconds, ownDigits⟩
    rw [ownSeconds, ownDigits]
    have yearHigh := admissible.year_le
    have monthHigh := time.date.month_le
    have hour := admissible.hour
    have minute := admissible.minute
    have second := admissible.second
    have dayHigh : time.date.day ≤ 31 := time.date.day_le.trans (Calendar.monthLength_le _ _)
    let fields : Fields := ⟨time.date.year, time.date.month, time.date.day, time.hour, time.minute, time.second,
      by omega, by omega, by omega, by omega, by omega, by omega⟩
    obtain ⟨fraction, tz, present⟩ := rest_tail admissible.fraction
    have some_ : time.tail ≠ [] := by
      intro none
      obtain ⟨byte, rest, head, -, -⟩ := offset_head time.offset
      simp [DateTime.tail, head] at none
    have inside := (inRange_iff fields).mpr ⟨time.date, rfl, rfl, rfl, admissible.year_pos, hour, minute, second⟩
    have read := (@stampOffset_rest fields _ present _).mpr ⟨time.offset, admissible.offset, tz, rfl⟩
    rw [@parseDatetimeStamp_fields value fields _ some_ same, if_neg inside, if_neg present, read, fraction]
    simp only [Except.map]
    exact congrArg Except.ok (stampResult_eq time.date admissible.year_pos time.hour time.minute time.second _ _)

end Warm.Provenance
