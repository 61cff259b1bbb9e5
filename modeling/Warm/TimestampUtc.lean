import Warm.Timestamp

/-! The parser of whole UTC seconds takes one day from the month before it looks at the day: what it
accepts, and the texts on which the subtraction has nothing to take from. -/
namespace Warm.Provenance

open Bytes Binary Rfc3339
open Checked (error_bind ok_bind require_false require_true)

/-! ### The fields of a UTC text -/

theorem utcFields_iff :
    utcFields b = some (year, month, day, hour, minute, second) ↔
      ∃ fields : Fields, b = fields.text ++ [90] ∧ year = fields.year ∧ month = fields.month ∧ day = fields.day ∧
        hour = fields.hour ∧ minute = fields.minute ∧ second = fields.second := by
  constructor
  · intro read
    unfold utcFields at read
    split at read
    · rename_i shape
      obtain ⟨size, separated⟩ := shape
      obtain ⟨first, second', third, fourth, fifth, zulu⟩ := separated
      simp only [Option.bind_eq_bind, Option.bind_eq_some_iff, Option.some.injEq, Prod.mk.injEq] at read
      obtain ⟨y, readYear, m, readMonth, d, readDay, h, readHour, n, readMinute, s, readSecond, same⟩ := read
      obtain ⟨yearDigits, rfl⟩ := utcField_eq_some.mp readYear
      obtain ⟨monthDigits, rfl⟩ := utcField_eq_some.mp readMonth
      obtain ⟨dayDigits, rfl⟩ := utcField_eq_some.mp readDay
      obtain ⟨hourDigits, rfl⟩ := utcField_eq_some.mp readHour
      obtain ⟨minuteDigits, rfl⟩ := utcField_eq_some.mp readMinute
      obtain ⟨secondDigits, rfl⟩ := utcField_eq_some.mp readSecond
      obtain ⟨fields, rest, -, rfl⟩ := exists_fields (b := b) (by omega) ⟨first, second', third, fourth, fifth⟩
        ⟨yearDigits, monthDigits, dayDigits, hourDigits, minuteDigits, secondDigits⟩
      have last : rest = [90] := by
        simp only [List.length_append, Fields.text_length] at size
        obtain ⟨byte, rfl⟩ := List.length_eq_one_iff.mp (show rest.length = 1 by omega)
        have byteEq : byte = 90 := zulu
        rw [byteEq]
      subst last
      obtain ⟨yearPart, monthPart, dayPart, hourPart, minutePart, secondPart⟩ := part_fields fields [90]
      rw [yearPart, monthPart, dayPart, hourPart, minutePart, secondPart, decimal_fourDigits fields.year_lt,
        decimal_twoDigits fields.month_lt, decimal_twoDigits fields.day_lt, decimal_twoDigits fields.hour_lt,
        decimal_twoDigits fields.minute_lt, decimal_twoDigits fields.second_lt] at same
      obtain ⟨rfl, rfl, rfl, rfl, rfl, rfl⟩ := same
      exact ⟨fields, rfl, rfl, rfl, rfl, rfl, rfl, rfl⟩
    · cases read
  · rintro ⟨fields, rfl, rfl, rfl, rfl, rfl, rfl, rfl⟩
    obtain ⟨yearPart, monthPart, dayPart, hourPart, minutePart, secondPart⟩ := part_fields fields [90]
    have two (n : Nat) : ∀ byte ∈ twoDigits n, digit byte = true := by simp [twoDigits, digit_digitByte]
    have four (n : Nat) : ∀ byte ∈ fourDigits n, digit byte = true := by simp [fourDigits, digit_digitByte]
    have field {start stop n : Nat} (small : n < 100) (same : part (fields.text ++ [90]) start stop = twoDigits n) :
        utcField (fields.text ++ [90]) start stop = some n :=
      utcField_eq_some.mpr ⟨by rw [Digits, same]; exact two n, by rw [same, decimal_twoDigits small]⟩
    have year : utcField (fields.text ++ [90]) 0 4 = some fields.year :=
      utcField_eq_some.mpr ⟨by rw [Digits, yearPart]; exact four _, by rw [yearPart, decimal_fourDigits fields.year_lt]⟩
    unfold utcFields
    rw [if_pos ⟨rfl, rfl, rfl, rfl, rfl, rfl, rfl⟩, year, field fields.month_lt monthPart, field fields.day_lt dayPart,
      field fields.hour_lt hourPart, field fields.minute_lt minutePart, field fields.second_lt secondPart]
    rfl

/-- The fields that pass the checks before the arithmetic; the day is not among them. -/
def Fields.Checked (fields : Fields) : Prop :=
  1970 ≤ fields.year ∧ (1 ≤ fields.month ∧ fields.month ≤ 12) ∧ fields.hour ≤ 23 ∧ fields.minute ≤ 59 ∧
    fields.second ≤ 59

def Fields.Exists (fields : Fields) : Prop :=
  ∃ date : Date, date.year = fields.year ∧ date.month = fields.month ∧ date.day = fields.day

def Fields.seconds (fields : Fields) : Nat :=
  (Calendar.civil fields.year fields.month fields.day - 719468) * 86400 + fields.hour * 3600 + fields.minute * 60 +
    fields.second

section
variable {value : String} {fields : Fields} (same : utf8 value = fields.text ++ [90])
include same

theorem parseIso8601Utc_unchecked (outside : ¬ fields.Checked) :
    parseIso8601Utc value = .error (.error "timestamp field out of range") := by
  have read := utcFields_iff.mpr ⟨fields, same, rfl, rfl, rfl, rfl, rfl, rfl⟩
  unfold Fields.Checked at outside
  unfold parseIso8601Utc
  rw [read]
  dsimp only
  rw [require_false (by omega), error_bind]

theorem parseIso8601Utc_beforeFirst (checked : fields.Checked)
    (early : BeforeFirst fields.year fields.month fields.day) : parseIso8601Utc value = .error .overflow := by
  have read := utcFields_iff.mpr ⟨fields, same, rfl, rfl, rfl, rfl, rfl, rfl⟩
  unfold Fields.Checked at checked
  unfold parseIso8601Utc
  rw [read]
  dsimp only
  rw [require_true (by omega), ok_bind, utcDays_overflow fields.year_lt early, error_bind]

/-- Past the day count a date that exists is accepted, and no other. -/
theorem parseIso8601Utc_counted (checked : fields.Checked)
    (inside : ¬ BeforeFirst fields.year fields.month fields.day) :
    (fields.Exists ∧ parseIso8601Utc value = .ok fields.seconds) ∨
      (¬ fields.Exists ∧ parseIso8601Utc value = .error (.error "timestamp is not a valid calendar date")) := by
  have read := utcFields_iff.mpr ⟨fields, same, rfl, rfl, rfl, rfl, rfl, rfl⟩
  obtain ⟨recent, ⟨low, high⟩, hour, minute, second⟩ := checked
  have small := fields.year_lt
  have two := fields.day_lt
  have reached := civil_epoch recent low high inside
  have bound : Calendar.civil fields.year fields.month fields.day < 4000000 := Calendar.civil_lt small two
  unfold parseIso8601Utc
  rw [read]
  dsimp only
  rw [require_true (by omega), ok_bind, utcDays_ok recent small low high two inside, ok_bind]
  obtain ⟨date, found, count⟩ :=
    @daysToYmd_spec (Calendar.civil fields.year fields.month fields.day - 719468) (by omega)
  by_cases zero : fields.day = 0
  · refine .inr ⟨?_, ?_⟩
    · rintro ⟨other, -, -, own⟩
      have first := other.day_pos
      omega
    · rw [require_false (by omega), error_bind]
  rw [require_true zero, ok_bind, found, ok_bind]
  have exists_ : fields.Exists ↔ (date.year, date.month, date.day) = (fields.year, fields.month, fields.day) := by
    constructor
    · rintro ⟨other, year, month, day⟩
      have number := other.number_eq_civil (by omega)
      rw [year, month, day] at number
      have equal : other = date := Date.number_injective (by rw [number, count]; omega)
      rw [← equal, year, month, day]
    · intro equal
      simp only [Prod.mk.injEq] at equal
      exact ⟨date, equal⟩
  by_cases exists' : fields.Exists
  · refine .inl ⟨exists', ?_⟩
    rw [require_true (exists_.mp exists'), ok_bind]
    rw [U64.mul_ok (by omega), ok_bind, U64.mul_ok (by omega), ok_bind, U64.add_ok (by omega),
      ok_bind, U64.mul_ok (by omega), ok_bind, U64.add_ok (by omega), ok_bind,
      U64.add_ok (by omega)]
    rfl
  · refine .inr ⟨exists', ?_⟩
    rw [require_false (fun equal => exists' (exists_.mpr equal)), error_bind]

end

theorem parseIso8601Utc_malformed (none : ∀ fields : Fields, utf8 value ≠ fields.text ++ [90]) :
    parseIso8601Utc value = .error (.error malformedUtc) := by
  have unread : utcFields (utf8 value) = Option.none := by
    cases read : utcFields (utf8 value) with
    | none => rfl
    | some fields =>
      obtain ⟨year, month, day, hour, minute, second⟩ := fields
      obtain ⟨fields, same, -⟩ := utcFields_iff.mp read
      exact absurd same (none fields)
  unfold parseIso8601Utc
  rw [unread]

/-! ### Both parsers -/

def WholeUtc (time : DateTime) : Prop := 1970 ≤ time.date.year ∧ time.fraction = [] ∧ time.offset = .utc

/-- `parse_datetime_stamp` accepts the RFC 3339 date-times in range, gives their instants, and stays
within `i64`. -/
structure StampRight (value : String) : Prop where
  accepts : ∀ seconds digits, parseDatetimeStampI64 value = .ok (seconds, digits) ↔
    ∃ time : DateTime, time.Admissible ∧ utf8 value = time.text ∧ seconds = time.seconds ∧
      digits = trimZeros time.fraction
  fits : parseDatetimeStampI64 value ≠ .error .overflow

/-- `parse_iso8601_utc` accepts the whole UTC seconds from 1970 on, gives the seconds that
`parse_datetime_stamp` gives, and stays within `u64`. -/
structure UtcRight (value : String) : Prop where
  accepts : ∀ seconds, parseIso8601Utc value = .ok seconds ↔
    ∃ time : DateTime, time.Admissible ∧ WholeUtc time ∧ utf8 value = time.text ∧ (seconds : Int) = time.seconds
  agrees : ∀ seconds, parseIso8601Utc value = .ok seconds → parseDatetimeStampI64 value = .ok ((seconds : Int), [])
  fits : parseIso8601Utc value ≠ .error .overflow

theorem stampRight (value : String) : StampRight value where
  accepts := by
    intro seconds digits
    rw [parseDatetimeStampI64_eq, Checked.lift_eq_ok, parseDatetimeStamp_iff]
  fits := by
    rw [parseDatetimeStampI64_eq]
    exact Checked.lift_ne_overflow _

/-- The text is a UTC time of day on the day before a month at which the count starts: day 0 of March,
or of January 1970. -/
def DayBeforeFirst (value : String) : Prop :=
  ∃ year month day hour minute second, utcFields (utf8 value) = some (year, month, day, hour, minute, second) ∧
    1970 ≤ year ∧ hour ≤ 23 ∧ minute ≤ 59 ∧ second ≤ 59 ∧ day = 0 ∧ (month = 3 ∨ year = 1970 ∧ month = 1)

theorem dayBeforeFirst_iff {fields : Fields} (same : utf8 value = fields.text ++ [90]) :
    DayBeforeFirst value ↔ fields.Checked ∧ BeforeFirst fields.year fields.month fields.day := by
  have read := utcFields_iff.mpr ⟨fields, same, rfl, rfl, rfl, rfl, rfl, rfl⟩
  unfold DayBeforeFirst Fields.Checked BeforeFirst
  rw [read]
  constructor
  · rintro ⟨_, _, _, _, _, _, known, rest⟩
    cases known
    omega
  · rintro ⟨checked, early⟩
    exact ⟨_, _, _, _, _, _, rfl, checked.1, checked.2.2.1, checked.2.2.2.1, checked.2.2.2.2, early⟩

theorem Fields.seconds_eq {fields : Fields} (checked : fields.Checked) (date : Date) (year : date.year = fields.year)
    (month : date.month = fields.month) (day : date.day = fields.day) :
    (fields.seconds : Int) = (DateTime.mk date fields.hour fields.minute fields.second [] .utc).seconds := by
  obtain ⟨recent, ⟨low, high⟩, -⟩ := checked
  have first := date.day_pos
  have inside : ¬ BeforeFirst fields.year fields.month fields.day := fun early => by
    have none := early.1
    omega
  have reached := civil_epoch recent low high inside
  have number := date.number_eq_civil (by omega)
  rw [year, month, day] at number
  unfold seconds DateTime.seconds Offset.seconds
  dsimp only
  rw [number]
  omega

theorem wholeUtc_iff {seconds : Nat} :
    (∃ time : DateTime, time.Admissible ∧ WholeUtc time ∧ utf8 value = time.text ∧ (seconds : Int) = time.seconds) ↔
      ∃ fields : Fields, utf8 value = fields.text ++ [90] ∧ fields.Checked ∧ fields.Exists ∧ seconds = fields.seconds := by
  constructor
  · rintro ⟨time, admissible, ⟨recent, plain, utc⟩, same, total⟩
    have yearHigh := admissible.year_le
    have monthLow := time.date.month_pos
    have monthHigh := time.date.month_le
    have hour := admissible.hour
    have minute := admissible.minute
    have second := admissible.second
    have dayHigh : time.date.day ≤ 31 := time.date.day_le.trans (Calendar.monthLength_le _ _)
    let fields : Fields := ⟨time.date.year, time.date.month, time.date.day, time.hour, time.minute, time.second,
      by omega, by omega, by omega, by omega, by omega, by omega⟩
    have checked : fields.Checked := ⟨recent, ⟨monthLow, monthHigh⟩, hour, minute, second⟩
    have tail : time.tail = [90] := by simp [DateTime.tail, plain, utc, Offset.text]
    have whole : time = DateTime.mk time.date time.hour time.minute time.second [] .utc := by
      rw [← plain, ← utc]
    have counted := Fields.seconds_eq checked time.date rfl rfl rfl
    refine ⟨fields, by rw [same, DateTime.text, tail]; rfl, checked, ⟨time.date, rfl, rfl, rfl⟩, ?_⟩
    rw [whole] at total
    exact Int.ofNat.inj (total.trans counted.symm)
  · rintro ⟨fields, same, checked, ⟨date, year, month, day⟩, total⟩
    obtain ⟨recent, ⟨low, high⟩, hour, minute, second⟩ := checked
    have small := fields.year_lt
    refine ⟨⟨date, fields.hour, fields.minute, fields.second, [], .utc⟩,
      ⟨?_, ?_, hour, minute, second, by simp, trivial⟩, ⟨?_, rfl, rfl⟩, ?_, ?_⟩
    · dsimp only
      omega
    · dsimp only
      omega
    · dsimp only
      omega
    · rw [same, DateTime.text, DateTime.tail, Fields.text, year, month, day]
      rfl
    · rw [total, Fields.seconds_eq ⟨recent, ⟨low, high⟩, hour, minute, second⟩ date year month day]

theorem parseIso8601Utc_eq_ok (inside : ¬ DayBeforeFirst value) :
    parseIso8601Utc value ≠ .error .overflow ∧ ∀ seconds, parseIso8601Utc value = .ok seconds ↔
      ∃ fields : Fields, utf8 value = fields.text ++ [90] ∧ fields.Checked ∧ fields.Exists ∧ seconds = fields.seconds := by
  by_cases shaped : ∃ fields : Fields, utf8 value = fields.text ++ [90]
  · obtain ⟨fields, same⟩ := shaped
    have unique (other : Fields) (again : utf8 value = other.text ++ [90]) : other = fields := by
      have read := utcFields_iff.mpr ⟨fields, same, rfl, rfl, rfl, rfl, rfl, rfl⟩
      have readAgain := utcFields_iff.mpr ⟨other, again, rfl, rfl, rfl, rfl, rfl, rfl⟩
      rw [read] at readAgain
      cases fields
      cases other
      simp_all
    rw [dayBeforeFirst_iff same] at inside
    by_cases checked : fields.Checked
    · rcases parseIso8601Utc_counted same checked fun early => inside ⟨checked, early⟩ with
        ⟨exists_, accepted⟩ | ⟨missing, rejected⟩
      · refine ⟨by rw [accepted]; simp, fun seconds => ?_⟩
        rw [accepted, Except.ok.injEq]
        constructor
        · exact fun own => ⟨fields, same, checked, exists_, own.symm⟩
        · rintro ⟨other, again, -, -, rfl⟩
          rw [unique other again]
      · refine ⟨by rw [rejected]; simp, fun seconds => iff_of_false (by rw [rejected]; simp) ?_⟩
        rintro ⟨other, again, -, exists_, -⟩
        exact missing (unique other again ▸ exists_)
    · have rejected := parseIso8601Utc_unchecked same checked
      refine ⟨by rw [rejected]; simp, fun seconds => iff_of_false (by rw [rejected]; simp) ?_⟩
      rintro ⟨other, again, checkedOther, -⟩
      exact checked (unique other again ▸ checkedOther)
  · have rejected := parseIso8601Utc_malformed fun fields same => shaped ⟨fields, same⟩
    refine ⟨by rw [rejected]; simp, fun seconds => iff_of_false (by rw [rejected]; simp) ?_⟩
    rintro ⟨fields, same, -⟩
    exact shaped ⟨fields, same⟩

theorem utcRight_iff (value : String) : UtcRight value ↔ ¬ DayBeforeFirst value := by
  constructor
  · rintro right ⟨year, month, day, hour, minute, second, read, recent, hourLe, minuteLe, secondLe, early⟩
    obtain ⟨fields, same, rfl, rfl, rfl, rfl, rfl, rfl⟩ := utcFields_iff.mp read
    exact right.fits (parseIso8601Utc_beforeFirst same ⟨recent, by omega, hourLe, minuteLe, secondLe⟩ early)
  · intro inside
    obtain ⟨fits, accepted⟩ := parseIso8601Utc_eq_ok inside
    refine ⟨fun seconds => (accepted seconds).trans wholeUtc_iff.symm, fun seconds done => ?_, fits⟩
    obtain ⟨time, admissible, ⟨-, plain, -⟩, same, total⟩ := wholeUtc_iff.mpr ((accepted seconds).mp done)
    exact ((stampRight value).accepts seconds []).mpr ⟨time, admissible, same, total, by rw [plain]; rfl⟩

theorem statusTime_le_iff {a b : DateTime} (admissibleA : a.Admissible) (admissibleB : b.Admissible) :
    StatusTime.le (a.seconds, trimZeros a.fraction) (b.seconds, trimZeros b.fraction) = true ↔
      a.instant ≤ b.instant := by
  rw [instant_le_iff admissibleA admissibleB]
  unfold StatusTime.le trimZeros List.rdropWhile
  simp

/-- `parse_datetime_stamp` is right on every text, its results compare as instants do, `days_to_ymd` gives
the date of every day whose count from year 0 fits, and `parse_iso8601_utc` is right on every text but
those of day 0 of March and of January 1970. -/
theorem timestamps_right (value : String) (a b : DateTime) (days : Nat) :
    StampRight value ∧
      (a.Admissible → b.Admissible →
        (StatusTime.le (a.seconds, trimZeros a.fraction) (b.seconds, trimZeros b.fraction) = true ↔
          a.instant ≤ b.instant)) ∧
      ((∃ date : Date, daysToYmd days = .ok (date.year, date.month, date.day) ∧ date.number = days) ↔
        days + 719468 < 2 ^ 64) ∧
      (UtcRight value ↔ ¬ DayBeforeFirst value) := by
  refine ⟨stampRight value, statusTime_le_iff, ?_, utcRight_iff value⟩
  constructor
  · rintro ⟨date, found, -⟩
    by_contra past
    rw [daysToYmd_overflow (by omega)] at found
    cases found
  · exact daysToYmd_spec

def Sample.epoch (fraction : Bytes) : DateTime :=
  ⟨⟨1970, 1, 1, by decide, by decide, by decide, by decide⟩, 0, 0, 0, fraction, .utc⟩

theorem Sample.epoch_admissible (digits : ∀ byte ∈ fraction, digit byte = true) : (Sample.epoch fraction).Admissible :=
  ⟨by simp [epoch], by simp [epoch], by simp [epoch], by simp [epoch], by simp [epoch], digits, trivial⟩

/-- The start of 1970 is read, half a second after it compares as the instant does, and its day is the
first. -/
theorem timestamps_right_epoch :
    UtcRight "1970-01-01T00:00:00Z" ∧
      (StatusTime.le ((Sample.epoch [53]).seconds, trimZeros [53]) ((Sample.epoch [54, 48]).seconds, trimZeros [54, 48]) =
        true ↔ (Sample.epoch [53]).instant ≤ (Sample.epoch [54, 48]).instant) ∧
      ∃ date : Date, daysToYmd 0 = .ok (date.year, date.month, date.day) ∧ date.number = (0 : Nat) := by
  obtain ⟨-, compares, dated, known⟩ :=
    timestamps_right "1970-01-01T00:00:00Z" (Sample.epoch [53]) (Sample.epoch [54, 48]) 0
  refine ⟨known.mpr ?_,
    compares (Sample.epoch_admissible (List.all_eq_true.mp rfl)) (Sample.epoch_admissible (List.all_eq_true.mp rfl)),
    dated.mpr (by decide)⟩
  rintro ⟨year, month, day, hour, minute, second, read, -, -, -, -, zero, -⟩
  have known : utcFields (utf8 "1970-01-01T00:00:00Z") = some (1970, 1, 1, 0, 0, 0) := by decide
  rw [known] at read
  cases read
  cases zero

/-- Day 0 of March leaves `u64`. -/
theorem march_day_zero_overflows :
    parseIso8601Utc "1970-03-00T00:00:00Z" = .error .overflow ∧ ¬ ∀ value, UtcRight value := by
  have overflows : parseIso8601Utc "1970-03-00T00:00:00Z" = .error .overflow := by decide
  exact ⟨overflows, fun right => (right _).fits overflows⟩

end Warm.Provenance
