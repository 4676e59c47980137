import EmbeddedTemplate.Lib.Word

/-! Conversion between seconds since 2000-01-01 and calendar dates, `second_datetime.c`.
A year is a leap year when it is divisible by 4. Fields of `struct datetime` are 8 bits
wide, seconds 32 bits. -/
namespace EmbeddedTemplate.SecondDatetime

def u8 (n : ℤ) : ℕ := Word.wrap 8 n
def u32 (n : ℤ) : ℕ := Word.wrap 32 n

structure Datetime where
  year : ℕ
  month : ℕ
  day : ℕ
  weekday : ℕ
  hour : ℕ
  minute : ℕ
  second : ℕ
deriving DecidableEq

def secondsPerMinute : ℕ := 60
def secondsPerHour : ℕ := secondsPerMinute * 60
def secondsPerDay : ℕ := secondsPerHour * 24
def secondsPerWeek : ℕ := secondsPerDay * 7
def secondsPerComYear : ℕ := secondsPerDay * 365
def secondsPerLeapYear : ℕ := secondsPerDay * 366
def secondsPerFourYears : ℕ := secondsPerLeapYear + secondsPerComYear * 3

def isLeapYear (d : Datetime) : Bool := d.year % 4 == 0

def secondsTable4year : List ℕ :=
  [0, secondsPerLeapYear, secondsPerLeapYear + secondsPerComYear * 1,
    secondsPerLeapYear + secondsPerComYear * 2]

def monthDaysAccTableComYear : List ℕ := [0, 31, 59, 90, 120, 151, 181, 212, 243, 273, 304, 334]
def monthDaysAccTableLeapYear : List ℕ := [0, 31, 60, 91, 121, 152, 182, 213, 244, 274, 305, 335]

def accTable (d : Datetime) : List ℕ :=
  if isLeapYear d then monthDaysAccTableLeapYear else monthDaysAccTableComYear

/-- The search loops: `i` runs over the entries of the table and stops at the first one
above `x`. -/
def search (x : ℕ) : List ℕ → ℕ → ℕ
  | [], i => i
  | t :: ts, i => if x < t then i else search x ts (i + 1)

def calcYear (d : Datetime) (second : ℕ) : Datetime × ℕ :=
  let year := u8 (second / secondsPerFourYears * 4 : ℕ)
  let second := second % secondsPerFourYears
  let i := u8 ((search second secondsTable4year 0 : ℤ) - 1)
  ({ d with year := u8 (year + i : ℕ) }, u32 ((second : ℤ) - secondsTable4year.getD i 0))

def yearToSeconds (d : Datetime) : ℕ :=
  u32 (d.year / 4 * secondsPerFourYears + secondsTable4year.getD (d.year % 4) 0 : ℕ)

/-- The loop starts at the second entry. -/
def calcMonthAndDate (d : Datetime) (dayOffsetOfYear : ℕ) : Datetime :=
  let table := accTable d
  let i := search dayOffsetOfYear table.tail 1
  { d with month := u8 i, day := u8 ((dayOffsetOfYear : ℤ) - table.getD (i - 1) 0 + 1) }

def monthDateToSeconds (d : Datetime) : ℕ :=
  u32 (((accTable d).getD (d.month - 1) 0 + d.day - 1 : ℤ) * secondsPerDay)

/-- 2000-01-01 is a Saturday. -/
def calWeekDay (second : ℕ) : ℕ :=
  let day := u8 (u8 (second % secondsPerWeek / secondsPerDay : ℕ) + 5 : ℕ)
  if 7 ≤ day then day - 7 else day

def calcTime (d : Datetime) (second : ℕ) : Datetime :=
  let second := second % secondsPerDay
  let hour := u8 (second / secondsPerHour : ℕ)
  let second := second % secondsPerHour
  { d with
    hour
    minute := u8 (second / secondsPerMinute : ℕ)
    second := u8 (second % secondsPerMinute : ℕ) }

def timeToSeconds (d : Datetime) : ℕ :=
  u32 (d.hour * secondsPerHour + d.minute * secondsPerMinute + d.second : ℕ)

def isValidDatetimeIgnoreWeekday (d : Datetime) : Bool :=
  0 < d.month && d.month ≤ 12 && 0 < d.day && d.day ≤ 31 && d.hour < 24 && d.minute ≤ 59 &&
    d.second ≤ 59

def toSeconds (d : Datetime) : ℕ :=
  u32 (yearToSeconds d + monthDateToSeconds d + timeToSeconds d : ℕ)

/-- `d` is the record behind the pointer, which is overwritten. -/
def secondToDatetime (d : Datetime) (second : ℕ) : Datetime :=
  let d := { d with weekday := calWeekDay second }
  let r := calcYear d second
  let d := calcMonthAndDate r.1 (r.2 / secondsPerDay)
  calcTime d r.2

/-- `none` is the return value 0. -/
def datetimeToSecond (d : Datetime) : Option ℕ :=
  if isValidDatetimeIgnoreWeekday d then some (toSeconds d) else none

def datetimeIsValid (d : Datetime) (needCheckWeekday : Bool) : Bool :=
  if !isValidDatetimeIgnoreWeekday d then false
  else if !needCheckWeekday then true
  else calWeekDay (toSeconds d) == d.weekday

/-- Length of a month, for years that are leap when divisible by 4. -/
def monthLength (year month : ℕ) : ℕ :=
  if month = 2 then (if year % 4 = 0 then 29 else 28)
  else if month = 4 ∨ month = 6 ∨ month = 9 ∨ month = 11 then 30 else 31

theorem u8_of_lt {n : ℕ} (h : n < 2 ^ 8) : u8 n = n := by
  unfold u8
  exact Word.wrap_of_lt h

theorem u32_of_lt {n : ℕ} (h : n < 2 ^ 32) : u32 n = n := by
  unfold u32
  exact Word.wrap_of_lt h

/-- Seconds before year `i` of a block of four, and the length of that year in days. -/
def yearStart (i : ℕ) : ℕ := secondsTable4year.getD i 0
def yearDays (i : ℕ) : ℕ := if i % 4 = 0 then 366 else 365

theorem secondsPerDay_eq : secondsPerDay = 86400 := by decide
theorem secondsPerFourYears_eq : secondsPerFourYears = 126230400 := by decide
theorem secondsTable4year_eq : secondsTable4year = [0, 31622400, 63158400, 94694400] := by decide

theorem search_year {r : ℕ} (h : r < secondsPerFourYears) :
    ∃ i < 4, search r secondsTable4year 0 = i + 1 ∧ yearStart i ≤ r ∧
      r - yearStart i < yearDays i * secondsPerDay := by
  rw [secondsPerFourYears_eq] at h
  simp only [yearStart, secondsTable4year_eq, secondsPerDay_eq, search, Nat.not_lt_zero, if_false]
  split_ifs with h₁ h₂ h₃
  · refine ⟨0, by decide, rfl, ?_, ?_⟩ <;> simp [yearDays]
    exact h₁
  · refine ⟨1, by decide, rfl, ?_, ?_⟩ <;> simp [yearDays] <;> omega
  · refine ⟨2, by decide, rfl, ?_, ?_⟩ <;> simp [yearDays] <;> omega
  · refine ⟨3, by decide, rfl, ?_, ?_⟩ <;> simp [yearDays] <;> omega

/-- Both tables assign to each day of the year a month and a day inside that month. -/
theorem search_month_leap : ∀ off < 366, ∃ m < 12,
    search off monthDaysAccTableLeapYear.tail 1 = m + 1 ∧
      monthDaysAccTableLeapYear.getD m 0 ≤ off ∧
      off - monthDaysAccTableLeapYear.getD m 0 < monthLength 0 (m + 1) := by
  decide +kernel

theorem search_month_com : ∀ off < 365, ∃ m < 12,
    search off monthDaysAccTableComYear.tail 1 = m + 1 ∧
      monthDaysAccTableComYear.getD m 0 ≤ off ∧
      off - monthDaysAccTableComYear.getD m 0 < monthLength 1 (m + 1) := by
  decide +kernel

theorem monthLength_le (y m : ℕ) : monthLength y m ≤ 31 := by
  unfold monthLength
  split_ifs <;> omega

theorem calWeekDay_le (s : ℕ) : calWeekDay s ≤ 6 := by
  have hday : s % secondsPerWeek / secondsPerDay < 7 := by
    apply Nat.div_lt_of_lt_mul
    exact Nat.mod_lt s (by decide)
  have hsum : u8 (s % secondsPerWeek / secondsPerDay : ℕ) + 5 < 2 ^ 8 := by
    rw [u8_of_lt (by omega)]
    omega
  unfold calWeekDay
  dsimp only
  rw [u8_of_lt hsum, u8_of_lt (by omega)]
  split_ifs <;> omega

theorem calcYear_eq (d : Datetime) {s : ℕ} (hs : s < 2 ^ 32) :
    ∃ q i left, i < 4 ∧ left < yearDays i * secondsPerDay ∧
      s = q * secondsPerFourYears + yearStart i + left ∧ q ≤ 34 ∧
      calcYear d s = ({ d with year := 4 * q + i }, left) := by
  have hr : s % secondsPerFourYears < secondsPerFourYears := Nat.mod_lt s (by decide)
  obtain ⟨i, hi, hsearch, hle, hlt⟩ := search_year hr
  have hdiv : s / secondsPerFourYears ≤ 34 := by
    apply Nat.le_of_lt_succ
    apply Nat.div_lt_of_lt_mul
    exact hs.trans (by decide)
  have hmod := Nat.div_add_mod s secondsPerFourYears
  rw [Nat.mul_comm] at hmod
  refine ⟨s / secondsPerFourYears, i, s % secondsPerFourYears - yearStart i, hi, hlt, by omega,
    hdiv, ?_⟩
  have hi' : u8 ((search (s % secondsPerFourYears) secondsTable4year 0 : ℤ) - 1) = i := by
    rw [hsearch]
    push_cast
    rw [Int.add_sub_cancel]
    exact u8_of_lt (by omega)
  have hyear : u8 (u8 (s / secondsPerFourYears * 4 : ℕ) + i : ℕ) = 4 * (s / secondsPerFourYears) + i := by
    have hblock : u8 (s / secondsPerFourYears * 4 : ℕ) = s / secondsPerFourYears * 4 :=
      u8_of_lt (by omega)
    rw [hblock, u8_of_lt (by omega)]
    omega
  have hleft : u32 ((s % secondsPerFourYears : ℕ) - (yearStart i : ℕ) : ℤ) =
      s % secondsPerFourYears - yearStart i := by
    rw [← Nat.cast_sub hle]
    exact u32_of_lt (by omega)
  simp only [calcYear, hi', hyear]
  exact congrArg _ hleft

theorem calcMonthAndDate_eq (d : Datetime) {off : ℕ} (h : off < yearDays d.year) :
    ∃ m < 12, (accTable d).getD m 0 ≤ off ∧
      off - (accTable d).getD m 0 < monthLength d.year (m + 1) ∧
      calcMonthAndDate d off =
        { d with month := m + 1, day := off - (accTable d).getD m 0 + 1 } := by
  have hfound : ∃ m < 12, search off (accTable d).tail 1 = m + 1 ∧ (accTable d).getD m 0 ≤ off ∧
      off - (accTable d).getD m 0 < monthLength d.year (m + 1) := by
    by_cases hleap : d.year % 4 = 0
    · obtain ⟨m, hm, hsearch, hle, hlt⟩ := search_month_leap off (by simpa [yearDays, hleap] using h)
      exact ⟨m, hm, by simpa [accTable, isLeapYear, hleap] using hsearch,
        by simpa [accTable, isLeapYear, hleap] using hle,
        by simpa [accTable, isLeapYear, hleap, monthLength] using hlt⟩
    · obtain ⟨m, hm, hsearch, hle, hlt⟩ := search_month_com off (by simpa [yearDays, hleap] using h)
      exact ⟨m, hm, by simpa [accTable, isLeapYear, hleap] using hsearch,
        by simpa [accTable, isLeapYear, hleap] using hle,
        by simpa [accTable, isLeapYear, hleap, monthLength] using hlt⟩
  obtain ⟨m, hm, hsearch, hle, hlt⟩ := hfound
  have hlen := monthLength_le d.year (m + 1)
  refine ⟨m, hm, hle, hlt, ?_⟩
  have hmonth : u8 (m + 1 : ℕ) = m + 1 := u8_of_lt (by omega)
  have hday : u8 ((off : ℤ) - (accTable d).getD m 0 + 1) = off - (accTable d).getD m 0 + 1 := by
    rw [← Nat.cast_sub hle]
    exact u8_of_lt (n := off - (accTable d).getD m 0 + 1) (by omega)
  simp only [calcMonthAndDate, hsearch, hmonth, Nat.add_sub_cancel, hday]

theorem calcTime_eq (d : Datetime) (x : ℕ) :
    calcTime d x =
      { d with hour := x % secondsPerDay / secondsPerHour,
               minute := x % secondsPerDay % secondsPerHour / secondsPerMinute,
               second := x % secondsPerDay % secondsPerHour % secondsPerMinute } := by
  simp only [calcTime, secondsPerDay, secondsPerHour, secondsPerMinute]
  rw [u8_of_lt (by omega), u8_of_lt (by omega), u8_of_lt (by omega)]

/-- A date put together from year `i` of block `q`, day `off` of that year, which is in
month `m + 1`, and second `tod` of that day. -/
structure Parts (d : Datetime) (q i m off tod : ℕ) : Prop where
  i_lt : i < 4
  m_lt : m < 12
  tod_lt : tod < secondsPerDay
  acc_le : (accTable d).getD m 0 ≤ off
  off_lt : off - (accTable d).getD m 0 < monthLength d.year (m + 1)
  year : d.year = 4 * q + i
  month : d.month = m + 1
  day : d.day = off - (accTable d).getD m 0 + 1
  hour : d.hour = tod / secondsPerHour
  minute : d.minute = tod % secondsPerHour / secondsPerMinute
  second : d.second = tod % secondsPerHour % secondsPerMinute

namespace Parts
variable {d : Datetime} {q i m off tod : ℕ}

theorem toSeconds_eq (h : Parts d q i m off tod)
    (hs : q * secondsPerFourYears + yearStart i + off * secondsPerDay + tod < 2 ^ 32) :
    toSeconds d = q * secondsPerFourYears + yearStart i + off * secondsPerDay + tod := by
  have hi := h.i_lt
  have hle := h.acc_le
  have htod := h.tod_lt
  have hy : yearToSeconds d = q * secondsPerFourYears + yearStart i := by
    have hdiv : (4 * q + i) / 4 = q := by omega
    have hmod : (4 * q + i) % 4 = i := by omega
    simp only [yearToSeconds, h.year, hdiv, hmod]
    exact u32_of_lt (by
      show q * secondsPerFourYears + yearStart i < 2 ^ 32
      omega)
  have hm : monthDateToSeconds d = off * secondsPerDay := by
    have hoff : ((accTable d).getD m 0 + ((off - (accTable d).getD m 0 + 1 : ℕ) : ℤ) - 1 : ℤ) =
        (off : ℕ) := by omega
    simp only [monthDateToSeconds, h.month, h.day, Nat.add_sub_cancel, hoff]
    exact_mod_cast u32_of_lt (show off * secondsPerDay < 2 ^ 32 by omega)
  have ht : timeToSeconds d = tod := by
    simp only [timeToSeconds, h.hour, h.minute, h.second, secondsPerHour, secondsPerMinute]
    rw [u32_of_lt (by simp only [secondsPerDay, secondsPerHour, secondsPerMinute] at htod; omega)]
    omega
  rw [toSeconds, hy, hm, ht]
  exact u32_of_lt hs

theorem ranges (h : Parts d q i m off tod) :
    1 ≤ d.month ∧ d.month ≤ 12 ∧ 1 ≤ d.day ∧ d.day ≤ monthLength d.year d.month ∧
      d.hour < 24 ∧ d.minute ≤ 59 ∧ d.second ≤ 59 := by
  have hm := h.m_lt
  have htod := h.tod_lt
  have hoff := h.off_lt
  simp only [secondsPerDay, secondsPerHour, secondsPerMinute] at htod
  rw [h.month, h.day, h.hour, h.minute, h.second]
  simp only [secondsPerHour, secondsPerMinute]
  refine ⟨?_, ?_, ?_, ?_, ?_, ?_, ?_⟩ <;> omega

theorem valid (h : Parts d q i m off tod) : isValidDatetimeIgnoreWeekday d = true := by
  obtain ⟨hm₁, hm₂, hd₁, hd₂, hhour, hmin, hsec⟩ := h.ranges
  have hd₃ : d.day ≤ 31 := hd₂.trans (monthLength_le d.year d.month)
  simp only [isValidDatetimeIgnoreWeekday, Bool.and_eq_true, decide_eq_true_eq]
  exact ⟨⟨⟨⟨⟨⟨hm₁, hm₂⟩, hd₁⟩, hd₃⟩, hhour⟩, hmin⟩, hsec⟩

end Parts

theorem secondToDatetime_parts (d : Datetime) {s : ℕ} (hs : s < 2 ^ 32) :
    ∃ q i m off tod, Parts (secondToDatetime d s) q i m off tod ∧
      s = q * secondsPerFourYears + yearStart i + off * secondsPerDay + tod ∧
      (secondToDatetime d s).weekday = calWeekDay s := by
  obtain ⟨q, i, left, hi, hleft, hsum, -, hyear⟩ :=
    calcYear_eq { d with weekday := calWeekDay s } hs
  have hdays : left / secondsPerDay < yearDays (4 * q + i) := by
    have hy : yearDays (4 * q + i) = yearDays i := by simp [yearDays]
    rw [hy]
    exact Nat.div_lt_of_lt_mul (by rwa [Nat.mul_comm])
  obtain ⟨m, hm, hle, hlt, hmonth⟩ := calcMonthAndDate_eq
    { d with weekday := calWeekDay s, year := 4 * q + i } hdays
  have htod : left % secondsPerDay < secondsPerDay := Nat.mod_lt _ (by decide)
  have hsplit := Nat.div_add_mod left secondsPerDay
  rw [Nat.mul_comm] at hsplit
  refine ⟨q, i, m, left / secondsPerDay, left % secondsPerDay, ?_, by omega, ?_⟩
  · simp only [secondToDatetime, hyear, hmonth, calcTime_eq]
    exact ⟨hi, hm, htod, hle, hlt, rfl, rfl, rfl, rfl, rfl, rfl⟩
  · simp only [secondToDatetime, hyear, hmonth, calcTime_eq]

/-- Every 32-bit second becomes a real date, that date passes its own check, and it is
converted back to the same second. -/
theorem datetime_roundtrip (d : Datetime) (s : UInt32) :
    let t := secondToDatetime d s.toNat
    1 ≤ t.month ∧ t.month ≤ 12 ∧ 1 ≤ t.day ∧ t.day ≤ monthLength t.year t.month ∧
      t.hour < 24 ∧ t.minute ≤ 59 ∧ t.second ≤ 59 ∧ t.weekday ≤ 6 ∧
      datetimeIsValid t true = true ∧ datetimeToSecond t = some s.toNat := by
  intro t
  obtain ⟨q, i, m, off, tod, hparts, hsum, hweek⟩ := secondToDatetime_parts d s.toNat_lt
  have hback : toSeconds t = s.toNat := by
    rw [hparts.toSeconds_eq (hsum ▸ s.toNat_lt), ← hsum]
  have hvalid : isValidDatetimeIgnoreWeekday t = true := hparts.valid
  obtain ⟨hm₁, hm₂, hd₁, hd₂, hhour, hmin, hsec⟩ := hparts.ranges
  refine ⟨hm₁, hm₂, hd₁, hd₂, hhour, hmin, hsec, hweek ▸ calWeekDay_le s.toNat, ?_, ?_⟩
  · have hday : calWeekDay (toSeconds t) = t.weekday := by
      rw [hback]
      exact hweek.symm
    simp [datetimeIsValid, hvalid, hday]
  · simp [datetimeToSecond, hvalid, hback]

end EmbeddedTemplate.SecondDatetime
