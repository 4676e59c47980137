import EmbeddedTemplate.Lib.Gregorian
import EmbeddedTemplate.Misc.SecondDatetime
import Mathlib.Tactic.IntervalCases

/-! The conversions of `second_datetime.c` against the Gregorian calendar, and which dates
`datetime_to_second` accepts. -/
namespace EmbeddedTemplate.SecondDatetime

open Gregorian (locate_unique)

/-- A Gregorian year with the months of year `year`. -/
def sampleYear (year : ℕ) : ℕ := if year % 4 = 0 then 2000 else 2001

theorem isLeap_sampleYear (year : ℕ) : Gregorian.isLeap (sampleYear year) ↔ year % 4 = 0 := by
  unfold sampleYear
  by_cases h : year % 4 = 0
  · rw [if_pos h]
    exact iff_of_true (by decide) h
  · rw [if_neg h]
    exact iff_of_false (by decide) h

theorem monthLength_eq (year month : ℕ) :
    monthLength year month = Gregorian.monthLength (sampleYear year) month := by
  unfold monthLength Gregorian.monthLength
  simp only [isLeap_sampleYear]

theorem yearDays_eq (year : ℕ) : yearDays year = Gregorian.yearLength (sampleYear year) := by
  unfold yearDays Gregorian.yearLength
  simp only [isLeap_sampleYear]

theorem leapTable_eq : ∀ m < 12,
    monthDaysAccTableLeapYear.getD m 0 = Gregorian.monthStart 2000 m := by
  decide

theorem comTable_eq : ∀ m < 12,
    monthDaysAccTableComYear.getD m 0 = Gregorian.monthStart 2001 m := by
  decide

theorem accTable_eq (d : Datetime) {m : ℕ} (hm : m < 12) :
    (accTable d).getD m 0 = Gregorian.monthStart (sampleYear d.year) m := by
  unfold accTable isLeapYear sampleYear
  by_cases h : d.year % 4 = 0
  · simp only [h, beq_self_eq_true, if_true]
    exact leapTable_eq m hm
  · simp only [h, beq_eq_false_iff_ne.mpr h, Bool.false_eq_true, if_false]
    exact comTable_eq m hm

/-- Days from 2000-01-01 to the start of a year, when every fourth year is a leap year. -/
def yearBegin (year : ℕ) : ℕ := year / 4 * 1461 + [0, 366, 731, 1096].getD (year % 4) 0

theorem yearBegin_succ (year : ℕ) : yearBegin (year + 1) = yearBegin year + yearDays year := by
  have hlt : year % 4 < 4 := Nat.mod_lt _ (by decide)
  unfold yearBegin yearDays
  generalize hr : year % 4 = r at hlt
  interval_cases r
  · rw [show (year + 1) % 4 = 1 by omega, show (year + 1) / 4 = year / 4 by omega]
    simp
  · rw [show (year + 1) % 4 = 2 by omega, show (year + 1) / 4 = year / 4 by omega]
    simp
  · rw [show (year + 1) % 4 = 3 by omega, show (year + 1) / 4 = year / 4 by omega]
    simp
  · rw [show (year + 1) % 4 = 0 by omega, show (year + 1) / 4 = year / 4 + 1 by omega]
    simp
    omega

theorem yearBegin_mono : Monotone yearBegin :=
  monotone_nat_of_le_succ fun year => by
    rw [yearBegin_succ]
    exact Nat.le_add_right _ _

theorem yearStart_eq {i : ℕ} (hi : i < 4) : yearStart i = [0, 366, 731, 1096].getD i 0 * 86400 := by
  interval_cases i <;> rfl

namespace Parts
variable {d e : Datetime} {q i m off tod q' i' m' off' tod' : ℕ}

theorem sum_eq (h : Parts d q i m off tod) :
    q * secondsPerFourYears + yearStart i + off * secondsPerDay + tod =
      (yearBegin d.year + off) * 86400 + tod := by
  have hi := h.i_lt
  have hdiv : d.year / 4 = q := by
    rw [h.year]
    omega
  have hmod : d.year % 4 = i := by
    rw [h.year]
    omega
  unfold yearBegin
  rw [hdiv, hmod, yearStart_eq hi, secondsPerFourYears_eq, secondsPerDay_eq]
  omega

theorem acc_eq (h : Parts d q i m off tod) :
    (accTable d).getD m 0 = Gregorian.monthStart (sampleYear d.year) m :=
  accTable_eq d h.m_lt

theorem off_lt_yearDays (h : Parts d q i m off tod) : off < yearDays d.year := by
  have hacc := h.acc_eq
  have hle := h.acc_le
  have hlt := h.off_lt
  have hstart := Gregorian.monthStart_add_le (sampleYear d.year) h.m_lt
  rw [Gregorian.monthStart_twelve] at hstart
  rw [monthLength_eq] at hlt
  rw [yearDays_eq]
  omega

end Parts

/-- The fields that `datetime_to_second` reads. -/
def SameTime (d e : Datetime) : Prop :=
  d.year = e.year ∧ d.month = e.month ∧ d.day = e.day ∧ d.hour = e.hour ∧ d.minute = e.minute ∧
    d.second = e.second

instance (d e : Datetime) : Decidable (SameTime d e) := inferInstanceAs (Decidable (_ ∧ _))

namespace Parts
variable {d e : Datetime} {q i m off tod q' i' m' off' tod' : ℕ}

theorem congr (h : Parts d q i m off tod) (hs : SameTime d e) : Parts e q i m off tod := by
  obtain ⟨hy, hm, hd, hh, hmin, hsec⟩ := hs
  have htable : accTable e = accTable d := by
    unfold accTable isLeapYear
    rw [hy]
  exact ⟨h.i_lt, h.m_lt, h.tod_lt, htable ▸ h.acc_le, htable ▸ hy ▸ h.off_lt, hy ▸ h.year,
    hm ▸ h.month, htable ▸ hd ▸ h.day, hh ▸ h.hour, hmin ▸ h.minute, hsec ▸ h.second⟩

theorem unique (h : Parts d q i m off tod) (h' : Parts e q' i' m' off' tod')
    (heq : (yearBegin d.year + off) * 86400 + tod = (yearBegin e.year + off') * 86400 + tod') :
    SameTime d e := by
  have htod := h.tod_lt
  have htod' := h'.tod_lt
  rw [secondsPerDay_eq] at htod htod'
  have hsame : tod = tod' := by omega
  have hdays : yearBegin d.year + off = yearBegin e.year + off' := by omega
  obtain ⟨hyear, hoff⟩ := locate_unique yearBegin yearDays (d.year + e.year + 1)
    (fun j _ => yearBegin_succ j) (by omega) (by omega) h.off_lt_yearDays h'.off_lt_yearDays hdays
  have hacc := h.acc_eq
  have hacc' := h'.acc_eq
  have hlt := h.off_lt
  have hlt' := h'.off_lt
  have hle := h.acc_le
  have hle' := h'.acc_le
  rw [monthLength_eq] at hlt hlt'
  rw [← hyear] at hacc' hlt'
  obtain ⟨hmonth, hday⟩ := locate_unique (Gregorian.monthStart (sampleYear d.year))
    (fun k => Gregorian.monthLength (sampleYear d.year) (k + 1)) 12 (fun _ _ => rfl) h.m_lt h'.m_lt
    (hacc ▸ hlt) (hacc' ▸ hlt') (by omega)
  subst hmonth hsame
  refine ⟨hyear, by rw [h.month, h'.month], by rw [h.day, h'.day]; omega, ?_, ?_, ?_⟩
  · rw [h.hour, h'.hour]
  · rw [h.minute, h'.minute]
  · rw [h.second, h'.second]

end Parts

def gregorian (d : Datetime) : Gregorian.Date := ⟨2000 + d.year, d.month, d.day⟩

theorem ordinal_first : (⟨2000, 1, 1⟩ : Gregorian.Date).ordinal = 730120 := by decide

theorem isLeap_century {year : ℕ} (h : year ≤ 99) :
    Gregorian.isLeap (2000 + year) ↔ Gregorian.isLeap (sampleYear year) := by
  rw [isLeap_sampleYear]
  unfold Gregorian.isLeap
  omega

/-- Up to 2099, a real date is a Gregorian one and lies as many days behind 2000-01-01 as the
source counts. -/
theorem Parts.gregorian {d : Datetime} {q i m off tod : ℕ} (h : Parts d q i m off tod)
    (hy : d.year ≤ 99) :
    (gregorian d).Valid ∧
      (gregorian d).ordinal = (⟨2000, 1, 1⟩ : Gregorian.Date).ordinal + (yearBegin d.year + off) := by
  obtain ⟨hm₁, hm₂, hd₁, hd₂, -⟩ := h.ranges
  have hleap := isLeap_century hy
  have hi := h.i_lt
  have hq := h.year
  constructor
  · refine ⟨Nat.le_add_right_of_le (by decide), hm₁, hm₂, hd₁, ?_⟩
    rw [monthLength_eq] at hd₂
    exact hd₂.trans_eq (Gregorian.monthLength_congr hleap d.month).symm
  · have hbegin : Gregorian.daysBeforeYear (2000 + d.year) = 730119 + yearBegin d.year := by
      unfold Gregorian.daysBeforeYear yearBegin
      rw [show d.year % 4 = i by omega, show d.year / 4 = q by omega, hq]
      interval_cases i <;> simp <;> omega
    have hstart : Gregorian.monthStart (2000 + d.year) m = (accTable d).getD m 0 := by
      rw [h.acc_eq]
      exact Gregorian.monthStart_congr hleap m
    have hle := h.acc_le
    rw [ordinal_first]
    unfold Gregorian.Date.ordinal
    simp only [SecondDatetime.gregorian, hbegin, h.month, h.day, Nat.add_sub_cancel, hstart]
    omega

theorem calWeekDay_eq (s : ℕ) : calWeekDay s = (s / 86400 + 5) % 7 := by
  have hday : s % secondsPerWeek / secondsPerDay = s / 86400 % 7 := by
    simp only [secondsPerWeek, secondsPerDay, secondsPerHour, secondsPerMinute]
    omega
  unfold calWeekDay
  rw [hday, u8_of_lt (n := s / 86400 % 7) (by omega), u8_of_lt (n := s / 86400 % 7 + 5) (by omega)]
  dsimp only
  split_ifs <;> omega

/-- A century of the calendar of the source has 36525 days. -/
theorem Parts.year_le_iff {d : Datetime} {q i m off tod s : ℕ} (h : Parts d q i m off tod)
    (hs : s = (yearBegin d.year + off) * 86400 + tod) : d.year ≤ 99 ↔ s < 36525 * 86400 := by
  have htod := h.tod_lt
  have hoff := h.off_lt_yearDays
  have hsucc := yearBegin_succ d.year
  have hcentury : yearBegin 100 = 36525 := by decide
  rw [secondsPerDay_eq] at htod
  constructor
  · intro hle
    have hmono : yearBegin (d.year + 1) ≤ yearBegin 100 := yearBegin_mono (Nat.succ_le_succ hle)
    omega
  · intro hlt
    by_contra hyear
    have hmono : yearBegin 100 ≤ yearBegin d.year := yearBegin_mono (Nat.lt_of_not_le hyear)
    omega

/-- For every second of the years 2000 to 2099, `second_to_datetime` gives the Gregorian day
that is reached from 2000-01-01 day by day, its weekday and the time of that day. -/
theorem century_is_gregorian (d : Datetime) {s : ℕ} (hs : s < 36525 * 86400) :
    let t := secondToDatetime d s
    gregorian t = Gregorian.Date.next^[s / 86400] ⟨2000, 1, 1⟩ ∧
      t.weekday = (gregorian t).weekday ∧ t.hour = s % 86400 / 3600 ∧
      t.minute = s % 3600 / 60 ∧ t.second = s % 60 := by
  intro t
  obtain ⟨q, i, m, off, tod, hparts, hsum, hweek⟩ : ∃ q i m off tod, Parts t q i m off tod ∧
      s = q * secondsPerFourYears + yearStart i + off * secondsPerDay + tod ∧
      t.weekday = calWeekDay s :=
    secondToDatetime_parts d (hs.trans (by decide : 36525 * 86400 < 2 ^ 32))
  rw [hparts.sum_eq] at hsum
  have htod := hparts.tod_lt
  rw [secondsPerDay_eq] at htod
  have hyear : t.year ≤ 99 := (hparts.year_le_iff hsum).mpr hs
  have hdays : s / 86400 = yearBegin t.year + off := by omega
  have hrest : s % 86400 = tod := by omega
  obtain ⟨hvalid, hord⟩ := hparts.gregorian hyear
  have hstart : (⟨2000, 1, 1⟩ : Gregorian.Date).Valid :=
    ⟨by decide, by decide, by decide, by decide, by decide⟩
  rw [← hdays] at hord
  refine ⟨(hstart.iterate_eq hvalid hord).symm, ?_, ?_, ?_, ?_⟩
  · rw [hweek, calWeekDay_eq, Gregorian.Date.weekday, hord, ordinal_first]
    omega
  · rw [hparts.hour, ← hrest]
    rfl
  · rw [hparts.minute]
    simp only [secondsPerHour, secondsPerMinute]
    omega
  · rw [hparts.second]
    simp only [secondsPerHour, secondsPerMinute]
    omega

/-- The moment of the test of the source, a Sunday. -/
theorem century_is_gregorian_test :
    secondToDatetime ⟨0, 0, 0, 0, 0, 0, 0⟩ 439846555 = ⟨13, 12, 8, 6, 19, 35, 55⟩ ∧
      (⟨2013, 12, 8⟩ : Gregorian.Date) = Gregorian.Date.next^[5090] ⟨2000, 1, 1⟩ ∧
      (⟨2013, 12, 8⟩ : Gregorian.Date).weekday = 6 := by
  have ht : secondToDatetime ⟨0, 0, 0, 0, 0, 0, 0⟩ 439846555 = ⟨13, 12, 8, 6, 19, 35, 55⟩ := by
    decide +kernel
  obtain ⟨hday, hweek, -⟩ :=
    century_is_gregorian ⟨0, 0, 0, 0, 0, 0, 0⟩ (s := 439846555) (by decide)
  rw [ht] at hday hweek
  exact ⟨ht, hday, hweek.symm⟩

/-- At or before 2136-02-06 06:28:15, the last second of 32 bits. -/
def InRange (d : Datetime) : Prop :=
  [d.year, d.month, d.day, d.hour, d.minute, d.second] < [136, 2, 6, 6, 28, 16]

instance (d : Datetime) : Decidable (InRange d) := inferInstanceAs (Decidable (_ < _))

theorem Parts.inRange_iff {d : Datetime} {q i m off tod : ℕ} (h : Parts d q i m off tod) :
    InRange d ↔ (yearBegin d.year + off) * 86400 + tod < 2 ^ 32 := by
  have htod := h.tod_lt
  have hoff := h.off_lt_yearDays
  have hsucc := yearBegin_succ d.year
  have h136 : yearBegin 136 = 49674 := by decide
  have h137 : yearBegin 137 = 50040 := by decide
  rw [secondsPerDay_eq] at htod
  simp only [InRange, List.cons_lt_cons_iff, List.not_lt_nil, and_false, or_false]
  rcases Nat.lt_trichotomy d.year 136 with hlt | heq | hlt
  · have hmono : yearBegin (d.year + 1) ≤ yearBegin 136 := yearBegin_mono hlt
    refine iff_of_true (.inl hlt) ?_
    omega
  · have hacc := h.acc_eq
    have hle := h.acc_le
    have hlast := h.off_lt
    have hm := h.m_lt
    have hmonth := h.month
    have hday := h.day
    have hhour := h.hour
    have hmin := h.minute
    have hsec := h.second
    simp only [secondsPerHour, secondsPerMinute] at hhour hmin hsec
    rw [heq] at hacc hlast
    have hsample : sampleYear 136 = 2000 := by decide
    rw [hsample] at hacc
    rw [heq, h136]
    rcases (by omega : m = 0 ∨ m = 1 ∨ 2 ≤ m) with rfl | rfl | hge
    · have hlen : monthLength 136 (0 + 1) = 31 := by decide
      have hzero : Gregorian.monthStart 2000 0 = 0 := rfl
      refine iff_of_true (.inr ⟨rfl, .inl ?_⟩) ?_ <;> omega
    · have hone : Gregorian.monthStart 2000 1 = 31 := by decide
      omega
    · have htwo : Gregorian.monthStart 2000 1 + Gregorian.monthLength 2000 2 = 60 := by decide
      have hmono : Gregorian.monthStart 2000 1 + Gregorian.monthLength 2000 2 ≤
          Gregorian.monthStart 2000 m := Gregorian.monthStart_add_le 2000 (show 1 < m by omega)
      omega
  · have hmono : yearBegin 137 ≤ yearBegin d.year := yearBegin_mono hlt
    refine iff_of_false ?_ ?_
    · omega
    · omega

theorem parts_of_real {d : Datetime} (h : isValidDatetimeIgnoreWeekday d = true)
    (hday : d.day ≤ monthLength d.year d.month) :
    Parts d (d.year / 4) (d.year % 4) (d.month - 1) ((accTable d).getD (d.month - 1) 0 + (d.day - 1))
      (d.hour * 3600 + d.minute * 60 + d.second) := by
  simp only [isValidDatetimeIgnoreWeekday, Bool.and_eq_true, decide_eq_true_eq] at h
  obtain ⟨⟨⟨⟨⟨⟨hm₁, hm₂⟩, hd₁⟩, -⟩, hhour⟩, hmin⟩, hsec⟩ := h
  have hmonth : d.month - 1 + 1 = d.month := Nat.sub_add_cancel hm₁
  constructor
  case i_lt => exact Nat.mod_lt _ (by decide)
  case m_lt => omega
  case tod_lt =>
    rw [secondsPerDay_eq]
    omega
  case acc_le => exact Nat.le_add_right _ _
  case off_lt =>
    rw [hmonth]
    omega
  case year => omega
  case month => exact hmonth.symm
  case day => omega
  all_goals
    simp only [secondsPerHour, secondsPerMinute]
    omega

/-- What `datetime_to_second` accepts is converted back to itself. -/
def AcceptedExactly (d₀ d : Datetime) : Prop :=
  ∀ s ∈ datetimeToSecond d, SameTime (secondToDatetime d₀ s) d

instance (d₀ d : Datetime) : Decidable (AcceptedExactly d₀ d) :=
  inferInstanceAs (Decidable (∀ s ∈ datetimeToSecond d, SameTime (secondToDatetime d₀ s) d))

/-- `datetime_to_second` checks every field by itself. A date that it accepts is converted back
exactly when the day exists in its month and the second is one of 32 bits. -/
theorem accepted_exactly_iff (d₀ d : Datetime) :
    AcceptedExactly d₀ d ↔
      (isValidDatetimeIgnoreWeekday d = true →
        d.day ≤ monthLength d.year d.month ∧ InRange d) := by
  have hacc : AcceptedExactly d₀ d ↔
      (isValidDatetimeIgnoreWeekday d = true → SameTime (secondToDatetime d₀ (toSeconds d)) d) := by
    unfold AcceptedExactly datetimeToSecond
    by_cases hv : isValidDatetimeIgnoreWeekday d = true <;> simp [hv]
  have hlt : toSeconds d < 2 ^ 32 := by
    unfold toSeconds u32
    exact Word.wrap_lt 32 _
  obtain ⟨q, i, m, off, tod, hparts, hsum, -⟩ := secondToDatetime_parts d₀ hlt
  rw [hacc]
  refine imp_congr_right fun hv => ⟨fun hsame => ?_, fun ⟨hday, hrange⟩ => ?_⟩
  · -- a date that comes out of `second_to_datetime` is real and in range
    have hparts' := hparts.congr hsame
    rw [hparts.sum_eq, hsame.1] at hsum
    exact ⟨hparts'.ranges.2.2.2.1, hparts'.inRange_iff.mpr (hsum ▸ hlt)⟩
  · have hreal := parts_of_real hv hday
    have hback := hreal.toSeconds_eq (by rw [hreal.sum_eq]; exact hreal.inRange_iff.mp hrange)
    rw [hreal.sum_eq] at hback
    rw [hparts.sum_eq] at hsum
    exact hparts.unique hreal (hsum.symm.trans hback)

/-- A leap day. -/
theorem accepted_exactly_leap_day :
    AcceptedExactly ⟨0, 0, 0, 0, 0, 0, 0⟩ ⟨24, 2, 29, 0, 12, 0, 0⟩ :=
  (accepted_exactly_iff _ _).mpr (fun _ => by decide)

/-- The 30th of February is accepted and comes back as the 2nd of March; the year 200 is
accepted and comes back as another one. -/
theorem february_thirtieth_accepted :
    (∃ s ∈ datetimeToSecond ⟨23, 2, 30, 0, 12, 0, 0⟩,
      secondToDatetime ⟨0, 0, 0, 0, 0, 0, 0⟩ s = ⟨23, 3, 2, 3, 12, 0, 0⟩) ∧
      ¬ AcceptedExactly ⟨0, 0, 0, 0, 0, 0, 0⟩ ⟨23, 2, 30, 0, 12, 0, 0⟩ ∧
      ¬ AcceptedExactly ⟨0, 0, 0, 0, 0, 0, 0⟩ ⟨200, 1, 1, 0, 0, 0, 0⟩ := by
  decide +kernel

end EmbeddedTemplate.SecondDatetime
