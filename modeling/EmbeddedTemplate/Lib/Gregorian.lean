import Mathlib.Logic.Function.Iterate
import Mathlib.Order.Monotone.Basic
import Mathlib.Order.Nat

/-! The proleptic Gregorian calendar, day by day, and the number of each day. -/
namespace Gregorian

/-- Intervals that follow each other: a position is in one of them only. -/
theorem locate_unique (start len : ℕ → ℕ) (n : ℕ)
    (hnext : ∀ j, j + 1 < n → start (j + 1) = start j + len j) {k k' r r' : ℕ} (hk : k < n)
    (hk' : k' < n) (hr : r < len k) (hr' : r' < len k') (heq : start k + r = start k' + r') :
    k = k' ∧ r = r' := by
  have hbefore : ∀ a b, a < b → b < n → start a + len a ≤ start b := by
    intro a b hab hb
    induction hab with
    | refl => exact (hnext a hb).ge
    | @step b _ ih =>
      have hstep := hnext b hb
      have hle := ih (by omega)
      simp only [Nat.succ_eq_add_one]
      omega
  rcases Nat.lt_trichotomy k k' with hlt | rfl | hlt
  · have := hbefore k k' hlt hk'
    omega
  · exact ⟨rfl, by omega⟩
  · have := hbefore k' k hlt hk
    omega

def isLeap (year : ℕ) : Prop := year % 4 = 0 ∧ (year % 100 ≠ 0 ∨ year % 400 = 0)

instance (year : ℕ) : Decidable (isLeap year) := inferInstanceAs (Decidable (_ ∧ _))

def monthLength (year month : ℕ) : ℕ :=
  if month = 2 then if isLeap year then 29 else 28
  else if month = 4 ∨ month = 6 ∨ month = 9 ∨ month = 11 then 30 else 31

def yearLength (year : ℕ) : ℕ := if isLeap year then 366 else 365

structure Date where
  year : ℕ
  month : ℕ
  day : ℕ
deriving DecidableEq

namespace Date

def next (d : Date) : Date :=
  if d.day < monthLength d.year d.month then { d with day := d.day + 1 }
  else if d.month < 12 then ⟨d.year, d.month + 1, 1⟩
  else ⟨d.year + 1, 1, 1⟩

structure Valid (d : Date) : Prop where
  year_pos : 1 ≤ d.year
  month_pos : 1 ≤ d.month
  month_le : d.month ≤ 12
  day_pos : 1 ≤ d.day
  day_le : d.day ≤ monthLength d.year d.month

end Date

/-- Days from 0001-01-01 to the start of the year. -/
def daysBeforeYear (year : ℕ) : ℕ :=
  365 * (year - 1) + ((year - 1) / 4 - (year - 1) / 100 + (year - 1) / 400)

/-- Days of the year in front of month `k + 1`. -/
def monthStart (year : ℕ) : ℕ → ℕ
  | 0 => 0
  | k + 1 => monthStart year k + monthLength year (k + 1)

/-- The number of a day. 0001-01-01 has number 1. -/
def Date.ordinal (d : Date) : ℕ := daysBeforeYear d.year + monthStart d.year (d.month - 1) + d.day

def Date.weekday (d : Date) : ℕ := (d.ordinal + 6) % 7

theorem daysBeforeYear_succ {year : ℕ} (h : 1 ≤ year) :
    daysBeforeYear (year + 1) = daysBeforeYear year + yearLength year := by
  obtain ⟨y, rfl⟩ := Nat.exists_eq_add_of_le' h
  -- the years in front that are divisible by 4, by 100 and by 400 are counted
  have hle : y / 100 ≤ y / 4 := Nat.div_le_div_left (by decide) (by decide)
  unfold daysBeforeYear yearLength isLeap
  simp only [Nat.add_sub_cancel, Nat.succ_div, Nat.dvd_iff_mod_eq_zero]
  by_cases h4 : (y + 1) % 4 = 0
  · by_cases h100 : (y + 1) % 100 = 0
    · by_cases h400 : (y + 1) % 400 = 0
      · simp only [h4, h100, h400, if_true, or_true, and_self]
        omega
      · simp only [h4, h100, h400, if_true, if_false, ne_eq, not_true_eq_false, or_self, and_false]
        omega
    · have h400 : ¬ (y + 1) % 400 = 0 := by omega
      simp only [h4, h100, h400, if_true, if_false, ne_eq, not_false_eq_true, true_or, and_self]
      omega
  · have h100 : ¬ (y + 1) % 100 = 0 := by omega
    have h400 : ¬ (y + 1) % 400 = 0 := by omega
    simp only [h4, h100, h400, if_false, false_and]
    omega

theorem monthLength_pos (year month : ℕ) : 0 < monthLength year month := by
  unfold monthLength
  split_ifs <;> omega

section Congr
variable {year year' : ℕ}

theorem monthLength_congr (h : isLeap year ↔ isLeap year') (month : ℕ) :
    monthLength year month = monthLength year' month := by
  unfold monthLength
  simp only [h]

theorem monthStart_congr (h : isLeap year ↔ isLeap year') (k : ℕ) :
    monthStart year k = monthStart year' k := by
  induction k with
  | zero => rfl
  | succ k ih => rw [monthStart, monthStart, ih, monthLength_congr h]

end Congr

theorem monthStart_twelve (year : ℕ) : monthStart year 12 = yearLength year := by
  by_cases hleap : isLeap year
  · simp [monthStart, monthLength, yearLength, hleap]
  · simp [monthStart, monthLength, yearLength, hleap]

theorem monthStart_succ (year : ℕ) {month : ℕ} (h : 1 ≤ month) :
    monthStart year month = monthStart year (month - 1) + monthLength year month := by
  obtain ⟨k, rfl⟩ := Nat.exists_eq_add_of_le' h
  rfl

theorem monthStart_add_le (year : ℕ) {m n : ℕ} (h : m < n) :
    monthStart year m + monthLength year (m + 1) ≤ monthStart year n := by
  induction h with
  | refl => exact le_rfl
  | step _ ih => exact ih.trans (Nat.le_add_right _ _)

theorem monthStart_mono (year : ℕ) : Monotone (monthStart year) :=
  monotone_nat_of_le_succ fun _ => Nat.le_add_right _ _

namespace Date
variable {d e : Date}

theorem Valid.dayOfYear_lt (h : d.Valid) :
    monthStart d.year (d.month - 1) + (d.day - 1) < yearLength d.year := by
  have hm := h.month_pos
  have hle := h.month_le
  have hday := h.day_le
  have hpos := h.day_pos
  have hstart := monthStart_add_le d.year (show d.month - 1 < 12 by omega)
  rw [Nat.sub_add_cancel hm, monthStart_twelve] at hstart
  omega

theorem Valid.next (h : d.Valid) : d.next.Valid := by
  obtain ⟨hy, hm, hm', hd, hd'⟩ := h
  unfold Date.next
  split_ifs with hday hmonth
  · exact ⟨hy, hm, hm', Nat.succ_pos _, hday⟩
  · exact ⟨hy, Nat.succ_pos _, hmonth, Nat.le_refl 1, monthLength_pos _ _⟩
  · exact ⟨Nat.succ_pos _, Nat.le_refl 1, show 1 ≤ 12 by decide, Nat.le_refl 1, monthLength_pos _ _⟩

theorem Valid.ordinal_next (h : d.Valid) : d.next.ordinal = d.ordinal + 1 := by
  obtain ⟨hy, hm, hm', hd, hd'⟩ := h
  unfold Date.next Date.ordinal
  split_ifs with hday hmonth
  · exact (Nat.add_assoc _ _ _).symm
  · have hstart := monthStart_succ d.year hm
    simp only [Nat.add_sub_cancel]
    omega
  · have hlast : d.month = 12 := by omega
    have hstart := monthStart_succ d.year hm
    rw [hlast, monthStart_twelve] at hstart
    rw [hlast] at hday hd' ⊢
    have hzero : monthStart (d.year + 1) (1 - 1) = 0 := rfl
    simp only [daysBeforeYear_succ hy, hzero]
    omega

theorem Valid.iterate (h : d.Valid) (n : ℕ) :
    (Date.next^[n] d).Valid ∧ (Date.next^[n] d).ordinal = d.ordinal + n := by
  induction n with
  | zero => exact ⟨h, rfl⟩
  | succ n ih =>
    rw [Function.iterate_succ_apply']
    refine ⟨ih.1.next, ?_⟩
    rw [ih.1.ordinal_next, ih.2, Nat.add_assoc]

theorem Valid.ordinal_inj (hd : d.Valid) (he : e.Valid) (h : d.ordinal = e.ordinal) : d = e := by
  have hdy := hd.year_pos
  have hey := he.year_pos
  have hdd := hd.day_pos
  have hed := he.day_pos
  unfold Date.ordinal at h
  have hde : d.year - 1 + 1 = d.year := Nat.sub_add_cancel hdy
  have hee : e.year - 1 + 1 = e.year := Nat.sub_add_cancel hey
  obtain ⟨hyear, hdoy⟩ := locate_unique (fun k => daysBeforeYear (k + 1))
    (fun k => yearLength (k + 1)) (d.year + e.year) (fun j _ => daysBeforeYear_succ (Nat.succ_pos j))
    (show d.year - 1 < d.year + e.year by omega) (show e.year - 1 < d.year + e.year by omega)
    (hde.symm ▸ hd.dayOfYear_lt) (hee.symm ▸ he.dayOfYear_lt) (by simp only [hde, hee]; omega)
  have hyear' : d.year = e.year := by omega
  have hdm : d.month - 1 + 1 = d.month := Nat.sub_add_cancel hd.month_pos
  have hem : e.month - 1 + 1 = e.month := Nat.sub_add_cancel he.month_pos
  have hdl : d.day - 1 < monthLength d.year (d.month - 1 + 1) := by
    have := hd.day_le
    rw [hdm]
    omega
  have hel : e.day - 1 < monthLength d.year (e.month - 1 + 1) := by
    have := he.day_le
    rw [hem, hyear']
    omega
  rw [← hyear', hde] at hdoy
  obtain ⟨hmonth, hday⟩ := locate_unique (monthStart d.year) (fun k => monthLength d.year (k + 1))
    (d.month + e.month) (fun _ _ => rfl) (show d.month - 1 < d.month + e.month by omega)
    (show e.month - 1 < d.month + e.month by omega) hdl hel hdoy
  have hmonth' : d.month = e.month := by omega
  have hday' : d.day = e.day := by omega
  cases d
  cases e
  simp only at hyear' hmonth' hday'
  rw [hyear', hmonth', hday']

theorem Valid.iterate_eq (hd : d.Valid) (he : e.Valid) {n : ℕ} (h : e.ordinal = d.ordinal + n) :
    Date.next^[n] d = e := by
  obtain ⟨hv, ho⟩ := hd.iterate n
  exact hv.ordinal_inj he (ho.trans h.symm)

end Date
end Gregorian
