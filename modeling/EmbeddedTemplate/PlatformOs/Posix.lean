import EmbeddedTemplate.Lib.Word

/-! The millisecond clock of `platform_posix.h`. -/
namespace EmbeddedTemplate.Posix

/-- `struct timespec` as `clock_gettime` fills it. -/
structure Timespec where
  sec : ℤ
  nsec : ℕ
  nsec_lt : nsec < 10 ^ 9

def Timespec.nanos (t : Timespec) : ℤ := t.sec * 10 ^ 9 + t.nsec

/-- `round(nsec / 1.0e6)` in exact arithmetic. -/
def roundMs (nsec : ℕ) : ℕ := (nsec + 500000) / 1000000

/-- The reading before it is converted to `os_time_t`. The difference of the nanoseconds
decides about the borrow only: what is rounded is `spec.tv_nsec` itself. -/
def msec (otime spec : Timespec) : ℤ :=
  let sec := spec.sec - otime.sec
  let nsec := (spec.nsec : ℤ) - otime.nsec
  let sec := if nsec < 0 then sec - 1 else sec
  roundMs spec.nsec + sec * 1000

/-- `os_get_time` when `clock_gettime` gives `spec`, after `os_platform_init` recorded `otime`. -/
def getTime (otime spec : Timespec) : ℕ := Word.wrap 32 (msec otime spec)

/-- The true time since `otime` in nanoseconds. -/
def elapsed (otime spec : Timespec) : ℤ := spec.nanos - otime.nanos

/-- The clock does not run backwards from `a` to `b`, and both readings are right within a
millisecond. -/
def Steady (otime a b : Timespec) : Prop :=
  getTime otime a ≤ getTime otime b ∧
    |(getTime otime a : ℤ) * 10 ^ 6 - elapsed otime a| ≤ 10 ^ 6 ∧
    |(getTime otime b : ℤ) * 10 ^ 6 - elapsed otime b| ≤ 10 ^ 6

/-- What rounding adds to the fraction of a second. -/
def roundError (t : Timespec) : ℤ := (roundMs t.nsec : ℤ) * 10 ^ 6 - t.nsec

/-- The fraction of the start time does not matter, as it is next to a whole second on the
side that the borrow is right for, and the reading is not rounded up to `2 ^ 32`. -/
def Near (otime t : Timespec) : Prop :=
  if t.nsec < otime.nsec then
    999 * 10 ^ 6 ≤ otime.nsec + roundError t ∧
      elapsed otime t + otime.nsec + roundError t - 10 ^ 9 < 2 ^ 32 * 10 ^ 6
  else
    otime.nsec + roundError t ≤ 10 ^ 6 ∧
      elapsed otime t + otime.nsec + roundError t < 2 ^ 32 * 10 ^ 6

instance (otime a b : Timespec) : Decidable (Steady otime a b) :=
  inferInstanceAs (Decidable (_ ∧ _ ∧ _))

instance (otime t : Timespec) : Decidable (Near otime t) := inferInstanceAs (Decidable (ite _ _ _))

theorem roundError_bounds (t : Timespec) : -500000 < roundError t ∧ roundError t ≤ 500000 := by
  unfold roundError roundMs
  omega

/-- The unconverted reading is ahead of the true time by the fraction of the start time, less
the second that was borrowed. -/
theorem msec_eq (otime t : Timespec) :
    msec otime t * 10 ^ 6 = elapsed otime t + otime.nsec + roundError t -
      if t.nsec < otime.nsec then 10 ^ 9 else 0 := by
  unfold msec elapsed Timespec.nanos roundError
  by_cases hb : t.nsec < otime.nsec
  · rw [if_pos hb]
    simp only [show (t.nsec : ℤ) - otime.nsec < 0 by omega, if_true]
    omega
  · rw [if_neg hb]
    simp only [show ¬ (t.nsec : ℤ) - otime.nsec < 0 by omega, if_false]
    omega

theorem msec_nonneg {otime t : Timespec} (h : 0 ≤ elapsed otime t) : 0 ≤ msec otime t := by
  have ho := otime.nsec_lt
  have ht := t.nsec_lt
  unfold elapsed Timespec.nanos at h
  unfold msec
  by_cases hb : (t.nsec : ℤ) - otime.nsec < 0
  · simp only [hb, if_true]
    omega
  · simp only [hb, if_false]
    omega

theorem getTime_eq {otime t : Timespec} (h : 0 ≤ elapsed otime t) :
    (getTime otime t : ℤ) = msec otime t % 2 ^ 32 := by
  have := msec_nonneg h
  unfold getTime Word.wrap
  omega

theorem accurate_iff {otime t : Timespec} (h : 0 ≤ elapsed otime t)
    (hlt : elapsed otime t < 2 ^ 32 * 10 ^ 6) :
    |(getTime otime t : ℤ) * 10 ^ 6 - elapsed otime t| ≤ 10 ^ 6 ↔ Near otime t := by
  have hr := roundError_bounds t
  have ho := otime.nsec_lt
  have hms := msec_eq otime t
  have hpos := msec_nonneg h
  rw [getTime_eq h, abs_le]
  unfold Near
  by_cases hb : t.nsec < otime.nsec
  · rw [if_pos hb] at hms ⊢
    omega
  · rw [if_neg hb] at hms ⊢
    omega

theorem getTime_of_near {otime t : Timespec} (h : 0 ≤ elapsed otime t) (hn : Near otime t) :
    (getTime otime t : ℤ) = msec otime t := by
  have hms := msec_eq otime t
  have hpos := msec_nonneg h
  rw [getTime_eq h]
  unfold Near at hn
  by_cases hb : t.nsec < otime.nsec
  · rw [if_pos hb] at hms hn
    omega
  · rw [if_neg hb] at hms hn
    omega

/-- Two near readings borrow both or neither, and rounding is monotone. -/
theorem msec_le {otime a b : Timespec} (hab : a.nanos ≤ b.nanos) (ha : Near otime a)
    (hb : Near otime b) : msec otime a ≤ msec otime b := by
  have hra := roundError_bounds a
  have hrb := roundError_bounds b
  have hna := a.nsec_lt
  have hnb := b.nsec_lt
  have hsame : a.nsec < otime.nsec ↔ b.nsec < otime.nsec := by
    unfold Near at ha hb
    split_ifs at ha hb <;> omega
  have hround : a.sec = b.sec → roundMs a.nsec ≤ roundMs b.nsec := by
    intro hs
    unfold Timespec.nanos at hab
    unfold roundMs
    omega
  have hmax : roundMs a.nsec ≤ 1000 := by
    unfold roundMs
    omega
  unfold Timespec.nanos at hab
  unfold msec
  by_cases hba : a.nsec < otime.nsec
  · have hbb := hsame.mp hba
    simp only [show (a.nsec : ℤ) - otime.nsec < 0 by omega,
      show (b.nsec : ℤ) - otime.nsec < 0 by omega, if_true]
    omega
  · have hbb := mt hsame.mpr hba
    simp only [show ¬ (a.nsec : ℤ) - otime.nsec < 0 by omega,
      show ¬ (b.nsec : ℤ) - otime.nsec < 0 by omega, if_false]
    omega

/-- For every start time and every two later readings in order, less than `2 ^ 32` ms after
it: the clock is steady exactly when both readings are near. -/
theorem getTime_steady_iff {otime a b : Timespec} (ha : otime.nanos ≤ a.nanos)
    (hab : a.nanos ≤ b.nanos) (hb : elapsed otime b < 2 ^ 32 * 10 ^ 6) :
    Steady otime a b ↔ Near otime a ∧ Near otime b := by
  have hea : 0 ≤ elapsed otime a := sub_nonneg.mpr ha
  have heb : 0 ≤ elapsed otime b := sub_nonneg.mpr (ha.trans hab)
  have hlt : elapsed otime a < 2 ^ 32 * 10 ^ 6 := by
    unfold elapsed at hb ⊢
    omega
  unfold Steady
  rw [accurate_iff hea hlt, accurate_iff heb hb]
  constructor
  · rintro ⟨-, hna, hnb⟩
    exact ⟨hna, hnb⟩
  · rintro ⟨hna, hnb⟩
    refine ⟨?_, hna, hnb⟩
    have hle := msec_le hab hna hnb
    have h1 := getTime_of_near hea hna
    have h2 := getTime_of_near heb hnb
    omega

/-- A clock that was started at a whole second. -/
theorem getTime_steady_whole_second :
    Steady ⟨5, 0, by decide⟩ ⟨5, 500000000, by decide⟩ ⟨7, 100000000, by decide⟩ :=
  (getTime_steady_iff (by decide) (by decide) (by decide)).mpr ⟨by decide, by decide⟩

/-- Started half a second after a whole one, the clock shows 999 after 499 ms and 0 a
millisecond later. -/
theorem getTime_runs_backwards :
    getTime ⟨0, 500000000, by decide⟩ ⟨0, 999000000, by decide⟩ = 999 ∧
      elapsed ⟨0, 500000000, by decide⟩ ⟨0, 999000000, by decide⟩ = 499 * 10 ^ 6 ∧
      getTime ⟨0, 500000000, by decide⟩ ⟨1, 0, by decide⟩ = 0 ∧
      ¬ Steady ⟨0, 500000000, by decide⟩ ⟨0, 999000000, by decide⟩ ⟨1, 0, by decide⟩ := by
  decide

end EmbeddedTemplate.Posix
