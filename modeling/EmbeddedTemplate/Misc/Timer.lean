import EmbeddedTemplate.Lib.Word

/-! The countdown timer of `timer.c`. `os_time_t` is `uint32_t`. -/
namespace EmbeddedTemplate

structure Timer where
  start : ℕ
  wait : ℕ

namespace Timer

/-- `timer_init`, with `now` the result of `os_get_time`. -/
def init (now : ℕ) : Timer := ⟨now, 0⟩

def isExpired (t : Timer) (now : ℕ) : Bool := Word.wrap 32 (t.start + t.wait : ℕ) ≤ now

def countdownMs (now : ℕ) (waitMs : UInt32) : Timer := ⟨now, waitMs.toNat⟩

/-- The product is an `int` that is converted to `os_time_t`. -/
def countdownSecond (now : ℕ) (waitSecond : ℤ) : Timer := ⟨now, Word.wrap 32 (waitSecond * 1000)⟩

def leftMs (t : Timer) (now : ℕ) : ℕ :=
  let elapse := Word.wrap 32 ((now : ℤ) - t.start)
  if t.wait ≤ elapse then 0 else Word.wrap 32 ((t.wait : ℤ) - elapse)

inductive Setting where
  | init
  | countdownMs (waitMs : UInt32)
  | countdownSecond (waitSecond : ℤ)

def Setting.set (now : ℕ) : Setting → Timer
  | .init => Timer.init now
  | .countdownMs waitMs => Timer.countdownMs now waitMs
  | .countdownSecond waitSecond => Timer.countdownSecond now waitSecond

/-- The value of `os_get_time` at the real time `t`. -/
def clock (t : ℕ) : ℕ := t % 2 ^ 32

/-- At the real time `t`, both functions tell whether `t₀` is `wait` behind. -/
def Agree (T : Timer) (t₀ t : ℕ) : Prop :=
  (T.isExpired (clock t) = true ↔ T.leftMs (clock t) = 0) ∧
    (T.leftMs (clock t) = 0 ↔ T.wait ≤ t - t₀)

instance (T : Timer) (t₀ t : ℕ) : Decidable (Agree T t₀ t) := inferInstanceAs (Decidable (_ ∧ _))

theorem set_start (now : ℕ) (f : Setting) : (f.set now).start = now := by
  cases f with
  | init => rfl
  | countdownMs => rfl
  | countdownSecond => rfl

theorem set_wait_lt (now : ℕ) (f : Setting) : (f.set now).wait < 2 ^ 32 := by
  cases f with
  | init => exact Nat.two_pow_pos 32
  | countdownMs waitMs => exact waitMs.toNat_lt
  | countdownSecond waitSecond => exact Word.wrap_lt 32 _

variable {T : Timer} {t₀ t : ℕ}

/-- The difference of the two clock values is the elapsed time, on either side of a wrap. -/
theorem leftMs_eq_zero_iff (hstart : T.start = clock t₀) (hwait : T.wait < 2 ^ 32) (hle : t₀ ≤ t)
    (hlt : t - t₀ < 2 ^ 32) : T.leftMs (clock t) = 0 ↔ T.wait ≤ t - t₀ := by
  have helapse : Word.wrap 32 ((clock t : ℤ) - T.start) = t - t₀ := by
    rw [hstart]
    unfold Word.wrap clock
    omega
  unfold leftMs
  simp only [helapse]
  by_cases hdue : T.wait ≤ t - t₀
  · simp only [hdue, if_true]
  · simp only [hdue, if_false, iff_false]
    unfold Word.wrap
    omega

theorem isExpired_iff (hstart : T.start = clock t₀) (hwait : T.wait < 2 ^ 32) (hle : t₀ ≤ t)
    (hlt : t - t₀ < 2 ^ 32) :
    (T.isExpired (clock t) = true ↔ T.wait ≤ t - t₀) ↔ (t₀ + T.wait) / 2 ^ 32 = t / 2 ^ 32 := by
  unfold isExpired
  rw [hstart, Word.wrap_natCast, decide_eq_true_iff]
  unfold clock
  omega

/-- A timer set at the real time `t₀`, asked less than `2 ^ 32` ms later: the two functions
agree with each other and with the time exactly when the moment it runs out lies in the
period of the clock that `t` lies in. -/
theorem functions_agree_iff (f : Setting) (hle : t₀ ≤ t) (hlt : t - t₀ < 2 ^ 32) :
    Agree (f.set (clock t₀)) t₀ t ↔ (t₀ + (f.set (clock t₀)).wait) / 2 ^ 32 = t / 2 ^ 32 := by
  have hleft := leftMs_eq_zero_iff (set_start (clock t₀) f) (set_wait_lt (clock t₀) f) hle hlt
  have hexpired := isExpired_iff (set_start (clock t₀) f) (set_wait_lt (clock t₀) f) hle hlt
  unfold Agree
  rw [hleft, ← hexpired]
  exact and_iff_left Iff.rfl

/-- Five seconds, asked for in the period in which they were started. -/
theorem functions_agree_five_seconds :
    Agree ((Setting.countdownSecond 5).set (clock 1000)) 1000 6000 :=
  (functions_agree_iff (.countdownSecond 5) (by decide) (by decide)).mpr (by decide)

/-- Ten milliseconds started 5 ms before the clock wraps: at once they have expired with 10 ms
left. Started 20 ms before the wrap and asked 25 ms later, they have not expired with nothing
left. -/
theorem functions_differ_at_wrap :
    ((Setting.countdownMs 10).set (clock 0xFFFFFFFB)).isExpired (clock 0xFFFFFFFB) = true ∧
      ((Setting.countdownMs 10).set (clock 0xFFFFFFFB)).leftMs (clock 0xFFFFFFFB) = 10 ∧
      ¬ Agree ((Setting.countdownMs 10).set (clock 0xFFFFFFFB)) 0xFFFFFFFB 0xFFFFFFFB ∧
      ((Setting.countdownMs 10).set (clock 0xFFFFFFEC)).isExpired (clock 0x100000005) = false ∧
      ((Setting.countdownMs 10).set (clock 0xFFFFFFEC)).leftMs (clock 0x100000005) = 0 := by
  decide

end Timer
end EmbeddedTemplate
