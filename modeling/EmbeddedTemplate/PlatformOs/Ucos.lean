import EmbeddedTemplate.Lib.Word
import Mathlib.Algebra.BigOperators.Group.List.Basic
import Mathlib.Data.Nat.ModEq
import Mathlib.Tactic.Ring
import Mathlib.Tactic.Linarith

/-! Times in ticks in `platform_ucos.h`, where `f` is `OS_TICKS_PER_SEC`. -/
namespace EmbeddedTemplate.Ucos

/-- `os_get_time` when `OSTimeGet` returns `ticks`. -/
def osGetTime (f ticks : ℕ) : ℕ := Word.wrap 32 (ticks * (1000 / f) : ℕ)

/-- The arguments of `OSTimeDly` in the loop of `os_sleep`. -/
def sleepLoop (tick : ℕ) : List ℕ :=
  if 65535 < tick then 65535 :: sleepLoop (tick - 65535)
  else if tick ≠ 0 then [Word.wrap 16 tick]
  else []
termination_by tick

def osSleep (f ms : ℕ) : List ℕ := sleepLoop (Word.wrap 32 (ms * (1000 / f) : ℕ))

/-- What `OSSemPend` stores in `err`: `OS_ERR_NONE`, `OS_ERR_TIMEOUT` or anything else. -/
inductive Err where
  | none
  | timeout
  | other
deriving DecidableEq, Repr

/-- The loop of `os_pend_sem` from its `k`-th call of `OSSemPend` on, with at most `n` calls left: the
return value and the timeouts of the calls. -/
def pendLoop (err : ℕ → Err) : ℕ → ℕ → ℕ → Bool × List ℕ
  | 0, _, _ => (false, [])
  | n + 1, k, ticks =>
    if 65535 < ticks then
      match err k with
      | .none => (true, [65535])
      | .other => (false, [65535])
      | .timeout => (pendLoop err n (k + 1) (ticks - 65535)).map id (65535 :: ·)
    else (decide (err k = .none), [Word.wrap 16 ticks])

/-- `os_pend_sem`, which makes no more calls than there are ticks, and one. -/
def osPendSem (f : ℕ) (err : ℕ → Err) (timeout : ℕ) : Bool × List ℕ :=
  let ticks := Word.wrap 32 (timeout * f : ℕ) / 1000
  pendLoop err (ticks + 1) 0 ticks

/-- The delays fit `OSTimeDly` and make up the ticks of `ms` milliseconds. -/
def SleepsFor (f ms : ℕ) : Prop :=
  (∀ d ∈ osSleep f ms, d ≤ 65535) ∧ (osSleep f ms).sum = ms * f / 1000

/-- No call waits for ever, and together they wait for the timeout, up to less than one tick. -/
def PendsFor (f timeout : ℕ) : Prop :=
  ∀ err, (∀ d ∈ (osPendSem f err timeout).2, d ≠ 0) ∧
    ((∀ k, err k = .timeout) →
      1000 * (osPendSem f err timeout).2.sum < timeout * f + 1000 ∧
        timeout * f < 1000 * (osPendSem f err timeout).2.sum + 1000)

theorem sleepLoop_le (tick : ℕ) : ∀ d ∈ sleepLoop tick, d ≤ 65535 := by
  induction tick using sleepLoop.induct with
  | case1 tick h ih =>
    rw [sleepLoop, if_pos h]
    exact List.forall_mem_cons.mpr ⟨Nat.le_refl _, ih⟩
  | case2 tick h hne =>
    have hlt := Word.wrap_lt 16 tick
    rw [sleepLoop, if_neg h, if_pos hne]
    intro d hd
    rw [List.mem_singleton.mp hd]
    omega
  | case3 tick h hz =>
    rw [sleepLoop, if_neg h, if_neg hz]
    exact fun d hd => absurd hd List.not_mem_nil

theorem sum_sleepLoop (tick : ℕ) : (sleepLoop tick).sum = tick := by
  induction tick using sleepLoop.induct with
  | case1 tick h ih =>
    rw [sleepLoop, if_pos h, List.sum_cons, ih]
    omega
  | case2 tick h hne =>
    rw [sleepLoop, if_neg h, if_pos hne, List.sum_singleton]
    exact Word.wrap_of_lt (show tick < 2 ^ 16 by omega)
  | case3 tick h hz =>
    rw [sleepLoop, if_neg h, if_neg hz, List.sum_nil]
    exact (not_not.mp hz).symm

/-- A zero is passed on only when there is nothing to wait for at all. -/
theorem pendLoop_ne_zero (err : ℕ → Err) (n k : ℕ) {ticks : ℕ} (h : ticks ≠ 0) :
    ∀ d ∈ (pendLoop err n k ticks).2, d ≠ 0 := by
  induction n generalizing k ticks with
  | zero => exact fun d hd => absurd hd List.not_mem_nil
  | succ n ih =>
    unfold pendLoop
    split_ifs with hlong
    · cases err k with
      | none => simp
      | other => simp
      | timeout => exact List.forall_mem_cons.mpr ⟨by decide, ih _ (by omega)⟩
    · rw [@Word.wrap_of_lt 16 ticks (by omega)]
      simpa using h

theorem sum_pendLoop {err : ℕ → Err} (herr : ∀ k, err k = .timeout) {n : ℕ} (k : ℕ) {ticks : ℕ}
    (h : ticks < n) : (pendLoop err n k ticks).2.sum = ticks := by
  induction n generalizing k ticks with
  | zero => exact absurd h (Nat.not_lt_zero _)
  | succ n ih =>
    unfold pendLoop
    split_ifs with hlong
    · rw [herr k]
      have hrest := ih (k + 1) (show ticks - 65535 < n by omega)
      simp only [Prod.map_snd, List.sum_cons, hrest]
      omega
    · simp only [List.sum_singleton]
      exact Word.wrap_of_lt (show ticks < 2 ^ 16 by omega)

theorem ticks_eq {f q : ℕ} (hq : 1000 = f * q) (ms : ℕ) : ms * f / 1000 = ms / q := by
  have hpos : 0 < f := Nat.pos_of_ne_zero fun h => by simp [h] at hq
  rw [hq, Nat.mul_comm ms f, Nat.mul_div_mul_left ms q hpos]

/-- `os_sleep` multiplies by the milliseconds of a tick, where it should divide by them. -/
theorem sleepsFor_iff {f ms : ℕ} (hf : f ∣ 1000) (hms : ms < 2 ^ 32) :
    SleepsFor f ms ↔
      2 ^ 32 ∣ ((1000 / f) ^ 2 - 1) * (ms / (1000 / f)) + 1000 / f * (ms % (1000 / f)) := by
  obtain ⟨q, hq⟩ := hf
  have hpos : 0 < f := Nat.pos_of_ne_zero fun h => by simp [h] at hq
  have hqpos : 0 < q := Nat.pos_of_ne_zero fun h => by simp [h] at hq
  have hdiv : 1000 / f = q := Nat.div_eq_of_eq_mul_right hpos hq
  unfold SleepsFor
  rw [osSleep, and_iff_right (sleepLoop_le _), sum_sleepLoop, ticks_eq hq, hdiv, Word.wrap_natCast]
  have hsplit : ms * q = ms / q + ((q ^ 2 - 1) * (ms / q) + q * (ms % q)) := by
    obtain ⟨d, hd⟩ : ∃ d, q ^ 2 = d + 1 := ⟨q ^ 2 - 1, (Nat.sub_add_cancel (Nat.pow_pos hqpos)).symm⟩
    have hms' := Nat.div_add_mod ms q
    calc
      ms * q = (q * (ms / q) + ms % q) * q := by rw [hms']
      _ = q ^ 2 * (ms / q) + q * (ms % q) := by ring
      _ = ms / q + ((q ^ 2 - 1) * (ms / q) + q * (ms % q)) := by
        rw [hd, Nat.add_sub_cancel]
        ring
  have hle : ms / q < 2 ^ 32 := (Nat.div_le_self ms q).trans_lt hms
  rw [hsplit]
  generalize (q ^ 2 - 1) * (ms / q) + q * (ms % q) = x
  generalize ms / q = a at hle ⊢
  omega

/-- `os_pend_sem` waits as long as it should when there is at least one tick to wait and the product
does not wrap around. -/
theorem pendsFor_iff (f timeout : ℕ) : PendsFor f timeout ↔ 1000 ≤ timeout * f ∧ timeout * f < 2 ^ 32 := by
  unfold PendsFor osPendSem
  simp only [Word.wrap_natCast]
  generalize timeout * f = total
  constructor
  · intro h
    obtain ⟨hne, hsum⟩ := h fun _ => .timeout
    rw [sum_pendLoop (fun _ => rfl) 0 (Nat.lt_succ_self _)] at hsum
    have hticks : total % 2 ^ 32 / 1000 ≠ 0 := by
      intro hz
      rw [hz] at hne
      exact hne 0 (by decide) rfl
    have := hsum fun _ => rfl
    omega
  · rintro ⟨hlo, hhi⟩ err
    rw [Nat.mod_eq_of_lt hhi]
    refine ⟨pendLoop_ne_zero err _ 0 (by omega), fun herr => ?_⟩
    rw [sum_pendLoop herr 0 (Nat.lt_succ_self _)]
    omega

/-- When both conversions are right. -/
theorem tick_conversions_iff {f ms : ℕ} (hf : f ∣ 1000) (hms : ms < 2 ^ 32) (timeout : ℕ) :
    SleepsFor f ms ∧ PendsFor f timeout ↔
      2 ^ 32 ∣ ((1000 / f) ^ 2 - 1) * (ms / (1000 / f)) + 1000 / f * (ms % (1000 / f)) ∧
        1000 ≤ timeout * f ∧ timeout * f < 2 ^ 32 := by
  rw [sleepsFor_iff hf hms, pendsFor_iff]

/-- A thousand ticks a second and 70 seconds, in two slices. -/
theorem tick_conversions_seconds : SleepsFor 1000 70000 ∧ PendsFor 1000 70000 :=
  (tick_conversions_iff (by decide) (by decide) 70000).mpr ⟨by norm_num, by norm_num, by norm_num⟩

/-- A hundred ticks a second: 10 milliseconds of sleep take 100 ticks and not 1, and a timeout of 5
milliseconds never ends. -/
theorem tick_conversions_wrong :
    osSleep 100 10 = [100] ∧ ¬ SleepsFor 100 10 ∧ (osPendSem 100 (fun _ => .timeout) 5).2 = [0] ∧
      ¬ PendsFor 100 5 := by
  refine ⟨?_, ?_, rfl, ?_⟩
  · rw [osSleep, show Word.wrap 32 (10 * (1000 / 100) : ℕ) = 100 from rfl, sleepLoop]
    decide
  · rw [sleepsFor_iff (by decide) (by decide)]
    norm_num
  · rw [pendsFor_iff]
    norm_num

end EmbeddedTemplate.Ucos
