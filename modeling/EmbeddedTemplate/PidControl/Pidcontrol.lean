import EmbeddedTemplate.Lib.Transition
import Mathlib.Algebra.Order.Ring.Int

/-! The PID controller of `pidcontrol.c`, on a machine whose `int` has 32 bits and wraps around. -/
namespace EmbeddedTemplate.PidControl

/-- `struct pid_parameter`, with a `factor` by which one can divide. -/
structure PidParameter where
  kp : Int16
  ki : Int16
  kd : Int16
  factor : UInt16
  factor_pos : 1 ≤ factor
deriving DecidableEq

/-- `struct pid_value`, with `ek[0]` to `ek[2]`. -/
structure PidValue where
  param : PidParameter
  expectOutput : UInt16
  controlValue : UInt16
  ek0 : Int16
  ek1 : Int16
  ek2 : Int16
deriving DecidableEq

def pidInit (param : PidParameter) (controlValue expectOutput : UInt16) : PidValue :=
  ⟨param, expectOutput, controlValue, 0, 0, 0⟩

/-- `expect_output - real_output` as it is stored in `ek[0]`. -/
def storedError (val : PidValue) (realOutput : UInt16) : Int16 :=
  .ofInt (val.expectOutput.toNat - realOutput.toNat)

/-- `diff` before the division. -/
def weighted (p : PidParameter) (ek0 ek1 ek2 : Int16) : Int32 :=
  p.kp.toInt32 * ek0.toInt32 + p.ki.toInt32 * (ek0.toInt32 - ek1.toInt32) +
    p.kd.toInt32 * (ek0.toInt32 - 2 * ek1.toInt32 + ek2.toInt32)

/-- The new `control_value`. -/
def limited (v : Int32) : UInt16 := if v < 0 then 0 else if 65535 < v then 65535 else .ofNat v.toInt.toNat

def pidExec (val : PidValue) (realOutput : UInt16) : PidValue :=
  let ek0 := storedError val realOutput
  let diff := weighted val.param ek0 val.ek0 val.ek1 / .ofNat val.param.factor.toNat
  { val with
    ek2 := val.ek1
    ek1 := val.ek0
    ek0 := ek0
    controlValue := limited (.ofNat val.controlValue.toNat + diff) }

/-- The weighted sum of the last three errors. -/
def correction (p : PidParameter) (e₀ e₁ e₂ : ℤ) : ℤ :=
  p.kp.toInt * e₀ + p.ki.toInt * (e₀ - e₁) + p.kd.toInt * (e₀ - 2 * e₁ + e₂)

def clamp (v : ℤ) : ℤ := if v < 0 then 0 else if 65535 < v then 65535 else v

/-- The controller in unbounded integers: the control value and the last three errors. -/
structure Exact where
  control : ℤ
  e₀ : ℤ
  e₁ : ℤ
  e₂ : ℤ

def Exact.exec (p : PidParameter) (expect : UInt16) (s : Exact) (realOutput : UInt16) : Exact :=
  let e₀ : ℤ := expect.toNat - realOutput.toNat
  ⟨clamp (s.control + (correction p e₀ s.e₀ s.e₁).tdiv p.factor.toNat), e₀, s.e₀, s.e₁⟩

def Fits (val : PidValue) (realOutput : UInt16) : Prop :=
  let e₀ : ℤ := val.expectOutput.toNat - realOutput.toNat
  let sum := correction val.param e₀ val.ek0.toInt val.ek1.toInt
  (-32768 ≤ e₀ ∧ e₀ < 32768) ∧ (-2147483648 ≤ sum ∧ sum < 2147483648) ∧
    val.controlValue.toNat + sum.tdiv val.param.factor.toNat < 2147483648

instance (val : PidValue) (realOutput : UInt16) : Decidable (Fits val realOutput) :=
  inferInstanceAs (Decidable ((_ ∧ _) ∧ (_ ∧ _) ∧ _))

/-- The controller next to the exact one, after `pid_init`. -/
def start (param : PidParameter) (controlValue expectOutput : UInt16) : PidValue × Exact :=
  (pidInit param controlValue expectOutput, ⟨controlValue.toNat, 0, 0, 0⟩)

def step (s : PidValue × Exact) (realOutput : UInt16) : Option (PidValue × Exact) :=
  some (pidExec s.1 realOutput, s.2.exec s.1.param s.1.expectOutput realOutput)

structure Agrees (val : PidValue) (s : Exact) : Prop where
  control : (val.controlValue.toNat : ℤ) = s.control
  e₀ : val.ek0.toInt = s.e₀
  e₁ : val.ek1.toInt = s.e₁
  e₂ : val.ek2.toInt = s.e₂

theorem toInt32_eq (n : Int16) : n.toInt32 = .ofInt n.toInt := by
  rw [← Int16.toInt_toInt32, Int32.ofInt_toInt]

theorem weighted_eq (p : PidParameter) (ek0 ek1 ek2 : Int16) :
    weighted p ek0 ek1 ek2 = .ofInt (correction p ek0.toInt ek1.toInt ek2.toInt) := by
  simp only [weighted, correction, toInt32_eq, Int32.ofInt_add, Int32.ofInt_sub, Int32.ofInt_mul]
  rfl

theorem toInt_factor (factor : UInt16) : (Int32.ofNat factor.toNat).toInt = factor.toNat := by
  have hlt := factor.toNat_lt
  exact Int32.toInt_ofNat_of_lt (by omega)

theorem limited_eq (v : Int32) : ((limited v).toNat : ℤ) = clamp v.toInt := by
  have hzero : (0 : Int32).toInt = 0 := rfl
  have hmax : (65535 : Int32).toInt = 65535 := rfl
  unfold limited clamp
  simp only [Int32.lt_iff_toInt_lt, hzero, hmax]
  split_ifs with hneg hbig
  · rfl
  · rfl
  · rw [UInt16.toNat_ofNat_of_lt' (by simp only [UInt16.size]; omega)]
    omega

/-- One step, when nothing overflows. -/
theorem pidExec_agrees {val : PidValue} {s : Exact} (h : Agrees val s) {realOutput : UInt16}
    (hfits : Fits val realOutput) :
    Agrees (pidExec val realOutput) (s.exec val.param val.expectOutput realOutput) := by
  obtain ⟨herr, hsum, hres⟩ := hfits
  have hek : (storedError val realOutput).toInt = val.expectOutput.toNat - realOutput.toNat :=
    Int16.toInt_ofInt_of_le herr.1 herr.2
  have hweighted : (weighted val.param (storedError val realOutput) val.ek0 val.ek1).toInt =
      correction val.param (val.expectOutput.toNat - realOutput.toNat) val.ek0.toInt val.ek1.toInt := by
    rw [weighted_eq, hek]
    exact Int32.toInt_ofInt_of_le hsum.1 hsum.2
  have hne : Int32.ofNat val.param.factor.toNat ≠ -1 := by
    intro heq
    have hint := congrArg Int32.toInt heq
    rw [toInt_factor, show (-1 : Int32).toInt = -1 from rfl] at hint
    omega
  have hdiff := Int32.toInt_div_of_ne_right
    (weighted val.param (storedError val realOutput) val.ek0 val.ek1) _ hne
  rw [hweighted, toInt_factor] at hdiff
  have hlow := Int32.le_toInt (weighted val.param (storedError val realOutput) val.ek0 val.ek1 /
    .ofNat val.param.factor.toNat)
  have hv : (Int32.ofNat val.controlValue.toNat +
      weighted val.param (storedError val realOutput) val.ek0 val.ek1 / .ofNat val.param.factor.toNat).toInt =
        val.controlValue.toNat + (correction val.param (val.expectOutput.toNat - realOutput.toNat)
          val.ek0.toInt val.ek1.toInt).tdiv val.param.factor.toNat := by
    rw [← hdiff] at hres ⊢
    rw [← Int32.ofInt_eq_ofNat, ← Int32.ofInt_toInt (_ / _), ← Int32.ofInt_add, Int32.ofInt_toInt]
    exact Int32.toInt_ofInt_of_le (by omega) (by omega)
  constructor
  · simp only [pidExec, Exact.exec, limited_eq, hv, ← h.control, ← h.e₀, ← h.e₁]
  · exact hek
  · exact h.e₀
  · exact h.e₁

theorem start_agrees (param : PidParameter) (controlValue expectOutput : UInt16) :
    Agrees (start param controlValue expectOutput).1 (start param controlValue expectOutput).2 :=
  ⟨rfl, rfl, rfl, rfl⟩

/-- As long as nothing overflows, the control value is the exact one after every sample. -/
theorem control_exact {param : PidParameter} {controlValue expectOutput : UInt16} {samples : List UInt16}
    {t : PidValue × Exact}
    (hfits : Transition.AllSteps step (fun s x => Fits s.1 x) (start param controlValue expectOutput) samples)
    (hrun : Transition.run step (start param controlValue expectOutput) samples = some t) :
    (t.1.controlValue.toNat : ℤ) = t.2.control := by
  refine (Transition.run_invariant (I := fun s => Agrees s.1 s.2) ?_ (start_agrees _ _ _) hfits hrun).control
  intro s x s' h hx hs
  cases hs
  exact pidExec_agrees h hx

/-- Two samples on both sides of the set point. -/
theorem control_exact_two_samples :
    ∃ t, Transition.run step (start ⟨3, 1, 2, 10, by decide⟩ 500 1000) [990, 1005] = some t ∧
      (t.1.controlValue.toNat : ℤ) = t.2.control :=
  ⟨_, rfl, @control_exact ⟨3, 1, 2, 10, by decide⟩ 500 1000 [990, 1005] _ (by decide +kernel) rfl⟩

/-- An error of 40000 is stored as -25536, and drives the output to its lower end. -/
theorem control_wrong_way :
    ∃ t, Transition.run step (start ⟨1, 0, 0, 1, by decide⟩ 100 40000) [0] = some t ∧
      t.1.controlValue = 0 ∧ t.2.control = 40100 :=
  ⟨_, rfl, by decide +kernel, by decide +kernel⟩

end EmbeddedTemplate.PidControl
