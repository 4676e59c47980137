import EmbeddedTemplate.Lib.Word
import Mathlib.Logic.Function.Basic

/-! The digital potentiometer AD5259, `ad5259.c`. The number of bytes that `i2c_transmit` reports is
an input. -/
namespace EmbeddedTemplate.Ad5259

/-- `resistance_ab` of `struct ad5259`. -/
structure Dev where
  resistanceAb : ℕ

/-- The registers of the chip, of which the one at 0 is the wiper, and the selected one. -/
structure Chip where
  register : ℕ → ℕ
  address : ℕ

def Chip.receive (chip : Chip) : List ℕ → Chip
  | [] => chip
  | address :: dat =>
    ⟨Function.update chip.register address (dat.getLastD (chip.register address)), address⟩

def Chip.answer (chip : Chip) : ℕ := chip.register chip.address

def resistanceW : ℕ := 0

/-- `rwb` without the wiper and within the range of the potentiometer. -/
def limited (dev : Dev) (rwb : ℕ) : ℕ :=
  if rwb ≤ 2 * resistanceW then 0
  else if dev.resistanceAb + 2 * resistanceW < rwb then dev.resistanceAb
  else rwb - 2 * resistanceW

/-- `pos` in `ad5259_set_resistance_wb`. -/
def position (dev : Dev) (rwb : ℕ) : ℕ :=
  Word.wrap 32 (limited dev rwb * 256 + dev.resistanceAb / 2 : ℕ) / dev.resistanceAb

/-- `ad5259_set_resistance_wb`, of whose two bytes `sent` have arrived. -/
def setResistanceWb (dev : Dev) (chip : Chip) (rwb sent : ℕ) : Bool × Chip :=
  (sent == 2, chip.receive ([0x00, position dev rwb &&& 0xff].take sent))

/-- `ad5259_get_resistance_wb`: what is stored in `*rwb` when it returns 1. -/
def getResistanceWb (dev : Dev) (chip : Chip) (sent received : ℕ) : Option ℕ :=
  if 1 ≠ sent then none
  else
    let chip := chip.receive [0x00]
    if 1 ≠ received then none
    else some (Word.wrap 32 (dev.resistanceAb * chip.answer + 128 : ℕ) / 256 + 2 * resistanceW)

/-- What is read back after a successful `ad5259_set_resistance_wb` is the request within the range,
up to one step of the wiper and 1. -/
def Accurate (dev : Dev) (rwb : ℕ) : Prop :=
  ∀ chip sent, (setResistanceWb dev chip rwb sent).1 = true →
    ∃ v, getResistanceWb dev (setResistanceWb dev chip rwb sent).2 1 1 = some v ∧
      v ≤ min rwb dev.resistanceAb + dev.resistanceAb / 256 + 1 ∧
      min rwb dev.resistanceAb ≤ v + dev.resistanceAb / 256 + 1

variable {dev : Dev} {rwb : ℕ}

theorem limited_eq (dev : Dev) (rwb : ℕ) : limited dev rwb = min rwb dev.resistanceAb := by
  unfold limited resistanceW
  split_ifs <;> omega

/-- The position is the request in steps of `R / 256`, rounded. -/
theorem position_eq (hhi : dev.resistanceAb ≤ 2 ^ 23) (rwb : ℕ) :
    position dev rwb = (256 * min rwb dev.resistanceAb + dev.resistanceAb / 2) / dev.resistanceAb := by
  unfold position
  rw [limited_eq, Word.wrap_of_lt (by omega), Nat.mul_comm]

/-- What is read back. The position reaches 256 at the upper end and becomes 0. -/
theorem get_set (hhi : dev.resistanceAb ≤ 2 ^ 23) (chip : Chip) :
    getResistanceWb dev (setResistanceWb dev chip rwb 2).2 1 1 =
      some ((dev.resistanceAb * (position dev rwb % 256) + 128) / 256) := by
  have hwiper : ((setResistanceWb dev chip rwb 2).2.receive [0x00]).answer = position dev rwb % 256 := by
    simp only [Chip.answer, Chip.receive, setResistanceWb, List.take_succ_cons, List.take_zero,
      List.getLastD_cons, List.getLastD_nil, Function.update_self]
    exact Nat.and_two_pow_sub_one_eq_mod _ 8
  have hlt : dev.resistanceAb * (position dev rwb % 256) ≤ 2 ^ 23 * 255 :=
    Nat.mul_le_mul hhi (by omega)
  simp only [getResistanceWb, hwiper, ne_eq, not_true_eq_false, if_false]
  rw [Word.wrap_of_lt (by omega), resistanceW, Nat.mul_zero, Nat.add_zero]

theorem position_bounds (hlo : 1 ≤ dev.resistanceAb) (hhi : dev.resistanceAb ≤ 2 ^ 23) (rwb : ℕ) :
    dev.resistanceAb * position dev rwb ≤ 256 * min rwb dev.resistanceAb + dev.resistanceAb / 2 ∧
      256 * min rwb dev.resistanceAb + dev.resistanceAb / 2 <
        dev.resistanceAb * position dev rwb + dev.resistanceAb := by
  rw [position_eq hhi]
  have hdiv := Nat.div_add_mod (256 * min rwb dev.resistanceAb + dev.resistanceAb / 2) dev.resistanceAb
  have hmod := Nat.mod_lt (256 * min rwb dev.resistanceAb + dev.resistanceAb / 2) hlo
  omega

theorem position_lt_iff (hlo : 1 ≤ dev.resistanceAb) (hhi : dev.resistanceAb ≤ 2 ^ 23) (rwb : ℕ) :
    position dev rwb < 256 ↔
      256 * min rwb dev.resistanceAb + dev.resistanceAb / 2 < 256 * dev.resistanceAb := by
  rw [position_eq hhi, Nat.div_lt_iff_lt_mul hlo]

theorem position_le (hlo : 1 ≤ dev.resistanceAb) (hhi : dev.resistanceAb ≤ 2 ^ 23) (rwb : ℕ) :
    position dev rwb ≤ 256 := by
  rw [position_eq hhi, ← Nat.lt_succ_iff, Nat.div_lt_iff_lt_mul hlo]
  omega

/-- A request is read back accurately when it is more than half a step below the full resistance. -/
theorem resistance_accurate_iff (hlo : 1 ≤ dev.resistanceAb) (hhi : dev.resistanceAb ≤ 2 ^ 23) (rwb : ℕ) :
    Accurate dev rwb ↔
      256 * min rwb dev.resistanceAb + dev.resistanceAb / 2 < 256 * dev.resistanceAb ∨
        dev.resistanceAb = 1 := by
  obtain ⟨hle, hlt⟩ := position_bounds hlo hhi rwb
  have hend := position_lt_iff hlo hhi rwb
  have hmax := position_le hlo hhi rwb
  constructor
  · intro h
    obtain ⟨v, hv, -, hlow⟩ := h ⟨fun _ => 0, 0⟩ 2 rfl
    rw [get_set hhi, Option.some.injEq] at hv
    by_contra hnot
    rw [not_or, ← hend, Nat.not_lt] at hnot
    -- at the upper end 0 is read back
    rw [show position dev rwb % 256 = 0 by omega, Nat.mul_zero] at hv
    omega
  · intro hcond chip sent hsent
    have h2 : sent = 2 := beq_iff_eq.mp hsent
    subst h2
    refine ⟨_, get_set hhi chip, ?_⟩
    by_cases hpos : position dev rwb < 256
    · rw [Nat.mod_eq_of_lt hpos]
      generalize dev.resistanceAb * position dev rwb = p at hle hlt ⊢
      omega
    · have hone : dev.resistanceAb = 1 := hcond.resolve_left (mt hend.mpr hpos)
      rw [show position dev rwb % 256 = 0 by omega, hone]
      omega

/-- A request in the middle of a potentiometer of 10 kΩ. -/
theorem accurate_middle : Accurate ⟨10000⟩ 8000 :=
  (@resistance_accurate_iff ⟨10000⟩ (by decide) (by decide) 8000).mpr (.inl (by decide))

/-- The full resistance is set to 0. -/
theorem full_scale_wraps :
    getResistanceWb ⟨10000⟩ (setResistanceWb ⟨10000⟩ ⟨fun _ => 0, 0⟩ 10000 2).2 1 1 = some 0 ∧
      ¬ Accurate ⟨10000⟩ 10000 := by
  refine ⟨by decide +kernel, fun h => ?_⟩
  obtain ⟨v, hv, -, hlow⟩ := h ⟨fun _ => 0, 0⟩ 2 rfl
  have hz : v = 0 := Option.some.inj (hv.symm.trans (by decide +kernel))
  subst hz
  exact absurd hlow (by decide)

end EmbeddedTemplate.Ad5259
