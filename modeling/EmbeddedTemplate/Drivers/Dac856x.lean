import EmbeddedTemplate.Lib.Word

/-! The digital to analog converter DAC856x, `dac856x.c`. -/
namespace EmbeddedTemplate.Dac856x

/-- The buffer of `update_to_device`. -/
def frame (powerStatus : UInt8) (dacValue : UInt16) : List UInt8 :=
  [powerStatus, (dacValue >>> 8).toUInt8, dacValue.toUInt8]

/-- `struct dac856x`, and the transfers that the chip has seen. The last one is what the chip is set
to. -/
structure Dev where
  powerStatus : UInt8
  dacValue : UInt16
  refVolDot1mv : UInt16
  frames : List (List UInt8)
  sent : frames.getLast? = some (frame powerStatus dacValue)

/-- `update_to_device` after the two fields have been set. -/
def Dev.update (dev : Dev) (powerStatus : UInt8) (dacValue : UInt16) : Dev where
  powerStatus
  dacValue
  refVolDot1mv := dev.refVolDot1mv
  frames := dev.frames ++ [frame powerStatus dacValue]
  sent := List.getLast?_concat

/-- `dac856x_init` for the field `ref_voltage_uv`, with the power status `DAC856X_POWER_DOWN_100K`. -/
def init (refVoltageUv : UInt16) : Dev where
  powerStatus := 0x02
  dacValue := 0x00
  refVolDot1mv := if refVoltageUv = 0 then 25000 else refVoltageUv / 100
  frames := [frame 0x02 0x00]
  sent := rfl

def setPower (dev : Dev) (powerStatus : UInt8) : Dev :=
  if dev.powerStatus ≠ powerStatus then dev.update powerStatus dev.dacValue else dev

def setRegvalue (dev : Dev) (regval : UInt16) : Dev :=
  if dev.dacValue ≠ regval then dev.update dev.powerStatus regval else dev

/-- `dac_value` in `dac856x_set_output`. -/
def outputValue (ref : UInt16) (voltage : UInt32) : UInt32 :=
  (voltage / 100 * 65536 + ref.toUInt32 / 2) / ref.toUInt32

def setOutput (dev : Dev) (voltage : UInt32) : Dev :=
  setRegvalue dev (outputValue dev.refVolDot1mv voltage).toUInt16

def Dev.register (dev : Dev) : ℕ :=
  match dev.frames.getLast? with
  | some [_, high, low] => high.toNat * 256 + low.toNat
  | _ => 0

theorem register_eq (dev : Dev) : dev.register = dev.dacValue.toNat := by
  have hlt := dev.dacValue.toNat_lt
  have hhigh : (dev.dacValue >>> 8).toNat = dev.dacValue.toNat / 256 := by
    rw [UInt16.toNat_shiftRight]
    exact Nat.shiftRight_eq_div_pow _ 8
  unfold Dev.register
  rw [dev.sent]
  simp only [frame, UInt16.toNat_toUInt8, hhigh]
  omega

/-- A value that is set already needs no transfer. -/
theorem setRegvalue_dacValue (dev : Dev) (regval : UInt16) : (setRegvalue dev regval).dacValue = regval := by
  unfold setRegvalue
  split_ifs with h
  · rfl
  · exact not_not.mp h

theorem init_ref_le (refVoltageUv : UInt16) : (init refVoltageUv).refVolDot1mv.toNat ≤ 25000 := by
  have hlt := refVoltageUv.toNat_lt
  unfold init
  dsimp only
  split_ifs
  · exact Nat.le_refl _
  · rw [UInt16.toNat_div]
    exact (Nat.div_le_div_right hlt.le).trans (by decide)

/-- The place of a request in its multiple of the reference. -/
def residue (ref : UInt16) (voltage : UInt32) : ℕ := voltage.toNat / 100 % 65536 % ref.toNat

/-- The product loses all but 16 bits of the request in units of 0.1 mV, and the conversion to 16
bits the whole multiples of the reference. -/
theorem outputValue_eq {ref : UInt16} (hpos : 0 < ref.toNat) (hle : ref.toNat ≤ 25000) (voltage : UInt32) :
    (outputValue ref voltage).toUInt16.toNat =
      (residue ref voltage * 65536 + ref.toNat / 2) / ref.toNat := by
  have hval : (outputValue ref voltage).toNat =
      (voltage.toNat / 100 % 65536 * 65536 + ref.toNat / 2) / ref.toNat := by
    simp only [outputValue, UInt32.toNat_div, UInt32.toNat_add, UInt32.toNat_mul, UInt16.toNat_toUInt32]
    rw [show (100 : UInt32).toNat = 100 from rfl, show (65536 : UInt32).toNat = 65536 from rfl,
      show (2 : UInt32).toNat = 2 from rfl]
    congr 1
    omega
  rw [UInt32.toNat_toUInt16, hval]
  unfold residue
  generalize voltage.toNat / 100 % 65536 = a
  have hsplit : a * 65536 + ref.toNat / 2 =
      ref.toNat * (a / ref.toNat * 65536) + (a % ref.toNat * 65536 + ref.toNat / 2) := by
    have hdiv := Nat.div_add_mod a ref.toNat
    calc
      a * 65536 + ref.toNat / 2 =
          (ref.toNat * (a / ref.toNat) + a % ref.toNat) * 65536 + ref.toNat / 2 := by rw [hdiv]
      _ = ref.toNat * (a / ref.toNat * 65536) + (a % ref.toNat * 65536 + ref.toNat / 2) := by
        rw [Nat.add_mul, Nat.mul_assoc, Nat.add_assoc]
  have hmod := Nat.mod_lt a hpos
  have hlt : (a % ref.toNat * 65536 + ref.toNat / 2) / ref.toNat < 65536 := by
    rw [Nat.div_lt_iff_lt_mul hpos]
    omega
  rw [hsplit, Nat.mul_add_div hpos]
  exact (Nat.mul_add_mod' _ _ _).trans (Nat.mod_eq_of_lt hlt)

theorem value_le_iff {r b₁ b₂ : ℕ} (hpos : 0 < r) (hle : r ≤ 25000) :
    (b₁ * 65536 + r / 2) / r ≤ (b₂ * 65536 + r / 2) / r ↔ b₁ ≤ b₂ := by
  constructor
  · intro h
    by_contra hlt
    have hstep : (b₂ * 65536 + r / 2) / r + 1 ≤ (b₁ * 65536 + r / 2) / r := by
      rw [← Nat.add_div_right _ hpos]
      exact Nat.div_le_div_right (by omega)
    omega
  · intro h
    exact Nat.div_le_div_right (by omega)

/-- Of two requests the larger one does not give the smaller output exactly when its residue is not the
smaller one. -/
theorem output_monotone_iff {refVoltageUv : UInt16} {dev₁ dev₂ : Dev} {v₁ v₂ : UInt32}
    (hne : (init refVoltageUv).refVolDot1mv ≠ 0)
    (h₁ : dev₁.refVolDot1mv = (init refVoltageUv).refVolDot1mv)
    (h₂ : dev₂.refVolDot1mv = (init refVoltageUv).refVolDot1mv) :
    (setOutput dev₁ v₁).register ≤ (setOutput dev₂ v₂).register ↔
      residue (init refVoltageUv).refVolDot1mv v₁ ≤ residue (init refVoltageUv).refVolDot1mv v₂ := by
  have hle := init_ref_le refVoltageUv
  have hpos : 0 < (init refVoltageUv).refVolDot1mv.toNat := by
    rw [Nat.pos_iff_ne_zero]
    intro hz
    exact hne (UInt16.toNat_inj.mp hz)
  rw [register_eq, register_eq, setOutput, setOutput, setRegvalue_dacValue, setRegvalue_dacValue, h₁, h₂,
    outputValue_eq hpos hle, outputValue_eq hpos hle, value_le_iff hpos hle]

/-- 1 V and 2 V with the internal reference of 2.5 V. -/
theorem output_monotone_below_reference :
    (setOutput (init 0) 1000000).register ≤ (setOutput (init 0) 2000000).register :=
  (@output_monotone_iff 0 (init 0) (init 0) _ _ (by decide) rfl rfl).mpr (by decide)

/-- The reference itself gives 0, less than any smaller request. -/
theorem output_drops_at_reference :
    (setOutput (init 0) 2500000).register = 0 ∧ (setOutput (init 0) 2499999).register = 65533 := by
  decide +kernel

end EmbeddedTemplate.Dac856x
