import Mathlib.Tactic.Positivity
import Mathlib.Tactic.Zify

/-! Conversion of integer results to unsigned machine words. -/
namespace Word

/-- The value of `n` in an unsigned type of `w` bits. -/
def wrap (w : ℕ) (n : ℤ) : ℕ := (n % 2 ^ w).toNat

def bits (b : UInt8) : List Bool := (List.range 8).map b.toBitVec.getMsbD

def masks : List UInt8 := [0x80, 0x40, 0x20, 0x10, 0x08, 0x04, 0x02, 0x01]

theorem wrap_natCast (w n : ℕ) : wrap w n = n % 2 ^ w := by
  unfold wrap
  exact_mod_cast Int.toNat_natCast (n % 2 ^ w)

theorem wrap_of_lt {w n : ℕ} (h : n < 2 ^ w) : wrap w n = n := by
  rw [wrap_natCast, Nat.mod_eq_of_lt h]

theorem wrap_lt (w : ℕ) (n : ℤ) : wrap w n < 2 ^ w := by
  unfold wrap
  have hpos : (0 : ℤ) < 2 ^ w := by positivity
  have hnn := Int.emod_nonneg n hpos.ne'
  have hlt := Int.emod_lt_of_pos n hpos
  zify
  rwa [Int.toNat_of_nonneg hnn]

/-- What holds of all bytes is found by trying them. -/
instance decidableForallByte (P : UInt8 → Prop) [DecidablePred P] : Decidable (∀ b, P b) :=
  decidable_of_iff (∀ i : Fin 256, P (UInt8.ofFin i)) ⟨fun h b => h b.toFin, fun h _ => h _⟩

theorem map_masks : ∀ b : UInt8, masks.map (b &&& · != 0) = bits b := by
  decide +kernel

@[simp] theorem length_bits (b : UInt8) : (bits b).length = 8 := rfl

end Word
