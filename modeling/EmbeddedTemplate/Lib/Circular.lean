import Mathlib.Data.Nat.ModEq
import Mathlib.Data.List.Range
import Mathlib.Logic.Function.Basic

/-! Windows of a circular array: the `len` cells that follow `out`, read modulo
the capacity. Appending at the write index and dropping at the read index are
list append and list tail. -/
namespace Circular

variable {α : Type*}

/-- The `len` cells from `out` on, in order, wrapping at `cap`. -/
def window (buf : ℕ → α) (cap out len : ℕ) : List α :=
  (List.range len).map fun i => buf ((out + i) % cap)

/-- Increment with an explicit wrap test instead of a division. -/
def advance (cap i : ℕ) : ℕ := if cap ≤ i + 1 then 0 else i + 1

theorem advance_eq_mod {cap i : ℕ} (hi : i < cap) : advance cap i = (i + 1) % cap := by
  unfold advance
  split_ifs with h
  · have he : i + 1 = cap := by omega
    rw [he, Nat.mod_self]
  · rw [Nat.mod_eq_of_lt (by omega)]

theorem advance_lt {cap i : ℕ} (hi : i < cap) : advance cap i < cap := by
  unfold advance
  split_ifs <;> omega

@[simp] theorem length_window (buf : ℕ → α) (cap out len : ℕ) :
    (window buf cap out len).length = len := by
  simp [window]

theorem window_succ (buf : ℕ → α) (cap out len : ℕ) :
    window buf cap out (len + 1) = window buf cap out len ++ [buf ((out + len) % cap)] := by
  simp [window, List.range_succ]

theorem index_injective {cap out i j : ℕ} (hi : i < cap) (hj : j < cap)
    (h : (out + i) % cap = (out + j) % cap) : i = j := by
  have hmod : i % cap = j % cap := Nat.ModEq.add_left_cancel' out h
  rwa [Nat.mod_eq_of_lt hi, Nat.mod_eq_of_lt hj] at hmod

/-- A store at the write index leaves the cells already in the window alone. -/
theorem window_update (buf : ℕ → α) {cap len : ℕ} (out : ℕ) (b : α) (h : len < cap) :
    window (Function.update buf ((out + len) % cap) b) cap out len = window buf cap out len := by
  refine List.map_congr_left fun i hi => ?_
  have hlt : i < len := List.mem_range.mp hi
  have hne : (out + i) % cap ≠ (out + len) % cap := fun he =>
    absurd (index_injective (by omega) h he) (by omega)
  rw [Function.update_of_ne hne]

theorem window_push (buf : ℕ → α) {cap len : ℕ} (out : ℕ) (b : α) (h : len < cap) :
    window (Function.update buf ((out + len) % cap) b) cap out (len + 1) =
      window buf cap out len ++ [b] := by
  rw [window_succ, window_update buf out b h, Function.update_self]

theorem window_pop (buf : ℕ → α) {cap out : ℕ} (len : ℕ) (h : out < cap) :
    window buf cap out (len + 1) = buf out :: window buf cap (advance cap out) len := by
  have hhead : buf ((out + 0) % cap) = buf out := by rw [Nat.add_zero, Nat.mod_eq_of_lt h]
  have htail : ∀ i, (out + (i + 1)) % cap = (advance cap out + i) % cap := by
    intro i
    rw [advance_eq_mod h, Nat.mod_add_mod, Nat.add_assoc, Nat.add_comm 1 i]
  simp only [window, List.range_succ_eq_map, List.map_cons, List.map_map, hhead]
  congr 1
  exact List.map_congr_left fun i _ => congrArg buf (htail i)

end Circular
