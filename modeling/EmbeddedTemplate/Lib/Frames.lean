import Mathlib.Data.List.Range
import Mathlib.Tactic.Ring

/-! A sequence cut into records of one length. -/
namespace Frames

variable {β : Type*} {n : ℕ} {f l : List β}

/-- The whole records of length `n` at the front of `l`. -/
def frames (n : ℕ) (l : List β) : List (List β) :=
  (List.range (l.length / n)).map fun i => (l.drop (i * n)).take n

@[simp] theorem frames_nil (n : ℕ) : frames n ([] : List β) = [] := by
  simp [frames]

theorem frames_cons (hn : 0 < n) (hf : f.length = n) : frames n (f ++ l) = f :: frames n l := by
  have hlen : (f ++ l).length / n = l.length / n + 1 := by
    rw [List.length_append, hf, Nat.add_div_left _ hn]
  have hdrop : ∀ i, (f ++ l).drop ((i + 1) * n) = l.drop (i * n) := by
    intro i
    rw [List.drop_append, List.drop_of_length_le (by rw [hf]; exact Nat.le_mul_of_pos_left n i.succ_pos),
      hf, Nat.succ_mul, Nat.add_sub_cancel, List.nil_append]
  simp only [frames, hlen, List.range_succ_eq_map, List.map_cons, List.map_map, Function.comp_def,
    Nat.succ_eq_add_one, hdrop]
  congr 1
  simp [← hf]

theorem frames_concat (hn : 0 < n) (hl : n ∣ l.length) (hf : f.length = n) :
    frames n (l ++ f) = frames n l ++ [f] := by
  obtain ⟨k, hk⟩ := hl
  induction k generalizing l with
  | zero =>
    have hnil : l = [] := List.eq_nil_of_length_eq_zero (by rw [hk, Nat.mul_zero])
    subst hnil
    have h := frames_cons (l := []) hn hf
    simpa using h
  | succ k ih =>
    have hle : n ≤ l.length := by
      rw [hk]
      exact Nat.le_mul_of_pos_right n k.succ_pos
    have htake : (l.take n).length = n := List.length_take_of_le hle
    have hdrop : (l.drop n).length = n * k := by
      rw [List.length_drop, hk, Nat.mul_succ, Nat.add_sub_cancel]
    rw [← List.take_append_drop n l, List.append_assoc, frames_cons hn htake,
      frames_cons hn htake, ih hdrop, List.cons_append]

end Frames
