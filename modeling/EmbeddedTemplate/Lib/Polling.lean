import Mathlib.Data.Nat.Notation
import Mathlib.Order.Basic

/-! Loops that poll an input until something happens or a counter has run out. -/
namespace Polling
variable {ι α : Type}

/-- The end of a round: the loop is left, or goes on with a new value of its counter. -/
inductive Round (α : Type) where
  | stop (a : α)
  | again (i : ℕ)
deriving DecidableEq, Repr

/-- The loop from the `k`-th reading on: its result and the number of the next reading. The `fuel`
bounds the number of rounds. -/
def loop (round : ι → ℕ → Round α) (input : ℕ → ι) : ℕ → ℕ → ℕ → Option (α × ℕ)
  | 0, _, _ => none
  | fuel + 1, k, i =>
    match round (input k) i with
    | .stop a => some (a, k + 1)
    | .again i => loop round input fuel (k + 1) i

/-- The counter is `count m` in the `m`-th round, whatever is read. -/
def Counts (round : ι → ℕ → Round α) (count : ℕ → ℕ) : Prop :=
  ∀ x m i, round x (count m) = .again i → i = count (m + 1)

variable {round : ι → ℕ → Round α} {input : ℕ → ι} {count : ℕ → ℕ} {fuel k m : ℕ}

/-- A loop that has ended did so in the first round that stops. -/
theorem loop_some (hc : Counts round count) {r : α × ℕ} (h : loop round input fuel k (count m) = some r) :
    ∃ n, r.2 = k + n + 1 ∧ round (input (k + n)) (count (m + n)) = .stop r.1 ∧
      ∀ j < n, ∀ a, round (input (k + j)) (count (m + j)) ≠ .stop a := by
  induction fuel generalizing k m with
  | zero => cases h
  | succ fuel ih =>
    unfold loop at h
    cases hround : round (input k) (count m) with
    | stop a =>
      rw [hround] at h
      cases h
      exact ⟨0, rfl, hround, fun j hj => absurd hj (Nat.not_lt_zero j)⟩
    | again i =>
      rw [hround] at h
      dsimp only at h
      rw [hc _ _ _ hround] at h
      obtain ⟨n, hnext, hstop, hbefore⟩ := ih h
      refine ⟨n + 1, ?_, ?_, ?_⟩
      · omega
      · rwa [Nat.add_right_comm k 1 n, Nat.add_right_comm m 1 n] at hstop
      · intro j hj a
        cases j with
        | zero => simp [hround]
        | succ j =>
          have hj' := hbefore j (Nat.lt_of_succ_lt_succ hj) a
          rwa [Nat.add_right_comm k 1 j, Nat.add_right_comm m 1 j] at hj'

theorem loop_isSome (hc : Counts round count) {n : ℕ} {a : α}
    (h : round (input (k + n)) (count (m + n)) = .stop a) (hfuel : n < fuel) :
    (loop round input fuel k (count m)).isSome := by
  induction n generalizing fuel k m with
  | zero =>
    obtain ⟨fuel, rfl⟩ : ∃ f, fuel = f + 1 := ⟨fuel - 1, by omega⟩
    rw [Nat.add_zero, Nat.add_zero] at h
    simp [loop, h]
  | succ n ih =>
    obtain ⟨fuel, rfl⟩ : ∃ f, fuel = f + 1 := ⟨fuel - 1, by omega⟩
    unfold loop
    cases hround : round (input k) (count m) with
    | stop b => simp
    | again i =>
      rw [hc _ _ _ hround]
      apply ih _ (Nat.lt_of_succ_lt_succ hfuel)
      rwa [Nat.add_right_comm k 1 n, Nat.add_right_comm m 1 n]

/-- The loop succeeds at an event, and gives up when its counter is at `last` without one. -/
structure GivesUp (round : ι → ℕ → Round Bool) (event : ι → Prop) (last : ℕ) : Prop where
  counts : Counts round id
  success : ∀ x i, round x i = .stop true ↔ event x
  failure : ∀ x i, round x i = .stop false ↔ ¬ event x ∧ last ≤ i

namespace GivesUp
variable {round : ι → ℕ → Round Bool} {event : ι → Prop} {last : ℕ}

/-- It has succeeded when there was an event in time. -/
theorem loop_some (h : GivesUp round event last) {r : Bool × ℕ} (hr : loop round input fuel k 0 = some r) :
    r.1 = true ↔ ∃ j ≤ last, event (input (k + j)) := by
  obtain ⟨n, -, hstop, hbefore⟩ := Polling.loop_some (m := 0) h.counts hr
  rw [Nat.zero_add, id_eq] at hstop
  constructor
  · intro htrue
    rw [htrue] at hstop
    refine ⟨n, ?_, (h.success _ _).mp hstop⟩
    by_contra hn
    have hlast := hbefore last (Nat.not_le.mp hn)
    rw [Nat.zero_add, id_eq] at hlast
    by_cases hev : event (input (k + last))
    · exact hlast true ((h.success _ _).mpr hev)
    · exact hlast false ((h.failure _ _).mpr ⟨hev, Nat.le_refl last⟩)
  · rintro ⟨j, hj, hev⟩
    by_contra hfalse
    rw [Bool.eq_false_iff.mpr hfalse, h.failure] at hstop
    obtain ⟨hnone, hn⟩ := hstop
    rcases Nat.lt_or_ge j n with hlt | hge
    · exact hbefore j hlt true ((h.success _ _).mpr hev)
    · have heq : j = n := by omega
      exact hnone (heq ▸ hev)

theorem loop_isSome (h : GivesUp round event last) (input : ℕ → ι) (k : ℕ) (hfuel : last < fuel) :
    (loop round input fuel k 0).isSome := by
  by_cases hev : event (input (k + last))
  · exact Polling.loop_isSome (m := 0) h.counts ((h.success _ _).mpr hev) hfuel
  · have hfailure := (h.failure (input (k + last)) (id (0 + last))).mpr ⟨hev, Nat.le_of_eq (Nat.zero_add last).symm⟩
    exact Polling.loop_isSome (m := 0) h.counts hfailure hfuel

end GivesUp

end Polling
