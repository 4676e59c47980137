import Mathlib.Tactic.Basic

/-! Programs over a state, and the weakest precondition of what is true where they end. A program may stop before
it returns, in a state it has come to; whatever holds there is a statement about its unfinished runs. -/
namespace Hoare

/-- A program over the state `σ`. Without a result it has not returned. -/
def Prog (σ α : Type) := σ → Option α × σ

variable {σ α β : Type}

namespace Prog

def of (h : σ → α × σ) : Prog σ α := fun s => (some (h s).1, (h s).2)

def stop : Prog σ α := fun s => (none, s)

instance : Monad (Prog σ) where
  pure a := fun s => (some a, s)
  bind f g := fun s =>
    match f s with
    | (some a, t) => g a t
    | (none, t) => (none, t)

end Prog

/-- `Q` holds of the result and the state if `f` returns, and `I` of the state if it stops. -/
def wp (I : σ → Prop) (f : Prog σ α) (Q : α → σ → Prop) (s : σ) : Prop :=
  match f s with
  | (some a, t) => Q a t
  | (none, t) => I t

variable {I : σ → Prop} {f : Prog σ α} {g : α → Prog σ β} {Q Q' : α → σ → Prop} {s : σ}

@[simp] theorem wp_pure {a : α} : wp I (pure a) Q = Q a := rfl

@[simp] theorem wp_of {h : σ → α × σ} : wp I (Prog.of h) Q = fun s => Q (h s).1 (h s).2 := rfl

@[simp] theorem wp_stop : wp I Prog.stop Q = I := rfl

@[simp] theorem wp_bind {Q : β → σ → Prop} : wp I (f >>= g) Q = wp I f fun a => wp I (g a) Q := by
  funext s
  have hrun : (f >>= g) s = match f s with
    | (some a, t) => g a t
    | (none, t) => (none, t) := rfl
  unfold wp
  rw [hrun]
  rcases f s with ⟨_ | a, t⟩
  · rfl
  · rfl

theorem wp_ite {c : Prop} [Decidable c] {f₁ f₂ : Prog σ α} :
    wp I (if c then f₁ else f₂) Q s ↔ (c → wp I f₁ Q s) ∧ (¬ c → wp I f₂ Q s) := by
  by_cases h : c
  · simp only [h, if_true, true_imp_iff, not_true_eq_false, false_imp_iff, and_true]
  · simp only [h, if_false, false_imp_iff, not_false_eq_true, true_imp_iff, true_and]

/-- The rule of consequence, by which a program is used through its specification. -/
theorem wp_mono (h : wp I f Q s) (hQ : ∀ a t, Q a t → Q' a t) : wp I f Q' s := by
  unfold wp at h ⊢
  rcases hf : f s with ⟨_ | a, t⟩
  · rw [hf] at h
    exact h
  · rw [hf] at h
    exact hQ a t h

theorem wp_true : wp (fun _ => True) f (fun _ _ => True) s := by
  unfold wp
  rcases f s with ⟨_ | a, t⟩
  · trivial
  · trivial

theorem wp.pure {a : α} (h : Q a s) : wp I (Pure.pure a) Q s := h

theorem wp.of {h : σ → α × σ} (hQ : Q (h s).1 (h s).2) : wp I (Prog.of h) Q s := hQ

theorem wp.stop (h : I s) : wp I Prog.stop Q s := h

theorem wp.returned {a : α} {t : σ} (hf : f s = (some a, t)) (hQ : Q a t) : wp I f Q s := by
  unfold wp
  rw [hf]
  exact hQ

theorem wp.run (h : wp I f Q s) : (∀ a, (f s).1 = some a → Q a (f s).2) ∧ ((f s).1 = none → I (f s).2) := by
  unfold wp at h
  rcases hf : f s with ⟨_ | a, t⟩
  · rw [hf] at h
    exact ⟨fun a ha => (Option.some_ne_none a ha.symm).elim, fun _ => h⟩
  · rw [hf] at h
    refine ⟨fun b hb => ?_, fun hnone => (Option.some_ne_none a hnone).elim⟩
    obtain rfl := Option.some.inj hb
    exact h
-- a goal is taken apart by the rules, and never by running the program
attribute [irreducible] wp

/-- What every program of a sequence keeps is kept by the sequence. -/
theorem wp_forM {ι : Type} {p : ι → Prog σ Unit} {J : σ → Prop} (is : List ι)
    (hp : ∀ i ∈ is, ∀ s, J s → wp I (p i) (fun _ => J) s) (hs : J s) :
    wp I (is.forM p) (fun _ => J) s := by
  induction is generalizing s with
  | nil =>
    show wp I (pure ()) _ s
    exact .pure hs
  | cons i is ih =>
    show wp I (p i >>= fun _ => is.forM p) _ s
    rw [wp_bind]
    apply wp_mono (hp i List.mem_cons_self s hs)
    intro _ t ht
    exact ih (fun j hj => hp j (List.mem_cons_of_mem i hj)) ht

end Hoare
