import Mathlib.Data.List.Basic

/-! Runs of deterministic machines. An action carries every input of its step, so a
list of actions is one schedule, and a statement about all lists is a statement about
every interleaving. -/
namespace Transition

section Total
variable {σ τ α β : Type*}

def replies (step : σ → α → σ × β) : σ → List α → σ × List β
  | s, [] => (s, [])
  | s, a :: as =>
    let r := step s a
    let rest := replies step r.1 as
    (rest.1, r.2 :: rest.2)

/-- Forward simulation along an abstraction function: the abstract machine goes
through the abstractions of the concrete states and gives the same answers. -/
theorem replies_simulation {step : σ → α → σ × β} {spec : τ → α → τ × β} (abs : σ → τ)
    (I : σ → Prop)
    (hstep : ∀ s a, I s → I (step s a).1 ∧ spec (abs s) a = (abs (step s a).1, (step s a).2))
    {s : σ} (hs : I s) (as : List α) :
    I (replies step s as).1 ∧
      replies spec (abs s) as = (abs (replies step s as).1, (replies step s as).2) := by
  induction as generalizing s with
  | nil => exact ⟨hs, rfl⟩
  | cons a as ih =>
    obtain ⟨hI, he⟩ := hstep s a hs
    obtain ⟨hrun, hrest⟩ := ih hI
    refine ⟨hrun, ?_⟩
    simp only [replies, he, hrest]

end Total

section Guarded
variable {σ α : Type*} (step : σ → α → Option σ)

/-- Run of a machine whose actions can be disabled. -/
def run (s : σ) : List α → Option σ
  | [] => some s
  | a :: as => (step s a).bind fun s' => run s' as

/-- Every step of the run satisfies `P` in the state it starts from. -/
def AllSteps (P : σ → α → Prop) : σ → List α → Prop
  | _, [] => True
  | s, a :: as => P s a ∧ match step s a with
    | some s' => AllSteps P s' as
    | none => True

instance AllSteps.decidable (P : σ → α → Prop) [∀ s a, Decidable (P s a)] :
    ∀ s as, Decidable (AllSteps step P s as)
  | _, [] => isTrue trivial
  | s, a :: as =>
    have : Decidable (match step s a with
        | some s' => AllSteps step P s' as
        | none => True) :=
      match step s a with
      | some s' => AllSteps.decidable P s' as
      | none => isTrue trivial
    inferInstanceAs (Decidable (P s a ∧ _))

variable {step}

theorem run_cons {s t : σ} {a : α} {as : List α} :
    run step s (a :: as) = some t ↔ ∃ s', step s a = some s' ∧ run step s' as = some t := by
  simp only [run, Option.bind_eq_some_iff]

theorem AllSteps.tail {P : σ → α → Prop} {s s' : σ} {a : α} {as : List α}
    (h : AllSteps step P s (a :: as)) (hs : step s a = some s') : AllSteps step P s' as := by
  have h2 := h.2
  rwa [hs] at h2

theorem allSteps_congr {P Q : σ → α → Prop} (h : ∀ s a, P s a ↔ Q s a) (s : σ) (as : List α) :
    AllSteps step P s as ↔ AllSteps step Q s as := by
  have hPQ : P = Q := by
    funext s a
    exact propext (h s a)
  rw [hPQ]

/-- An invariant of the steps that meet `P` holds in every state of a run whose steps
all meet `P`. -/
theorem run_invariant {I : σ → Prop} {P : σ → α → Prop}
    (hstep : ∀ s a s', I s → P s a → step s a = some s' → I s')
    {s t : σ} {as : List α} (hs : I s) (hP : AllSteps step P s as)
    (hrun : run step s as = some t) : I t := by
  induction as generalizing s with
  | nil =>
    have : s = t := Option.some.inj hrun
    exact this ▸ hs
  | cons a as ih =>
    obtain ⟨s', hs', hrest⟩ := run_cons.mp hrun
    exact ih (hstep s a s' hs hP.1 hs') (hP.tail hs') hrest

theorem allSteps_true (s : σ) (as : List α) : AllSteps step (fun _ _ => True) s as := by
  induction as generalizing s with
  | nil => trivial
  | cons a as ih =>
    refine ⟨trivial, ?_⟩
    cases step s a with
    | none => trivial
    | some s' => exact ih s'

theorem run_preserves {I : σ → Prop} (hstep : ∀ s a s', I s → step s a = some s' → I s')
    {s t : σ} {as : List α} (hs : I s) (hrun : run step s as = some t) : I t :=
  run_invariant (fun s a s' hI _ => hstep s a s' hI) hs (allSteps_true s as) hrun

/-- When every step that meets `P` is enabled as well, such a run reaches its end. -/
theorem run_progress {I : σ → Prop} {P : σ → α → Prop}
    (hstep : ∀ s a, I s → P s a → ∃ s', step s a = some s' ∧ I s')
    {s : σ} {as : List α} (hs : I s) (hP : AllSteps step P s as) :
    ∃ t, run step s as = some t ∧ I t := by
  induction as generalizing s with
  | nil => exact ⟨s, rfl, hs⟩
  | cons a as ih =>
    obtain ⟨s', hs', hI⟩ := hstep s a hs hP.1
    obtain ⟨t, ht, hIt⟩ := ih hI (hP.tail hs')
    exact ⟨t, run_cons.mpr ⟨s', hs', ht⟩, hIt⟩

/-- `E` holds in all states of a run exactly when all of its steps meet `P`, if `P` keeps an
invariant that implies `E` and no other step does. -/
theorem forall_take_iff_allSteps {I E : σ → Prop} {P : σ → α → Prop} (hE : ∀ s, I s → E s)
    (hstep : ∀ s a s', I s → P s a → step s a = some s' → I s')
    (hneeded : ∀ s a, I s → (∀ s', step s a = some s' → E s') → P s a)
    {s : σ} (hs : I s) (as : List α) :
    (∀ n t, run step s (as.take n) = some t → E t) ↔ AllSteps step P s as := by
  induction as generalizing s with
  | nil =>
    refine ⟨fun _ => trivial, ?_⟩
    intro _ n t ht
    rw [List.take_nil] at ht
    cases ht
    exact hE s hs
  | cons a as ih =>
    constructor
    · intro hall
      have hP : P s a := by
        apply hneeded s a hs
        intro s' hs'
        exact hall 1 s' (run_cons.mpr ⟨s', hs', by simp [run]⟩)
      refine ⟨hP, ?_⟩
      cases hs' : step s a with
      | none => trivial
      | some s' =>
        apply (ih (hstep s a s' hs hP hs')).mp
        intro n t ht
        exact hall (n + 1) t (run_cons.mpr ⟨s', hs', ht⟩)
    · intro hsteps n t ht
      cases n with
      | zero =>
        cases ht
        exact hE s hs
      | succ n =>
        obtain ⟨s', hs', hrest⟩ := run_cons.mp ht
        exact (ih (hstep s a s' hs hsteps.1 hs')).mpr (hsteps.tail hs') n t hrest

end Guarded

section Labelled
variable {σ α : Type*}

/-- The events of a run of a machine whose steps are a relation. -/
inductive Trace (step : σ → α → σ → Prop) : σ → List α → σ → Prop
  | nil {s : σ} : Trace step s [] s
  | cons {s t u : σ} {a : α} {as : List α} : step s a t → Trace step t as u → Trace step s (a :: as) u

variable {step : σ → α → σ → Prop} {s t u : σ} {a : α} {as bs : List α}

theorem Trace.snoc (h : Trace step s as t) (hstep : step t a u) : Trace step s (as ++ [a]) u := by
  induction h with
  | nil => exact .cons hstep .nil
  | cons hfirst _ ih => exact .cons hfirst (ih hstep)

/-- What happens after `as` starts in a state that `as` leads to. -/
theorem Trace.split (h : Trace step s (as ++ bs) u) : ∃ t, Trace step s as t ∧ Trace step t bs u := by
  induction as generalizing s with
  | nil => exact ⟨s, .nil, h⟩
  | cons a as ih =>
    rw [List.cons_append] at h
    cases h with
    | cons hfirst hrest =>
      obtain ⟨t, ht, hafter⟩ := ih hrest
      exact ⟨t, .cons hfirst ht, hafter⟩

theorem Trace.preserves {I : σ → Prop} (hstep : ∀ t a u, a ∈ as → I t → step t a u → I u) (hs : I s)
    (h : Trace step s as u) : I u := by
  induction h with
  | nil => exact hs
  | cons hfirst _ ih =>
    apply ih fun t a u ha => hstep t a u (List.mem_cons_of_mem _ ha)
    exact hstep _ _ _ List.mem_cons_self hs hfirst

/-- What does not hold at first and holds at the end has come about with one step and held from there on. -/
theorem Trace.since {P : σ → Prop} (h : Trace step s as u) (hs : ¬ P s) (hu : P u) : ∃ xs a ys t t',
    as = xs ++ a :: ys ∧ Trace step s xs t ∧ ¬ P t ∧ step t a t' ∧ P t' ∧
      Trace (fun v b v' => P v ∧ step v b v' ∧ P v') t' ys u := by
  have hcases : (P s ∧ Trace (fun v b v' => P v ∧ step v b v' ∧ P v') s as u) ∨ ∃ xs a ys t t',
      as = xs ++ a :: ys ∧ Trace step s xs t ∧ ¬ P t ∧ step t a t' ∧ P t' ∧
        Trace (fun v b v' => P v ∧ step v b v' ∧ P v') t' ys u := by
    clear hs
    induction h with
    | nil => exact .inl ⟨hu, .nil⟩
    | @cons s t u a as hfirst hrest ih =>
      rcases ih hu with ⟨ht, hsince⟩ | ⟨xs, b, ys, v, v', has, hbefore, hrest'⟩
      · by_cases hs : P s
        · exact .inl ⟨hs, .cons ⟨hs, hfirst, ht⟩ hsince⟩
        · exact .inr ⟨[], a, as, s, t, rfl, .nil, hs, hfirst, ht, hsince⟩
      · exact .inr ⟨a :: xs, b, ys, v, v', by rw [has, List.cons_append], .cons hfirst hbefore, hrest'⟩
  exact hcases.resolve_left fun h => hs h.1

theorem Trace.mono {step' : σ → α → σ → Prop} (h : Trace step s as u) (hstep : ∀ t a v, step t a v → step' t a v) :
    Trace step' s as u := by
  induction h with
  | nil => exact .nil
  | cons hfirst _ ih => exact .cons (hstep _ _ _ hfirst) ih

/-- Each event of a run is a step between two states that the run goes through. -/
theorem Trace.step_of_mem (h : Trace step s as u) (ha : a ∈ as) : ∃ t v, step t a v := by
  induction h with
  | nil => cases ha
  | cons hfirst _ ih =>
    rcases List.mem_cons.mp ha with rfl | ha
    · exact ⟨_, _, hfirst⟩
    · exact ih ha

end Labelled
end Transition
