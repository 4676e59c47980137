import EmbeddedTemplate.Async.Queue

/-! What a triggered callback is given. -/
namespace EmbeddedTemplate.Async

open Transition ByteMem

variable (T : Target) {s s' : State}

/-- The command of a call carries its arguments. -/
def Carries (call : Call) (cmd : Command) : Prop :=
  cmd.type = call.type ∧
    ∀ e d, call = .trigger e d → cmd.event = e ∧ cmd.additionData = d

def Faithful (event additionData : ℕ) (cause : Option Call) : Prop :=
  ∀ e d, cause = some (.trigger e d) → event = e ∧ additionData = d

def Pc.Payload (cause : Option Call) : Pc → Prop
  | .trigger _ event additionData _ => Faithful event additionData cause
  | .add _ event => Faithful event additionDataTimeout cause
  | _ => True

/-- The queue carries the arguments of the calls behind it. -/
structure Payload (s : State) : Prop where
  whole : Whole T s.rb
  queue : List.Forall₂ Carries s.queue (commands T s.rb)
  pc : s.pc.Payload s.cause
  invoked : ∀ v ∈ s.invoked, Faithful v.event v.additionData v.cause

/-- The bytes of the stack where `async_event_trigger` places `priv.addition_data` hold the
argument. -/
def DataInFrame : Act → Prop
  | .trigger _ additionData stack => load stack T.ptrBytes T.dataOff = additionData
  | _ => True

instance DataInFrame.decidable : ∀ a, Decidable (DataInFrame T a)
  | .trigger _ additionData stack =>
    inferInstanceAs (Decidable (load stack T.ptrBytes T.dataOff = additionData))
  | .create _ _ | .loop | .register _ _ _ _ | .notify _ | .putBack _ | .step
  | .cancel _ _ | .looperExit _ | .post _ _ | .setCallback _ _ | .setTimeout _ _ | .setData _ _
  | .time _ | .pend _ | .ret _ => isTrue trivial

variable {T}

namespace Payload

theorem goto (h : Payload T s) {links : Heads} {ev : ℕ → Event} {lock : Bool} {sem : Option ℕ}
    {pc : Pc} {registering : List Registering} {failed : List ℕ} {posting : List Posting}
    {returned : List Command} (hpc : pc.Payload s.cause) :
    Payload T { s with links, ev, lock, sem, pc, registering, failed, posting, returned } :=
  ⟨h.whole, h.queue, hpc, h.invoked⟩

theorem notifyLoop (h : Payload T s) {call : Call} {stack : Mem}
    (hcall : Carries call (fields T (call.priv T stack))) :
    Payload T (notifyLoop T s call stack).1 := by
  rcases notifyLoop_cases h.whole call stack with ⟨rb, hw, -, hcmds, hs⟩ | hs
  · rw [hs]
    refine ⟨hw, ?_, h.pc, h.invoked⟩
    rw [hcmds]
    exact List.rel_append h.queue (.cons hcall .nil)
  · rw [hs]
    exact h

theorem registerNotify (h : Payload T s) (i : ℕ) (r : Registering) :
    Payload T (registerNotify T s i r) := by
  have hfill : Payload T (registerFill s i r) := h.goto h.pc
  have hcall : Carries (.register r.ret) (fields T (Call.priv T r.stack (.register r.ret))) :=
    ⟨fields_type _ _, fun e d he => by cases he⟩
  have hres := hfill.notifyLoop hcall
  simp only [Async.registerNotify]
  split_ifs
  · exact hres
  · exact hres.goto hres.pc

theorem dequeue (h : Payload T s) (next : ℕ) : Payload T (dequeue T s next) := by
  rcases dequeue_cases h.whole next with ⟨rb, cmd, hw, -, hcmds, hs⟩ | ⟨-, rb, hw, hcmds, hs⟩
  · have hqueue := h.queue
    rw [hcmds] at hqueue
    obtain ⟨call, rest, ⟨htype, hargs⟩, hrest, hq⟩ := List.forall₂_cons_right_iff.mp hqueue
    rw [hs, hq]
    refine ⟨hw, hrest, ?_, h.invoked⟩
    unfold dispatch
    split_ifs with htrigger hadd
    · intro e d he
      exact hargs e d (Option.some.inj he)
    · intro e d he
      have hcall : call = .trigger e d := Option.some.inj he
      rw [htype, hcall] at hadd
      exact absurd hadd (by decide : commandTriggerCall ≠ commandAddEvent)
    · trivial
    · trivial
    · trivial
  · rw [hs]
    refine ⟨hw, ?_, trivial, h.invoked⟩
    rw [hcmds]
    exact .nil

theorem invoke (h : Payload T s) {event additionData : ℕ} {cause : Option Call} {pc : Pc}
    (hpc : pc.Payload s.cause) (hf : Faithful event additionData cause) :
    Payload T (invoke s event additionData cause pc) := by
  refine ⟨h.whole, h.queue, hpc, fun v hv => ?_⟩
  simp only [Async.invoke, List.mem_append, List.mem_singleton] at hv
  rcases hv with hv | rfl
  · exact h.invoked v hv
  · exact hf

theorem loopStep (h : Payload T s) (hs : loopStep T s = some s') : Payload T s' := by
  have hpayload := h.pc
  cases hpc : s.pc with
  | timeout w now mostRecent =>
    simp only [Async.loopStep, hpc] at hs
    split_ifs at hs <;> cases hs
    · exact h.goto trivial
    · exact h.goto trivial
    · exact h.invoke trivial fun e d he => by cases he
  | trigger next event additionData w =>
    rw [hpc] at hpayload
    simp only [Async.loopStep, hpc] at hs
    split_ifs at hs <;> cases hs
    · exact h.goto trivial
    · exact h.invoke trivial hpayload
    · exact h.goto hpayload
  | add next event =>
    rw [hpc] at hpayload
    simp only [Async.loopStep, hpc] at hs
    split_ifs at hs <;> cases hs
    · exact h.invoke trivial hpayload
    · exact h.goto trivial
  | cancel next event w =>
    simp only [Async.loopStep, hpc] at hs
    split_ifs at hs <;> cases hs <;> exact h.goto trivial
  | dequeue next =>
    simp only [Async.loopStep, hpc] at hs
    cases hs
    exact h.dequeue next
  | clearSem | exit | destroy =>
    simp only [Async.loopStep, hpc] at hs
    cases hs
    exact h.goto trivial
  | idle | top | enterTimeout | timeoutCb | leaveTimeout | pend | triggerCb | rearm | addCb
  | addLink =>
    simp only [Async.loopStep, hpc] at hs
    cases hs

theorem step (h : Payload T s) {a : Act} (ha : DataInFrame T a) (hs : step T s a = some s') :
    Payload T s' := by
  cases step_cases hs with
  | refused => exact h
  | create => exact h.goto h.pc
  | loop => exact h.goto trivial
  | @register cb timeout dat stack =>
    obtain ⟨links, registering, hs⟩ := registerPop_eq (T := T) s cb timeout.toNat dat stack
    rw [hs]
    exact h.goto h.pc
  | notify => exact h.registerNotify _ _
  | putBack => exact h.goto h.pc
  | @trigger event additionData stack he =>
    obtain ⟨hevent, hdata⟩ := fields_trigger stack additionData he
    refine h.notifyLoop ⟨fields_type _ _, ?_⟩
    intro e d he
    cases he
    exact ⟨hevent, hdata.trans ha⟩
  | cancel => exact h.notifyLoop ⟨fields_type _ _, fun e d he => by cases he⟩
  | looperExit => exact h.notifyLoop ⟨fields_type _ _, fun e d he => by cases he⟩
  | @post i p ok =>
    obtain ⟨sem, failed, returned, hs⟩ := postSem_eq s i p ok
    rw [hs]
    exact h.goto h.pc
  | setCallback | setTimeout | setData => exact h.goto h.pc
  | time hs =>
    unfold loopTime at hs
    split at hs <;> try split at hs
    all_goals cases hs
    all_goals exact h.goto trivial
  | woken => exact h.goto trivial
  | slept => exact h.goto trivial
  | step hs => exact h.loopStep hs
  | ret hs =>
    unfold loopRet at hs
    split at hs <;> try split at hs
    all_goals cases hs
    all_goals exact h.goto trivial

end Payload

theorem init_payload (T : Target) : Payload T (init T) where
  whole := init_whole _
  queue := by
    rw [show commands T (init T).rb = [] from init_commands _ _]
    exact .nil
  pc := trivial
  invoked := by
    intro v hv
    cases hv

/-- In every schedule whose trigger calls find their argument already in the stack frame,
each callback made in response to `async_event_trigger(e, d)` is made on `e` with `d`. -/
theorem trigger_payload_delivered (T : Target) {as : List Act} {s : State}
    (h : AllSteps (step T) (fun _ a => DataInFrame T a) (init T) as)
    (hrun : run (step T) (init T) as = some s) :
    ∀ v ∈ s.invoked, ∀ e d, v.cause = some (.trigger e d) →
      v.event = e ∧ v.additionData = d := by
  have hp := run_invariant (I := Payload T) (fun _ _ _ hI ha hs => hI.step ha hs)
    (init_payload T) h hrun
  exact hp.invoked

/-- A trigger whose frame holds its argument 7. -/
theorem trigger_payload_delivered_seven :
    ∃ s ∈ run (step .lp64) (init .lp64)
        [.create true true, .loop, .register 1 5 0 fun _ => 0, .notify 0, .post 0 true, .time 0,
          .pend true, .step, .step, .time 0, .trigger 4456 7 fun i => if i = 16 then 7 else 0,
          .post 0 true, .time 1, .pend true, .step, .step],
      s.invoked.length = 1 ∧ ∀ v ∈ s.invoked, ∀ e d, v.cause = some (.trigger e d) →
        v.event = e ∧ v.additionData = d := by
  have hrun : ∃ s ∈ run (step .lp64) (init .lp64)
      [.create true true, .loop, .register 1 5 0 fun _ => 0, .notify 0, .post 0 true, .time 0,
        .pend true, .step, .step, .time 0, .trigger 4456 7 fun i => if i = 16 then 7 else 0,
        .post 0 true, .time 1, .pend true, .step, .step],
      s.invoked.length = 1 := by decide +kernel
  obtain ⟨s, hs, hlen⟩ := hrun
  exact ⟨s, hs, hlen, trigger_payload_delivered .lp64 (by decide +kernel) hs⟩

/-- The same trigger over a zeroed frame: the callback is given 0. -/
theorem trigger_payload_lost :
    ∃ s ∈ run (step .lp64) (init .lp64)
        [.create true true, .loop, .register 1 5 0 fun _ => 0, .notify 0, .post 0 true, .time 0,
          .pend true, .step, .step, .time 0, .trigger 4456 7 fun _ => 0, .post 0 true, .time 1,
          .pend true, .step, .step],
      ∃ v ∈ s.invoked, v.cause = some (.trigger 4456 7) ∧ v.event = 4456 ∧
        v.additionData = 0 := by
  decide +kernel

end EmbeddedTemplate.Async
