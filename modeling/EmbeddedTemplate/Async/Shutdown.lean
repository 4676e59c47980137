import EmbeddedTemplate.Async.Delivery
import EmbeddedTemplate.Async.Slots

/-! What `async_looper_loop` leaves behind when it returns after an `EXIT`. -/
namespace EmbeddedTemplate.Async

open Transition ByteMem

variable {T : Target} {s s' : State}

/-- The looper has read an `EXIT`. -/
def Pc.leaving : Pc → Bool
  | .exit | .destroy => true
  | _ => false

variable (T)

/-- An `EXIT` is read from the queue when no other command is in it. -/
def ExitLast (s : State) : Act → Prop
  | .step => s.pc.token = 1 → ∀ c ∈ (commands T s.rb).head?, c.type = commandExit →
      s.rb.len = T.cmdSize
  | _ => True

/-- Commands are sent to a looper that is going to read the queue again: not while it is
handling an `EXIT`, and not between its end and the next `async_looper_create`. -/
def Attended (s : State) : Act → Prop
  | .notify _ | .trigger _ _ _ | .cancel _ _ | .looperExit _ =>
    s.lock = true ∧ s.pc.leaving = false
  | _ => True

instance ExitLast.decidable (s : State) : ∀ a, Decidable (ExitLast T s a)
  | .step => inferInstanceAs (Decidable (s.pc.token = 1 → ∀ c ∈ (commands T s.rb).head?, _))
  | .create _ _ | .loop | .register _ _ _ _ | .notify _ | .putBack _ | .trigger _ _ _
  | .cancel _ _ | .looperExit _ | .post _ _ | .setCallback _ _ | .setTimeout _ _ | .setData _ _
  | .time _ | .pend _ | .ret _ => isTrue trivial

instance Attended.decidable (s : State) : ∀ a, Decidable (Attended s a)
  | .notify _ | .trigger _ _ _ | .cancel _ _ | .looperExit _ =>
    inferInstanceAs (Decidable (s.lock = true ∧ s.pc.leaving = false))
  | .create _ _ | .loop | .register _ _ _ _ | .putBack _ | .post _ _ | .setCallback _ _
  | .setTimeout _ _ | .setData _ _ | .time _ | .pend _ | .step | .ret _ => isTrue trivial

def Orderly (s : State) (a : Act) : Prop :=
  RegisterPosts s a ∧ Roomy T s a ∧ ExitLast T s a ∧ Attended s a

instance (s : State) (a : Act) : Decidable (Orderly T s a) :=
  inferInstanceAs (Decidable (_ ∧ _ ∧ _ ∧ _))

/-- The looper runs only while it has its lock, nothing that was accepted is lost, and the
queue is empty from the reading of an `EXIT` to the next `async_looper_create`. -/
structure Settled (s : State) : Prop where
  running : s.lock = false → s.pc = .idle
  log : s.accepted = s.dispatched ++ commands T s.rb
  empty : s.lock = false ∨ s.pc.leaving = true → s.rb.len = 0

variable {T}

theorem Pc.leaving_of_calm {pc : Pc} (h : pc.calm = true) : pc.leaving = false := by
  cases pc <;> first | rfl | cases h

namespace Settled

/-- A step that neither writes nor reads the queue. -/
theorem keep (h : Settled T s) (hrb : s'.rb = s.rb) (ha : s'.accepted = s.accepted)
    (hd : s'.dispatched = s.dispatched) (hrun : s'.lock = false → s'.pc = .idle)
    (hleft : s'.lock = false ∨ s'.pc.leaving = true → s.lock = false ∨ s.pc.leaving = true) :
    Settled T s' where
  running := hrun
  log := by
    rw [ha, hd, hrb]
    exact h.log
  empty he := by
    rw [hrb]
    exact h.empty (hleft he)

theorem client (h : Settled T s) (hq : SameQueue s s') (hpc : s'.pc = s.pc) : Settled T s' := by
  refine h.keep hq.rb hq.accepted hq.dispatched ?_ ?_
  · rw [hq.lock, hpc]
    exact h.running
  · rw [hq.lock, hpc]
    exact id

theorem looping (h : Settled T s) (hrb : s'.rb = s.rb) (ha : s'.accepted = s.accepted)
    (hd : s'.dispatched = s.dispatched) (hlock : s'.lock = s.lock) (hpc : s.pc ≠ .idle)
    (hstay : s'.pc.leaving = false) : Settled T s' := by
  have hopen : s'.lock ≠ false := fun hl => hpc (h.running (hlock ▸ hl))
  refine h.keep hrb ha hd (fun hl => absurd hl hopen) ?_
  rintro (hl | hleave)
  · exact absurd hl hopen
  · rw [hstay] at hleave
    cases hleave

theorem calm (h : Settled T s) (hq : SameQueue s s') (hpc : s.pc ≠ .idle)
    (hcalm : s'.pc.calm = true) : Settled T s' :=
  h.looping hq.rb hq.accepted hq.dispatched hq.lock hpc (Pc.leaving_of_calm hcalm)

theorem notifyLoop (h : Settled T s) (hw : Whole T s.rb)
    (hatt : s.lock = true ∧ s.pc.leaving = false) (call : Call) (stack : Mem) :
    Settled T (notifyLoop T s call stack).1 := by
  rcases notifyLoop_cases hw call stack with ⟨rb, -, -, hcmds, hs⟩ | hs
  · rw [hs]
    exact {
      running := fun hl => by simp [hatt.1] at hl
      log := by rw [h.log, hcmds, List.append_assoc]
      empty := fun he => by simp [hatt] at he }
  · rw [hs]
    exact h

theorem registerNotify (h : Settled T s) (hw : Whole T s.rb)
    (hatt : s.lock = true ∧ s.pc.leaving = false) (i : ℕ) (r : Registering) :
    Settled T (registerNotify T s i r) := by
  have hfill : Settled T (registerFill s i r) := h.client (.of_update ..) rfl
  have hres := hfill.notifyLoop hw hatt (.register r.ret) r.stack
  simp only [Async.registerNotify]
  split_ifs
  · exact hres
  · exact hres.client (.of_update ..) rfl

theorem dequeue (h : Settled T s) (hw : Whole T s.rb) {next : ℕ} (hpc : s.pc = .dequeue next)
    (hroom : s.rb.len + T.cmdSize ≤ s.rb.cap)
    (hlast : ∀ c ∈ (commands T s.rb).head?, c.type = commandExit → s.rb.len = T.cmdSize) :
    Settled T (dequeue T s next) := by
  have hlock : s.lock ≠ false := by
    intro hl
    rw [h.running hl] at hpc
    cases hpc
  rcases dequeue_cases hw next with ⟨rb, cmd, -, hlen, hcmds, hs⟩ | ⟨hfail, rb, -, hcmds, hs⟩
  · rw [hs]
    refine ⟨fun hl => absurd hl hlock, ?_, ?_⟩
    · rw [h.log, hcmds, List.append_assoc, List.singleton_append]
    · rintro (hl | hleave)
      · exact absurd hl hlock
      · have hexit : cmd.type = commandExit := by
          by_contra hne
          rw [Pc.leaving_of_calm (dispatch_calm s.links next hne)] at hleave
          cases hleave
        have := hlast cmd (by rw [hcmds]; rfl) hexit
        show rb.len = 0
        omega
  · rw [hs]
    refine ⟨fun hl => absurd hl hlock, ?_, ?_⟩
    · have hnil := commands_of_read_fails hw hroom hfail
      rw [h.log, hnil, hcmds]
    · rintro (hl | hleave)
      · exact absurd hl hlock
      · cases hleave

theorem loopStep (h : Settled T s) (hw : Whole T s.rb) (hroom : Roomy T s .step)
    (hlast : ExitLast T s .step) (hs : loopStep T s = some s') : Settled T s' := by
  cases hpc : s.pc with
  | dequeue next =>
    have htoken : s.pc.token = 1 := by rw [hpc]; rfl
    simp only [Async.loopStep, hpc] at hs
    cases hs
    exact h.dequeue hw hpc (hroom htoken) (hlast htoken)
  | clearSem next =>
    simp only [Async.loopStep, hpc] at hs
    cases hs
    exact h.looping rfl rfl rfl rfl (by simp [hpc]) rfl
  | exit =>
    simp only [Async.loopStep, hpc] at hs
    cases hs
    refine h.keep rfl rfl rfl (fun hl => ?_) fun _ => Or.inr (by rw [hpc]; rfl)
    rw [h.running hl] at hpc
    cases hpc
  | destroy =>
    simp only [Async.loopStep, hpc] at hs
    cases hs
    exact h.keep rfl rfl rfl (fun _ => rfl) fun _ => Or.inr (by rw [hpc]; rfl)
  | idle =>
    simp only [Async.loopStep, hpc] at hs
    cases hs
  | _ =>
    obtain ⟨hq, hcalm⟩ := loopStep_sameQueue (by rw [hpc]; rfl) hs
    exact h.calm hq (by simp [hpc]) hcalm

theorem step (h : Settled T s) (hw : Whole T s.rb) {a : Act} (ha : Orderly T s a)
    (hs : step T s a = some s') : Settled T s' := by
  obtain ⟨-, hroom, hlast, hatt⟩ := ha
  cases step_cases hs with
  | refused => exact h
  | create ok hlock =>
    exact h.keep rfl rfl rfl (fun _ => h.running hlock) fun _ => Or.inl hlock
  | loop hpc hlock =>
    refine h.keep rfl rfl rfl (fun hl => by simp [hlock] at hl) ?_
    rintro (hl | hleave)
    · exact Or.inl hl
    · cases hleave
  | @register cb timeout dat stack =>
    obtain ⟨hq, hpc⟩ := registerPop_sameQueue (T := T) s cb timeout.toNat dat stack
    exact h.client hq hpc
  | notify => exact h.registerNotify hw hatt _ _
  | putBack => exact h.client (.of_update ..) rfl
  | trigger => exact h.notifyLoop hw hatt _ _
  | cancel => exact h.notifyLoop hw hatt _ _
  | looperExit => exact h.notifyLoop hw hatt _ _
  | @post i p ok =>
    obtain ⟨sem, failed, returned, hs⟩ := postSem_eq s i p ok
    rw [hs]
    exact h.keep rfl rfl rfl h.running id
  | setCallback | setTimeout | setData => exact h.client (.of_update ..) rfl
  | time hs =>
    obtain ⟨hq, hcalm⟩ := loopTime_sameQueue hs
    refine h.calm hq (fun hpc => ?_) hcalm
    simp only [loopTime, hpc] at hs
    cases hs
  | woken hpc => exact h.looping rfl rfl rfl rfl (by simp [hpc]) rfl
  | slept hpc => exact h.looping rfl rfl rfl rfl (by simp [hpc]) rfl
  | step hs => exact h.loopStep hw hroom hlast hs
  | ret hs =>
    obtain ⟨hq, hcalm⟩ := loopRet_sameQueue hs
    refine h.calm hq (fun hpc => ?_) hcalm
    simp only [loopRet, hpc] at hs
    cases hs

end Settled

theorem init_settled (T : Target) : Settled T (init T) where
  running _ := rfl
  log := by rw [show commands T (init T).rb = [] from init_commands _ _]; rfl
  empty _ := rfl

theorem notifyLoop_grows (s : State) (call : Call) (stack : Mem) :
    s.accepted <+: (notifyLoop T s call stack).1.accepted ∧
      (notifyLoop T s call stack).1.dispatched = s.dispatched := by
  simp only [notifyLoop]
  split_ifs
  · exact ⟨List.prefix_refl _, rfl⟩
  · exact ⟨List.prefix_append _ _, rfl⟩

theorem step_grows {a : Act} (hs : step T s a = some s') :
    s.accepted <+: s'.accepted ∧ s.dispatched <+: s'.dispatched := by
  have hsame : ∀ {t : State}, t.accepted = s.accepted → t.dispatched = s.dispatched →
      s.accepted <+: t.accepted ∧ s.dispatched <+: t.dispatched := by
    intro t ha hd
    rw [ha, hd]
    exact ⟨List.prefix_refl _, List.prefix_refl _⟩
  have hsend : ∀ call stack, s.accepted <+: (notifyLoop T s call stack).1.accepted ∧
      s.dispatched <+: (notifyLoop T s call stack).1.dispatched := by
    intro call stack
    obtain ⟨ha, hd⟩ := notifyLoop_grows (T := T) s call stack
    rw [hd]
    exact ⟨ha, List.prefix_refl _⟩
  cases step_cases hs with
  | refused => exact hsame rfl rfl
  | create => exact hsame rfl rfl
  | loop => exact hsame rfl rfl
  | @register cb timeout dat stack =>
    obtain ⟨hq, -⟩ := registerPop_sameQueue (T := T) s cb timeout.toNat dat stack
    exact hsame hq.accepted hq.dispatched
  | @notify i r =>
    obtain ⟨ha, hd⟩ := notifyLoop_grows (T := T) (registerFill s i r) (.register r.ret) r.stack
    simp only [registerNotify]
    split_ifs
    · exact ⟨ha, hd ▸ List.prefix_refl _⟩
    · exact ⟨ha, hd ▸ List.prefix_refl _⟩
  | putBack => exact hsame rfl rfl
  | trigger => exact hsend _ _
  | cancel => exact hsend _ _
  | looperExit => exact hsend _ _
  | @post i p ok =>
    obtain ⟨sem, failed, returned, hs⟩ := postSem_eq s i p ok
    rw [hs]
    exact hsame rfl rfl
  | setCallback | setTimeout | setData => exact hsame rfl rfl
  | time hs =>
    obtain ⟨hq, -⟩ := loopTime_sameQueue hs
    exact hsame hq.accepted hq.dispatched
  | woken => exact hsame rfl rfl
  | slept => exact hsame rfl rfl
  | ret hs =>
    obtain ⟨hq, -⟩ := loopRet_sameQueue hs
    exact hsame hq.accepted hq.dispatched
  | step hs =>
    cases hpc : s.pc with
    | dequeue next =>
      simp only [loopStep, hpc] at hs
      cases hs
      simp only [dequeue]
      split_ifs
      · exact hsame rfl rfl
      · exact ⟨List.prefix_refl _, List.prefix_append _ _⟩
    | clearSem | exit | destroy =>
      simp only [loopStep, hpc] at hs
      cases hs
      exact hsame rfl rfl
    | _ =>
      obtain ⟨hq, -⟩ := loopStep_sameQueue (by rw [hpc]; rfl) hs
      exact hsame hq.accepted hq.dispatched

def Shut (T : Target) (s : State) : Prop := (∃ free evs, Inv T True s free evs) ∧ Settled T s

theorem Shut.step {a : Act} (h : Shut T s) (ha : Orderly T s a) (hs : step T s a = some s') :
    Shut T s' := by
  obtain ⟨⟨free, evs, hinv⟩, hsettled⟩ := h
  refine ⟨hinv.step ha.1 (fun _ ha' next hpc => ?_) hs, hsettled.step hinv.whole ha hs⟩
  subst ha'
  exact ha.2.1 (by rw [hpc]; rfl)

/-- Behind an `EXIT` every slot is free or in the hands of an `async_event_register`. -/
theorem Shut.slots (h : Shut T s) (hidle : s.pc = .idle) (hempty : s.rb.len = 0) :
    ∃ free, s.links.toList T.poolSize T.freeList = some free ∧
      ∀ e ∈ T.pool, e ∈ free ∨ e ∈ s.registering.map Registering.ret ++ s.failed := by
  obtain ⟨⟨free, evs, hinv⟩, -⟩ := h
  have hevs : evs = [] := by
    have hok := hinv.pc
    rwa [hidle] at hok
  refine ⟨free, hinv.toList_eq.1, fun e he => ?_⟩
  have hpos := hinv.kept trivial e he
  have hcmds : commands T s.rb = [] := commands_of_len_eq_zero hempty
  simp only [uses, held, hidle, Pc.held, hevs, queued, hcmds, List.flatMap_nil, List.append_nil,
    List.count_nil, Nat.add_zero] at hpos
  rw [← List.count_append, List.count_pos_iff, List.mem_append] at hpos
  exact hpos

/-- In every schedule whose steps are all `Orderly`, whenever there is no looper the queue is
empty and every slot is free or in the hands of a running `async_event_register`. The
commands executed from then on are the ones sent from then on, from the first. -/
theorem shutdown_leaves_nothing (T : Target) {as : List Act} {s : State}
    (h : AllSteps (step T) (Orderly T) (init T) as) (hrun : run (step T) (init T) as = some s)
    (hidle : s.pc = .idle) (hlock : s.lock = false) :
    s.rb.len = 0 ∧
      (∃ free, s.links.toList T.poolSize T.freeList = some free ∧
        ∀ e ∈ T.pool, e ∈ free ∨ e ∈ s.registering.map Registering.ret ++ s.failed) ∧
      ∀ bs t, AllSteps (step T) (Orderly T) s bs → run (step T) s bs = some t →
        ∃ executed, t.dispatched = s.dispatched ++ executed ∧
          executed <+: t.accepted.drop s.accepted.length := by
  have hshut : Shut T s := run_invariant (fun _ _ _ hI ha hs => hI.step ha hs)
    ⟨⟨_, _, init_inv T⟩, init_settled T⟩ h hrun
  have hempty : s.rb.len = 0 := hshut.2.empty (Or.inl hlock)
  refine ⟨hempty, hshut.slots hidle hempty, fun bs t hb ht => ?_⟩
  have hlater : Shut T t ∧ s.accepted <+: t.accepted ∧ s.dispatched <+: t.dispatched := by
    refine run_invariant (I := fun u => Shut T u ∧ s.accepted <+: u.accepted ∧
      s.dispatched <+: u.dispatched) (fun u a u' hI ha hs => ?_)
      ⟨hshut, List.prefix_refl _, List.prefix_refl _⟩ hb ht
    obtain ⟨hacc, hdisp⟩ := step_grows hs
    exact ⟨hI.1.step ha hs, hI.2.1.trans hacc, hI.2.2.trans hdisp⟩
  obtain ⟨⟨-, hsettled⟩, -, executed, hexecuted⟩ := hlater
  refine ⟨executed, hexecuted.symm, ?_⟩
  have hall : s.accepted = s.dispatched := by
    rw [hshut.2.log, commands_of_len_eq_zero hempty, List.append_nil]
  rw [hsettled.log, ← hexecuted, hall, List.append_assoc, List.drop_left]
  exact List.prefix_append _ _

/-- An event is added and the looper told to exit; after the re-creation a trigger is sent. -/
theorem shutdown_leaves_nothing_one :
    ∃ s ∈ run (step .lp64) (init .lp64)
        [.create true true, .loop, .register 1 5 0 fun _ => 0, .notify 0, .post 0 true, .time 0,
          .pend true, .step, .step, .time 0, .looperExit fun _ => 0, .post 0 true, .time 0,
          .pend true, .step, .step, .step],
      s.rb.len = 0 ∧ (∃ free, s.links.toList 10 Target.lp64.freeList = some free ∧
        ∀ e ∈ Target.lp64.pool, e ∈ free ∨ e ∈ s.registering.map Registering.ret ++ s.failed) ∧
      ∃ t ∈ run (step .lp64) s [.create true true, .loop, .trigger 4456 3 fun _ => 0,
          .post 0 true, .time 0, .pend true, .step],
        ∃ executed, t.dispatched = s.dispatched ++ executed ∧
          executed <+: t.accepted.drop s.accepted.length := by
  have hrun : ∃ s ∈ run (step .lp64) (init .lp64)
        [.create true true, .loop, .register 1 5 0 fun _ => 0, .notify 0, .post 0 true, .time 0,
          .pend true, .step, .step, .time 0, .looperExit fun _ => 0, .post 0 true, .time 0,
          .pend true, .step, .step, .step],
      s.lock = false ∧ AllSteps (step .lp64) (Orderly .lp64) s [.create true true, .loop,
        .trigger 4456 3 fun _ => 0, .post 0 true, .time 0, .pend true, .step] ∧
      (run (step .lp64) s [.create true true, .loop, .trigger 4456 3 fun _ => 0,
          .post 0 true, .time 0, .pend true, .step]).isSome = true := by decide +kernel
  obtain ⟨s, hs, hlock, hsafe, hsome⟩ := hrun
  have hshut : AllSteps (step .lp64) (Orderly .lp64) (init .lp64)
      [.create true true, .loop, .register 1 5 0 fun _ => 0, .notify 0, .post 0 true, .time 0,
        .pend true, .step, .step, .time 0, .looperExit fun _ => 0, .post 0 true, .time 0,
        .pend true, .step, .step, .step] := by decide +kernel
  have hidle : s.pc = .idle := (run_invariant (fun _ _ _ hI ha hs => Shut.step hI ha hs)
    ⟨⟨_, _, init_inv .lp64⟩, init_settled .lp64⟩ hshut hs).2.running hlock
  obtain ⟨hempty, hfree, hlater⟩ := shutdown_leaves_nothing .lp64 hshut hs hidle hlock
  obtain ⟨t, ht⟩ := Option.isSome_iff_exists.mp hsome
  exact ⟨s, hs, hempty, hfree, t, ht, hlater _ t hsafe ht⟩

/-- A registration is queued behind the `EXIT`. The looper returns with its command in the
queue and its slot nowhere else, and the next looper executes that command first. -/
theorem queued_behind_exit :
    AllSteps (step .lp64) (fun s a => RegisterPosts s a ∧ Roomy .lp64 s a) (init .lp64)
        [.create true true, .loop, .looperExit fun _ => 0, .register 1 5 0 fun _ => 0, .notify 0,
          .post 0 true, .post 0 true, .time 0, .pend true, .step, .step, .step] ∧
      ∃ s ∈ run (step .lp64) (init .lp64)
          [.create true true, .loop, .looperExit fun _ => 0, .register 1 5 0 fun _ => 0,
            .notify 0, .post 0 true, .post 0 true, .time 0, .pend true, .step, .step, .step],
        s.lock = false ∧ commands .lp64 s.rb = [⟨commandAddEvent, 4456, 0⟩] ∧
        s.registering.length = 0 ∧ s.failed = [] ∧
        (∃ free, s.links.toList 10 Target.lp64.freeList = some free ∧ 4456 ∉ free) ∧
        ∃ t ∈ run (step .lp64) s [.create true true, .loop, .trigger 4096 3 fun _ => 0,
            .post 0 true, .time 0, .pend true, .step],
          t.accepted.drop s.accepted.length = [⟨commandTriggerCall, 4096, 0⟩] ∧
          t.dispatched.drop s.dispatched.length = [⟨commandAddEvent, 4456, 0⟩] := by
  decide +kernel

end EmbeddedTemplate.Async
