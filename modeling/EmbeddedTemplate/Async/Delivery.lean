import EmbeddedTemplate.Async.Queue

/-! Delivery of commands to the looper: which accepted commands reach it. -/
namespace EmbeddedTemplate.Async

open Transition ByteMem

variable {T : Target} {s s' : State}

structure SameQueue (s s' : State) : Prop where
  rb : s'.rb = s.rb
  lock : s'.lock = s.lock
  sem : s'.sem = s.sem
  posting : s'.posting = s.posting
  accepted : s'.accepted = s.accepted
  returned : s'.returned = s.returned
  dispatched : s'.dispatched = s.dispatched
  queue : s'.queue = s.queue
  cause : s'.cause = s.cause

theorem SameQueue.of_update (s : State) (links : Heads) (ev : ℕ → Event) (pc : Pc)
    (registering : List Registering) (failed : List ℕ) (invoked : List Invocation) :
    SameQueue s { s with links, ev, pc, registering, failed, invoked } :=
  ⟨rfl, rfl, rfl, rfl, rfl, rfl, rfl, rfl, rfl⟩

/-- Places of the looper from which it does not touch the semaphore on its own. -/
def Pc.calm : Pc → Bool
  | .dequeue _ | .clearSem _ | .exit | .destroy => false
  | _ => true

theorem loopStep_sameQueue (hcalm : s.pc.calm = true) (hs : loopStep T s = some s') :
    SameQueue s s' ∧ s'.pc.calm = true := by
  cases hpc : s.pc with
  | dequeue | clearSem | exit | destroy =>
    rw [hpc] at hcalm
    cases hcalm
  | timeout | trigger | add | cancel =>
    simp only [loopStep, hpc] at hs
    split_ifs at hs <;> cases hs <;> exact ⟨.of_update .., rfl⟩
  | idle | top | enterTimeout | timeoutCb | leaveTimeout | pend | triggerCb | rearm | addCb
  | addLink =>
    simp only [loopStep, hpc] at hs
    cases hs

theorem loopTime_sameQueue {t : ℕ} (hs : loopTime T s t = some s') :
    SameQueue s s' ∧ s'.pc.calm = true := by
  unfold loopTime at hs
  split at hs <;> try split at hs
  all_goals cases hs
  all_goals exact ⟨.of_update .., rfl⟩

theorem loopRet_sameQueue {rc : UInt8} (hs : loopRet T s rc = some s') :
    SameQueue s s' ∧ s'.pc.calm = true := by
  unfold loopRet at hs
  split at hs <;> try split at hs
  all_goals cases hs
  all_goals exact ⟨.of_update .., rfl⟩

theorem registerPop_sameQueue (s : State) (cb timeout dat : ℕ) (stack : Mem) :
    SameQueue s (registerPop T s cb timeout dat stack) ∧
      (registerPop T s cb timeout dat stack).pc = s.pc := by
  obtain ⟨links, registering, hs⟩ := registerPop_eq (T := T) s cb timeout dat stack
  rw [hs]
  exact ⟨.of_update .., rfl⟩

/-- The token the looper has taken and not yet spent. -/
def Pc.token : Pc → ℕ
  | .dequeue _ => 1
  | _ => 0

theorem Pc.token_of_calm {pc : Pc} (h : pc.calm = true) : pc.token = 0 := by
  cases pc <;> first | rfl | cases h

theorem dispatch_calm (l : Heads) (next : ℕ) {cmd : Command} (h : cmd.type ≠ commandExit) :
    (dispatch T l next cmd).calm = true := by
  unfold dispatch
  split_ifs <;> rfl

variable (T)

/-- Every command in the queue has one unit of the semaphore behind it, counting the posts
under way and the unit the looper holds; nothing that was accepted is lost. -/
structure Fed (s : State) : Prop where
  whole : Whole T s.rb
  lock : s.lock = true
  tokens : ∃ k, s.sem = some k ∧ s.rb.len = T.cmdSize * (k + s.posting.length + s.pc.token)
  no_exit : ∀ c ∈ commands T s.rb, c.type ≠ commandExit
  pc : s.pc.calm = true ∨ ∃ next, s.pc = .dequeue next
  log : s.accepted = s.dispatched ++ commands T s.rb
  answered : s.accepted.Perm (s.returned ++ s.posting.map Posting.cmd)

/-- No `EXIT` is sent and `os_post_sem` does not fail. -/
def Quiet : Act → Prop
  | .looperExit _ => False
  | .post _ ok => ok = true
  | _ => True

instance Quiet.decidable : ∀ a, Decidable (Quiet a)
  | .looperExit _ => isFalse id
  | .post _ ok => inferInstanceAs (Decidable (ok = true))
  | .create _ _ | .loop | .register _ _ _ _ | .notify _ | .putBack _ | .trigger _ _ _
  | .cancel _ _ | .setCallback _ _ | .setTimeout _ _ | .setData _ _ | .time _
  | .pend _ | .step | .ret _ => isTrue trivial

/-- When the looper reads the queue, as much space is free as a command takes. -/
def Roomy (s : State) : Act → Prop
  | .step => s.pc.token = 1 → s.rb.len + T.cmdSize ≤ s.rb.cap
  | _ => True

instance Roomy.decidable (s : State) : ∀ a, Decidable (Roomy T s a)
  | .step => inferInstanceAs (Decidable (s.pc.token = 1 → s.rb.len + T.cmdSize ≤ s.rb.cap))
  | .create _ _ | .loop | .register _ _ _ _ | .notify _ | .putBack _ | .trigger _ _ _
  | .cancel _ _ | .looperExit _ | .post _ _ | .setCallback _ _ | .setTimeout _ _ | .setData _ _
  | .time _ | .pend _ | .ret _ => isTrue trivial

variable {T}

namespace Fed

theorem same (h : Fed T s) (hq : SameQueue s s') (hpc : s'.pc = s.pc ∨
    s.pc.calm = true ∧ s'.pc.calm = true) : Fed T s' := by
  have htoken : s'.pc.token = s.pc.token := by
    rcases hpc with hpc | ⟨h1, h2⟩
    · rw [hpc]
    · rw [Pc.token_of_calm h1, Pc.token_of_calm h2]
  exact {
    whole := hq.rb ▸ h.whole
    lock := hq.lock ▸ h.lock
    tokens := by
      rw [hq.sem, hq.rb, hq.posting, htoken]
      exact h.tokens
    no_exit := hq.rb ▸ h.no_exit
    pc := hpc.elim (fun he => he ▸ h.pc) fun hc => Or.inl hc.2
    log := by
      rw [hq.accepted, hq.dispatched, hq.rb]
      exact h.log
    answered := by
      rw [hq.accepted, hq.returned, hq.posting]
      exact h.answered }

theorem notifyLoop (h : Fed T s) {call : Call} (stack : Mem) (hcall : call.type ≠ commandExit) :
    Fed T (notifyLoop T s call stack).1 := by
  rcases notifyLoop_cases h.whole call stack with ⟨rb, hw, hlen, hcmds, hs⟩ | hs
  · obtain ⟨k, hsem, hk⟩ := h.tokens
    rw [hs]
    exact {
      whole := hw
      lock := h.lock
      tokens := ⟨k, hsem, by
        rw [hlen, hk, List.length_append, List.length_singleton]
        ring⟩
      no_exit := by
        intro c hc
        rw [hcmds, List.mem_append, List.mem_singleton] at hc
        rcases hc with hc | rfl
        · exact h.no_exit c hc
        · rw [fields_type]
          exact hcall
      pc := h.pc
      log := by rw [h.log, hcmds, List.append_assoc]
      answered := by
        rw [List.map_append, ← List.append_assoc]
        exact h.answered.append_right _ }
  · rw [hs]
    exact h

theorem post (h : Fed T s) {i : ℕ} {p : Posting} (hi : s.posting[i]? = some p) :
    Fed T (postSem s i p true) := by
  obtain ⟨k, hsem, hk⟩ := h.tokens
  obtain ⟨hlt, rfl⟩ := List.getElem?_eq_some_iff.mp hi
  have hperm := List.getElem_cons_eraseIdx_perm hlt
  exact {
    whole := h.whole
    lock := h.lock
    tokens := by
      have hlen := hperm.length_eq
      rw [List.length_cons] at hlen
      refine ⟨k + 1, by simp [postSem, hsem], ?_⟩
      simp only [postSem, if_true]
      rw [hk, ← hlen]
      ring
    no_exit := h.no_exit
    pc := h.pc
    log := h.log
    answered := by
      refine h.answered.trans ?_
      simp only [postSem, if_true]
      rw [List.append_assoc]
      exact (hperm.map Posting.cmd).symm.append_left _ }

theorem dequeue (h : Fed T s) {next : ℕ} (hpc : s.pc = .dequeue next)
    (hroom : s.rb.len + T.cmdSize ≤ s.rb.cap) : Fed T (dequeue T s next) := by
  obtain ⟨k, hsem, hk⟩ := h.tokens
  have hpos := cmdSize_pos (T := T)
  simp only [hpc, Pc.token] at hk
  have hret := read_ret h.whole (by rw [hk]; positivity) hroom
  rcases dequeue_cases h.whole next with ⟨rb, cmd, hw, hlen, hcmds, hs⟩ | ⟨hfail, -⟩
  · have hexit := h.no_exit
    rw [hcmds] at hexit
    have hcalm := dispatch_calm (T := T) s.links next (hexit cmd (by simp))
    rw [hs]
    exact {
      whole := hw
      lock := h.lock
      tokens := by
        refine ⟨k, hsem, ?_⟩
        rw [Pc.token_of_calm hcalm]
        rw [hlen, Nat.mul_succ] at hk
        exact Nat.add_right_cancel hk
      no_exit := fun c hc => hexit c (List.mem_cons_of_mem cmd hc)
      pc := Or.inl hcalm
      log := by rw [h.log, hcmds, List.append_assoc, List.singleton_append]
      answered := h.answered }
  · exact absurd hret hfail

theorem registerNotify (h : Fed T s) (i : ℕ) (r : Registering) : Fed T (registerNotify T s i r) := by
  have hfill : Fed T (registerFill s i r) :=
    h.same (.of_update ..) (Or.inl rfl)
  have hres := hfill.notifyLoop r.stack
    (show (Call.register r.ret).type ≠ commandExit from (by decide : commandAddEvent ≠ commandExit))
  simp only [Async.registerNotify]
  split_ifs
  · exact hres
  · exact hres.same (.of_update ..) (Or.inl rfl)

theorem woken (h : Fed T s) {next now diff k : ℕ} (hpc : s.pc = .pend next now diff)
    (hsem : s.sem = some (k + 1)) : Fed T { s with sem := some k, pc := .dequeue next } := by
  obtain ⟨n, hn, hlen⟩ := h.tokens
  obtain rfl : n = k + 1 := Option.some.inj (hn.symm.trans hsem)
  refine ⟨h.whole, h.lock, ⟨k, rfl, ?_⟩, h.no_exit, Or.inr ⟨next, rfl⟩, h.log, h.answered⟩
  simp only [hpc, Pc.token] at hlen ⊢
  rw [hlen]
  ring

theorem step (h : Fed T s) {a : Act} (ha : Quiet a ∧ Roomy T s a) (hs : step T s a = some s') :
    Fed T s' := by
  have hsame : ∀ {t : State}, SameQueue s t ∧ t.pc = s.pc → Fed T t :=
    fun ht => h.same ht.1 (Or.inl ht.2)
  cases step_cases hs with
  | refused => exact h
  | create ok hlock => exact absurd h.lock (by simp [hlock])
  | loop hpc => exact h.same (.of_update ..) (Or.inr ⟨by rw [hpc]; rfl, rfl⟩)
  | register => exact hsame (registerPop_sameQueue s _ _ _ _)
  | notify => exact h.registerNotify _ _
  | putBack => exact hsame ⟨.of_update .., rfl⟩
  | trigger => exact h.notifyLoop _ (by decide : commandTriggerCall ≠ commandExit)
  | cancel => exact h.notifyLoop _ (by decide : commandCancelEvent ≠ commandExit)
  | looperExit => exact absurd ha.1 id
  | post hi =>
    obtain rfl : _ = true := ha.1
    exact h.post hi
  | setCallback | setTimeout | setData => exact hsame ⟨.of_update .., rfl⟩
  | time hs =>
    obtain ⟨hq, hcalm⟩ := loopTime_sameQueue hs
    refine h.same hq (Or.inr ⟨?_, hcalm⟩)
    rcases h.pc with hc | ⟨next, hpc⟩
    · exact hc
    · simp only [loopTime, hpc] at hs
      cases hs
  | woken hpc hsem => exact h.woken hpc hsem
  | slept hpc => exact h.same (.of_update ..) (Or.inr ⟨by rw [hpc]; rfl, rfl⟩)
  | step hs =>
    rcases h.pc with hc | ⟨next, hpc⟩
    · obtain ⟨hq, hcalm⟩ := loopStep_sameQueue hc hs
      exact h.same hq (Or.inr ⟨hc, hcalm⟩)
    · simp only [loopStep, hpc] at hs
      cases hs
      exact h.dequeue hpc (ha.2 (by rw [hpc]; rfl))
  | ret hs =>
    obtain ⟨hq, hcalm⟩ := loopRet_sameQueue hs
    refine h.same hq (Or.inr ⟨?_, hcalm⟩)
    rcases h.pc with hc | ⟨next, hpc⟩
    · exact hc
    · simp only [loopRet, hpc] at hs
      cases hs

end Fed

/-- After `async_init` and `async_looper_create`. -/
def created (T : Target) : State := looperCreate (init T) true true

theorem created_fed (T : Target) : Fed T (created T) where
  whole := init_whole _
  lock := rfl
  tokens := ⟨0, rfl, rfl⟩
  no_exit := by
    intro c hc
    rw [show commands T (created T).rb = [] from init_commands _ _] at hc
    cases hc
  pc := Or.inl rfl
  log := by rw [show commands T (created T).rb = [] from init_commands _ _]; rfl
  answered := List.Perm.refl _

/-- In every schedule without `EXIT` and without failing posts in which the looper never
reads a queue that has less free space than one command, the commands dispatched so far
followed by the content of the queue are the commands accepted, in their order. The calls
that accepted them have returned nonzero or are about to post. -/
theorem commands_delivered_once (T : Target) {as : List Act} {s : State}
    (h : AllSteps (step T) (fun s a => Quiet a ∧ Roomy T s a) (created T) as)
    (hrun : run (step T) (created T) as = some s) :
    s.accepted = s.dispatched ++ commands T s.rb ∧
      s.accepted.Perm (s.returned ++ s.posting.map Posting.cmd) := by
  have hfed := run_invariant (I := Fed T) (fun _ _ _ hI ha hs => hI.step ha hs)
    (created_fed T) h hrun
  exact ⟨hfed.log, hfed.answered⟩

/-- Three registrations in flight, one of them executed. -/
theorem commands_delivered_once_three :
    ∃ s ∈ run (step .lp64) (created .lp64)
        [.loop, .register 1 5 0 fun _ => 0, .register 2 5 0 fun _ => 0, .notify 1, .notify 0,
          .post 0 true, .time 0, .pend true, .register 3 5 0 fun _ => 0, .notify 0, .step],
      s.accepted = s.dispatched ++ commands .lp64 s.rb ∧ s.dispatched.length = 1 ∧
        s.accepted.length = 3 := by
  have hrun : ∃ s ∈ run (step .lp64) (created .lp64)
      [.loop, .register 1 5 0 fun _ => 0, .register 2 5 0 fun _ => 0, .notify 1, .notify 0,
        .post 0 true, .time 0, .pend true, .register 3 5 0 fun _ => 0, .notify 0, .step],
      s.dispatched.length = 1 ∧ s.accepted.length = 3 := by decide +kernel
  obtain ⟨s, hs, hlen⟩ := hrun
  exact ⟨s, hs, (commands_delivered_once .lp64 (by decide +kernel) hs).1, hlen⟩

/-- Four accepted commands of 24 bytes leave 4 bytes free, and the looper throws all of
them away. -/
theorem full_queue_discarded :
    AllSteps (step .lp64) (fun _ a => Quiet a) (created .lp64)
        [.loop, .register 1 5 0 fun _ => 0, .notify 0, .post 0 true, .register 2 5 0 fun _ => 0,
          .notify 0, .post 0 true, .register 3 5 0 fun _ => 0, .notify 0, .post 0 true,
          .register 4 5 0 fun _ => 0, .notify 0, .post 0 true, .time 0, .pend true, .step] ∧
      ∃ s ∈ run (step .lp64) (created .lp64)
          [.loop, .register 1 5 0 fun _ => 0, .notify 0, .post 0 true,
            .register 2 5 0 fun _ => 0, .notify 0, .post 0 true, .register 3 5 0 fun _ => 0,
            .notify 0, .post 0 true, .register 4 5 0 fun _ => 0, .notify 0, .post 0 true,
            .time 0, .pend true, .step],
        s.returned = s.accepted ∧ s.accepted.length = 4 ∧ s.dispatched = [] ∧
          commands .lp64 s.rb = [] := by
  decide +kernel

end EmbeddedTemplate.Async
