import EmbeddedTemplate.Async.Slots
import EmbeddedTemplate.Async.Delivery

/-! What an `async_event_register` that fails leaves behind. -/
namespace EmbeddedTemplate.Async

open Transition ByteMem

variable {T : Target} {s s' : State}

/-- The event a command is about. `EXIT` commands have none. -/
def Command.refersTo (event : ℕ) (c : Command) : Prop := c.type ≠ commandExit ∧ c.event = event

instance (event : ℕ) (c : Command) : Decidable (c.refersTo event) :=
  inferInstanceAs (Decidable (_ ∧ _))

/-- The calls of the clients with `event` as their argument. -/
def Act.names (event : ℕ) : Act → Prop
  | .trigger e _ _ | .cancel e _ => e = event
  | _ => False

/-- A command that some call has just written: the calls that are given an event write one
about it, and only the registrations write `ADD_EVENT`. -/
def Act.writes (a : Act) (c : Command) : Prop :=
  c.type = commandAddEvent ∨ c.type = commandExit ∨ a.names c.event

theorem notifyLoop_commands (hw : Whole T s.rb) (call : Call) (stack : Mem) :
    Whole T (notifyLoop T s call stack).1.rb ∧ ∀ c ∈ commands T (notifyLoop T s call stack).1.rb,
      c ∈ commands T s.rb ∨ c = fields T (call.priv T stack) := by
  rcases notifyLoop_cases hw call stack with ⟨rb, hrb, -, hcmds, hs⟩ | hs
  · rw [hs]
    refine ⟨hrb, fun c hc => ?_⟩
    have hmem : c ∈ commands T rb := hc
    rw [hcmds] at hmem
    simpa using hmem
  · rw [hs]
    exact ⟨hw, fun c hc => .inl hc⟩

theorem loopStep_commands (hw : Whole T s.rb) (hs : loopStep T s = some s') :
    Whole T s'.rb ∧ ∀ c ∈ commands T s'.rb, c ∈ commands T s.rb := by
  have hsame : s'.rb = s.rb → Whole T s'.rb ∧ ∀ c ∈ commands T s'.rb, c ∈ commands T s.rb := by
    intro hrb
    rw [hrb]
    exact ⟨hw, fun _ hc => hc⟩
  cases hpc : s.pc with
  | dequeue next =>
    simp only [loopStep, hpc] at hs
    cases hs
    rcases dequeue_cases hw next with ⟨rb, cmd, hrb, -, hcmds, hs⟩ | ⟨-, rb, hrb, hcmds, hs⟩
    · rw [hs, hcmds]
      exact ⟨hrb, fun _ hc => List.mem_cons_of_mem _ hc⟩
    · rw [hs]
      refine ⟨hrb, fun c hc => ?_⟩
      have hmem : c ∈ commands T rb := hc
      rw [hcmds] at hmem
      cases hmem
  | clearSem | exit | destroy =>
    simp only [loopStep, hpc] at hs
    cases hs
    exact hsame rfl
  | timeout | trigger | add | cancel | idle | top | enterTimeout | timeoutCb | leaveTimeout | pend
  | triggerCb | rearm | addCb | addLink =>
    exact hsame (loopStep_sameQueue (by rw [hpc]; rfl) hs).1.rb

theorem step_commands {a : Act} (hw : Whole T s.rb) (hs : step T s a = some s') :
    Whole T s'.rb ∧ ∀ c ∈ commands T s'.rb, c ∈ commands T s.rb ∨ a.writes c := by
  have hsame : s'.rb = s.rb →
      Whole T s'.rb ∧ ∀ c ∈ commands T s'.rb, c ∈ commands T s.rb ∨ a.writes c := by
    intro hrb
    rw [hrb]
    exact ⟨hw, fun _ hc => .inl hc⟩
  cases step_cases hs with
  | refused | create | loop | putBack | setCallback | setTimeout | setData | woken | slept =>
    exact hsame rfl
  | register =>
    obtain ⟨links, registering, hpop⟩ := registerPop_eq (T := T) s _ _ _ _
    exact hsame (by rw [hpop])
  | post =>
    obtain ⟨sem, failed, returned, hpost⟩ := postSem_eq s _ _ _
    exact hsame (by rw [hpost])
  | @notify i r =>
    obtain ⟨hrb, hcmds⟩ := notifyLoop_commands (s := registerFill s i r) hw (.register r.ret) r.stack
    have heq : (registerNotify T s i r).rb =
        (notifyLoop T (registerFill s i r) (.register r.ret) r.stack).1.rb := by
      simp only [registerNotify]
      split_ifs <;> rfl
    rw [heq]
    refine ⟨hrb, fun c hc => (hcmds c hc).imp_right fun h => .inl ?_⟩
    rw [h, fields_type]
    rfl
  | @trigger e d stack he =>
    obtain ⟨hrb, hcmds⟩ := notifyLoop_commands hw (.trigger e d) stack
    refine ⟨hrb, fun c hc => (hcmds c hc).imp_right fun h => .inr (.inr ?_)⟩
    rw [h]
    exact (fields_trigger stack d he).1.symm
  | @cancel e stack =>
    obtain ⟨he, -⟩ := Option.ite_none_right_eq_some.mp hs
    obtain ⟨hrb, hcmds⟩ := notifyLoop_commands hw (.cancel e) stack
    refine ⟨hrb, fun c hc => (hcmds c hc).imp_right fun h => .inr (.inr ?_)⟩
    rw [h]
    exact (load_priv_event stack commandCancelEvent he).symm
  | @looperExit stack =>
    obtain ⟨hrb, hcmds⟩ := notifyLoop_commands hw .exit stack
    refine ⟨hrb, fun c hc => (hcmds c hc).imp_right fun h => .inr (.inl ?_)⟩
    rw [h, fields_type]
    rfl
  | time hs => exact hsame (loopTime_sameQueue hs).1.rb
  | ret hs => exact hsame (loopRet_sameQueue hs).1.rb
  | step hs =>
    obtain ⟨hrb, hcmds⟩ := loopStep_commands hw hs
    exact ⟨hrb, fun c hc => .inl (hcmds c hc)⟩

theorem run_commands {as : List Act} (hw : Whole T s.rb) (hrun : run (step T) s as = some s') :
    ∀ c ∈ commands T s'.rb, c ∈ commands T s.rb ∨ ∃ a ∈ as, a.writes c := by
  induction as generalizing s with
  | nil =>
    obtain rfl : s = s' := Option.some.inj hrun
    exact fun c hc => .inl hc
  | cons a as ih =>
    obtain ⟨u, hu, hrest⟩ := run_cons.mp hrun
    obtain ⟨hwu, hcmds⟩ := step_commands hw hu
    intro c hc
    rcases ih hwu hrest c hc with hc | ⟨b, hb, hbc⟩
    · rcases hcmds c hc with hc | ha
      · exact .inl hc
      · exact .inr ⟨a, by simp, ha⟩
    · exact .inr ⟨b, by simp [hb], hbc⟩

theorem links_between {u u' : State} {j : ℕ} {ok : Bool}
    (hs : step T u (.notify j) = some u' ∨ step T u (.post j ok) = some u') : u'.links = u.links := by
  rcases hs with hs | hs
  · obtain ⟨r, -, hs⟩ := Option.bind_eq_some_iff.mp hs
    obtain ⟨-, hs⟩ := Option.ite_none_left_eq_some.mp hs
    cases hs
    simp only [registerNotify, notifyLoop]
    split_ifs <;> rfl
  · obtain ⟨p, -, hs⟩ := Option.bind_eq_some_iff.mp hs
    cases hs
    obtain ⟨sem, failed, returned, hpost⟩ := postSem_eq u j p ok
    rw [hpost]

/-- In every run in which `os_post_sem` fails for no registration: an
`async_event_register` that finds the free list empty changes nothing. One that takes the
event `e` and fails, after any steps of others, has it back at the head of the free list,
where it is once; its own steps in between touch no list. A command about `e` that is in the
queue then does not add it, and was there before the call or was written during the call by
a trigger or cancel of others that names `e`. -/
theorem failed_register_undone (T : Target) {as : List Act} {s₀ s₁ : State} {cb dat : ℕ}
    {timeout : UInt32} {stack : Mem} (hpost : AllSteps (step T) RegisterPosts (init T) as)
    (hrun : run (step T) (init T) as = some s₀)
    (hpop : step T s₀ (.register cb timeout dat stack) = some s₁) :
    ∃ free₀, s₀.links.toList T.poolSize T.freeList = some free₀ ∧ (free₀ = [] → s₁ = s₀) ∧
      ∀ e free₁, free₀ = e :: free₁ →
        s₁.links.toList T.poolSize T.freeList = some free₁ ∧
        s₁.registering = s₀.registering ++ [⟨e, cb, timeout.toNat, dat, stack⟩] ∧
        (∀ u u' j ok, step T u (.notify j) = some u' ∨ step T u (.post j ok) = some u' →
          u'.links = u.links) ∧
        ∀ bs s₂ s₃ i, AllSteps (step T) RegisterPosts s₁ bs → run (step T) s₁ bs = some s₂ →
          s₂.failed[i]? = some e → step T s₂ (.putBack i) = some s₃ →
          ∃ free₂, s₂.links.toList T.poolSize T.freeList = some free₂ ∧
            s₃.links.toList T.poolSize T.freeList = some (e :: free₂) ∧ e ∉ free₂ ∧
            ∀ c ∈ commands T s₃.rb, c.refersTo e → c.type ≠ commandAddEvent ∧
              (c ∈ commands T s₀.rb ∧ (∃ a ∈ as, a.names e) ∨ ∃ a ∈ bs, a.names e) := by
  obtain ⟨free₀, evs₀, h₀⟩ := run_inv hpost hrun
  cases hpop
  have h₁ := h₀.registerPop cb timeout.toNat dat stack
  have hempty := Heads.listEmpty_iff h₀.free_ring
  refine ⟨free₀, h₀.toList_eq.1, ?_, ?_⟩
  · intro hnil
    simp only [registerPop, if_pos (hempty.mpr hnil)]
  rintro e free₁ rfl
  refine ⟨h₁.toList_eq.1, ?_, fun u u' j ok hs => links_between hs, ?_⟩
  · have hhead : s₀.links.next T.freeList = e := h₀.free_ring.next_head
    have hne : ¬ s₀.links.listEmpty T.freeList = true := by simp [hempty]
    simp only [registerPop, if_neg hne, hhead]
  intro bs s₂ s₃ i hpost' hrun' hi hback
  obtain ⟨free₂, evs₂, h₂⟩ := run_invariant (I := fun s => ∃ free evs, Inv T False s free evs)
    (fun _ _ _ ⟨_, _, h⟩ ha hs => h.step ha False.elim hs) ⟨_, _, h₁⟩ hpost' hrun'
  obtain ⟨e', hi', hs⟩ := Option.bind_eq_some_iff.mp hback
  obtain rfl := Option.some.inj (hi.symm.trans hi')
  cases hs
  have h₃ := h₂.putBack hi
  have hheld : e ∈ held s₂ := by simp [held, List.mem_of_getElem? hi]
  refine ⟨free₂, h₂.toList_eq.1, h₃.toList_eq.1, (h₂.mem_held hheld).2.1, fun c hc href => ?_⟩
  -- the slot is held by the call, so no `ADD_EVENT` in the queue carries it
  have hadd : c.type ≠ commandAddEvent := by
    intro htype
    have hq : e ∈ queued T s₂.rb := by
      refine List.mem_flatMap.mpr ⟨c, hc, ?_⟩
      simp [Command.adds, htype, href.2]
    exact List.disjoint_of_nodup_append h₂.nodup.1 (by simp [hheld]) hq
  have hnames : ∀ a : Act, a.writes c → a.names e := by
    rintro a (hw | hw | hw)
    · exact absurd hw hadd
    · exact absurd hw href.1
    · exact href.2 ▸ hw
  refine ⟨hadd, ?_⟩
  rcases run_commands h₁.whole hrun' c hc with hc | ⟨a, ha, haw⟩
  · rw [(registerPop_sameQueue s₀ cb timeout.toNat dat stack).1.rb] at hc
    rcases run_commands (init_whole _) hrun c hc with hnone | ⟨a, ha, haw⟩
    · simp [init] at hnone
    · exact .inl ⟨hc, a, ha, hnames a haw⟩
  · exact .inr ⟨a, ha, hnames a haw⟩

/-- Four triggers of another event fill the queue, so that the command of a registration
does not fit. -/
theorem failed_register_undone_full :
    ∃ s₀ ∈ run (step .lp64) (init .lp64) (.create true true ::
        List.replicate 4 (.trigger 4096 0 fun _ => 0)),
      ∃ s₁ ∈ step .lp64 s₀ (.register 1 5 0 fun _ => 7), ∃ s₂ ∈ run (step .lp64) s₁ [.notify 0],
        ∃ s₃ ∈ step .lp64 s₂ (.putBack 0), s₂.failed = [4456] ∧
          s₃.links.toList 10 Target.lp64.freeList = s₀.links.toList 10 Target.lp64.freeList ∧
          ∀ c ∈ commands .lp64 s₃.rb, ¬ c.refersTo 4456 := by
  have hrun : ∃ s₀ ∈ run (step .lp64) (init .lp64) (.create true true ::
        List.replicate 4 (.trigger 4096 0 fun _ => 0)),
      s₀.links.toList 10 Target.lp64.freeList = some (Target.pool .lp64).reverse ∧
      ∃ s₁ ∈ step .lp64 s₀ (.register 1 5 0 fun _ => 7), ∃ s₂ ∈ run (step .lp64) s₁ [.notify 0],
        ∃ s₃ ∈ step .lp64 s₂ (.putBack 0), s₂.failed = [4456] := by
    decide +kernel
  obtain ⟨s₀, h₀, hfree, s₁, h₁, s₂, h₂, s₃, h₃, hfailed⟩ := hrun
  obtain ⟨free₀, hf₀, -, hcall⟩ := failed_register_undone .lp64 (by decide +kernel) h₀ h₁
  obtain rfl := Option.some.inj (hf₀.symm.trans hfree)
  obtain ⟨hf₁, -, hlinks, hback⟩ := hcall _ _ rfl
  obtain ⟨u, hu, hend⟩ := run_cons.mp h₂
  obtain rfl : u = s₂ := Option.some.inj hend
  have hsteps : AllSteps (step .lp64) RegisterPosts s₁ [.notify 0] := ⟨trivial, by rw [hu]; trivial⟩
  obtain ⟨free₂, hf₂, hf₃, -, hcmds⟩ := hback [.notify 0] u s₃ 0 hsteps h₂ (by rw [hfailed]; rfl) h₃
  rw [hlinks s₁ u 0 true (.inl hu)] at hf₂
  obtain rfl := Option.some.inj (hf₁.symm.trans hf₂)
  refine ⟨s₀, h₀, s₁, h₁, u, h₂, s₃, h₃, hfailed, hf₃.trans hf₀.symm, fun c hc href => ?_⟩
  obtain ⟨-, ⟨-, a, ha, hnames⟩ | ⟨a, ha, hnames⟩⟩ := hcmds c hc href
  · simp only [List.mem_cons, List.mem_replicate] at ha
    rcases ha with rfl | ⟨-, rfl⟩
    · exact hnames
    · exact absurd (show 4096 = 4456 from hnames) (by decide)
  · rw [List.mem_singleton.mp ha] at hnames
    exact hnames

/-- `os_post_sem` fails behind a command that was written: the event is on the free list
again, and the command that adds it to the looper is still in the queue. -/
theorem failed_register_left_behind :
    ∃ s ∈ run (step .lp64) (init .lp64) [.create true true, .register 1 5 0 fun _ => 7, .notify 0,
        .post 0 false, .putBack 0],
      s.links.toList 10 Target.lp64.freeList = (init .lp64).links.toList 10 Target.lp64.freeList ∧
      (∃ free ∈ s.links.toList 10 Target.lp64.freeList, 4456 ∈ free) ∧
      ∃ c ∈ commands .lp64 s.rb, c.refersTo 4456 ∧ c.type = commandAddEvent := by
  decide +kernel

end EmbeddedTemplate.Async
