import EmbeddedTemplate.Async.Looper

/-! Every run of the event system: where the slots of `events_pool` are, and how
`next_timestamp` compares with the deadlines of the registered events. -/
namespace EmbeddedTemplate.Async

open Transition

variable {T : Target} {s s' : State} {free evs : List ℕ} {full : Prop}

def Call.isRegister : Call → Bool
  | .register _ => true
  | _ => false

/-- `os_post_sem` does not fail for an `async_event_register`. It may fail for the calls
that have nothing to undo. -/
def RegisterPosts (s : State) : Act → Prop
  | .post i ok => ok = true ∨ ∀ p ∈ s.posting[i]?, p.call.isRegister = false
  | _ => True

instance RegisterPosts.decidable (s : State) : ∀ a, Decidable (RegisterPosts s a)
  | .post i ok =>
    inferInstanceAs (Decidable (ok = true ∨ ∀ p ∈ s.posting[i]?, p.call.isRegister = false))
  | .create _ _ | .loop | .register _ _ _ _ | .notify _ | .putBack _ | .trigger _ _ _
  | .cancel _ _ | .looperExit _ | .setCallback _ _ | .setTimeout _ _ | .setData _ _ | .time _
  | .pend _ | .step | .ret _ => isTrue trivial

namespace Inv

theorem same (h : Inv T full s free evs) (hl : s'.links = s.links) (hrb : s'.rb = s.rb)
    (hpc : s'.pc = s.pc) (hr : s'.registering = s.registering) (hf : s'.failed = s.failed)
    (hn : ∀ e, s'.nts e = s.nts e) : Inv T full s' free evs := by
  refine h.client hpc (hrb ▸ h.whole) (hl ▸ h.free_ring) (hl ▸ h.events_ring)
    (fun e _ => hn e) fun x => ?_
  simp only [uses, held, hrb, hpc, hr, hf]

theorem post (h : Inv T full s free evs) {i : ℕ} {p : Posting} {ok : Bool}
    (hp : ok = true ∨ p.call.isRegister = false) : Inv T full (postSem s i p ok) free evs := by
  unfold postSem
  cases ok with
  | true => exact h.same rfl rfl rfl rfl rfl fun _ => rfl
  | false =>
    have hcall : p.call.isRegister = false := by simpa using hp
    cases hc : p.call with
    | register e =>
      rw [hc] at hcall
      cases hcall
    | trigger | cancel | exit => exact h.same rfl rfl rfl rfl rfl fun _ => rfl

theorem step (h : Inv T full s free evs) {a : Act} (ha : RegisterPosts s a)
    (hroom : full → a = .step → ∀ next, s.pc = .dequeue next → s.rb.len + T.cmdSize ≤ s.rb.cap)
    (hs : step T s a = some s') : ∃ free' evs', Inv T full s' free' evs' := by
  have hok := h.pc
  cases step_cases hs with
  | refused => exact ⟨_, _, h⟩
  | create => exact ⟨_, _, h.same rfl rfl rfl rfl rfl fun _ => rfl⟩
  | loop hpc =>
    simp only [hpc, Pc.Ok] at hok
    refine ⟨_, _, h.goto (by rw [hpc]; rfl) fun e he => ?_⟩
    rw [hok] at he
    cases he
  | register => exact ⟨_, _, h.registerPop _ _ _ _⟩
  | notify hi => exact ⟨_, _, h.registerNotify hi⟩
  | putBack hi => exact ⟨_, _, h.putBack hi⟩
  | trigger => exact ⟨_, _, h.notifyLoop _ (by decide : commandTriggerCall ≠ commandAddEvent)⟩
  | cancel => exact ⟨_, _, h.notifyLoop _ (by decide : commandCancelEvent ≠ commandAddEvent)⟩
  | looperExit => exact ⟨_, _, h.notifyLoop _ (by decide : commandExit ≠ commandAddEvent)⟩
  | post hi => exact ⟨_, _, h.post (ha.imp_right fun hp => hp _ hi)⟩
  | setCallback | setTimeout | setData =>
    exact ⟨_, _, h.same rfl rfl rfl rfl rfl (nts_setEvent s _ fun _ => rfl)⟩
  | time hs => exact h.loopTime hs
  | woken hpc hsem =>
    simp only [hpc, Pc.Ok] at hok
    exact ⟨_, _, h.stay rfl rfl rfl rfl (by rw [hpc]; rfl) hok.1⟩
  | slept hpc =>
    simp only [hpc, Pc.Ok] at hok
    exact ⟨_, _, h.goto (by rw [hpc]; rfl) hok.1⟩
  | step hs => exact h.loopStep (fun hfull => hroom hfull rfl) hs
  | ret hs => exact h.loopRet hs

end Inv

theorem initPool_rings {l : Heads} (ps : List ℕ) (hf : l.Ring T.freeList free)
    (he : l.Ring T.events []) (hnd : (T.freeList :: T.events :: (ps ++ free)).Nodup) :
    (ps.foldl (fun l e => (l.initListHead e).listAdd e T.freeList) l).Ring T.freeList
      (ps.reverse ++ free) ∧
    (ps.foldl (fun l e => (l.initListHead e).listAdd e T.freeList) l).Ring T.events [] := by
  induction ps generalizing l free with
  | nil => exact ⟨hf, he⟩
  | cons p ps ih =>
    have hpf : p ∉ T.freeList :: free := by grind
    have hpe : p ∉ [T.events] := by grind
    have hf' : (l.initListHead p).Ring T.freeList free := hf.link_of_not_mem hpf hpf
    have he' : (l.initListHead p).Ring T.events [] := he.link_of_not_mem hpe hpe
    have hdis : [T.events].Disjoint (p :: T.freeList :: free) := by grind [List.Disjoint]
    rw [List.foldl_cons, List.reverse_cons, List.append_assoc]
    apply ih (Heads.listAdd_ring hf' hpf) (Heads.listAdd_frame hf' he' hdis)
    grind

theorem init_inv (T : Target) : Inv T full (init T) T.pool.reverse [] := by
  have hne := heads_ne (T := T)
  have hnd := T.placed
  have hf : ∀ l : Heads, ((l.initListHead T.freeList).initListHead T.events).Ring T.freeList [] :=
    fun l => (Links.Ring.init l T.freeList).link_of_not_mem (by simpa using hne.symm)
      (by simpa using hne.symm)
  have hpool : (T.freeList :: T.events :: (T.pool ++ [])).Nodup := by
    rw [List.append_nil]
    exact hnd
  have hrings := initPool_rings T.pool (hf ⟨fun _ => 0, fun _ => 0⟩)
    (Links.Ring.init _ T.events) hpool
  rw [List.append_nil] at hrings
  have huses : ∀ x, uses T (init T) T.pool.reverse [] x = T.pool.count x := by
    intro x
    simp [uses, held, init, Pc.held, queued]
  exact {
    whole := init_whole _
    free_ring := hrings.1
    events_ring := hrings.2
    once := fun x => by
      rw [huses x]
      exact List.nodup_iff_count_le_one.mp (List.nodup_cons.mp (List.nodup_cons.mp hnd).2).2 x
    slot := fun x hx => by
      rw [huses x] at hx
      exact List.count_pos_iff.mp hx
    kept := fun _ x hx => by
      rw [huses x]
      exact List.count_pos_iff.mpr hx
    pc := rfl }

theorem run_inv {as : List Act} (hpost : AllSteps (step T) RegisterPosts (init T) as)
    (hrun : run (step T) (init T) as = some s) : ∃ free evs, Inv T False s free evs :=
  run_invariant (I := fun s => ∃ free evs, Inv T False s free evs)
    (fun _ _ _ ⟨_, _, h⟩ ha hs => h.step ha False.elim hs) ⟨_, _, init_inv T⟩ hpost hrun

theorem Inv.toList_eq (h : Inv T full s free evs) :
    s.links.toList T.poolSize T.freeList = some free ∧
      s.links.toList T.poolSize T.events = some evs := by
  obtain ⟨hnd, hpool⟩ := h.nodup
  have hlen : (free ++ evs ++ held s ++ queued T s.rb).length ≤ T.pool.length :=
    (List.subperm_of_subset hnd hpool).length_le
  simp only [List.length_append, Target.pool, List.length_map, List.length_range] at hlen
  constructor
  · exact h.free_ring.toList_eq (by omega)
  · exact h.events_ring.toList_eq (by omega)

/-- In every reachable state, over all schedules of registrations, triggers, cancels,
exits, re-creations and looper steps, an element of `events_pool` is in at most one of the
free list, the list of the looper, the hands of a running call and the queue, and it is
there once. Both lists are intact rings. -/
theorem slots_owned_once (T : Target) {as : List Act} {s : State}
    (hpost : AllSteps (step T) RegisterPosts (init T) as)
    (hrun : run (step T) (init T) as = some s) :
    ∃ free evs, s.links.toList T.poolSize T.freeList = some free ∧
      s.links.toList T.poolSize T.events = some evs ∧
      s.links.Ring T.freeList free ∧ s.links.Ring T.events evs ∧
      (free ++ evs ++ held s ++ queued T s.rb).Nodup ∧
      ∀ e ∈ free ++ evs ++ held s ++ queued T s.rb, e ∈ T.pool := by
  obtain ⟨free, evs, h⟩ := run_inv hpost hrun
  exact ⟨free, evs, h.toList_eq.1, h.toList_eq.2, h.free_ring, h.events_ring, h.nodup⟩

/-- A registration, its execution by the looper, a second registration that is still in
the queue, a trigger whose callback gives the event up, and a stale cancel. -/
theorem slots_owned_once_stale_cancel :
    ∃ s ∈ run (step .lp64) (init .lp64)
        [.create true true, .loop, .register 1 5 0 fun _ => 7, .notify 0, .post 0 true, .time 0,
          .pend true, .step, .step, .time 0, .register 1 0 0 fun _ => 7,
          .trigger 4456 3 fun _ => 0, .post 0 true, .notify 0, .time 1, .pend true, .step, .step,
          .ret 0, .cancel 4456 fun _ => 0],
      ∃ free evs, s.links.toList 10 Target.lp64.freeList = some free ∧
        s.links.toList 10 Target.lp64.events = some evs ∧
        (free ++ evs ++ held s ++ queued .lp64 s.rb).Nodup := by
  have hrun : (run (step .lp64) (init .lp64)
      [.create true true, .loop, .register 1 5 0 fun _ => 7, .notify 0, .post 0 true, .time 0,
        .pend true, .step, .step, .time 0, .register 1 0 0 fun _ => 7,
        .trigger 4456 3 fun _ => 0, .post 0 true, .notify 0, .time 1, .pend true, .step, .step,
        .ret 0, .cancel 4456 fun _ => 0]).isSome = true := by decide +kernel
  obtain ⟨s, hs⟩ := Option.isSome_iff_exists.mp hrun
  obtain ⟨free, evs, hfree, hevs, -, -, hnd, -⟩ := slots_owned_once .lp64 (by decide +kernel) hs
  exact ⟨s, hs, free, evs, hfree, hevs, hnd⟩

/-- In every reachable state at the head of the loop `next_timestamp` is at most the
deadline of every registered event, and the looper never sleeps past one of them. -/
theorem never_sleeps_past_deadline (T : Target) {as : List Act} {s : State}
    (hpost : AllSteps (step T) RegisterPosts (init T) as)
    (hrun : run (step T) (init T) as = some s) :
    ∃ evs, s.links.toList T.poolSize T.events = some evs ∧
      (∀ next, s.pc = .top next → ∀ e ∈ evs, next ≤ (s.ev e).nextTimestamp) ∧
      ∀ next now diff, s.pc = .pend next now diff →
        diff = 1 ∨ ∀ e ∈ evs, now < (s.ev e).nextTimestamp ∧
          diff ≤ (s.ev e).nextTimestamp - now := by
  obtain ⟨free, evs, h⟩ := run_inv hpost hrun
  have hok := h.pc
  refine ⟨evs, h.toList_eq.2, ?_, ?_⟩
  · intro next hpc
    simp only [hpc, Pc.Ok] at hok
    exact hok
  · intro next now diff hpc
    simp only [hpc, Pc.Ok] at hok
    obtain ⟨hnext, hdiff⟩ := hok
    apply hdiff.imp_right
    rintro ⟨hlt, rfl⟩ e he
    have hle : next ≤ (s.ev e).nextTimestamp := hnext e he
    omega

/-- The looper is about to sleep until the deadline of the event it has just added. -/
theorem never_sleeps_past_deadline_added :
    ∃ s ∈ run (step .lp64) (init .lp64)
        [.create true true, .loop, .register 1 5 0 fun _ => 7, .notify 0, .post 0 true, .time 0,
          .pend true, .step, .step, .time 10, .setTimeout 4456 2, .time 11],
      ∃ evs, s.links.toList 10 Target.lp64.events = some evs ∧
        ∀ next now diff, s.pc = .pend next now diff →
          diff = 1 ∨ ∀ e ∈ evs, now < (s.ev e).nextTimestamp ∧
            diff ≤ (s.ev e).nextTimestamp - now := by
  have hrun : (run (step .lp64) (init .lp64)
      [.create true true, .loop, .register 1 5 0 fun _ => 7, .notify 0, .post 0 true, .time 0,
        .pend true, .step, .step, .time 10, .setTimeout 4456 2, .time 11]).isSome = true := by
    decide +kernel
  obtain ⟨s, hs⟩ := Option.isSome_iff_exists.mp hrun
  obtain ⟨evs, hevs, -, hpend⟩ := never_sleeps_past_deadline .lp64 (by decide +kernel) hs
  exact ⟨s, hs, evs, hevs, hpend⟩

/-- `os_post_sem` fails for a registration whose command the looper has executed: the list of the looper
runs on into the free list behind the event that is put back, to a slot whose deadline has long passed. -/
theorem sleeps_past_deadline_put_back :
    ∃ s ∈ run (step .lp64) (init .lp64)
        [.create true true, .loop, .register 1 5 0 fun _ => 7, .notify 0, .cancel 0 fun _ => 0, .post 1 true,
          .time 0, .pend true, .step, .step, .time 10, .post 0 false, .putBack 0],
      s.pc = .top 15 ∧ s.links.next Target.lp64.events = 4456 ∧ s.links.next 4456 = 4416 ∧
        (s.ev 4416).nextTimestamp = 0 ∧ s.links.toList 10 Target.lp64.events = none := by
  decide +kernel

end EmbeddedTemplate.Async
