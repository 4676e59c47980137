import EmbeddedTemplate.Async.Ownership

/-! Deadlines against real time. Every action carries the real time in milliseconds at
which it happens, and `os_get_time` returns the low 32 bits of it. -/
namespace EmbeddedTemplate.Async

open Transition

/-- A store to `next_timestamp`. -/
structure Arming where
  /-- real time of the clock reading that `timeout` is added to -/
  base : ℕ
  /-- real time of the store -/
  time : ℕ
  timeout : ℕ

/-- An invocation with `ASYNC_EVENT_ADDITION_DATA_TIMEOUT` of an event that is armed. -/
structure Firing where
  time : ℕ
  event : ℕ
  arming : Arming

structure Timed where
  state : State
  /-- real time of the last action -/
  clock : ℕ
  /-- real time of the clock reading of the last `async_event_exec_timeout` -/
  passStart : ℕ
  arming : ℕ → Option Arming
  fired : List Firing

/-- What an action arms: the end of a trigger, the end of an `ADD_EVENT`, and the return of
a callback to `async_event_exec_timeout`, which uses the clock reading of its entry. -/
def Timed.arms (x : Timed) (t : ℕ) : Act → Option (ℕ × Arming)
  | .time _ =>
    match x.state.pc with
    | .rearm _ event | .addLink _ event => some (event, ⟨t, t, (x.state.ev event).timeout⟩)
    | _ => none
  | .ret rc =>
    match x.state.pc with
    | .timeoutCb w _ _ =>
      if rc = 0 then none else some (w.pos, ⟨x.passStart, t, (x.state.ev w.pos).timeout⟩)
    | _ => none
  | _ => none

def Timed.passAt (x : Timed) (t : ℕ) : Act → ℕ
  | .time _ =>
    match x.state.pc with
    | .enterTimeout => t
    | _ => x.passStart
  | _ => x.passStart

def setArming (arming : ℕ → Option Arming) : Option (ℕ × Arming) → ℕ → Option Arming
  | some (event, A) => Function.update arming event (some A)
  | none => arming

/-- An `ADD_EVENT` that reaches the looper starts a new life of its event. -/
def disarm (pc : Pc) (arming : ℕ → Option Arming) : ℕ → Option Arming :=
  match pc with
  | .add _ event => Function.update arming event none
  | _ => arming

def firings (arming : ℕ → Option Arming) (t : ℕ) (invoked : List Invocation) : List Firing :=
  invoked.filterMap fun i =>
    if i.additionData = additionDataTimeout then (arming i.event).map fun A => ⟨t, i.event, A⟩
    else none

/-- The history after an action that leads to `s'`. -/
def Timed.next (x : Timed) (t : ℕ) (a : Act) (s' : State) : Timed where
  state := s'
  clock := t
  passStart := x.passAt t a
  arming := disarm s'.pc (setArming x.arming (x.arms t a))
  fired := x.fired ++ firings x.arming t (s'.invoked.drop x.state.invoked.length)

/-- `os_get_time` returns the real time modulo 2^32. -/
def Act.reads (t : ℕ) : Act → Bool
  | .time u => u.toNat == t % 2 ^ 32
  | _ => true

variable (T : Target)

def tick (x : Timed) (ta : ℕ × Act) : Option Timed :=
  if x.clock ≤ ta.1 ∧ ta.2.reads ta.1 then (step T x.state ta.2).map (x.next ta.1 ta.2) else none

def Timed.init : Timed := ⟨Async.init T, 0, 0, fun _ => none, []⟩

def Pc.triggerData : Pc → Option ℕ
  | .trigger _ _ additionData _ => some additionData
  | _ => none

/-- What an event is armed with is not `OS_TIME_FOREVER` and added to the clock without
overflow; no trigger hands `ASYNC_EVENT_ADDITION_DATA_TIMEOUT` to its callback. -/
def Timely (x : Timed) (ta : ℕ × Act) : Prop :=
  (∀ p ∈ x.arms ta.1 ta.2, p.2.timeout ≠ timeForever ∧ p.2.base % 2 ^ 32 + p.2.timeout < 2 ^ 32) ∧
    ∀ d ∈ x.state.pc.triggerData, d ≠ additionDataTimeout

/-- A callback of `async_event_exec_timeout` returns in the millisecond in which that read
the clock. -/
def Prompt (x : Timed) (ta : ℕ × Act) : Prop := ∀ p ∈ x.arms ta.1 ta.2, p.2.base = p.2.time

instance (x : Timed) (ta : ℕ × Act) : Decidable (Timely x ta) :=
  inferInstanceAs (Decidable (_ ∧ _))

instance (x : Timed) (ta : ℕ × Act) : Decidable (Prompt x ta) :=
  inferInstanceAs (Decidable (∀ _ ∈ x.arms ta.1 ta.2, _))

variable {T}

def Pc.pass : Pc → Option ℕ
  | .timeout _ now _ | .timeoutCb _ now _ => some now
  | _ => none

def Arming.Safe (A : Arming) : Prop :=
  A.timeout ≠ timeForever ∧ A.base % 2 ^ 32 + A.timeout < 2 ^ 32

def Firing.OnTime (f : Firing) : Prop :=
  f.arming.timeout ≠ timeForever ∧ f.arming.base + f.arming.timeout ≤ f.time

/-- Deadlines are what the armings say, and a pass looks only at armings from before it. -/
structure TimedInv (x : Timed) : Prop where
  safe : ∀ e A, x.arming e = some A → A.Safe ∧ A.base ≤ x.clock
  due : ∀ e A, x.arming e = some A →
    (x.state.ev e).nextTimestamp = A.base % 2 ^ 32 + A.timeout
  passStart : x.passStart ≤ x.clock
  pass : ∀ now ∈ x.state.pc.pass, now = x.passStart % 2 ^ 32 ∧
    ∀ e A, x.arming e = some A → A.base ≤ x.passStart
  added : ∀ next e, x.state.pc = .add next e → x.arming e = none
  fired : ∀ f ∈ x.fired, f.OnTime

theorem disarm_eq_some {pc : Pc} {arming : ℕ → Option Arming} {e : ℕ} {A : Arming}
    (h : disarm pc arming e = some A) : arming e = some A := by
  unfold disarm at h
  split at h
  · by_cases he : e = ‹ℕ›
    · simp [he] at h
    · rwa [Function.update_of_ne he] at h
  · exact h

theorem disarm_add (next e : ℕ) (arming : ℕ → Option Arming) : disarm (.add next e) arming e = none :=
  Function.update_self ..

/-- A clock reading at or behind a deadline that has not overflowed. -/
theorem Arming.Safe.le {A : Arming} {t : ℕ} (h : A.Safe) (hle : A.base ≤ t)
    (hdue : A.base % 2 ^ 32 + A.timeout ≤ t % 2 ^ 32) : A.base + A.timeout ≤ t := by
  have hlt := h.2
  omega

variable {x : Timed} {t : ℕ} {a : Act} {s' : State}

theorem firings_of_invoked_eq (h : s'.invoked = x.state.invoked) :
    firings x.arming t (s'.invoked.drop x.state.invoked.length) = [] := by
  simp [h, firings]

theorem mem_firings_of_invoke {event additionData : ℕ} {cause : Option Call} {pc : Pc} {f : Firing}
    (hf : f ∈ firings x.arming t
      ((invoke x.state event additionData cause pc).invoked.drop x.state.invoked.length)) :
    additionData = additionDataTimeout ∧ f.time = t ∧ x.arming event = some f.arming := by
  simp only [invoke, List.drop_left, firings, List.mem_filterMap, List.mem_singleton] at hf
  obtain ⟨i, rfl, hi⟩ := hf
  obtain ⟨hdata, hi⟩ := Option.ite_none_right_eq_some.mp hi
  obtain ⟨A, hA, rfl⟩ := Option.map_eq_some_iff.mp hi
  exact ⟨hdata, rfl, hA⟩

theorem notifyLoop_frame (T : Target) (s : State) (call : Call) (stack : ByteMem.Mem) :
    (notifyLoop T s call stack).1.ev = s.ev ∧ (notifyLoop T s call stack).1.pc = s.pc ∧
      (notifyLoop T s call stack).1.invoked = s.invoked := by
  simp only [notifyLoop]
  split_ifs <;> exact ⟨rfl, rfl, rfl⟩

theorem registerNotify_frame (T : Target) (s : State) (i : ℕ) (r : Registering) :
    (registerNotify T s i r).ev = (registerFill s i r).ev ∧ (registerNotify T s i r).pc = s.pc ∧
      (registerNotify T s i r).invoked = s.invoked := by
  have hframe := notifyLoop_frame T (registerFill s i r) (.register r.ret) r.stack
  simp only [registerNotify]
  split_ifs <;> exact hframe

namespace TimedInv

theorem keep (h : TimedInv x) (ht : x.clock ≤ t) (harms : x.arms t a = none)
    (hstart : x.passAt t a = x.passStart)
    (hnext : ∀ e, (s'.ev e).nextTimestamp = (x.state.ev e).nextTimestamp)
    (hpass : s'.pc.pass = x.state.pc.pass ∨ s'.pc.pass = none)
    (hfire : ∀ f ∈ firings x.arming t (s'.invoked.drop x.state.invoked.length), f.OnTime) :
    TimedInv (x.next t a s') := by
  have harm : ∀ e A, (x.next t a s').arming e = some A → x.arming e = some A := by
    intro e A hA
    have := disarm_eq_some hA
    rwa [harms] at this
  refine ⟨fun e A hA => ?_, fun e A hA => ?_, ?_, fun now hnow => ?_, fun next e hpc => ?_,
    fun f hf => ?_⟩
  · obtain ⟨hsafe, hle⟩ := h.safe e A (harm e A hA)
    exact ⟨hsafe, hle.trans ht⟩
  · exact (hnext e).trans (h.due e A (harm e A hA))
  · exact (hstart ▸ h.passStart).trans ht
  · rcases hpass with hpass | hpass
    · obtain ⟨hn, hb⟩ := h.pass now (hpass ▸ hnow)
      exact ⟨hn.trans (by rw [← hstart]; rfl), fun e A hA => (hb e A (harm e A hA)).trans_eq hstart.symm⟩
    · have : s'.pc.pass = some now := hnow
      rw [hpass] at this
      cases this
  · have hpc : s'.pc = .add next e := hpc
    simp only [Timed.next, hpc]
    exact disarm_add next e _
  · rcases List.mem_append.mp hf with hf | hf
    · exact h.fired f hf
    · exact hfire f hf

theorem still (h : TimedInv x) (ht : x.clock ≤ t) (harms : x.arms t a = none)
    (hstart : x.passAt t a = x.passStart)
    (hnext : ∀ e, (s'.ev e).nextTimestamp = (x.state.ev e).nextTimestamp)
    (hpass : s'.pc.pass = x.state.pc.pass ∨ s'.pc.pass = none)
    (hinvoked : s'.invoked = x.state.invoked) : TimedInv (x.next t a s') := by
  refine h.keep ht harms hstart hnext hpass fun f hf => ?_
  rw [firings_of_invoked_eq hinvoked] at hf
  cases hf

/-- An action that arms an event, from a clock reading not before the pass under way. -/
theorem arm (h : TimedInv x) (ht : x.clock ≤ t) {event : ℕ} {A : Arming}
    (harms : x.arms t a = some (event, A)) (hsafe : A.Safe) (hbase : A.base ≤ t)
    (hstart : x.passAt t a = x.passStart)
    (hev : s'.ev = (setEvent x.state event fun e =>
      { e with nextTimestamp := A.base % 2 ^ 32 + A.timeout }).ev)
    (hpass : s'.pc.pass = none ∨ s'.pc.pass = x.state.pc.pass ∧ A.base = x.passStart)
    (hinvoked : s'.invoked = x.state.invoked) (hadd : ∀ next e, s'.pc ≠ .add next e) :
    TimedInv (x.next t a s') := by
  have harm : ∀ e B, (x.next t a s').arming e = some B →
      (e = event ∧ B = A) ∨ (e ≠ event ∧ x.arming e = some B) := by
    intro e B hB
    have hset := disarm_eq_some hB
    rw [harms] at hset
    by_cases he : e = event
    · subst he
      rw [setArming, Function.update_self] at hset
      exact Or.inl ⟨rfl, (Option.some.inj hset).symm⟩
    · rw [setArming, Function.update_of_ne he] at hset
      exact Or.inr ⟨he, hset⟩
  have hxs : (x.next t a s').passStart = x.passStart := hstart
  have hfired : (x.next t a s').fired = x.fired := by
    simp only [Timed.next, firings_of_invoked_eq hinvoked, List.append_nil]
  refine ⟨fun e B hB => ?_, fun e B hB => ?_, ?_, fun now hnow => ?_, fun next e hpc => ?_,
    fun f hf => ?_⟩
  · rcases harm e B hB with ⟨-, rfl⟩ | ⟨-, hB⟩
    · exact ⟨hsafe, hbase⟩
    · obtain ⟨hs, hle⟩ := h.safe e B hB
      exact ⟨hs, hle.trans ht⟩
  · show (s'.ev e).nextTimestamp = _
    rw [hev]
    rcases harm e B hB with ⟨rfl, rfl⟩ | ⟨hne, hB⟩
    · simp [setEvent]
    · simpa [setEvent, hne] using h.due e B hB
  · rw [hxs]
    exact h.passStart.trans ht
  · have hnow : s'.pc.pass = some now := hnow
    rcases hpass with hpass | ⟨hpass, hA⟩
    · rw [hpass] at hnow
      cases hnow
    · obtain ⟨hn, hb⟩ := h.pass now (hpass ▸ hnow)
      rw [hxs]
      refine ⟨hn, fun e B hB => ?_⟩
      rcases harm e B hB with ⟨-, rfl⟩ | ⟨-, hB⟩
      · exact hA.le
      · exact hb e B hB
  · exact absurd hpc (hadd next e)
  · exact h.fired f (hfired ▸ hf)

theorem loopTime {u : UInt32} (h : TimedInv x) (ht : x.clock ≤ t) (hu : u.toNat = t % 2 ^ 32)
    (hsafe : ∀ p ∈ x.arms t (.time u), p.2.Safe) (hs : loopTime T x.state u.toNat = some s') :
    TimedInv (x.next t (.time u) s') := by
  -- both armings that read the clock use this reading
  have hdeadline : ∀ e A, x.arms t (.time u) = some (e, A) → A.base = t →
      deadline u.toNat A.timeout = A.base % 2 ^ 32 + A.timeout := by
    intro e A hA hbase
    have := (hsafe (e, A) hA).2
    rw [deadline, hu, ← hbase, Nat.mod_eq_of_lt this]
  cases hpc : x.state.pc with
  | top next =>
    simp only [Async.loopTime, hpc] at hs
    have harms : x.arms t (.time u) = none := by simp [Timed.arms, hpc]
    have hstart : x.passAt t (.time u) = x.passStart := by simp [Timed.passAt, hpc]
    split_ifs at hs <;> cases hs
    all_goals exact h.still ht harms hstart (fun _ => rfl) (Or.inr rfl) rfl
  | enterTimeout =>
    simp only [Async.loopTime, hpc] at hs
    cases hs
    have harms : x.arms t (.time u) = none := by simp [Timed.arms, hpc]
    have hstart : x.passAt t (.time u) = t := by simp [Timed.passAt, hpc]
    refine ⟨?_, ?_, ?_, ?_, ?_, ?_⟩
    all_goals simp only [Timed.next, harms, hstart, setArming, disarm]
    · exact fun e A hA => ⟨(h.safe e A hA).1, (h.safe e A hA).2.trans ht⟩
    · exact h.due
    · exact le_rfl
    · intro now hnow
      have hnow : u.toNat = now := Option.some.inj hnow
      exact ⟨hnow ▸ hu, fun e A hA => (h.safe e A hA).2.trans ht⟩
    · exact fun next e hadd => by cases hadd
    · rw [firings_of_invoked_eq rfl, List.append_nil]
      exact h.fired
  | leaveTimeout next =>
    simp only [Async.loopTime, hpc] at hs
    cases hs
    exact h.still ht (by simp [Timed.arms, hpc]) (by simp [Timed.passAt, hpc]) (fun _ => rfl)
      (Or.inr rfl) rfl
  | rearm next event | addLink next event =>
    simp only [Async.loopTime, hpc] at hs
    cases hs
    have harms : x.arms t (.time u) = some (event, ⟨t, t, (x.state.ev event).timeout⟩) := by
      simp [Timed.arms, hpc]
    refine h.arm ht harms (hsafe _ harms) le_rfl (by simp [Timed.passAt, hpc]) ?_ (Or.inl rfl) rfl
      fun _ _ hadd => by cases hadd
    simp only [hdeadline _ _ harms rfl]
  | _ =>
    simp only [Async.loopTime, hpc] at hs
    cases hs

theorem loopRet {rc : UInt8} (h : TimedInv x) (ht : x.clock ≤ t)
    (hsafe : ∀ p ∈ x.arms t (.ret rc), p.2.Safe) (hs : loopRet T x.state rc = some s') :
    TimedInv (x.next t (.ret rc) s') := by
  cases hpc : x.state.pc with
  | timeoutCb w now mostRecent =>
    have hpass : x.state.pc.pass = some now := by rw [hpc]; rfl
    simp only [Async.loopRet, hpc] at hs
    split_ifs at hs with hrc
    · cases hs
      exact h.still ht (by simp [Timed.arms, hpc, hrc]) rfl (fun _ => rfl) (Or.inl hpass.symm) rfl
    · cases hs
      have harms : x.arms t (.ret rc) =
          some (w.pos, ⟨x.passStart, t, (x.state.ev w.pos).timeout⟩) := by
        simp [Timed.arms, hpc, hrc]
      have hA := hsafe _ harms
      refine h.arm ht harms hA (h.passStart.trans ht) rfl ?_ (Or.inr ⟨hpass.symm, rfl⟩) rfl
        fun _ _ hadd => by cases hadd
      simp only [deadline, (h.pass now hpass).1, Nat.mod_eq_of_lt hA.2]
  | triggerCb next event | addCb next event =>
    simp only [Async.loopRet, hpc] at hs
    split_ifs at hs <;> cases hs
    all_goals exact h.still ht (by simp [Timed.arms, hpc]) rfl (fun _ => rfl) (Or.inr rfl) rfl
  | _ =>
    simp only [Async.loopRet, hpc] at hs
    cases hs

theorem dispatch_pass (l : Heads) (next : ℕ) (cmd : Command) : (dispatch T l next cmd).pass = none := by
  unfold dispatch
  split_ifs <;> rfl

theorem loopStep (h : TimedInv x) (ht : x.clock ≤ t)
    (hdata : ∀ d ∈ x.state.pc.triggerData, d ≠ additionDataTimeout)
    (hs : loopStep T x.state = some s') : TimedInv (x.next t .step s') := by
  cases hpc : x.state.pc with
  | timeout w now mostRecent =>
    have hpass : x.state.pc.pass = some now := by rw [hpc]; rfl
    simp only [Async.loopStep, hpc] at hs
    split_ifs at hs with hend hlater
    · cases hs
      exact h.still ht rfl rfl (fun _ => rfl) (Or.inr rfl) rfl
    · cases hs
      exact h.still ht rfl rfl (fun _ => rfl) (Or.inl hpass.symm) rfl
    · cases hs
      refine h.keep ht rfl rfl (fun _ => rfl) (Or.inl hpass.symm) fun f hf => ?_
      obtain ⟨-, htime, hA⟩ := mem_firings_of_invoke hf
      obtain ⟨hnow, hbefore⟩ := h.pass now hpass
      obtain ⟨hsafe, -⟩ := h.safe _ _ hA
      have hdue := h.due _ _ hA
      have hle := hsafe.le (hbefore _ _ hA) (by omega)
      have := h.passStart
      exact ⟨hsafe.1, by omega⟩
  | trigger next event additionData w =>
    simp only [Async.loopStep, hpc] at hs
    split_ifs at hs
    · cases hs
      exact h.still ht rfl rfl (fun _ => rfl) (Or.inr rfl) rfl
    · cases hs
      refine h.keep ht rfl rfl (fun _ => rfl) (Or.inr rfl) fun f hf => ?_
      have hne := hdata additionData (by rw [hpc]; rfl)
      exact absurd (mem_firings_of_invoke hf).1 hne
    · cases hs
      exact h.still ht rfl rfl (fun _ => rfl) (Or.inr rfl) rfl
  | add next event =>
    simp only [Async.loopStep, hpc] at hs
    split_ifs at hs
    · cases hs
      refine h.keep ht rfl rfl (fun _ => rfl) (Or.inr rfl) fun f hf => ?_
      have hA := (mem_firings_of_invoke hf).2.2
      rw [h.added next event hpc] at hA
      cases hA
    · cases hs
      exact h.still ht rfl rfl (fun _ => rfl) (Or.inr rfl) rfl
  | dequeue next =>
    simp only [Async.loopStep, hpc, dequeue] at hs
    split_ifs at hs <;> cases hs
    · exact h.still ht rfl rfl (fun _ => rfl) (Or.inr rfl) rfl
    · exact h.still ht rfl rfl (fun _ => rfl) (Or.inr (dispatch_pass ..)) rfl
  | clearSem | exit | destroy =>
    simp only [Async.loopStep, hpc] at hs
    cases hs
    exact h.still ht rfl rfl (fun _ => rfl) (Or.inr rfl) rfl
  | cancel next event w =>
    simp only [Async.loopStep, hpc] at hs
    split_ifs at hs <;> cases hs
    all_goals exact h.still ht rfl rfl (fun _ => rfl) (Or.inr rfl) rfl
  | _ =>
    simp only [Async.loopStep, hpc] at hs
    cases hs

theorem other (h : TimedInv x) (ht : x.clock ≤ t) (harms : x.arms t a = none)
    (hstart : x.passAt t a = x.passStart)
    (hnext : ∀ e, (s'.ev e).nextTimestamp = (x.state.ev e).nextTimestamp)
    (hpc : s'.pc = x.state.pc) (hinvoked : s'.invoked = x.state.invoked) :
    TimedInv (x.next t a s') :=
  h.still ht harms hstart hnext (Or.inl (by rw [hpc])) hinvoked

theorem sent (h : TimedInv x) (ht : x.clock ≤ t) (harms : x.arms t a = none)
    (hstart : x.passAt t a = x.passStart) (call : Call) (stack : ByteMem.Mem) :
    TimedInv (x.next t a (notifyLoop T x.state call stack).1) := by
  obtain ⟨hev, hpc, hinvoked⟩ := notifyLoop_frame T x.state call stack
  exact h.other ht harms hstart (fun e => by rw [hev]) hpc hinvoked

theorem step (h : TimedInv x) (ht : x.clock ≤ t) (hread : a.reads t = true)
    (htimely : Timely x (t, a)) (hs : step T x.state a = some s') : TimedInv (x.next t a s') := by
  cases step_cases hs with
  | refused => exact h.other ht rfl rfl (fun _ => rfl) rfl rfl
  | create => exact h.other ht rfl rfl (fun _ => rfl) rfl rfl
  | loop => exact h.still ht rfl rfl (fun _ => rfl) (Or.inr rfl) rfl
  | @register cb timeout dat stack =>
    obtain ⟨links, registering, hs⟩ := registerPop_eq (T := T) x.state cb timeout.toNat dat stack
    rw [hs]
    exact h.other ht rfl rfl (fun _ => rfl) rfl rfl
  | @notify i r =>
    obtain ⟨hev, hpc, hinvoked⟩ := registerNotify_frame T x.state i r
    refine h.other ht rfl rfl (fun e => ?_) hpc hinvoked
    rw [hev]
    exact nts_registerFill x.state i r e
  | putBack => exact h.other ht rfl rfl (fun _ => rfl) rfl rfl
  | trigger => exact h.sent ht rfl rfl _ _
  | cancel => exact h.sent ht rfl rfl _ _
  | looperExit => exact h.sent ht rfl rfl _ _
  | @post i p ok =>
    obtain ⟨sem, failed, returned, hs⟩ := postSem_eq x.state i p ok
    rw [hs]
    exact h.other ht rfl rfl (fun _ => rfl) rfl rfl
  | setCallback | setTimeout | setData =>
    exact h.other ht rfl rfl (nts_setEvent x.state _ fun _ => rfl) rfl rfl
  | time hs => exact h.loopTime ht (by simpa [Act.reads] using hread) htimely.1 hs
  | woken => exact h.still ht rfl rfl (fun _ => rfl) (Or.inr rfl) rfl
  | slept => exact h.still ht rfl rfl (fun _ => rfl) (Or.inr rfl) rfl
  | step hs => exact h.loopStep ht htimely.2 hs
  | ret hs => exact h.loopRet ht htimely.1 hs

end TimedInv

theorem tick_eq_some {x x' : Timed} {ta : ℕ × Act} (h : tick T x ta = some x') :
    x.clock ≤ ta.1 ∧ ta.2.reads ta.1 = true ∧
      ∃ s', step T x.state ta.2 = some s' ∧ x' = x.next ta.1 ta.2 s' := by
  obtain ⟨⟨hclock, hread⟩, h⟩ := Option.ite_none_right_eq_some.mp h
  obtain ⟨s', hs', rfl⟩ := Option.map_eq_some_iff.mp h
  exact ⟨hclock, hread, s', hs', rfl⟩

theorem init_timedInv (T : Target) : TimedInv (Timed.init T) where
  safe := by simp [Timed.init]
  due := by simp [Timed.init]
  passStart := le_rfl
  pass := by
    intro now hnow
    cases hnow
  added := by simp [Timed.init]
  fired := by simp [Timed.init]

def AllPrompt (x : Timed) : Prop :=
  (∀ e A, x.arming e = some A → A.base = A.time) ∧ ∀ f ∈ x.fired, f.arming.base = f.arming.time

theorem tick_allPrompt {x x' : Timed} {ta : ℕ × Act} (h : AllPrompt x) (hp : Prompt x ta)
    (hs : tick T x ta = some x') : AllPrompt x' := by
  obtain ⟨-, -, s', -, rfl⟩ := tick_eq_some hs
  constructor
  · intro e A hA
    have hset := disarm_eq_some hA
    cases harms : x.arms ta.1 ta.2 with
    | none =>
      rw [harms] at hset
      exact h.1 e A hset
    | some p =>
      obtain ⟨event, B⟩ := p
      rw [harms] at hset
      by_cases he : e = event
      · subst he
        rw [setArming, Function.update_self] at hset
        obtain rfl := Option.some.inj hset
        exact hp (e, B) harms
      · rw [setArming, Function.update_of_ne he] at hset
        exact h.1 e A hset
  · intro f hf
    rcases List.mem_append.mp hf with hf | hf
    · exact h.2 f hf
    · obtain ⟨i, -, hi⟩ := List.mem_filterMap.mp hf
      obtain ⟨-, hi⟩ := Option.ite_none_right_eq_some.mp hi
      obtain ⟨A, hA, rfl⟩ := Option.map_eq_some_iff.mp hi
      exact h.1 _ A hA

/-- In every schedule whose steps are all `Timely`, an armed event is not invoked with
`ASYNC_EVENT_ADDITION_DATA_TIMEOUT` before the clock reading of its arming plus its timeout,
which is the time of the arming plus its timeout when the callbacks of
`async_event_exec_timeout` are `Prompt`. -/
theorem timeouts_not_early (T : Target) {as : List (ℕ × Act)} {x : Timed}
    (h : AllSteps (tick T) Timely (Timed.init T) as)
    (hrun : run (tick T) (Timed.init T) as = some x) :
    ∀ f ∈ x.fired, f.arming.timeout ≠ timeForever ∧
      f.arming.base + f.arming.timeout ≤ f.time ∧
      (AllSteps (tick T) Prompt (Timed.init T) as →
        f.arming.time + f.arming.timeout ≤ f.time) := by
  have hinv : TimedInv x := run_invariant (fun y ta y' hI hta hs => by
    obtain ⟨hclock, hread, s', hs', rfl⟩ := tick_eq_some hs
    exact hI.step hclock hread hta hs') (init_timedInv T) h hrun
  intro f hf
  obtain ⟨hforever, hbase⟩ := hinv.fired f hf
  refine ⟨hforever, hbase, fun hp => ?_⟩
  have hprompt : AllPrompt x := run_invariant (fun y ta y' hI hta hs => tick_allPrompt hI hta hs)
    (by simp [AllPrompt, Timed.init]) hp hrun
  exact hprompt.2 f hf ▸ hbase

/-- One event registered and added at `t`, then `loops` for the looper. -/
def addedAt (timeout : UInt32) (t : ℕ) (loops : List (ℕ × Act)) : List (ℕ × Act) :=
  [(0, .create true true), (0, .loop), (0, .register 1 timeout 0 fun _ => 0), (0, .notify 0),
    (0, .post 0 true), (0, .time 0), (t, .pend true), (t, .step), (t, .step),
    (t, .time (.ofNat t))] ++ loops

/-- Armed at 10 for 5 milliseconds, invoked at 15. -/
theorem timeouts_not_early_one :
    ∃ x ∈ run (tick .lp64) (Timed.init .lp64) (addedAt 5 10
        [(10, .time 10), (15, .pend false), (15, .time 15), (15, .time 15), (16, .step)]),
      ∃ f ∈ x.fired, f.arming.time = 10 ∧ f.arming.timeout = 5 ∧
        f.arming.time + f.arming.timeout ≤ f.time := by
  have hfired : ∃ x ∈ run (tick .lp64) (Timed.init .lp64) (addedAt 5 10
      [(10, .time 10), (15, .pend false), (15, .time 15), (15, .time 15), (16, .step)]),
      ∃ f ∈ x.fired, f.arming.time = 10 ∧ f.arming.timeout = 5 := by decide +kernel
  obtain ⟨x, hx, f, hf, htime, htimeout⟩ := hfired
  refine ⟨x, hx, f, hf, htime, htimeout, ?_⟩
  exact (timeouts_not_early .lp64 (by decide +kernel) hx f hf).2.2 (by decide +kernel)

/-- `OS_TIME_FOREVER` is added to the clock like any other timeout: an event armed with it
is invoked at once. So is an event with a short timeout when the sum passes 2^32. -/
theorem timeouts_early :
    (∃ x ∈ run (tick .lp64) (Timed.init .lp64) (addedAt 0xFFFFFFFF 5
        [(5, .time 5), (5, .time 5), (5, .step)]),
      ∃ f ∈ x.fired, f.arming.timeout = timeForever ∧ f.arming.time = 5 ∧ f.time = 5) ∧
    ∃ x ∈ run (tick .lp64) (Timed.init .lp64) (addedAt 10 0xFFFFFFFA
        [(0xFFFFFFFA, .time 0xFFFFFFFA), (0xFFFFFFFA, .time 0xFFFFFFFA), (0xFFFFFFFA, .step)]),
      ∃ f ∈ x.fired, f.arming.timeout = 10 ∧ f.arming.time = 0xFFFFFFFA ∧ f.time = 0xFFFFFFFA := by
  decide +kernel

end EmbeddedTemplate.Async
