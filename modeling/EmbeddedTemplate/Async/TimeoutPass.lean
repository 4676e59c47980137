import EmbeddedTemplate.Async.Slots

/-! One call of `async_event_exec_timeout`, with everything that callbacks and other tasks
do meanwhile. -/
namespace EmbeddedTemplate.Async

open Transition

/-- The walk of `async_event_exec_timeout`. -/
def Pc.inPass : Pc → Bool
  | .timeout _ _ _ | .timeoutCb _ _ _ => true
  | .idle | .top _ | .enterTimeout | .leaveTimeout _ | .pend _ _ _ | .dequeue _ | .clearSem _
  | .trigger _ _ _ _ | .triggerCb _ _ | .rearm _ _ | .add _ _ | .addCb _ _ | .addLink _ _
  | .cancel _ _ _ | .exit | .destroy => false

def Act.isLooper : Act → Bool
  | .step | .ret _ => true
  | .create _ _ | .loop | .register _ _ _ _ | .notify _ | .putBack _ | .trigger _ _ _
  | .cancel _ _ | .looperExit _ | .post _ _ | .setCallback _ _ | .setTimeout _ _ | .setData _ _
  | .time _ | .pend _ => false

/-- What a callback has returned, and the timeout of its event at that time. -/
structure Answer where
  event : ℕ
  rc : UInt8
  timeout : ℕ

def answer (s : State) : Act → List Answer
  | .ret rc =>
    match s.pc with
    | .timeoutCb w _ _ => [⟨w.pos, rc, (s.ev w.pos).timeout⟩]
    | _ => []
  | _ => []

def released (answers : List Answer) : List ℕ :=
  (answers.filter (·.rc = 0)).map Answer.event

variable (T : Target)

def answers (s : State) : List Act → List Answer
  | [] => []
  | a :: as => answer s a ++ match step T s a with
    | some s' => answers s' as
    | none => []

/-- The free list as a list: a registration takes its first event, a failed one puts its
event in front, and so does the looper with the event of a callback that returned 0. -/
def freeStep (s : State) (free : List ℕ) : Act → List ℕ
  | .register _ _ _ _ => free.tail
  | .putBack i => s.failed[i]?.toList ++ free
  | a => released (answer s a) ++ free

def freeAfter (s : State) (free : List ℕ) : List Act → List ℕ
  | [] => free
  | a :: as => match step T s a with
    | some s' => freeAfter s' (freeStep s free a) as
    | none => free

/-- The event that a failing call puts on the free list. -/
def Call.takes : Call → List ℕ
  | .register event => [event]
  | .trigger _ _ | .cancel _ | .exit => []

def claimed (s : State) : List ℕ :=
  s.registering.map Registering.ret ++ s.failed ++ s.posting.flatMap fun p => p.call.takes

/-- The two lists are intact, and no running registration has an event of theirs. -/
structure Apart (s : State) (free evs : List ℕ) : Prop where
  free_ring : s.links.Ring T.freeList free
  events_ring : s.links.Ring T.events evs
  nodup : (T.freeList :: T.events :: (free ++ evs ++ claimed s)).Nodup

variable {T} {s s' : State} {free free' evs evs' : List ℕ}

namespace Apart

theorem of_count (h : Apart T s free evs) (hf : s'.links.Ring T.freeList free')
    (he : s'.links.Ring T.events evs')
    (hc : ∀ x, free'.count x + evs'.count x + (claimed s').count x ≤
      free.count x + evs.count x + (claimed s).count x) : Apart T s' free' evs' := by
  refine ⟨hf, he, ?_⟩
  rw [List.nodup_iff_count_le_one]
  intro x
  have hle := List.nodup_iff_count_le_one.mp h.nodup x
  have := hc x
  simp only [List.count_cons, List.count_append] at hle ⊢
  omega

theorem disjoint (h : Apart T s free evs) : (T.freeList :: free).Disjoint (T.events :: evs) := by
  have hnd := h.nodup
  grind [List.Disjoint]

theorem of_claimed (h : Apart T s free evs) {x : ℕ} (hx : x ∈ claimed s) :
    x ∉ T.freeList :: free ∧ (T.events :: evs).Disjoint (x :: T.freeList :: free) := by
  have hnd := h.nodup
  constructor
  · grind
  · grind [List.Disjoint]

theorem same (h : Apart T s free evs) (hl : s'.links = s.links)
    (hc : ∀ x, (claimed s').count x ≤ (claimed s).count x) : Apart T s' free evs :=
  h.of_count (hl ▸ h.free_ring) (hl ▸ h.events_ring) fun x => Nat.add_le_add_left (hc x) _

theorem registerPop (h : Apart T s free evs) (cb timeout dat : ℕ) (stack : ByteMem.Mem) :
    Apart T (registerPop T s cb timeout dat stack) free.tail evs := by
  obtain ⟨links, registering, hs, hf, he, hcount⟩ :=
    registerPop_rings h.free_ring h.events_ring h.disjoint cb timeout dat stack
  rw [hs]
  refine h.of_count hf he fun x => ?_
  have := hcount x
  simp only [claimed, List.count_append]
  omega

theorem putBack (h : Apart T s free evs) {i event : ℕ} (hi : s.failed[i]? = some event) :
    Apart T { s with
      links := s.links.listAdd event T.freeList
      failed := s.failed.eraseIdx i } (event :: free) evs := by
  obtain ⟨hnot, hdis⟩ := h.of_claimed (show event ∈ claimed s by
    simp [claimed, List.mem_of_getElem? hi])
  refine h.of_count (Heads.listAdd_ring h.free_ring hnot)
    (Heads.listAdd_frame h.free_ring h.events_ring hdis) fun x => ?_
  have hcount := count_eraseIdx hi x
  simp only [claimed, List.count_append, List.count_cons]
  omega

theorem notifyLoop (h : Apart T s free evs) (call : Call) (stack : ByteMem.Mem)
    (hcall : call.takes = []) :
    let s' := (notifyLoop T s call stack).1
    Apart T s' free evs ∧ s'.pc = s.pc ∧ s'.invoked = s.invoked ∧ ∀ e, s'.nts e = s.nts e := by
  rcases notifyLoop_eq (T := T) s call stack with ⟨rb, accepted, queue, cmd, hs⟩ | ⟨rb, hs⟩
  · rw [hs]
    refine ⟨h.same rfl fun x => ?_, rfl, rfl, fun _ => rfl⟩
    simp only [claimed, List.flatMap_append, List.flatMap_singleton, hcall, List.append_nil]
    exact le_rfl
  · rw [hs]
    exact ⟨h.same rfl fun _ => le_rfl, rfl, rfl, fun _ => rfl⟩

theorem registerNotify (h : Apart T s free evs) {i : ℕ} {r : Registering}
    (hi : s.registering[i]? = some r) : Apart T (registerNotify T s i r) free evs := by
  have hmap : (s.registering.map Registering.ret)[i]? = some r.ret := by simp [hi]
  have hcount := count_eraseIdx hmap
  rw [List.eraseIdx_map] at hcount
  -- the event goes to the call that is going to post, or to the failed registrations
  rcases notifyLoop_eq (T := T) (registerFill s i r) (.register r.ret) r.stack with
    ⟨rb, accepted, queue, cmd, hs⟩ | ⟨rb, hs⟩
  · simp only [Async.registerNotify, hs, if_true]
    refine h.same rfl fun x => ?_
    have := hcount x
    simp only [claimed, registerFill, setEvent, List.flatMap_append, List.flatMap_singleton,
      Call.takes, List.count_append, List.count_cons, List.count_nil]
    omega
  · simp only [Async.registerNotify, hs, Bool.false_eq_true, if_false]
    refine h.same rfl fun x => ?_
    have := hcount x
    simp only [claimed, registerFill, setEvent, List.count_append, List.count_cons, List.count_nil]
    omega

theorem post (h : Apart T s free evs) {i : ℕ} {p : Posting} (hi : s.posting[i]? = some p)
    (ok : Bool) : Apart T (postSem s i p ok) free evs := by
  obtain ⟨hlt, rfl⟩ := List.getElem?_eq_some_iff.mp hi
  have hperm := (List.getElem_cons_eraseIdx_perm hlt).flatMap_right fun p => p.call.takes
  have hcount := fun x => hperm.count_eq x
  simp only [List.flatMap_cons, List.count_append] at hcount
  unfold postSem
  cases ok with
  | true =>
    refine h.same rfl fun x => ?_
    have := hcount x
    simp only [claimed, if_true, List.count_append]
    omega
  | false =>
    cases hc : (s.posting[i]).call with
    | register event =>
      refine h.same rfl fun x => ?_
      have htakes : s.posting[i].call.takes = [event] := by rw [hc]; rfl
      have := hcount x
      rw [htakes] at this
      simp only [claimed, Bool.false_eq_true, if_false, List.count_append]
      omega
    | trigger | cancel | exit =>
      refine h.same rfl fun x => ?_
      have := hcount x
      simp only [claimed, Bool.false_eq_true, if_false, List.count_append]
      omega

end Apart

theorem client_pass (h : Apart T s free evs) (hin : s.pc.inPass = true) {a : Act}
    (ha : a.isLooper = false) (hs : step T s a = some s') :
    Apart T s' (freeStep s free a) evs ∧ s'.pc = s.pc ∧ s'.invoked = s.invoked ∧
      (∀ e, s'.nts e = s.nts e) ∧ answer s a = [] := by
  cases step_cases hs with
  | refused => exact ⟨h, rfl, rfl, fun _ => rfl, rfl⟩
  | create => exact ⟨h.same rfl fun _ => le_rfl, rfl, rfl, fun _ => rfl, rfl⟩
  | loop hpc =>
    rw [hpc] at hin
    cases hin
  | @register cb timeout dat stack =>
    have h' := h.registerPop cb timeout.toNat dat stack
    obtain ⟨links, registering, hpop⟩ := registerPop_eq (T := T) s cb timeout.toNat dat stack
    rw [hpop] at h' ⊢
    exact ⟨h', rfl, rfl, fun _ => rfl, rfl⟩
  | @notify i r hi =>
    have h' := h.registerNotify hi
    have hnts := nts_registerFill s i r
    simp only [registerNotify] at h' ⊢
    rcases notifyLoop_eq (T := T) (registerFill s i r) (.register r.ret) r.stack with
      ⟨rb, accepted, queue, cmd, hn⟩ | ⟨rb, hn⟩
    · rw [hn] at h' ⊢
      exact ⟨h', rfl, rfl, hnts, rfl⟩
    · rw [hn] at h' ⊢
      exact ⟨h', rfl, rfl, hnts, rfl⟩
  | putBack hi =>
    have h' := h.putBack hi
    refine ⟨?_, rfl, rfl, fun _ => rfl, rfl⟩
    simp only [freeStep, hi]
    exact h'
  | @trigger event additionData stack =>
    obtain ⟨h', hpc, hinv, hnts⟩ := h.notifyLoop (.trigger event additionData) stack rfl
    exact ⟨h', hpc, hinv, hnts, rfl⟩
  | @cancel event stack =>
    obtain ⟨h', hpc, hinv, hnts⟩ := h.notifyLoop (.cancel event) stack rfl
    exact ⟨h', hpc, hinv, hnts, rfl⟩
  | @looperExit stack =>
    obtain ⟨h', hpc, hinv, hnts⟩ := h.notifyLoop .exit stack rfl
    exact ⟨h', hpc, hinv, hnts, rfl⟩
  | @post i p ok hi =>
    have h' := h.post hi ok
    obtain ⟨sem, failed, returned, hp⟩ := postSem_eq s i p ok
    rw [hp] at h' ⊢
    exact ⟨h', rfl, rfl, fun _ => rfl, rfl⟩
  | setCallback | setTimeout | setData =>
    exact ⟨h.same rfl fun _ => le_rfl, rfl, rfl, nts_setEvent s _ fun _ => rfl, rfl⟩
  | time hs =>
    cases hpc : s.pc with
    | timeout | timeoutCb =>
      simp only [loopTime, hpc] at hs
      cases hs
    | _ =>
      rw [hpc] at hin
      cases hin
  | woken hpc | slept hpc =>
    rw [hpc] at hin
    cases hin
  | step | ret => cases ha

def due (s : State) (now : ℕ) (zs : List ℕ) : List ℕ := zs.filter (s.nts · ≤ now)

def kept (answers : List Answer) (zs : List ℕ) : List ℕ := zs.filter (· ∉ released answers)

def loops (as : List Act) : ℕ := as.countP Act.isLooper

variable (T)

/-- Where the looper stands in a pass: in the callback of the event `here`, if any, with the
events `todo` still to be visited. -/
def Walking (s : State) (now mostRecent : ℕ) (here todo : List ℕ) : Prop :=
  (∃ w, s.pc = .timeout w now mostRecent ∧ here = [] ∧ w.At T s.links todo) ∨
    ∃ w, s.pc = .timeoutCb w now mostRecent ∧ here = [w.pos] ∧ w.n = s.links.next w.pos

/-- What the rest of a pass does that has kept `ys` so far. -/
structure Rest (now mostRecent : ℕ) (ys here todo free : List ℕ) (s : State) (as : List Act)
    (s' : State) (m : ℕ) : Prop where
  pc : s'.pc = .leaveTimeout m
  steps : loops as = todo.length + (here ++ due s now todo).length + 1
  invoked : ∃ vs, s'.invoked = s.invoked ++ vs ∧ vs.map Invocation.event = due s now todo ∧
    ∀ v ∈ vs, v.additionData = additionDataTimeout ∧ v.cause = none
  answered : (answers T s as).map Answer.event = here ++ due s now todo
  rearmed : ∀ a ∈ answers T s as, a.rc ≠ 0 → s'.nts a.event = deadline now a.timeout
  waiting : ∀ e, e ∉ here ++ due s now todo → s'.nts e = s.nts e
  apart : Apart T s' (freeAfter T s free as) (ys ++ kept (answers T s as) (here ++ todo))
  least : m = ((kept (answers T s as) (here ++ todo)).map s'.nts).foldl lower mostRecent

variable {T} {now mostRecent m : ℕ} {ys here todo : List ℕ} {as : List Act} {a : Act} {z : ℕ}

theorem Walking.inPass (h : Walking T s now mostRecent here todo) : s.pc.inPass = true := by
  rcases h with ⟨w, hpc, -⟩ | ⟨w, hpc, -⟩ <;> rw [hpc] <;> rfl

theorem Walking.client (h : Walking T s now mostRecent here todo)
    (hr : s.links.Ring T.events (ys ++ here ++ todo)) (hr' : s'.links.Ring T.events (ys ++ here ++ todo))
    (hpc : s'.pc = s.pc) : Walking T s' now mostRecent here todo := by
  rcases h with ⟨w, hw, rfl, hpos, hn⟩ | ⟨w, hw, rfl, hn⟩
  · refine .inl ⟨w, hpc.trans hw, rfl, hpos, hn.trans (hr.next_eq hr' ?_)⟩
    have := List.head_mem (show todo ++ [T.events] ≠ [] by simp)
    grind
  · exact .inr ⟨w, hpc.trans hw, rfl, hn.trans (hr.next_eq hr' (by simp))⟩

theorem due_congr {zs : List ℕ} (h : ∀ e ∈ zs, s'.nts e = s.nts e) : due s' now zs = due s now zs :=
  List.filter_congr fun e he => by rw [h e he]

theorem answers_cons (hs : step T s a = some s') :
    answers T s (a :: as) = answer s a ++ answers T s' as := by
  simp only [answers, hs]

theorem freeAfter_cons (hs : step T s a = some s') :
    freeAfter T s free (a :: as) = freeAfter T s' (freeStep s free a) as := by
  simp only [freeAfter, hs]

theorem released_cons (x : Answer) (xs : List Answer) :
    released (x :: xs) = if x.rc = 0 then x.event :: released xs else released xs := by
  unfold released
  rw [List.filter_cons]
  split_ifs <;> simp_all

/-- The answer of a callback comes first, and a 0 puts its event on the free list. -/
theorem answers_cons_answer {x : Answer} (hs : step T s a = some s') (hans : answer s a = [x]) :
    answers T s (a :: as) = x :: answers T s' as := by
  rw [answers_cons hs, hans]
  rfl

theorem freeStep_ret {rc : UInt8} {x : Answer} (hans : answer s (.ret rc) = [x]) :
    freeStep s free (.ret rc) = if x.rc = 0 then x.event :: free else free := by
  simp only [freeStep, hans, released_cons]
  split_ifs <;> rfl

theorem mem_due {zs : List ℕ} (h : z ∈ due s now zs) : z ∈ zs := List.mem_of_mem_filter h

theorem due_cons (s : State) (now z : ℕ) (zs : List ℕ) :
    due s now (z :: zs) = if s.nts z ≤ now then z :: due s now zs else due s now zs := by
  unfold due
  rw [List.filter_cons]
  simp

theorem not_mem_released {ans : List Answer} (h : z ∉ ans.map Answer.event) : z ∉ released ans := by
  intro hz
  obtain ⟨x, hx, rfl⟩ := List.mem_map.mp hz
  exact h (List.mem_map.mpr ⟨x, List.mem_of_mem_filter hx, rfl⟩)

theorem kept_cons {ans : List Answer} (hz : z ∉ released ans) (zs : List ℕ) :
    kept ans (z :: zs) = z :: kept ans zs := by
  unfold kept
  rw [List.filter_cons, if_pos (by simpa using hz)]

namespace Rest
variable {t : State}

theorem client (h : Rest T now mostRecent ys here todo (freeStep s free a) s' as t m)
    (ha : a.isLooper = false) (hs : step T s a = some s') (hinv : s'.invoked = s.invoked)
    (hnts : ∀ e, s'.nts e = s.nts e) (hans : answer s a = []) :
    Rest T now mostRecent ys here todo free s (a :: as) t m := by
  have hdue : due s' now todo = due s now todo := due_congr fun e _ => hnts e
  have hcons : answers T s (a :: as) = answers T s' as := by
    rw [answers_cons hs, hans, List.nil_append]
  have hloops : loops (a :: as) = loops as := List.countP_cons_of_neg (by simp [ha])
  obtain ⟨hpc, hsteps, hinvoked, hanswered, hrearmed, hwaiting, hapart, hleast⟩ := h
  rw [hdue] at hsteps hinvoked hanswered hwaiting
  rw [hinv] at hinvoked
  constructor
  · exact hpc
  · rw [hloops, hsteps]
  · exact hinvoked
  · rw [hcons, hanswered]
  · rw [hcons]
    exact hrearmed
  · exact fun e he => (hwaiting e he).trans (hnts e)
  · rw [hcons, freeAfter_cons hs]
    exact hapart
  · rw [hcons]
    exact hleast

theorem skip (h : Rest T now (lower mostRecent (s.nts z)) (ys ++ [z]) [] todo free s' as t m)
    (hs : step T s .step = some s') (hinv : s'.invoked = s.invoked)
    (hnts : ∀ e, s'.nts e = s.nts e) (hlate : now < s.nts z) (hz : z ∉ todo) :
    Rest T now mostRecent ys [] (z :: todo) free s (.step :: as) t m := by
  have hdue : due s' now todo = due s now todo := due_congr fun e _ => hnts e
  have hcons : answers T s (.step :: as) = answers T s' as := answers_cons hs
  have hskip : due s now (z :: todo) = due s now todo := by
    rw [due_cons, if_neg (Nat.not_le_of_lt hlate)]
  have hloops : loops (.step :: as) = loops as + 1 := List.countP_cons_of_pos rfl
  obtain ⟨hpc, hsteps, hinvoked, hanswered, hrearmed, hwaiting, hapart, hleast⟩ := h
  rw [hdue] at hsteps hinvoked hanswered hwaiting
  rw [hinv] at hinvoked
  simp only [List.nil_append] at *
  have hzdue : z ∉ due s now todo := fun hm => hz (mem_due hm)
  have hkept := kept_cons (not_mem_released (z := z) (hanswered ▸ hzdue)) todo
  have hznts : t.nts z = s.nts z := (hwaiting z hzdue).trans (hnts z)
  constructor
  · exact hpc
  · rw [hloops, hsteps, List.nil_append, hskip, List.length_cons]
    omega
  · rw [hskip]
    exact hinvoked
  · rw [hcons, hanswered, List.nil_append, hskip]
  · rw [hcons]
    exact hrearmed
  · rw [List.nil_append, hskip]
    exact fun e he => (hwaiting e he).trans (hnts e)
  · rw [hcons, freeAfter_cons hs, List.nil_append, hkept, List.append_cons]
    exact hapart
  · rw [hcons, List.nil_append, hkept, List.map_cons, List.foldl_cons, hznts]
    exact hleast

theorem fire {v : Invocation} (h : Rest T now mostRecent ys [z] todo free s' as t m)
    (hs : step T s .step = some s') (hinv : s'.invoked = s.invoked ++ [v])
    (hv : v.event = z ∧ v.additionData = additionDataTimeout ∧ v.cause = none)
    (hnts : ∀ e, s'.nts e = s.nts e) (hlate : s.nts z ≤ now) :
    Rest T now mostRecent ys [] (z :: todo) free s (.step :: as) t m := by
  have hdue : due s' now todo = due s now todo := due_congr fun e _ => hnts e
  have hcons : answers T s (.step :: as) = answers T s' as := answers_cons hs
  have hfire : due s now (z :: todo) = z :: due s now todo := by rw [due_cons, if_pos hlate]
  have hloops : loops (.step :: as) = loops as + 1 := List.countP_cons_of_pos rfl
  obtain ⟨hpc, hsteps, ⟨vs, hvs, hevents, hall⟩, hanswered, hrearmed, hwaiting, hapart, hleast⟩ := h
  rw [hdue] at hsteps hevents hanswered hwaiting
  constructor
  · exact hpc
  · rw [hloops, hsteps, List.nil_append, hfire]
    simp only [List.length_append, List.length_cons, List.length_nil]
    omega
  · refine ⟨v :: vs, ?_, ?_, ?_⟩
    · rw [hvs, hinv, List.append_assoc]
      rfl
    · rw [hfire, List.map_cons, hv.1, hevents]
    · rintro u hu
      rcases List.mem_cons.mp hu with rfl | hu
      · exact hv.2
      · exact hall u hu
  · rw [hcons, hanswered, List.nil_append, hfire]
    rfl
  · rw [hcons]
    exact hrearmed
  · rw [List.nil_append, hfire]
    exact fun e he => (hwaiting e he).trans (hnts e)
  · rw [hcons, freeAfter_cons hs]
    exact hapart
  · rw [hcons]
    exact hleast

theorem release {rc : UInt8} {x : Answer} (h : Rest T now mostRecent ys [] todo (z :: free) s' as t m)
    (hs : step T s (.ret rc) = some s') (hans : answer s (.ret rc) = [x]) (hx : x.event = z)
    (hrc : x.rc = 0) (hinv : s'.invoked = s.invoked) (hnts : ∀ e, s'.nts e = s.nts e)
    (hz : z ∉ todo) : Rest T now mostRecent ys [z] todo free s (.ret rc :: as) t m := by
  have hdue : due s' now todo = due s now todo := due_congr fun e _ => hnts e
  have hcons : answers T s (.ret rc :: as) = x :: answers T s' as := answers_cons_answer hs hans
  have hfree : freeStep s free (.ret rc) = z :: free := by
    rw [freeStep_ret hans, if_pos hrc, hx]
  have hloops : loops (.ret rc :: as) = loops as + 1 := List.countP_cons_of_pos rfl
  obtain ⟨hpc, hsteps, hinvoked, hanswered, hrearmed, hwaiting, hapart, hleast⟩ := h
  rw [hdue] at hsteps hinvoked hanswered hwaiting
  rw [hinv] at hinvoked
  simp only [List.nil_append] at *
  have hkept : kept (x :: answers T s' as) ([z] ++ todo) = kept (answers T s' as) todo := by
    unfold kept
    rw [released_cons, if_pos hrc, hx]
    simp only [List.cons_append, List.nil_append, List.filter_cons]
    rw [if_neg (by simp)]
    refine List.filter_congr fun e he => ?_
    have hne : e ≠ z := fun heq => hz (heq ▸ he)
    simp [hne]
  constructor
  · exact hpc
  · rw [hloops, hsteps]
    simp only [List.length_append, List.length_cons, List.length_nil]
    omega
  · exact hinvoked
  · rw [hcons, List.map_cons, hx, hanswered]
    rfl
  · rw [hcons]
    rintro u hu hne
    rcases List.mem_cons.mp hu with rfl | hu
    · exact absurd hrc hne
    · exact hrearmed u hu hne
  · intro e he
    exact (hwaiting e fun hm => he (List.mem_append_right _ hm)).trans (hnts e)
  · rw [hcons, freeAfter_cons hs, hfree, hkept]
    exact hapart
  · rw [hcons, hkept]
    exact hleast

theorem rearm {rc : UInt8} {x : Answer}
    (h : Rest T now (lower mostRecent (deadline now x.timeout)) (ys ++ [z]) [] todo free s' as t m)
    (hs : step T s (.ret rc) = some s') (hans : answer s (.ret rc) = [x]) (hx : x.event = z)
    (hrc : x.rc ≠ 0) (hinv : s'.invoked = s.invoked) (hnew : s'.nts z = deadline now x.timeout)
    (hnts : ∀ e, e ≠ z → s'.nts e = s.nts e) (hz : z ∉ todo) :
    Rest T now mostRecent ys [z] todo free s (.ret rc :: as) t m := by
  have hdue : due s' now todo = due s now todo :=
    due_congr fun e he => hnts e fun heq => hz (heq ▸ he)
  have hcons : answers T s (.ret rc :: as) = x :: answers T s' as := answers_cons_answer hs hans
  have hrel : released (x :: answers T s' as) = released (answers T s' as) := by
    rw [released_cons, if_neg hrc]
  have hfree : freeStep s free (.ret rc) = free := by
    rw [freeStep_ret hans, if_neg hrc]
  have hloops : loops (.ret rc :: as) = loops as + 1 := List.countP_cons_of_pos rfl
  obtain ⟨hpc, hsteps, hinvoked, hanswered, hrearmed, hwaiting, hapart, hleast⟩ := h
  rw [hdue] at hsteps hinvoked hanswered hwaiting
  rw [hinv] at hinvoked
  simp only [List.nil_append] at *
  have hzdue : z ∉ due s now todo := fun hm => hz (mem_due hm)
  have hznts : t.nts z = deadline now x.timeout := (hwaiting z hzdue).trans hnew
  have hkept : kept (x :: answers T s' as) ([z] ++ todo) = z :: kept (answers T s' as) todo := by
    have hnot := not_mem_released (z := z) (hanswered ▸ hzdue)
    rw [← kept_cons hnot]
    unfold kept
    rw [hrel]
    rfl
  constructor
  · exact hpc
  · rw [hloops, hsteps]
    simp only [List.length_append, List.length_cons, List.length_nil]
    omega
  · exact hinvoked
  · rw [hcons, List.map_cons, hx, hanswered]
    rfl
  · rw [hcons]
    rintro u hu hne
    rcases List.mem_cons.mp hu with rfl | hu
    · rw [hx]
      exact hznts
    · exact hrearmed u hu hne
  · intro e he
    rw [List.mem_append, List.mem_singleton, not_or] at he
    exact (hwaiting e he.2).trans (hnts e he.1)
  · rw [hcons, freeAfter_cons hs, hfree, hkept, List.append_cons]
    exact hapart
  · rw [hcons, hkept, List.map_cons, List.foldl_cons, hznts]
    exact hleast

end Rest

theorem rest_end (h : Apart T s free ys) (hs : step T s .step = some { s with pc := .leaveTimeout m }) :
    Rest T now m ys [] [] free s [.step] { s with pc := .leaveTimeout m } m := by
  have hans : answers T s [.step] = [] := by simp [answers, answer, hs]
  constructor
  · rfl
  · rfl
  · exact ⟨[], by simp, rfl, by simp⟩
  · rw [hans]
    rfl
  · rw [hans]
    simp
  · exact fun _ _ => rfl
  · have h' : Apart T { s with pc := .leaveTimeout m } free (ys ++ []) := by
      rw [List.append_nil]
      exact h.same rfl fun _ => le_rfl
    rw [hans, freeAfter_cons hs]
    exact h'
  · rw [hans]
    rfl

/-- A run inside a pass that has not ended yet, or the whole rest of it. -/
def Follows (T : Target) (now mostRecent : ℕ) (ys here todo free : List ℕ) (s : State)
    (as : List Act) (t : State) : Prop :=
  (t.pc.inPass = true ∧ loops as ≤ todo.length + (here ++ due s now todo).length) ∨
    ∃ m, Rest T now mostRecent ys here todo free s as t m

theorem not_mem_todo (h : s.links.Ring T.events (ys ++ z :: todo)) : z ∉ todo := by
  have hnd := h.nodup
  grind

theorem follows_visit {t : State} {w : Walk} (h : Apart T s free (ys ++ w.pos :: todo))
    (hpc : s.pc = .timeout w now mostRecent) (hn : w.n = s.links.next w.pos)
    (hs : step T s .step = some s') (hnode : w.pos ≠ T.events)
    (ih : ∀ {mostRecent ys here todo free}, Apart T s' free (ys ++ here ++ todo) →
      Walking T s' now mostRecent here todo → Follows T now mostRecent ys here todo free s' as t) :
    Follows T now mostRecent ys [] (w.pos :: todo) free s (.step :: as) t := by
  have hz := not_mem_todo h.events_ring
  have hloops : loops (.step :: as) = loops as + 1 := List.countP_cons_of_pos rfl
  have hstep : loopStep T s = some s' := hs
  simp only [loopStep, hpc, if_neg hnode] at hstep
  by_cases hlate : now < (s.ev w.pos).nextTimestamp
  · rw [if_pos hlate] at hstep
    cases hstep
    have hlist : Apart T s free (ys ++ [w.pos] ++ [] ++ todo) := by simpa using h
    have hnot : ¬ s.nts w.pos ≤ now := Nat.not_le_of_lt hlate
    have hskip : due s now (w.pos :: todo) = due s now todo := by rw [due_cons, if_neg hnot]
    rcases ih (hlist.same rfl fun _ => le_rfl)
      (.inl ⟨_, rfl, rfl, Walk.advance_at h.events_ring hn⟩) with ⟨hpass, hle⟩ | ⟨m, hrest⟩
    · refine .inl ⟨hpass, ?_⟩
      have hle' : loops as ≤ todo.length + ([] ++ due s now todo).length := hle
      rw [hloops, hskip, List.length_cons]
      omega
    · exact .inr ⟨m, hrest.skip hs rfl (fun _ => rfl) hlate hz⟩
  · rw [if_neg hlate] at hstep
    cases hstep
    have hlist : Apart T s free (ys ++ [w.pos] ++ todo) := by simpa using h
    have hdue : s.nts w.pos ≤ now := Nat.le_of_not_lt hlate
    have hfire : due s now (w.pos :: todo) = w.pos :: due s now todo := by
      rw [due_cons, if_pos hdue]
    rcases ih (hlist.same rfl fun _ => le_rfl) (.inr ⟨w, rfl, rfl, hn⟩) with
      ⟨hpass, hle⟩ | ⟨m, hrest⟩
    · refine .inl ⟨hpass, ?_⟩
      have hle' : loops as ≤ todo.length + ([w.pos] ++ due s now todo).length := hle
      rw [hloops, hfire, List.length_cons]
      simp only [List.length_append, List.length_cons, List.length_nil] at hle' ⊢
      omega
    · exact .inr ⟨m, hrest.fire hs rfl ⟨rfl, rfl, rfl⟩ (fun _ => rfl) hdue⟩

theorem follows_return {t : State} {w : Walk} {rc : UInt8} (h : Apart T s free (ys ++ w.pos :: todo))
    (hpc : s.pc = .timeoutCb w now mostRecent) (hn : w.n = s.links.next w.pos)
    (hs : step T s (.ret rc) = some s')
    (ih : ∀ {mostRecent ys here todo free}, Apart T s' free (ys ++ here ++ todo) →
      Walking T s' now mostRecent here todo → Follows T now mostRecent ys here todo free s' as t) :
    Follows T now mostRecent ys [w.pos] todo free s (.ret rc :: as) t := by
  have hz := not_mem_todo h.events_ring
  have hloops : loops (.ret rc :: as) = loops as + 1 := List.countP_cons_of_pos rfl
  have hans : answer s (.ret rc) = [⟨w.pos, rc, (s.ev w.pos).timeout⟩] := by simp only [answer, hpc]
  have hstep : loopRet T s rc = some s' := hs
  simp only [loopRet, hpc] at hstep
  by_cases hrc : rc = 0
  · rw [if_pos hrc] at hstep
    cases hstep
    obtain ⟨hev, hfree⟩ := Heads.listMove_ring h.events_ring h.free_ring h.disjoint
    have h' : Apart T { s with
        links := s.links.listMove w.pos T.freeList
        pc := .timeout (w.advance (s.links.listMove w.pos T.freeList)) now mostRecent }
        (w.pos :: free) (ys ++ [] ++ todo) := by
      rw [List.append_nil]
      refine h.of_count hfree hev fun x => ?_
      simp only [claimed, List.count_append, List.count_cons]
      omega
    rcases ih h' (.inl ⟨_, rfl, rfl, Walk.advance_at h.events_ring hn⟩) with ⟨hpass, hle⟩ | ⟨m, hrest⟩
    · refine .inl ⟨hpass, ?_⟩
      have hle' : loops as ≤ todo.length + ([] ++ due s now todo).length := hle
      simp only [hloops, List.length_append, List.length_cons, List.length_nil] at hle' ⊢
      omega
    · exact .inr ⟨m, hrest.release hs hans rfl hrc rfl (fun _ => rfl) hz⟩
  · rw [if_neg hrc] at hstep
    cases hstep
    have hnts := nts_update s w.pos (deadline now (s.ev w.pos).timeout)
    have hother : ∀ e, e ≠ w.pos → Function.update s.nts w.pos (deadline now (s.ev w.pos).timeout) e =
        s.nts e := fun e he => Function.update_of_ne he _ _
    have hlist : Apart T s free (ys ++ [w.pos] ++ [] ++ todo) := by simpa using h
    rcases ih (hlist.same rfl fun _ => le_rfl)
      (.inl ⟨_, rfl, rfl, Walk.advance_at h.events_ring hn⟩) with ⟨hpass, hle⟩ | ⟨m, hrest⟩
    · refine .inl ⟨hpass, ?_⟩
      rw [due_congr (s := s)] at hle
      · simp only [hloops, List.length_append, List.length_cons, List.length_nil] at hle ⊢
        omega
      · intro e he
        exact (congrFun hnts e).trans (hother e fun heq => hz (heq ▸ he))
    · refine .inr ⟨m, hrest.rearm hs hans rfl hrc rfl ?_ ?_ hz⟩
      · exact (congrFun hnts w.pos).trans (Function.update_self _ _ _)
      · exact fun e he => (congrFun hnts e).trans (hother e he)

theorem pass_follows {t : State} (h : Apart T s free (ys ++ here ++ todo))
    (hw : Walking T s now mostRecent here todo)
    (hin : AllSteps (step T) (fun s _ => s.pc.inPass = true) s as) (hrun : run (step T) s as = some t) :
    Follows T now mostRecent ys here todo free s as t := by
  induction as generalizing s mostRecent ys here todo free with
  | nil =>
    obtain rfl : s = t := Option.some.inj hrun
    exact .inl ⟨hw.inPass, Nat.zero_le _⟩
  | cons a as ih =>
    obtain ⟨s', hs, hrest⟩ := run_cons.mp hrun
    have htail := hin.tail hs
    cases ha : a.isLooper with
    | false =>
      obtain ⟨h', hpc, hinv, hnts, hans⟩ := client_pass h hw.inPass ha hs
      have hw' := hw.client h.events_ring h'.events_ring hpc
      have hdue : due s' now todo = due s now todo := due_congr fun e _ => hnts e
      have hloops : loops (a :: as) = loops as := List.countP_cons_of_neg (by simp [ha])
      rcases ih h' hw' htail hrest with ⟨hpass, hle⟩ | ⟨m, hdone⟩
      · rw [hdue] at hle
        exact .inl ⟨hpass, by rw [hloops]; exact hle⟩
      · exact .inr ⟨m, hdone.client ha hs hinv hnts hans⟩
    | true =>
      rcases hw with ⟨w, hpc, rfl, hat⟩ | ⟨w, hpc, rfl, hn⟩
      · rw [List.append_nil] at h
        have hz : T.events ∉ todo := fun hm =>
          (List.nodup_cons.mp h.events_ring.nodup).1 (List.mem_append_right ys hm)
        -- at the walk only `.step` is possible
        obtain rfl : a = .step := by
          cases a with
          | step => rfl
          | ret rc =>
            simp only [step, loopRet, hpc] at hs
            cases hs
          | _ => cases ha
        rcases hat.end_or_node hz with ⟨hend, rfl⟩ | ⟨hnode, todo, rfl⟩
        · rw [List.append_nil] at h
          have hstep : loopStep T s = some s' := hs
          simp only [loopStep, hpc, if_pos hend] at hstep
          cases hstep
          cases as with
          | nil =>
            cases hrest
            exact .inr ⟨_, rest_end h hs⟩
          | cons b bs => cases htail.1
        · exact follows_visit h hpc hat.2 hs hnode fun hI hW => ih hI hW htail hrest
      · rw [List.append_assoc] at h
        obtain ⟨rc, rfl⟩ : ∃ rc, a = .ret rc := by
          cases a with
          | ret rc => exact ⟨rc, rfl⟩
          | step =>
            simp only [step, loopStep, hpc] at hs
            cases hs
          | _ => cases ha
        exact follows_return h hpc hn hs fun hI hW => ih hI hW htail hrest

theorem foldl_lower (next : ℕ) (ts : List ℕ) : ts.foldl lower next = ts.foldl min next := by
  have hlower : lower = min := by
    funext a b
    unfold lower
    split_ifs <;> omega
  rw [hlower]

/-- Between two callbacks the looper can go on, and a callback can return what it likes. -/
theorem inPass_enabled (h : s.pc.inPass = true) :
    (step T s .step).isSome = true ∨ ∀ rc, (step T s (.ret rc)).isSome = true := by
  cases hpc : s.pc with
  | timeout w now mostRecent =>
    left
    simp only [step, loopStep, hpc]
    split_ifs <;> rfl
  | timeoutCb w now mostRecent =>
    right
    intro rc
    simp only [step, loopRet, hpc]
    split_ifs <;> rfl
  | _ =>
    rw [hpc] at h
    cases h

/-- In a reachable state the lists are apart from the running registrations, unless the
looper is faster than one of them: it has executed the command before the semaphore is
posted. -/
theorem apart_of_inv {full : Prop} (h : Inv T full s free evs)
    (hposting : ∀ p ∈ s.posting, p.call.takes = []) : Apart T s free evs := by
  have hclaimed : claimed s = s.registering.map Registering.ret ++ s.failed := by
    rw [claimed, List.flatMap_eq_nil_iff.mpr hposting, List.append_nil]
  obtain ⟨hnd, hpool⟩ := h.nodup
  have hsub : List.Sublist (free ++ evs ++ claimed s) (free ++ evs ++ held s ++ queued T s.rb) := by
    rw [hclaimed]
    unfold held
    simp
  have hp := not_mem_pool (T := T)
  refine ⟨h.free_ring, h.events_ring,
    List.nodup_cons.mpr ⟨?_, List.nodup_cons.mpr ⟨?_, hnd.sublist hsub⟩⟩⟩
  · intro hm
    rcases List.mem_cons.mp hm with heq | hm
    · exact heads_ne heq
    · exact hp.1 (hpool _ (hsub.subset hm))
  · exact fun hm => hp.2 (hpool _ (hsub.subset hm))

/-- One call of `async_event_exec_timeout` at the time `now`, from any state in which the
lists are intact, with any calls of callbacks and tasks meanwhile. It can always go on, and
when it returns: it has called back the events whose deadline had come, once and in the
order of the list; those that answered 0 have gone to the free list, and the others are
left in their order, with new deadlines for those that were called; and it returns the
least deadline. -/
theorem timeout_pass_exact (T : Target) {s₀ s₁ s : State} {free evs : List ℕ}
    (h : Apart T s₀ free evs) (now : UInt32) (hpc : s₀.pc = .enterTimeout)
    (hstart : step T s₀ (.time now) = some s₁) {as : List Act}
    (hin : AllSteps (step T) (fun s _ => s.pc.inPass = true) s₁ as)
    (hrun : run (step T) s₁ as = some s) :
    (s.pc.inPass = true ∧ loops as ≤ evs.length + (due s₀ now.toNat evs).length ∧
      ((step T s .step).isSome = true ∨ ∀ rc, (step T s (.ret rc)).isSome = true)) ∨
    ∃ m, s.pc = .leaveTimeout m ∧ loops as = evs.length + (due s₀ now.toNat evs).length + 1 ∧
      (∃ vs, s.invoked = s₀.invoked ++ vs ∧
        vs.map Invocation.event = due s₀ now.toNat evs ∧
        ∀ v ∈ vs, v.additionData = additionDataTimeout ∧ v.cause = none) ∧
      (answers T s₁ as).map Answer.event = due s₀ now.toNat evs ∧
      s.links.Ring T.freeList (freeAfter T s₁ free as) ∧
      s.links.Ring T.events (kept (answers T s₁ as) evs) ∧
      (∀ a ∈ answers T s₁ as, a.rc ≠ 0 →
        (s.ev a.event).nextTimestamp = (now.toNat + a.timeout) % 2 ^ 32) ∧
      (∀ e, e ∉ due s₀ now.toNat evs → (s.ev e).nextTimestamp = (s₀.ev e).nextTimestamp) ∧
      m = ((kept (answers T s₁ as) evs).map s.nts).foldl min timeForever := by
  have hstep : loopTime T s₀ now.toNat = some s₁ := hstart
  simp only [loopTime, hpc] at hstep
  cases hstep
  have h₁ : Apart T s₀ free ([] ++ [] ++ evs) := h
  have hfollows := pass_follows (s := { s₀ with
      pc := .timeout (Walk.start s₀.links T.events) now.toNat timeForever })
    (h₁.same rfl fun _ => le_rfl) (.inl ⟨_, rfl, rfl, Walk.start_at h.events_ring⟩) hin hrun
  rcases hfollows with ⟨hpass, hle⟩ | ⟨m, hrest⟩
  · exact .inl ⟨hpass, hle, inPass_enabled hpass⟩
  · obtain ⟨hend, hsteps, hinvoked, hanswered, hrearmed, hwaiting, hapart, hleast⟩ := hrest
    rw [foldl_lower] at hleast
    exact .inr ⟨m, hend, hsteps, hinvoked, hanswered, hapart.free_ring, hapart.events_ring, hrearmed,
      hwaiting, hleast⟩

def twoEvents : List Act :=
  [.create true true, .loop, .register 1 5 0 fun _ => 7, .notify 0, .post 0 true, .time 0, .pend true,
    .step, .step, .time 0, .register 2 100 0 fun _ => 7, .notify 0, .post 0 true, .time 1, .pend true,
    .step, .step, .time 1, .time 5]

/-- Its callback registers a third event and sets a timeout before it returns. -/
def secondDue : List Act :=
  [.step, .step, .register 3 9 0 fun _ => 0, .setTimeout 4456 7, .ret 1, .step]

theorem timeout_pass_exact_two :
    ∃ s₀ ∈ run (step .lp64) (init .lp64) twoEvents, ∃ s₁ ∈ step .lp64 s₀ (.time 6),
      ∃ s ∈ run (step .lp64) s₁ secondDue,
        s.pc = .leaveTimeout 13 ∧ s.links.Ring Target.lp64.events [4416, 4456] ∧
          ∃ vs, s.invoked = s₀.invoked ++ vs ∧ vs.map Invocation.event = [4456] := by
  have hrun : ∃ s₀ ∈ run (step .lp64) (init .lp64) twoEvents,
      s₀.links.toList 10 Target.lp64.events = some [4416, 4456] ∧ s₀.posting.length = 0 ∧
      due s₀ 6 [4416, 4456] = [4456] ∧
      (match s₀.pc with | .enterTimeout => true | _ => false) = true ∧
      ∃ s₁ ∈ step .lp64 s₀ (.time 6),
        AllSteps (step .lp64) (fun s _ => s.pc.inPass = true) s₁ secondDue ∧
        kept (answers .lp64 s₁ secondDue) [4416, 4456] = [4416, 4456] ∧
        ∃ s ∈ run (step .lp64) s₁ secondDue,
          s.pc.inPass = false ∧ ([4416, 4456].map s.nts).foldl min timeForever = 13 := by
    decide +kernel
  obtain ⟨s₀, h₀, hlist, hposting, hdue, hpc, s₁, h₁, hin, hkept, s, hs, hend, hleast⟩ := hrun
  have hpc' : s₀.pc = .enterTimeout := by
    cases hp : s₀.pc <;> simp [hp] at hpc ⊢
  obtain ⟨free, evs, hinv⟩ := run_inv (by decide +kernel) h₀
  obtain rfl := Option.some.inj (hinv.toList_eq.2.symm.trans hlist)
  have hnone : ∀ p ∈ s₀.posting, p.call.takes = [] := by simp [List.length_eq_zero_iff.mp hposting]
  rcases timeout_pass_exact .lp64 (apart_of_inv hinv hnone) 6 hpc' h₁ hin hs with ⟨hpass, -⟩ | hdone
  · rw [hend] at hpass
    cases hpass
  · obtain ⟨m, hm, -, ⟨vs, hvs, hevents, -⟩, -, -, hring, -, -, hmin⟩ := hdone
    rw [hkept] at hring hmin
    rw [hleast] at hmin
    exact ⟨s₀, h₀, s₁, h₁, s, hs, hmin ▸ hm, hring, vs, hvs, hevents.trans hdue⟩

end EmbeddedTemplate.Async
