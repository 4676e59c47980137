import EmbeddedTemplate.Async.Ownership

/-! The steps of the looper keep the invariant of the event slots. -/
namespace EmbeddedTemplate.Async

variable {T : Target} {s s' : State} {free evs : List ℕ} {l l' : Heads} {nts : ℕ → ℕ}
  {event : ℕ} {full : Prop}

theorem lower_le_left (a b : ℕ) : lower a b ≤ a := by
  unfold lower
  split <;> omega

theorem lower_le_right (a b : ℕ) : lower a b ≤ b := by
  unfold lower
  split <;> omega

theorem Walk.start_at (hr : l.Ring T.events evs) : (Walk.start l T.events).At T l evs :=
  ⟨hr.next_head, rfl⟩

/-- One round of the walk. The pointers may have changed since the cursors were set, as
long as `n` was read from the list with `w.pos` still in it. -/
theorem Walk.advance_at {w : Walk} {ys zs : List ℕ} (hr : l.Ring T.events (ys ++ w.pos :: zs))
    (hn : w.n = l.next w.pos) : (w.advance l').At T l' zs := by
  constructor
  · exact hn.trans hr.next_of_mem
  · rfl

theorem Walk.At.end_or_node {w : Walk} {zs : List ℕ} (hw : w.At T l zs) (hz : T.events ∉ zs) :
    (w.pos = T.events ∧ zs = []) ∨ (w.pos ≠ T.events ∧ ∃ zs', zs = w.pos :: zs') := by
  cases zs with
  | nil => exact Or.inl ⟨hw.1, rfl⟩
  | cons z zs =>
    have hpos : w.pos = z := hw.1
    right
    constructor
    · rw [hpos]
      exact fun h => hz (by simp [h])
    · exact ⟨zs, by rw [hpos]⟩

theorem dispatch_held (l : Heads) (next : ℕ) (cmd : Command) :
    (dispatch T l next cmd).held = cmd.adds := by
  unfold dispatch Command.adds
  split_ifs with h1 h2
  all_goals first | rfl | (rw [h1] at h2; cases h2)

theorem dispatch_ok {next : ℕ} (hr : l.Ring T.events evs) (hnext : ∀ e ∈ evs, next ≤ nts e)
    (cmd : Command) : (dispatch T l next cmd).Ok T l nts evs := by
  unfold dispatch
  split_ifs
  · exact ⟨hnext, [], evs, rfl, Walk.start_at hr⟩
  · exact hnext
  · exact ⟨hnext, [], evs, rfl, Walk.start_at hr⟩
  · trivial
  · exact hnext

theorem nts_update (s : State) (event nextTimestamp : ℕ) :
    (setEvent s event fun e => { e with nextTimestamp }).nts =
      Function.update s.nts event nextTimestamp := by
  funext e
  simp only [State.nts, setEvent]
  by_cases he : e = event
  · subst he
    rw [Function.update_self, Function.update_self]
  · rw [Function.update_of_ne he, Function.update_of_ne he]
    rfl

/-- The minimum with the new deadline of one event stays below all deadlines. -/
theorem lower_update (event timestamp : ℕ) {ys : List ℕ} {next : ℕ} (h : ∀ e ∈ ys, next ≤ nts e) :
    ∀ e ∈ ys, lower next timestamp ≤ Function.update nts event timestamp e := by
  intro e he
  by_cases hev : e = event
  · subst hev
    rw [Function.update_self]
    exact lower_le_right _ _
  · rw [Function.update_of_ne hev]
    exact (lower_le_left _ _).trans (h e he)

namespace Inv

theorem events_not_mem (h : Inv T full s free evs) : T.events ∉ evs := by
  have hnd := h.events_ring.nodup
  exact (List.nodup_cons.mp hnd).1

theorem walk_cases {ys zs : List ℕ} {w : Walk} (h : Inv T full s free (ys ++ zs)) (hw : w.At T l zs) :
    (w.pos = T.events ∧ zs = []) ∨ (w.pos ≠ T.events ∧ ∃ zs', zs = w.pos :: zs') := by
  apply hw.end_or_node
  exact fun hm => h.events_not_mem (List.mem_append_right ys hm)

theorem goto (h : Inv T full s free evs) {pc : Pc} (hheld : pc.held = s.pc.held)
    (hpc : pc.Ok T s.links s.nts evs) : Inv T full { s with pc } free evs :=
  h.stay rfl rfl rfl rfl hheld hpc

theorem invoke (h : Inv T full s free evs) {pc : Pc} (event additionData : ℕ) (cause : Option Call)
    (hheld : pc.held = s.pc.held) (hpc : pc.Ok T s.links s.nts evs) :
    Inv T full (invoke s event additionData cause pc) free evs :=
  h.stay rfl rfl rfl rfl hheld hpc

theorem release {ys zs : List ℕ} (h : Inv T full s free (ys ++ event :: zs)) {pc : Pc}
    (hheld : pc.held = s.pc.held)
    (hpc : pc.Ok T (s.links.listMove event T.freeList) s.nts (ys ++ zs)) :
    Inv T full { s with links := s.links.listMove event T.freeList, pc } (event :: free) (ys ++ zs) := by
  obtain ⟨hev, hfree⟩ := Heads.listMove_ring h.events_ring h.free_ring h.disjoint
  refine h.looper h.whole hfree hev (fun x => ?_) hpc
  simp only [uses, held, hheld, List.count_append, List.count_cons]
  omega

theorem timeout (h : Inv T full s free evs) {w : Walk} {now mostRecent : ℕ}
    (hpc : s.pc = .timeout w now mostRecent) (hs : loopStep T s = some s') :
    Inv T full s' free evs := by
  have hok := h.pc
  simp only [hpc, Pc.Ok] at hok
  obtain ⟨ys, zs, rfl, hw, hdone⟩ := hok
  simp only [loopStep, hpc] at hs
  rcases h.walk_cases hw with ⟨hend, rfl⟩ | ⟨hnode, zs, rfl⟩
  · rw [if_pos hend] at hs
    cases hs
    apply h.goto (by rw [hpc]; rfl)
    simpa [Pc.Ok] using hdone
  · rw [if_neg hnode] at hs
    by_cases hlate : now < (s.ev w.pos).nextTimestamp
    · rw [if_pos hlate] at hs
      cases hs
      apply h.goto (by rw [hpc]; rfl)
      refine ⟨ys ++ [w.pos], zs, by simp, Walk.advance_at h.events_ring hw.2, fun e he => ?_⟩
      rcases List.mem_append.mp he with he | he
      · exact (lower_le_left _ _).trans (hdone e he)
      · rw [List.mem_singleton.mp he]
        exact lower_le_right _ _
    · rw [if_neg hlate] at hs
      cases hs
      apply h.invoke _ _ _ (by rw [hpc]; rfl)
      exact ⟨ys, zs, rfl, hw.2, hdone⟩

theorem trigger (h : Inv T full s free evs) {w : Walk} {next additionData : ℕ}
    (hpc : s.pc = .trigger next event additionData w) (hs : loopStep T s = some s') :
    Inv T full s' free evs := by
  have hok := h.pc
  simp only [hpc, Pc.Ok] at hok
  obtain ⟨hnext, ys, zs, rfl, hw⟩ := hok
  simp only [loopStep, hpc] at hs
  rcases h.walk_cases hw with ⟨hend, rfl⟩ | ⟨hnode, zs, rfl⟩
  · rw [if_pos hend] at hs
    cases hs
    apply h.goto (by rw [hpc]; rfl)
    exact fun e he => (lower_le_left _ _).trans (hnext e he)
  · rw [if_neg hnode] at hs
    by_cases hpos : w.pos = event
    · rw [if_pos hpos] at hs
      cases hs
      apply h.invoke _ _ _ (by rw [hpc]; rfl)
      exact ⟨hnext, by simp [hpos]⟩
    · rw [if_neg hpos] at hs
      cases hs
      apply h.goto (by rw [hpc]; rfl)
      exact ⟨hnext, ys ++ [w.pos], zs, by simp, Walk.advance_at h.events_ring hw.2⟩

theorem cancel (h : Inv T full s free evs) {w : Walk} {next : ℕ}
    (hpc : s.pc = .cancel next event w) (hs : loopStep T s = some s') :
    ∃ free' evs', Inv T full s' free' evs' := by
  have hok := h.pc
  simp only [hpc, Pc.Ok] at hok
  obtain ⟨hnext, ys, zs, rfl, hw⟩ := hok
  simp only [loopStep, hpc] at hs
  rcases h.walk_cases hw with ⟨hend, rfl⟩ | ⟨hnode, zs, rfl⟩
  · rw [if_pos hend] at hs
    cases hs
    exact ⟨_, _, h.goto (by rw [hpc]; rfl) hnext⟩
  · rw [if_neg hnode] at hs
    by_cases hpos : w.pos = event
    · rw [if_pos hpos] at hs
      cases hs
      subst hpos
      refine ⟨_, _, h.release (by rw [hpc]; rfl) fun e he => hnext e ?_⟩
      grind
    · rw [if_neg hpos] at hs
      cases hs
      refine ⟨_, _, h.goto (by rw [hpc]; rfl) ⟨hnext, ys ++ [w.pos], zs, by simp, ?_⟩⟩
      exact Walk.advance_at h.events_ring hw.2

/-- The looper throws commands away only when less than a command is free. -/
theorem dequeue (h : Inv T full s free evs) {next : ℕ} (hpc : s.pc = .dequeue next)
    (hroom : full → s.rb.len + T.cmdSize ≤ s.rb.cap) : Inv T full (dequeue T s next) free evs := by
  have hnext := h.pc
  simp only [hpc, Pc.Ok] at hnext
  rcases dequeue_cases h.whole next with ⟨rb, cmd, hw, -, hcmds, hs⟩ | ⟨hfail, rb, hw, hcmds, hs⟩
  · rw [hs]
    refine h.looper hw h.free_ring h.events_ring (fun x => ?_) ?_
    · have hheld : s.pc.held = [] := by rw [hpc]; rfl
      simp only [uses, held, hheld, queued, hcmds, dispatch_held, List.flatMap_cons,
        List.count_append, List.count_nil]
      omega
    · exact dispatch_ok h.events_ring hnext cmd
  · rw [hs]
    refine h.lose hw h.free_ring h.events_ring (fun x => ?_) (fun hfull x => ?_) hnext
    · simp only [uses, held, hpc, queued, hcmds, Pc.held, List.flatMap_nil, List.count_nil]
      omega
    · have hnil := commands_of_read_fails h.whole (hroom hfull) hfail
      simp only [uses, held, hpc, queued, hcmds, hnil, Pc.held]

theorem exit (h : Inv T full s free evs) (hpc : s.pc = .exit) :
    Inv T full { s with links := s.links.listSpliceInit T.events T.freeList, pc := .destroy }
      (evs ++ free) [] := by
  obtain ⟨hev, hfree⟩ := Heads.listSpliceInit_ring h.events_ring h.free_ring h.disjoint
  refine h.looper h.whole hfree hev (fun x => ?_) rfl
  simp only [uses, held, hpc, Pc.held, List.count_append, List.count_nil]
  omega

theorem loopStep (h : Inv T full s free evs)
    (hroom : full → ∀ next, s.pc = .dequeue next → s.rb.len + T.cmdSize ≤ s.rb.cap)
    (hs : loopStep T s = some s') :
    ∃ free' evs', Inv T full s' free' evs' := by
  cases hpc : s.pc with
  | timeout w now mostRecent => exact ⟨_, _, h.timeout hpc hs⟩
  | trigger next event additionData w => exact ⟨_, _, h.trigger hpc hs⟩
  | cancel next event w => exact h.cancel hpc hs
  | dequeue next =>
    simp only [Async.loopStep, hpc] at hs
    cases hs
    exact ⟨_, _, h.dequeue hpc fun hfull => hroom hfull next hpc⟩
  | clearSem next =>
    have hnext := h.pc
    simp only [hpc, Pc.Ok] at hnext
    simp only [Async.loopStep, hpc] at hs
    cases hs
    exact ⟨_, _, h.stay rfl rfl rfl rfl (by rw [hpc]; rfl) hnext⟩
  | add next event =>
    have hnext := h.pc
    simp only [hpc, Pc.Ok] at hnext
    simp only [Async.loopStep, hpc] at hs
    by_cases htimeout : (s.ev event).timeout = 0
    · rw [if_pos htimeout] at hs
      cases hs
      exact ⟨_, _, h.invoke _ _ _ (by rw [hpc]; rfl) hnext⟩
    · rw [if_neg htimeout] at hs
      cases hs
      exact ⟨_, _, h.goto (by rw [hpc]; rfl) hnext⟩
  | exit =>
    simp only [Async.loopStep, hpc] at hs
    cases hs
    exact ⟨_, _, h.exit hpc⟩
  | destroy =>
    have hnil := h.pc
    simp only [hpc, Pc.Ok] at hnil
    simp only [Async.loopStep, hpc] at hs
    cases hs
    exact ⟨_, _, h.stay rfl rfl rfl rfl (by rw [hpc]; rfl) hnil⟩
  | idle | top | enterTimeout | timeoutCb | leaveTimeout | pend | triggerCb | rearm | addCb
  | addLink =>
    simp only [Async.loopStep, hpc] at hs
    cases hs

theorem setNts (h : Inv T full s free evs) (event nextTimestamp : ℕ) {pc : Pc}
    (hheld : pc.held = s.pc.held)
    (hpc : pc.Ok T s.links (Function.update s.nts event nextTimestamp) evs) :
    Inv T full { setEvent s event fun e => { e with nextTimestamp } with pc } free evs := by
  rw [← nts_update s event nextTimestamp] at hpc
  exact h.stay rfl rfl rfl rfl hheld hpc

theorem loopTime (h : Inv T full s free evs) {t : ℕ} (hs : loopTime T s t = some s') :
    ∃ free' evs', Inv T full s' free' evs' := by
  have hok := h.pc
  cases hpc : s.pc with
  | top next =>
    simp only [hpc, Pc.Ok] at hok
    simp only [Async.loopTime, hpc] at hs
    by_cases hdue : next ≤ t
    · rw [if_pos hdue] at hs
      cases hs
      exact ⟨_, _, h.goto (by rw [hpc]; rfl) trivial⟩
    · rw [if_neg hdue] at hs
      cases hs
      exact ⟨_, _, h.goto (by rw [hpc]; rfl) ⟨hok, Or.inr ⟨Nat.lt_of_not_le hdue, rfl⟩⟩⟩
  | enterTimeout =>
    simp only [Async.loopTime, hpc] at hs
    cases hs
    refine ⟨_, _, h.goto (by rw [hpc]; rfl) ⟨[], evs, rfl, Walk.start_at h.events_ring, ?_⟩⟩
    intro e he
    cases he
  | leaveTimeout next =>
    simp only [hpc, Pc.Ok] at hok
    simp only [Async.loopTime, hpc] at hs
    cases hs
    refine ⟨_, _, h.goto (by rw [hpc]; rfl) ⟨hok, ?_⟩⟩
    by_cases hdue : next ≤ t
    · exact Or.inl (if_pos hdue)
    · exact Or.inr ⟨Nat.lt_of_not_le hdue, if_neg hdue⟩
  | rearm next event =>
    simp only [hpc, Pc.Ok] at hok
    simp only [Async.loopTime, hpc] at hs
    cases hs
    refine ⟨_, _, h.setNts event _ (by rw [hpc]; rfl) ?_⟩
    exact lower_update _ _ hok.1
  | addLink next event =>
    simp only [hpc, Pc.Ok] at hok
    simp only [Async.loopTime, hpc] at hs
    cases hs
    obtain ⟨-, hevs, -, hdis⟩ := h.place (show event ∈ held s by simp [held, hpc, Pc.held])
    refine ⟨free, event :: evs, h.looper h.whole ?_ (Heads.listAdd_ring h.events_ring hevs) ?_ ?_⟩
    · exact Heads.listAdd_frame h.events_ring h.free_ring hdis
    · intro x
      simp only [uses, held, setEvent, hpc, Pc.held, List.count_append, List.count_cons,
        List.count_nil]
      omega
    · have hnts := nts_update s event (deadline t (s.ev event).timeout)
      intro e he
      have hle := lower_update event (deadline t (s.ev event).timeout) hok
      rw [← hnts] at hle
      rcases List.mem_cons.mp he with rfl | he
      · have hself : (setEvent s e fun v =>
            { v with nextTimestamp := deadline t (s.ev e).timeout }).nts e =
            deadline t (s.ev e).timeout := by
          rw [hnts, Function.update_self]
        exact (lower_le_right _ _).trans hself.ge
      · exact hle e he
  | idle | timeout | timeoutCb | pend | dequeue | clearSem | trigger | triggerCb | add | addCb
  | cancel | exit | destroy =>
    simp only [Async.loopTime, hpc] at hs
    cases hs

theorem loopRet (h : Inv T full s free evs) {rc : UInt8} (hs : loopRet T s rc = some s') :
    ∃ free' evs', Inv T full s' free' evs' := by
  have hok := h.pc
  cases hpc : s.pc with
  | timeoutCb w now mostRecent =>
    simp only [hpc, Pc.Ok] at hok
    obtain ⟨ys, zs, rfl, hn, hdone⟩ := hok
    simp only [Async.loopRet, hpc] at hs
    by_cases hrc : rc = 0
    · rw [if_pos hrc] at hs
      cases hs
      refine ⟨_, _, h.release (by rw [hpc]; rfl) ⟨ys, zs, rfl, ?_, hdone⟩⟩
      exact Walk.advance_at h.events_ring hn
    · rw [if_neg hrc] at hs
      cases hs
      refine ⟨_, _, h.setNts w.pos _ (by rw [hpc]; rfl)
        ⟨ys ++ [w.pos], zs, by simp, Walk.advance_at h.events_ring hn, ?_⟩⟩
      intro e he
      rcases List.mem_append.mp he with he | he
      · exact lower_update _ _ hdone e he
      · rw [List.mem_singleton.mp he, Function.update_self]
        exact lower_le_right _ _
  | triggerCb next event =>
    simp only [hpc, Pc.Ok] at hok
    obtain ⟨hnext, hmem⟩ := hok
    simp only [Async.loopRet, hpc] at hs
    by_cases hrc : rc = 0
    · rw [if_pos hrc] at hs
      cases hs
      obtain ⟨ys, zs, rfl⟩ := List.append_of_mem hmem
      refine ⟨_, _, h.release (by rw [hpc]; rfl) fun e he => ?_⟩
      exact (lower_le_left _ _).trans (hnext e (by grind))
    · rw [if_neg hrc] at hs
      cases hs
      exact ⟨_, _, h.goto (by rw [hpc]; rfl) ⟨hnext, hmem⟩⟩
  | addCb next event =>
    simp only [hpc, Pc.Ok] at hok
    simp only [Async.loopRet, hpc] at hs
    by_cases hrc : rc = 0
    · rw [if_pos hrc] at hs
      cases hs
      obtain ⟨hfree, -, hdis, -⟩ := h.place (show event ∈ held s by simp [held, hpc, Pc.held])
      refine ⟨event :: free, evs, h.looper h.whole (Heads.listAdd_ring h.free_ring hfree) ?_ ?_ ?_⟩
      · exact Heads.listAdd_frame h.free_ring h.events_ring hdis
      · intro x
        simp only [uses, held, hpc, Pc.held, List.count_append, List.count_cons, List.count_nil]
        omega
      · exact fun e he => (lower_le_left _ _).trans (hok e he)
    · rw [if_neg hrc] at hs
      cases hs
      exact ⟨_, _, h.goto (by rw [hpc]; rfl) hok⟩
  | idle | top | enterTimeout | timeout | leaveTimeout | pend | dequeue | clearSem | trigger
  | rearm | add | addLink | cancel | exit | destroy =>
    simp only [Async.loopRet, hpc] at hs
    cases hs

end Inv
end EmbeddedTemplate.Async
