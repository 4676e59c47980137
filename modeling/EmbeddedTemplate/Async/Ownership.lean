import EmbeddedTemplate.Async.Queue

/-! The invariant of the event slots. Every slot is in one place at a time, the cursors of
the looper stay on its list, and `next_timestamp` stays below the deadlines of that list. -/
namespace EmbeddedTemplate.Async

variable (T : Target)

/-- The event that `async_event_add_to_looper_event_list` is working on. -/
def Pc.held : Pc → List ℕ
  | .add _ event | .addCb _ event | .addLink _ event => [event]
  | _ => []

def held (s : State) : List ℕ := s.registering.map Registering.ret ++ s.failed ++ s.pc.held

/-- The event that an `ADD_EVENT` command carries. -/
def Command.adds (c : Command) : List ℕ := if c.type = commandAddEvent then [c.event] else []

/-- The events of the `ADD_EVENT` commands in the queue. -/
def queued (rb : Ringbuffer) : List ℕ := (commands T rb).flatMap Command.adds

/-- How often `x` occurs, when the free list and the list of the looper are as given. -/
def uses (s : State) (free evs : List ℕ) (x : ℕ) : ℕ :=
  free.count x + evs.count x + (held s).count x + (queued T s.rb).count x

/-- The cursors stand at the first node of `zs`, or at the head when there is none. -/
def Walk.At (w : Walk) (l : Heads) (zs : List ℕ) : Prop :=
  w.pos = (zs ++ [T.events]).head (by simp) ∧ w.n = l.next w.pos

/-- What holds of the local variables of the looper. In a time-out pass `ys` are the nodes
already visited and kept. -/
def Pc.Ok (l : Heads) (nts : ℕ → ℕ) (evs : List ℕ) : Pc → Prop
  | .top next | .leaveTimeout next | .dequeue next | .clearSem next | .add next _
  | .addCb next _ | .addLink next _ => ∀ e ∈ evs, next ≤ nts e
  | .pend next now diff =>
    (∀ e ∈ evs, next ≤ nts e) ∧ (diff = 1 ∨ now < next ∧ diff = next - now)
  | .trigger next _ _ w | .cancel next _ w =>
    (∀ e ∈ evs, next ≤ nts e) ∧ ∃ ys zs, evs = ys ++ zs ∧ w.At T l zs
  | .triggerCb next event | .rearm next event => (∀ e ∈ evs, next ≤ nts e) ∧ event ∈ evs
  | .timeout w _ mostRecent =>
    ∃ ys zs, evs = ys ++ zs ∧ w.At T l zs ∧ ∀ e ∈ ys, mostRecent ≤ nts e
  | .timeoutCb w _ mostRecent =>
    ∃ ys zs, evs = ys ++ w.pos :: zs ∧ w.n = l.next w.pos ∧ ∀ e ∈ ys, mostRecent ≤ nts e
  | .idle | .destroy => evs = []
  | .enterTimeout | .exit => True

/-- `event->next_timestamp`. -/
def State.nts (s : State) (event : ℕ) : ℕ := (s.ev event).nextTimestamp

/-- With `full`, no slot has been lost. -/
structure Inv (full : Prop) (s : State) (free evs : List ℕ) : Prop where
  whole : Whole T s.rb
  free_ring : s.links.Ring T.freeList free
  events_ring : s.links.Ring T.events evs
  once : ∀ x, uses T s free evs x ≤ 1
  slot : ∀ x, 0 < uses T s free evs x → x ∈ T.pool
  kept : full → ∀ x ∈ T.pool, 0 < uses T s free evs x
  pc : s.pc.Ok T s.links s.nts evs

variable {T} {s s' : State} {free free' evs evs' : List ℕ} {l l' : Heads} {nts nts' : ℕ → ℕ}
  {x event : ℕ} {full : Prop}

theorem count_eraseIdx {l : List ℕ} {i : ℕ} (hi : l[i]? = some event) (x : ℕ) :
    l.count x = (l.eraseIdx i).count x + if event == x then 1 else 0 := by
  obtain ⟨hlt, rfl⟩ := List.getElem?_eq_some_iff.mp hi
  rw [← (List.getElem_cons_eraseIdx_perm hlt).count_eq x, List.count_cons]

theorem nts_setEvent (s : State) (event : ℕ) {f : Event → Event}
    (hf : ∀ e, (f e).nextTimestamp = e.nextTimestamp) (e : ℕ) :
    (setEvent s event f).nts e = s.nts e := by
  simp only [State.nts, setEvent]
  by_cases he : e = event
  · subst he
    rw [Function.update_self, hf]
  · rw [Function.update_of_ne he]

theorem nts_registerFill (s : State) (i : ℕ) (r : Registering) (e : ℕ) :
    (registerFill s i r).nts e = s.nts e :=
  nts_setEvent s r.ret (f := fun e => { e with cb := r.cb, dat := r.dat, timeout := r.timeout })
    (fun _ => rfl) e

theorem heads_ne : T.freeList ≠ T.events := by
  have h := T.placed
  grind

theorem not_mem_pool : T.freeList ∉ T.pool ∧ T.events ∉ T.pool := by
  have h := T.placed
  unfold Target.pool
  grind

/-- Client steps do not disturb the looper: its invariant depends on the list of the
looper and on the deadlines in it. -/
theorem Pc.Ok.frame {pc : Pc} (h : pc.Ok T l nts evs) (hr : l.Ring T.events evs)
    (hr' : l'.Ring T.events evs) (hn : ∀ e ∈ evs, nts' e = nts e) : pc.Ok T l' nts' evs := by
  have hle : ∀ {next}, (∀ e ∈ evs, next ≤ nts e) → ∀ e ∈ evs, next ≤ nts' e := by
    intro next hnext e he
    rw [hn e he]
    exact hnext e he
  have hwalk : ∀ {w : Walk} {ys zs}, evs = ys ++ zs → w.At T l zs → w.At T l' zs := by
    rintro w ys zs rfl ⟨hpos, hnext⟩
    refine ⟨hpos, hnext.trans (hr.next_eq hr' ?_)⟩
    have := List.head_mem (show zs ++ [T.events] ≠ [] by simp)
    grind
  cases pc with
  | top | leaveTimeout | dequeue | clearSem | add | addCb | addLink => exact hle h
  | pend => exact ⟨hle h.1, h.2⟩
  | trigger | cancel =>
    obtain ⟨hnext, ys, zs, he, hw⟩ := h
    exact ⟨hle hnext, ys, zs, he, hwalk he hw⟩
  | triggerCb | rearm => exact ⟨hle h.1, h.2⟩
  | timeout =>
    obtain ⟨ys, zs, he, hw, hdone⟩ := h
    refine ⟨ys, zs, he, hwalk he hw, fun e hm => ?_⟩
    rw [hn e (by simp [he, hm])]
    exact hdone e hm
  | timeoutCb w =>
    obtain ⟨ys, zs, he, hw, hdone⟩ := h
    refine ⟨ys, zs, he, hw.trans (hr.next_eq hr' (by simp [he])), fun e hm => ?_⟩
    rw [hn e (by simp [he, hm])]
    exact hdone e hm
  | idle | destroy => exact h
  | enterTimeout | exit => trivial

theorem registerPop_rings (hf : s.links.Ring T.freeList free) (he : s.links.Ring T.events evs)
    (hd : (T.freeList :: free).Disjoint (T.events :: evs)) (cb timeout dat : ℕ) (stack : ByteMem.Mem) :
    ∃ links registering, registerPop T s cb timeout dat stack = { s with links, registering } ∧
      links.Ring T.freeList free.tail ∧ links.Ring T.events evs ∧
      ∀ x, free.tail.count x + (registering.map Registering.ret).count x =
        free.count x + (s.registering.map Registering.ret).count x := by
  unfold registerPop
  by_cases hempty : s.links.listEmpty T.freeList = true
  · rw [if_pos hempty]
    rw [Heads.listEmpty_iff hf] at hempty
    rw [hempty] at hf ⊢
    exact ⟨s.links, s.registering, rfl, hf, he, fun _ => rfl⟩
  · rw [if_neg hempty]
    rw [Heads.listEmpty_iff hf] at hempty
    obtain ⟨ret, rest, rfl⟩ := List.exists_cons_of_ne_nil hempty
    have hret : s.links.next T.freeList = ret := hf.next_head
    have hr : s.links.Ring T.freeList ([] ++ ret :: rest) := hf
    rw [hret]
    refine ⟨_, _, rfl, Heads.listDel_ring hr, Heads.listDel_frame hr he hd.symm, fun x => ?_⟩
    simp only [List.map_append, List.map_cons, List.map_nil, List.count_append, List.count_cons,
      List.count_nil, List.tail_cons]
    omega

namespace Inv

theorem nodup (h : Inv T full s free evs) :
    (free ++ evs ++ held s ++ queued T s.rb).Nodup ∧
      ∀ e ∈ free ++ evs ++ held s ++ queued T s.rb, e ∈ T.pool := by
  have hcount : ∀ x, (free ++ evs ++ held s ++ queued T s.rb).count x = uses T s free evs x := by
    intro x
    simp only [uses, List.count_append]
  constructor
  · rw [List.nodup_iff_count_le_one]
    intro x
    rw [hcount x]
    exact h.once x
  · intro e he
    apply h.slot
    rw [← hcount e]
    exact List.count_pos_iff.mpr he

theorem mem_held (h : Inv T full s free evs) (hx : x ∈ held s) :
    x ∈ T.pool ∧ x ∉ free ∧ x ∉ evs := by
  obtain ⟨hnd, hpool⟩ := h.nodup
  have hdis := List.disjoint_of_nodup_append (List.nodup_append.mp hnd).1
  refine ⟨hpool x (by simp [hx]), fun hf => ?_, fun he => ?_⟩
  · exact hdis (List.mem_append_left evs hf) hx
  · exact hdis (List.mem_append_right free he) hx

theorem disjoint (h : Inv T full s free evs) :
    (T.freeList :: free).Disjoint (T.events :: evs) := by
  obtain ⟨hnd, hpool⟩ := h.nodup
  have hdis := List.disjoint_of_nodup_append
    (List.nodup_append.mp (List.nodup_append.mp hnd).1).1
  have hp := not_mem_pool (T := T)
  intro y hf he
  rcases List.mem_cons.mp hf with rfl | hf
  · rcases List.mem_cons.mp he with he | he
    · exact heads_ne he
    · exact hp.1 (hpool _ (by simp [he]))
  · rcases List.mem_cons.mp he with rfl | he
    · exact hp.2 (hpool _ (by simp [hf]))
    · exact hdis hf he

theorem place (h : Inv T full s free evs) (hheld : event ∈ held s) :
    event ∉ T.freeList :: free ∧ event ∉ T.events :: evs ∧
      (T.events :: evs).Disjoint (event :: T.freeList :: free) ∧
      (T.freeList :: free).Disjoint (event :: T.events :: evs) := by
  obtain ⟨hpool, hfree, hevs⟩ := h.mem_held hheld
  have hp := not_mem_pool (T := T)
  have hd := h.disjoint
  refine ⟨?_, ?_, ?_, ?_⟩ <;> grind [List.Disjoint]

/-- A step that may lose slots, unless the invariant says that none is lost. -/
theorem lose (h : Inv T full s free evs) (hw : Whole T s'.rb)
    (hf : s'.links.Ring T.freeList free') (he : s'.links.Ring T.events evs')
    (hu : ∀ x, uses T s' free' evs' x ≤ uses T s free evs x)
    (hk : full → ∀ x, uses T s' free' evs' x = uses T s free evs x)
    (hpc : s'.pc.Ok T s'.links s'.nts evs') : Inv T full s' free' evs' where
  whole := hw
  free_ring := hf
  events_ring := he
  once x := (hu x).trans (h.once x)
  slot x hx := h.slot x (Nat.lt_of_lt_of_le hx (hu x))
  kept hfull x hx := (h.kept hfull x hx).trans_eq (hk hfull x).symm
  pc := hpc

theorem looper (h : Inv T full s free evs) (hw : Whole T s'.rb)
    (hf : s'.links.Ring T.freeList free') (he : s'.links.Ring T.events evs')
    (hu : ∀ x, uses T s' free' evs' x = uses T s free evs x)
    (hpc : s'.pc.Ok T s'.links s'.nts evs') : Inv T full s' free' evs' :=
  h.lose hw hf he (fun x => (hu x).le) (fun _ => hu) hpc

theorem client (h : Inv T full s free evs) (hpc : s'.pc = s.pc) (hw : Whole T s'.rb)
    (hf : s'.links.Ring T.freeList free') (he : s'.links.Ring T.events evs)
    (hn : ∀ e ∈ evs, s'.nts e = s.nts e)
    (hu : ∀ x, uses T s' free' evs x = uses T s free evs x) : Inv T full s' free' evs := by
  refine h.looper hw hf he hu ?_
  rw [hpc]
  exact h.pc.frame h.events_ring he hn

theorem stay (h : Inv T full s free evs) (hl : s'.links = s.links) (hrb : s'.rb = s.rb)
    (hr : s'.registering = s.registering) (hf : s'.failed = s.failed)
    (hheld : s'.pc.held = s.pc.held) (hpc : s'.pc.Ok T s.links s'.nts evs) :
    Inv T full s' free evs := by
  refine h.looper (hrb ▸ h.whole) (hl ▸ h.free_ring) (hl ▸ h.events_ring) (fun x => ?_) (hl ▸ hpc)
  simp only [uses, held, hrb, hr, hf, hheld]

theorem registerPop (h : Inv T full s free evs) (cb timeout dat : ℕ) (stack : ByteMem.Mem) :
    Inv T full (registerPop T s cb timeout dat stack) free.tail evs := by
  obtain ⟨links, registering, hs, hf, he, hcount⟩ :=
    registerPop_rings h.free_ring h.events_ring h.disjoint cb timeout dat stack
  rw [hs]
  refine h.client rfl h.whole hf he (fun _ _ => rfl) fun x => ?_
  have := hcount x
  simp only [uses, held, List.count_append]
  omega

theorem putBack (h : Inv T full s free evs) {i : ℕ} (hi : s.failed[i]? = some event) :
    Inv T full { s with
      links := s.links.listAdd event T.freeList
      failed := s.failed.eraseIdx i } (event :: free) evs := by
  have hheld : event ∈ held s := by simp [held, List.mem_of_getElem? hi]
  obtain ⟨hnot, -, hdis, -⟩ := h.place hheld
  refine h.client rfl h.whole (Heads.listAdd_ring h.free_ring hnot)
    (Heads.listAdd_frame h.free_ring h.events_ring hdis) (fun _ _ => rfl) fun x => ?_
  have hcount := count_eraseIdx hi x
  simp only [uses, held, List.count_append, List.count_cons]
  omega

/-- A command enters the queue, with the slot it carries. -/
theorem uses_enqueue (free evs : List ℕ) {rb : Ringbuffer} {cmd : Command}
    (hcmds : commands T rb = commands T s.rb ++ [cmd]) (x : ℕ) :
    uses T { s with rb } free evs x = uses T s free evs x + cmd.adds.count x := by
  simp only [uses, queued, hcmds, List.flatMap_append, List.flatMap_singleton, List.count_append,
    held]
  omega

theorem notifyLoop (h : Inv T full s free evs) {call : Call} (stack : ByteMem.Mem)
    (htype : call.type ≠ commandAddEvent) : Inv T full (notifyLoop T s call stack).1 free evs := by
  have hadds : (fields T (call.priv T stack)).adds = [] := by
    rw [Command.adds, if_neg (by rwa [fields_type])]
  rcases notifyLoop_cases h.whole call stack with ⟨rb, hw, -, hcmds, hs⟩ | hs
  · rw [hs]
    refine h.client rfl hw h.free_ring h.events_ring (fun _ _ => rfl) fun x => ?_
    have huses := uses_enqueue free evs hcmds x
    rwa [hadds] at huses
  · rw [hs]
    exact h

theorem registerNotify (h : Inv T full s free evs) {i : ℕ} {r : Registering}
    (hi : s.registering[i]? = some r) : Inv T full (registerNotify T s i r) free evs := by
  have hmap : (s.registering.map Registering.ret)[i]? = some r.ret := by simp [hi]
  have hcount := count_eraseIdx hmap
  rw [List.eraseIdx_map] at hcount
  have hpool := (h.mem_held (x := r.ret) (by simp [held, List.mem_of_getElem? hmap])).1
  have hlt : r.ret < 256 ^ T.ptrBytes := by
    obtain ⟨j, hj, hslot⟩ := List.mem_map.mp hpool
    exact hslot ▸ T.slot_lt j (List.mem_range.mp hj)
  have hadds : (fields T (Call.priv T r.stack (.register r.ret))).adds = [r.ret] := by
    have htype := fields_type (T := T) (.register r.ret) r.stack
    rw [Command.adds, if_pos (by rw [htype]; rfl)]
    exact congrArg (fun e => [e]) (load_priv_event r.stack commandAddEvent hlt)
  have huses : ∀ x, uses T (registerFill s i r) free evs x + [r.ret].count x =
      uses T s free evs x := by
    intro x
    have := hcount x
    simp only [uses, held, registerFill, setEvent, List.count_append, List.count_cons,
      List.count_nil]
    omega
  have hfill : Whole T (registerFill s i r).rb := h.whole
  -- the slot goes into the queue with the command, or to the failed registrations
  rcases notifyLoop_cases hfill (.register r.ret) r.stack with ⟨rb, hw, -, hcmds, hs⟩ | hs
  · simp only [Async.registerNotify, hs, if_true]
    refine h.client rfl hw h.free_ring h.events_ring (fun e _ => nts_registerFill s i r e)
      fun x => ?_
    have henq := uses_enqueue free evs hcmds x
    rw [hadds, huses x] at henq
    exact henq
  · simp only [Async.registerNotify, hs, Bool.false_eq_true, if_false]
    refine h.client rfl h.whole h.free_ring h.events_ring (fun e _ => nts_registerFill s i r e)
      fun x => ?_
    rw [← huses x]
    simp only [uses, held, List.count_append]
    omega

end Inv
end EmbeddedTemplate.Async
