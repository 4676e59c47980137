import EmbeddedTemplate.Async.Queue

/-! The frame buffers of `j1939/transport.c`. They go from `mem_pool` to the CAN transceiver, from there
through the queue of the looper to `on_new_frame`, and back to the pool. -/
namespace EmbeddedTemplate.J1939

open Async ByteMem Transition

variable (T : Target)

/-- An address that `mem_pool_malloc` returns where it does not return NULL. -/
abbrev Buffer : Type := { mem : ℕ // mem ≠ 0 }

/-- `struct j1939_transport` with what it shares with the pool and with its looper, whose only event is
`new_frame_event`. A buffer is its address. -/
structure Transport where
  newFrameEvent : ℕ
  /-- the buffer that the transceiver receives to -/
  frame : ℕ
  /-- the buffers that were allocated from `mem_pool` and not freed -/
  allocated : List ℕ
  /-- what was given to `mem_pool_free` without being a buffer in use -/
  foreign : List ℕ
  /-- `looper->rb` -/
  rb : Ringbuffer
  /-- count of `looper->sem` -/
  sem : ℕ
  /-- the looper is at `os_pend_sem`, else at the head of `while (1)` -/
  waiting : Bool
  /-- `next_timestamp` of `async_looper_loop` -/
  nextTimestamp : ℕ
  /-- `next_timestamp` of the event, `none` while it is not in `looper->events` -/
  deadline : Option ℕ
  /-- for each command in the queue, whether its `async_notify_loop` returned nonzero -/
  accepted : List Bool

/-- `async_notify_loop`, where `os_post_sem` returns `posted`. -/
def asyncNotifyLoop (tp : Transport) (priv : Mem) (posted : Bool) : Bool × Transport :=
  let r := tp.rb.write (record T priv)
  if r.1 ≠ T.cmdSize then (false, { tp with rb := r.2 })
  else
    (posted, { tp with
      rb := r.2
      sem := if posted then tp.sem + 1 else tp.sem
      accepted := tp.accepted ++ [posted] })

def asyncEventTrigger (tp : Transport) (event additionData : ℕ) (stack : Mem) (posted : Bool) :
    Bool × Transport :=
  asyncNotifyLoop T tp (Call.priv T stack (.trigger event additionData)) posted

/-- `received_callback`, where `mem_pool_malloc` returns `newFrame`. It does not look at what
`async_event_trigger` returns. -/
def receivedCallback (tp : Transport) (frame : ℕ) (newFrame : Option Buffer) (stack : Mem) (posted : Bool) :
    ℕ × Transport :=
  match newFrame with
  | none => (frame, tp)
  | some new =>
    let tp := { tp with allocated := new.val :: tp.allocated }
    (new.val, (asyncEventTrigger T tp tp.newFrameEvent frame stack posted).2)

def memPoolFree (tp : Transport) (mem : ℕ) : Transport :=
  if mem = 0 then tp
  else if mem ∈ tp.allocated then { tp with allocated := tp.allocated.erase mem }
  else { tp with foreign := mem :: tp.foreign }

/-- `on_new_frame`. It returns 1. -/
def onNewFrame (tp : Transport) (frame : ℕ) : Transport := memPoolFree tp frame

/-- The event is due `ASYNC_TIME_FOREVER` after `t`, in a sum of type `os_time_t`. -/
def rearm (tp : Transport) (t : ℕ) : Transport :=
  { tp with
    deadline := some (Async.deadline t timeForever)
    nextTimestamp := lower tp.nextTimestamp (Async.deadline t timeForever) }

/-- `async_event_exec_timeout`, where `os_get_time` returns `now`. -/
def asyncEventExecTimeout (tp : Transport) (now : ℕ) : Transport :=
  let tp := { tp with nextTimestamp := timeForever }
  match tp.deadline with
  | none => tp
  | some deadline =>
    if now < deadline then { tp with nextTimestamp := lower timeForever deadline }
    else rearm (onNewFrame tp additionDataTimeout) now

/-- `async_looper_loop` behind `os_pend_sem`. The other types of commands are not sent to this looper. -/
def dequeue (tp : Transport) (t : ℕ) : Transport :=
  let r := tp.rb.read T.cmdSize
  if r.ret ≠ T.cmdSize then { tp with rb := r.rb.clear, sem := 0, accepted := [] }
  else
    let cmd := parse T r.bytes
    let tp := { tp with rb := r.rb, accepted := tp.accepted.tail }
    if cmd.type = commandTriggerCall ∧ cmd.event = tp.newFrameEvent then
      if tp.deadline.isSome then rearm (onNewFrame tp cmd.additionData) t else tp
    else if cmd.type = commandAddEvent ∧ cmd.event = tp.newFrameEvent then rearm tp t
    else tp

inductive Act where
  /-- the transceiver has received a frame -/
  | receive (newFrame : Option Buffer) (stack : Mem) (posted : Bool)
  /-- the looper goes from the head of `while (1)`, at the time `now`, to `os_pend_sem` -/
  | time (now timeoutNow : UInt32)
  /-- `os_pend_sem` returns `ok`, and `t` is the time at which the event is linked or set again -/
  | pend (ok : Bool) (t : UInt32)

/-- `mem_pool_malloc` does not return a buffer that is in use. -/
def step (tp : Transport) : Act → Option Transport
  | .receive newFrame stack posted =>
    if ∃ new ∈ newFrame, new.val ∈ tp.allocated then none
    else
      let r := receivedCallback T tp tp.frame newFrame stack posted
      some { r.2 with frame := r.1 }
  | .time now timeoutNow =>
    if tp.waiting then none
    else
      let tp := if tp.nextTimestamp ≤ now.toNat then asyncEventExecTimeout tp timeoutNow.toNat else tp
      some { tp with waiting := true }
  | .pend ok t =>
    if ¬ tp.waiting then none
    else
      let tp := { tp with waiting := false }
      if ok then if tp.sem = 0 then none else some (dequeue T { tp with sem := tp.sem - 1 } t.toNat)
      else some tp

/-- After `j1939_transport_run`: the first buffer is with the transceiver and the command that adds
the event in the queue. -/
def start (slot : Fin T.poolSize) (frame : Buffer) (buf : ℕ → UInt8) (stack : Mem) : Transport where
  newFrameEvent := T.slot slot
  frame := frame.val
  allocated := [frame.val]
  foreign := []
  rb := ((Ringbuffer.init buf 100).write (record T (Call.priv T stack (.register (T.slot slot))))).2
  sem := 1
  waiting := false
  nextTimestamp := timeForever
  deadline := none
  accepted := [true]

def carriesFrame (event : ℕ) (cmd : Command) : Bool :=
  cmd.type = commandTriggerCall ∧ cmd.event = event

/-- What the accepted triggers carry that are not delivered yet. -/
def pending (tp : Transport) : List ℕ :=
  (((commands T tp.rb).zip tp.accepted).filter fun x => carriesFrame tp.newFrameEvent x.1 && x.2).map
    fun x => x.1.additionData

/-- Every buffer in use is either with the transceiver or in exactly one command, and nothing else has
been given to the pool. -/
structure Owned (tp : Transport) : Prop where
  nodup : tp.allocated.Nodup
  perm : tp.allocated.Perm (tp.frame :: pending T tp)
  foreign : tp.foreign = []

instance (tp : Transport) : Decidable (Owned T tp) :=
  decidable_of_iff
    (tp.allocated.Nodup ∧ tp.allocated.Perm (tp.frame :: pending T tp) ∧ tp.foreign = [])
    ⟨fun h => ⟨h.1, h.2.1, h.2.2⟩, fun h => ⟨h.nodup, h.perm, h.foreign⟩⟩

/-- The step does not lose a frame. One for which there is a new buffer finds room in the queue, the bytes
of the stack where `async_event_trigger` places `priv.addition_data` hold its address, and `os_post_sem`
does not fail. No frame is in a queue that `ringbuffer_read` refuses to read, and a trigger finds the event in
`looper->events`. The event is not due in a pass over the deadlines. -/
def HandedOver (tp : Transport) : Act → Prop
  | .receive newFrame stack posted => ∀ new ∈ newFrame, new.val ∉ tp.allocated →
    tp.rb.len + T.cmdSize ≤ tp.rb.cap ∧ load stack T.ptrBytes T.dataOff = tp.frame ∧ posted = true
  | .time now timeoutNow => tp.waiting = false → tp.nextTimestamp ≤ now.toNat →
    ∀ deadline ∈ tp.deadline, timeoutNow.toNat < deadline
  | .pend ok _ => tp.waiting = true → ok = true → tp.sem ≠ 0 →
    if tp.rb.len + T.cmdSize ≤ tp.rb.cap then
      ∀ cmd ∈ (commands T tp.rb).head?, carriesFrame tp.newFrameEvent cmd = true → tp.deadline.isSome = true
    else pending T tp = []

variable {T} {tp tp' : Transport} {a : Act}

theorem Owned.length_allocated (h : Owned T tp) : tp.allocated.length = 1 + (pending T tp).length := by
  rw [h.perm.length_eq, List.length_cons, Nat.add_comm]

/-- The call is the one that the tasks of the looper make. -/
theorem asyncNotifyLoop_eq (s : State) (call : Call) (stack : Mem) (posted : Bool) (h : tp.rb = s.rb) :
    (asyncNotifyLoop T tp (call.priv T stack) posted).1 = ((notifyLoop T s call stack).2 && posted) ∧
      (asyncNotifyLoop T tp (call.priv T stack) posted).2.rb = (notifyLoop T s call stack).1.rb := by
  unfold asyncNotifyLoop notifyLoop
  rw [h]
  by_cases hret : (s.rb.write (record T (call.priv T stack))).1 = T.cmdSize
  · simp [hret]
  · simp [hret]

/-- The queue consists of commands that were accepted, the event is an address, and no buffer is NULL. -/
structure Queued (T : Target) (tp : Transport) : Prop where
  whole : Whole T tp.rb
  event_lt : tp.newFrameEvent < 256 ^ T.ptrBytes
  accepted : tp.accepted = (commands T tp.rb).map fun _ => true
  nonnull : 0 ∉ tp.allocated

theorem Queued.pending_eq (h : Queued T tp) : pending T tp =
    ((commands T tp.rb).filter (carriesFrame tp.newFrameEvent)).map Command.additionData := by
  have hzip : (commands T tp.rb).zip tp.accepted = (commands T tp.rb).map fun cmd => (cmd, true) := by
    rw [h.accepted, List.zip_map_right, List.zip_eq_zipWith, List.zipWith_self, List.map_map]
    rfl
  unfold pending
  rw [hzip, List.filter_map, List.map_map]
  simp only [Function.comp_def, Bool.and_true]

theorem write_record_of_room {rb : Ringbuffer} (h : Whole T rb) (priv : Mem)
    (hroom : rb.len + T.cmdSize ≤ rb.cap) :
    (rb.write (record T priv)).1 = T.cmdSize ∧ Whole T (rb.write (record T priv)).2 ∧
      commands T (rb.write (record T priv)).2 = commands T rb ++ [fields T priv] := by
  rcases write_record h priv with ⟨hret, hw, hcmds, -⟩ | ⟨hret, -⟩
  · exact ⟨hret, hw, hcmds⟩
  · have hle : (record T priv).length ≤ rb.cap - rb.len := by
      rw [length_record]
      omega
    obtain ⟨-, -, hlen, -⟩ := Ringbuffer.write_of_le h.inv hle
    rw [length_record] at hlen
    exact absurd hlen hret

theorem write_record_of_full {rb : Ringbuffer} (h : Whole T rb) (priv : Mem)
    (hfull : rb.cap < rb.len + T.cmdSize) : rb.write (record T priv) = (0, rb) := by
  have hlt : rb.cap - rb.len < (record T priv).length := by
    have := h.inv.len_le
    rw [length_record]
    omega
  exact Ringbuffer.write_of_lt h.inv hlt

theorem Queued.pending_concat (h : Queued T tp) {cmd : Command} {ok : Bool}
    (hevent : tp'.newFrameEvent = tp.newFrameEvent) (hcmds : commands T tp'.rb = commands T tp.rb ++ [cmd])
    (haccepted : tp'.accepted = tp.accepted ++ [ok]) : pending T tp' = pending T tp ++
      if carriesFrame tp.newFrameEvent cmd ∧ ok then [cmd.additionData] else [] := by
  have hlen : (commands T tp.rb).length = tp.accepted.length := by
    rw [h.accepted, List.length_map]
  unfold pending
  rw [hevent, hcmds, haccepted, List.zip_append hlen, List.filter_append, List.map_append]
  congr 1
  by_cases hc : carriesFrame tp.newFrameEvent cmd ∧ ok
  · simp [hc]
  · simp [hc]

/-- What a frame with a new buffer does: the new one is with the transceiver, and the queue has got
the content of the stack when there was room. -/
theorem receive_cases (h : Queued T tp) {new : Buffer} (stack : Mem) (posted : Bool)
    (hs : step T tp (.receive (some new) stack posted) = some tp') :
    tp'.frame = new.val ∧ tp'.allocated = new.val :: tp.allocated ∧ tp'.foreign = tp.foreign ∧
      ((tp.rb.len + T.cmdSize ≤ tp.rb.cap ∧ posted = true ∧ Queued T tp' ∧
          pending T tp' = pending T tp ++ [load stack T.ptrBytes T.dataOff]) ∨
        (¬ (tp.rb.len + T.cmdSize ≤ tp.rb.cap ∧ posted = true) ∧ pending T tp' = pending T tp)) := by
  simp only [step, Option.mem_def, Option.some.injEq, exists_eq_left'] at hs
  obtain ⟨-, hs⟩ := Option.ite_none_left_eq_some.mp hs
  cases hs
  obtain ⟨hevent, hdata⟩ := fields_trigger stack tp.frame h.event_lt
  have hcarries : carriesFrame tp.newFrameEvent
      (fields T (Call.priv T stack (.trigger tp.newFrameEvent tp.frame))) = true := by
    simp [carriesFrame, hevent, fields_type, Call.type]
  by_cases hroom : tp.rb.len + T.cmdSize ≤ tp.rb.cap
  · obtain ⟨hret, hw, hcmds⟩ := write_record_of_room h.whole
      (Call.priv T stack (.trigger tp.newFrameEvent tp.frame)) hroom
    simp only [receivedCallback, asyncEventTrigger, asyncNotifyLoop, hret, ne_eq, not_true_eq_false, if_false]
    refine ⟨trivial, trivial, trivial, ?_⟩
    cases posted with
    | true =>
      refine .inl ⟨hroom, rfl, ⟨hw, h.event_lt, ?_, ?_⟩, ?_⟩
      · simp only [hcmds, h.accepted, List.map_append, List.map_singleton]
      · exact List.not_mem_cons_of_ne_of_not_mem (Ne.symm new.property) h.nonnull
      · refine Eq.trans (h.pending_concat (by rfl) (by exact hcmds) (by rfl)) ?_
        rw [if_pos ⟨hcarries, rfl⟩, hdata]
    | false =>
      refine .inr ⟨by simp, ?_⟩
      refine Eq.trans (h.pending_concat (by rfl) (by exact hcmds) (by rfl)) ?_
      rw [if_neg (by simp), List.append_nil]
  · simp only [receivedCallback, asyncEventTrigger, asyncNotifyLoop,
      write_record_of_full h.whole _ (Nat.not_le.mp hroom), ne_eq, cmdSize_pos.ne, not_false_eq_true, if_true]
    exact ⟨trivial, trivial, trivial, .inr ⟨fun hboth => hroom hboth.1, rfl⟩⟩

structure Same (tp tp' : Transport) : Prop where
  event : tp'.newFrameEvent = tp.newFrameEvent
  frame : tp'.frame = tp.frame
  allocated : tp'.allocated = tp.allocated
  foreign : tp'.foreign = tp.foreign
  rb : tp'.rb = tp.rb
  accepted : tp'.accepted = tp.accepted

theorem Same.pending_eq (h : Same tp tp') : pending T tp' = pending T tp := by
  rw [pending, pending, h.event, h.rb, h.accepted]

theorem Same.queued (h : Same tp tp') (hq : Queued T tp) : Queued T tp' where
  whole := h.rb ▸ hq.whole
  event_lt := h.event ▸ hq.event_lt
  accepted := by rw [h.accepted, h.rb, hq.accepted]
  nonnull := h.allocated ▸ hq.nonnull

theorem Same.owned_iff (h : Same tp tp') : Owned T tp' ↔ Owned T tp := by
  constructor
  · intro hown
    have hperm := hown.perm
    rw [h.allocated, h.frame, h.pending_eq] at hperm
    exact ⟨h.allocated ▸ hown.nodup, hperm, h.foreign ▸ hown.foreign⟩
  · intro hown
    refine ⟨h.allocated ▸ hown.nodup, ?_, h.foreign.trans hown.foreign⟩
    rw [h.allocated, h.frame, h.pending_eq]
    exact hown.perm

theorem Owned.iff_perm (h : Owned T tp) (hframe : tp'.frame = tp.frame)
    (hall : tp'.allocated = tp.allocated) (hforeign : tp'.foreign = tp.foreign) :
    Owned T tp' ↔ (pending T tp).Perm (pending T tp') := by
  constructor
  · intro h'
    have hperm := h'.perm
    rw [hall, hframe] at hperm
    exact (h.perm.symm.trans hperm).cons_inv
  · intro hperm
    refine ⟨hall ▸ h.nodup, ?_, hforeign.trans h.foreign⟩
    rw [hall, hframe]
    exact h.perm.trans (hperm.cons _)

theorem owned_memPoolFree {d : ℕ} (hq : Queued T tp) (hnodup : tp.allocated.Nodup)
    (hperm : tp.allocated.Perm (tp.frame :: d :: pending T tp)) (hforeign : tp.foreign = []) :
    Owned T (memPoolFree tp d) := by
  have hmem : d ∈ tp.allocated := hperm.mem_iff.mpr (by simp)
  have hne : d ≠ 0 := by
    rintro rfl
    exact hq.nonnull hmem
  rw [memPoolFree, if_neg hne, if_pos hmem]
  refine ⟨hnodup.erase d, ?_, hforeign⟩
  have herase := (hperm.trans (List.Perm.swap d tp.frame _)).erase d
  rwa [List.erase_cons_head] at herase

/-- Nothing else may be freed. -/
theorem Owned.not_memPoolFree (h : Owned T tp) {d : ℕ} (hd : d ≠ 0) : ¬ Owned T (memPoolFree tp d) := by
  rw [memPoolFree, if_neg hd]
  split_ifs with hmem
  · intro h'
    have hlen := h'.perm.length_eq.trans h.perm.length_eq.symm
    have hpos := List.length_pos_of_mem hmem
    rw [List.length_erase_of_mem hmem] at hlen
    omega
  · exact fun h' => List.cons_ne_nil _ _ h'.foreign

theorem Queued.memPoolFree (h : Queued T tp) (mem : ℕ) : Queued T (memPoolFree tp mem) := by
  unfold J1939.memPoolFree
  split_ifs
  · exact h
  · exact ⟨h.whole, h.event_lt, h.accepted, fun h0 => h.nonnull (List.mem_of_mem_erase h0)⟩
  · exact ⟨h.whole, h.event_lt, h.accepted, h.nonnull⟩

theorem same_of_times (sem : ℕ) (waiting : Bool) (nextTimestamp : ℕ) (deadline : Option ℕ) :
    Same tp { tp with sem, waiting, nextTimestamp, deadline } :=
  ⟨rfl, rfl, rfl, rfl, rfl, rfl⟩

theorem rearm_same (t : ℕ) : Same tp (rearm tp t) := same_of_times _ _ _ _

theorem dequeue_cases (h : Queued T tp) (t : ℕ) :
    (∃ rb, Whole T rb ∧ commands T rb = [] ∧
      (tp.rb.len + T.cmdSize ≤ tp.rb.cap → commands T tp.rb = []) ∧
      dequeue T tp t = { tp with rb, sem := 0, accepted := [] }) ∨
    (tp.rb.len + T.cmdSize ≤ tp.rb.cap ∧ ∃ rb cmd, Whole T rb ∧ commands T tp.rb = cmd :: commands T rb ∧
      let taken := { tp with rb, accepted := tp.accepted.tail }
      if carriesFrame tp.newFrameEvent cmd = true ∧ tp.deadline.isSome = true then
        dequeue T tp t = rearm (onNewFrame taken cmd.additionData) t
      else Same taken (dequeue T tp t)) := by
  by_cases hret : (tp.rb.read T.cmdSize).ret = T.cmdSize
  · obtain ⟨hw, hcmds, -⟩ := read_command h.whole hret
    have hroom : tp.rb.len + T.cmdSize ≤ tp.rb.cap := by
      by_contra hroom
      have hfree : (tp.rb.cap : ℤ) - tp.rb.len < T.cmdSize := by omega
      rw [Ringbuffer.read, if_pos hfree] at hret
      exact cmdSize_pos.ne hret
    refine .inr ⟨hroom, _, _, hw, hcmds, ?_⟩
    simp only [dequeue, hret, ne_eq, not_true_eq_false, if_false, carriesFrame, decide_eq_true_eq]
    by_cases hcarries : (parse T (tp.rb.read T.cmdSize).bytes).type = commandTriggerCall ∧
        (parse T (tp.rb.read T.cmdSize).bytes).event = tp.newFrameEvent
    · by_cases hdeadline : tp.deadline.isSome = true
      · rw [if_pos ⟨hcarries, hdeadline⟩, if_pos hcarries, if_pos hdeadline]
      · rw [if_neg fun hboth => hdeadline hboth.2, if_pos hcarries, if_neg hdeadline]
        exact ⟨rfl, rfl, rfl, rfl, rfl, rfl⟩
    · rw [if_neg fun hboth => hcarries hboth.1, if_neg hcarries]
      split_ifs
      · exact rearm_same t
      · exact ⟨rfl, rfl, rfl, rfl, rfl, rfl⟩
  · have hle := T.cmdSize_le
    obtain ⟨hinv, hcap⟩ := Ringbuffer.read_inv h.whole.inv (show T.cmdSize < 2 ^ 16 by omega)
    refine .inl ⟨(tp.rb.read T.cmdSize).rb.clear, ⟨Ringbuffer.clear_inv hinv, hcap.trans h.whole.cap, Nat.dvd_zero _⟩,
      clear_commands, fun hroom => commands_of_read_fails h.whole hroom hret, ?_⟩
    rw [dequeue, if_pos hret]

/-- A delivery keeps the owners exactly when no frame is in a queue that cannot be read and a trigger finds
the event. -/
theorem dequeue_owned_iff (h : Queued T tp) (hown : Owned T tp) (t : ℕ) :
    Queued T (dequeue T tp t) ∧ (Owned T (dequeue T tp t) ↔
      if tp.rb.len + T.cmdSize ≤ tp.rb.cap then
        ∀ cmd ∈ (commands T tp.rb).head?, carriesFrame tp.newFrameEvent cmd = true → tp.deadline.isSome = true
      else pending T tp = []) := by
  rcases dequeue_cases h t with ⟨rb, hw, hnil, hroom, heq⟩ | ⟨hroom, rb, cmd, hw, hcmds, heq⟩
  · rw [heq]
    refine ⟨⟨hw, h.event_lt, by rw [hnil]; rfl, h.nonnull⟩, ?_⟩
    have hpend : pending T { tp with rb, sem := 0, accepted := [] } = [] := by simp [pending]
    refine (hown.iff_perm (by rfl) (by rfl) (by rfl)).trans ?_
    rw [hpend, List.perm_nil]
    split_ifs with hr
    · simp [h.pending_eq, hroom hr]
    · rfl
  · have hq : Queued T { tp with rb, accepted := tp.accepted.tail } :=
      ⟨hw, h.event_lt, by simp [h.accepted, hcmds], h.nonnull⟩
    have hpend : pending T tp = (if carriesFrame tp.newFrameEvent cmd then [cmd.additionData] else []) ++
        pending T { tp with rb, accepted := tp.accepted.tail } := by
      rw [h.pending_eq, hq.pending_eq, hcmds, List.filter_cons]
      split_ifs <;> rfl
    simp only [if_pos hroom, hcmds, List.head?_cons, Option.mem_def, Option.some.injEq, forall_eq']
    by_cases hcarries : carriesFrame tp.newFrameEvent cmd = true
    · rw [if_pos hcarries] at hpend
      by_cases hdeadline : tp.deadline.isSome = true
      · simp only [if_pos (And.intro hcarries hdeadline)] at heq
        rw [heq]
        have hfreed : Owned T (memPoolFree { tp with rb, accepted := tp.accepted.tail } cmd.additionData) := by
          refine owned_memPoolFree hq hown.nodup ?_ hown.foreign
          have hperm := hown.perm
          rwa [hpend] at hperm
        exact ⟨(rearm_same t).queued (hq.memPoolFree _), fun _ _ => hdeadline,
          fun _ => (rearm_same t).owned_iff.mpr hfreed⟩
      · simp only [if_neg (fun hboth : _ ∧ _ => hdeadline hboth.2)] at heq
        refine ⟨heq.queued hq, fun howned => ?_, fun hall => absurd (hall hcarries) hdeadline⟩
        have hperm := (hown.iff_perm heq.frame heq.allocated heq.foreign).mp howned
        have hlen := hperm.length_eq
        rw [hpend, heq.pending_eq, List.length_append, List.length_singleton] at hlen
        omega
    · simp only [if_neg (fun hboth : _ ∧ _ => hcarries hboth.1)] at heq
      refine ⟨heq.queued hq, fun _ hc => absurd hc hcarries, fun _ => ?_⟩
      rw [hown.iff_perm heq.frame heq.allocated heq.foreign, heq.pending_eq, hpend, if_neg hcarries]
      exact List.Perm.refl _

theorem execTimeout_owned_iff (h : Queued T tp) (hown : Owned T tp) (now : ℕ) :
    Queued T (asyncEventExecTimeout tp now) ∧
      (Owned T (asyncEventExecTimeout tp now) ↔ ∀ deadline ∈ tp.deadline, now < deadline) := by
  have hsame : ∀ next deadline, Same tp { tp with nextTimestamp := next, deadline } :=
    fun next deadline => same_of_times tp.sem tp.waiting next deadline
  unfold asyncEventExecTimeout
  cases hdeadline : tp.deadline with
  | none => exact ⟨(hsame _ _).queued h, fun _ deadline hd => (Option.not_mem_none deadline hd).elim,
      fun _ => (hsame _ _).owned_iff.mpr hown⟩
  | some deadline =>
    simp only [Option.mem_def, Option.some.injEq, forall_eq']
    split_ifs with hlt
    · exact ⟨(hsame _ _).queued h, fun _ => hlt, fun _ => (hsame _ _).owned_iff.mpr hown⟩
    · refine ⟨(rearm_same now).queued (((hsame _ _).queued h).memPoolFree _), fun howned => ?_,
        fun hnow => absurd hnow hlt⟩
      have hfreed := (rearm_same now).owned_iff.mp howned
      exact absurd hfreed (((hsame _ _).owned_iff.mpr hown).not_memPoolFree (by decide))

theorem receive_owned_iff (h : Queued T tp) (hown : Owned T tp) {newFrame : Option Buffer} {stack : Mem}
    {posted : Bool} (hs : step T tp (.receive newFrame stack posted) = some tp') :
    (HandedOver T tp (.receive newFrame stack posted) → Queued T tp') ∧
      (Owned T tp' ↔ HandedOver T tp (.receive newFrame stack posted)) := by
  cases newFrame with
  | none =>
    have hsame : tp = tp' := by simpa [step, receivedCallback] using hs
    rw [← hsame]
    exact ⟨fun _ => h, fun _ new hnew => (Option.not_mem_none new hnew).elim, fun _ => hown⟩
  | some new =>
    have hnew : new.val ∉ tp.allocated := by
      intro hmem
      simp [step, hmem] at hs
    have hhanded : HandedOver T tp (.receive (some new) stack posted) ↔ tp.rb.len + T.cmdSize ≤ tp.rb.cap ∧
        load stack T.ptrBytes T.dataOff = tp.frame ∧ posted = true := by
      simp [HandedOver, hnew]
    obtain ⟨hframe, hall, hforeign, hcases⟩ := receive_cases h stack posted hs
    have hperm_iff : tp'.allocated.Perm (tp'.frame :: pending T tp') ↔
        (tp.frame :: pending T tp).Perm (pending T tp') := by
      rw [hall, hframe, List.perm_cons]
      exact ⟨hown.perm.symm.trans, hown.perm.trans⟩
    rw [hhanded]
    rcases hcases with ⟨hroom, rfl, hq', hpend⟩ | ⟨hfull, hpend⟩
    · refine ⟨fun _ => hq', fun hown' => ⟨hroom, ?_, rfl⟩, fun hdata => ⟨?_, ?_, hforeign.trans hown.foreign⟩⟩
      · have hperm := hperm_iff.mp hown'.perm
        rw [hpend] at hperm
        have hone : [tp.frame].Perm [load stack T.ptrBytes T.dataOff] :=
          (List.perm_append_right_iff (pending T tp)).mp (hperm.trans (List.perm_append_singleton _ _))
        exact (List.singleton_perm_singleton.mp hone).symm
      · rw [hall]
        exact hown.nodup.cons hnew
      · rw [hperm_iff, hpend, hdata.2.1]
        exact (List.perm_append_singleton _ _).symm
    · refine ⟨fun hboth => absurd ⟨hboth.1, hboth.2.2⟩ hfull, fun hown' => ?_,
        fun hboth => absurd ⟨hboth.1, hboth.2.2⟩ hfull⟩
      have hlen := (hperm_iff.mp hown'.perm).length_eq
      rw [hpend, List.length_cons] at hlen
      omega

/-- A step keeps the owners exactly when it hands its frames over. -/
theorem step_owned_iff (h : Queued T tp) (hown : Owned T tp) (hs : step T tp a = some tp') :
    (HandedOver T tp a → Queued T tp') ∧ (Owned T tp' ↔ HandedOver T tp a) := by
  cases a with
  | receive newFrame stack posted => exact receive_owned_iff h hown hs
  | time now timeoutNow =>
    obtain ⟨hwaiting, hs⟩ := Option.ite_none_left_eq_some.mp hs
    have hwaiting' : tp.waiting = false := by simpa using hwaiting
    simp only [HandedOver, hwaiting', true_imp_iff]
    cases hs
    have hsame : ∀ tp : Transport, Same tp { tp with waiting := true } :=
      fun tp => same_of_times tp.sem true tp.nextTimestamp tp.deadline
    rw [(hsame _).owned_iff]
    split_ifs with hdue
    · obtain ⟨hq, hiff⟩ := execTimeout_owned_iff h hown timeoutNow.toNat
      rw [hiff]
      exact ⟨fun _ => (hsame _).queued hq, by simp [hdue]⟩
    · exact ⟨fun _ => (hsame _).queued h, fun _ hd => absurd hd hdue, fun _ => hown⟩
  | pend ok t =>
    obtain ⟨hwaiting, hs⟩ := Option.ite_none_left_eq_some.mp hs
    have hwaiting' : tp.waiting = true := not_not.mp hwaiting
    simp only [HandedOver, hwaiting', true_imp_iff]
    have hsame : ∀ sem, Same tp { tp with sem, waiting := false } :=
      fun sem => same_of_times sem false tp.nextTimestamp tp.deadline
    cases ok with
    | false =>
      simp only [Bool.false_eq_true, if_false, Option.some.injEq] at hs
      rw [← hs, (hsame _).owned_iff]
      exact ⟨fun _ => (hsame _).queued h, fun _ hok => absurd hok (by simp), fun _ => hown⟩
    | true =>
      simp only [if_true] at hs
      obtain ⟨hsem, hs⟩ := Option.ite_none_left_eq_some.mp hs
      cases hs
      obtain ⟨hq, hiff⟩ := dequeue_owned_iff ((hsame (tp.sem - 1)).queued h)
        ((hsame (tp.sem - 1)).owned_iff.mpr hown) t.toNat
      rw [hiff, (hsame (tp.sem - 1)).pending_eq]
      exact ⟨fun _ => hq, by simp [hsem]⟩

theorem handedOver_of_disabled (hs : step T tp a = none) : HandedOver T tp a := by
  cases a with
  | receive newFrame stack posted =>
    rintro new rfl hnew
    simp [step, hnew] at hs
  | time now timeoutNow =>
    intro hwaiting
    simp [step, hwaiting] at hs
  | pend ok t =>
    intro hwaiting hok hsem
    simp [step, hwaiting, hok, hsem] at hs

theorem start_owned (slot : Fin T.poolSize) (frame : Buffer) (buf : ℕ → UInt8) (stack : Mem) :
    Queued T (start T slot frame buf stack) ∧ Owned T (start T slot frame buf stack) := by
  have hle := T.cmdSize_le
  have hroom : (Ringbuffer.init buf 100).len + T.cmdSize ≤ (Ringbuffer.init buf 100).cap := by
    change 0 + T.cmdSize ≤ 100
    omega
  obtain ⟨-, hw, hcmds⟩ := write_record_of_room (init_whole (T := T) buf)
    (Call.priv T stack (.register (T.slot slot))) hroom
  rw [init_commands, List.nil_append] at hcmds
  have hq : Queued T (start T slot frame buf stack) :=
    ⟨hw, T.slot_lt slot slot.isLt, by simp [start, hcmds], by simpa [start] using frame.property.symm⟩
  have hnone : pending T (start T slot frame buf stack) = [] := by
    rw [hq.pending_eq]
    unfold start
    simp [hcmds, carriesFrame, fields_type, Call.type, commandAddEvent, commandTriggerCall]
  refine ⟨hq, List.nodup_singleton frame.val, ?_, rfl⟩
  rw [hnone]
  rfl

/-- In every run, each buffer in use has exactly one owner at any time exactly when each step hands its
frames over. Their number is then one more than that of the triggers in the queue. -/
theorem frames_owned_iff (slot : Fin T.poolSize) (frame : Buffer) (buf : ℕ → UInt8) (stack : Mem)
    (as : List Act) :
    (∀ n tp, run (step T) (start T slot frame buf stack) (as.take n) = some tp →
        Owned T tp ∧ tp.allocated.length = 1 + (pending T tp).length) ↔
      AllSteps (step T) (HandedOver T) (start T slot frame buf stack) as := by
  apply forall_take_iff_allSteps (I := fun tp => Queued T tp ∧ Owned T tp)
  · intro tp h
    exact ⟨h.2, h.2.length_allocated⟩
  · intro tp a tp' h hh hs
    obtain ⟨hq, hiff⟩ := step_owned_iff h.1 h.2 hs
    exact ⟨hq hh, hiff.mpr hh⟩
  · intro tp a h hs
    cases hstep : step T tp a with
    | none => exact handedOver_of_disabled hstep
    | some tp' => exact (step_owned_iff h.1 h.2 hstep).2.mp (hs tp' hstep).1
  · exact start_owned slot frame buf stack

/-- Five ways to lose the owners: a trigger that carries 0 is delivered; `os_post_sem` fails; there is no
room for the fourth frame; with three frames in the queue it is not read but emptied; the event is due at
once, and 0xFFFFFFFF is given to the pool. -/
theorem frame_leaked :
    let started := start .lp64 ⟨0, by decide⟩ ⟨1, by decide⟩ (fun _ => 0) fun _ => 0
    let receive (new : Buffer) (old : ℕ) (posted : Bool) : Act :=
      .receive (some new) (store (fun _ => 0) 8 16 old) posted
    (∃ tp ∈ run (step .lp64) started
        [.time 0 0, .pend true 0, receive ⟨2, by decide⟩ 0 true, .time 0 0, .pend true 0],
      ¬ Owned .lp64 tp ∧ tp.allocated = [2, 1] ∧ pending .lp64 tp = []) ∧
    (∃ tp ∈ run (step .lp64) started [receive ⟨2, by decide⟩ 1 false],
      ¬ Owned .lp64 tp ∧ tp.allocated = [2, 1] ∧ pending .lp64 tp = []) ∧
    (∃ tp ∈ run (step .lp64) started [receive ⟨2, by decide⟩ 1 true, receive ⟨3, by decide⟩ 2 true,
        receive ⟨4, by decide⟩ 3 true, receive ⟨5, by decide⟩ 4 true],
      ¬ Owned .lp64 tp ∧ tp.allocated = [5, 4, 3, 2, 1] ∧ pending .lp64 tp = [1, 2, 3]) ∧
    (∃ tp ∈ run (step .lp64) started [receive ⟨2, by decide⟩ 1 true, receive ⟨3, by decide⟩ 2 true,
        receive ⟨4, by decide⟩ 3 true, .time 0 0, .pend true 0],
      ¬ Owned .lp64 tp ∧ tp.allocated = [4, 3, 2, 1] ∧ pending .lp64 tp = []) ∧
    ∃ tp ∈ run (step .lp64) started [.time 1 1, .pend true 1, .time 1 1],
      ¬ Owned .lp64 tp ∧ tp.foreign = [0xFFFFFFFF] := by
  decide +kernel

end EmbeddedTemplate.J1939
