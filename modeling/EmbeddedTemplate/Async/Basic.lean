import EmbeddedTemplate.Lib.ByteMem
import EmbeddedTemplate.Lib.Frames
import EmbeddedTemplate.Lib.Transition
import EmbeddedTemplate.Misc.List
import EmbeddedTemplate.Ringbuffer.Basic

/-! The event looper of `async/` with `ASYNC_LOOPER_SIZE` 1: any number of tasks that call
the event functions and one task in `async_looper_loop`. A step is a stretch of code
between two points where tasks can be switched with an effect on shared data: a critical
section, a semaphore call, one round of a list walk, a callback invocation. Everything a
step takes from outside (times, callback results, OS results, the old content of a stack
frame) is in its action. -/
namespace EmbeddedTemplate.Async

open ByteMem

/-- A target: how it lays out `struct async_looper_command` (the `unsigned char type` is at
offset 0) and where it places the list heads and `events_pool`. -/
structure Target where
  ptrBytes : ℕ
  eventOff : ℕ
  dataOff : ℕ
  cmdSize : ℕ
  poolSize : ℕ
  slot : ℕ → ℕ
  freeList : ℕ
  events : ℕ
  event_pos : 1 ≤ eventOff
  event_le : eventOff + ptrBytes ≤ dataOff
  data_le : dataOff + ptrBytes ≤ cmdSize
  cmdSize_le : cmdSize ≤ 100
  placed : (freeList :: events :: (List.range poolSize).map slot).Nodup
  slot_lt : ∀ i < poolSize, slot i < 256 ^ ptrBytes

/-- The addresses of the elements of `events_pool`. -/
def Target.pool (T : Target) : List ℕ := (List.range T.poolSize).map T.slot

/-- A 64-bit target with `ASYNC_EVENT_SIZE` 10. -/
def Target.lp64 : Target where
  ptrBytes := 8
  eventOff := 8
  dataOff := 16
  cmdSize := 24
  poolSize := 10
  slot i := 0x1000 + 40 * i
  freeList := 0x2000
  events := 0x3000
  event_pos := by decide
  event_le := by decide
  data_le := by decide
  cmdSize_le := by decide
  placed := by decide
  slot_lt := by decide

/-- `struct async_event` without its list head. -/
structure Event where
  cb : ℕ
  timeout : ℕ
  nextTimestamp : ℕ
  dat : ℕ

structure Command where
  type : ℕ
  event : ℕ
  additionData : ℕ
deriving DecidableEq

def commandCancelEvent : ℕ := 0
def commandTriggerCall : ℕ := 1
def commandAddEvent : ℕ := 2
def commandExit : ℕ := 3

def timeForever : ℕ := 0xFFFFFFFF
def additionDataTimeout : ℕ := 0xFFFFFFFF

inductive Call where
  | register (event : ℕ)
  | trigger (event additionData : ℕ)
  | cancel (event : ℕ)
  | exit
deriving DecidableEq

variable (T : Target)

/-- `priv` after the assignments of the caller. The record is not cleared first: what is
not assigned keeps the bytes of the stack. `async_event_trigger` does not assign
`addition_data`, and `async_looper_exit` assigns only the type. -/
def Call.priv (stack : Mem) : Call → Mem
  | .register event => store (store stack 1 0 commandAddEvent) T.ptrBytes T.eventOff event
  | .trigger event _ => store (store stack 1 0 commandTriggerCall) T.ptrBytes T.eventOff event
  | .cancel event => store (store stack 1 0 commandCancelEvent) T.ptrBytes T.eventOff event
  | .exit => store stack 1 0 commandExit

/-- The `sizeof(*priv)` bytes from `priv` on. -/
def record (priv : Mem) : List UInt8 := (List.range T.cmdSize).map priv

def fields (m : Mem) : Command where
  type := load m 1 0
  event := load m T.ptrBytes T.eventOff
  additionData := load m T.ptrBytes T.dataOff

def parse (bs : List UInt8) : Command := fields T fun i => bs.getD i 0

/-- The two cursors of `list_for_each_safe`. -/
structure Walk where
  pos : ℕ
  n : ℕ
deriving DecidableEq

def Walk.start (l : Heads) (head : ℕ) : Walk := ⟨l.next head, l.next (l.next head)⟩
def Walk.advance (l : Heads) (w : Walk) : Walk := ⟨w.n, l.next w.n⟩

/-- Where `async_looper_loop` stands, with its local variables. -/
inductive Pc where
  /-- not called, or returned -/
  | idle
  /-- head of `while (1)` -/
  | top (next : ℕ)
  /-- entry of `async_event_exec_timeout` -/
  | enterTimeout
  | timeout (w : Walk) (now mostRecent : ℕ)
  /-- inside `event->cb` of `async_event_exec_timeout` -/
  | timeoutCb (w : Walk) (now mostRecent : ℕ)
  | leaveTimeout (next : ℕ)
  /-- at `os_pend_sem(looper->sem, diff)` -/
  | pend (next now diff : ℕ)
  | dequeue (next : ℕ)
  /-- at `os_clear_sem`, with `looper->lock` held -/
  | clearSem (next : ℕ)
  | trigger (next event additionData : ℕ) (w : Walk)
  | triggerCb (next event : ℕ)
  /-- `async_event_exec_trigger` behind a callback that returned nonzero -/
  | rearm (next event : ℕ)
  /-- entry of `async_event_add_to_looper_event_list` -/
  | add (next event : ℕ)
  | addCb (next event : ℕ)
  | addLink (next event : ℕ)
  | cancel (next event : ℕ) (w : Walk)
  | exit
  | destroy
deriving DecidableEq

/-- An `async_event_register` that took `ret` from the free list. -/
structure Registering where
  ret : ℕ
  cb : ℕ
  timeout : ℕ
  dat : ℕ
  stack : Mem

/-- A call whose command is in the queue and which has not posted yet. -/
structure Posting where
  call : Call
  cmd : Command

structure Invocation where
  event : ℕ
  cb : ℕ
  additionData : ℕ
  cause : Option Call

structure State where
  links : Heads
  ev : ℕ → Event
  rb : Ringbuffer
  /-- `looper->lock != NULL` -/
  lock : Bool
  /-- count of `looper->sem`, `none` for `NULL` -/
  sem : Option ℕ
  pc : Pc
  registering : List Registering
  /-- events of failed registrations that are not back on the free list yet -/
  failed : List ℕ
  posting : List Posting
  -- What follows is history: no step of the code depends on it.
  /-- commands written to the queue, in that order -/
  accepted : List Command
  /-- commands whose `async_notify_loop` returned nonzero -/
  returned : List Command
  /-- commands read from the queue by the looper -/
  dispatched : List Command
  /-- the calls behind the commands in the queue -/
  queue : List Call
  /-- the call behind the command dispatched last -/
  cause : Option Call
  invoked : List Invocation

inductive Act where
  | create (lockOk semOk : Bool)
  | loop
  | register (cb : ℕ) (timeout : UInt32) (dat : ℕ) (stack : Mem)
  /-- registration `i` fills its event and calls `async_notify_loop` -/
  | notify (i : ℕ)
  /-- failed registration `i` returns its event to the free list -/
  | putBack (i : ℕ)
  | trigger (event additionData : ℕ) (stack : Mem)
  | cancel (event : ℕ) (stack : Mem)
  | looperExit (stack : Mem)
  /-- call `i` gets to `os_post_sem`, which returns `ok` -/
  | post (i : ℕ) (ok : Bool)
  | setCallback (event cb : ℕ)
  | setTimeout (event : ℕ) (timeout : UInt32)
  | setData (event dat : ℕ)
  /-- the looper reads `os_get_time` -/
  | time (t : UInt32)
  | pend (ok : Bool)
  /-- the looper goes on -/
  | step
  /-- a callback returns to the looper -/
  | ret (rc : UInt8)

/-- `async_event_init`. -/
def initPool (l : Heads) : Heads :=
  T.pool.foldl (fun l e => (l.initListHead e).listAdd e T.freeList) l

/-- After `async_init`. -/
def init : State where
  links :=
    let l : Heads := { next := fun _ => 0, prev := fun _ => 0 }
    initPool T ((l.initListHead T.freeList).initListHead T.events)
  ev _ := ⟨0, 0, 0, 0⟩
  rb := Ringbuffer.init (fun _ => 0) 100
  lock := false
  sem := none
  pc := .idle
  registering := []
  failed := []
  posting := []
  accepted := []
  returned := []
  dispatched := []
  queue := []
  cause := none
  invoked := []

variable {T}

def looperCreate (s : State) (lockOk semOk : Bool) : State :=
  if s.lock then s
  else if lockOk && semOk then { s with lock := true, sem := some 0 }
  else { s with lock := false, sem := none }

def setEvent (s : State) (event : ℕ) (f : Event → Event) : State :=
  { s with ev := Function.update s.ev event (f (s.ev event)) }

/-- Registration `i` assigns the fields of its event. -/
def registerFill (s : State) (i : ℕ) (r : Registering) : State :=
  let s := setEvent s r.ret fun e => { e with cb := r.cb, dat := r.dat, timeout := r.timeout }
  { s with registering := s.registering.eraseIdx i }

/-- The sum is of type `os_time_t`. -/
def deadline (t timeout : ℕ) : ℕ := (t + timeout) % 2 ^ 32

/-- `if (timestamp < next) next = timestamp;` -/
def lower (next timestamp : ℕ) : ℕ := if timestamp < next then timestamp else next

/-- Invocation of `event->cb`, in response to a call or to a deadline. -/
def invoke (s : State) (event additionData : ℕ) (cause : Option Call) (pc : Pc) : State :=
  { s with
    pc
    invoked := s.invoked ++ [⟨event, (s.ev event).cb, additionData, cause⟩] }

/-- The critical section on `looper->lock` has to wait for the looper. -/
def Pc.locked : Pc → Bool
  | .clearSem _ => true
  | _ => false

variable (T)

/-- `async_event_register` up to the end of its critical section. -/
def registerPop (s : State) (cb timeout dat : ℕ) (stack : Mem) : State :=
  if s.links.listEmpty T.freeList then s
  else
    let ret := s.links.next T.freeList
    { s with
      links := s.links.listDel ret
      registering := s.registering ++ [⟨ret, cb, timeout, dat, stack⟩] }

/-- `async_notify_loop` up to `os_post_sem`, and whether it gets there. -/
def notifyLoop (s : State) (call : Call) (stack : Mem) : State × Bool :=
  let dat := record T (call.priv T stack)
  let r := s.rb.write dat
  if r.1 ≠ T.cmdSize then ({ s with rb := r.2 }, false)
  else
    let cmd := parse T dat
    ({ s with
      rb := r.2
      posting := s.posting ++ [⟨call, cmd⟩]
      accepted := s.accepted ++ [cmd]
      queue := s.queue ++ [call] }, true)

/-- `async_event_register` behind its first critical section. -/
def registerNotify (s : State) (i : ℕ) (r : Registering) : State :=
  let res := notifyLoop T (registerFill s i r) (.register r.ret) r.stack
  if res.2 then res.1 else { res.1 with failed := res.1.failed ++ [r.ret] }

def postSem (s : State) (i : ℕ) (p : Posting) (ok : Bool) : State :=
  let s := { s with posting := s.posting.eraseIdx i }
  if ok then { s with sem := s.sem.map (· + 1), returned := s.returned ++ [p.cmd] }
  else match p.call with
    | .register event => { s with failed := s.failed ++ [event] }
    | _ => s

/-- The choice of a branch by `cmd.type`. -/
def dispatch (l : Heads) (next : ℕ) (cmd : Command) : Pc :=
  if cmd.type = commandTriggerCall then
    .trigger next cmd.event cmd.additionData (Walk.start l T.events)
  else if cmd.type = commandAddEvent then .add next cmd.event
  else if cmd.type = commandCancelEvent then .cancel next cmd.event (Walk.start l T.events)
  else if cmd.type = commandExit then .exit
  else .top next

def dequeue (s : State) (next : ℕ) : State :=
  let r := s.rb.read T.cmdSize
  if r.ret ≠ T.cmdSize then { s with rb := r.rb.clear, queue := [], pc := .clearSem next }
  else
    let cmd := parse T r.bytes
    { s with
      rb := r.rb
      dispatched := s.dispatched ++ [cmd]
      cause := s.queue.head?
      queue := s.queue.tail
      pc := dispatch T s.links next cmd }

/-- Steps of the looper that take nothing from outside. -/
def loopStep (s : State) : Option State :=
  match s.pc with
  | .timeout w now mostRecent =>
    if w.pos = T.events then some { s with pc := .leaveTimeout mostRecent }
    else if now < (s.ev w.pos).nextTimestamp then
      let mostRecent := lower mostRecent (s.ev w.pos).nextTimestamp
      some { s with pc := .timeout (w.advance s.links) now mostRecent }
    else some (invoke s w.pos additionDataTimeout none (.timeoutCb w now mostRecent))
  | .dequeue next => some (dequeue T s next)
  | .clearSem next => some { s with sem := s.sem.map fun _ => 0, pc := .top next }
  | .trigger next event additionData w =>
    if w.pos = T.events then some { s with pc := .top (lower next timeForever) }
    else if w.pos = event then
      some (invoke s event additionData s.cause (.triggerCb next event))
    else some { s with pc := .trigger next event additionData (w.advance s.links) }
  | .add next event =>
    if (s.ev event).timeout = 0 then
      some (invoke s event additionDataTimeout s.cause (.addCb next event))
    else some { s with pc := .addLink next event }
  | .cancel next event w =>
    if w.pos = T.events then some { s with pc := .top next }
    else if w.pos = event then
      some { s with links := s.links.listMove event T.freeList, pc := .top next }
    else some { s with pc := .cancel next event (w.advance s.links) }
  | .exit => some { s with links := s.links.listSpliceInit T.events T.freeList, pc := .destroy }
  | .destroy => some { s with lock := false, sem := none, pc := .idle }
  | _ => none

/-- `os_get_time` calls of the looper. -/
def loopTime (s : State) (t : ℕ) : Option State :=
  match s.pc with
  | .top next =>
    if next ≤ t then some { s with pc := .enterTimeout }
    else some { s with pc := .pend next t (next - t) }
  | .enterTimeout =>
    some { s with pc := .timeout (Walk.start s.links T.events) t timeForever }
  | .leaveTimeout next =>
    some { s with pc := .pend next t (if next ≤ t then 1 else next - t) }
  | .rearm next event =>
    let nextTimestamp := deadline t (s.ev event).timeout
    let s := setEvent s event fun e => { e with nextTimestamp }
    some { s with pc := .top (lower next nextTimestamp) }
  | .addLink next event =>
    let nextTimestamp := deadline t (s.ev event).timeout
    let s := setEvent s event fun e => { e with nextTimestamp }
    some { s with
      links := s.links.listAdd event T.events
      pc := .top (lower next nextTimestamp) }
  | _ => none

/-- A callback returns `rc`. -/
def loopRet (s : State) (rc : UInt8) : Option State :=
  match s.pc with
  | .timeoutCb w now mostRecent =>
    if rc = 0 then
      let links := s.links.listMove w.pos T.freeList
      some { s with links, pc := .timeout (w.advance links) now mostRecent }
    else
      let nextTimestamp := deadline now (s.ev w.pos).timeout
      let s := setEvent s w.pos fun e => { e with nextTimestamp }
      let mostRecent := lower mostRecent nextTimestamp
      some { s with pc := .timeout (w.advance s.links) now mostRecent }
  | .triggerCb next event =>
    if rc = 0 then
      some { s with
        links := s.links.listMove event T.freeList
        pc := .top (lower next timeForever) }
    else some { s with pc := .rearm next event }
  | .addCb next event =>
    if rc = 0 then
      some { s with
        links := s.links.listAdd event T.freeList
        pc := .top (lower next timeForever) }
    else some { s with pc := .addLink next event }
  | _ => none

/-- `os_pend_sem`. -/
def loopPend (s : State) (ok : Bool) : Option State :=
  match s.pc with
  | .pend next _ _ =>
    if ok then
      match s.sem with
      | some (k + 1) => some { s with sem := some k, pc := .dequeue next }
      | _ => none
    else some { s with pc := .top next }
  | _ => none

def send (s : State) (call : Call) (stack : Mem) : Option State :=
  if s.pc.locked then none else some (notifyLoop T s call stack).1

def step (s : State) : Act → Option State
  | .create lockOk semOk => some (looperCreate s lockOk semOk)
  | .loop =>
    match s.pc with
    | .idle => if s.lock then some { s with pc := .top timeForever } else none
    | _ => none
  | .register cb timeout dat stack => some (registerPop T s cb timeout.toNat dat stack)
  | .notify i => do
    let r ← s.registering[i]?
    if s.pc.locked then none else some (registerNotify T s i r)
  | .putBack i => do
    let event ← s.failed[i]?
    some { s with
      links := s.links.listAdd event T.freeList
      failed := s.failed.eraseIdx i }
  | .trigger event additionData stack =>
    if event < 256 ^ T.ptrBytes ∧ additionData < 256 ^ T.ptrBytes then
      send T s (.trigger event additionData) stack
    else none
  | .cancel event stack =>
    if event < 256 ^ T.ptrBytes then send T s (.cancel event) stack else none
  | .looperExit stack => send T s .exit stack
  | .post i ok => do
    let p ← s.posting[i]?
    some (postSem s i p ok)
  | .setCallback event cb =>
    if event ∈ T.pool then some (setEvent s event fun e => { e with cb }) else none
  | .setTimeout event timeout =>
    if event ∈ T.pool then
      some (setEvent s event fun e => { e with timeout := timeout.toNat })
    else none
  | .setData event dat =>
    if event ∈ T.pool then some (setEvent s event fun e => { e with dat }) else none
  | .time t => loopTime T s t.toNat
  | .pend ok => loopPend s ok
  | .step => loopStep T s
  | .ret rc => loopRet T s rc

/-- Everything `step` can do, with the guards of the code resolved. -/
inductive Stepped (s : State) : Act → State → Prop
  | refused {lockOk semOk : Bool} (hlock : s.lock = true) : Stepped s (.create lockOk semOk) s
  | create {lockOk semOk : Bool} (ok : Bool) (hlock : s.lock = false) :
    Stepped s (.create lockOk semOk) { s with lock := ok, sem := if ok then some 0 else none }
  | loop (hpc : s.pc = .idle) (hlock : s.lock = true) :
    Stepped s .loop { s with pc := .top timeForever }
  | register {cb : ℕ} {timeout : UInt32} {dat : ℕ} {stack : Mem} :
    Stepped s (.register cb timeout dat stack) (registerPop T s cb timeout.toNat dat stack)
  | notify {i : ℕ} {r : Registering} (hi : s.registering[i]? = some r) :
    Stepped s (.notify i) (registerNotify T s i r)
  | putBack {i event : ℕ} (hi : s.failed[i]? = some event) :
    Stepped s (.putBack i) { s with
      links := s.links.listAdd event T.freeList
      failed := s.failed.eraseIdx i }
  | trigger {event additionData : ℕ} {stack : Mem} (he : event < 256 ^ T.ptrBytes) :
    Stepped s (.trigger event additionData stack)
      (notifyLoop T s (.trigger event additionData) stack).1
  | cancel {event : ℕ} {stack : Mem} :
    Stepped s (.cancel event stack) (notifyLoop T s (.cancel event) stack).1
  | looperExit {stack : Mem} : Stepped s (.looperExit stack) (notifyLoop T s .exit stack).1
  | post {i : ℕ} {p : Posting} {ok : Bool} (hi : s.posting[i]? = some p) :
    Stepped s (.post i ok) (postSem s i p ok)
  | setCallback {event cb : ℕ} :
    Stepped s (.setCallback event cb) (setEvent s event fun e => { e with cb })
  | setTimeout {event : ℕ} {timeout : UInt32} : Stepped s (.setTimeout event timeout)
      (setEvent s event fun e => { e with timeout := timeout.toNat })
  | setData {event dat : ℕ} :
    Stepped s (.setData event dat) (setEvent s event fun e => { e with dat })
  | time {t : UInt32} {s' : State} (hs : loopTime T s t.toNat = some s') : Stepped s (.time t) s'
  | woken {next now diff k : ℕ} (hpc : s.pc = .pend next now diff) (hsem : s.sem = some (k + 1)) :
    Stepped s (.pend true) { s with sem := some k, pc := .dequeue next }
  | slept {next now diff : ℕ} (hpc : s.pc = .pend next now diff) :
    Stepped s (.pend false) { s with pc := .top next }
  | step {s' : State} (hs : loopStep T s = some s') : Stepped s .step s'
  | ret {rc : UInt8} {s' : State} (hs : loopRet T s rc = some s') : Stepped s (.ret rc) s'

variable {T} {s s' : State}

theorem stepped_create (s : State) (lockOk semOk : Bool) :
    Stepped T s (.create lockOk semOk) (looperCreate s lockOk semOk) := by
  unfold looperCreate
  cases hlock : s.lock with
  | true => exact .refused hlock
  | false =>
    cases lockOk && semOk with
    | true => exact .create true hlock
    | false => exact .create false hlock

theorem stepped_pend {ok : Bool} (hs : loopPend s ok = some s') : Stepped T s (.pend ok) s' := by
  cases hpc : s.pc with
  | pend next now diff =>
    simp only [loopPend, hpc] at hs
    cases ok with
    | false =>
      cases hs
      exact .slept hpc
    | true =>
      rcases hsem : s.sem with _ | _ | k
      · simp [hsem] at hs
      · simp [hsem] at hs
      · simp only [hsem, if_true] at hs
        cases hs
        exact .woken hpc hsem
  | _ =>
    simp only [loopPend, hpc] at hs
    cases hs

theorem step_cases {a : Act} (hs : step T s a = some s') : Stepped T s a s' := by
  cases a with
  | create lockOk semOk =>
    cases hs
    exact stepped_create s lockOk semOk
  | loop =>
    cases hpc : s.pc with
    | idle =>
      simp only [step, hpc] at hs
      obtain ⟨hlock, hs⟩ := Option.ite_none_right_eq_some.mp hs
      cases hs
      exact .loop hpc hlock
    | _ =>
      simp only [step, hpc] at hs
      cases hs
  | register cb timeout dat stack =>
    cases hs
    exact .register
  | notify i =>
    obtain ⟨r, hi, hs⟩ := Option.bind_eq_some_iff.mp hs
    obtain ⟨-, hs⟩ := Option.ite_none_left_eq_some.mp hs
    cases hs
    exact .notify hi
  | putBack i =>
    obtain ⟨event, hi, hs⟩ := Option.bind_eq_some_iff.mp hs
    cases hs
    exact .putBack hi
  | trigger event additionData stack =>
    obtain ⟨⟨he, -⟩, hs⟩ := Option.ite_none_right_eq_some.mp hs
    obtain ⟨-, hs⟩ := Option.ite_none_left_eq_some.mp hs
    cases hs
    exact .trigger he
  | cancel event stack =>
    obtain ⟨-, hs⟩ := Option.ite_none_right_eq_some.mp hs
    obtain ⟨-, hs⟩ := Option.ite_none_left_eq_some.mp hs
    cases hs
    exact .cancel
  | looperExit stack =>
    obtain ⟨-, hs⟩ := Option.ite_none_left_eq_some.mp hs
    cases hs
    exact .looperExit
  | post i ok =>
    obtain ⟨p, hi, hs⟩ := Option.bind_eq_some_iff.mp hs
    cases hs
    exact .post hi
  | setCallback event cb =>
    obtain ⟨-, hs⟩ := Option.ite_none_right_eq_some.mp hs
    cases hs
    exact .setCallback
  | setTimeout event timeout =>
    obtain ⟨-, hs⟩ := Option.ite_none_right_eq_some.mp hs
    cases hs
    exact .setTimeout
  | setData event dat =>
    obtain ⟨-, hs⟩ := Option.ite_none_right_eq_some.mp hs
    cases hs
    exact .setData
  | time t => exact .time hs
  | pend ok => exact stepped_pend hs
  | step => exact .step hs
  | ret rc => exact .ret hs

theorem registerPop_eq (s : State) (cb timeout dat : ℕ) (stack : Mem) :
    ∃ links registering, registerPop T s cb timeout dat stack = { s with links, registering } := by
  unfold registerPop
  split_ifs
  · exact ⟨s.links, s.registering, rfl⟩
  · exact ⟨_, _, rfl⟩

theorem notifyLoop_eq (s : State) (call : Call) (stack : Mem) :
    (∃ rb accepted queue cmd, notifyLoop T s call stack =
      ({ s with rb, accepted, queue, posting := s.posting ++ [⟨call, cmd⟩] }, true)) ∨
    ∃ rb, notifyLoop T s call stack = ({ s with rb }, false) := by
  simp only [notifyLoop]
  split_ifs
  · exact .inr ⟨_, rfl⟩
  · exact .inl ⟨_, _, _, _, rfl⟩

theorem postSem_eq (s : State) (i : ℕ) (p : Posting) (ok : Bool) :
    ∃ sem failed returned, postSem s i p ok =
      { s with sem, failed, returned, posting := s.posting.eraseIdx i } := by
  unfold postSem
  split_ifs
  · exact ⟨_, _, _, rfl⟩
  · split <;> exact ⟨_, _, _, rfl⟩

end EmbeddedTemplate.Async
