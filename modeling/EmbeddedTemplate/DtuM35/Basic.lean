import EmbeddedTemplate.Lib.ByteMem
import EmbeddedTemplate.Lib.Transition
import EmbeddedTemplate.Ringbuffer.Basic

/-! The command queue of `dtu_m35.c`: any number of tasks in `dtum35_tcp_write`,
`dtum35_tcp_connect` and `dtum35_tcp_disconnect`, and one task in `dtum35_run`. A step is a
critical section of a client or one access of `dtum35_run` to the semaphore or the queue. -/
namespace EmbeddedTemplate.DtuM35

open ByteMem

/-- How a target lays out the parameter records. In each of them the first pointer is at
offset 0. -/
structure Layout where
  ptrBytes : ℕ
  sendLenOff : ℕ
  sendTimeoutOff : ℕ
  sendRetOff : ℕ
  sendSize : ℕ
  connectPortOff : ℕ
  connectRetOff : ℕ
  connectSize : ℕ
  disconnectSize : ℕ
  /-- `sizeof(union cmd_param)` -/
  unionSize : ℕ
  send_le : sendRetOff + ptrBytes ≤ sendSize
  connect_le : connectRetOff + ptrBytes ≤ connectSize
  disconnect_le : ptrBytes ≤ disconnectSize
  send_union : sendSize ≤ unionSize
  connect_union : connectSize ≤ unionSize
  disconnect_union : disconnectSize ≤ unionSize
  union_lt : unionSize < 256

def Layout.lp64 : Layout where
  ptrBytes := 8
  sendLenOff := 8
  sendTimeoutOff := 12
  sendRetOff := 16
  sendSize := 24
  connectPortOff := 8
  connectRetOff := 16
  connectSize := 24
  disconnectSize := 8
  unionSize := 24
  send_le := Nat.le.refl
  connect_le := Nat.le.refl
  disconnect_le := Nat.le.refl
  send_union := by decide
  connect_union := by decide
  disconnect_union := by decide
  union_lt := by decide

inductive Cmd where
  | send (dat len timeout : ℕ)
  | connect (host port : ℕ)
  | disconnect

/-- The `handle` functions of `cmd_handle_maps`. -/
inductive Handle where
  | sendTcp
  | connectTcp
  | disconnectTcp
deriving DecidableEq

def cmdConnectTcp : UInt8 := 0
def cmdDisconnectTcp : UInt8 := 1
def cmdSendTcp : UInt8 := 2

variable (L : Layout)

structure HandleMap where
  cmd : UInt8
  paramLen : ℕ
  handle : Handle

def cmdHandleMaps : List HandleMap :=
  [⟨cmdSendTcp, L.sendSize, .sendTcp⟩, ⟨cmdConnectTcp, L.connectSize, .connectTcp⟩,
    ⟨cmdDisconnectTcp, L.disconnectSize, .disconnectTcp⟩]

def getCmdHandle (cmd : UInt8) : Option HandleMap := (cmdHandleMaps L).find? (·.cmd == cmd)

namespace Cmd

def code : Cmd → UInt8
  | .send _ _ _ => cmdSendTcp
  | .connect _ _ => cmdConnectTcp
  | .disconnect => cmdDisconnectTcp

/-- `sizeof(param)`. -/
def size : Cmd → ℕ
  | .send _ _ _ => L.sendSize
  | .connect _ _ => L.connectSize
  | .disconnect => L.disconnectSize

/-- The local variable `param`. The padding keeps the bytes of the stack. -/
def param (stack : Mem) (ret : ℕ) : Cmd → Mem
  | .send dat len timeout =>
    let m := store stack L.ptrBytes 0 dat
    let m := store m 2 L.sendLenOff len
    let m := store m 4 L.sendTimeoutOff timeout
    store m L.ptrBytes L.sendRetOff ret
  | .connect host port =>
    let m := store stack L.ptrBytes 0 host
    let m := store m 2 L.connectPortOff port
    store m L.ptrBytes L.connectRetOff ret
  | .disconnect => store stack L.ptrBytes 0 ret

def paramBytes (stack : Mem) (ret : ℕ) (c : Cmd) : List UInt8 :=
  (List.range (c.size L)).map (c.param L stack ret)

def info (c : Cmd) : List UInt8 := [c.code, UInt8.ofNat (c.size L)]

def record (stack : Mem) (ret : ℕ) (c : Cmd) : List UInt8 :=
  c.info L ++ c.paramBytes L stack ret

end Cmd

def Handle.retOff : Handle → ℕ
  | .sendTcp => L.sendRetOff
  | .connectTcp => L.connectRetOff
  | .disconnectTcp => 0

/-- `p->ret` of a handler, with `union cmd_param` filled from the queue. -/
def Handle.ret (h : Handle) (param : List UInt8) : ℕ :=
  load (fun i => param.getD i 0) L.ptrBytes (h.retOff L)

/-- The value of `ret` while the client waits. -/
def pending : UInt8 := 0x7F

/-- A running call of a client. It found enough space in its first critical section. -/
structure Client where
  cmd : Cmd
  /-- address of its local variable `ret` -/
  ret : ℕ
  stack : Mem
  /-- its second critical section is done -/
  waiting : Bool

def Client.record (c : Client) : List UInt8 := c.cmd.record L c.stack c.ret

/-- Where `dtum35_run` stands. -/
inductive Pc where
  /-- in `start_and_config_modem`, or waiting for a restart -/
  | config
  /-- at `os_pend_sem` -/
  | pend
  /-- at the `ringbuffer_read` of `cmd_info` -/
  | header
  /-- at the `ringbuffer_read` of `cmd_param` -/
  | param (cmd paramLen : UInt8)
  /-- in `handle_map->handle` -/
  | handle (h : Handle) (cmd paramLen : UInt8) (param : List UInt8)
  /-- at `_clear_rb` -/
  | clear

structure State where
  cmdRb : Ringbuffer
  /-- count of `cmd_sem` -/
  sem : ℕ
  pc : Pc
  /-- the `ret` variables of the clients, by address -/
  ret : ℕ → UInt8
  clients : List Client

inductive Act where
  /-- first critical section of a call and `ret = 0x7F` -/
  | call (cmd : Cmd) (ret : ℕ) (stack : Mem)
  /-- second critical section of client `i` -/
  | enqueue (i : ℕ)
  /-- client `i` sees its result -/
  | finish (i : ℕ)
  | config (ok : Bool)
  | pend (ok : Bool)
  | readHeader
  | readParam
  /-- the modem function returns `ok` -/
  | handle (ok : Bool)
  | clear

/-- After `dtum35_init`. -/
def init : State where
  cmdRb := Ringbuffer.init (fun _ => 0) 100
  sem := 0
  pc := .config
  ret _ := 0
  clients := []

/-- The running calls have their own stack frames, so their `ret` variables differ. -/
def callStep (s : State) (cmd : Cmd) (ret : ℕ) (stack : Mem) : Option State :=
  if ret < 256 ^ L.ptrBytes ∧ ret ∉ s.clients.map Client.ret then
    if s.cmdRb.getLeftSpace < cmd.size L + 2 then some s
    else some { s with
      ret := Function.update s.ret ret pending
      clients := s.clients ++ [⟨cmd, ret, stack, false⟩] }
  else none

/-- The results of the two writes are not looked at. -/
def enqueueStep (s : State) (i : ℕ) (c : Client) : Option State :=
  if c.waiting then none
  else
    let rb := (s.cmdRb.write (c.cmd.info L)).2
    let rb := (rb.write (c.cmd.paramBytes L c.stack c.ret)).2
    some { s with
      cmdRb := rb
      sem := s.sem + 1
      clients := s.clients.set i { c with waiting := true } }

def finishStep (s : State) (i : ℕ) (c : Client) : Option State :=
  if c.waiting ∧ s.ret c.ret ≠ pending then some { s with clients := s.clients.eraseIdx i }
  else none

/-- A time-out is only possible while the semaphore is 0. -/
def pendStep (s : State) (ok : Bool) : Option State :=
  match s.pc, ok, s.sem with
  | .pend, true, k + 1 => some { s with sem := k, pc := .header }
  | .pend, false, 0 => some { s with pc := .clear }
  | _, _, _ => none

/-- `ringbuffer_read` of `cmd_info` and the check of `param_len` against the union. -/
def readHeaderStep (s : State) : Option State :=
  match s.pc with
  | .header =>
    let r := s.cmdRb.read 2
    if r.ret ≠ 2 then some { s with cmdRb := r.rb, pc := .clear }
    else
      let cmd := r.bytes.getD 0 0
      let paramLen := r.bytes.getD 1 0
      if L.unionSize < paramLen.toNat then some { s with cmdRb := r.rb, pc := .clear }
      else some { s with cmdRb := r.rb, pc := .param cmd paramLen }
  | _ => none

/-- `ringbuffer_read` of `cmd_param` and the choice of the handler. -/
def readParamStep (s : State) : Option State :=
  match s.pc with
  | .param cmd paramLen =>
    let r := s.cmdRb.read paramLen.toNat
    let s := { s with cmdRb := r.rb }
    if r.ret ≠ paramLen.toNat then some { s with pc := .clear }
    else match getCmdHandle L cmd with
      | none => some { s with pc := .clear }
      | some m =>
        if paramLen.toNat ≠ m.paramLen then some { s with pc := .clear }
        else some { s with pc := .handle m.handle cmd paramLen r.bytes }
  | _ => none

/-- The `atcmd` functions answer 0 or 1. -/
def handleStep (s : State) (ok : Bool) : Option State :=
  match s.pc with
  | .handle h _ _ param => some { s with
    ret := Function.update s.ret (h.ret L param) (if ok then 1 else 0)
    pc := .pend }
  | _ => none

def step (s : State) : Act → Option State
  | .call cmd ret stack => callStep L s cmd ret stack
  | .enqueue i => s.clients[i]?.bind fun c => enqueueStep L s i c
  | .finish i => s.clients[i]?.bind fun c => finishStep s i c
  | .config ok =>
    match s.pc with
    | .config => some { s with pc := if ok then .pend else .config }
    | _ => none
  | .pend ok => pendStep s ok
  | .readHeader => readHeaderStep L s
  | .readParam => readParamStep L s
  | .handle ok => handleStep L s ok
  | .clear =>
    match s.pc with
    | .clear => some { s with cmdRb := s.cmdRb.clear, pc := .pend }
    | _ => none

end EmbeddedTemplate.DtuM35
