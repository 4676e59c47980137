import EmbeddedTemplate.Atcmd.Replies

/-! `atcmd_send_tcp` and `atcmd_send_tcp_cb`. A step is a stretch of code between two points
where a byte of the modem can arrive with an effect on the call: the two halves of
`clear_recv_buffer`, a `serial_send`, a call of `cb_get`, a reading of the clock, a pend, a
read from `rb`. -/
namespace EmbeddedTemplate.Atcmd.Send

open Ringbuffer (record)

/-- What the call does on the serial port, on the callback and on `rb`. -/
inductive Event where
  /-- one `serial_send` -/
  | sent (bytes : List UInt8)
  /-- the bytes of `buf` that a call of `cb_get` has answered for -/
  | got (bytes : List UInt8)
  /-- the bytes that a read has taken out of `rb` -/
  | line (bytes : List UInt8)
deriving DecidableEq

/-- `"AT+QISEND=%d"` -/
def qisend (len : ℕ) : List UInt8 :=
  [65, 84, 43, 81, 73, 83, 69, 78, 68, 61] ++ (Nat.toDigits 10 len).map fun c => UInt8.ofNat c.toNat

/-- `"SEND OK"` -/
def sendOk : List UInt8 := [83, 69, 78, 68, 32, 79, 75]
/-- `"SEND FAIL"` -/
def sendFail : List UInt8 := [83, 69, 78, 68, 32, 70, 65, 73, 76]
/-- `"ERROR"` -/
def error : List UInt8 := [69, 82, 82, 79, 82]

/-- Stores to the first elements of `buf`. -/
def fill (buf : ℕ → UInt8) (bytes : List UInt8) : ℕ → UInt8 := fun i => bytes.getD i (buf i)

/-- The string in `buf`. -/
def string (buf : ℕ → UInt8) : List UInt8 := ((List.range 20).map buf).takeWhile (· ≠ 0)

/-- `strcmp(s, buf) == 0`, which reads `buf` up to the end of `s` at most. -/
def strcmp (s : List UInt8) (buf : ℕ → UInt8) : Bool := (List.range (s.length + 1)).map buf = s ++ [0]

/-- What follows an `AT+QISEND`: the data of `atcmd_send_tcp` and its deadline, or `this_len`,
`sent` and `total_len`. -/
inductive Body where
  | tcp (dat : List UInt8) (deadline : ℕ)
  | cb (thisLen sent totalLen : ℕ)

inductive Caller where
  | tcp
  | cb (sent totalLen : ℕ)

inductive Pc where
  /-- `atcmd_send_tcp` at its first `os_get_time` -/
  | tcp (dat : List UInt8) (timeoutMs : ℕ)
  /-- `while (sent < total_len)` -/
  | top (sent totalLen : ℕ)
  /-- the two halves of `clear_recv_buffer`, which is called twice -/
  | clearRb (again : Bool) (body : Body)
  | clearSem (again : Bool) (body : Body)
  | command (body : Body)
  | carriageReturn (body : Body)
  /-- `os_sleep(250)` -/
  | sleep (body : Body)
  | data (body : Body)
  /-- `while (this_len-- > 0)` -/
  | pad (thisLen sent totalLen : ℕ)
  /-- `timeout = os_get_time() + 1000` -/
  | arm (sent totalLen : ℕ)
  /-- the reply loop at `t = os_get_time()` -/
  | reply (caller : Caller) (deadline : ℕ)
  /-- entry of `expect` -/
  | expect (caller : Caller) (deadline ms : ℕ)
  | expectTest (caller : Caller) (deadline stop now : ℕ)
  | pend (caller : Caller) (deadline stop : ℕ)
  | read (caller : Caller) (deadline stop : ℕ)
  /-- a line without the prefix: `now = os_get_time()` -/
  | expectNext (caller : Caller) (deadline stop : ℕ)
  /-- the three `strcmp` -/
  | compare (caller : Caller) (deadline : ℕ)
  | done (ret : Bool)

def Pc.returned : Pc → Option Bool
  | .done ret => some ret
  | .tcp _ _ | .top _ _ | .clearRb _ _ | .clearSem _ _ | .command _ | .carriageReturn _ | .sleep _
  | .data _ | .pad _ _ _ | .arm _ _ | .reply _ _ | .expect _ _ _ | .expectTest _ _ _ _
  | .pend _ _ _ | .read _ _ _ | .expectNext _ _ _ | .compare _ _ => none

structure State where
  atcmd : Atcmd
  buf : ℕ → UInt8
  pc : Pc
  /-- history -/
  log : List Event

inductive Act where
  /-- `atcmd_recv_serial_byte` in the interrupt -/
  | byte (b : UInt8) (t now : UInt32)
  | time (t : UInt32)
  /-- `cb_get` stores `stored` and returns `i` -/
  | get (stored : List UInt8) (i : UInt16)
  | pend (ok : Bool)
  /-- the call goes on -/
  | go

def State.send (s : State) (bytes : List UInt8) (pc : Pc) : State :=
  { s with pc, log := s.log ++ [.sent bytes] }

def Caller.leave : Caller → Pc
  | .tcp => .done true
  | .cb sent totalLen => .top sent totalLen

/-- `atcmd_send_tcp` at its entry, `none` for a null pointer. -/
def sendTcp (a : Atcmd) (buf : ℕ → UInt8) (dat : Option (List UInt8)) (timeoutMs : UInt32) : State where
  atcmd := a
  buf
  pc := match dat with
    | none => .done false
    | some dat => if dat.length ≤ 0 then .done false else .tcp dat timeoutMs.toNat
  log := []

/-- `atcmd_send_tcp_cb` at its entry, with whether `cb_get` is given. -/
def sendTcpCb (a : Atcmd) (buf : ℕ → UInt8) (cbGet : Bool) (totalLen : UInt16) : State where
  atcmd := a
  buf
  pc := if !cbGet || totalLen.toNat ≤ 0 then .done false else .top 0 totalLen.toNat
  log := []

def timeStep (s : State) (t : ℕ) : Option State :=
  match s.pc with
  | .tcp dat timeoutMs => some { s with
    buf := fill s.buf (qisend dat.length ++ [0])
    pc := .clearRb true (.tcp dat ((t + timeoutMs) % 2 ^ 32)) }
  | .arm sent totalLen => some { s with pc := .reply (.cb sent totalLen) ((t + 1000) % 2 ^ 32) }
  | .reply caller deadline =>
    if t < deadline then some { s with pc := .expect caller deadline (deadline - t) }
    else some { s with pc := caller.leave }
  | .expect caller deadline ms =>
    some { s with pc := .expectTest caller deadline ((t + ms) % 2 ^ 32) t }
  | .expectNext caller deadline stop => some { s with pc := .expectTest caller deadline stop t }
  | _ => none

/-- A call of `cb_get`, which is asked for `min(sizeof(buf), this_len)` bytes. -/
def getStep (s : State) (stored : List UInt8) (i : ℕ) : Option State :=
  match s.pc with
  | .data (.cb thisLen sent totalLen) =>
    if stored.length ≤ min 20 thisLen ∧ i ≤ min 20 thisLen then
      let buf := fill s.buf stored
      let bytes := (List.range i).map buf
      if i = 0 then some { s with buf, pc := .pad thisLen sent totalLen }
      else
        let pc := if 0 < thisLen - i then .data (.cb (thisLen - i) sent totalLen)
          else .pad (thisLen - i) sent totalLen
        some { s with buf, pc, log := s.log ++ [.got bytes, .sent bytes] }
    else none
  | _ => none

def pendStep (s : State) (ok : Bool) : Option State :=
  match s.pc with
  | .pend caller deadline stop =>
    if ok then
      if s.atcmd.sem = 0 then none
      else some { s with
        atcmd := { s.atcmd with sem := s.atcmd.sem - 1 }
        pc := .read caller deadline stop }
    else some { s with pc := .done false }
  | _ => none

def goStep (s : State) : Option State :=
  match s.pc with
  | .top sent totalLen =>
    if sent < totalLen then
      let thisLen := if 1320 < totalLen - sent then 1320 else totalLen - sent
      some { s with
        buf := fill s.buf (qisend thisLen ++ [0])
        pc := .clearRb true (.cb thisLen ((sent + thisLen) % 2 ^ 16) totalLen) }
    else some { s with pc := .done true }
  | .clearRb again body => some { s with
    atcmd := { s.atcmd with rb := s.atcmd.rb.clear }
    pc := .clearSem again body }
  | .clearSem again body => some { s with
    atcmd := { s.atcmd with sem := 0 }
    pc := if again then .clearRb false body else .command body }
  | .command body =>
    some (s.send (string s.buf) (if s.buf 0 = 0 then .sleep body else .carriageReturn body))
  | .carriageReturn body => some (s.send [Atcmd.carriageReturn] (.sleep body))
  | .sleep body => some { s with pc := .data body }
  | .data (.tcp dat deadline) => some (s.send dat (.reply .tcp deadline))
  | .pad thisLen sent totalLen =>
    if 0 < thisLen then some (s.send [0] (.pad (thisLen - 1) sent totalLen))
    else some { s with pc := .arm sent totalLen }
  | .expectTest caller deadline stop now =>
    if now < stop then some { s with pc := .pend caller deadline stop }
    else some { s with pc := .done false }
  | .read caller deadline stop =>
    let r := s.atcmd.rb.readStringAndIsWithPrefix (some []) true 20
    some { s with
      atcmd := { s.atcmd with rb := r.rb }
      buf := fill s.buf r.bytes
      log := s.log ++ [.line (record s.atcmd.rb.content)]
      pc := if r.ret then .compare caller deadline else .expectNext caller deadline stop }
  | .compare caller deadline =>
    if strcmp sendOk s.buf then some { s with pc := caller.leave }
    else if strcmp sendFail s.buf then some { s with pc := .done false }
    else if strcmp error s.buf then some { s with pc := .done false }
    else some { s with pc := .reply caller deadline }
  | _ => none

def step (s : State) : Act → Option State
  | .byte b t now => some { s with atcmd := recvSerialByte s.atcmd b t.toNat now.toNat }
  | .time t => timeStep s t.toNat
  | .get stored i => getStep s stored i.toNat
  | .pend ok => pendStep s ok
  | .go => goStep s

end EmbeddedTemplate.Atcmd.Send
