import EmbeddedTemplate.Lib.Transition
import EmbeddedTemplate.Lib.Word
import EmbeddedTemplate.Ringbuffer.Basic

/-! The serial receiver of `atcmd.c`, which splits the stream of the modem into reply lines
and TCP payload, and the task that polls the payload with `atcmd_recv_tcp`. -/
namespace EmbeddedTemplate

/-- The functions that `serial_recv` points to. -/
inductive Atcmd.Handler where
  | serialDefault
  | ipdLength
  | ipdContent
deriving DecidableEq

/-- `struct atcmd`, without the serial port output and the unused `serial_recv_info`. -/
structure Atcmd where
  autoPrefix : ℕ → UInt8
  autoPrefixIndex : ℕ
  ipdLength : ℕ
  ipdRecvIndex : ℕ
  ipdRb : Ringbuffer
  rb : Ringbuffer
  /-- count of `sem` -/
  sem : ℕ
  timeToDefault : ℕ
  serialRecv : Atcmd.Handler

namespace Atcmd

/-- A `struct atcmd` in static storage. -/
def zero : Atcmd where
  autoPrefix _ := 0
  autoPrefixIndex := 0
  ipdLength := 0
  ipdRecvIndex := 0
  ipdRb := Ringbuffer.init (fun _ => 0) 0
  rb := Ringbuffer.init (fun _ => 0) 0
  sem := 0
  timeToDefault := 0
  serialRecv := .serialDefault

def ipd : List UInt8 := [73, 80, 68]

def lineFeed : UInt8 := 10
def carriageReturn : UInt8 := 13
def colon : UInt8 := 58

/-- `atcmd_init`. The fields it does not set are those of `a`. -/
def init (a : Atcmd) (recvBuffer ipdBuffer : ℕ → UInt8) (recvLen ipdLen : UInt8) : Atcmd :=
  { a with
    autoPrefixIndex := 0
    serialRecv := .serialDefault
    rb := Ringbuffer.init recvBuffer recvLen.toNat
    ipdRb := Ringbuffer.init ipdBuffer ipdLen.toNat
    sem := 0 }

/-- `serial_recv_ipd_content`, with `now` the result of its `os_get_time`. -/
def serialRecvIpdContent (a : Atcmd) (b : UInt8) (now : ℕ) : Atcmd :=
  let a := { a with
    ipdRb := (a.ipdRb.put b 1).2
    timeToDefault := Word.wrap 32 (now + 20)
    ipdRecvIndex := Word.wrap 16 (a.ipdRecvIndex + 1) }
  if a.ipdLength ≤ a.ipdRecvIndex then { a with serialRecv := .serialDefault } else a

def serialRecvIpdLength (a : Atcmd) (b : UInt8) (now : ℕ) : Atcmd :=
  if b = colon then
    { a with
      ipdRecvIndex := 0
      timeToDefault := Word.wrap 32 (now + 20)
      serialRecv := .ipdContent }
  else if 48 ≤ b ∧ b ≤ 57 then
    let length := Word.wrap 16 (a.ipdLength * 10 : ℕ)
    { a with ipdLength := Word.wrap 16 (length + (b.toNat - 48) : ℕ) }
  else a

/-- The first bytes of the line, as far as `auto_prefix` keeps them. -/
def keepPrefix (a : Atcmd) (b : UInt8) : Atcmd :=
  if a.autoPrefixIndex < 5 then
    { a with
      autoPrefix := Function.update a.autoPrefix a.autoPrefixIndex b
      autoPrefixIndex := a.autoPrefixIndex + 1 }
  else a

def serialRecvSerialDefault (a : Atcmd) (b : UInt8) (now : ℕ) : Atcmd :=
  if b = lineFeed then
    { a with
      autoPrefixIndex := 0
      rb := (a.rb.put 0 1).2
      sem := a.sem + 1 }
  else if b ≠ carriageReturn then
    let a := keepPrefix a b
    if a.autoPrefixIndex = 3 ∧ (List.range 3).map a.autoPrefix = ipd then
      { a with
        rb := a.rb.clear
        serialRecv := .ipdLength
        ipdLength := 0
        autoPrefixIndex := 0
        timeToDefault := Word.wrap 32 (now + 50) }
    else { a with rb := (a.rb.put b 1).2 }
  else a

/-- The deadline check of `atcmd_recv_serial_byte`. -/
def checkDeadline (a : Atcmd) (t : ℕ) : Atcmd :=
  if a.serialRecv ≠ .serialDefault ∧ a.timeToDefault ≤ t then
    { a with serialRecv := .serialDefault }
  else a

/-- `atcmd->serial_recv(atcmd, b)`. -/
def callSerialRecv (a : Atcmd) (b : UInt8) (now : ℕ) : Atcmd :=
  match a.serialRecv with
  | .serialDefault => serialRecvSerialDefault a b now
  | .ipdLength => serialRecvIpdLength a b now
  | .ipdContent => serialRecvIpdContent a b now

/-- `atcmd_recv_serial_byte`, with the results of its two `os_get_time` calls. -/
def recvSerialByte (a : Atcmd) (b : UInt8) (t now : ℕ) : Atcmd :=
  callSerialRecv (checkDeadline a t) b now

/-- `struct atcmd_expect`: the expected start of a line, whether `recv_buff` is given, and
`buff_size`. -/
structure Expect where
  expect : Option {p : List UInt8 // 0 ∉ p}
  recvBuff : Bool
  buffSize : UInt16

def clearRecvBuffer (a : Atcmd) : Atcmd := { a with rb := a.rb.clear, sem := 0 }

/-- One round of the loop of `expect`: the pend and the read that follows it. A pend without
a token times out. -/
def expectRound (a : Atcmd) (exp : Expect) : Atcmd × Option Ringbuffer.PrefixResult :=
  if a.sem = 0 then (a, none)
  else
    let r := a.rb.readStringAndIsWithPrefix (exp.expect.map Subtype.val) exp.recvBuff exp.buffSize.toNat
    ({ a with sem := a.sem - 1, rb := r.rb }, some r)

/-- A running `atcmd_recv_tcp`. The local variable `read` is the length of `buff`, the part
of the caller's buffer that is filled. -/
structure Reader where
  buff : List UInt8
  len : ℕ
  deadline : ℕ

structure State where
  atcmd : Atcmd
  /-- bytes of the modem that have not arrived yet -/
  wire : List UInt8
  reader : Option Reader
  /-- bytes handed out by the `atcmd_recv_tcp` calls that have returned -/
  returned : List UInt8
  /-- the bytes that arrived and the handler each of them was given to -/
  handled : List (Handler × UInt8)

inductive Act where
  /-- `atcmd_recv_serial_byte` with the next byte of the modem -/
  | byte (t now : UInt32)
  | recvTcp (len : UInt16) (now timeout : UInt32)
  /-- one round of the loop of `atcmd_recv_tcp`, with the time it reads at its end -/
  | poll (t : UInt32)

def byteStep (s : State) (t now : ℕ) : Option State :=
  match s.wire with
  | [] => none
  | b :: wire => some { s with
    atcmd := recvSerialByte s.atcmd b t now
    wire
    handled := s.handled ++ [((checkDeadline s.atcmd t).serialRecv, b)] }

def pollStep (s : State) (r : Reader) (t : ℕ) : State :=
  let rd := s.atcmd.ipdRb.tryRead (Word.wrap 16 ((r.len : ℤ) - r.buff.length))
  let s := { s with atcmd := { s.atcmd with ipdRb := rd.rb } }
  let buff := r.buff ++ rd.bytes
  if r.len ≤ buff.length ∨ r.deadline ≤ t then
    { s with reader := none, returned := s.returned ++ buff }
  else { s with reader := some { r with buff } }

def step (s : State) : Act → Option State
  | .byte t now => byteStep s t.toNat now.toNat
  | .recvTcp len now timeout =>
    match s.reader with
    | some _ => none
    | none => some { s with
      reader := some ⟨[], len.toNat, Word.wrap 32 (now.toNat + timeout.toNat : ℕ)⟩ }
  | .poll t => s.reader.map fun r => pollStep s r t.toNat

end Atcmd
end EmbeddedTemplate
