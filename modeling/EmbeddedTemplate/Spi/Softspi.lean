import EmbeddedTemplate.Lib.SpiBus
import EmbeddedTemplate.Lib.Word

/-! The transfers of `spi.c` and the SPI master of `softspi.c`, which drives the pins itself. -/
namespace EmbeddedTemplate

namespace Spi

def clkIdleHigh : UInt8 := 0x01

def clkFirstEdge : UInt8 := 0x02

def lsbFirst : UInt8 := 0x04

/-- Return value, the bytes stored through `r`, and the bus. -/
structure Result (σ : Type) where
  ret : ℕ
  r : List UInt8
  bus : σ

section
variable {σ : Type} (transmitByte : σ → UInt8 → Bool × UInt8 × σ)

/-- The loop of `send` over the bytes left at `w`. -/
def send : List UInt8 → ℕ → σ → Result σ
  | [], i, s => ⟨i, [], s⟩
  | tmp :: w, i, s =>
    let t := transmitByte s tmp
    if t.1 then send w (Word.wrap 16 (i + 1)) t.2.2 else ⟨i, [], t.2.2⟩

/-- The loop of `recv` with `n` rounds left. What it sends is the byte received last, and in the
first round whatever `tmp` contains. -/
def recv : ℕ → UInt8 → ℕ → σ → Result σ
  | 0, _, i, s => ⟨i, [], s⟩
  | n + 1, tmp, i, s =>
    let t := transmitByte s tmp
    if t.1 then
      let rest := recv n t.2.1 (Word.wrap 16 (i + 1)) t.2.2
      { rest with r := t.2.1 :: rest.r }
    else ⟨i, [], t.2.2⟩

/-- The loop of `send_and_recv` over the bytes left at `w`. -/
def sendAndRecv : List UInt8 → ℕ → σ → Result σ
  | [], i, s => ⟨i, [], s⟩
  | tmp :: w, i, s =>
    let t := transmitByte s tmp
    if t.1 then
      let rest := sendAndRecv w (Word.wrap 16 (i + 1)) t.2.2
      { rest with r := t.2.1 :: rest.r }
    else ⟨i, [], t.2.2⟩

/-- `spi_transfer_use_transmit_onebyte`. `r` says whether that pointer is given, `w` is none for
NULL and else the `len` bytes behind it, and `tmp` is what the stack contains. -/
def transferUseTransmitOnebyte (s : σ) (r : Bool) (w : Option (List UInt8)) (len : ℕ) (tmp : UInt8) :
    Result σ :=
  match r, w with
  | true, some w => sendAndRecv transmitByte w 0 s
  | true, none => recv transmitByte len tmp 0 s
  | false, some w => send transmitByte w 0 s
  | false, none => ⟨0, [], s⟩

end

end Spi

namespace Softspi
open SpiBus (Levels Slave)

/-- `flags` of `struct softspi`, the pins, and the slave. -/
structure Bus where
  flags : UInt8
  cs : List Bool
  out : Levels
  /-- the levels after each write to `clk` or `mosi`, oldest first -/
  trace : List Levels
  slave : Slave

namespace Bus

def setPins (s : Bus) (l : Levels) : Bus :=
  { s with out := l, trace := s.trace ++ [l], slave := s.slave.feed l }

def setClk (s : Bus) (b : Bool) : Bus := s.setPins { s.out with clk := b }

def setMosi (s : Bus) (b : Bool) : Bus := s.setPins { s.out with mosi := b }

/-- `gpio_input_is_high` on `miso`. -/
def misoIsHigh (s : Bus) : Bool := s.slave.miso

end Bus

def init (bus : Bus) (flags : UInt8) : Bus :=
  { bus with flags := flags, cs := bus.cs.map fun _ => true }.setClk (flags &&& Spi.clkIdleHigh != 0)

def bit1stEdge (clkIdleHigh : UInt8) (mosi : Bool) (s : Bus) : Bool × Bus :=
  let s := (s.setMosi mosi).setClk (0 == clkIdleHigh)
  (s.misoIsHigh, s.setClk (0 != clkIdleHigh))

def bit2stEdge (clkIdleHigh : UInt8) (mosi : Bool) (s : Bus) : Bool × Bus :=
  let s := ((s.setClk (0 == clkIdleHigh)).setMosi mosi).setClk (0 != clkIdleHigh)
  (s.misoIsHigh, s)

/-- The loop over the values of `b`. -/
def transmitLoop (bit : Bool → Bus → Bool × Bus) (dat : UInt8) : List UInt8 → UInt8 → Bus → UInt8 × Bus
  | [], r, s => (r, s)
  | b :: bs, r, s =>
    let t := bit (b &&& dat != 0) s
    transmitLoop bit dat bs (if t.1 then r ||| b else r) t.2

def masksMsbFirst : List UInt8 := [0x80, 0x40, 0x20, 0x10, 0x08, 0x04, 0x02, 0x01]

def masksLsbFirst : List UInt8 := [0x01, 0x02, 0x04, 0x08, 0x10, 0x20, 0x40, 0x80]

def transmit1stEdgeMsbFirst (s : Bus) (dat clkIdleHigh : UInt8) : UInt8 × Bus :=
  transmitLoop (bit1stEdge clkIdleHigh) dat masksMsbFirst 0 s

def transmit2stEdgeMsbFirst (s : Bus) (dat clkIdleHigh : UInt8) : UInt8 × Bus :=
  transmitLoop (bit2stEdge clkIdleHigh) dat masksMsbFirst 0 s

/-- `__transmit_1st_edge_lsb_first`, where `clk_idle_high` itself is the last level of a round. -/
def transmit1stEdgeLsbFirst (s : Bus) (dat clkIdleHigh : UInt8) : UInt8 × Bus :=
  transmitLoop (bit1stEdge clkIdleHigh) dat masksLsbFirst 0 s

def transmit2stEdgeLsbFirst (s : Bus) (dat clkIdleHigh : UInt8) : UInt8 × Bus :=
  transmitLoop (bit2stEdge clkIdleHigh) dat masksLsbFirst 0 s

/-- `softspi_transmit_byte`: the return value, the byte received, and the bus. -/
def transmitByte (s : Bus) (dat : UInt8) : Bool × UInt8 × Bus :=
  if s.flags &&& Spi.lsbFirst != 0 then
    if s.flags &&& Spi.clkFirstEdge != 0 then
      (true, transmit1stEdgeLsbFirst s dat (s.flags &&& Spi.clkIdleHigh))
    else (true, transmit2stEdgeLsbFirst s dat (s.flags &&& Spi.clkIdleHigh))
  else
    if s.flags &&& Spi.clkFirstEdge != 0 then
      (true, transmit1stEdgeMsbFirst s dat (s.flags &&& Spi.clkIdleHigh))
    else (true, transmit2stEdgeMsbFirst s dat (s.flags &&& Spi.clkIdleHigh))

def transfer (s : Bus) (r : Bool) (w : Option (List UInt8)) (len : ℕ) (tmp : UInt8) : Spi.Result Bus :=
  Spi.transferUseTransmitOnebyte transmitByte s r w len tmp

end Softspi

end EmbeddedTemplate
