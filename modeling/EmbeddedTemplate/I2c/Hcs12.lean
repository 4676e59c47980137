import EmbeddedTemplate.Lib.Word

/-! The interrupt-driven I2C master of `hcs12_i2c.c`. -/
namespace EmbeddedTemplate

/-- What the driver does to the bus and to the caller's buffers. -/
inductive Hcs12I2c.Event where
  /-- a write to the data register -/
  | write (b : UInt8)
  /-- a repeated START, by the bit RSTA that always reads as 0 -/
  | restart
  /-- MS/SL is cleared -/
  | stop
  /-- a read of `tx_data[i]` -/
  | load (i : ℕ)
  /-- a store to `rx_data[i]` -/
  | store (i : ℕ) (b : UInt8)
deriving DecidableEq, Repr

/-- `struct hcs12_i2c` and the bits of the control register that the driver changes during
a transfer. -/
structure Hcs12I2c where
  txing : Bool
  rxing : Bool
  txingAddr : Bool
  txData : List UInt8
  txLength : ℕ
  txIndex : ℕ
  rxData : ℕ → UInt8
  rxLength : ℕ
  rxIndex : ℕ
  slaveAddr : UInt8
  /-- MS/SL -/
  master : Bool
  /-- TX/RX -/
  transmit : Bool
  txak : Bool
  log : List Hcs12I2c.Event

namespace Hcs12I2c

variable (s : Hcs12I2c)

def emit (ev : List Event) : Hcs12I2c := { s with log := s.log ++ ev }

/-- `control.Byte &= ~0x20`. -/
def stop : Hcs12I2c := { s.emit [.stop] with master := false }

/-- `dat.Byte = tx_data[i]`. -/
def sendData (i : ℕ) : Hcs12I2c := s.emit [.load i, .write (s.txData.getD i 0)]

/-- `rx_data[i] = dat.Byte`. -/
def storeData (i : ℕ) (dat : UInt8) : Hcs12I2c :=
  { s.emit [.store i dat] with rxData := Function.update s.rxData i dat }

/-- `start_rx_data`. The value read here is not a received byte. -/
def startRxData (dat : UInt8) : Hcs12I2c :=
  { s.storeData 0 dat with
    txak := decide (s.rxLength = 1)
    transmit := false
    rxIndex := 0
    rxing := true }

def startTxData : Hcs12I2c := { s.sendData 0 with txIndex := 0, txing := true }

/-- The part of `hcs12_i2c_isr` for an address that has been sent. -/
def isrAddr (rxak : Bool) (dat : UInt8) : Hcs12I2c :=
  let s := { s with txingAddr := false }
  if rxak then s.stop
  else if s.txIndex < s.txLength then s.startTxData
  else if s.rxIndex < s.rxLength then s.startRxData dat
  else s

def isrTx (rxak : Bool) : Hcs12I2c :=
  if rxak then { s with txing := false }.stop
  else
    let s := { s with txIndex := Word.wrap 8 (s.txIndex + 1) }
    if s.txLength ≤ s.txIndex then
      let s := { s with txing := false }
      if 0 < s.rxLength then
        { s.emit [.restart, .write ((s.slaveAddr <<< 1) ||| 0x01)] with txingAddr := true }
      else s.stop
    else s.sendData s.txIndex

def isrRx (dat : UInt8) : Hcs12I2c :=
  let s :=
    if s.rxLength = s.rxIndex + 2 then { s with txak := true }
    else if s.rxLength = s.rxIndex + 1 then { s.stop with rxing := false }
    else s
  { s.storeData s.rxIndex dat with rxIndex := Word.wrap 8 (s.rxIndex + 1) }

/-- `hcs12_i2c_isr` with the values of RXAK and of the data register that it finds. -/
def isr (input : Bool × UInt8) : Hcs12I2c :=
  if s.txingAddr then s.isrAddr input.1 input.2
  else if s.txing then s.isrTx input.1
  else if s.rxing then s.isrRx input.2
  else s

/-- After `hcs12_i2c_write_then_read` has acquired the driver, whose flags the last release
cleared, and `hcs12_i2c_start_and_tx_addr` has found the bus free and written the address. -/
def setUp (addr : UInt8) (w : List UInt8) (rxData : ℕ → UInt8) (rlen : ℕ) : Hcs12I2c where
  txing := false
  rxing := false
  txingAddr := true
  txData := w
  txLength := w.length
  txIndex := 0
  rxData
  rxLength := rlen
  rxIndex := 0
  slaveAddr := addr
  master := true
  transmit := true
  txak := false
  log := [.write (if w.length ≤ 0 then (addr <<< 1) ||| 0x01 else addr <<< 1)]

end Hcs12I2c
end EmbeddedTemplate
