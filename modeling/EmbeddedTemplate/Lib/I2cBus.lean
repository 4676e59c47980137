import Mathlib.Data.List.Basic

/-! Reading the two wires of an I2C bus. While SCL is high, a falling edge of SDA is a START
and a rising one a STOP; a high phase of SCL without such an edge carries one bit. -/
namespace I2cBus

inductive Event where
  | start
  | stop
  | bit (b : Bool)
deriving DecidableEq, Repr

structure Levels where
  sda : Bool
  scl : Bool
deriving DecidableEq, Repr

/-- An observer of the wires: the levels last seen, whether this high phase of SCL has been a
START or a STOP, and what it has read so far. -/
structure Decoder where
  last : Levels
  condition : Bool
  events : List Event
deriving DecidableEq, Repr

def idle : Decoder := ⟨⟨true, true⟩, false, []⟩

namespace Decoder

def feed (d : Decoder) (l : Levels) : Decoder :=
  match d.last.scl, l.scl with
  | true, true =>
    if d.last.sda = l.sda then { d with last := l }
    else ⟨l, true, d.events ++ [if l.sda then .stop else .start]⟩
  | true, false => ⟨l, false, if d.condition then d.events else d.events ++ [.bit d.last.sda]⟩
  | false, _ => ⟨l, false, d.events⟩

theorem feed_low {d : Decoder} (h : d.last.scl = false) (l : Levels) :
    d.feed l = ⟨l, false, d.events⟩ := by
  simp only [feed, h]

end Decoder

def decode (ls : List Levels) : List Event := (ls.foldl Decoder.feed idle).events

end I2cBus
