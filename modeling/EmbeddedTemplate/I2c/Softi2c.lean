import EmbeddedTemplate.Lib.I2cBus
import EmbeddedTemplate.Lib.Word

/-! The I2C master of `softi2c.c`, which drives SDA and SCL as open-drain outputs. -/
namespace EmbeddedTemplate.Softi2c
open I2cBus (Levels)

/-- The pins and the slave. `slave n` is the level at which the slave holds SDA during the
`n`-th clock pulse of `__onebit`; it never holds SCL. -/
structure Bus where
  out : Levels
  /-- the levels after each write to a pin, oldest first -/
  trace : List Levels
  slave : ℕ → Bool
  pulses : ℕ

namespace Bus

def idle (slave : ℕ → Bool) : Bus := ⟨⟨true, true⟩, [], slave, 0⟩

def setSda (s : Bus) (b : Bool) : Bus :=
  { s with out := { s.out with sda := b }, trace := s.trace ++ [{ s.out with sda := b }] }

def setScl (s : Bus) (b : Bool) : Bus :=
  { s with out := { s.out with scl := b }, trace := s.trace ++ [{ s.out with scl := b }] }

/-- `gpio_input_is_high` on SDA: the wire is low when one of the two pulls it down. -/
def sdaIsHigh (s : Bus) : Bool := s.out.sda && s.slave s.pulses

def start (s : Bus) : Bus := (((s.setScl true).setSda true).setSda false).setScl false

def stop (s : Bus) : Bus := ((s.setSda false).setScl true).setSda true

def restart (s : Bus) : Bus := (((s.setSda true).setScl true).setSda false).setScl false

/-- `__onebit`. Its loop over `timeout` only reads SCL, which nobody holds down. -/
def onebit (s : Bus) (bit : Bool) : Bool × Bus :=
  let s := (s.setSda bit).setScl true
  let bit := s.sdaIsHigh
  let s := s.setScl false
  (bit, { s with pulses := s.pulses + 1 })

end Bus

/-- The values of `bit` in the loop of `__onebyte`. -/
def masks : List UInt8 := [0x80, 0x40, 0x20, 0x10, 0x08, 0x04, 0x02, 0x01]

/-- `__start`, `__stop`, `__restart` and `__onebit` on pins of any kind. -/
structure Master (σ : Type) where
  start : σ → σ
  stop : σ → σ
  restart : σ → σ
  onebit : σ → Bool → Bool × σ

/-- Return value, the bytes stored through `r`, and the pins. -/
structure Result (σ : Type) where
  ret : ℕ
  r : List UInt8
  pins : σ

namespace Master
variable {σ : Type} (p : Master σ)

/-- The loop of `__onebyte`. -/
def onebyteLoop (dat : UInt8) : List UInt8 → UInt8 → σ → UInt8 × σ
  | [], ret, s => (ret, s)
  | bit :: bits, ret, s =>
    let r := p.onebit s (dat &&& bit != 0)
    onebyteLoop dat bits (if r.1 then ret ||| bit else ret) r.2

def onebyte (s : σ) (dat : UInt8) : UInt8 × σ := p.onebyteLoop dat masks 0 s

/-- The loop that writes: `written`, whether every byte was acknowledged, and the pins. -/
def writeLoop : List UInt8 → ℕ → σ → ℕ × Bool × σ
  | [], written, s => (written, true, s)
  | b :: w, written, s =>
    let s := (p.onebyte s b).2
    let r := p.onebit s true
    if r.1 then (written, false, r.2) else writeLoop w (Word.wrap 8 (written + 1)) r.2

/-- The loop that reads, with `n` rounds left: `readed`, the bytes stored through `r`. -/
def readLoop (rlen : ℕ) : ℕ → ℕ → σ → ℕ × List UInt8 × σ
  | 0, readed, s => (readed, [], s)
  | n + 1, readed, s =>
    let readed := Word.wrap 8 (readed + 1)
    let r := p.onebyte s 0xFF
    let s := (p.onebit r.2 (rlen ≤ readed)).2
    let rest := readLoop rlen n readed s
    (rest.1, r.1 :: rest.2.1, rest.2.2)

/-- From the label `__ret`. -/
def finish (written readed : ℕ) (r : List UInt8) (s : σ) : Result σ :=
  ⟨Word.wrap 8 (readed + written : ℕ), r, p.stop s⟩

/-- The second half of `softi2c_write_then_read`. -/
def readPart (s : σ) (addr : UInt8) (written rlen : ℕ) : Result σ :=
  if rlen ≠ 0 then
    let s := (p.onebyte s ((addr <<< 1) + 1)).2
    let r := p.onebit s true
    if r.1 then p.finish written 0 [] r.2
    else
      let rd := p.readLoop rlen rlen 0 r.2
      p.finish written rd.1 rd.2.1 rd.2.2
  else p.finish written 0 [] s

/-- `softi2c_write_then_read`. A NULL pointer has the effect of the length 0. -/
def writeThenRead (s : σ) (addr : UInt8) (w : List UInt8) (rlen : ℕ) : Result σ :=
  let s := p.start s
  if w.length ≠ 0 then
    let s := (p.onebyte s (addr <<< 1)).2
    let r := p.onebit s true
    if r.1 then p.finish 0 0 [] r.2
    else
      let (written, acked, s) := p.writeLoop w 0 r.2
      if acked then p.readPart (if rlen ≠ 0 then p.restart s else s) addr written rlen
      else p.finish written 0 [] s
  else p.readPart s addr 0 rlen

section
variable {p} {P G : σ → Prop} (hpg : ∀ s, P s → G s) (hbit : ∀ s b, G s → P (p.onebit s b).2)
  (hstop : ∀ s, P s → P (p.stop s)) (hrestart : ∀ s, P s → P (p.restart s)) {s : σ}
include hpg hbit

theorem onebyteLoop_inv (dat : UInt8) (bits : List UInt8) (ret : UInt8) (hs : G s) :
    G (p.onebyteLoop dat bits ret s).2 := by
  induction bits generalizing ret s with
  | nil => exact hs
  | cons bit bits ih => exact ih _ (hpg _ (hbit s _ hs))

theorem slot_inv (dat : UInt8) (b : Bool) (hs : G s) : P (p.onebit (p.onebyte s dat).2 b).2 :=
  hbit _ _ (onebyteLoop_inv hpg hbit dat masks 0 hs)

theorem writeLoop_inv (w : List UInt8) (written : ℕ) (hs : P s) : P (p.writeLoop w written s).2.2 := by
  induction w generalizing written s with
  | nil => exact hs
  | cons b w ih =>
    have hslot := slot_inv hpg hbit b true (hpg s hs)
    unfold writeLoop
    dsimp only
    split_ifs
    · exact hslot
    · exact ih _ hslot

theorem readLoop_inv (rlen n readed : ℕ) (hs : P s) : P (p.readLoop rlen n readed s).2.2 := by
  induction n generalizing readed s with
  | zero => exact hs
  | succ n ih => exact ih _ (slot_inv hpg hbit 0xFF _ (hpg s hs))

include hstop

theorem readPart_inv (addr : UInt8) (written : ℕ) {rlen : ℕ} (hg : G s) (hs : rlen = 0 → P s) :
    P (p.readPart s addr written rlen).pins := by
  have hslot := slot_inv hpg hbit ((addr <<< 1) + 1) true hg
  unfold readPart
  dsimp only
  split_ifs with hr hack
  · exact hstop _ hslot
  · exact hstop _ (readLoop_inv hpg hbit rlen rlen 0 hslot)
  · exact hstop _ (hs (not_not.mp hr))

include hrestart

/-- What every bit brings about and every step keeps holds at the end, when there is a bit. -/
theorem writeThenRead_inv (addr : UInt8) {w : List UInt8} {rlen : ℕ} (hs : G (p.start s))
    (hne : w ≠ [] ∨ rlen ≠ 0) : P (p.writeThenRead s addr w rlen).pins := by
  have hslot := slot_inv hpg hbit (addr <<< 1) true hs
  have hwrite := writeLoop_inv hpg hbit w 0 hslot
  unfold writeThenRead
  dsimp only
  split_ifs with hw hack hall hr
  · exact hstop _ hslot
  · exact readPart_inv hpg hbit hstop addr _ (hpg _ (hrestart _ hwrite)) fun _ => hrestart _ hwrite
  · exact readPart_inv hpg hbit hstop addr _ (hpg _ hwrite) fun _ => hwrite
  · exact hstop _ hwrite
  · have hempty : w = [] := List.length_eq_zero_iff.mp (not_not.mp hw)
    exact readPart_inv hpg hbit hstop addr _ hs fun hr => absurd hr (hne.resolve_left (not_not.mpr hempty))

end

end Master

/-- The master on a bus whose clock the slave never holds. -/
def Bus.master : Master Bus := ⟨Bus.start, Bus.stop, Bus.restart, Bus.onebit⟩

/-- `softi2c_write_then_read` on this bus. -/
def writeThenRead (s : Bus) (addr : UInt8) (w : List UInt8) (rlen : ℕ) : Result Bus :=
  Bus.master.writeThenRead s addr w rlen

end EmbeddedTemplate.Softi2c
