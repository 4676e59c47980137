import Mathlib.Data.List.Basic
import Mathlib.Data.Nat.Notation

/-! An SPI slave with a shift register, in each of the four modes of clock polarity and phase.
Words are lists of bits in the order in which they are on the wire. -/
namespace SpiBus

/-- The idle level of the clock, and whether data is sampled at the first edge of a pulse. -/
structure Mode where
  idleHigh : Bool
  firstEdge : Bool
deriving DecidableEq, Repr

structure Levels where
  clk : Bool
  mosi : Bool
deriving DecidableEq, Repr

/-- `reg` is the shift register, its output end first, and `count` the number of bits shifted in
since it was loaded. `latch` is the flip-flop at the input of the register when data is sampled
at the first edge, and the one at its output otherwise. -/
structure Slave where
  mode : Mode
  clk : Bool
  reg : List Bool
  count : ℕ
  latch : Bool
  toSend : List (List Bool)
  received : List (List Bool)
deriving DecidableEq, Repr

namespace Slave

def select (mode : Mode) (words : List (List Bool)) : Slave :=
  ⟨mode, mode.idleHigh, words.headD [], 0, false, words.tail, []⟩

def miso (s : Slave) : Bool := if s.mode.firstEdge then s.reg.headD false else s.latch

def shiftIn (s : Slave) (b : Bool) : Slave :=
  if s.count + 1 = s.reg.length then
    { s with
      reg := s.toSend.headD (s.reg.tail ++ [b])
      count := 0
      toSend := s.toSend.tail
      received := s.received ++ [s.reg.tail ++ [b]] }
  else { s with reg := s.reg.tail ++ [b], count := s.count + 1 }

def feed (s : Slave) (l : Levels) : Slave :=
  if l.clk = s.clk then s
  else if l.clk = s.mode.idleHigh then
    { s.shiftIn (if s.mode.firstEdge then s.latch else l.mosi) with clk := l.clk }
  else { s with clk := l.clk, latch := if s.mode.firstEdge then l.mosi else s.reg.headD false }

theorem shiftIn_frame (s : Slave) (b : Bool) :
    (s.shiftIn b).mode = s.mode ∧ (s.shiftIn b).clk = s.clk ∧ (s.shiftIn b).latch = s.latch := by
  unfold shiftIn
  split <;> exact ⟨rfl, rfl, rfl⟩

/-- The clock is idle, the bits `out` of the word in the register are still to be driven and `inn`
has been sampled in their place. -/
structure Holds (s : Slave) (mode : Mode) (out inn : List Bool) (toSend received : List (List Bool)) :
    Prop where
  mode_eq : s.mode = mode
  clk : s.clk = mode.idleHigh
  reg : s.reg = out ++ inn
  count : s.count = inn.length
  toSend_eq : s.toSend = toSend
  received_eq : s.received = received

variable {s : Slave} {mode : Mode} {out inn : List Bool} {toSend received : List (List Bool)} {o v : Bool}

theorem holds_select (mode : Mode) (words : List (List Bool)) :
    (select mode words).Holds mode (words.headD []) [] words.tail [] :=
  ⟨rfl, rfl, (List.append_nil _).symm, rfl, rfl, rfl⟩

namespace Holds

/-- What the register holds when the bit `o` has been driven and `v` sampled. -/
theorem shiftIn (h : s.Holds mode (o :: out) inn toSend received) (v : Bool) :
    (out ≠ [] → (s.shiftIn v).Holds mode out (inn ++ [v]) toSend received) ∧
      (out = [] → (s.shiftIn v).Holds mode (toSend.headD (inn ++ [v])) [] toSend.tail
        (received ++ [inn ++ [v]])) := by
  obtain ⟨hmode, hclk, hreg, hcount, rfl, rfl⟩ := h
  constructor
  · intro hout
    have hlen : s.count + 1 ≠ s.reg.length := by
      have := List.length_pos_iff.mpr hout
      rw [hcount, hreg, List.length_append, List.length_cons]
      omega
    unfold Slave.shiftIn
    rw [if_neg hlen]
    constructor
    · exact hmode
    · exact hclk
    · simp [hreg]
    · simp [hcount]
    · rfl
    · rfl
  · rintro rfl
    have hlen : s.count + 1 = s.reg.length := by
      rw [hcount, hreg, List.length_append, List.length_singleton, Nat.add_comm]
    have htail : s.reg.tail = inn := by
      rw [hreg, List.singleton_append, List.tail_cons]
    unfold Slave.shiftIn
    rw [if_pos hlen, htail]
    constructor
    · exact hmode
    · exact hclk
    · exact (List.append_nil _).symm
    · rfl
    · rfl
    · rfl

theorem setLatch (h : s.Holds mode out inn toSend received) (b : Bool) :
    { s with latch := b }.Holds mode out inn toSend received :=
  ⟨h.mode_eq, h.clk, h.reg, h.count, h.toSend_eq, h.received_eq⟩

end Holds

theorem feed_of_clk_eq (s : Slave) {l : Levels} (h : l.clk = s.clk) : s.feed l = s := if_pos h

theorem shiftIn_setClk_setLatch (s : Slave) (c l b : Bool) :
    { s with clk := c, latch := l }.shiftIn b = { s.shiftIn b with clk := c, latch := l } := by
  unfold shiftIn
  split <;> rfl

theorem feed_leading (h : s.clk = s.mode.idleHigh) (v : Bool) :
    s.feed ⟨!s.mode.idleHigh, v⟩ =
      { s with clk := !s.mode.idleHigh, latch := if s.mode.firstEdge then v else s.reg.headD false } := by
  unfold feed
  simp [h]

theorem feed_trailing (h : s.clk = !s.mode.idleHigh) (v : Bool) :
    s.feed ⟨s.mode.idleHigh, v⟩ =
      { s.shiftIn (if s.mode.firstEdge then s.latch else v) with clk := s.mode.idleHigh } := by
  unfold feed
  simp [h]

theorem feed_pulse (h : s.clk = s.mode.idleHigh) (u v : Bool) :
    (s.feed ⟨!s.mode.idleHigh, u⟩).feed ⟨s.mode.idleHigh, v⟩ =
      { s.shiftIn (if s.mode.firstEdge then u else v) with
        latch := if s.mode.firstEdge then u else s.reg.headD false } := by
  obtain ⟨-, hclk, -⟩ := shiftIn_frame s (if s.mode.firstEdge then u else v)
  rw [feed_leading h]
  refine (feed_trailing ?_ v).trans ?_
  · rfl
  · rw [shiftIn_setClk_setLatch, ← h, ← hclk]
    cases hf : s.mode.firstEdge <;> rfl

namespace Holds

/-- A bit in the modes that sample at the first edge. -/
theorem pulse_firstEdge (h : s.Holds mode (o :: out) inn toSend received) (hf : mode.firstEdge = true)
    (v : Bool) :
    ((s.feed ⟨mode.idleHigh, v⟩).feed ⟨!mode.idleHigh, v⟩).miso = o ∧
      ((s.feed ⟨mode.idleHigh, v⟩).feed ⟨!mode.idleHigh, v⟩).feed ⟨mode.idleHigh, v⟩ =
        { s.shiftIn v with latch := v } := by
  obtain ⟨rfl, hclk, hreg, -, -, -⟩ := h
  rw [feed_of_clk_eq s hclk.symm]
  constructor
  · rw [feed_leading hclk]
    simp [miso, hf, hreg]
  · rw [feed_pulse hclk, hf]
    rfl

/-- A bit in the modes that sample at the second edge. -/
theorem pulse_secondEdge (h : s.Holds mode (o :: out) inn toSend received)
    (hf : mode.firstEdge = false) (u v : Bool) :
    (((s.feed ⟨!mode.idleHigh, u⟩).feed ⟨!mode.idleHigh, v⟩).feed ⟨mode.idleHigh, v⟩).miso = o ∧
      ((s.feed ⟨!mode.idleHigh, u⟩).feed ⟨!mode.idleHigh, v⟩).feed ⟨mode.idleHigh, v⟩ =
        { s.shiftIn v with latch := o } := by
  obtain ⟨rfl, hclk, hreg, -, -, -⟩ := h
  have hhigh : (s.feed ⟨!s.mode.idleHigh, u⟩).clk = !s.mode.idleHigh := by
    rw [feed_leading hclk]
  have hall : ((s.feed ⟨!s.mode.idleHigh, u⟩).feed ⟨!s.mode.idleHigh, v⟩).feed ⟨s.mode.idleHigh, v⟩ =
      { s.shiftIn v with latch := o } := by
    rw [feed_of_clk_eq (s.feed _) hhigh.symm, feed_pulse hclk, hf, hreg]
    rfl
  refine ⟨?_, hall⟩
  rw [hall]
  simp [miso, (shiftIn_frame s v).1, hf]

end Holds

end Slave

/-- The clock pulses in a sequence of levels after the levels `prev`. -/
def pulses (mode : Mode) : Levels → List Levels → ℕ
  | _, [] => 0
  | prev, l :: ls =>
    (if prev.clk = mode.idleHigh ∧ l.clk ≠ mode.idleHigh then 1 else 0) + pulses mode l ls

/-- The level of the clock from which the next edge samples. -/
def beforeSampling (mode : Mode) : Bool := if mode.firstEdge then mode.idleHigh else !mode.idleHigh

/-- MOSI changes only while the clock rests before an edge that samples: it is steady at every such
edge, and from there to the next edge. -/
def MosiSteady (mode : Mode) : Levels → List Levels → Prop
  | _, [] => True
  | prev, l :: ls =>
    (l.mosi ≠ prev.mosi → l.clk = prev.clk ∧ prev.clk = beforeSampling mode) ∧ MosiSteady mode l ls

theorem pulses_append (mode : Mode) (prev : Levels) (ls ks : List Levels) :
    pulses mode prev (ls ++ ks) = pulses mode prev ls + pulses mode (ls.getLastD prev) ks := by
  induction ls generalizing prev with
  | nil => simp [pulses]
  | cons l ls ih =>
    rw [List.cons_append, pulses, pulses, ih l, List.getLastD_cons, Nat.add_assoc]

theorem mosiSteady_append (mode : Mode) (prev : Levels) (ls ks : List Levels) :
    MosiSteady mode prev (ls ++ ks) ↔
      MosiSteady mode prev ls ∧ MosiSteady mode (ls.getLastD prev) ks := by
  induction ls generalizing prev with
  | nil => simp [MosiSteady]
  | cons l ls ih =>
    rw [List.cons_append, MosiSteady, MosiSteady, ih l, List.getLastD_cons, and_assoc]

end SpiBus
