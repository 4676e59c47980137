import EmbeddedTemplate.I2c.Softi2c
import Mathlib.Data.List.Infix

/-! The I2C master of `softi2c.c` with a slave that stretches the clock. -/
namespace EmbeddedTemplate.Softi2c
open I2cBus (Levels)

/-- One call of `__onebit`: the number of its clock pulse, and what its polls of SCL have seen before
SDA was sampled. -/
structure Sample where
  pulse : ℕ
  polls : List Bool
deriving DecidableEq, Repr

/-- The pins, and every call of `__onebit` so far. -/
structure Pins where
  bus : Bus
  samples : List Sample

/-- The polling loop of `__onebit` with `n` rounds left, when the slave keeps SCL low during the
first `held` polls. -/
def pollLoop (held : ℕ) : ℕ → ℕ → List Bool
  | 0, _ => []
  | n + 1, timeout =>
    let isHigh : Bool := held ≤ timeout
    if !isHigh then [isHigh] else isHigh :: pollLoop held n (timeout + 1)

/-- `__onebit` with a slave that keeps SCL low during the first `stretch n` polls of the `n`-th clock
pulse, and SDA at the level `early n` meanwhile. -/
def Pins.onebit (stretch : ℕ → ℕ) (early : ℕ → Bool) (s : Pins) (bit : Bool) : Bool × Pins :=
  let bus := (s.bus.setSda bit).setScl true
  let polls := pollLoop (stretch bus.pulses) 100 0
  let bit := if stretch bus.pulses ≤ polls.length then bus.sdaIsHigh else bus.out.sda && early bus.pulses
  let bus := bus.setScl false
  (bit, ⟨{ bus with pulses := bus.pulses + 1 }, s.samples ++ [⟨s.bus.pulses, polls⟩]⟩)

def stretched (stretch : ℕ → ℕ) (early : ℕ → Bool) : Master Pins where
  start s := { s with bus := s.bus.start }
  stop s := { s with bus := s.bus.stop }
  restart s := { s with bus := s.bus.restart }
  onebit := Pins.onebit stretch early

/-- Every bit is sampled after SCL was seen high, and a slave that stretches none of them is polled
once for each. -/
def Respected (stretch : ℕ → ℕ) (samples : List Sample) : Prop :=
  (∀ x ∈ samples, true ∈ x.polls) ∧
    ((∀ x ∈ samples, stretch x.pulse = 0) → ∀ x ∈ samples, x.polls.length ≤ 1)

theorem pollLoop_free (n timeout : ℕ) : pollLoop 0 n timeout = List.replicate n true := by
  induction n generalizing timeout with
  | zero => rfl
  | succ n ih => simp [pollLoop, ih, List.replicate_succ]

theorem pollLoop_eq (held : ℕ) :
    pollLoop held 100 0 = if held = 0 then List.replicate 100 true else [false] := by
  split_ifs with h
  · rw [h, pollLoop_free]
  · simp [pollLoop, h]

def Polled (stretch : ℕ → ℕ) (s : Pins) : Prop :=
  ∀ x ∈ s.samples, x.polls = pollLoop (stretch x.pulse) 100 0

section
variable {stretch : ℕ → ℕ} {early slave : ℕ → Bool}

theorem onebit_polled (s : Pins) (b : Bool) (h : Polled stretch s) :
    (Pins.onebit stretch early s b).2.samples ≠ [] ∧ Polled stretch (Pins.onebit stretch early s b).2 := by
  refine ⟨List.append_ne_nil_of_right_ne_nil _ (List.cons_ne_nil _ _), ?_⟩
  intro x hx
  rcases List.mem_append.mp hx with hx | hx
  · exact h x hx
  · rw [List.mem_singleton.mp hx]
    rfl

theorem writeThenRead_polled (addr : UInt8) {w : List UInt8} {rlen : ℕ} (hne : w ≠ [] ∨ rlen ≠ 0) :
    let s := ((stretched stretch early).writeThenRead ⟨Bus.idle slave, []⟩ addr w rlen).pins
    s.samples ≠ [] ∧ Polled stretch s :=
  Master.writeThenRead_inv (P := fun s => s.samples ≠ [] ∧ Polled stretch s) (fun _ h => h.2) onebit_polled
    (fun _ h => h) (fun _ h => h) addr (fun _ hx => absurd hx List.not_mem_nil) hne

theorem observed_iff {s : Pins} (h : Polled stretch s) :
    (∀ x ∈ s.samples, true ∈ x.polls) ↔ ∀ x ∈ s.samples, stretch x.pulse = 0 := by
  have hone : ∀ x ∈ s.samples, (true ∈ x.polls ↔ stretch x.pulse = 0) := by
    intro x hx
    rw [h x hx, pollLoop_eq]
    split_ifs with hz <;> simp [hz]
  constructor
  · intro hall x hx
    exact (hone x hx).mp (hall x hx)
  · intro hall x hx
    exact (hone x hx).mpr (hall x hx)

/-- A bit that is not stretched is polled a hundred times. -/
theorem length_polls {s : Pins} (h : Polled stretch s) {x : Sample} (hx : x ∈ s.samples)
    (hz : stretch x.pulse = 0) : x.polls.length = 100 := by
  rw [h x hx, pollLoop_eq, if_pos hz, List.length_replicate]

/-- Only a transaction without any bit respects the clock of the slave. -/
theorem clock_stretching_respected_iff (stretch : ℕ → ℕ) (early slave : ℕ → Bool) (addr : UInt8)
    (w : List UInt8) (rlen : ℕ) :
    Respected stretch
        ((stretched stretch early).writeThenRead ⟨Bus.idle slave, []⟩ addr w rlen).pins.samples ↔
      w = [] ∧ rlen = 0 := by
  constructor
  · rintro ⟨hhigh, hwait⟩
    by_contra hne
    have hbits : w ≠ [] ∨ rlen ≠ 0 := by
      rwa [not_and_or] at hne
    obtain ⟨hsome, hpolled⟩ := @writeThenRead_polled stretch early slave addr w rlen hbits
    have hfree := (observed_iff hpolled).mp hhigh
    obtain ⟨x, hx⟩ := List.exists_mem_of_ne_nil _ hsome
    have hlong := length_polls hpolled hx (hfree x hx)
    have hshort := hwait hfree x hx
    omega
  · rintro ⟨rfl, rfl⟩
    exact ⟨fun _ hx => absurd hx List.not_mem_nil, fun _ _ hx => absurd hx List.not_mem_nil⟩

/-- A slave that acknowledges every byte and keeps SCL low for three polls before the first
acknowledge is taken for absent. -/
theorem clock_stretching_ignored :
    let stretch := fun n => if n = 8 then 3 else 0
    let res := (stretched stretch fun _ => true).writeThenRead ⟨Bus.idle fun _ => false, []⟩ 0x50 [0x10] 0
    (∀ n, stretch n < 100) ∧ res.ret = 0 ∧ ¬ Respected stretch res.pins.samples := by
  refine ⟨?_, by decide +kernel, ?_⟩
  · intro n
    dsimp only
    split_ifs <;> decide
  · rintro ⟨hhigh, -⟩
    exact absurd (hhigh ⟨8, [false]⟩ (by decide +kernel)) (by decide)

end

end EmbeddedTemplate.Softi2c
