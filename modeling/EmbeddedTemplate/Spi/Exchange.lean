import EmbeddedTemplate.Spi.Softspi

/-! What `softspi_transfer` exchanges with a slave that is set to the same mode. -/
namespace EmbeddedTemplate.Softspi
open SpiBus

def mode (flags : UInt8) : Mode := ⟨flags &&& Spi.clkIdleHigh != 0, flags &&& Spi.clkFirstEdge != 0⟩

def wire (flags b : UInt8) : List Bool :=
  if flags &&& Spi.lsbFirst != 0 then (Word.bits b).reverse else Word.bits b

/-- The bus from the moment on at which a slave with the bytes `m` to send is selected. -/
def Bus.attach (s : Bus) (m : List UInt8) : Bus :=
  { s with trace := [], slave := Slave.select (mode s.flags) (m.map (wire s.flags)) }

/-- A round of the loop that the flags ask for. -/
def bit (flags : UInt8) : Bool → Bus → Bool × Bus :=
  if flags &&& Spi.clkFirstEdge != 0 then bit1stEdge (flags &&& Spi.clkIdleHigh)
  else bit2stEdge (flags &&& Spi.clkIdleHigh)

def masks (flags : UInt8) : List UInt8 :=
  if flags &&& Spi.lsbFirst != 0 then masksLsbFirst else masksMsbFirst

theorem transmitByte_eq (s : Bus) (dat : UInt8) :
    transmitByte s dat = (true, transmitLoop (bit s.flags) dat (masks s.flags) 0 s) := by
  unfold transmitByte bit masks
  split_ifs <;> rfl

/-- Before a bit: the clock is idle, `n` pulses are over, the slave has the bits `out` of its word
still to drive, and `inn` of the master's. `l₀` are the levels at the start. -/
structure Ready (flags : UInt8) (l₀ : Levels) (s : Bus) (out inn : List Bool)
    (toSend received : List (List Bool)) (n : ℕ) : Prop where
  flags_eq : s.flags = flags
  slave : s.slave.Holds (mode flags) out inn toSend received
  clk : s.out.clk = (mode flags).idleHigh
  last : s.trace.getLastD l₀ = s.out
  pulses : SpiBus.pulses (mode flags) l₀ s.trace = n
  steady : MosiSteady (mode flags) l₀ s.trace

structure Round (flags : UInt8) (s s' : Bus) (v : Bool) : Prop where
  flags_eq : s'.flags = s.flags
  out : s'.out = ⟨(mode flags).idleHigh, v⟩
  slave : ∃ b, s'.slave = { s.slave.shiftIn v with latch := b }
  trace : ∃ ls, s'.trace = s.trace ++ ls ∧ ls.getLastD s.out = s'.out ∧
    SpiBus.pulses (mode flags) s.out ls = 1 ∧ MosiSteady (mode flags) s.out ls

variable {flags : UInt8} {l₀ : Levels} {s : Bus} {o : Bool} {out inn : List Bool}
  {toSend received : List (List Bool)} {n : ℕ}

theorem clk_active (flags : UInt8) : (0 == flags &&& Spi.clkIdleHigh) = !(mode flags).idleHigh := by
  have hall : ∀ b : UInt8, (0 == b) = !(b != 0) := by
    intro b
    rw [bne, Bool.not_not, Bool.beq_comm]
  exact hall _

theorem clk_rest (flags : UInt8) : (0 != flags &&& Spi.clkIdleHigh) = (mode flags).idleHigh :=
  bne_comm

theorem Ready.bit1stEdge (h : Ready flags l₀ s (o :: out) inn toSend received n)
    (hedge : (mode flags).firstEdge = true) (v : Bool) :
    (bit1stEdge (flags &&& Spi.clkIdleHigh) v s).1 = o ∧
      Round flags s (bit1stEdge (flags &&& Spi.clkIdleHigh) v s).2 v := by
  obtain ⟨hread, hslave⟩ := h.slave.pulse_firstEdge hedge v
  unfold Softspi.bit1stEdge
  rw [clk_active, clk_rest]
  simp only [Bus.setMosi, Bus.setClk, Bus.setPins, Bus.misoIsHigh, h.clk]
  refine ⟨hread, ?_⟩
  constructor
  · rfl
  · rfl
  · exact ⟨v, hslave⟩
  · refine ⟨[⟨(mode flags).idleHigh, v⟩, ⟨!(mode flags).idleHigh, v⟩, ⟨(mode flags).idleHigh, v⟩], ?_, rfl, ?_, ?_⟩
    · simp
    · simp [SpiBus.pulses, h.clk]
    · simp [MosiSteady, h.clk, beforeSampling, hedge]

theorem Ready.bit2stEdge (h : Ready flags l₀ s (o :: out) inn toSend received n)
    (hedge : (mode flags).firstEdge = false) (v : Bool) :
    (bit2stEdge (flags &&& Spi.clkIdleHigh) v s).1 = o ∧
      Round flags s (bit2stEdge (flags &&& Spi.clkIdleHigh) v s).2 v := by
  obtain ⟨hread, hslave⟩ := h.slave.pulse_secondEdge hedge s.out.mosi v
  unfold Softspi.bit2stEdge
  rw [clk_active, clk_rest]
  simp only [Bus.setMosi, Bus.setClk, Bus.setPins, Bus.misoIsHigh]
  refine ⟨hread, ?_⟩
  constructor
  · rfl
  · rfl
  · exact ⟨o, hslave⟩
  · refine ⟨[⟨!(mode flags).idleHigh, s.out.mosi⟩, ⟨!(mode flags).idleHigh, v⟩,
      ⟨(mode flags).idleHigh, v⟩], ?_, rfl, ?_, ?_⟩
    · simp
    · simp [SpiBus.pulses, h.clk]
    · simp [MosiSteady, beforeSampling, hedge]

theorem Ready.bit (h : Ready flags l₀ s (o :: out) inn toSend received n) (v : Bool) :
    (bit flags v s).1 = o ∧ Round flags s (bit flags v s).2 v := by
  unfold Softspi.bit
  split_ifs with hedge
  · exact h.bit1stEdge hedge v
  · exact h.bit2stEdge (Bool.eq_false_iff.mpr hedge) v

/-- A round moves the slave on by one bit, and by one word when that was the last one. -/
theorem Ready.round {s' : Bus} {v : Bool} (h : Ready flags l₀ s (o :: out) inn toSend received n)
    (hs : Round flags s s' v) :
    (out ≠ [] → Ready flags l₀ s' out (inn ++ [v]) toSend received (n + 1)) ∧
      (out = [] → Ready flags l₀ s' (toSend.headD (inn ++ [v])) [] toSend.tail
        (received ++ [inn ++ [v]]) (n + 1)) := by
  obtain ⟨b, hslave⟩ := hs.slave
  obtain ⟨ls, htrace, hlast, hpulse, hsteady⟩ := hs.trace
  obtain ⟨hmore, hfull⟩ := h.slave.shiftIn v
  have hall : ∀ {out' inn' toSend' received'},
      (s.slave.shiftIn v).Holds (mode flags) out' inn' toSend' received' →
        Ready flags l₀ s' out' inn' toSend' received' (n + 1) := by
    intro out' inn' toSend' received' hh
    constructor
    · rw [hs.flags_eq, h.flags_eq]
    · rw [hslave]
      exact hh.setLatch b
    · rw [hs.out]
    · rw [htrace, ← hlast, ← h.last]
      cases ls with
      | nil => simp
      | cons l ls => simp [List.getLastD_eq_getLast?, List.getLast?_append]
    · rw [htrace, pulses_append, h.last, h.pulses, hpulse]
    · rw [htrace, mosiSteady_append, h.last]
      exact ⟨h.steady, hsteady⟩
  exact ⟨fun hout => hall (hmore hout), fun hout => hall (hfull hout)⟩

theorem Ready.transmitLoop (h : Ready flags l₀ s out inn toSend received n) (dat : UInt8)
    {bs : List UInt8} (hlen : bs.length = out.length) (hne : out ≠ []) (r : UInt8) :
    (transmitLoop (Softspi.bit flags) dat bs r s).1 =
        (bs.zip out).foldl (fun r b => if b.2 then r ||| b.1 else r) r ∧
      Ready flags l₀ (transmitLoop (Softspi.bit flags) dat bs r s).2
        (toSend.headD (inn ++ bs.map (· &&& dat != 0))) [] toSend.tail
        (received ++ [inn ++ bs.map (· &&& dat != 0)]) (n + out.length) := by
  induction out generalizing s inn bs r n with
  | nil => exact absurd rfl hne
  | cons o out ih =>
    obtain ⟨b, bs, rfl⟩ := List.exists_cons_of_length_eq_add_one hlen
    obtain ⟨hread, hround⟩ := h.bit (b &&& dat != 0)
    obtain ⟨hmore, hfull⟩ := h.round hround
    simp only [Softspi.transmitLoop, hread, List.zip_cons_cons, List.foldl_cons, List.map_cons]
    by_cases hout : out = []
    · subst hout
      have hbs : bs = [] := List.length_eq_zero_iff.mp (Nat.succ_injective hlen)
      subst hbs
      exact ⟨rfl, hfull rfl⟩
    · have hrest := ih (hmore hout) (Nat.succ_injective hlen) hout (if o then r ||| b else r)
      simpa [List.append_assoc, Nat.add_assoc, Nat.add_comm 1] using hrest

theorem masksLsbFirst_eq : masksLsbFirst = masksMsbFirst.reverse := rfl

theorem masks_wire (flags dat : UInt8) : (masks flags).map (· &&& dat != 0) = wire flags dat := by
  have hmsb : masksMsbFirst.map (· &&& dat != 0) = Word.bits dat := by
    simp only [UInt8.and_comm _ dat]
    exact Word.map_masks dat
  unfold masks wire
  split_ifs
  · rw [masksLsbFirst_eq, List.map_reverse, hmsb]
  · exact hmsb

theorem masks_collect (flags b : UInt8) :
    ((masks flags).zip (wire flags b)).foldl (fun r b => if b.2 then r ||| b.1 else r) 0 = b := by
  have hmsb : ∀ b : UInt8, (masksMsbFirst.zip (Word.bits b)).foldl
      (fun r b => if b.2 then r ||| b.1 else r) 0 = b := by
    decide +kernel
  -- the order in which the bits are set does not matter
  have hcomm : ∀ (b₁ b₂ : UInt8 × Bool) (r : UInt8),
      (if b₂.2 then (if b₁.2 then r ||| b₁.1 else r) ||| b₂.1 else if b₁.2 then r ||| b₁.1 else r) =
        if b₁.2 then (if b₂.2 then r ||| b₂.1 else r) ||| b₁.1 else if b₂.2 then r ||| b₂.1 else r := by
    intro b₁ b₂ r
    split_ifs
    · rw [UInt8.or_assoc, UInt8.or_assoc, UInt8.or_comm b₁.1]
    · rfl
    · rfl
    · rfl
  unfold masks wire
  split_ifs
  · have hzip : masksLsbFirst.zip (Word.bits b).reverse = (masksMsbFirst.zip (Word.bits b)).reverse := by
      have hlen : masksMsbFirst.length = (Word.bits b).length := rfl
      rw [masksLsbFirst_eq]
      exact (List.reverse_zipWith hlen).symm
    rw [hzip]
    exact ((List.reverse_perm _).foldl_eq' (fun b₁ _ b₂ _ r => hcomm b₁ b₂ r) 0).trans (hmsb b)
  · exact hmsb b

theorem length_wire (flags b : UInt8) : (wire flags b).length = 8 := by
  unfold wire
  split_ifs <;> simp

theorem length_masks (flags : UInt8) : (masks flags).length = 8 := by
  unfold masks
  split_ifs <;> rfl

theorem Ready.transmitByte {m : UInt8} (h : Ready flags l₀ s (wire flags m) [] toSend received n)
    (dat : UInt8) :
    (transmitByte s dat).1 = true ∧ (transmitByte s dat).2.1 = m ∧
      Ready flags l₀ (transmitByte s dat).2.2 (toSend.headD (wire flags dat)) [] toSend.tail
        (received ++ [wire flags dat]) (n + 8) := by
  have hlen : (masks flags).length = (wire flags m).length := by
    rw [length_masks, length_wire]
  have hne : wire flags m ≠ [] := List.ne_nil_of_length_eq_add_one (length_wire flags m)
  obtain ⟨hread, hready⟩ := h.transmitLoop dat hlen hne 0
  rw [masks_collect] at hread
  rw [masks_wire, length_wire] at hready
  rw [transmitByte_eq, h.flags_eq]
  exact ⟨rfl, hread, hready⟩

/-- Any number of bytes, of which the slave has enough to answer. -/
theorem Ready.sendAndRecv {m w : List UInt8} {reg : List Bool} (hlen : w.length ≤ m.length) {i : ℕ}
    (hi : i + w.length < 2 ^ 16)
    (h : Ready flags l₀ s ((m.map (wire flags)).headD reg) [] (m.map (wire flags)).tail received n) :
    (Spi.sendAndRecv Softspi.transmitByte w i s).ret = i + w.length ∧
      (Spi.sendAndRecv Softspi.transmitByte w i s).r = m.take w.length ∧
      ∃ out toSend, Ready flags l₀ (Spi.sendAndRecv Softspi.transmitByte w i s).bus out [] toSend
        (received ++ w.map (wire flags)) (n + 8 * w.length) := by
  induction w generalizing m reg i s received n with
  | nil => exact ⟨rfl, rfl, _, _, by simpa [Spi.sendAndRecv] using h⟩
  | cons b w ih =>
    cases m with
    | nil => simp at hlen
    | cons m₀ m =>
      rw [List.length_cons] at hi
      obtain ⟨hok, hread, hnext⟩ := Ready.transmitByte h b
      have hwrap : Word.wrap 16 ((i : ℤ) + 1) = i + 1 := by
        exact_mod_cast Word.wrap_of_lt (show i + 1 < 2 ^ 16 by omega)
      obtain ⟨hret, hr, out, toSend, hready⟩ := ih (Nat.le_of_succ_le_succ hlen)
        (show i + 1 + w.length < 2 ^ 16 by omega) hnext
      simp only [Spi.sendAndRecv, hok, if_true, hread, hwrap]
      refine ⟨?_, ?_, out, toSend, ?_⟩
      · rw [hret, List.length_cons]
        omega
      · rw [hr, List.length_cons, List.take_succ_cons]
      · have hn : n + 8 + 8 * w.length = n + 8 * (w.length + 1) := by omega
        rwa [List.length_cons, List.map_cons, List.append_cons, ← hn]

theorem trace_setPins (s : Bus) (l : Levels) : s.trace <+: (s.setPins l).trace :=
  List.prefix_append _ _

theorem trace_bit (flags : UInt8) (v : Bool) (s : Bus) : s.trace <+: (bit flags v s).2.trace := by
  unfold bit
  split_ifs
  · exact ((trace_setPins _ _).trans (trace_setPins _ _)).trans (trace_setPins _ _)
  · exact ((trace_setPins _ _).trans (trace_setPins _ _)).trans (trace_setPins _ _)

theorem trace_transmitLoop (flags dat : UInt8) (bs : List UInt8) (r : UInt8) (s : Bus) :
    s.trace <+: (transmitLoop (bit flags) dat bs r s).2.trace := by
  induction bs generalizing r s with
  | nil => exact List.prefix_refl _
  | cons b bs ih => exact (trace_bit flags _ s).trans (ih _ _)

theorem trace_transmitByte (s : Bus) (dat : UInt8) : s.trace <+: (transmitByte s dat).2.2.trace := by
  rw [transmitByte_eq]
  exact trace_transmitLoop _ _ _ _ _

theorem trace_sendAndRecv (w : List UInt8) (i : ℕ) (s : Bus) :
    s.trace <+: (Spi.sendAndRecv transmitByte w i s).bus.trace := by
  induction w generalizing i s with
  | nil => exact List.prefix_refl _
  | cons b w ih =>
    have hbyte := trace_transmitByte s b
    unfold Spi.sendAndRecv
    dsimp only
    split_ifs
    · exact hbyte.trans (ih _ _)
    · exact hbyte

theorem trace_sendAndRecv_take (k : ℕ) (w : List UInt8) (i : ℕ) (s : Bus) :
    (Spi.sendAndRecv transmitByte (w.take k) i s).bus.trace <+:
      (Spi.sendAndRecv transmitByte w i s).bus.trace := by
  induction w generalizing k i s with
  | nil => simp
  | cons b w ih =>
    cases k with
    | zero => exact trace_sendAndRecv (b :: w) i s
    | succ k =>
      simp only [List.take_succ_cons, Spi.sendAndRecv]
      split_ifs
      · exact ih k _ _
      · exact List.prefix_refl _

theorem ready_attach (bus : Bus) (flags : UInt8) (m : List UInt8) :
    Ready flags (init bus flags).out ((init bus flags).attach m) ((m.map (wire flags)).headD []) []
      (m.map (wire flags)).tail [] 0 := by
  constructor
  · rfl
  · exact Slave.holds_select _ _
  · rfl
  · rfl
  · rfl
  · trivial

/-- In every mode and bit order a transfer exchanges the bytes with a slave set to the same mode:
eight pulses a byte, the clock idle after each of them, and MOSI steady where the slave samples it. -/
theorem transfer_exchanges (bus : Bus) (flags : UInt8) (w m : List UInt8) (hm : m.length = w.length)
    (hlen : w.length < 2 ^ 16) (tmp : UInt8) :
    let start := (init bus flags).attach m
    let result := transfer start true (some w) w.length tmp
    result.ret = w.length ∧ result.bus.slave.received = w.map (wire flags) ∧ result.r = m ∧
      MosiSteady (mode flags) start.out result.bus.trace ∧
      ∀ k ≤ w.length,
        let part := (transfer start true (some (w.take k)) k tmp).bus
        part.trace <+: result.bus.trace ∧ SpiBus.pulses (mode flags) start.out part.trace = 8 * k ∧
          part.out.clk = (mode flags).idleHigh := by
  intro start result
  have hstart := ready_attach bus flags m
  obtain ⟨hret, hr, _, _, hend⟩ := hstart.sendAndRecv hm.ge (show 0 + w.length < 2 ^ 16 by omega)
  refine ⟨hret.trans (Nat.zero_add _), hend.slave.received_eq, ?_, hend.steady, ?_⟩
  · rw [← hm, List.take_length] at hr
    exact hr
  · intro k hk part
    have hlk : (w.take k).length = k := List.length_take_of_le hk
    obtain ⟨-, -, _, _, hpart⟩ := hstart.sendAndRecv (w := w.take k) (i := 0)
      (by omega) (by omega)
    rw [hlk, Nat.zero_add] at hpart
    exact ⟨trace_sendAndRecv_take k w 0 start, hpart.pulses, hpart.clk⟩

/-- Two bytes, the least significant bit first, with the clock idle high. -/
theorem transfer_exchanges_two_bytes :
    (transfer ((init ⟨0, [false], ⟨false, false⟩, [], Slave.select ⟨false, false⟩ []⟩ 0x05).attach
      [0xC3, 0x01]) true (some [0x5A, 0x80]) 2 0).r = [0xC3, 0x01] :=
  (transfer_exchanges _ 0x05 [0x5A, 0x80] [0xC3, 0x01] rfl (by decide) 0).2.2.1

end EmbeddedTemplate.Softspi
