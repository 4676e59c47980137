import EmbeddedTemplate.I2c.Softi2c

/-! What `softi2c_write_then_read` says on the bus, for every slave. -/
namespace EmbeddedTemplate.Softi2c
open I2cBus
open Word (bits)

/-- Whether the slave acknowledges the `k`-th byte on the bus. -/
def acked (slave : ℕ → Bool) (k : ℕ) : Bool := !slave (9 * k + 8)

/-- The byte that the slave drives in the `k`-th byte slot, most significant bit first. -/
def slaveByte (slave : ℕ → Bool) (k : ℕ) : UInt8 :=
  UInt8.ofNat ((List.range 8).foldl (fun n i => 2 * n + (slave (9 * k + i)).toNat) 0)

/-- The bytes up to and including the first one that is not acknowledged, where the first of
them is the `k`-th byte on the bus. -/
def sent (slave : ℕ → Bool) : ℕ → List UInt8 → List UInt8
  | _, [] => []
  | k, b :: bs => b :: if acked slave k then sent slave (k + 1) bs else []

/-- How many of `n` bytes from the `k`-th on are acknowledged before one is not. -/
def ackCount (slave : ℕ → Bool) : ℕ → ℕ → ℕ
  | _, 0 => 0
  | k, n + 1 => if acked slave k then ackCount slave (k + 1) n + 1 else 0

def slot (b : UInt8) (ack : Bool) : List Event := (bits b).map .bit ++ [.bit ack]

def toWrite (addr : UInt8) (w : List UInt8) : List UInt8 := if w = [] then [] else (addr <<< 1) :: w

def Reads (slave : ℕ → Bool) (addr : UInt8) (w : List UInt8) (rlen : ℕ) : Prop :=
  ackCount slave 0 (toWrite addr w).length = (toWrite addr w).length ∧ rlen ≠ 0

instance (slave : ℕ → Bool) (addr : UInt8) (w : List UInt8) (rlen : ℕ) :
    Decidable (Reads slave addr w rlen) := inferInstanceAs (Decidable (_ ∧ _))

/-- The slots of `rlen` bytes that the slave drives: the master leaves SDA alone and
acknowledges all but the last. -/
def readSlots (rlen : ℕ) : List Event := (List.range rlen).flatMap fun j => slot 0xFF (j + 1 = rlen)

def transfer (slave : ℕ → Bool) (addr : UInt8) (w : List UInt8) (rlen : ℕ) : List Event :=
  [.start] ++ (sent slave 0 (toWrite addr w)).flatMap (slot · true) ++
    (if Reads slave addr w rlen then
      (if w = [] then [] else [.start]) ++ slot ((addr <<< 1) + 1) true ++
        if acked slave (toWrite addr w).length then readSlots rlen else []
    else []) ++ [.stop]

def Bus.view (s : Bus) : Decoder := s.trace.foldl Decoder.feed I2cBus.idle

@[simp] theorem view_setSda (s : Bus) (b : Bool) :
    (s.setSda b).view = s.view.feed { s.out with sda := b } := by
  simp [Bus.view, Bus.setSda]

@[simp] theorem view_setScl (s : Bus) (b : Bool) :
    (s.setScl b).view = s.view.feed { s.out with scl := b } := by
  simp [Bus.view, Bus.setScl]

@[simp] theorem out_setSda (s : Bus) (b : Bool) : (s.setSda b).out = { s.out with sda := b } := rfl
@[simp] theorem out_setScl (s : Bus) (b : Bool) : (s.setScl b).out = { s.out with scl := b } := rfl

/-- SCL is low, `ev` has been read and `n` clock pulses are over. -/
structure Low (slave : ℕ → Bool) (s : Bus) (ev : List Event) (n : ℕ) : Prop where
  scl : s.out.scl = false
  seen : s.view.last.scl = false
  events : s.view.events = ev
  pulses : s.pulses = n
  slave_eq : s.slave = slave

variable {slave : ℕ → Bool} {s : Bus} {ev : List Event} {n : ℕ}

theorem start_low (slave : ℕ → Bool) : Low slave (Bus.master.start (Bus.idle slave)) [.start] 0 :=
  ⟨rfl, rfl, rfl, rfl, rfl⟩

namespace Low

theorem restart (h : Low slave s ev n) : Low slave (Bus.master.restart s) (ev ++ [.start]) n := by
  obtain ⟨hscl, hseen, rfl, hp, hsl⟩ := h
  have hview : (Bus.master.restart s).view = ⟨⟨false, false⟩, false, s.view.events ++ [.start]⟩ := by
    simp only [Bus.master, Bus.restart, view_setSda, view_setScl, out_setSda, out_setScl, hscl]
    rw [Decoder.feed_low hseen]
    rfl
  exact ⟨rfl, by rw [hview], by rw [hview], hp, hsl⟩

theorem stop (h : Low slave s ev n) :
    (Bus.master.stop s).view.events = ev ++ [.stop] ∧ (Bus.master.stop s).out = ⟨true, true⟩ := by
  obtain ⟨hscl, hseen, rfl, -, -⟩ := h
  refine ⟨?_, rfl⟩
  simp only [Bus.master, Bus.stop, view_setSda, view_setScl, out_setSda, out_setScl, hscl]
  rw [Decoder.feed_low hseen]
  rfl

theorem onebit (h : Low slave s ev n) (b : Bool) :
    Low slave (Bus.master.onebit s b).2 (ev ++ [.bit b]) (n + 1) ∧ (Bus.master.onebit s b).1 = (b && slave n) := by
  obtain ⟨hscl, hseen, rfl, rfl, rfl⟩ := h
  have hview : (Bus.master.onebit s b).2.view = ⟨⟨b, false⟩, false, s.view.events ++ [.bit b]⟩ := by
    change (((s.setSda b).setScl true).setScl false).view = _
    simp only [view_setSda, view_setScl, out_setSda, out_setScl, hscl]
    rw [Decoder.feed_low hseen]
    rfl
  exact ⟨⟨rfl, by rw [hview], by rw [hview], rfl, rfl⟩, rfl⟩

theorem onebyteLoop (h : Low slave s ev n) (dat : UInt8) (ms : List UInt8) (ret : UInt8) :
    Low slave (Bus.master.onebyteLoop dat ms ret s).2
        (ev ++ ms.map fun m => .bit (dat &&& m != 0)) (n + ms.length) ∧
      (Bus.master.onebyteLoop dat ms ret s).1 =
        (ms.zipIdx n).foldl
          (fun ret m => if (dat &&& m.1 != 0) && slave m.2 then ret ||| m.1 else ret) ret := by
  induction ms generalizing s ev n ret with
  | nil => simpa [Master.onebyteLoop] using h
  | cons m ms ih =>
    obtain ⟨hlow, hread⟩ := h.onebit (dat &&& m != 0)
    obtain ⟨hrest, hret⟩ := ih hlow (if (Bus.master.onebit s (dat &&& m != 0)).1 then ret ||| m else ret)
    constructor
    · simpa [Master.onebyteLoop, Nat.add_assoc, Nat.add_comm 1] using hrest
    · simp only [Master.onebyteLoop, List.zipIdx_cons, List.foldl_cons]
      rw [hret, hread]

theorem onebyte (h : Low slave s ev n) (dat : UInt8) :
    Low slave (Bus.master.onebyte s dat).2 (ev ++ (bits dat).map .bit) (n + 8) := by
  have hbits : masks.map (fun m => Event.bit (dat &&& m != 0)) = (bits dat).map .bit := by
    rw [← Word.map_masks, List.map_map]
    rfl
  have hlow := (h.onebyteLoop dat masks 0).1
  rwa [hbits] at hlow

theorem onebyte_read {k : ℕ} (h : Low slave s ev (9 * k)) : (Bus.master.onebyte s 0xFF).1 = slaveByte slave k := by
  have hread := (h.onebyteLoop 0xFF masks 0).2
  have hall : ∀ b₀ b₁ b₂ b₃ b₄ b₅ b₆ b₇ : Bool,
      (masks.zip [b₀, b₁, b₂, b₃, b₄, b₅, b₆, b₇]).foldl
          (fun ret m => if (0xFF &&& m.1 != 0) && m.2 then ret ||| m.1 else ret) 0 =
        UInt8.ofNat ([b₀, b₁, b₂, b₃, b₄, b₅, b₆, b₇].foldl (fun n b => 2 * n + b.toNat) 0) := by
    decide +kernel
  exact hread.trans (hall (slave (9 * k)) (slave (9 * k + 1)) (slave (9 * k + 2)) (slave (9 * k + 3))
    (slave (9 * k + 4)) (slave (9 * k + 5)) (slave (9 * k + 6)) (slave (9 * k + 7)))

/-- A byte of the master and the level at which the slave holds SDA in its acknowledge slot. -/
theorem write_slot {k : ℕ} (h : Low slave s ev (9 * k)) (b : UInt8) :
    Low slave (Bus.master.onebit (Bus.master.onebyte s b).2 true).2 (ev ++ slot b true) (9 * (k + 1)) ∧
      (Bus.master.onebit (Bus.master.onebyte s b).2 true).1 = !acked slave k := by
  obtain ⟨hlow, hack⟩ := (h.onebyte b).onebit true
  rw [List.append_assoc] at hlow
  refine ⟨hlow, ?_⟩
  rw [hack, acked, Bool.true_and, Bool.not_not]

/-- The loop that writes stops behind the first byte that is not acknowledged. -/
theorem writeLoop {k : ℕ} (h : Low slave s ev (9 * k)) (w : List UInt8) {written : ℕ}
    (hw : written + w.length ≤ 255) :
    let r := Bus.master.writeLoop w written s
    Low slave r.2.2 (ev ++ (sent slave k w).flatMap (slot · true)) (9 * (k + (sent slave k w).length)) ∧
      r.1 = written + ackCount slave k w.length ∧
      (r.2.1 = true ↔ ackCount slave k w.length = w.length) := by
  induction w generalizing s ev k written with
  | nil => simpa [Master.writeLoop, sent, ackCount] using h
  | cons b w ih =>
    rw [List.length_cons] at hw
    obtain ⟨hlow, hack⟩ := h.write_slot b
    simp only [Master.writeLoop, hack]
    cases ha : acked slave k with
    | false => simpa [sent, ackCount, ha] using hlow
    | true =>
      have hnext : Word.wrap 8 ((written : ℤ) + 1) = written + 1 :=
        @Word.wrap_of_lt 8 (written + 1) (by omega)
      have hk : k + ((sent slave (k + 1) w).length + 1) = k + 1 + (sent slave (k + 1) w).length := by
        omega
      obtain ⟨hl, hr, hall⟩ := ih hlow (show written + 1 + w.length ≤ 255 by omega)
      simp only [Bool.not_true, Bool.false_eq_true, if_false, hnext, sent, ha, if_true, ackCount,
        List.flatMap_cons, List.length_cons]
      refine ⟨?_, ?_, ?_⟩
      · rw [← List.append_assoc, hk]
        exact hl
      · rw [hr]
        omega
      · rw [hall]
        omega

theorem readLoop {rlen : ℕ} (hlen : rlen ≤ 255) {readed m k : ℕ} (hm : readed + m = rlen)
    (h : Low slave s ev (9 * k)) :
    let r := Bus.master.readLoop rlen m readed s
    (∃ n', Low slave r.2.2
        (ev ++ (List.range m).flatMap fun j => slot 0xFF (readed + j + 1 = rlen)) n') ∧
      r.1 = rlen ∧ r.2.1 = (List.range m).map fun j => slaveByte slave (k + j) := by
  induction m generalizing s ev k readed with
  | zero => exact ⟨⟨_, by simpa [Master.readLoop] using h⟩, hm, rfl⟩
  | succ m ih =>
    have hnext : Word.wrap 8 ((readed : ℤ) + 1) = readed + 1 :=
      @Word.wrap_of_lt 8 (readed + 1) (by omega)
    have hread := h.onebyte_read
    have hlow := ((h.onebyte 0xFF).onebit (rlen ≤ readed + 1)).1
    rw [List.append_assoc] at hlow
    obtain ⟨⟨n', hl⟩, hr, hb⟩ := ih (show readed + 1 + m = rlen by omega) (k := k + 1) hlow
    have hlast : decide (rlen ≤ readed + 1) = decide (readed + 0 + 1 = rlen) := by
      rw [decide_eq_decide]
      omega
    have hshift : ∀ j, readed + 1 + j + 1 = readed + (j + 1) + 1 := by
      intro j
      omega
    simp only [Master.readLoop, hnext, hr, hb, hread]
    refine ⟨⟨n', ?_⟩, trivial, ?_⟩
    · rw [List.range_succ_eq_map, List.flatMap_cons, List.flatMap_map, ← List.append_assoc, ← hlast]
      simp only [hshift] at hl
      exact hl
    · rw [List.range_succ_eq_map, List.map_cons, List.map_map]
      simp only [Function.comp_def, Nat.add_zero, Nat.succ_eq_add_one, Nat.add_assoc, Nat.add_comm 1]

end Low

theorem finish_spec (h : Low slave s ev n) (written readed : ℕ) (r : List UInt8)
    (hlen : readed + written ≤ 255) :
    let res := Bus.master.finish written readed r s
    decode res.pins.trace = ev ++ [.stop] ∧ res.pins.out = ⟨true, true⟩ ∧ res.ret = readed + written ∧
      res.r = r := by
  obtain ⟨hev, hout⟩ := h.stop
  exact ⟨hev, hout, Word.wrap_of_lt (show readed + written < 2 ^ 8 by omega), rfl⟩

theorem readPart_spec {k : ℕ} (h : Low slave s ev (9 * k)) (addr : UInt8) {written rlen : ℕ}
    (hlen : rlen + written ≤ 255) :
    let res := Bus.master.readPart s addr written rlen
    decode res.pins.trace = ev ++ (if rlen ≠ 0 then
          slot ((addr <<< 1) + 1) true ++ if acked slave k then readSlots rlen else []
        else []) ++ [.stop] ∧
      res.pins.out = ⟨true, true⟩ ∧
      res.ret = (if rlen ≠ 0 ∧ acked slave k = true then rlen else 0) + written ∧
      res.r = if rlen ≠ 0 ∧ acked slave k = true then
        (List.range rlen).map fun j => slaveByte slave (k + 1 + j) else [] := by
  unfold Master.readPart
  by_cases hr : rlen ≠ 0
  · obtain ⟨hlow, hack⟩ := h.write_slot ((addr <<< 1) + 1)
    simp only [if_pos hr, hack]
    cases ha : acked slave k with
    | false =>
      have hfin := finish_spec hlow written 0 [] (by omega)
      simpa using hfin
    | true =>
      obtain ⟨⟨n', hl⟩, hn, hb⟩ := hlow.readLoop (show rlen ≤ 255 by omega) (Nat.zero_add rlen)
      have hfin := finish_spec hl written rlen
        ((List.range rlen).map fun j => slaveByte slave (k + 1 + j)) hlen
      simp only [Bool.not_true, Bool.false_eq_true, if_false, hn, hb]
      simpa [readSlots, hr] using hfin
  · have hz : rlen = 0 := not_not.mp hr
    have hfin := finish_spec h written 0 [] (by omega)
    simpa [hz] using hfin

theorem ackCount_le (slave : ℕ → Bool) (k n : ℕ) : ackCount slave k n ≤ n := by
  induction n generalizing k with
  | zero => exact Nat.le_refl 0
  | succ n ih =>
    have hrest := ih (k + 1)
    rw [ackCount]
    split_ifs
    · omega
    · omega

theorem sent_of_all {k : ℕ} {w : List UInt8} (h : ackCount slave k w.length = w.length) :
    sent slave k w = w := by
  induction w generalizing k with
  | nil => rfl
  | cons b w ih =>
    rw [List.length_cons, ackCount] at h
    by_cases ha : acked slave k = true
    · rw [if_pos ha] at h
      rw [sent, if_pos ha, ih (by omega)]
    · rw [if_neg ha] at h
      omega

/-- For every slave, address, list of bytes to write and number of bytes to read: the pins say
the transfer of the protocol, the bus is left idle, the bytes stored are those the slave drove,
and the result counts the acknowledged data bytes and the bytes read. -/
theorem writeThenRead_waveform (slave : ℕ → Bool) (addr : UInt8) {w : List UInt8} {rlen : ℕ}
    (hlen : w.length + rlen ≤ 255) :
    let res := writeThenRead (Bus.idle slave) addr w rlen
    let k := (toWrite addr w).length
    decode res.pins.trace = transfer slave addr w rlen ∧ res.pins.out = ⟨true, true⟩ ∧
      res.ret = (ackCount slave 0 k - 1) +
        (if Reads slave addr w rlen ∧ acked slave k = true then rlen else 0) ∧
      res.r = if Reads slave addr w rlen ∧ acked slave k = true then
        (List.range rlen).map fun j => slaveByte slave (k + 1 + j) else [] := by
  have hstart := start_low slave
  cases w with
  | nil =>
    have hread := readPart_spec (k := 0) hstart addr (show rlen + 0 ≤ 255 by simpa using hlen)
    simpa [transfer, toWrite, sent, Reads, ackCount, writeThenRead, Master.writeThenRead] using hread
  | cons b w =>
    have hk : toWrite addr (b :: w) = (addr <<< 1) :: b :: w := rfl
    obtain ⟨hlow, hack⟩ := Low.write_slot (k := 0) hstart (addr <<< 1)
    simp only [writeThenRead, Master.writeThenRead, hack, hk, transfer, Reads, List.length_cons]
    rw [List.length_cons] at hlen
    cases ha : acked slave 0 with
    | false =>
      have hfin := finish_spec hlow 0 0 [] (by omega)
      simpa [sent, ackCount, ha] using hfin
    | true =>
      obtain ⟨hl, hw, hall⟩ := hlow.writeLoop (b :: w) (show 0 + (b :: w).length ≤ 255 by simp; omega)
      have hcount : ackCount slave 0 (w.length + 1 + 1) = ackCount slave 1 (w.length + 1) + 1 := by
        rw [ackCount, if_pos ha]
      have hsent : sent slave 0 ((addr <<< 1) :: b :: w) = (addr <<< 1) :: sent slave 1 (b :: w) := by
        rw [sent, if_pos ha]
      have hle := ackCount_le slave 1 (w.length + 1)
      rw [Nat.zero_add] at hw hl
      simp only [Bool.not_true, Bool.false_eq_true, if_false, hw, hcount, hsent, List.length_cons,
        List.flatMap_cons]
      by_cases hok : ackCount slave 1 (w.length + 1) = w.length + 1
      · have hs : sent slave 1 (b :: w) = b :: w := sent_of_all hok
        have hpos : 1 + (b :: w).length = w.length + 1 + 1 := Nat.add_comm _ _
        rw [hs, hpos] at hl
        rw [if_pos (hall.mpr hok), hs, hok]
        by_cases hr : rlen = 0
        · have hread := readPart_spec hl addr (show rlen + (w.length + 1) ≤ 255 by omega)
          simpa [hr] using hread
        · have hread := readPart_spec hl.restart addr (show rlen + (w.length + 1) ≤ 255 by omega)
          simpa [hr, Nat.add_comm] using hread
      · have hno := mt hall.mp hok
        have hfin := finish_spec hl (ackCount slave 1 (w.length + 1)) 0 [] (by omega)
        rw [if_neg hno]
        simpa [hok] using hfin

/-- One byte to write and two to read, from a slave that acknowledges and sends `0xF0`. -/
theorem writeThenRead_waveform_register :
    let res := writeThenRead (Bus.idle fun n => n % 9 < 4) 0x50 [0x10] 2
    decode res.pins.trace = [.start] ++ slot 0xA0 true ++ slot 0x10 true ++ [.start] ++ slot 0xA1 true ++
        slot 0xFF false ++ slot 0xFF true ++ [.stop] ∧ res.ret = 3 ∧ res.r = [0xF0, 0xF0] := by
  obtain ⟨hev, -, hret, hr⟩ := @writeThenRead_waveform (fun n => n % 9 < 4) 0x50 [0x10] 2 (by decide)
  exact ⟨hev.trans (by decide +kernel), hret.trans (by decide +kernel), hr.trans (by decide +kernel)⟩

end EmbeddedTemplate.Softi2c
