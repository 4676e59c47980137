import EmbeddedTemplate.I2c.Hcs12
import Mathlib.Data.List.Induction

/-! A transfer of the HCS12 driver under every sequence of interrupts. -/
namespace EmbeddedTemplate.Hcs12I2c

def toWrite (addr : UInt8) (w : List UInt8) : List UInt8 := if w = [] then [] else (addr <<< 1) :: w

/-- The bytes that the master sends when all of them are acknowledged. -/
def script (addr : UInt8) (w : List UInt8) (rlen : ℕ) : List UInt8 :=
  toWrite addr w ++ if rlen = 0 then [] else [(addr <<< 1) ||| 0x01]

/-- The bus operations of that transfer, up to the part where the slave sends. -/
def busScript (addr : UInt8) (w : List UInt8) (rlen : ℕ) : List Event :=
  (toWrite addr w).map .write ++
    if rlen = 0 then [] else (if w = [] then [] else [.restart]) ++ [.write ((addr <<< 1) ||| 0x01)]

/-- How many bytes of the script are acknowledged before one is not. -/
def acks (total : ℕ) (ins : List (Bool × UInt8)) : ℕ :=
  ((ins.take total).takeWhile fun x => !x.1).length

def Event.onBus : Event → Bool
  | .write _ => true
  | .restart => true
  | .stop => false
  | .load _ => false
  | .store _ _ => false

def Event.InBounds (wlen rlen : ℕ) : Event → Prop
  | .load i => i < wlen
  | .store i _ => i < rlen
  | _ => True

/-- How far a transfer has come: the acknowledged bytes of the script, whether one was not
acknowledged, and the bytes received. -/
structure Progress where
  acked : ℕ
  nacked : Bool
  got : List UInt8

def Progress.next (total rlen : ℕ) (p : Progress) (input : Bool × UInt8) : Progress :=
  if p.nacked then p
  else if p.acked < total then
    if input.1 then { p with nacked := true } else { p with acked := p.acked + 1 }
  else if p.got.length < rlen then { p with got := p.got ++ [input.2] }
  else p

section
variable (addr : UInt8) (w : List UInt8) (rlen : ℕ)

structure Tracks (p : Progress) (s : Hcs12I2c) : Prop where
  acked_le : p.acked ≤ (script addr w rlen).length
  nacked_lt : p.nacked = true → p.acked < (script addr w rlen).length
  got_le : p.got.length ≤ rlen
  got_nil : p.acked < (script addr w rlen).length → p.got = []
  txData : s.txData = w
  txLength : s.txLength = w.length
  rxLength : s.rxLength = rlen
  slaveAddr : s.slaveAddr = addr
  txingAddr : s.txingAddr = decide (p.nacked = false ∧ p.acked < (script addr w rlen).length ∧
    (p.acked = 0 ∨ p.acked = (toWrite addr w).length))
  txing : s.txing = decide (p.nacked = false ∧ 0 < p.acked ∧ p.acked < (toWrite addr w).length)
  rxing : s.rxing = decide (p.acked = (script addr w rlen).length ∧ p.got.length < rlen)
  txIndex : s.txIndex = min (p.acked - 1) w.length
  rxIndex : s.rxIndex = p.got.length
  rxData : ∀ j < p.got.length, s.rxData j = p.got.getD j 0
  txak : s.txak = decide (p.acked = (script addr w rlen).length ∧ rlen ≠ 0 ∧ rlen ≤ p.got.length + 1)
  inBounds : ∀ e ∈ s.log, e.InBounds w.length rlen
  onBus : s.log.filter Event.onBus =
    if p.acked < (toWrite addr w).length then ((toWrite addr w).take (p.acked + 1)).map .write
    else busScript addr w rlen
  stops : s.log.count .stop =
    if p.nacked = true ∨ (p.acked = (script addr w rlen).length ∧ p.got.length = rlen) then 1 else 0

variable {addr w rlen}

theorem length_toWrite : (toWrite addr w).length = if w = [] then 0 else w.length + 1 := by
  unfold toWrite
  split_ifs
  · rfl
  · rfl

theorem length_script :
    (script addr w rlen).length = (toWrite addr w).length + if rlen = 0 then 0 else 1 := by
  unfold script
  rw [List.length_append]
  split_ifs
  · rfl
  · rfl

theorem setUp_tracks (rxData : ℕ → UInt8) (h : 0 < w.length + rlen) :
    Tracks addr w rlen ⟨0, false, []⟩ (setUp addr w rxData rlen) := by
  have ht : 0 < (script addr w rlen).length := by
    rw [length_script, length_toWrite]
    cases w with
    | nil =>
      have hr : rlen ≠ 0 := by simpa using Nat.ne_of_gt h
      simp [hr]
    | cons b w => simp
  refine ⟨Nat.zero_le _, by simp, Nat.zero_le _, fun _ => rfl, rfl, rfl, rfl, rfl, ?_, ?_, ?_, rfl, rfl,
    by simp, ?_, by simp [setUp, Event.InBounds], ?_, ?_⟩
  · simp [setUp, ht]
  · simp [setUp]
  · simp [setUp, ht.ne]
  · simp [setUp, ht.ne]
  · cases w with
    | nil =>
      have hr : rlen ≠ 0 := by simpa using Nat.ne_of_gt h
      simp [setUp, toWrite, busScript, hr, Event.onBus]
    | cons b w => simp [setUp, toWrite, Event.onBus]
  · simp [setUp, ht.ne]

theorem Tracks.over {p : Progress} {s : Hcs12I2c} (h : Tracks addr w rlen p s)
    (hover : p.nacked = true ∨ (p.acked = (script addr w rlen).length ∧ p.got.length = rlen))
    (x : Bool × UInt8) : s.isr x = s ∧ p.next (script addr w rlen).length rlen x = p := by
  have hle : (toWrite addr w).length ≤ (script addr w rlen).length := by
    rw [length_script]
    omega
  constructor
  · have ha : s.txingAddr = false := by
      rw [h.txingAddr, decide_eq_false_iff_not]
      rintro ⟨hn, hlt, -⟩
      obtain hn' | ⟨heq, -⟩ := hover
      · simp [hn] at hn'
      · omega
    have htx : s.txing = false := by
      rw [h.txing, decide_eq_false_iff_not]
      rintro ⟨hn, -, hlt⟩
      obtain hn' | ⟨heq, -⟩ := hover
      · simp [hn] at hn'
      · omega
    have hrx : s.rxing = false := by
      rw [h.rxing, decide_eq_false_iff_not]
      rintro ⟨heq, hlt⟩
      obtain hn' | ⟨-, hgot⟩ := hover
      · have := h.nacked_lt hn'
        omega
      · omega
    simp [isr, ha, htx, hrx]
  · unfold Progress.next
    obtain hn | ⟨heq, hgot⟩ := hover
    · rw [if_pos hn]
    · by_cases hn : p.nacked = true
      · rw [if_pos hn]
      · rw [if_neg hn, if_neg (by omega), if_neg (by omega)]

/-- Bytes of the script before the read address are sent with `txing`, the two addresses with
`txing_addr`. -/
theorem Tracks.sending {p : Progress} {s : Hcs12I2c} (h : Tracks addr w rlen p s)
    (hn : p.nacked = false) (hlt : p.acked < (script addr w rlen).length) :
    s.rxing = false ∧ s.txak = false ∧ s.log.count .stop = 0 ∧ p.got = [] ∧
      ((p.acked = 0 ∨ p.acked = (toWrite addr w).length) ∧ s.txingAddr = true ∧ s.txing = false ∨
        (0 < p.acked ∧ p.acked < (toWrite addr w).length) ∧ s.txingAddr = false ∧ s.txing = true) := by
  have ht := @length_script addr w rlen
  have hle : (script addr w rlen).length ≤ (toWrite addr w).length + 1 := by
    rw [ht]
    split_ifs
    · omega
    · omega
  refine ⟨?_, ?_, ?_, h.got_nil hlt, ?_⟩
  · rw [h.rxing, decide_eq_false_iff_not]
    omega
  · rw [h.txak, decide_eq_false_iff_not]
    omega
  · rw [h.stops, if_neg]
    rintro (hn' | ⟨heq, -⟩)
    · simp [hn] at hn'
    · omega
  · by_cases haddr : p.acked = 0 ∨ p.acked = (toWrite addr w).length
    · left
      refine ⟨haddr, ?_, ?_⟩
      · rw [h.txingAddr, decide_eq_true_iff]
        exact ⟨hn, hlt, haddr⟩
      · rw [h.txing, decide_eq_false_iff_not]
        omega
    · right
      refine ⟨by omega, ?_, ?_⟩
      · rw [h.txingAddr, decide_eq_false_iff_not]
        omega
      · rw [h.txing, decide_eq_true_iff]
        exact ⟨hn, by omega⟩

theorem Tracks.nack {p : Progress} {s : Hcs12I2c} (h : Tracks addr w rlen p s)
    (hn : p.nacked = false) (hlt : p.acked < (script addr w rlen).length) (dat : UInt8) :
    Tracks addr w rlen { p with nacked := true } (s.isr (true, dat)) := by
  obtain ⟨hrx, hak, hstop, hgot, hflags⟩ := h.sending hn hlt
  have hisr : s.isr (true, dat) = { s with txingAddr := false, txing := false }.stop := by
    obtain ⟨-, ha, htx⟩ | ⟨-, ha, htx⟩ := hflags
    · simp only [isr, ha, if_true, isrAddr, htx]
    · simp only [isr, ha, htx, isrTx, if_true, Bool.false_eq_true, if_false]
  rw [hisr]
  refine { h with
    nacked_lt := fun _ => hlt, txingAddr := ?_, txing := ?_, inBounds := ?_, onBus := ?_
    stops := ?_ }
  · simp [stop, emit]
  · simp [stop, emit]
  · exact List.forall_mem_append.mpr ⟨h.inBounds, by simp [Event.InBounds]⟩
  · simp only [stop, emit, List.filter_append, h.onBus]
    exact List.append_nil _
  · simp [stop, emit, hstop]

theorem Tracks.ackAddr {p : Progress} {s : Hcs12I2c} (h : Tracks addr w rlen p s)
    (hn : p.nacked = false) (h0 : p.acked = 0) (hw : w ≠ []) (dat : UInt8) :
    Tracks addr w rlen { p with acked := p.acked + 1 } (s.isr (false, dat)) := by
  obtain ⟨b, w, rfl⟩ := List.exists_cons_of_ne_nil hw
  have hk : (toWrite addr (b :: w)).length = w.length + 2 := rfl
  have ht := @length_script addr (b :: w) rlen
  have hlt : p.acked < (script addr (b :: w) rlen).length := by omega
  obtain ⟨hrx, hak, hstop, hgot, hflags⟩ := h.sending hn hlt
  obtain ⟨-, ha, htx⟩ | ⟨hpos, -⟩ := hflags
  · have hidx : s.txIndex < s.txLength := by
      rw [h.txIndex, h.txLength, h0]
      simp
    have hisr : s.isr (false, dat) = { s with txingAddr := false }.startTxData := by
      simp [isr, ha, isrAddr, hidx]
    rw [hisr]
    refine { h with
      acked_le := ?_, nacked_lt := ?_, got_nil := fun _ => hgot, txingAddr := ?_, txing := ?_
      rxing := ?_, txIndex := ?_, txak := ?_, inBounds := ?_, onBus := ?_, stops := ?_ }
    · exact hlt
    · simp [hn]
    · simp [startTxData, sendData, emit, h0]
      omega
    · simp [startTxData, sendData, emit, h0, hn, hk]
    · simp [startTxData, sendData, emit, h0, hrx]
      omega
    · simp [startTxData, h0]
    · simp [startTxData, sendData, emit, h0, hak]
      omega
    · exact List.forall_mem_append.mpr ⟨h.inBounds, by simp [Event.InBounds]⟩
    · simp [startTxData, sendData, emit, h.onBus, h0, h.txData, toWrite, Event.onBus]
    · simp [startTxData, sendData, emit, hstop, hn, h0]
      omega
  · omega

theorem Tracks.ackData {p : Progress} {s : Hcs12I2c} (h : Tracks addr w rlen p s) (hw : w.length ≤ 255)
    (hn : p.nacked = false) (hpos : 0 < p.acked) (hlt : p.acked < w.length) (dat : UInt8) :
    Tracks addr w rlen { p with acked := p.acked + 1 } (s.isr (false, dat)) := by
  have hne : w ≠ [] := by
    rintro rfl
    simp at hlt
  have hk : toWrite addr w = (addr <<< 1) :: w := if_neg hne
  have hkl : (toWrite addr w).length = w.length + 1 := by rw [hk, List.length_cons]
  have ht := @length_script addr w rlen
  obtain ⟨hrx, hak, hstop, hgot, hflags⟩ := h.sending hn (show p.acked < _ by omega)
  obtain ⟨haddr, -⟩ | ⟨-, ha, htx⟩ := hflags
  · omega
  · have hidx : Word.wrap 8 ((s.txIndex : ℤ) + 1) = p.acked := by
      rw [h.txIndex, show min (p.acked - 1) w.length = p.acked - 1 by omega]
      refine Eq.trans (congrArg _ ?_) (@Word.wrap_of_lt 8 p.acked (by omega))
      omega
    have hisr : s.isr (false, dat) = { s with txIndex := p.acked }.sendData p.acked := by
      simp [isr, ha, htx, isrTx, hidx, h.txLength, hlt]
    rw [hisr]
    refine { h with
      acked_le := ?_, nacked_lt := ?_, got_nil := fun _ => hgot, txingAddr := ?_, txing := ?_
      rxing := ?_, txIndex := ?_, txak := ?_, inBounds := ?_, onBus := ?_, stops := ?_ }
    · simp only
      omega
    · simp [hn]
    · simp [sendData, emit, ha]
      omega
    · simp [sendData, emit, htx, hn]
      omega
    · simp [sendData, emit, hrx]
      omega
    · simp [sendData, emit]
      omega
    · simp [sendData, emit, hak]
      omega
    · exact List.forall_mem_append.mpr ⟨h.inBounds, by simp [Event.InBounds, hlt]⟩
    · have hnext : (toWrite addr w).take (p.acked + 1 + 1) =
          (toWrite addr w).take (p.acked + 1) ++ [w.getD p.acked 0] := by
        rw [List.take_add_one, hk, List.getElem?_cons_succ, List.getD_eq_getElem?_getD,
          List.getElem?_eq_getElem hlt]
        rfl
      have hb : (toWrite addr w).length > p.acked + 1 := by omega
      have hb' : (toWrite addr w).length > p.acked := by omega
      simp [sendData, emit, h.onBus, h.txData, hnext, hb, hb', Event.onBus]
    · simp [sendData, emit, hstop, hn]
      omega

theorem Tracks.atLast {p : Progress} {s : Hcs12I2c} (h : Tracks addr w rlen p s) (hw : w.length ≤ 255)
    (hn : p.nacked = false) (hpos : 0 < p.acked) (hlast : p.acked = w.length) :
    (w ≠ [] ∧ (toWrite addr w).length = w.length + 1) ∧ s.txingAddr = false ∧ s.txing = true ∧
      Word.wrap 8 ((s.txIndex : ℤ) + 1) = w.length ∧
      s.log.filter Event.onBus = (toWrite addr w).map .write := by
  have hne : w ≠ [] := by
    rintro rfl
    simp at hlast
    omega
  have hkl : (toWrite addr w).length = w.length + 1 := by rw [length_toWrite, if_neg hne]
  have ht := @length_script addr w rlen
  obtain ⟨-, -, -, -, hflags⟩ := h.sending hn (show p.acked < _ by omega)
  obtain ⟨haddr, -⟩ | ⟨-, ha, htx⟩ := hflags
  · omega
  · refine ⟨⟨hne, hkl⟩, ha, htx, ?_, ?_⟩
    · rw [h.txIndex, show min (p.acked - 1) w.length = w.length - 1 by omega]
      refine Eq.trans (congrArg _ ?_) (@Word.wrap_of_lt 8 w.length (by omega))
      omega
    · rw [h.onBus, if_pos (by omega), List.take_of_length_le (by omega)]

theorem Tracks.ackEnd {p : Progress} {s : Hcs12I2c} (h : Tracks addr w 0 p s) (hw : w.length ≤ 255)
    (hn : p.nacked = false) (hpos : 0 < p.acked) (hlast : p.acked = w.length) (dat : UInt8) :
    Tracks addr w 0 { p with acked := p.acked + 1 } (s.isr (false, dat)) := by
  obtain ⟨⟨hne, hkl⟩, ha, htx, hidx, hbus⟩ := h.atLast hw hn hpos hlast
  have ht := @length_script addr w 0
  rw [if_pos rfl] at ht
  obtain ⟨hrx, hak, hstop, hgot, -⟩ := h.sending hn (show p.acked < _ by omega)
  have hisr : s.isr (false, dat) = { s with txIndex := w.length, txing := false }.stop := by
    simp [isr, ha, htx, isrTx, hidx, h.txLength, h.rxLength]
  rw [hisr]
  refine { h with
    acked_le := ?_, nacked_lt := ?_, got_nil := fun _ => hgot, txingAddr := ?_, txing := ?_
    rxing := ?_, txIndex := ?_, txak := ?_, inBounds := ?_, onBus := ?_, stops := ?_ }
  · simp only
    omega
  · simp [hn]
  · simp [stop, emit, ha]
    omega
  · simp [stop, emit]
    omega
  · simp [stop, emit, hrx]
  · simp [stop, emit]
    omega
  · simp [stop, emit, hak]
  · exact List.forall_mem_append.mpr ⟨h.inBounds, by simp [Event.InBounds]⟩
  · have hb : ¬ p.acked + 1 < (toWrite addr w).length := by omega
    simp [stop, emit, hbus, hb, busScript, Event.onBus]
  · have hend : p.acked + 1 = (script addr w 0).length := by omega
    simp [stop, emit, hstop, hend, hgot]

/-- The last data byte is acknowledged: a repeated START and the read address follow. -/
theorem Tracks.ackRestart {p : Progress} {s : Hcs12I2c} (h : Tracks addr w rlen p s)
    (hw : w.length ≤ 255) (hr : 0 < rlen) (hn : p.nacked = false) (hpos : 0 < p.acked)
    (hlast : p.acked = w.length) (dat : UInt8) :
    Tracks addr w rlen { p with acked := p.acked + 1 } (s.isr (false, dat)) := by
  obtain ⟨⟨hne, hkl⟩, ha, htx, hidx, hbus⟩ := h.atLast hw hn hpos hlast
  have ht := @length_script addr w rlen
  rw [if_neg hr.ne'] at ht
  obtain ⟨hrx, hak, hstop, hgot, -⟩ := h.sending hn (show p.acked < _ by omega)
  have hisr : s.isr (false, dat) =
      { s.emit [.restart, .write ((addr <<< 1) ||| 0x01)] with
        txIndex := w.length, txing := false, txingAddr := true } := by
    simp [isr, ha, htx, isrTx, hidx, h.txLength, h.rxLength, h.slaveAddr, hr, emit]
  rw [hisr]
  refine { h with
    acked_le := ?_, nacked_lt := ?_, got_nil := fun _ => hgot, txingAddr := ?_, txing := ?_
    rxing := ?_, txIndex := ?_, txak := ?_, inBounds := ?_, onBus := ?_, stops := ?_ }
  · simp only
    omega
  · simp [hn]
  · simp [hn]
    omega
  · simp
    omega
  · simp [emit, hrx]
    omega
  · simp
    omega
  · simp [emit, hak]
    omega
  · exact List.forall_mem_append.mpr ⟨h.inBounds, by simp [Event.InBounds]⟩
  · have hb : ¬ p.acked + 1 < (toWrite addr w).length := by omega
    simp [emit, hbus, hb, busScript, hr.ne', hne, Event.onBus]
  · simp [emit, hstop, hn]
    omega

theorem Tracks.ackRead {p : Progress} {s : Hcs12I2c} (h : Tracks addr w rlen p s)
    (hn : p.nacked = false) (hr : 0 < rlen) (hk : p.acked = (toWrite addr w).length) (dat : UInt8) :
    Tracks addr w rlen { p with acked := p.acked + 1 } (s.isr (false, dat)) := by
  have ht := @length_script addr w rlen
  have hkl := @length_toWrite addr w
  rw [if_neg hr.ne'] at ht
  obtain ⟨hrx, hak, hstop, hgot, hflags⟩ := h.sending hn (show p.acked < _ by omega)
  have hlast : min (p.acked - 1) w.length = w.length ∧ min (p.acked + 1 - 1) w.length = w.length := by
    by_cases hw : w = []
    · simp [hw]
    · rw [if_neg hw] at hkl
      omega
  obtain ⟨-, ha, htx⟩ | ⟨hlt, -⟩ := hflags
  · have hisr : s.isr (false, dat) = { s with txingAddr := false }.startRxData dat := by
      simp [isr, ha, isrAddr, h.txIndex, hlast.1, h.txLength, h.rxIndex, hgot, h.rxLength, hr]
    rw [hisr]
    refine { h with
      acked_le := ?_, nacked_lt := ?_, got_nil := fun _ => hgot, txingAddr := ?_, txing := ?_
      rxing := ?_, txIndex := ?_, rxIndex := ?_, rxData := ?_, txak := ?_, inBounds := ?_
      onBus := ?_, stops := ?_ }
    · simp only
      omega
    · simp [hn]
    · simp [startRxData, storeData, emit]
      omega
    · simp [startRxData, storeData, emit, htx]
      omega
    · simp [startRxData, hgot, hr]
      omega
    · simp only [startRxData, storeData, emit, hlast.2, h.txIndex, hlast.1]
    · simp [startRxData, hgot]
    · simp [hgot]
    · simp only [startRxData, h.rxLength, hgot, List.length_nil, decide_eq_decide]
      omega
    · exact List.forall_mem_append.mpr ⟨h.inBounds, by simp [Event.InBounds, hr]⟩
    · simp [startRxData, storeData, emit, h.onBus, hk, Event.onBus]
    · simp [startRxData, storeData, emit, hstop, hn, hgot]
      omega
  · omega

theorem Tracks.receiving {p : Progress} {s : Hcs12I2c} (h : Tracks addr w rlen p s)
    (hend : p.acked = (script addr w rlen).length) (hgot : p.got.length < rlen) :
    p.nacked = false ∧ (toWrite addr w).length ≤ (script addr w rlen).length ∧
      s.txingAddr = false ∧ s.txing = false ∧ s.rxing = true ∧ s.log.count .stop = 0 := by
  have hn : p.nacked = false := by
    by_contra hn
    have := h.nacked_lt (by simpa using hn)
    omega
  have hle : (toWrite addr w).length ≤ (script addr w rlen).length := by
    rw [length_script]
    omega
  refine ⟨hn, hle, ?_, ?_, ?_, ?_⟩
  · rw [h.txingAddr, decide_eq_false_iff_not]
    omega
  · rw [h.txing, decide_eq_false_iff_not]
    omega
  · rw [h.rxing, decide_eq_true_iff]
    exact ⟨hend, hgot⟩
  · rw [h.stops, if_neg]
    rintro (hn' | ⟨-, heq⟩)
    · simp [hn] at hn'
    · omega

/-- The three branches for a received byte differ in TXAK, `rxing` and the STOP only. -/
theorem Tracks.isr_receive {p : Progress} {s : Hcs12I2c} (h : Tracks addr w rlen p s)
    (hlen : rlen ≤ 255) (hend : p.acked = (script addr w rlen).length)
    (hgot : p.got.length < rlen) (x : Bool × UInt8) :
    s.isr x = { s.emit ((if rlen = p.got.length + 1 then [.stop] else []) ++
        [.store p.got.length x.2]) with
      master := s.master && decide (rlen ≠ p.got.length + 1)
      txak := s.txak || decide (rlen = p.got.length + 2)
      rxing := decide (rlen ≠ p.got.length + 1)
      rxData := Function.update s.rxData p.got.length x.2
      rxIndex := p.got.length + 1 } := by
  obtain ⟨-, -, ha, htx, hrx, -⟩ := h.receiving hend hgot
  have hidx : Word.wrap 8 ((p.got.length : ℤ) + 1) = p.got.length + 1 :=
    @Word.wrap_of_lt 8 (p.got.length + 1) (by omega)
  by_cases h2 : rlen = p.got.length + 2
  · simp [isr, ha, htx, hrx, isrRx, h.rxLength, h.rxIndex, h2, storeData, emit, hidx]
  · by_cases h1 : rlen = p.got.length + 1
    · simp [isr, ha, htx, hrx, isrRx, h.rxLength, h.rxIndex, h1, storeData, emit, stop, hidx]
    · simp [isr, ha, htx, hrx, isrRx, h.rxLength, h.rxIndex, h1, h2, storeData, emit, hidx]

theorem Tracks.receive {p : Progress} {s : Hcs12I2c} (h : Tracks addr w rlen p s) (hlen : rlen ≤ 255)
    (hend : p.acked = (script addr w rlen).length) (hgot : p.got.length < rlen) (x : Bool × UInt8) :
    Tracks addr w rlen { p with got := p.got ++ [x.2] } (s.isr x) := by
  obtain ⟨hn, hle, ha, htx, -, hstop⟩ := h.receiving hend hgot
  rw [h.isr_receive hlen hend hgot x]
  refine { h with
    nacked_lt := ?_, got_le := ?_, got_nil := ?_, txingAddr := ?_, txing := ?_, rxing := ?_
    rxIndex := ?_, rxData := ?_, txak := ?_, inBounds := ?_, onBus := ?_, stops := ?_ }
  · simp [hn]
  · simp only [List.length_append, List.length_singleton]
    omega
  · intro hlt
    exact absurd hend (Nat.ne_of_lt hlt)
  · simp [emit, ha, hend]
  · simp [emit, htx]
    omega
  · simp only [List.length_append, List.length_singleton, decide_eq_decide]
    omega
  · simp
  · intro j hj
    rw [List.length_append, List.length_singleton] at hj
    by_cases hjl : j = p.got.length
    · simp [hjl]
    · have hjlt : j < p.got.length := by omega
      simp only [Function.update_of_ne hjl, h.rxData j hjlt, List.getD_eq_getElem?_getD,
        List.getElem?_append_left hjlt]
  · simp only [h.txak, List.length_append, List.length_singleton, ← Bool.decide_or, decide_eq_decide]
    omega
  · refine List.forall_mem_append.mpr ⟨h.inBounds, ?_⟩
    split_ifs
    · simp [Event.InBounds, hgot]
    · simp [Event.InBounds, hgot]
  · have hb : ¬ p.acked < (toWrite addr w).length := by omega
    simp only [emit, List.filter_append, h.onBus, if_neg hb]
    split_ifs
    · simp [Event.onBus]
    · simp [Event.onBus]
  · simp only [emit, List.count_append, hstop, List.length_append, List.length_singleton, hn, hend]
    by_cases h1 : rlen = p.got.length + 1
    · simp [← h1]
    · simp [h1, Ne.symm h1]

theorem Tracks.ack {p : Progress} {s : Hcs12I2c} (h : Tracks addr w rlen p s) (hw : w.length ≤ 255)
    (hn : p.nacked = false) (hlt : p.acked < (script addr w rlen).length) (dat : UInt8) :
    Tracks addr w rlen { p with acked := p.acked + 1 } (s.isr (false, dat)) := by
  have ht := @length_script addr w rlen
  have hkl := @length_toWrite addr w
  by_cases hread : p.acked = (toWrite addr w).length
  · have hpos : 0 < rlen := by
      by_contra h0
      rw [if_pos (Nat.eq_zero_of_not_pos h0)] at ht
      omega
    exact h.ackRead hn hpos hread dat
  · have hle : p.acked < (toWrite addr w).length := by
      split_ifs at ht
      · omega
      · omega
    have hne : w ≠ [] := by
      rintro rfl
      rw [if_pos rfl] at hkl
      omega
    rw [if_neg hne] at hkl
    by_cases h0 : p.acked = 0
    · exact h.ackAddr hn h0 hne dat
    · have hpos : 0 < p.acked := Nat.pos_of_ne_zero h0
      by_cases hlast : p.acked = w.length
      · rcases Nat.eq_zero_or_pos rlen with rfl | hr
        · exact h.ackEnd hw hn hpos hlast dat
        · exact h.ackRestart hw hr hn hpos hlast dat
      · exact h.ackData hw hn hpos (by omega) dat

/-- Every interrupt moves the driver as it moves the transfer. -/
theorem Tracks.isr {p : Progress} {s : Hcs12I2c} (h : Tracks addr w rlen p s) (hw : w.length ≤ 255)
    (hr : rlen ≤ 255) (x : Bool × UInt8) :
    Tracks addr w rlen (p.next (script addr w rlen).length rlen x) (s.isr x) := by
  by_cases hover : p.nacked = true ∨ (p.acked = (script addr w rlen).length ∧ p.got.length = rlen)
  · obtain ⟨hs, hp⟩ := h.over hover x
    rwa [hs, hp]
  · rw [not_or, Bool.not_eq_true] at hover
    obtain ⟨hn, hgot⟩ := hover
    by_cases hlt : p.acked < (script addr w rlen).length
    · obtain ⟨rxak, dat⟩ := x
      cases rxak with
      | true =>
        have hnext : p.next (script addr w rlen).length rlen (true, dat) = { p with nacked := true } := by
          simp [Progress.next, hn, hlt]
        rw [hnext]
        exact h.nack hn hlt dat
      | false =>
        have hnext : p.next (script addr w rlen).length rlen (false, dat) =
            { p with acked := p.acked + 1 } := by
          simp [Progress.next, hn, hlt]
        rw [hnext]
        exact h.ack hw hn hlt dat
    · have hle := h.acked_le
      have hgle := h.got_le
      have hend : p.acked = (script addr w rlen).length := by omega
      have hglt : p.got.length < rlen := by omega
      have hnext : p.next (script addr w rlen).length rlen x = { p with got := p.got ++ [x.2] } := by
        simp [Progress.next, hn, hend, hglt]
      rw [hnext]
      exact h.receive hr hend hglt x

end

theorem acks_le (total : ℕ) (ins : List (Bool × UInt8)) :
    acks total ins ≤ total ∧ acks total ins ≤ ins.length := by
  have h := (List.takeWhile_prefix (fun x : Bool × UInt8 => !x.1) (l := ins.take total)).length_le
  rw [List.length_take] at h
  unfold acks
  omega

theorem acks_concat (total : ℕ) (ins : List (Bool × UInt8)) (x : Bool × UInt8) :
    acks total (ins ++ [x]) =
      if acks total ins = ins.length ∧ ins.length < total ∧ x.1 = false then acks total ins + 1
      else acks total ins := by
  unfold acks
  by_cases hlt : ins.length < total
  · rw [List.take_of_length_le (l := ins ++ [x]) (by simp; omega), List.take_of_length_le hlt.le,
      List.takeWhile_append]
    by_cases hall : (ins.takeWhile fun x => !x.1).length = ins.length
    · cases hx : x.1 with
      | true => simp [hall, hx]
      | false => simp [hall, hx, hlt]
    · simp [hall]
  · rw [List.take_append_of_le_length (by omega), if_neg (by omega)]

def got (total rlen : ℕ) (ins : List (Bool × UInt8)) : List UInt8 :=
  if acks total ins = total then ((ins.drop total).take rlen).map Prod.snd else []

theorem got_concat {total : ℕ} (rlen : ℕ) {ins : List (Bool × UInt8)} (h : acks total ins = total)
    (x : Bool × UInt8) :
    got total rlen (ins ++ [x]) =
      if (got total rlen ins).length < rlen then got total rlen ins ++ [x.2] else got total rlen ins := by
  have hlen := (acks_le total ins).2
  have hc : acks total (ins ++ [x]) = total := by
    rw [acks_concat, if_neg (by omega), h]
  have hmin : (got total rlen ins).length = min rlen (ins.length - total) := by
    simp [got, h]
  rw [hmin]
  unfold got
  rw [if_pos hc, if_pos h, List.drop_append_of_le_length (by omega)]
  by_cases hroom : ins.length - total < rlen
  · rw [if_pos (by omega), List.take_of_length_le (by simp; omega), List.take_of_length_le (by simp; omega),
      List.map_append]
    rfl
  · rw [if_neg (by omega), List.take_append_of_le_length (by simp; omega)]

theorem foldl_next (total rlen : ℕ) (ins : List (Bool × UInt8)) :
    ins.foldl (Progress.next total rlen) ⟨0, false, []⟩ =
      ⟨acks total ins, decide (acks total ins < total ∧ acks total ins < ins.length),
        got total rlen ins⟩ := by
  induction ins using List.reverseRecOn with
  | nil => simp [acks, got]
  | append_singleton ins x ih =>
    rw [List.foldl_append, ih, List.foldl_cons, List.foldl_nil]
    obtain ⟨hle, hlen⟩ := acks_le total ins
    by_cases hend : acks total ins = total
    · -- the slave is sending
      have hc : acks total (ins ++ [x]) = total := by
        rw [acks_concat, if_neg (by omega), hend]
      rw [got_concat rlen hend, hc, hend]
      simp only [Progress.next, Nat.lt_irrefl, false_and, decide_false, Bool.false_eq_true, if_false]
      split_ifs
      · rfl
      · rfl
    · have hgot : got total rlen ins = [] := if_neg hend
      by_cases hwait : acks total ins = ins.length
      · have hlt : ins.length < total := by omega
        rw [acks_concat]
        cases hx : x.1 with
        | true => simp [Progress.next, hwait, hlt, hx, got, acks_concat, hlt.ne]
        | false =>
          have hgot' : got total rlen (ins ++ [x]) = [] := by
            unfold got
            rw [List.drop_eq_nil_of_le (by simp; omega)]
            simp
          simp [Progress.next, hwait, hlt, hx, hgot', hgot]
      · have hc : acks total (ins ++ [x]) = acks total ins := by
          rw [acks_concat, if_neg (by omega)]
        have hgot' : got total rlen (ins ++ [x]) = [] := by
          unfold got
          rw [hc, if_neg hend]
        have hn : acks total ins < total ∧ acks total ins < ins.length := by omega
        have hn' : acks total ins < total ∧ acks total ins < (ins ++ [x]).length := by
          rw [List.length_append]
          omega
        simp only [Progress.next, hc, hgot, hgot', hn, hn', and_self, decide_true, if_true]

theorem foldl_tracks {addr : UInt8} {w : List UInt8} (hw : w.length ≤ 255) {rlen : ℕ} (hr : rlen ≤ 255)
    {p : Progress} {s : Hcs12I2c} (h : Tracks addr w rlen p s) (ins : List (Bool × UInt8)) :
    Tracks addr w rlen (ins.foldl (Progress.next (script addr w rlen).length rlen) p) (ins.foldl isr s) := by
  induction ins generalizing p s with
  | nil => exact h
  | cons x ins ih => exact ih (h.isr hw hr x)

/-- After every sequence of interrupts: the indices and all accesses to the buffers are within
bounds; the master has sent the script up to the first byte that was not acknowledged, with a
repeated START before a read address that follows data; the bytes received are in `rx_data` in
order; TXAK is set when no more than one byte is left to receive; and there is one STOP if a
byte of the script was not acknowledged or all is done, and none before. -/
theorem isr_transfers_requested_bytes (addr : UInt8) (w : {w : List UInt8 // w.length < 256})
    (rxData : ℕ → UInt8) (rlen : UInt8) (h : 0 < w.val.length + rlen.toNat) (ins : List (Bool × UInt8)) :
    let s := ins.foldl isr (setUp addr w rxData rlen.toNat)
    let total := (script addr w rlen.toNat).length
    let m := acks total ins
    let rx := got total rlen.toNat ins
    (s.txLength = w.val.length ∧ s.rxLength = rlen.toNat) ∧
      s.txIndex ≤ s.txLength ∧ s.rxIndex ≤ s.rxLength ∧
      (∀ e ∈ s.log, e.InBounds s.txLength s.rxLength) ∧
      s.log.filter Event.onBus =
        (if m < (toWrite addr w).length then ((toWrite addr w).take (m + 1)).map .write
        else busScript addr w rlen.toNat) ∧
      (s.rxIndex = rx.length ∧ ∀ j < rx.length, s.rxData j = rx.getD j 0) ∧
      s.txak = decide (m = total ∧ rlen.toNat ≠ 0 ∧ rlen.toNat ≤ rx.length + 1) ∧
      s.log.count .stop =
        if (m < total ∧ m < ins.length) ∨ (m = total ∧ rx.length = rlen.toNat) then 1 else 0 := by
  intro s total m rx
  have hr := rlen.toNat_lt
  have ht := foldl_tracks (Nat.le_of_lt_succ w.property) (Nat.le_of_lt_succ hr)
    (@setUp_tracks addr w _ rxData h) ins
  rw [foldl_next] at ht
  refine ⟨⟨ht.txLength, ht.rxLength⟩, ?_, ?_, ?_, ht.onBus, ⟨ht.rxIndex, ht.rxData⟩, ht.txak, ?_⟩
  · rw [ht.txIndex, ht.txLength]
    exact Nat.min_le_right _ _
  · rw [ht.rxIndex, ht.rxLength]
    exact ht.got_le
  · rw [ht.txLength, ht.rxLength]
    exact ht.inBounds
  · rw [ht.stops]
    simp only [decide_eq_true_eq]
    rfl

/-- One byte to write and two to read, all acknowledged, and one interrupt too many. -/
theorem isr_transfers_requested_bytes_register :
    let s := [(false, 0), (false, 0), (false, 7), (true, 0x12), (false, 0x34), (false, 0x56)].foldl isr
      (setUp 0x50 [0x10] (fun _ => 0) (2 : UInt8).toNat)
    s.log.filter Event.onBus = [.write 0xA0, .write 0x10, .restart, .write 0xA1] ∧
      s.rxIndex = 2 ∧ (∀ j < 2, s.rxData j = [0x12, 0x34].getD j 0) ∧ s.txak = true ∧
      s.log.count .stop = 1 := by
  obtain ⟨-, -, -, -, hbus, ⟨hidx, hdata⟩, hak, hstop⟩ :=
    isr_transfers_requested_bytes 0x50 ⟨[0x10], by decide⟩ (fun _ => 0) 2 (by decide)
      [(false, 0), (false, 0), (false, 7), (true, 0x12), (false, 0x34), (false, 0x56)]
  exact ⟨hbus, hidx, hdata, hak, hstop⟩

end EmbeddedTemplate.Hcs12I2c
