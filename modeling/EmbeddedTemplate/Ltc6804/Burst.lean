import EmbeddedTemplate.Ltc6804.Pec
import Mathlib.Data.LawfulXor.Basic

/-! Burst errors on the link to the battery monitor. -/
namespace EmbeddedTemplate.Ltc6804
open Word (bits length_bits)

/-- Data followed by its check bytes, as the monitor sends them. -/
def frame (data : List UInt8) : List UInt8 := data ++ crcBytes (calcCrc16 data)

/-- A frame on a link that flips the bits set in `e`. -/
def corrupt (frame e : List UInt8) : List UInt8 := List.zipWith (· ^^^ ·) frame e

theorem length_flatMap_bits (data : List UInt8) : (data.flatMap bits).length = data.length * 8 := by
  induction data with
  | nil => rfl
  | cons b data ih =>
    rw [List.flatMap_cons, List.length_append, ih, length_bits, List.length_cons]
    omega

theorem bits_xor (a b : UInt8) : bits (a ^^^ b) = List.zipWith xor (bits a) (bits b) := by
  simp [bits, List.range_succ]

theorem bits_corrupt {data e : List UInt8} (h : data.length = e.length) :
    (corrupt data e).flatMap bits = List.zipWith xor (data.flatMap bits) (e.flatMap bits) := by
  induction data generalizing e with
  | nil => rfl
  | cons b data ih =>
    obtain ⟨y, e, rfl⟩ := List.exists_cons_of_length_eq_add_one h.symm
    have hrest := ih (show data.length = e.length by simpa using h)
    simp only [corrupt, List.zipWith_cons_cons, List.flatMap_cons] at hrest ⊢
    rw [List.zipWith_append (by simp), bits_xor, hrest]

theorem calcCrc16_corrupt {data e : List UInt8} (h : data.length = e.length) :
    calcCrc16 (corrupt data e) =
      calcCrc16 data ^^^ (Crc.feedAll poly 0#15 (e.flatMap bits)).setWidth 16 <<< 1 := by
  have hlen : (data.flatMap bits).length = (e.flatMap bits).length := by
    rw [length_flatMap_bits, length_flatMap_bits, h]
  have hsum := @Crc.feedAll_xor 15 poly 0x0010#15 0#15 _ _ hlen
  rw [BitVec.xor_zero, ← bits_corrupt h] at hsum
  rw [calcCrc16_eq, calcCrc16_eq, hsum, BitVec.setWidth_xor, BitVec.shiftLeft_xor_distrib]

theorem accepts_iff (buf : List UInt8) (p q : UInt8) :
    accepts buf p q = true ↔ [p, q] = crcBytes (calcCrc16 buf) := by
  have hhigh : ∀ crc : BitVec 16, crc >>> 8 = ((crc >>> 8).setWidth 8).setWidth 16 := by
    intro crc
    apply BitVec.eq_of_getLsbD_eq
    intro i hi
    interval_cases i <;> simp
  have hlow : ∀ crc : BitVec 16, crc &&& 0xff#16 = (crc.setWidth 8).setWidth 16 := by
    intro crc
    apply BitVec.eq_of_getLsbD_eq
    intro i hi
    interval_cases i <;> simp
  have hinj : ∀ a b : BitVec 8, a.setWidth 16 = b.setWidth 16 ↔ a = b := by
    intro a b
    constructor
    · intro h
      simpa using congrArg (BitVec.setWidth 8) h
    · intro h
      rw [h]
  unfold accepts crcBytes
  simp only [Bool.and_eq_true, beq_iff_eq, hlow, List.cons.injEq, and_true, ← UInt8.toBitVec_inj, hinj]
  rw [← hinj p.toBitVec, ← hhigh]

theorem crcBytes_xor (a b : BitVec 16) :
    crcBytes (a ^^^ b) = corrupt (crcBytes a) (crcBytes b) := by
  simp [crcBytes, corrupt, BitVec.ushiftRight_xor_distrib]

/-- The last bit of the code is always 0. -/
theorem bits_crcBytes_shift (r : BitVec 15) :
    (crcBytes (r.setWidth 16 <<< 1)).flatMap bits = (List.range 15).map r.getMsbD ++ [false] := by
  simp [crcBytes, bits, List.range_succ, BitVec.getMsbD]

theorem pack_getMsbD {w : ℕ} (r : BitVec w) : Crc.pack ((List.range w).map r.getMsbD) = r := by
  apply BitVec.eq_of_getMsbD_eq
  intro i hi
  rw [Crc.getMsbD_pack]
  simp [hi]

/-- The receiver accepts a corrupted frame only when the error is a codeword itself. -/
theorem feedAll_eq_zero_of_accepts {data e : List UInt8} (h : data.length = e.length) {p q : UInt8}
    (hacc : [p, q] = crcBytes (calcCrc16 data ^^^ calcCrc16 (corrupt data e))) :
    ∃ code, (e ++ [p, q]).flatMap bits = code ++ [false] ∧ Crc.feedAll poly 0#15 code = 0#15 := by
  rw [calcCrc16_corrupt h, ← BitVec.xor_assoc, BitVec.xor_self, BitVec.zero_xor] at hacc
  refine ⟨e.flatMap bits ++ (List.range 15).map (Crc.feedAll poly 0#15 (e.flatMap bits)).getMsbD, ?_, ?_⟩
  · rw [List.flatMap_append, hacc, bits_crcBytes_shift, ← List.append_assoc]
  · rw [Crc.feedAll_append, Crc.feedAll_eq_zero_iff poly_odd _ (by simp), pack_getMsbD]

theorem recvLoop_spec (size : ℕ) {k : ℕ} {i : UInt8} (hi : i.toNat + k = size) (hsize : size ≤ 255)
    {fuel : ℕ} (hfuel : k < fuel) {buf : List UInt8} (hbuf : buf.length = size) (s : Bus) :
    ∃ s' : Bus, s'.miso = s.miso ∧ s'.exchanged = s.exchanged + k ∧
      recvLoop size fuel i buf s =
        some (buf.take i.toNat ++ (List.range k).map fun j => s.miso (s.exchanged + j), s') := by
  induction k generalizing fuel i buf s with
  | zero =>
    obtain ⟨fuel, rfl⟩ : ∃ f, fuel = f + 1 := ⟨fuel - 1, by omega⟩
    have hend : ¬ i.toNat < size := by omega
    have hall : buf.take i.toNat = buf := List.take_of_length_le (by omega)
    exact ⟨s, rfl, rfl, by simp [recvLoop, hend, hall]⟩
  | succ k ih =>
    obtain ⟨fuel, rfl⟩ : ∃ f, fuel = f + 1 := ⟨fuel - 1, by omega⟩
    have hlt : i.toNat < size := by omega
    have hnext : (i + 1).toNat = i.toNat + 1 := by
      rw [UInt8.toNat_add, UInt8.toNat_one]
      exact Nat.mod_eq_of_lt (by omega)
    have hset : (buf.set i.toNat (s.miso s.exchanged)).length = size := by
      rw [List.length_set, hbuf]
    obtain ⟨s', hmiso, hex, hrun⟩ := ih (i := i + 1) (show (i + 1).toNat + k = size by omega)
      (Nat.lt_of_succ_lt_succ hfuel) hset (s.transmitByte (buf.getD i.toNat 0)).2
    refine ⟨s', hmiso, ?_, ?_⟩
    · rw [hex]
      simp only [Bus.transmitByte]
      omega
    · rw [recvLoop, if_pos hlt]
      simp only [Bus.transmitByte] at hrun ⊢
      rw [hrun, hnext, List.take_add_one, List.take_set_of_le (Nat.le_refl _),
        List.getElem?_set_self (by omega), List.range_succ_eq_map, List.append_assoc]
      simp [Function.comp_def, Nat.add_assoc, Nat.add_comm 1]

/-- The loop goes on while its counter, taken modulo 256, is below the size: with more than 255
bytes it never ends. -/
theorem recvLoop_none {size fuel : ℕ} {i : UInt8} (h : ∀ j < fuel, (i.toNat + j) % 256 < size)
    (buf : List UInt8) (s : Bus) : recvLoop size fuel i buf s = none := by
  induction fuel generalizing i buf s with
  | zero => rfl
  | succ fuel ih =>
    have hi := i.toNat_lt
    have hgo : i.toNat < size := by
      have := h 0 (Nat.succ_pos fuel)
      omega
    rw [recvLoop, if_pos hgo]
    apply ih
    intro j hj
    have hnext : ((i + 1).toNat + j) % 256 = (i.toNat + (j + 1)) % 256 := by
      rw [UInt8.toNat_add, UInt8.toNat_one]
      omega
    rw [hnext]
    exact h (j + 1) (Nat.succ_lt_succ hj)

/-- The command and its code are answered by four bytes that nobody looks at. -/
theorem sendShortAndCrc_spec (s : Bus) (cmd : BitVec 16) :
    (sendShortAndCrc s cmd).miso = s.miso ∧ (sendShortAndCrc s cmd).exchanged = s.exchanged + 4 :=
  ⟨rfl, rfl⟩

theorem recvDataDaisychain_spec {size : ℕ} (hpos : 0 < size) (hsize : size ≤ 255) {fuel : ℕ}
    (hfuel : size < fuel) (cmd : BitVec 16) (s : Bus) :
    ∃ s', recvDataDaisychain fuel size cmd s =
      some (accepts ((List.range size).map fun j => s.miso (s.exchanged + 4 + j))
        (s.miso (s.exchanged + 4 + size)) (s.miso (s.exchanged + 4 + (size + 1))),
        (List.range size).map fun j => s.miso (s.exchanged + 4 + j), s') := by
  obtain ⟨hmiso, hex⟩ := sendShortAndCrc_spec ((wakeUp s).select true) cmd
  obtain ⟨s', hmiso', hex', hrun⟩ := recvLoop_spec size (i := 0) (Nat.zero_add size) hsize hfuel
    (List.length_replicate (a := 0xff)) (sendShortAndCrc ((wakeUp s).select true) cmd)
  rw [hmiso, hex] at hrun
  rw [hmiso] at hmiso'
  rw [hex] at hex'
  refine ⟨((s'.transmitByte 0xff).2.transmitByte 0xff).2.select false, ?_⟩
  simp only [recvDataDaisychain, hrun, Option.bind_eq_bind, Option.bind_some, if_pos hpos]
  simp only [Bus.transmitByte, hmiso', hex']
  rfl

theorem recvDataDaisychain_none {size fuel : ℕ} (h : 255 < size ∨ fuel ≤ size) (cmd : BitVec 16)
    (s : Bus) : recvDataDaisychain fuel size cmd s = none := by
  have hloop : ∀ buf s, recvLoop size fuel 0 buf s = none := by
    apply recvLoop_none
    intro j hj
    rw [UInt8.toNat_zero]
    omega
  simp only [recvDataDaisychain, hloop, Option.bind_eq_bind, Option.bind_none]

theorem accepts_corrupt_frame {data e : List UInt8} (hlen : e.length = data.length + 2)
    (hburst : Crc.Burst 15 (e.flatMap bits)) :
    accepts ((corrupt (frame data) e).take data.length) ((corrupt (frame data) e).getD data.length 0)
      ((corrupt (frame data) e).getD (data.length + 1) 0) = false := by
  -- the error in the data and the error in the two check bytes
  obtain ⟨ed, ep, rfl, hed, hep⟩ : ∃ ed ep, e = ed ++ ep ∧ data.length = ed.length ∧ ep.length = 2 :=
    ⟨e.take data.length, e.drop data.length, (List.take_append_drop _ _).symm, by simp; omega,
      by simp; omega⟩
  obtain ⟨p, q, rfl⟩ : ∃ p q, ep = [p, q] := by
    match ep, hep with
    | [p, q], _ => exact ⟨p, q, rfl⟩
  have hsplit : corrupt (frame data) (ed ++ [p, q]) =
      corrupt data ed ++ corrupt (crcBytes (calcCrc16 data)) [p, q] := List.zipWith_append hed
  have hcl : (corrupt data ed).length = data.length := by simp [corrupt, hed]
  rw [hsplit, ← hcl, List.take_left]
  rw [Bool.eq_false_iff]
  intro hacc
  rw [accepts_iff] at hacc
  have herr : [p, q] = crcBytes (calcCrc16 data ^^^ calcCrc16 (corrupt data ed)) := by
    rw [crcBytes_xor, ← hacc]
    simp [corrupt, crcBytes]
  obtain ⟨code, hcode, hzero⟩ := feedAll_eq_zero_of_accepts hed herr
  rw [hcode] at hburst
  exact hburst.of_concat_false.feedAll_ne_zero poly_odd hzero

/-- Every burst of at most 15 bits in a frame of any length fails the test of the receiver.
When a monitor answers with such a frame, `ltc_recv_data_daisychain` returns 0 for up to 255
data bytes, and it returns 1 for no number of them. -/
theorem burst_rejected {data e : List UInt8} (hne : data ≠ []) (hlen : e.length = data.length + 2)
    (hburst : Crc.Burst 15 (e.flatMap bits)) :
    let received := corrupt (frame data) e
    accepts (received.take data.length) (received.getD data.length 0)
        (received.getD (data.length + 1) 0) = false ∧
      ∀ s : Bus, (∀ i < received.length, s.miso (s.exchanged + 4 + i) = received.getD i 0) →
        ∀ cmd fuel, (data.length ≤ 255 → data.length < fuel →
            ∃ s', recvDataDaisychain fuel data.length cmd s =
              some (false, received.take data.length, s')) ∧
          ∀ r, recvDataDaisychain fuel data.length cmd s = some r → r.1 = false := by
  intro received
  have hreject := accepts_corrupt_frame hlen hburst
  have hrl : received.length = data.length + 2 := by
    simp [received, corrupt, frame, crcBytes, hlen]
  refine ⟨hreject, fun s hmiso cmd fuel => ?_⟩
  have hbuf : ((List.range data.length).map fun j => s.miso (s.exchanged + 4 + j)) =
      received.take data.length := by
    apply List.ext_getElem
    · simp [hrl]
    · intro i hi _
      have hi' : i < received.length := by
        rw [List.length_map, List.length_range] at hi
        omega
      simp [hmiso i hi', hi']
  have hfun : data.length ≤ 255 → data.length < fuel →
      ∃ s', recvDataDaisychain fuel data.length cmd s =
        some (false, received.take data.length, s') := by
    intro hsize hfuel
    obtain ⟨s', hs'⟩ := recvDataDaisychain_spec (List.length_pos_iff.mpr hne) hsize hfuel cmd s
    rw [hbuf, hmiso _ (by omega), hmiso _ (by omega), hreject] at hs'
    exact ⟨s', hs'⟩
  refine ⟨hfun, fun r hr => ?_⟩
  by_cases hret : data.length ≤ 255 ∧ data.length < fuel
  · obtain ⟨s', hs'⟩ := hfun hret.1 hret.2
    rw [hs', Option.some.injEq] at hr
    rw [← hr]
  · rw [recvDataDaisychain_none (by omega) cmd s] at hr
    cases hr

/-- A burst of ten bits from the last of six data bytes into the code. -/
theorem burst_rejected_across_code :
    let data : List UInt8 := [0x5a, 0xc3, 0x17, 0x88, 0x01, 0xfe]
    let e : List UInt8 := [0, 0, 0, 0, 0, 0x0b, 0xd4, 0]
    Crc.Burst 15 (e.flatMap bits) ∧
      accepts ((corrupt (frame data) e).take 6) ((corrupt (frame data) e).getD 6 0)
        ((corrupt (frame data) e).getD 7 0) = false := by
  intro data e
  have hburst : Crc.Burst 15 (e.flatMap bits) := by
    have hrange : ∀ i < 64, (e.flatMap bits)[i]? = some true → 44 ≤ i ∧ i < 44 + 15 := by decide +kernel
    refine ⟨by decide, 44, fun i hi => hrange i ?_ hi⟩
    exact (List.getElem?_eq_some_iff.mp hi).1
  exact ⟨hburst, (@burst_rejected data e (by decide) rfl hburst).1⟩

end EmbeddedTemplate.Ltc6804
