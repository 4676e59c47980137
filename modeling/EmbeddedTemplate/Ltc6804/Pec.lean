import EmbeddedTemplate.Lib.Word
import EmbeddedTemplate.Ltc6804.Basic
import Mathlib.Tactic.IntervalCases
import Mathlib.Data.List.TakeDrop

/-! `calc_crc16` is the bit-serial PEC15, and no burst of 15 bits gets past it. -/
namespace EmbeddedTemplate.Ltc6804
open Word (bits length_bits)

/-- The generator polynomial in the comment above `pec16Table`, without its leading term. -/
def poly : BitVec 15 := 0x4599#15

/-- One step of the bit-serial PEC15: a register of 15 bits that is shifted to the left
and takes the polynomial when the bit that falls out differs from the incoming one. -/
def pec15Step (r : BitVec 15) (b : Bool) : BitVec 15 :=
  if (r.msb ^^ b) then (r <<< 1) ^^^ poly else r <<< 1

def pec15 (data : List UInt8) : BitVec 15 := (data.flatMap bits).foldl pec15Step 0x0010#15

theorem poly_odd : poly.getLsbD 0 = true := rfl

theorem pack_bits (b : UInt8) : (Crc.pack (bits b) : BitVec 15) = b.toBitVec.setWidth 15 <<< 7 := by
  apply BitVec.eq_of_getMsbD_eq
  intro i hi
  rw [Crc.getMsbD_pack]
  interval_cases i <;> simp [bits, BitVec.getMsbD]

/-- The table holds eight shifts of every byte, with a bit above that does not count. -/
theorem pec16Table_entry (a : BitVec 8) :
    (pec16Table.getD a.toNat 0).setWidth 15 = (Crc.shift poly)^[8] (a.setWidth 15 <<< 7) := by
  have hall : ∀ n : Fin 256,
      (pec16Table.getD n 0).setWidth 15 =
        (Crc.shift poly)^[8] ((BitVec.ofFin (w := 8) n).setWidth 15 <<< 7) := by
    decide +kernel
  exact hall a.toFin

def head (r : BitVec 15) (b : UInt8) : BitVec 8 := (r >>> 7).setWidth 8 ^^^ b.toBitVec

theorem address_eq (remainder : BitVec 16) (b : UInt8) :
    address remainder b = (head (remainder.setWidth 15) b).setWidth 16 := by
  apply BitVec.eq_of_getLsbD_eq
  intro i hi
  interval_cases i <;> simp [address, head]

/-- The register and a byte: what the table looks up and what is only shifted. -/
theorem xor_pack_bits (r : BitVec 15) (b : UInt8) :
    r ^^^ Crc.pack (bits b) = ((head r b).setWidth 15 <<< 7) ^^^ (r &&& 0x7f#15) := by
  rw [pack_bits]
  apply BitVec.eq_of_getLsbD_eq
  intro i hi
  interval_cases i <;> simp [head]

theorem shift_rest (r : BitVec 15) : (Crc.shift poly)^[8] (r &&& 0x7f#15) = r <<< 8 := by
  rw [Crc.iterate_shift_of_clear]
  · apply BitVec.eq_of_getLsbD_eq
    intro i hi
    interval_cases i <;> simp
  · intro i hi
    interval_cases i <;> simp [BitVec.getMsbD]

/-- One table step is eight bit steps. Bit 15 of the remainder is never looked at. -/
theorem crcStep_setWidth (remainder : BitVec 16) (b : UInt8) :
    (crcStep remainder b).setWidth 15 = Crc.feedAll poly (remainder.setWidth 15) (bits b) := by
  have hindex : (address remainder b).toNat = (head (remainder.setWidth 15) b).toNat := by
    rw [address_eq, BitVec.toNat_setWidth, Nat.mod_eq_of_lt]
    exact Nat.lt_of_lt_of_le (BitVec.isLt _) (by decide)
  have hleft : (remainder <<< 8).setWidth 15 = remainder.setWidth 15 <<< 8 := by
    apply BitVec.eq_of_getLsbD_eq
    intro i hi
    interval_cases i <;> simp
  rw [Crc.feedAll_eq _ (by simp), length_bits, xor_pack_bits, Crc.iterate_shift_xor,
    ← pec16Table_entry, shift_rest, crcStep, BitVec.setWidth_xor, hleft, hindex, BitVec.xor_comm]

theorem foldl_crcStep_setWidth (remainder : BitVec 16) (data : List UInt8) :
    (data.foldl crcStep remainder).setWidth 15 =
      Crc.feedAll poly (remainder.setWidth 15) (data.flatMap bits) := by
  induction data generalizing remainder with
  | nil => rfl
  | cons b data ih =>
    rw [List.foldl_cons, ih, crcStep_setWidth, List.flatMap_cons, Crc.feedAll_append]

/-- The final shift drops the bit that the table leaves undefined. -/
theorem shiftLeft_one_eq (r : BitVec 16) : r <<< 1 = (r.setWidth 15).setWidth 16 <<< 1 := by
  apply BitVec.eq_of_getLsbD_eq
  intro i hi
  interval_cases i <;> simp

theorem calcCrc16_eq (data : List UInt8) :
    calcCrc16 data = (Crc.feedAll poly 0x0010#15 (data.flatMap bits)).setWidth 16 <<< 1 := by
  rw [calcCrc16, shiftLeft_one_eq, foldl_crcStep_setWidth]
  rfl

theorem feed_eq_pec15Step (r : BitVec 15) (b : Bool) : Crc.feed poly r b = pec15Step r b := by
  have hmsb : (Crc.top b : BitVec 15).msb = b := by cases b <;> rfl
  have hout : (Crc.top b : BitVec 15) <<< 1 = 0#15 := by cases b <;> rfl
  simp only [Crc.feed, Crc.shift, pec15Step, BitVec.msb_xor, BitVec.shiftLeft_xor_distrib, hmsb, hout,
    BitVec.xor_zero]
  cases (r.msb ^^ b) with
  | false => simp
  | true => simp

/-- `calc_crc16` of every message is its bit-serial PEC15, shifted left by one bit. -/
theorem calcCrc16_eq_pec15 (data : List UInt8) :
    calcCrc16 data = (pec15 data).setWidth 16 <<< 1 := by
  have hserial : pec15Step = Crc.feed poly := by
    funext r b
    exact (feed_eq_pec15Step r b).symm
  rw [calcCrc16_eq, pec15, hserial]
  rfl

end EmbeddedTemplate.Ltc6804
