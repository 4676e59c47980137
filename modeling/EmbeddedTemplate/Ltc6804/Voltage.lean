import EmbeddedTemplate.Ltc6804.Burst

/-! The two ways to read cell voltages in `ltc6804.c`. -/
namespace EmbeddedTemplate.Ltc6804

/-- `LTC6804_CMD_RDCVA` to `LTC6804_CMD_RDCVD`. -/
def listCmdRdcv : List (BitVec 16) := [0x004, 0x006, 0x008, 0x00A]

def volRegSize : ℕ := 6

/-- The monitor: the bytes with which each register group of cell voltages is answered, six of data
and two of the code that follows them. -/
structure Chip where
  frame : ℕ → ℕ → UInt8

namespace Chip
variable (chip : Chip)

/-- What the monitor sends after it has received the bytes `sent` since it was selected. -/
def answer (sent : List UInt8) : UInt8 :=
  match sent with
  | c₀ :: c₁ :: _ :: _ :: rest =>
    match listCmdRdcv.findIdx? fun cmd => crcBytes cmd = [c₀, c₁] with
    | some g => chip.frame g rest.length
    | none => 0xff
  | _ => 0xff

/-- The bus at the begin of a command, whose bytes are sent before what is clocked out with `0xff`. -/
def bus (cmd : BitVec 16) : Bus where
  miso n :=
    chip.answer ((crcBytes cmd ++ crcBytes (calcCrc16 (crcBytes cmd)) ++ List.replicate n 0xff).take n)
  exchanged := 0
  log := []

def data (g : ℕ) : List UInt8 := (List.range volRegSize).map (chip.frame g)

def good (g : ℕ) : Bool := accepts (chip.data g) (chip.frame g 6) (chip.frame g 7)

/-- The first group whose code is wrong, and 4 if there is none. -/
def firstFailing : ℕ := ((List.range 4).find? fun g => !chip.good g).getD 4

/-- `ltc6804_get_voltage_with_group`: the return value, and `reg.dat` after it. -/
def getVoltageWithGroup (reg : List UInt8) (gid : UInt8) : Option (ℕ × List UInt8) :=
  if gid.toNat < listCmdRdcv.length then do
    let cmd := listCmdRdcv.getD gid.toNat 0
    let r ← recvDataDaisychain (volRegSize + 1) volRegSize cmd (chip.bus cmd)
    some (if r.1 then volRegSize / 2 else 0, r.2.1)
  else some (0, reg)

end Chip

/-- `reg->dat[offset] + ((uint16_t)(reg->dat[offset + 1]) << 8)`. -/
def voltageAt (reg : List UInt8) (offset : ℕ) : ℕ :=
  Word.wrap 16 ((reg.getD offset 0).toNat + (reg.getD (offset + 1) 0).toNat <<< 8 : ℕ)

namespace Chip
variable (chip : Chip)

/-- The loop of `ltc6804_1_get_voltage` with `n` rounds left: `count`, what has been stored in `buf`,
and `reg.dat`. -/
def getVoltagesLoop : ℕ → UInt8 → ℕ → ℕ → List ℕ → List UInt8 → Option (ℕ × List ℕ × List UInt8)
  | 0, _, _, count, buf, reg => some (count, buf, reg)
  | n + 1, index, size, count, buf, reg =>
    if size ≤ 0 then some (count, buf, reg)
    else do
      let r ← chip.getVoltageWithGroup reg index
      if 0 < r.1 then
        let ret := if size < r.1 then size else r.1
        getVoltagesLoop n (index + 1) (size - ret) (Word.wrap 8 (count + ret : ℕ))
          (buf ++ (List.range ret).map fun i => voltageAt r.2 (i * 2)) r.2
      else some (count, buf, r.2)

/-- `ltc6804_1_get_voltage`. -/
def getVoltages (reg : List UInt8) (size : UInt8) : Option (ℕ × List ℕ × List UInt8) :=
  chip.getVoltagesLoop 4 0 size.toNat 0 [] reg

/-- `ltc6804_get_voltage`: the return value, what is stored in `*vol`, and `reg.dat`. `vol` says
whether that pointer is given. -/
def getVoltage (reg : List UInt8) (index : UInt8) (vol : Bool) : Option (Bool × Option ℕ × List UInt8) :=
  if !vol then some (false, none, reg)
  else do
    let r ← chip.getVoltageWithGroup reg (index / 3)
    if r.1 = 0 then some (false, none, r.2)
    else
      let offset := index.toNat * 2 % 6
      some (true, some (voltageAt r.2 offset), r.2)

def cell (c : ℕ) : ℕ := voltageAt (chip.data (c / 3)) (c % 3 * 2)

/-- The bytes of a read command are those that `bus` takes for sent. -/
theorem log_recvDataDaisychain (cmd : BitVec 16) (s : Bus) :
    ∃ r, recvDataDaisychain (volRegSize + 1) volRegSize cmd s = some r ∧
      r.2.2.log = s.log ++ [.select true, .select false, .select true] ++
        (crcBytes cmd ++ crcBytes (calcCrc16 (crcBytes cmd)) ++ List.replicate 8 0xff).map .byte ++
          [.select false] := by
  refine ⟨_, rfl, ?_⟩
  simp [wakeUp, sendShortAndCrc, Bus.select, Bus.send, Bus.transmitByte, crcBytes, volRegSize]

theorem bus_miso {g : ℕ} (hg : g < 4) (j : ℕ) :
    (chip.bus (listCmdRdcv.getD g 0)).miso (4 + j) = chip.frame g j := by
  have hcmd : ∀ g < 4, ∃ c₀ c₁ p₀ p₁, crcBytes (listCmdRdcv.getD g 0) = [c₀, c₁] ∧
      crcBytes (calcCrc16 (crcBytes (listCmdRdcv.getD g 0))) = [p₀, p₁] ∧
      (listCmdRdcv.findIdx? fun cmd => crcBytes cmd = [c₀, c₁]) = some g := by
    intro g hg
    refine ⟨_, _, _, _, rfl, rfl, ?_⟩
    interval_cases g <;> decide +kernel
  obtain ⟨c₀, c₁, p₀, p₁, hc, hp, hfind⟩ := hcmd g hg
  have hsent : (crcBytes (listCmdRdcv.getD g 0) ++
      crcBytes (calcCrc16 (crcBytes (listCmdRdcv.getD g 0))) ++ List.replicate (4 + j) 0xff).take (4 + j) =
        c₀ :: c₁ :: p₀ :: p₁ :: List.replicate j 0xff := by
    rw [hp, hc, Nat.add_comm 4 j]
    simp
  simp only [bus]
  rw [hsent]
  simp [answer, hfind]

theorem getVoltageWithGroup_of_lt (reg : List UInt8) {gid : UInt8} (h : gid.toNat < 4) :
    chip.getVoltageWithGroup reg gid =
      some (if chip.good gid.toNat then 3 else 0, chip.data gid.toNat) := by
  obtain ⟨s', hrecv⟩ := recvDataDaisychain_spec (by decide : 0 < volRegSize) (by decide)
    (Nat.lt_succ_self volRegSize) (listCmdRdcv.getD gid.toNat 0) (chip.bus (listCmdRdcv.getD gid.toNat 0))
  have hmiso : ∀ j, (chip.bus (listCmdRdcv.getD gid.toNat 0)).miso
      ((chip.bus (listCmdRdcv.getD gid.toNat 0)).exchanged + 4 + j) = chip.frame gid.toNat j := by
    intro j
    change (chip.bus _).miso (0 + 4 + j) = _
    rw [Nat.zero_add, chip.bus_miso h]
  simp only [hmiso] at hrecv
  unfold getVoltageWithGroup
  rw [if_pos (show gid.toNat < listCmdRdcv.length from h)]
  simp only [hrecv, Option.bind_eq_bind, Option.bind_some]
  rfl

theorem getVoltageWithGroup_of_le (reg : List UInt8) {gid : UInt8} (h : 4 ≤ gid.toNat) :
    chip.getVoltageWithGroup reg gid = some (0, reg) :=
  if_neg (Nat.not_lt.mpr h)

/-- How many of the `n` groups from `g` on come before the first that fails. -/
def goodRun : ℕ → ℕ → ℕ
  | 0, _ => 0
  | n + 1, g => if chip.good g then goodRun n (g + 1) + 1 else 0

theorem firstFailing_eq : chip.firstFailing = chip.goodRun 4 0 := by
  simp only [firstFailing, goodRun, List.range_succ, List.range_zero, List.nil_append, List.cons_append,
    List.find?_cons, List.find?_nil]
  cases chip.good 0 <;> cases chip.good 1 <;> cases chip.good 2 <;> cases chip.good 3 <;> rfl

theorem getVoltagesLoop_zero (n : ℕ) (index : UInt8) (count : ℕ) (buf : List ℕ) (reg : List UInt8) :
    chip.getVoltagesLoop n index 0 count buf reg = some (count, buf, reg) := by
  cases n <;> rfl

theorem map_voltageAt (g : ℕ) {n : ℕ} (h : n ≤ 3) :
    ((List.range n).map fun i => voltageAt (chip.data g) (i * 2)) =
      (List.range n).map fun j => chip.cell (3 * g + j) := by
  apply List.map_congr_left
  intro i hi
  have hi' := List.mem_range.mp hi
  rw [cell, show (3 * g + i) / 3 = g by omega, show (3 * g + i) % 3 = i by omega]

theorem getVoltagesLoop_spec {n : ℕ} {index : UInt8} (hi : index.toNat + n = 4) (size : ℕ) {buf : List ℕ}
    (hb : buf.length = 3 * index.toNat) (reg : List UInt8) :
    let k := min size (3 * chip.goodRun n index.toNat)
    ∃ reg', chip.getVoltagesLoop n index size buf.length buf reg =
      some (buf.length + k, buf ++ (List.range k).map fun j => chip.cell (3 * index.toNat + j), reg') := by
  induction n generalizing index size buf reg with
  | zero => exact ⟨reg, by simp [getVoltagesLoop, goodRun]⟩
  | succ n ih =>
    have hlt : index.toNat < 4 := by omega
    have hnext : (index + 1).toNat = index.toNat + 1 := by
      rw [UInt8.toNat_add, UInt8.toNat_one]
      exact Nat.mod_eq_of_lt (by omega)
    unfold getVoltagesLoop
    by_cases hz : size = 0
    · exact ⟨reg, by simp [hz]⟩
    · rw [if_neg (by omega), chip.getVoltageWithGroup_of_lt reg hlt]
      simp only [Option.bind_eq_bind, Option.bind_some, goodRun]
      cases hgood : chip.good index.toNat with
      | false => exact ⟨chip.data index.toNat, by simp⟩
      | true =>
        simp only [if_true, Nat.zero_lt_succ]
        by_cases hs : size < 3
        · have hk : min size (3 * (chip.goodRun n (index.toNat + 1) + 1)) = size := by omega
          rw [if_pos hs, Nat.sub_self, getVoltagesLoop_zero, chip.map_voltageAt _ hs.le, hk,
            @Word.wrap_of_lt 8 (buf.length + size) (by omega)]
          exact ⟨_, rfl⟩
        · rw [if_neg hs, chip.map_voltageAt _ (Nat.le_refl 3), @Word.wrap_of_lt 8 (buf.length + 3) (by omega)]
          have hlen : (buf ++ (List.range 3).map fun j => chip.cell (3 * index.toNat + j)).length =
              buf.length + 3 := by
            simp
          obtain ⟨reg', hrest⟩ := @ih (index + 1) (by omega) (size - 3)
            (buf ++ (List.range 3).map fun j => chip.cell (3 * index.toNat + j)) (by omega)
            (chip.data index.toNat)
          have hk : min size (3 * (chip.goodRun n (index.toNat + 1) + 1)) =
              3 + min (size - 3) (3 * chip.goodRun n (index.toNat + 1)) := by
            omega
          rw [hlen, hnext] at hrest
          rw [hrest, hk, List.range_add, List.map_append, List.append_assoc, Nat.add_assoc]
          refine ⟨reg', ?_⟩
          simp [Function.comp_def, Nat.mul_add, Nat.add_assoc]

theorem good_of_lt_goodRun {n g j : ℕ} (h : j < chip.goodRun n g) : chip.good (g + j) = true ∧ j < n := by
  induction n generalizing g j with
  | zero => exact absurd h (Nat.not_lt_zero j)
  | succ n ih =>
    rw [goodRun] at h
    split_ifs at h with hgood
    · cases j with
      | zero => exact ⟨hgood, Nat.succ_pos n⟩
      | succ j =>
        obtain ⟨hj, hlt⟩ := ih (Nat.lt_of_succ_lt_succ h)
        exact ⟨by rwa [Nat.add_right_comm] at hj, Nat.succ_lt_succ hlt⟩
    · exact absurd h (Nat.not_lt_zero j)

theorem getVoltage_of_good (reg : List UInt8) {index : UInt8} (hlt : index.toNat < 12)
    (hgood : chip.good (index.toNat / 3) = true) :
    ∃ reg', chip.getVoltage reg index true = some (true, some (chip.cell index.toNat), reg') := by
  have hdiv : (index / 3).toNat = index.toNat / 3 := UInt8.toNat_div index 3
  have hoffset : index.toNat * 2 % 6 = index.toNat % 3 * 2 := by omega
  have hgroup := chip.getVoltageWithGroup_of_lt reg (show (index / 3).toNat < 4 by omega)
  rw [hdiv, hgood] at hgroup
  refine ⟨chip.data (index.toNat / 3), ?_⟩
  unfold getVoltage
  simp [hgroup, hoffset, cell]

theorem getVoltage_of_bad (reg : List UInt8) {index : UInt8}
    (h : 12 ≤ index.toNat ∨ chip.good (index.toNat / 3) = false) :
    ∃ reg', chip.getVoltage reg index true = some (false, none, reg') := by
  have hdiv : (index / 3).toNat = index.toNat / 3 := UInt8.toNat_div index 3
  unfold getVoltage
  by_cases hlt : index.toNat < 12
  · have hgood := h.resolve_left (Nat.not_le.mpr hlt)
    have hgroup := chip.getVoltageWithGroup_of_lt reg (show (index / 3).toNat < 4 by omega)
    rw [hdiv, hgood] at hgroup
    exact ⟨chip.data (index.toNat / 3), by simp [hgroup]⟩
  · have hgroup := chip.getVoltageWithGroup_of_le reg (show 4 ≤ (index / 3).toNat by omega)
    exact ⟨reg, by simp [hgroup]⟩

/-- The bulk read returns as many cells as are asked for, up to the first group that fails, and each
of them is what a read of that cell alone gives. Such a read fails for cells that do not exist
and for the cells of a group that fails. -/
theorem bulk_and_single_reads_agree (chip : Chip) (reg : List UInt8) (size : UInt8) :
    (∃ buf reg', chip.getVoltages reg size = some (buf.length, buf, reg') ∧
      buf.length = min size.toNat (3 * chip.firstFailing) ∧
      ∀ (i : UInt8) (reg₁ : List UInt8), i.toNat < buf.length →
        ∃ reg₂, chip.getVoltage reg₁ i true = some (true, buf[i.toNat]?, reg₂)) ∧
    ∀ (index : UInt8) (reg₁ : List UInt8),
      (∃ reg₂, chip.getVoltage reg₁ index true = some (false, none, reg₂)) ↔
        12 ≤ index.toNat ∨ chip.good (index.toNat / 3) = false := by
  constructor
  · obtain ⟨reg', hloop⟩ := @getVoltagesLoop_spec chip 4 0 rfl size.toNat [] rfl reg
    rw [UInt8.toNat_zero, ← firstFailing_eq] at hloop
    simp only [List.length_nil, Nat.zero_add, Nat.mul_zero, List.nil_append] at hloop
    refine ⟨(List.range (min size.toNat (3 * chip.firstFailing))).map chip.cell, reg', ?_, ?_, ?_⟩
    · rw [List.length_map, List.length_range]
      exact hloop
    · rw [List.length_map, List.length_range]
    · intro i reg₁ hi
      rw [List.length_map, List.length_range, firstFailing_eq] at hi
      obtain ⟨hgood, hlt⟩ := chip.good_of_lt_goodRun (show i.toNat / 3 < chip.goodRun 4 0 by omega)
      rw [Nat.zero_add] at hgood
      obtain ⟨reg₂, hsingle⟩ := chip.getVoltage_of_good reg₁ (by omega) hgood
      refine ⟨reg₂, ?_⟩
      rw [hsingle, List.getElem?_map, List.getElem?_range (by rw [firstFailing_eq]; omega)]
      rfl
  · intro index reg₁
    constructor
    · rintro ⟨reg₂, hfail⟩
      by_contra hok
      rw [not_or, Nat.not_le, Bool.not_eq_false] at hok
      obtain ⟨reg₃, hread⟩ := chip.getVoltage_of_good reg₁ hok.1 hok.2
      rw [hread] at hfail
      cases hfail
    · exact chip.getVoltage_of_bad reg₁

end Chip

end EmbeddedTemplate.Ltc6804
