import EmbeddedTemplate.Misc.Calendar

/-! The time registers of a PCF212x, `pcf212x.c`, with the binary coded decimals of
`bcd_code.c`. The number of bytes that `i2c_transmit` reports is an input. -/
namespace EmbeddedTemplate.Pcf212x

open SecondDatetime

/-- `from_bcd`. 0 stands for a nibble above 9 as well. -/
def fromBcd (bcd : ℕ) : ℕ :=
  let h := bcd >>> 4
  if 9 < h then 0
  else
    let l := bcd &&& 0x0F
    if 9 < l then 0 else u8 (h * 10 + l : ℕ)

/-- `to_bcd`. 0 stands for 100 and above as well. -/
def toBcd (hex : ℕ) : ℕ :=
  let h := hex / 10
  if 9 < h then 0 else u8 ((h <<< 4) ||| (hex % 10) : ℕ)

structure Chip where
  regs : ℕ → ℕ
  pointer : ℕ

/-- The bytes of a write transfer. The first one is the register that the others start at. -/
def Chip.receive (chip : Chip) : List ℕ → Chip
  | [] => chip
  | reg :: dat =>
    { regs := fun r => if reg ≤ r then dat.getD (r - reg) (chip.regs r) else chip.regs r
      pointer := reg + dat.length }

/-- `write_regs`, of whose bytes `sent` have arrived. -/
def writeRegs (chip : Chip) (regAndDat : List ℕ) (sent : ℕ) : Bool × Chip :=
  (sent == regAndDat.length, chip.receive (regAndDat.take sent))

/-- `read_regs` for `len` bytes, of which `received` have arrived. -/
def readRegs (chip : Chip) (reg len sent received : ℕ) : Option (List ℕ) :=
  if sent ≠ 1 then none
  else
    let chip := chip.receive [reg]
    if received ≠ len then none
    else some ((List.range len).map fun i => chip.regs (chip.pointer + i))

/-- What `pcf212x_write_time` sends for a date. -/
def timeRegs (t : Datetime) : List ℕ :=
  [toBcd t.second, toBcd t.minute, toBcd t.hour, toBcd t.day, t.weekday, toBcd t.month, toBcd t.year]

/-- `pcf212x_write_time`. `t` is its local variable. -/
def writeTime (chip : Chip) (t : Datetime) (seconds sent : ℕ) : Bool × Chip :=
  writeRegs chip (0x03 :: timeRegs (secondToDatetime t seconds)) sent

/-- The date in the seven registers that `pcf212x_read_time` reads. -/
def timeOf (treg : List ℕ) : Datetime where
  second := fromBcd (treg.getD 0 0)
  minute := fromBcd (treg.getD 1 0)
  hour := fromBcd (treg.getD 2 0 &&& 0x3F)
  day := fromBcd (treg.getD 3 0)
  weekday := treg.getD 4 0
  month := fromBcd (treg.getD 5 0)
  year := fromBcd (treg.getD 6 0)

/-- `pcf212x_read_time`. `none` is the return value 0. -/
def readTime (chip : Chip) (sent received : ℕ) : Option ℕ :=
  (readRegs chip 0x03 7 sent received).bind fun treg => datetimeToSecond (timeOf treg)

theorem fromBcd_toBcd : ∀ n < 100, fromBcd (toBcd n) = n := by decide

theorem fromBcd_toBcd_hour : ∀ n < 24, fromBcd (toBcd n &&& 0x3F) = n := by decide

theorem toBcd_of_le {n : ℕ} (h : 100 ≤ n) : toBcd n = 0 := by
  unfold toBcd
  rw [if_pos (by omega)]

theorem readRegs_receive (chip : Chip) (reg : ℕ) (dat : List ℕ) :
    readRegs (chip.receive (reg :: dat)) reg dat.length 1 dat.length = some dat := by
  simp only [readRegs, Chip.receive, ne_eq, not_true_eq_false, if_false, Option.some.injEq]
  apply List.ext_getElem
  · simp
  · intro i hi hi'
    simp [hi']

/-- All fields come back but a year of three digits, which comes back as 0. -/
theorem timeOf_timeRegs {d : Datetime} {q i m off tod : ℕ} (h : Parts d q i m off tod) :
    timeOf (timeRegs d) = { d with year := if d.year ≤ 99 then d.year else 0 } := by
  obtain ⟨-, hm, -, hd, hhour, hmin, hsec⟩ := h.ranges
  have hlen := monthLength_le d.year d.month
  have hyear : fromBcd (toBcd d.year) = if d.year ≤ 99 then d.year else 0 := by
    split_ifs with hle
    · exact fromBcd_toBcd d.year (Nat.lt_succ_of_le hle)
    · rw [toBcd_of_le (by omega)]
      rfl
  simp only [timeOf, timeRegs, List.getD_cons_zero, List.getD_cons_succ, hyear,
    fromBcd_toBcd d.second (by omega), fromBcd_toBcd d.minute (by omega),
    fromBcd_toBcd_hour d.hour hhour, fromBcd_toBcd d.day (by omega), fromBcd_toBcd d.month (by omega)]

theorem toSeconds_year_zero {d : Datetime} (hy : d.year = 0)
    (hv : isValidDatetimeIgnoreWeekday d = true) : toSeconds d < 36525 * 86400 := by
  simp only [isValidDatetimeIgnoreWeekday, Bool.and_eq_true, decide_eq_true_eq] at hv
  obtain ⟨⟨⟨⟨⟨⟨hm₁, hm₂⟩, hd₁⟩, hd₂⟩, hhour⟩, hmin⟩, hsec⟩ := hv
  have hacc : (accTable d).getD (d.month - 1) 0 ≤ 335 := by
    have hm : d.month - 1 < 12 := by omega
    have hlast : Gregorian.monthStart (sampleYear 0) 11 = 335 := by decide
    rw [accTable_eq d hm, hy, ← hlast]
    exact Gregorian.monthStart_mono _ (by omega)
  have hyear : yearToSeconds d = 0 := by
    rw [yearToSeconds, hy]
    rfl
  have hmonth : monthDateToSeconds d ≤ 366 * 86400 := by
    have hdays : ((accTable d).getD (d.month - 1) 0 + d.day - 1 : ℤ) * secondsPerDay =
        (((accTable d).getD (d.month - 1) 0 + (d.day - 1)) * 86400 : ℕ) := by
      rw [secondsPerDay_eq]
      omega
    unfold monthDateToSeconds
    rw [hdays, u32_of_lt (by omega)]
    omega
  have htime : timeToSeconds d ≤ 86400 := by
    simp only [timeToSeconds, secondsPerHour, secondsPerMinute]
    rw [u32_of_lt (by omega)]
    omega
  unfold toSeconds
  rw [hyear, u32_of_lt (by omega)]
  omega

/-- A time that was written without an error is read back as it was, over a bus that transfers
what it is asked for. `t` is the uninitialised local variable. -/
def ReadBack (chip : Chip) (t : Datetime) (seconds : ℕ) : Prop :=
  ∀ sent, (writeTime chip t seconds sent).1 = true →
    readTime (writeTime chip t seconds sent).2 1 7 = some seconds

theorem readBack_iff_timeOf (chip : Chip) (t : Datetime) (s : ℕ) :
    ReadBack chip t s ↔ datetimeToSecond (timeOf (timeRegs (secondToDatetime t s))) = some s := by
  have hread : readTime (writeTime chip t s 8).2 1 7 =
      datetimeToSecond (timeOf (timeRegs (secondToDatetime t s))) := by
    have hregs := readRegs_receive chip 0x03 (timeRegs (secondToDatetime t s))
    have hlen : (timeRegs (secondToDatetime t s)).length = 7 := rfl
    rw [hlen] at hregs
    unfold readTime writeTime writeRegs
    rw [List.take_of_length_le (by simp [hlen]), hregs]
    rfl
  unfold ReadBack
  constructor
  · intro h
    exact hread ▸ h 8 rfl
  · intro h sent hsent
    obtain rfl : sent = 8 := by simpa [writeTime, writeRegs, timeRegs] using hsent
    exact hread.trans h

/-- Every time is written without an error; it is read back exactly in the years 2000 to 2099,
for which two decimal digits are enough. -/
theorem time_read_back_iff (chip : Chip) (t : Datetime) (s : UInt32) :
    ReadBack chip t s.toNat ↔ s.toNat < 36525 * 86400 := by
  obtain ⟨q, i, m, off, tod, hparts, hsum, -⟩ := secondToDatetime_parts t s.toNat_lt
  have hback := hparts.toSeconds_eq (hsum ▸ s.toNat_lt)
  rw [← hsum] at hback
  rw [hparts.sum_eq] at hsum
  rw [readBack_iff_timeOf, timeOf_timeRegs hparts, ← hparts.year_le_iff hsum]
  by_cases hyear : (secondToDatetime t s.toNat).year ≤ 99
  · simp only [hyear, if_true, iff_true]
    exact (if_pos hparts.valid).trans (congrArg some hback)
  · simp only [hyear, if_false, iff_false]
    intro hsame
    unfold datetimeToSecond at hsame
    split_ifs at hsame with hv
    have hlt := toSeconds_year_zero rfl hv
    rw [Option.some.inj hsame] at hlt
    exact hyear ((hparts.year_le_iff hsum).mpr hlt)

/-- The first second of 2100 is written without an error and read back as the first second of
2000. -/
theorem year_hundred_read_back :
    (writeTime ⟨fun _ => 0, 0⟩ ⟨0, 0, 0, 0, 0, 0, 0⟩ 3155760000 8).1 = true ∧
      readTime (writeTime ⟨fun _ => 0, 0⟩ ⟨0, 0, 0, 0, 0, 0, 0⟩ 3155760000 8).2 1 7 = some 0 ∧
      ¬ ReadBack ⟨fun _ => 0, 0⟩ ⟨0, 0, 0, 0, 0, 0, 0⟩ 3155760000 := by
  have hread : readTime (writeTime ⟨fun _ => 0, 0⟩ ⟨0, 0, 0, 0, 0, 0, 0⟩ 3155760000 8).2 1 7 =
      some 0 := by
    decide +kernel
  refine ⟨rfl, hread, ?_⟩
  intro h
  exact absurd (hread.symm.trans (h 8 rfl)) (by decide)

end EmbeddedTemplate.Pcf212x
