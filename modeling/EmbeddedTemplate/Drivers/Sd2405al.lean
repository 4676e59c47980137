import EmbeddedTemplate.Lib.Transition
import EmbeddedTemplate.Misc.SecondDatetime

/-! The real-time clock SD2405AL, `sd2405al.c`: the control registers of the chip and the copies of them
that the driver works with. -/
namespace EmbeddedTemplate.Sd2405al

open SecondDatetime Transition

/-- `struct sd2405` with the chip on its bus. -/
structure Sd2405 where
  ctr1 : UInt8
  ctr2 : UInt8
  /-- the registers of the chip, which hold what was last written -/
  regs : ℕ → UInt8
  /-- the number of transfers so far -/
  transfers : ℕ

-- `sent n len` is what `i2c_transmit` returns for the `n`-th transfer, of `len` bytes. `hex_to_bcd` is
-- defined outside of the repository.
variable (sent : ℕ → ℕ → ℕ) (hexToBcd : ℕ → UInt8)

def receive (regs : ℕ → UInt8) : List UInt8 → ℕ → UInt8
  | [], r => regs r
  | reg :: dat, r => if reg.toNat ≤ r then dat.getD (r - reg.toNat) (regs r) else regs r

namespace Sd2405

def writeRegs (dev : Sd2405) (regAndDat : List UInt8) : Bool × Sd2405 :=
  let n := sent dev.transfers regAndDat.length
  (n == regAndDat.length,
    { dev with regs := receive dev.regs (regAndDat.take n), transfers := dev.transfers + 1 })

/-- `read_regs`. `none` is the return value 0. -/
def readRegs (dev : Sd2405) (reg : UInt8) (len : ℕ) : Option (List UInt8) × Sd2405 :=
  let n := sent dev.transfers (len + 1)
  (if len + 1 ≠ n then none else some ((List.range len).map fun i => dev.regs (reg.toNat + i)),
    { dev with transfers := dev.transfers + 1 })

/-- `write_enable`. A register that was not written keeps its copy. -/
def writeEnable (dev : Sd2405) (isEnable : Bool) : Bool × Sd2405 :=
  if isEnable then
    let dat := dev.ctr2 ||| 0x80
    let r := dev.writeRegs sent [0x10, dat]
    if !r.1 then (false, r.2)
    else
      let dev := { r.2 with ctr2 := dat }
      let dat := dev.ctr1 ||| 0x84
      let r := dev.writeRegs sent [0x0F, dat]
      if !r.1 then (false, r.2)
      else (true, { r.2 with ctr1 := dat })
  else
    let dat1 := dev.ctr1 &&& ~~~0x84
    let dat2 := dev.ctr2 &&& ~~~0x80
    let r := dev.writeRegs sent [0x0F, dat1, dat2]
    if !r.1 then (false, r.2)
    else (true, { r.2 with ctr1 := dat1, ctr2 := dat2 })

/-- `sd2405_init`, where `i2c_init` returns `ready`. -/
def init (dev : Sd2405) (ready : Bool) : Bool × Sd2405 :=
  if !ready then (false, dev)
  else
    let r := dev.readRegs sent 0x0F 2
    match r.1 with
    | none => (false, r.2)
    | some dat =>
      let dev := { r.2 with ctr1 := dat.getD 0 0, ctr2 := dat.getD 1 0 }
      if dev.ctr2 &&& ((1 : UInt8) <<< 3) = 0 then
        let dev := { dev with ctr2 := dev.ctr2 ||| ((1 : UInt8) <<< 3) }
        let r := dev.writeEnable sent true
        if !r.1 then (false, r.2) else (true, (r.2.writeEnable sent false).2)
      else (true, dev)

/-- What `sd2405_write_time`, `sd2405_store_data`, `sd2405_clear_interrupt` and `sd2405_set_alarm` do with
their bytes. The result of the last `write_enable` is ignored. -/
def writeUnprotected (dev : Sd2405) (regAndDat : Sd2405 → List UInt8) : Bool × Sd2405 :=
  let r := dev.writeEnable sent true
  if !r.1 then (false, r.2)
  else
    let w := r.2.writeRegs sent (regAndDat r.2)
    (w.1, (w.2.writeEnable sent false).2)

/-- `sd2405_write_time`. `t` is its local variable. -/
def writeTime (dev : Sd2405) (t : Datetime) (seconds : ℕ) : Bool × Sd2405 :=
  dev.writeUnprotected sent fun _ =>
    let t := secondToDatetime t seconds
    [0x00, hexToBcd t.second, hexToBcd t.minute, hexToBcd t.hour ||| 0x80, UInt8.ofNat t.weekday,
      hexToBcd t.day, hexToBcd t.month, hexToBcd t.year]

def storeData (dev : Sd2405) (dat : Option (ℕ → UInt8)) (offset len : UInt8) : Bool × Sd2405 :=
  match dat with
  | none => (false, dev)
  | some dat =>
    if 12 < offset.toNat + len.toNat then (false, dev)
    else dev.writeUnprotected sent fun _ => (0x14 + offset) :: (List.range len.toNat).map dat

/-- `sd2405_set_alarm`. `t` is its local variable. -/
def setAlarm (dev : Sd2405) (t : Datetime) (seconds : ℕ) : Bool × Sd2405 :=
  dev.writeUnprotected sent fun _ =>
    let t := secondToDatetime t seconds
    [0x07, 0, hexToBcd t.minute, hexToBcd t.hour, 0, hexToBcd t.day, hexToBcd t.month,
      hexToBcd t.year, 0x76]

end Sd2405

/-- `enum sd2405_interrupt_type`. `other` stands for the values outside of it. -/
inductive InterruptType where
  | disable
  | alarm
  | frequency
  | countdown
  | other
deriving DecidableEq

/-- `enum sd2405_interrupt_single`, where every value but `SD2405_INTERRUPT_SINGLE_PAUSE` counts as
`lowlevel`. -/
inductive InterruptSingle where
  | lowlevel
  | pause
deriving DecidableEq

namespace Sd2405

/-- The `switch` of `sd2405_config_interrupt` on `dat[1]`. -/
def selectType (dat : UInt8) : InterruptType → Option UInt8
  | .disable => some (dat &&& ~~~0x30)
  | .alarm => some (dat ||| (0x10 ||| 0x02))
  | .frequency => some (dat ||| (0x20 ||| 0x01))
  | .countdown => some (dat ||| (0x30 ||| 0x04))
  | .other => none

def configInterrupt (dev : Sd2405) (intType : InterruptType) (single : InterruptSingle) :
    Bool × Sd2405 :=
  let r := dev.writeEnable sent true
  if !r.1 then (false, r.2)
  else
    let dev := r.2
    let dat := dev.ctr2 ||| 0x08
    let dat := if single = .pause then dat ||| 0x40 else dat
    match selectType dat intType with
    | none => (false, (dev.writeEnable sent false).2)
    | some dat =>
      let w := dev.writeRegs sent [0x10, dat]
      let dev := if w.1 then { w.2 with ctr2 := dat } else w.2
      (w.1, (dev.writeEnable sent false).2)

/-- `sd2405_clear_interrupt`. The copy of the register is not changed. -/
def clearInterrupt (dev : Sd2405) : Bool × Sd2405 :=
  dev.writeUnprotected sent fun dev => [0x0F, dev.ctr1 &&& ~~~0x03]

end Sd2405

inductive Op where
  | init (ready : Bool)
  | writeTime (t : Datetime) (seconds : ℕ)
  | storeData (dat : Option (ℕ → UInt8)) (offset len : UInt8)
  | setAlarm (t : Datetime) (seconds : ℕ)
  | configInterrupt (intType : InterruptType) (single : InterruptSingle)
  | clearInterrupt

def call (dev : Sd2405) : Op → Bool × Sd2405
  | .init ready => dev.init sent ready
  | .writeTime t seconds => dev.writeTime sent hexToBcd t seconds
  | .storeData dat offset len => dev.storeData sent dat offset len
  | .setAlarm t seconds => dev.setAlarm sent hexToBcd t seconds
  | .configInterrupt intType single => dev.configInterrupt sent intType single
  | .clearInterrupt => dev.clearInterrupt sent

def allSent (_ len : ℕ) : ℕ := len

def step (dev : Sd2405) (op : Op) : Option Sd2405 := some (call allSent hexToBcd dev op).2

/-- The value of bits 5..4 of CTR2. -/
def InterruptType.code : InterruptType → Option UInt8
  | .disable => some 0
  | .alarm => some 1
  | .frequency => some 2
  | .countdown => some 3
  | .other => none

/-- When it returns 1, CTR2 is configured as it was asked for. -/
def Configured (r : Bool × Sd2405) (intType : InterruptType) (single : InterruptSingle) : Prop :=
  r.1 = true → intType.code = some (r.2.regs 0x10 >>> 4 &&& 3) ∧
    (r.2.regs 0x10 &&& 0x40 ≠ 0 ↔ single = .pause)

def ConfiguredAfter (dev : Sd2405) : Op → Prop
  | .configInterrupt intType single =>
    Configured (dev.configInterrupt allSent intType single) intType single
  | _ => True

def NothingLeft (dev : Sd2405) : Op → Prop
  | .configInterrupt intType single => ∀ code ∈ intType.code,
    (intType = .disable ∨ (dev.ctr2 >>> 4 &&& 3) ||| code = code) ∧
      (single = .pause ∨ dev.ctr2 &&& 0x40 = 0)
  | _ => True

/-- When it returns 1, the flags in CTR1 are clear, the chip is protected and both copies are right. -/
def Cleared (r : Bool × Sd2405) : Prop :=
  r.1 = true → r.2.regs 0x0F &&& 0x03 = 0 ∧ r.2.regs 0x0F &&& 0x84 = 0 ∧
    r.2.ctr1 = r.2.regs 0x0F ∧ r.2.ctr2 = r.2.regs 0x10

def ClearedAfter (dev : Sd2405) : Op → Prop
  | .clearInterrupt => Cleared (dev.clearInterrupt allSent)
  | _ => True

def NoFlag (dev : Sd2405) : Op → Prop
  | .clearInterrupt => dev.ctr1 &&& 0x03 = 0
  | _ => True

instance (r : Bool × Sd2405) (intType : InterruptType) (single : InterruptSingle) :
    Decidable (Configured r intType single) := inferInstanceAs (Decidable (_ → _))

instance (r : Bool × Sd2405) : Decidable (Cleared r) := inferInstanceAs (Decidable (_ → _))

variable {hexToBcd} {dev : Sd2405}

@[simp] theorem writeRegs_allSent (dev : Sd2405) (regAndDat : List UInt8) :
    dev.writeRegs allSent regAndDat =
      (true, { dev with regs := receive dev.regs regAndDat, transfers := dev.transfers + 1 }) := by
  simp [Sd2405.writeRegs, allSent]

structure Synced (dev : Sd2405) : Prop where
  ctr1 : dev.ctr1 = dev.regs 0x0F
  ctr2 : dev.ctr2 = dev.regs 0x10

theorem writeEnable_true (dev : Sd2405) : (dev.writeEnable allSent true).1 = true ∧
    (dev.writeEnable allSent true).2.ctr1 = dev.ctr1 ||| 0x84 ∧
    (dev.writeEnable allSent true).2.ctr2 = dev.ctr2 ||| 0x80 := by
  simp [Sd2405.writeEnable]

/-- The last step of most operations writes both registers from their copies. -/
theorem writeEnable_false (dev : Sd2405) : Synced (dev.writeEnable allSent false).2 ∧
    (dev.writeEnable allSent false).2.ctr1 = dev.ctr1 &&& ~~~0x84 ∧
    (dev.writeEnable allSent false).2.ctr2 = dev.ctr2 &&& ~~~0x80 := by
  refine ⟨⟨?_, ?_⟩, ?_, ?_⟩
  all_goals simp [Sd2405.writeEnable, receive]

theorem protect_unprotect_ctr1 : ∀ b : UInt8, (b ||| 0x84) &&& ~~~0x84 = b &&& ~~~0x84 := by
  decide +kernel

theorem protect_unprotect_ctr2 : ∀ b : UInt8, (b ||| 0x80) &&& ~~~0x80 = b &&& ~~~0x80 := by
  decide +kernel

theorem unprotect_flags (b : UInt8) : b &&& ~~~0x84 &&& 0x03 = b &&& 0x03 := by
  rw [UInt8.and_assoc]
  rfl

theorem unprotect_protected (b : UInt8) : b &&& ~~~0x84 &&& 0x84 = 0 := by
  rw [UInt8.and_assoc]
  exact UInt8.and_zero

theorem writeEnable_false_ctr1 {b : UInt8} (h : dev.ctr1 = b ||| 0x84) :
    (dev.writeEnable allSent false).2.ctr1 = b &&& ~~~0x84 := by
  rw [(writeEnable_false dev).2.1, h, protect_unprotect_ctr1]

theorem writeEnable_false_ctr2 {b : UInt8} (h : dev.ctr2 = b ||| 0x80) :
    (dev.writeEnable allSent false).2.ctr2 = b &&& ~~~0x80 := by
  rw [(writeEnable_false dev).2.2, h, protect_unprotect_ctr2]

theorem writeEnable_twice (dev : Sd2405) :
    Synced ((dev.writeEnable allSent true).2.writeEnable allSent false).2 ∧
      ((dev.writeEnable allSent true).2.writeEnable allSent false).2.ctr1 = dev.ctr1 &&& ~~~0x84 ∧
      ((dev.writeEnable allSent true).2.writeEnable allSent false).2.ctr2 = dev.ctr2 &&& ~~~0x80 := by
  obtain ⟨-, hctr1, hctr2⟩ := writeEnable_true dev
  exact ⟨(writeEnable_false _).1, writeEnable_false_ctr1 hctr1, writeEnable_false_ctr2 hctr2⟩

/-- Whatever is written between the two `write_enable`, the chip ends with the copies, without their
write enable bits. -/
theorem writeUnprotected_eq (dev : Sd2405) (regAndDat : Sd2405 → List UInt8) :
    (dev.writeUnprotected allSent regAndDat).1 = true ∧
      Synced (dev.writeUnprotected allSent regAndDat).2 ∧
      (dev.writeUnprotected allSent regAndDat).2.ctr1 = dev.ctr1 &&& ~~~0x84 ∧
      (dev.writeUnprotected allSent regAndDat).2.ctr2 = dev.ctr2 &&& ~~~0x80 := by
  obtain ⟨hok, hctr1, hctr2⟩ := writeEnable_true dev
  unfold Sd2405.writeUnprotected
  simp only [hok, Bool.not_true, Bool.false_eq_true, if_false, writeRegs_allSent]
  exact ⟨trivial, (writeEnable_false _).1, writeEnable_false_ctr1 hctr1, writeEnable_false_ctr2 hctr2⟩

/-- The value that `sd2405_config_interrupt` writes to CTR2 when the copy of it is `ctr2`. -/
def configured (ctr2 : UInt8) (intType : InterruptType) (single : InterruptSingle) : Option UInt8 :=
  Sd2405.selectType (if single = .pause then ctr2 ||| 0x80 ||| 0x08 ||| 0x40 else ctr2 ||| 0x80 ||| 0x08)
    intType

theorem configInterrupt_eq (dev : Sd2405) (intType : InterruptType) (single : InterruptSingle) :
    (dev.configInterrupt allSent intType single).1 = (configured dev.ctr2 intType single).isSome ∧
      Synced (dev.configInterrupt allSent intType single).2 ∧
      (dev.configInterrupt allSent intType single).2.ctr1 = dev.ctr1 &&& ~~~0x84 ∧
      (dev.configInterrupt allSent intType single).2.ctr2 =
        (configured dev.ctr2 intType single).getD dev.ctr2 &&& ~~~0x80 := by
  obtain ⟨hok, hctr1, hctr2⟩ := writeEnable_true dev
  unfold Sd2405.configInterrupt configured
  simp only [hok, hctr2, Bool.not_true, Bool.false_eq_true, if_false, writeRegs_allSent, if_true]
  cases Sd2405.selectType (if single = .pause then dev.ctr2 ||| 0x80 ||| 0x08 ||| 0x40
      else dev.ctr2 ||| 0x80 ||| 0x08) intType with
  | none => exact ⟨rfl, writeEnable_twice dev⟩
  | some dat =>
    exact ⟨rfl, (writeEnable_false _).1, writeEnable_false_ctr1 hctr1, (writeEnable_false _).2.2⟩

/-- What is written asks for the configuration exactly when the copy adds no bits to it. -/
theorem configured_iff (intType : InterruptType) (single : InterruptSingle) (ctr2 : UInt8) :
    ((configured ctr2 intType single).isSome = true →
      intType.code = some (((configured ctr2 intType single).getD ctr2 &&& ~~~0x80) >>> 4 &&& 3) ∧
        (((configured ctr2 intType single).getD ctr2 &&& ~~~0x80) &&& 0x40 ≠ 0 ↔ single = .pause)) ↔
      ∀ code ∈ intType.code, (intType = .disable ∨ (ctr2 >>> 4 &&& 3) ||| code = code) ∧
        (single = .pause ∨ ctr2 &&& 0x40 = 0) := by
  cases intType <;> cases single
  all_goals
    simp only [configured, Sd2405.selectType, InterruptType.code, Option.isSome_some, Option.isSome_none,
      Option.getD_some, Option.mem_def, Option.some.injEq, forall_eq', reduceCtorEq, Bool.false_eq_true,
      true_imp_iff, false_imp_iff, implies_true, if_true, if_false, true_or, false_or, true_and,
      and_true, ne_eq, iff_true, iff_false, not_not]
  all_goals
    revert ctr2
    decide +kernel

/-- A configuration is right after each `sd2405_config_interrupt` exactly when at each of them the copy
of CTR2 has nothing left from earlier ones that it does not ask for. -/
theorem configured_after_iff (dev : Sd2405) (ops : List Op) :
    AllSteps (step hexToBcd) ConfiguredAfter dev ops ↔ AllSteps (step hexToBcd) NothingLeft dev ops := by
  apply allSteps_congr
  intro dev op
  cases op with
  | configInterrupt intType single =>
    obtain ⟨hok, hsync, -, hctr2⟩ := configInterrupt_eq dev intType single
    rw [ConfiguredAfter, Configured, NothingLeft, ← configured_iff, ← hok, ← hctr2, hsync.ctr2]
  | _ => rfl

/-- After a countdown with pauses, an alarm without them is still a countdown with pauses. -/
theorem configured_after_countdown :
    ∃ dev ∈ run (step fun _ => 0) ⟨0, 0, fun _ => 0, 0⟩
        [.init true, .configInterrupt .countdown .pause],
      (dev.configInterrupt allSent .alarm .lowlevel).1 = true ∧
        (dev.configInterrupt allSent .alarm .lowlevel).2.regs 0x10 = 0x7E ∧
        ¬ Configured (dev.configInterrupt allSent .alarm .lowlevel) .alarm .lowlevel := by
  decide +kernel

/-- The flags in CTR1 are clear after each `sd2405_clear_interrupt` exactly when at each of them there
were none in the copy of CTR1. -/
theorem cleared_after_iff (dev : Sd2405) (ops : List Op) :
    AllSteps (step hexToBcd) ClearedAfter dev ops ↔ AllSteps (step hexToBcd) NoFlag dev ops := by
  apply allSteps_congr
  intro dev op
  cases op with
  | clearInterrupt =>
    obtain ⟨hok, hsync, hctr1, -⟩ := writeUnprotected_eq dev fun dev => [0x0F, dev.ctr1 &&& ~~~0x03]
    simp only [ClearedAfter, Cleared, NoFlag, Sd2405.clearInterrupt, hok, ← hsync.ctr1, ← hsync.ctr2, hctr1,
      unprotect_flags, unprotect_protected, and_true, true_imp_iff]
  | _ => rfl

/-- The flags that `sd2405_init` has read are set again by the last `write_enable`. -/
theorem cleared_after_flags :
    ∃ dev ∈ run (step fun _ => 0) ⟨0, 0, fun r => if r = 0x0F then 0x03 else 0, 0⟩ [.init true],
      (dev.clearInterrupt allSent).1 = true ∧ (dev.clearInterrupt allSent).2.regs 0x0F = 0x03 ∧
        ¬ Cleared (dev.clearInterrupt allSent) := by
  decide +kernel

end EmbeddedTemplate.Sd2405al
