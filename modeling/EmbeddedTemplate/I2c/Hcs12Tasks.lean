import EmbeddedTemplate.I2c.Hcs12Wait
import EmbeddedTemplate.Lib.Transition
import Mathlib.Logic.Function.Basic

/-! Tasks that share a driver of `hcs12_i2c.c`, with its interrupts in between. -/
namespace EmbeddedTemplate.Hcs12I2c
open Polling (Round)

/-- The calls, with the bytes behind `w` and what the buffer behind `r` contains. -/
inductive Call where
  | write (addr : UInt8) (w : List UInt8) (len : UInt8)
  | read (addr : UInt8) (r : ℕ → UInt8) (len : UInt8)
  | writeThenRead (addr : UInt8) (w : List UInt8) (wlen : UInt8) (r : ℕ → UInt8) (rlen : UInt8)

/-- The statements from the test in `acquire_i2c` that succeeds to `hcs12_i2c_start_and_tx_addr`. -/
inductive Stmt where
  | initRegs
  | txData (w : List UInt8)
  | txLength (len : UInt8)
  | txIndex
  | rxData (r : ℕ → UInt8)
  | rxLength (len : UInt8)
  | rxIndex
  | clearFlags
  | slaveAddr (addr : UInt8)

def Call.stmts : Call → List Stmt
  | .write addr w len =>
    [.initRegs, .txData w, .txLength len, .txIndex, .rxLength 0, .clearFlags, .slaveAddr addr]
  | .read addr r len => [.initRegs, .txLength 0, .rxData r, .rxLength len, .rxIndex, .slaveAddr addr]
  | .writeThenRead addr w wlen r rlen =>
    [.initRegs, .txLength wlen, .txData w, .txIndex, .rxLength rlen, .rxData r, .rxIndex, .slaveAddr addr]

/-- The bit `aquired`, and the rest of the driver. -/
structure Shared where
  aquired : Bool
  dev : Hcs12I2c

/-- `flags.byte = 0`. -/
def Shared.clearFlags (s : Shared) : Shared :=
  ⟨false, { s.dev with txing := false, rxing := false, txingAddr := false }⟩

/-- `init_regs` and `deinit_regs`: neither master nor transmitter. -/
def Shared.resetRegs (s : Shared) : Shared :=
  { s with dev := { s.dev with master := false, transmit := false, txak := false } }

def Stmt.exec (s : Shared) : Stmt → Shared
  | .initRegs => s.resetRegs
  | .txData w => { s with dev := { s.dev with txData := w } }
  | .txLength len => { s with dev := { s.dev with txLength := len.toNat } }
  | .txIndex => { s with dev := { s.dev with txIndex := 0 } }
  | .rxData r => { s with dev := { s.dev with rxData := r } }
  | .rxLength len => { s with dev := { s.dev with rxLength := len.toNat } }
  | .rxIndex => { s with dev := { s.dev with rxIndex := 0 } }
  | .clearFlags => s.clearFlags
  | .slaveAddr addr => { s with dev := { s.dev with slaveAddr := addr } }

def Stmt.clears : Stmt → Bool
  | .clearFlags => true
  | _ => false

/-- Where a task is between `acquire_i2c` and the end of `release_i2c`. -/
inductive Phase where
  /-- before the `n`-th statement -/
  | setUp (n : ℕ)
  /-- in the first loop of `hcs12_i2c_start_and_tx_addr` -/
  | busy (i : ℕ)
  /-- before `control.Byte |= 0x30` -/
  | sendStart
  /-- in the second loop -/
  | started (i : ℕ)
  | waitTx (i : ℕ)
  | waitRx (i : ℕ) (len : UInt8)
  | release (ret : UInt8)

/-- Where a task is. Outside of a call it has the value that the last one returned. -/
inductive Pc where
  | out (ret : UInt8)
  | acquire (c : Call) (i : ℕ)
  | inside (c : Call) (p : Phase)

/-- Behind the bytes to be sent, of which `len` are acknowledged. -/
def Call.afterTx (c : Call) (len : UInt8) : Phase :=
  match c with
  | .write _ _ _ => .release len
  | .read _ _ _ => .waitRx 0 0
  | .writeThenRead _ _ wlen _ rlen =>
    if 0 < wlen ∧ len < wlen then .release len else if 0 < rlen then .waitRx 0 len else .release len

/-- Behind a successful `hcs12_i2c_start_and_tx_addr`. -/
def Call.afterStart (c : Call) : Phase :=
  match c with
  | .write _ _ _ => .waitTx 0
  | .read _ _ _ => c.afterTx 0
  | .writeThenRead _ _ wlen _ _ => if 0 < wlen then .waitTx 0 else c.afterTx 0

def Shared.writeAddr (s : Shared) : Shared :=
  let addr := s.dev.slaveAddr <<< 1
  { s with dev := s.dev.emit [.write (if s.dev.txLength ≤ 0 then addr ||| 0x01 else addr)] }

/-- One atomic step of a task inside, where `status` is bit 5 of the status register. -/
def Phase.step (c : Call) (status : Bool) (s : Shared) : Phase → Pc × Shared
  | .setUp n =>
    match c.stmts[n]? with
    | some stmt => (.inside c (.setUp (n + 1)), stmt.exec s)
    | none => (.inside c (.busy 0), s)
  | .busy i =>
    match busyRound status i with
    | .stop true => (.inside c .sendStart, { s with dev := { s.dev with txingAddr := true } })
    | .stop false => (.inside c (.release 0), s)
    | .again i => (.inside c (.busy i), s)
  | .sendStart => (.inside c (.started 0), { s with dev := { s.dev with master := true, transmit := true } })
  | .started i =>
    match startRound status i with
    | .stop true => (.inside c c.afterStart, s.writeAddr)
    | .stop false => (.inside c (.release 0), s)
    | .again i => (.inside c (.started i), s)
  | .waitTx i =>
    match waitRound (.ofNat s.dev.txLength) (.ofNat s.dev.txIndex) i with
    | .stop len => (.inside c (c.afterTx len), s)
    | .again i => (.inside c (.waitTx i), s)
  | .waitRx i len =>
    match waitRound (.ofNat s.dev.rxLength) (.ofNat s.dev.rxIndex) i with
    | .stop got => (.inside c (.release (len + got)), s)
    | .again i => (.inside c (.waitRx i len), s)
  | .release ret => (.out ret, s.resetRegs.clearFlags)

/-- One round of `acquire_i2c`. -/
def acquireStep (c : Call) (i : ℕ) (s : Shared) : Pc × Shared :=
  match acquireRound s.aquired i with
  | .stop true => (.inside c (.setUp 0), { s with aquired := true })
  | .stop false => (.out 0, s)
  | .again i => (.acquire c i, s)

structure Tasks where
  shared : Shared
  pc : ℕ → Pc

inductive Action where
  /-- the task calls one of the functions -/
  | call (t : ℕ) (c : Call)
  /-- the next atomic step of the task -/
  | task (t : ℕ) (status : Bool)
  | isr (rxak : Bool) (dat : UInt8)

def Tasks.set (s : Tasks) (t : ℕ) (r : Pc × Shared) : Tasks := ⟨r.2, Function.update s.pc t r.1⟩

def step (s : Tasks) : Action → Option Tasks
  | .call t c =>
    match s.pc t with
    | .out _ => some (s.set t (.acquire c 0, s.shared))
    | _ => none
  | .task t status =>
    match s.pc t with
    | .out _ => none
    | .acquire c i => some (s.set t (acquireStep c i s.shared))
    | .inside c p => some (s.set t (p.step c status s.shared))
  | .isr rxak dat => some { s with shared := { s.shared with dev := s.shared.dev.isr (rxak, dat) } }

/-- `hcs12_i2c_init`, which leaves `slave_addr` as it is. -/
def init (slaveAddr : UInt8) : Hcs12I2c where
  txing := false
  rxing := false
  txingAddr := false
  txData := []
  txLength := 0
  txIndex := 0
  rxData := fun _ => 0
  rxLength := 0
  rxIndex := 0
  slaveAddr := slaveAddr
  master := false
  transmit := false
  txak := false
  log := []

/-- The bit `aquired` is clear, as after `hcs12_i2c_init`, and no task is in a call. -/
def start (dev : Hcs12I2c) : Tasks := ⟨⟨false, dev⟩, fun _ => .out 0⟩

/-- The task has acquired the driver and not yet released it. -/
def Pc.isInside : Pc → Bool
  | .inside _ _ => true
  | _ => false

/-- The task is inside and has executed `flags.byte = 0`, which it does in `hcs12_i2c_write` only. -/
def Pc.hasCleared : Pc → Bool
  | .inside c (.setUp n) => (c.stmts.take n).any Stmt.clears
  | .inside c _ => c.stmts.any Stmt.clears
  | _ => false

def Exclusive (s : Tasks) : Prop := ∀ t u, (s.pc t).isInside → (s.pc u).isInside → t = u

/-- The bit `aquired` is not tested while a task is behind `flags.byte = 0` of `hcs12_i2c_write` and
has not released the driver. -/
def Guarded (s : Tasks) : Action → Prop
  | .task t _ => ∀ c i, s.pc t = .acquire c i → ∀ u, (s.pc u).hasCleared = false
  | _ => True

section
variable {s s' : Tasks} {a : Action}

/-- At most one task is inside, and it has the bit `aquired` set unless it has cleared all flags. -/
structure Locked (s : Tasks) : Prop where
  exclusive : Exclusive s
  aquired : ∀ t, (s.pc t).isInside → s.shared.aquired = !(s.pc t).hasCleared

theorem exec_aquired (stmt : Stmt) (s : Shared) :
    (stmt.exec s).aquired = (s.aquired && !stmt.clears) := by
  cases stmt <;> simp [Stmt.exec, Stmt.clears, Shared.resetRegs, Shared.clearFlags]

theorem hasCleared_afterTx (c : Call) (len : UInt8) :
    (Pc.inside c (c.afterTx len)).hasCleared = c.stmts.any Stmt.clears := by
  cases c with
  | write => rfl
  | read => rfl
  | writeThenRead =>
    simp only [Call.afterTx]
    split_ifs <;> rfl

theorem hasCleared_afterStart (c : Call) :
    (Pc.inside c c.afterStart).hasCleared = c.stmts.any Stmt.clears := by
  cases c with
  | write => rfl
  | read => rfl
  | writeThenRead addr w wlen r rlen =>
    simp only [Call.afterStart]
    split_ifs
    · rfl
    · exact hasCleared_afterTx (.writeThenRead addr w wlen r rlen) 0

theorem phase_step (c : Call) (status : Bool) (s : Shared) (p : Phase)
    (h : s.aquired = !(Pc.inside c p).hasCleared) :
    (p.step c status s).1.isInside = false ∨
      (p.step c status s).2.aquired = !(p.step c status s).1.hasCleared := by
  cases p with
  | setUp n =>
    right
    rw [Pc.hasCleared] at h
    cases hstmt : c.stmts[n]? with
    | some stmt =>
      simp only [Phase.step, hstmt, exec_aquired, h, Pc.hasCleared, List.take_add_one, Option.toList_some,
        List.any_append, List.any_cons, List.any_nil, Bool.or_false, Bool.not_or]
    | none =>
      rw [List.take_of_length_le (List.getElem?_eq_none_iff.mp hstmt)] at h
      simp only [Phase.step, hstmt]
      exact h
  | busy i =>
    right
    simp only [Phase.step]
    split <;> exact h
  | sendStart => exact .inr h
  | started i =>
    right
    simp only [Phase.step]
    split
    · rw [hasCleared_afterStart]
      exact h
    · exact h
    · exact h
  | waitTx i =>
    right
    simp only [Phase.step]
    split
    · rw [hasCleared_afterTx]
      exact h
    · exact h
  | waitRx i len =>
    right
    simp only [Phase.step]
    split <;> exact h
  | release ret => exact .inl rfl

theorem acquireStep_cases (c : Call) (i : ℕ) (s : Shared) :
    (s.aquired = false ∧ acquireStep c i s = (.inside c (.setUp 0), { s with aquired := true })) ∨
      (s.aquired = true ∧ (acquireStep c i s).1.isInside = false ∧ (acquireStep c i s).2 = s) := by
  unfold acquireStep acquireRound
  cases hs : s.aquired with
  | false => exact .inl ⟨rfl, rfl⟩
  | true =>
    right
    by_cases hi : 20 ≤ i
    · simp [hi, Pc.isInside]
    · simp [hi, Pc.isInside]

theorem set_pc_self (s : Tasks) (t : ℕ) (r : Pc × Shared) : (s.set t r).pc t = r.1 :=
  Function.update_self _ _ _

theorem set_pc_of_ne (s : Tasks) {t u : ℕ} (h : u ≠ t) (r : Pc × Shared) : (s.set t r).pc u = s.pc u :=
  Function.update_of_ne h _ _

theorem locked_set_alone {t : ℕ} {r : Pc × Shared} (hall : ∀ u ≠ t, (s.pc u).isInside = false)
    (hr : r.1.isInside = true → r.2.aquired = !r.1.hasCleared) : Locked (s.set t r) := by
  have honly : ∀ u, ((s.set t r).pc u).isInside = true → u = t := by
    intro u hu
    by_contra hne
    rw [set_pc_of_ne s hne, hall u hne] at hu
    cases hu
  constructor
  · intro u v hu hv
    rw [honly u hu, honly v hv]
  · intro u hu
    have hut := honly u hu
    subst hut
    rw [set_pc_self] at hu ⊢
    exact hr hu

theorem Locked.set_outside (h : Locked s) {t : ℕ} {r : Pc × Shared} (hpc : r.1.isInside = false)
    (hr : r.2 = s.shared) : Locked (s.set t r) := by
  have hsame : ∀ u, ((s.set t r).pc u).isInside = true → (s.set t r).pc u = s.pc u := by
    intro u hu
    by_cases hut : u = t
    · subst hut
      rw [set_pc_self, hpc] at hu
      cases hu
    · exact set_pc_of_ne s hut r
  constructor
  · intro u v hu hv
    have hu' := hsame u hu
    have hv' := hsame v hv
    rw [hu'] at hu
    rw [hv'] at hv
    exact h.exclusive u v hu hv
  · intro u hu
    have hu' := hsame u hu
    rw [hu'] at hu ⊢
    exact (congrArg Shared.aquired hr).trans (h.aquired u hu)

theorem Locked.others (h : Locked s) {t : ℕ} (ht : (s.pc t).isInside = true) :
    ∀ u ≠ t, (s.pc u).isInside = false := by
  intro u hne
  by_contra hu
  exact hne (h.exclusive u t (Bool.not_eq_false _ ▸ hu) ht)

/-- Every step keeps the lock, whatever it does, when the bit is not tested behind a task that has
cleared it. -/
theorem step_locked (h : Locked s) (hg : Guarded s a) (hs : step s a = some s') : Locked s' := by
  cases a with
  | call t c =>
    simp only [step] at hs
    split at hs
    · cases hs
      exact h.set_outside rfl rfl
    · cases hs
  | task t status =>
    simp only [step] at hs
    split at hs
    · cases hs
    · rename_i c i hpc
      cases hs
      rcases acquireStep_cases c i s.shared with ⟨hfree, heq⟩ | ⟨-, hout, hsame⟩
      · have hnone : ∀ u, (s.pc u).isInside = false := by
          intro u
          by_contra hu
          have hset := h.aquired u (Bool.not_eq_false _ ▸ hu)
          rw [hfree, hg c i hpc u] at hset
          cases hset
        rw [heq]
        exact locked_set_alone (fun u _ => hnone u) fun _ => rfl
      · exact h.set_outside hout hsame
    · rename_i c p hpc
      cases hs
      have hin : (s.pc t).isInside = true := by
        rw [hpc]
        rfl
      have hbit := h.aquired t hin
      rw [hpc] at hbit
      apply locked_set_alone (h.others hin)
      intro hr
      rcases phase_step c status s.shared p hbit with hout | hkeep
      · rw [hout] at hr
        cases hr
      · exact hkeep
  | isr rxak dat =>
    cases hs
    exact ⟨h.exclusive, h.aquired⟩

/-- The condition is needed: a test behind a task that has cleared the bit lets a second task in. -/
theorem guarded_of_exclusive (h : Locked s) (hs : ∀ s', step s a = some s' → Exclusive s') :
    Guarded s a := by
  cases a with
  | call t c => trivial
  | isr rxak dat => trivial
  | task t status =>
    intro c i hpc u
    by_contra hu
    have hclear : (s.pc u).hasCleared = true := Bool.not_eq_false _ ▸ hu
    have hin : (s.pc u).isInside = true := by
      cases hpcu : s.pc u with
      | inside c' p => rfl
      | out ret => simp [hpcu, Pc.hasCleared] at hclear
      | acquire c' i' => simp [hpcu, Pc.hasCleared] at hclear
    have hne : u ≠ t := by
      rintro rfl
      rw [hpc] at hin
      cases hin
    have hfree := h.aquired u hin
    rw [hclear] at hfree
    have htwo : Exclusive (s.set t (acquireStep c i s.shared)) := by
      apply hs
      simp only [step, hpc]
    rcases acquireStep_cases c i s.shared with ⟨-, heq⟩ | ⟨hset, -, -⟩
    · apply hne
      apply htwo u t
      · rwa [set_pc_of_ne s hne]
      · rw [set_pc_self, heq]
        rfl
    · rw [hset] at hfree
      cases hfree

theorem start_locked (dev : Hcs12I2c) : Locked (start dev) :=
  ⟨fun _ _ h => Bool.noConfusion h, fun _ h => Bool.noConfusion h⟩

/-- In every run, at most one task is inside at any time exactly when no test of the bit `aquired`
comes behind a `flags.byte = 0` of `hcs12_i2c_write` that has not been released. -/
theorem exclusive_iff_guarded (dev : Hcs12I2c) (as : List Action) :
    (∀ n s, Transition.run step (start dev) (as.take n) = some s → Exclusive s) ↔
      Transition.AllSteps step Guarded (start dev) as := by
  apply Transition.forall_take_iff_allSteps (fun _ h => Locked.exclusive h)
  · exact fun _ _ _ h hg hs => step_locked h hg hs
  · exact fun _ _ h hs => guarded_of_exclusive h hs
  · exact start_locked dev

/-- The second task finds the bit clear while the first is still in `hcs12_i2c_write`. -/
theorem two_tasks_inside :
    ∃ s, Transition.run step (start (init 0))
        [.call 0 (.write 0x50 [1] 1), .task 0 false, .task 0 false, .task 0 false, .task 0 false,
          .task 0 false, .task 0 false, .task 0 false, .call 1 (.read 0x50 (fun _ => 0) 1),
          .task 1 false] = some s ∧ ¬ Exclusive s := by
  refine ⟨_, rfl, fun h => ?_⟩
  exact absurd (h 0 1 rfl rfl) (by decide)

end

end EmbeddedTemplate.Hcs12I2c
