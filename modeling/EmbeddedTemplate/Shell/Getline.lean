import EmbeddedTemplate.Shell.Buffer

/-! `getline` and `shell_loop`: the line buffer under every input. A step takes one character from
`getchar`. -/
namespace EmbeddedTemplate.Shell.Buffer

open StringMem

/-- `getline` where it calls `getchar`. -/
structure Reading where
  mem : Mem
  buf : ℤ
  i : ℤ

/-- The body of the loop for the character `c`. With `true`, it has returned. -/
def getlineChar (r : Reading) (c : ℤ) : Reading × Bool :=
  if c = 8 ∨ c = 0x7F then
    if 0 < r.i then ({ r with i := r.i - 1, buf := r.buf - 1 }, false) else (r, false)
  else
    let mem := if c = 13 ∨ c = 10 then r.mem.put .getline r.buf 0 else r.mem
    if (c = 13 ∨ c = 10) ∧ 0 < r.i then ({ r with mem }, true)
    else (⟨mem.put .getline r.buf (UInt8.ofInt c), r.buf + 1, r.i + 1⟩, false)

/-- The body and the test of the loop, which is followed by the last statement when it fails. With the
variables behind the body, it gives the memory when `getline` has returned. -/
def getlineStep (bufSize : ℤ) (r : Reading) (c : ℤ) : Reading × Option Mem :=
  let r := getlineChar r c
  if r.2 then (r.1, some r.1.mem)
  else if r.1.i < bufSize - 1 then (r.1, none)
  else (r.1, some (r.1.mem.put .getline r.1.buf 0))

/-- `shell_loop` where `getline` calls `getchar`. -/
structure ShellLoop where
  rc : ℤ
  reading : Reading

/-- The test of the loop in `getline` holds at once. A handler leaves `touch` in the buffer, to which its
arguments point. -/
def loopStep (shellCommands : List Command) (touch : (ℤ → UInt8) → ℤ → UInt8) (cmd : ℤ) (s : ShellLoop)
    (c : ℤ) : Option ShellLoop :=
  match getlineStep (maxSize - 1) s.reading c with
  | (r, none) => some { s with reading := r }
  | (_, some m) => do
    let (result, m) ← executeCommand shellCommands m cmd s.rc
    let m := if result.called.isSome then { m with byte := touch m.byte } else m
    some ⟨result.ret.toInt, ⟨m, cmd, 0⟩⟩

/-- `char cmd[SHELL_MAXSIZE] = {0}` and what is around it. -/
def start (cmd : ℤ) (outside : ℤ → UInt8) : ShellLoop :=
  ⟨0, ⟨⟨fun p => if cmd ≤ p ∧ p < cmd + maxSize then 0 else outside p, []⟩, cmd, 0⟩⟩

section Stream

-- The handlers can be different ones each time, and `stream` is what `getchar` returns.
variable (shellCommands : ℕ → List Command) (touch : ℕ → (ℤ → UInt8) → ℤ → UInt8) (cmd : ℤ)
  (outside : ℤ → UInt8) (stream : ℕ → ℤ)

def states : ℕ → Option ShellLoop
  | 0 => some (start cmd outside)
  | n + 1 => (states n).bind fun s => loopStep (shellCommands n) (touch n) cmd s (stream n)

end Stream

/-- The pointer is at the character `i` of the buffer, and there is room for it and a NUL. -/
def AtCursor (cmd : ℤ) (r : Reading) : Prop := r.buf = cmd + r.i ∧ 0 ≤ r.i ∧ r.i ≤ 48

/-- Every write is to the buffer, and no final space is appended. -/
def WritesInside (cmd : ℤ) (m : Mem) : Prop :=
  ∀ w ∈ m.writes, w.1 ≠ .finalSpace ∧ cmd ≤ w.2 ∧ w.2 < cmd + maxSize

def LineAt (cmd : ℤ) (m : Mem) : Prop := ∃ s, s.length ≤ 48 ∧ Holds m cmd s

/-- `getline` reads a character. -/
structure Safe (cmd : ℤ) (s : ShellLoop) : Prop where
  cursor : AtCursor cmd s.reading
  lt : s.reading.i < 48
  inside : WritesInside cmd s.reading.mem

variable {cmd : ℤ} {r : Reading} {m m' : Mem} {s : ShellLoop}

theorem maxSize_eq : (maxSize : ℤ) = 50 := rfl

theorem WritesInside.edits (h : WritesInside cmd m) (he : Edits Executed cmd (cmd + maxSize) m m') :
    WritesInside cmd m' :=
  he.forall_writes h fun _ hP hlo hhi => ⟨hP, hlo, hhi⟩

theorem AtCursor.put (h : AtCursor cmd r) (m : Mem) (c : UInt8) :
    Edits Executed cmd (cmd + maxSize) m (m.put .getline r.buf c) := by
  obtain ⟨hbuf, hlo, hhi⟩ := h
  rw [maxSize_eq]
  exact .put (by simp [Executed]) (by omega) (by omega)

theorem AtCursor.lineAt (h : AtCursor cmd r) (hnul : m.byte r.buf = 0) : LineAt cmd m := by
  obtain ⟨hbuf, hlo, hhi⟩ := h
  have hnul' : m.byte (cmd + r.i.toNat) = 0 := by
    rw [← hnul, hbuf]
    congr 1
    omega
  obtain ⟨s, hlen, hs⟩ := exists_holds hnul'
  exact ⟨s, by omega, hs⟩

theorem getlineChar_spec (h : AtCursor cmd r) (hi : r.i < 48) (c : ℤ) :
    AtCursor cmd (getlineChar r c).1 ∧
      Edits Executed cmd (cmd + maxSize) r.mem (getlineChar r c).1.mem ∧
      ((getlineChar r c).2 = true → LineAt cmd (getlineChar r c).1.mem) := by
  have hput := h.put
  unfold getlineChar
  by_cases hback : c = 8 ∨ c = 0x7F
  · rw [if_pos hback]
    obtain ⟨hbuf, hlo, hhi⟩ := h
    split_ifs with hpos
    · refine ⟨⟨?_, ?_, ?_⟩, .refl _ _ _ _, by simp⟩
      all_goals dsimp only; omega
    · exact ⟨⟨hbuf, hlo, hhi⟩, .refl _ _ _ _, by simp⟩
  · rw [if_neg hback]
    dsimp only
    by_cases hend : (c = 13 ∨ c = 10) ∧ 0 < r.i
    · rw [if_pos hend, if_pos hend.1]
      exact ⟨h, hput r.mem 0, fun _ => AtCursor.lineAt h put_byte_self⟩
    · rw [if_neg hend]
      have hmem : Edits Executed cmd (cmd + maxSize) r.mem
          (if c = 13 ∨ c = 10 then r.mem.put .getline r.buf 0 else r.mem) := by
        split_ifs
        · exact hput r.mem 0
        · exact .refl _ _ _ _
      obtain ⟨hbuf, hlo, hhi⟩ := h
      refine ⟨⟨?_, ?_, ?_⟩, hmem.trans (hput _ _), by simp⟩
      all_goals dsimp only; omega

theorem getlineStep_spec (h : AtCursor cmd r) (hi : r.i < 48) (c : ℤ) :
    AtCursor cmd (getlineStep (maxSize - 1) r c).1 ∧
      ((getlineStep (maxSize - 1) r c).2 = none →
        (getlineStep (maxSize - 1) r c).1.i < 48 ∧
          Edits Executed cmd (cmd + maxSize) r.mem (getlineStep (maxSize - 1) r c).1.mem) ∧
      ∀ m ∈ (getlineStep (maxSize - 1) r c).2,
        LineAt cmd m ∧ Edits Executed cmd (cmd + maxSize) r.mem m := by
  obtain ⟨hcur, hedit, hline⟩ := getlineChar_spec h hi c
  unfold getlineStep
  dsimp only
  split_ifs with hret hlt
  · refine ⟨hcur, by simp, ?_⟩
    rintro m hm
    cases hm
    exact ⟨hline hret, hedit⟩
  · rw [maxSize_eq] at hlt
    exact ⟨hcur, fun _ => ⟨by dsimp only; omega, hedit⟩, by simp⟩
  · refine ⟨hcur, by simp, ?_⟩
    rintro m hm
    cases hm
    exact ⟨hcur.lineAt put_byte_self, hedit.trans (hcur.put _ 0)⟩

theorem start_safe (cmd : ℤ) (outside : ℤ → UInt8) : Safe cmd (start cmd outside) := by
  refine ⟨⟨?_, ?_, ?_⟩, ?_, by simp [start, WritesInside]⟩
  all_goals simp [start]

/-- A complete line is executed without leaving the buffer, and the next one is read from its start. -/
theorem loopStep_line (h : Safe cmd s) (shellCommands : List Command) (touch : (ℤ → UInt8) → ℤ → UInt8)
    {c : ℤ} (hret : (getlineStep (maxSize - 1) s.reading c).2 = some m) {line : List UInt8}
    (hlen : line.length ≤ 48) (hold : Holds m cmd line) :
    ∃ s', loopStep shellCommands touch cmd s c = some s' ∧
      s'.rc = (Shell.executeCommand shellCommands line s.rc).ret.toInt ∧ Safe cmd s' := by
  obtain ⟨-, -, hsome⟩ := getlineStep_spec h.cursor h.lt c
  obtain ⟨m', hrun, hedit⟩ := executeCommand_spec shellCommands s.rc hold (Nat.add_le_add_right hlen 2)
  have hinside := h.inside.edits ((hsome m hret).2.trans hedit)
  unfold loopStep
  generalize getlineStep (maxSize - 1) s.reading c = res at *
  obtain ⟨r, ret⟩ := res
  obtain rfl : ret = some m := hret
  simp only [hrun, Option.bind_eq_bind, Option.bind_some]
  refine ⟨_, rfl, rfl, ⟨by simp, by simp, by simp⟩, by simp, ?_⟩
  dsimp only
  split_ifs
  · exact hinside
  · exact hinside

theorem loopStep_safe (h : Safe cmd s) (shellCommands : List Command) (touch : (ℤ → UInt8) → ℤ → UInt8)
    (c : ℤ) : ∃ s', loopStep shellCommands touch cmd s c = some s' ∧ Safe cmd s' := by
  obtain ⟨hcur, hnone, hsome⟩ := getlineStep_spec h.cursor h.lt c
  cases hret : (getlineStep (maxSize - 1) s.reading c).2 with
  | none =>
    obtain ⟨hlt, hedit⟩ := hnone hret
    refine ⟨{ s with reading := (getlineStep (maxSize - 1) s.reading c).1 }, ?_, hcur, hlt,
      h.inside.edits hedit⟩
    unfold loopStep
    split
    · next heq => rw [heq]
    · next heq =>
      rw [heq] at hret
      cases hret
  | some m =>
    obtain ⟨⟨line, hlen, hold⟩, -⟩ := hsome m hret
    obtain ⟨s', hstep, -, hsafe⟩ := loopStep_line h shellCommands touch hret hlen hold
    exact ⟨s', hstep, hsafe⟩

theorem states_safe (shellCommands : ℕ → List Command) (touch : ℕ → (ℤ → UInt8) → ℤ → UInt8) (cmd : ℤ)
    (outside : ℤ → UInt8) (stream : ℕ → ℤ) (n : ℕ) :
    ∃ s, states shellCommands touch cmd outside stream n = some s ∧ Safe cmd s := by
  induction n with
  | zero => exact ⟨_, rfl, start_safe cmd outside⟩
  | succ n ih =>
    obtain ⟨s, hs, hsafe⟩ := ih
    obtain ⟨s', hstep, hsafe'⟩ := loopStep_safe hsafe (shellCommands n) (touch n) (stream n)
    refine ⟨s', ?_, hsafe'⟩
    rw [states, hs, Option.bind_some, hstep]

/-- Whatever is typed, the pointer of `getline` stays with its counter and both in the buffer, a line that
it returns is terminated there, and `shell_execute_command` writes to the buffer only, without appending
a final space. -/
theorem line_buffer_safe (shellCommands : ℕ → List Command) (touch : ℕ → (ℤ → UInt8) → ℤ → UInt8)
    (cmd : ℤ) (outside : ℤ → UInt8) (stream : ℕ → ℤ) (n : ℕ) :
    ∃ s, states shellCommands touch cmd outside stream n = some s ∧
      AtCursor cmd s.reading ∧ WritesInside cmd s.reading.mem ∧
      AtCursor cmd (getlineStep (maxSize - 1) s.reading (stream n)).1 ∧
      ∀ m ∈ (getlineStep (maxSize - 1) s.reading (stream n)).2, LineAt cmd m := by
  obtain ⟨s, hs, hsafe⟩ := states_safe shellCommands touch cmd outside stream n
  obtain ⟨hcur, -, hsome⟩ := getlineStep_spec hsafe.cursor hsafe.lt (stream n)
  exact ⟨s, hs, hsafe.cursor, hsafe.inside, hcur, fun m hm => (hsome m hm).1⟩

end EmbeddedTemplate.Shell.Buffer
