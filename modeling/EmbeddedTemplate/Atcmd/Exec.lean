import EmbeddedTemplate.Atcmd.Send
import Mathlib.Data.List.TakeWhile

/-! `atcmd_exec_command` as calls on one modem, and the replies it leaves in `recv_buff`. A step
is a stretch of code as in `Send`. -/
namespace EmbeddedTemplate.Atcmd.Exec

open Ringbuffer (record)
open Send (fill)

inductive Pc where
  | idle
  /-- the two halves of `clear_recv_buffer` -/
  | clearRb (cmd : List UInt8) (exp : Option Expect) (ms : ℕ)
  | clearSem (cmd : List UInt8) (exp : Option Expect) (ms : ℕ)
  | command (cmd : List UInt8) (exp : Option Expect) (ms : ℕ)
  | carriageReturn (exp : Option Expect) (ms : ℕ)
  /-- `os_sleep(ms)` -/
  | sleep
  /-- entry of `expect` -/
  | expect (exp : Expect) (ms : ℕ)
  | expectTest (exp : Expect) (stop now : ℕ)
  | pend (exp : Expect) (stop : ℕ)
  | read (exp : Expect) (stop : ℕ)
  /-- a line without the prefix: `now = os_get_time()` -/
  | expectNext (exp : Expect) (stop : ℕ)
  /-- the call has returned, with the expectation it has waited for -/
  | returned (exp : Option Expect) (ret : Bool)

structure State where
  atcmd : Atcmd
  /-- what `exp->recv_buff` of the call points to -/
  recvBuff : ℕ → UInt8
  pc : Pc
  /-- the bytes given to `serial_send` -/
  sent : List UInt8
  /-- the characters of the line that the last read has taken out of `rb` -/
  line : List UInt8

inductive Act where
  /-- `atcmd_recv_serial_byte` in the interrupt -/
  | byte (b : UInt8) (t now : UInt32)
  /-- a new `atcmd_exec_command`, with what its `recv_buff` holds -/
  | call (cmd : Option (List UInt8)) (exp : Option Expect) (ms : UInt32) (recvBuff : ℕ → UInt8)
  | time (t : UInt32)
  | pend (ok : Bool)
  /-- the call goes on -/
  | go

/-- `exp == NULL || exp->expect == NULL` -/
def wait (exp : Option Expect) (ms : ℕ) : Pc :=
  match exp with
  | none => .sleep
  | some e => if e.expect.isNone then .sleep else .expect e ms

/-- `cmd != NULL` -/
def enter (cmd : Option (List UInt8)) (exp : Option Expect) (ms : ℕ) : Pc :=
  match cmd with
  | none => wait exp ms
  | some cmd => .clearRb cmd exp ms

/-- The characters of the first line in `rb`. -/
def firstLine (q : List UInt8) : List UInt8 := q.takeWhile (· ≠ 0)

def callStep (s : State) (cmd : Option (List UInt8)) (exp : Option Expect) (ms : ℕ)
    (recvBuff : ℕ → UInt8) : Option State :=
  match s.pc with
  | .idle | .returned _ _ => some { s with recvBuff, pc := enter cmd exp ms }
  | _ => none

def timeStep (s : State) (t : ℕ) : Option State :=
  match s.pc with
  | .expect exp ms => some { s with pc := .expectTest exp ((t + ms) % 2 ^ 32) t }
  | .expectNext exp stop => some { s with pc := .expectTest exp stop t }
  | _ => none

def pendStep (s : State) (ok : Bool) : Option State :=
  match s.pc with
  | .pend exp stop =>
    if ok then
      if s.atcmd.sem = 0 then none
      else some { s with atcmd := { s.atcmd with sem := s.atcmd.sem - 1 }, pc := .read exp stop }
    else some { s with pc := .returned (some exp) false }
  | _ => none

def readStep (s : State) (exp : Expect) (stop : ℕ) : State :=
  let r := s.atcmd.rb.readStringAndIsWithPrefix (exp.expect.map Subtype.val) exp.recvBuff
    exp.buffSize.toNat
  { s with
    atcmd := { s.atcmd with rb := r.rb }
    recvBuff := fill s.recvBuff r.bytes
    line := firstLine s.atcmd.rb.content
    pc := if r.ret then .returned (some exp) true else .expectNext exp stop }

def goStep (s : State) : Option State :=
  match s.pc with
  | .clearRb cmd exp ms => some { s with
    atcmd := { s.atcmd with rb := s.atcmd.rb.clear }
    pc := .clearSem cmd exp ms }
  | .clearSem cmd exp ms => some { s with
    atcmd := { s.atcmd with sem := 0 }
    pc := .command cmd exp ms }
  | .command cmd exp ms => some { s with
    sent := s.sent ++ cmd
    pc := if cmd.length = 0 then wait exp ms else .carriageReturn exp ms }
  | .carriageReturn exp ms => some { s with
    sent := s.sent ++ [Atcmd.carriageReturn]
    pc := wait exp ms }
  | .sleep => some { s with pc := .returned none true }
  | .expectTest exp stop now => some { s with
    pc := if now < stop then .pend exp stop else .returned (some exp) false }
  | .read exp stop => some (readStep s exp stop)
  | _ => none

def step (s : State) : Act → Option State
  | .byte b t now => some { s with atcmd := recvSerialByte s.atcmd b t.toNat now.toNat }
  | .call cmd exp ms recvBuff => callStep s cmd exp ms.toNat recvBuff
  | .time t => timeStep s t.toNat
  | .pend ok => pendStep s ok
  | .go => goStep s

/-- Behind `atcmd_init`, before the first call. -/
def start (a : Atcmd) (recvBuffer ipdBuffer : ℕ → UInt8) (recvLen ipdLen : UInt8) : State where
  atcmd := Atcmd.init a recvBuffer ipdBuffer recvLen ipdLen
  recvBuff _ := 0
  pc := .idle
  sent := []
  line := []

/-- The first `n` bytes of `buf` hold a string, which the line starts with. -/
def Terminated (buf : ℕ → UInt8) (n : ℕ) (line : List UInt8) : Prop :=
  ∃ k < n, buf k = 0 ∧ (∀ i < k, buf i ≠ 0) ∧ (List.range k).map buf <+: line

instance (buf : ℕ → UInt8) (n : ℕ) (line : List UInt8) : Decidable (Terminated buf n line) :=
  inferInstanceAs (Decidable (∃ k < n, _ ∧ _))

/-- A call that has waited for a line and found it has left a string in `recv_buff`. -/
def Replied (s : State) : Prop :=
  match s.pc with
  | .returned (some exp) true =>
    exp.recvBuff = true → Terminated s.recvBuff exp.buffSize.toNat s.line
  | _ => True

instance Replied.decidable (s : State) : Decidable (Replied s) := by
  unfold Replied
  split <;> infer_instance

/-- The first line of `q` is shorter than `recv_buff`, and its NUL is in `q` or was in
`recv_buff` at its place before. -/
def Room (q : List UInt8) (buf : ℕ → UInt8) (n : ℕ) : Prop :=
  (firstLine q).length < n ∧ (0 ∈ q ∨ buf (firstLine q).length = 0)

instance (q : List UInt8) (buf : ℕ → UInt8) (n : ℕ) : Decidable (Room q buf n) :=
  inferInstanceAs (Decidable (_ ∧ _))

/-- The read at `pc` finds the expected line. -/
def Matches (s : State) (exp : Expect) : Prop :=
  (exp.expect.map Subtype.val).getD [] <+: record s.atcmd.rb.content

instance (s : State) (exp : Expect) : Decidable (Matches s exp) :=
  inferInstanceAs (Decidable (_ <+: _))

/-- A read that finds the expected line has room for it. -/
def Fits (s : State) : Act → Prop
  | .go => match s.pc with
    | .read exp _ => exp.recvBuff = true → Matches s exp →
      Room s.atcmd.rb.content s.recvBuff exp.buffSize.toNat
    | _ => True
  | _ => True

instance Fits.decidable (s : State) (act : Act) : Decidable (Fits s act) := by
  unfold Fits
  split
  · split <;> infer_instance
  · infer_instance

theorem replied_iff {s : State} :
    Replied s ↔ ∀ exp, s.pc = .returned (some exp) true → exp.recvBuff = true →
      Terminated s.recvBuff exp.buffSize.toNat s.line := by
  unfold Replied
  constructor
  · intro h exp hpc
    simpa only [hpc] using h
  · intro h
    split
    · next exp hpc => exact h exp hpc
    · trivial

theorem not_mem_firstLine (q : List UInt8) : 0 ∉ firstLine q := by
  intro h
  simpa using List.mem_takeWhile_imp h

theorem record_eq (q : List UInt8) : record q = firstLine q ++ if 0 ∈ q then [0] else [] := by
  induction q with
  | nil => rfl
  | cons b q ih =>
    rw [Ringbuffer.record_cons]
    by_cases hb : b = 0
    · simp [hb, firstLine]
    · rw [if_neg hb, ih]
      have hmem : (0 ∈ b :: q) ↔ 0 ∈ q := by simp [Ne.symm hb]
      simp only [hmem, firstLine]
      rw [List.takeWhile_cons_of_pos (by simpa using hb), List.cons_append]

theorem fill_of_lt {buf : ℕ → UInt8} {bytes : List UInt8} {i : ℕ} (h : i < bytes.length) :
    fill buf bytes i = bytes[i] := by
  simp [fill, h]

theorem fill_of_le {buf : ℕ → UInt8} {bytes : List UInt8} {i : ℕ} (h : bytes.length ≤ i) :
    fill buf bytes i = buf i := by
  simp [fill, h]

/-- What a read has stored of a line is a string if and only if there was room for it. -/
theorem terminated_fill_iff {q : List UInt8} {buf : ℕ → UInt8} {n : ℕ} :
    Terminated (fill buf ((record q).take n)) n (firstLine q) ↔ Room q buf n := by
  have hnz := not_mem_firstLine q
  have hrec := record_eq q
  unfold Room
  generalize firstLine q = chars at hnz hrec ⊢
  have hchar : ∀ i < n, (hi : i < chars.length) → fill buf ((record q).take n) i = chars[i] := by
    intro i hn hi
    have hlen : i < ((record q).take n).length := by
      rw [hrec, List.length_take, List.length_append]
      omega
    rw [fill_of_lt hlen, List.getElem_take]
    simp only [hrec]
    rw [List.getElem_append_left hi]
  have hend : chars.length < n → (fill buf ((record q).take n) chars.length = 0 ↔
      0 ∈ q ∨ buf chars.length = 0) := by
    intro hn
    by_cases hz : 0 ∈ q
    · rw [if_pos hz] at hrec
      have hlen : chars.length < ((record q).take n).length := by
        rw [hrec, List.length_take, List.length_append, List.length_singleton]
        omega
      rw [fill_of_lt hlen, List.getElem_take]
      simp [hrec, hz]
    · rw [if_neg hz, List.append_nil] at hrec
      rw [hrec, fill_of_le (by rw [List.length_take]; omega)]
      simp [hz]
  constructor
  · rintro ⟨k, hk, hzero, -, hpre⟩
    have hle : k ≤ chars.length := by simpa using hpre.length_le
    obtain hlt | rfl := Nat.lt_or_eq_of_le hle
    · -- inside the line there is no NUL
      rw [hchar k hk hlt] at hzero
      exact absurd (hzero ▸ List.getElem_mem hlt) hnz
    · exact ⟨hk, (hend hk).mp hzero⟩
  · rintro ⟨hn, hz⟩
    refine ⟨chars.length, hn, (hend hn).mpr hz, fun i hi => ?_, ?_⟩
    · rw [hchar i (by omega) hi]
      exact fun heq => hnz (heq ▸ List.getElem_mem hi)
    · have hline : (List.range chars.length).map (fill buf ((record q).take n)) = chars := by
        refine List.ext_getElem (by simp) fun i h₁ h₂ => ?_
        rw [List.getElem_map, List.getElem_range, hchar i (by omega) h₂]
      rw [hline]

theorem readStep_spec {s : State} (h : s.atcmd.rb.Inv) (exp : Expect) (stop : ℕ)
    (hexp : exp.expect ≠ none) :
    (readStep s exp stop).atcmd.rb.Inv ∧
      ((readStep s exp stop).pc = .returned (some exp) true ↔ Matches s exp) ∧
      ((readStep s exp stop).pc = .returned (some exp) true ∨
        (readStep s exp stop).pc = .expectNext exp stop) ∧
      (exp.recvBuff = true → (readStep s exp stop).recvBuff =
        fill s.recvBuff ((record s.atcmd.rb.content).take exp.buffSize.toNat)) := by
  obtain ⟨p, hp⟩ := Option.ne_none_iff_exists'.mp hexp
  obtain ⟨hI, -, -, hbytes, -, hret⟩ := Ringbuffer.prefixLoop_spec exp.recvBuff exp.buffSize.toNat_lt
    p.property h (by decide : (1 : UInt8) ≠ 0) (Nat.zero_le exp.buffSize.toNat)
  rw [Nat.sub_zero] at hbytes
  have hmatch : Matches s exp ↔ p.val <+: record s.atcmd.rb.content := by
    simp [Matches, hp]
  simp only [readStep, hp, Option.map_some, Ringbuffer.readStringAndIsWithPrefix]
  refine ⟨hI, ?_, ?_, fun hbuf => ?_⟩
  · rw [hmatch, ← hret]
    split_ifs with ht
    · simp [ht]
    · simp [ht]
  · split_ifs
    · exact .inl rfl
    · exact .inr rfl
  · rw [hbytes, if_pos hbuf]

/-- The expectation that a running `expect` waits for. -/
def Pc.waitsFor : Pc → Option Expect
  | .expect exp _ | .expectTest exp _ _ | .pend exp _ | .read exp _ | .expectNext exp _ => some exp
  | .idle | .clearRb _ _ _ | .clearSem _ _ _ | .command _ _ _ | .carriageReturn _ _ | .sleep
  | .returned _ _ => none

structure Inv (s : State) : Prop where
  rb : s.atcmd.rb.Inv
  expect : ∀ exp ∈ s.pc.waitsFor, exp.expect ≠ none

theorem wait_waitsFor (exp : Option Expect) (ms : ℕ) :
    (∀ e ∈ (wait exp ms).waitsFor, e.expect ≠ none) ∧ ∀ e ret, wait exp ms ≠ .returned e ret := by
  cases exp with
  | none => exact ⟨by simp [wait, Pc.waitsFor], by simp [wait]⟩
  | some exp =>
    simp only [wait]
    split_ifs with h
    · exact ⟨by simp [Pc.waitsFor], by simp⟩
    · refine ⟨fun e he => ?_, by simp⟩
      obtain rfl : exp = e := Option.some.inj he
      simpa using h

theorem recvSerialByte_inv {a : Atcmd} (h : a.rb.Inv) (b : UInt8) (t now : ℕ) :
    (recvSerialByte a b t now).rb.Inv := by
  obtain ⟨hrb, -⟩ | ⟨-, ⟨-, hrb, -⟩ | ⟨-, hrb, -⟩ | ⟨-, hrb, -⟩⟩ := recvSerialByte_cases a b t now
  · rwa [hrb]
  · exact hrb ▸ (put_one_spec h 0).1
  · exact hrb ▸ Ringbuffer.clear_inv h
  · exact hrb ▸ (put_one_spec h b).1

theorem Inv.start (a : Atcmd) (recvBuffer ipdBuffer : ℕ → UInt8) (recvLen ipdLen : UInt8) :
    Inv (start a recvBuffer ipdBuffer recvLen ipdLen) where
  rb := Ringbuffer.init_inv recvBuffer (Nat.lt_trans recvLen.toNat_lt (by decide))
  expect := by simp [Exec.start, Pc.waitsFor]

structure Quiet (s s' : State) : Prop where
  rb : s.atcmd.rb.Inv → s'.atcmd.rb.Inv
  waitsFor : ∀ exp ∈ s'.pc.waitsFor, exp ∈ s.pc.waitsFor ∨ exp.expect ≠ none
  returned : ∀ exp, s'.pc = .returned (some exp) true →
    s.pc = .returned (some exp) true ∧ s'.recvBuff = s.recvBuff ∧ s'.line = s.line

theorem quiet_wait (s : State) (a : Atcmd) (recvBuff : ℕ → UInt8) (sent : List UInt8)
    (ha : s.atcmd.rb.Inv → a.rb.Inv) (exp : Option Expect) (ms : ℕ) :
    Quiet s { s with atcmd := a, recvBuff, sent, pc := wait exp ms } where
  rb := ha
  waitsFor e he := .inr ((wait_waitsFor exp ms).1 e he)
  returned _ he := absurd he ((wait_waitsFor exp ms).2 _ _)

theorem quiet_call {s s' : State} {cmd : Option (List UInt8)} {exp : Option Expect} {ms : ℕ}
    {recvBuff : ℕ → UInt8} (hs : callStep s cmd exp ms recvBuff = some s') : Quiet s s' := by
  have hcall : s' = { s with recvBuff, pc := enter cmd exp ms } := by
    unfold callStep at hs
    split at hs
    · exact (Option.some.inj hs).symm
    · exact (Option.some.inj hs).symm
    · cases hs
  rw [hcall]
  cases cmd with
  | none => exact quiet_wait s s.atcmd recvBuff s.sent id exp ms
  | some cmd => exact ⟨id, by simp [enter, Pc.waitsFor], by simp [enter]⟩

theorem quiet_time {s s' : State} {t : ℕ} (hs : timeStep s t = some s') : Quiet s s' := by
  unfold timeStep at hs
  split at hs
  · next hpc => exact Option.some.inj hs ▸ ⟨id, fun e he => .inl (by rwa [hpc]), by simp⟩
  · next hpc => exact Option.some.inj hs ▸ ⟨id, fun e he => .inl (by rwa [hpc]), by simp⟩
  · cases hs

theorem quiet_pend {s s' : State} {ok : Bool} (hs : pendStep s ok = some s') : Quiet s s' := by
  unfold pendStep at hs
  split at hs
  · next hpc =>
    split_ifs at hs
    · exact Option.some.inj hs ▸ ⟨id, fun e he => .inl (by rwa [hpc]), by simp⟩
    · exact Option.some.inj hs ▸ ⟨id, by simp [Pc.waitsFor], by simp⟩
  · cases hs

theorem step_cases {s s' : State} {act : Act} (hs : step s act = some s') :
    (∃ exp stop, act = .go ∧ s.pc = .read exp stop ∧ s' = readStep s exp stop) ∨ Quiet s s' := by
  cases act with
  | byte b t now =>
    right
    exact Option.some.inj hs ▸ ⟨fun h => recvSerialByte_inv h b t.toNat now.toNat,
      fun e he => .inl he, fun e he => ⟨he, rfl, rfl⟩⟩
  | call cmd exp ms recvBuff => exact .inr (quiet_call hs)
  | time t => exact .inr (quiet_time hs)
  | pend ok => exact .inr (quiet_pend hs)
  | go =>
    change goStep s = some s' at hs
    unfold goStep at hs
    split at hs
    case h_7 exp stop hpc => exact .inl ⟨exp, stop, rfl, hpc, (Option.some.inj hs).symm⟩
    all_goals right
    case h_1 => exact Option.some.inj hs ▸ ⟨Ringbuffer.clear_inv, by simp [Pc.waitsFor], by simp⟩
    case h_2 => exact Option.some.inj hs ▸ ⟨id, by simp [Pc.waitsFor], by simp⟩
    case h_3 cmd exp ms hpc =>
      split_ifs at hs
      · exact Option.some.inj hs ▸ quiet_wait s s.atcmd s.recvBuff _ id exp ms
      · exact Option.some.inj hs ▸ ⟨id, by simp [Pc.waitsFor], by simp⟩
    case h_4 exp ms hpc => exact Option.some.inj hs ▸ quiet_wait s s.atcmd s.recvBuff _ id exp ms
    case h_5 => exact Option.some.inj hs ▸ ⟨id, by simp [Pc.waitsFor], by simp⟩
    case h_6 exp stop now hpc =>
      split_ifs at hs
      · exact Option.some.inj hs ▸ ⟨id, fun e he => .inl (by rwa [hpc]), by simp⟩
      · exact Option.some.inj hs ▸ ⟨id, by simp [Pc.waitsFor], by simp⟩
    case h_8 => cases hs

theorem Inv.step {s s' : State} (h : Inv s) {act : Act} (hs : step s act = some s') : Inv s' := by
  obtain ⟨exp, stop, -, hpc, rfl⟩ | hq := step_cases hs
  · have hexp : exp.expect ≠ none := h.expect exp (by simp [hpc, Pc.waitsFor])
    obtain ⟨hI, -, hend, -⟩ := readStep_spec h.rb exp stop hexp
    refine ⟨hI, fun e he => ?_⟩
    obtain hend | hend := hend
    · simp [hend, Pc.waitsFor] at he
    · rw [hend] at he
      obtain rfl : exp = e := Option.some.inj he
      exact hexp
  · refine ⟨hq.rb h.rb, fun e he => ?_⟩
    obtain hold | hne := hq.waitsFor e he
    · exact h.expect e hold
    · exact hne

theorem replied_readStep_iff {s : State} (h : Inv s) {exp : Expect} {stop : ℕ}
    (hpc : s.pc = .read exp stop) (hbuf : exp.recvBuff = true) (hmatch : Matches s exp) :
    Replied (readStep s exp stop) ↔ Room s.atcmd.rb.content s.recvBuff exp.buffSize.toNat := by
  obtain ⟨-, hret, -, hfill⟩ := readStep_spec h.rb exp stop (h.expect exp (by simp [hpc, Pc.waitsFor]))
  rw [← terminated_fill_iff, ← hfill hbuf]
  rw [replied_iff]
  constructor
  · exact fun hr => hr exp (hret.mpr hmatch) hbuf
  · intro ht e he _
    rw [hret.mpr hmatch] at he
    simp only [Pc.returned.injEq, Option.some.injEq, and_true] at he
    exact he ▸ ht

theorem Replied.step {s s' : State} (hr : Replied s) (h : Inv s) {act : Act} (hf : Fits s act)
    (hs : step s act = some s') : Replied s' := by
  rw [replied_iff] at hr ⊢
  obtain ⟨exp, stop, rfl, hpc, rfl⟩ | hq := step_cases hs
  · intro e he hbuf
    obtain ⟨-, hret, hend, -⟩ := readStep_spec h.rb exp stop (h.expect exp (by simp [hpc, Pc.waitsFor]))
    obtain hend | hend := hend
    · rw [hend] at he
      simp only [Pc.returned.injEq, Option.some.injEq, and_true] at he
      subst he
      have hmatch := hret.mp hend
      simp only [Fits, hpc] at hf
      exact replied_iff.mp ((replied_readStep_iff h hpc hbuf hmatch).mpr (hf hbuf hmatch)) exp hend hbuf
    · rw [hend] at he
      cases he
  · intro e he hbuf
    obtain ⟨hpc, hrecv, hline⟩ := hq.returned e he
    rw [hrecv, hline]
    exact hr e hpc hbuf

/-- From `atcmd_init`, in every run of bytes and calls: an expected reply is a string in
`recv_buff` as long as each read that finds one has room for it, and the read that ends a call
leaves a string exactly then. -/
theorem replies_terminated (a : Atcmd) (recvBuffer ipdBuffer : ℕ → UInt8) (recvLen ipdLen : UInt8)
    {acts : List Act} {s : State}
    (hrun : Transition.run step (start a recvBuffer ipdBuffer recvLen ipdLen) acts = some s) :
    (Transition.AllSteps step Fits (start a recvBuffer ipdBuffer recvLen ipdLen) acts → Replied s) ∧
      ∀ exp stop, s.pc = .read exp stop → exp.recvBuff = true → Matches s exp →
        (Replied (readStep s exp stop) ↔ Room s.atcmd.rb.content s.recvBuff exp.buffSize.toNat) := by
  have hinv : Inv s := Transition.run_preserves (fun _ _ _ hI hs => Inv.step hI hs)
    (Inv.start a recvBuffer ipdBuffer recvLen ipdLen) hrun
  refine ⟨fun hf => ?_, fun exp stop hpc hbuf hmatch => replied_readStep_iff hinv hpc hbuf hmatch⟩
  have hboth : Inv s ∧ Replied s := Transition.run_invariant
    (I := fun s => Inv s ∧ Replied s) (fun _ _ _ hI hP hs => ⟨hI.1.step hs, hI.2.step hI.1 hP hs⟩)
    ⟨Inv.start a recvBuffer ipdBuffer recvLen ipdLen, trivial⟩ hf hrun
  exact hboth.2

def bytesAt (bs : List UInt8) : List Act := bs.map fun b => .byte b 0 0

def nextLine (size : UInt16) (recvBuff : ℕ → UInt8) : List Act :=
  [.call none (some ⟨some ⟨[], by simp⟩, true, size⟩) 500 recvBuff, .time 0, .go, .pend true, .go]

/-- The line `OK` and a call with room for it. -/
theorem replies_terminated_ok :
    ∃ s ∈ Transition.run step (start .zero (fun _ => 0) (fun _ => 0) 24 4)
        (bytesAt [79, 75, 13, 10] ++ nextLine 8 fun _ => 170),
      Replied s ∧ s.line = [79, 75] := by
  have hrun : ∃ s ∈ Transition.run step (start .zero (fun _ => 0) (fun _ => 0) 24 4)
      (bytesAt [79, 75, 13, 10] ++ nextLine 8 fun _ => 170), s.line = [79, 75] := by
    decide +kernel
  obtain ⟨s, hs, hline⟩ := hrun
  have hruns := replies_terminated .zero (fun _ => 0) (fun _ => 0) 24 4 hs
  exact ⟨s, hs, hruns.1 (by decide +kernel), hline⟩

/-- A card number of 20 digits fills a `recv_buff` of 20 bytes. A frame that has erased the
line leaves its token, and the call returns 1 with nothing in `recv_buff`. -/
theorem reply_not_terminated :
    (∃ s ∈ Transition.run step (start .zero (fun _ => 0) (fun _ => 0) 24 4)
        (bytesAt (List.replicate 20 56 ++ [13, 10]) ++ nextLine 20 fun _ => 0), ¬ Replied s) ∧
      ∃ s ∈ Transition.run step (start .zero (fun _ => 0) (fun _ => 0) 24 4)
        (bytesAt [79, 75, 13, 10, 73, 80, 68] ++ nextLine 8 fun _ => 170), ¬ Replied s := by
  decide +kernel

end EmbeddedTemplate.Atcmd.Exec
