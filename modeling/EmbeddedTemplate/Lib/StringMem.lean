import Mathlib.Data.List.Basic
import Mathlib.Data.Int.Order.Basic
import Mathlib.Logic.Function.Basic
import Mathlib.Tactic.SplitIfs

/-! Strings in memory, and the functions of the C library that work on them in place. The memory records
each write with the statement that makes it. A function that looks for a NUL looks at `limit` bytes, and is
`none` when there is none among them. -/
namespace StringMem

structure Mem (σ : Type) where
  byte : ℤ → UInt8
  writes : List (σ × ℤ)

namespace Mem

variable {σ : Type}

def put (m : Mem σ) (site : σ) (p : ℤ) (c : UInt8) : Mem σ where
  byte := Function.update m.byte p c
  writes := (site, p) :: m.writes

def putAll (m : Mem σ) (site : σ) : ℤ → List UInt8 → Mem σ
  | _, [] => m
  | p, c :: s => (m.put site p c).putAll site (p + 1) s

def bytes (m : Mem σ) : ℤ → ℕ → List UInt8
  | _, 0 => []
  | p, n + 1 => m.byte p :: m.bytes (p + 1) n

def memmove (m : Mem σ) (site : σ) (dest src : ℤ) (n : ℕ) : Mem σ := m.putAll site dest (m.bytes src n)

def strlen (m : Mem σ) : ℕ → ℤ → Option ℕ
  | 0, _ => none
  | limit + 1, p => if m.byte p = 0 then some 0 else (m.strlen limit (p + 1)).map (· + 1)

def strchr (m : Mem σ) : ℕ → ℤ → UInt8 → Option (Option ℤ)
  | 0, _, _ => none
  | limit + 1, p, c =>
    if m.byte p = c then some (some p)
    else if m.byte p = 0 then some none
    else m.strchr limit (p + 1) c

/-- The appended string is a literal. -/
def strcat (m : Mem σ) (site : σ) (limit : ℕ) (p : ℤ) (s : List UInt8) : Option (Mem σ) := do
  let n ← m.strlen limit p
  some (m.putAll site (p + n) (s ++ [0]))

/-- `strcmp` with a literal returns 0. -/
def equals (m : Mem σ) : ℤ → List UInt8 → Bool
  | p, [] => m.byte p = 0
  | p, c :: s => m.byte p = c ∧ m.equals (p + 1) s

/-- The string at `p`. -/
def read (m : Mem σ) (limit : ℕ) (p : ℤ) : Option (List UInt8) := do
  let n ← m.strlen limit p
  some (m.bytes p n)

/-- `for (; i < strlen(p); i ++)`, where the body changes a local state and may write to `p[i]`. -/
def forChars {τ : Type} (site : σ) (f : τ → UInt8 → τ × Option UInt8) (limit : ℕ) :
    ℕ → Mem σ → ℤ → ℕ → τ → Option (Mem σ × τ)
  | 0, _, _, _, _ => none
  | rounds + 1, m, p, i, st => do
    let n ← m.strlen limit p
    if i < n then
      let r := f st (m.byte (p + i))
      let m := match r.2 with
        | some c => m.put site (p + i) c
        | none => m
      forChars site f limit rounds m p (i + 1) r.1
    else some (m, st)

end Mem

def scan {τ : Type} (f : τ → UInt8 → τ × Option UInt8) : τ → List UInt8 → List UInt8 × τ
  | st, [] => ([], st)
  | st, c :: s =>
    let r := f st c
    let rest := scan f r.1 s
    (r.2.getD c :: rest.1, rest.2)

variable {σ τ : Type} {m m' m₁ m₂ : Mem σ} {p q lo hi : ℤ} {c d : UInt8} {s t l r : List UInt8}
  {limit : ℕ} {site : σ} {P : σ → Prop}

/-- The characters from `p` on. There is no NUL among them. -/
def Begins (m : Mem σ) : ℤ → List UInt8 → Prop
  | _, [] => True
  | p, c :: s => (m.byte p = c ∧ c ≠ 0) ∧ Begins m (p + 1) s

/-- The string at `p`, which ends with a NUL. -/
def Holds (m : Mem σ) (p : ℤ) (s : List UInt8) : Prop := Begins m p s ∧ m.byte (p + s.length) = 0

/-- The writes between two memories are to `[lo, hi)`, and made by statements of `P`. -/
structure Edits (P : σ → Prop) (lo hi : ℤ) (m m' : Mem σ) : Prop where
  log : ∃ ws, m'.writes = ws ++ m.writes ∧ ∀ w ∈ ws, P w.1 ∧ lo ≤ w.2 ∧ w.2 < hi
  frame : ∀ q, q < lo ∨ hi ≤ q → m'.byte q = m.byte q

@[simp] theorem length_scan (f : τ → UInt8 → τ × Option UInt8) (st : τ) (s : List UInt8) :
    (scan f st s).1.length = s.length := by
  induction s generalizing st with
  | nil => rfl
  | cons c s ih => exact congrArg (· + 1) (ih _)

@[simp] theorem put_byte_self : (m.put site p c).byte p = c := by
  simp [Mem.put]

theorem put_byte_of_ne (h : q ≠ p) : (m.put site p c).byte q = m.byte q := by
  simp [Mem.put, h]

namespace Edits

theorem refl (P : σ → Prop) (lo hi : ℤ) (m : Mem σ) : Edits P lo hi m m :=
  ⟨⟨[], rfl, by simp⟩, fun _ _ => rfl⟩

theorem trans (h₁ : Edits P lo hi m m₁) (h₂ : Edits P lo hi m₁ m₂) : Edits P lo hi m m₂ := by
  obtain ⟨ws₁, hlog₁, hall₁⟩ := h₁.log
  obtain ⟨ws₂, hlog₂, hall₂⟩ := h₂.log
  constructor
  · refine ⟨ws₂ ++ ws₁, by rw [hlog₂, hlog₁, List.append_assoc], ?_⟩
    intro w hw
    exact (List.mem_append.mp hw).elim (hall₂ w) (hall₁ w)
  · intro q hq
    rw [h₂.frame q hq, h₁.frame q hq]

theorem mono {lo' hi' : ℤ} (h : Edits P lo hi m m') (hlo : lo' ≤ lo) (hhi : hi ≤ hi') :
    Edits P lo' hi' m m' := by
  obtain ⟨ws, hlog, hall⟩ := h.log
  constructor
  · refine ⟨ws, hlog, ?_⟩
    intro w hw
    obtain ⟨hP, hl, hh⟩ := hall w hw
    exact ⟨hP, le_trans hlo hl, lt_of_lt_of_le hh hhi⟩
  · intro q hq
    exact h.frame q (by omega)

theorem put (hP : P site) (hlo : lo ≤ p) (hhi : p < hi) : Edits P lo hi m (m.put site p c) := by
  constructor
  · refine ⟨[(site, p)], rfl, ?_⟩
    intro w hw
    rw [List.mem_singleton.mp hw]
    exact ⟨hP, hlo, hhi⟩
  · intro q hq
    exact put_byte_of_ne (by omega)

theorem forall_writes {Q : σ × ℤ → Prop} (h : Edits P lo hi m m') (hm : ∀ w ∈ m.writes, Q w)
    (hQ : ∀ w, P w.1 → lo ≤ w.2 → w.2 < hi → Q w) : ∀ w ∈ m'.writes, Q w := by
  obtain ⟨ws, hlog, hall⟩ := h.log
  intro w hw
  rw [hlog] at hw
  rcases List.mem_append.mp hw with hw | hw
  · obtain ⟨hP, hlo, hhi⟩ := hall w hw
    exact hQ w hP hlo hhi
  · exact hm w hw

end Edits

@[simp] theorem holds_nil : Holds m p [] ↔ m.byte p = 0 := by simp [Holds, Begins]

theorem holds_cons : Holds m p (c :: s) ↔ (m.byte p = c ∧ c ≠ 0) ∧ Holds m (p + 1) s := by
  have hend : p + (c :: s).length = p + 1 + s.length := by
    rw [List.length_cons]
    omega
  unfold Holds
  rw [hend]
  exact and_assoc

theorem begins_append : Begins m p (l ++ r) ↔ Begins m p l ∧ Begins m (p + l.length) r := by
  induction l generalizing p with
  | nil => simp [Begins]
  | cons c l ih =>
    have hend : p + (c :: l).length = p + 1 + l.length := by
      rw [List.length_cons]
      omega
    rw [List.cons_append, Begins, Begins, ih, hend]
    exact and_assoc.symm

theorem holds_append : Holds m p (l ++ r) ↔ Begins m p l ∧ Holds m (p + l.length) r := by
  have hend : p + (l ++ r).length = p + l.length + r.length := by
    rw [List.length_append]
    omega
  unfold Holds
  rw [begins_append, hend]
  exact and_assoc

/-- A string depends on its own bytes only. -/
theorem Begins.frame (h : Begins m p s) (hm : ∀ q, p ≤ q → q < p + s.length → m'.byte q = m.byte q) :
    Begins m' p s := by
  induction s generalizing p with
  | nil => trivial
  | cons c s ih =>
    rw [List.length_cons] at hm
    refine ⟨⟨?_, h.1.2⟩, ih h.2 fun q hlo hhi => hm q (by omega) (by omega)⟩
    rw [hm p le_rfl (by omega), h.1.1]

theorem Holds.frame (h : Holds m p s) (hm : ∀ q, p ≤ q → q ≤ p + s.length → m'.byte q = m.byte q) :
    Holds m' p s := by
  refine ⟨h.1.frame fun q hlo hhi => hm q hlo (le_of_lt hhi), ?_⟩
  rw [hm _ (by omega) le_rfl, h.2]

theorem Begins.edits (h : Begins m p s) (he : Edits P lo hi m m') (hout : p + s.length ≤ lo ∨ hi ≤ p) :
    Begins m' p s :=
  h.frame fun q hlo hhi => he.frame q (by omega)

theorem Holds.edits (h : Holds m p s) (he : Edits P lo hi m m') (hout : p + s.length < lo ∨ hi ≤ p) :
    Holds m' p s :=
  h.frame fun q hlo hhi => he.frame q (by omega)

theorem Holds.put (h : Holds m p (l ++ c :: r)) (hd : d ≠ 0) :
    Holds (m.put site (p + l.length) d) p (l ++ d :: r) := by
  obtain ⟨hl, hc⟩ := holds_append.mp h
  obtain ⟨-, hr⟩ := holds_cons.mp hc
  have he : Edits (fun _ => True) (p + l.length) (p + l.length + 1) m (m.put site (p + l.length) d) :=
    Edits.put trivial le_rfl (by omega)
  refine holds_append.mpr ⟨hl.edits he (.inl le_rfl), holds_cons.mpr ⟨⟨put_byte_self, hd⟩, ?_⟩⟩
  exact hr.edits he (.inr le_rfl)

theorem Holds.put_head (h : Holds m p (c :: s)) (hd : d ≠ 0) : Holds (m.put site p d) p (d :: s) := by
  simpa using Holds.put (l := []) h hd

theorem Holds.put_nul (h : Holds m p (l ++ r)) : Holds (m.put site (p + l.length) 0) p l := by
  have he : Edits (fun _ => True) (p + l.length) (p + l.length + 1) m (m.put site (p + l.length) 0) :=
    Edits.put trivial le_rfl (by omega)
  exact ⟨(holds_append.mp h).1.edits he (.inl le_rfl), put_byte_self⟩

theorem exists_holds {n : ℕ} (h : m.byte (p + n) = 0) : ∃ s, s.length ≤ n ∧ Holds m p s := by
  induction n generalizing p with
  | zero => exact ⟨[], Nat.le_refl 0, by simpa using h⟩
  | succ n ih =>
    by_cases hc : m.byte p = 0
    · exact ⟨[], Nat.zero_le _, holds_nil.mpr hc⟩
    · obtain ⟨s, hlen, hs⟩ := ih (p := p + 1) (by rw [← h]; congr 1; omega)
      exact ⟨m.byte p :: s, Nat.succ_le_succ hlen, holds_cons.mpr ⟨⟨rfl, hc⟩, hs⟩⟩

theorem Holds.strlen (h : Holds m p s) (hlimit : s.length < limit) : m.strlen limit p = some s.length := by
  induction s generalizing p limit with
  | nil =>
    obtain ⟨limit, rfl⟩ := Nat.exists_eq_add_of_lt hlimit
    simp [Mem.strlen, holds_nil.mp h]
  | cons c s ih =>
    cases limit with
    | zero => cases hlimit
    | succ limit =>
      obtain ⟨⟨hc, hne⟩, hs⟩ := holds_cons.mp h
      rw [Mem.strlen, hc, if_neg hne, ih hs (Nat.lt_of_succ_lt_succ hlimit)]
      rfl

theorem Holds.strchr (h : Holds m p s) (hc : c ≠ 0) (hlimit : s.length < limit) :
    m.strchr limit p c =
      some (if c ∈ s then some (p + (s.takeWhile (· != c)).length) else none) := by
  induction s generalizing p limit with
  | nil =>
    cases limit with
    | zero => cases hlimit
    | succ limit =>
      rw [Mem.strchr, holds_nil.mp h, if_neg hc.symm, if_pos rfl, if_neg List.not_mem_nil]
  | cons b s ih =>
    cases limit with
    | zero => cases hlimit
    | succ limit =>
      obtain ⟨⟨hb, hne⟩, hs⟩ := holds_cons.mp h
      rw [Mem.strchr, hb]
      by_cases hbc : b = c
      · simp [hbc]
      · rw [if_neg hbc, if_neg hne, ih hs (Nat.lt_of_succ_lt_succ hlimit)]
        simp only [List.mem_cons, Ne.symm hbc, false_or, List.takeWhile_cons, bne_iff_ne, ne_eq, hbc,
          not_false_eq_true, if_true, List.length_cons]
        split_ifs
        · congr 2
          omega
        · rfl

theorem Holds.bytes (h : Holds m p s) : m.bytes p s.length = s ∧ m.bytes p (s.length + 1) = s ++ [0] := by
  induction s generalizing p with
  | nil => simp [Mem.bytes, holds_nil.mp h]
  | cons c s ih =>
    obtain ⟨⟨hc, -⟩, hs⟩ := holds_cons.mp h
    obtain ⟨hbytes, hnul⟩ := ih hs
    constructor
    · rw [List.length_cons, Mem.bytes, hc, hbytes]
    · rw [List.length_cons, Mem.bytes, hc, hnul, List.cons_append]

theorem Holds.read (h : Holds m p s) (hlimit : s.length < limit) : m.read limit p = some s := by
  simp only [Mem.read, h.strlen hlimit, Option.bind_eq_bind, Option.bind_some, h.bytes.1]

theorem Holds.equals (h : Holds m p s) (ht : 0 ∉ t) : m.equals p t = true ↔ s = t := by
  induction t generalizing p s with
  | nil =>
    cases s with
    | nil => simp [Mem.equals, holds_nil.mp h]
    | cons c s =>
      obtain ⟨⟨hc, hne⟩, -⟩ := holds_cons.mp h
      simp [Mem.equals, hc, hne]
  | cons b t ih =>
    rw [List.mem_cons, not_or] at ht
    cases s with
    | nil => simp [Mem.equals, holds_nil.mp h, ht.1]
    | cons c s =>
      obtain ⟨⟨hc, -⟩, hs⟩ := holds_cons.mp h
      simp [Mem.equals, hc, ih hs ht.2]

theorem edits_putAll (hP : P site) (hlo : lo ≤ p) (hhi : p + s.length ≤ hi) :
    Edits P lo hi m (m.putAll site p s) := by
  induction s generalizing m p with
  | nil => exact .refl P lo hi m
  | cons c s ih =>
    rw [List.length_cons] at hhi
    exact (Edits.put hP hlo (by omega)).trans (ih (by omega) (by omega))

theorem holds_putAll (ht : 0 ∉ t) : Holds (m.putAll site p (t ++ [0])) p t := by
  induction t generalizing m p with
  | nil => simp [Mem.putAll]
  | cons c t ih =>
    rw [List.mem_cons, not_or] at ht
    have he : Edits (fun _ => True) (p + 1) (p + 1 + (t ++ [0]).length) (m.put site p c)
        ((m.put site p c).putAll site (p + 1) (t ++ [0])) := edits_putAll trivial le_rfl le_rfl
    refine holds_cons.mpr ⟨⟨?_, Ne.symm ht.1⟩, ih ht.2⟩
    rw [List.cons_append, Mem.putAll, he.frame p (by omega), put_byte_self]

theorem Begins.not_mem (h : Begins m p s) : 0 ∉ s := by
  induction s generalizing p with
  | nil => exact List.not_mem_nil
  | cons c s ih =>
    rw [List.mem_cons, not_or]
    exact ⟨h.1.2.symm, ih h.2⟩

/-- The write ends behind the new NUL. -/
theorem Holds.strcat (h : Holds m p s) (hP : P site) (ht : 0 ∉ t) (hlimit : s.length < limit) :
    ∃ m', m.strcat site limit p t = some m' ∧ Holds m' p (s ++ t) ∧
      Edits P p (p + s.length + t.length + 1) m m' := by
  have he : Edits P (p + s.length) (p + s.length + t.length + 1) m
      (m.putAll site (p + s.length) (t ++ [0])) := by
    apply edits_putAll hP le_rfl
    rw [List.length_append, List.length_singleton]
    omega
  refine ⟨m.putAll site (p + s.length) (t ++ [0]), ?_, ?_, he.mono (by omega) le_rfl⟩
  · simp only [Mem.strcat, h.strlen hlimit, Option.bind_eq_bind, Option.bind_some]
  · exact holds_append.mpr ⟨h.1.edits he (.inl le_rfl), holds_putAll ht⟩

/-- `memmove(p, p + 1, strlen(p))` takes off the first character. -/
theorem Holds.memmove (h : Holds m p (c :: s)) (hP : P site) :
    Holds (m.memmove site p (p + 1) (c :: s).length) p s ∧
      Edits P p (p + (c :: s).length) m (m.memmove site p (p + 1) (c :: s).length) := by
  have hs := (holds_cons.mp h).2
  unfold Mem.memmove
  rw [List.length_cons, hs.bytes.2]
  refine ⟨holds_putAll hs.1.not_mem, edits_putAll hP le_rfl ?_⟩
  rw [List.length_append, List.length_singleton]

/-- The loop behind the first characters of the string. -/
theorem Holds.forChars_append {f : τ → UInt8 → τ × Option UInt8} (hf : ∀ st c, ∀ d ∈ (f st c).2, d ≠ 0)
    (st : τ) (hP : P site) {rounds : ℕ} (h : Holds m p (l ++ s)) (hlimit : (l ++ s).length < limit)
    (hrounds : s.length < rounds) :
    ∃ m', m.forChars site f limit rounds p l.length st = some (m', (scan f st s).2) ∧
      Holds m' p (l ++ (scan f st s).1) ∧ Edits P p (p + (l ++ s).length) m m' := by
  induction s generalizing m l rounds st with
  | nil =>
    cases rounds with
    | zero => cases hrounds
    | succ rounds =>
      rw [List.append_nil] at h hlimit
      refine ⟨m, ?_, by simpa [scan] using h, .refl P _ _ m⟩
      simp [Mem.forChars, h.strlen hlimit, scan]
  | cons c s ih =>
    cases rounds with
    | zero => cases hrounds
    | succ rounds =>
      have hc : m.byte (p + l.length) = c := (holds_cons.mp (holds_append.mp h).2).1.1
      have hlt : l.length < (l ++ c :: s).length := by simp
      -- the body of the loop for `c`
      have hbody : ∃ m₁, (match (f st c).2 with
            | some d => m.put site (p + l.length) d
            | none => m) = m₁ ∧ Holds m₁ p ((l ++ [(f st c).2.getD c]) ++ s) ∧
          Edits P p (p + (l ++ c :: s).length) m m₁ := by
        cases hd : (f st c).2 with
        | none => exact ⟨m, rfl, by simpa using h, .refl P _ _ m⟩
        | some d =>
          refine ⟨_, rfl, ?_, .put hP (by omega) (by omega)⟩
          simpa using h.put (hf st c d hd)
      obtain ⟨m₁, hm₁, hold, hedit⟩ := hbody
      obtain ⟨m', hrun, hold', hedit'⟩ := ih (f st c).1 hold (by simpa using hlimit)
        (Nat.lt_of_succ_lt_succ hrounds)
      rw [List.length_append, List.length_singleton] at hrun
      refine ⟨m', ?_, by simpa [scan] using hold', hedit.trans (hedit'.mono le_rfl (by simp))⟩
      simp only [Mem.forChars, h.strlen hlimit, Option.bind_eq_bind, Option.bind_some, if_pos hlt, hc,
        hm₁, hrun, scan]

theorem Holds.forChars {f : τ → UInt8 → τ × Option UInt8} (hf : ∀ st c, ∀ d ∈ (f st c).2, d ≠ 0)
    (st : τ) (hP : P site) {rounds : ℕ} (h : Holds m p s) (hlimit : s.length < limit)
    (hrounds : s.length < rounds) :
    ∃ m', m.forChars site f limit rounds p 0 st = some (m', (scan f st s).2) ∧
      Holds m' p (scan f st s).1 ∧ Edits P p (p + s.length) m m' := by
  simpa using Holds.forChars_append (l := []) hf st hP h hlimit hrounds

end StringMem
