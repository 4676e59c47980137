import EmbeddedTemplate.Lib.ByteMem
import Mathlib.Logic.Function.Basic

/-! Sequences of bytes in a byte-addressed memory: what a cursor that moves forward writes and reads. -/
namespace ByteMem

/-- `bs` written from `p` on, the first byte first. -/
def write (m : Mem) : ℕ → List UInt8 → Mem
  | _, [] => m
  | p, b :: bs => write (Function.update m p b) (p + 1) bs

/-- The `n` bytes from `p` on. -/
def read (m : Mem) : ℕ → ℕ → List UInt8
  | _, 0 => []
  | p, n + 1 => m p :: read m (p + 1) n

/-- The bytes from `p` on are `bs`. -/
def Holds (m : Mem) : ℕ → List UInt8 → Prop
  | _, [] => True
  | p, b :: bs => m p = b ∧ Holds m (p + 1) bs

instance Holds.decidable (m : Mem) : ∀ p bs, Decidable (Holds m p bs)
  | _, [] => isTrue trivial
  | p, b :: bs =>
    have := Holds.decidable m (p + 1) bs
    inferInstanceAs (Decidable (m p = b ∧ Holds m (p + 1) bs))

variable {m m' : Mem} {p q n : ℕ} {b : UInt8} {as bs : List UInt8}

@[simp] theorem write_nil (m : Mem) (p : ℕ) : write m p [] = m := rfl

@[simp] theorem length_read (m : Mem) (p n : ℕ) : (read m p n).length = n := by
  induction n generalizing p with
  | zero => rfl
  | succ n ih => exact congrArg (· + 1) (ih (p + 1))

theorem write_append (m : Mem) (p : ℕ) (as bs : List UInt8) :
    write m p (as ++ bs) = write (write m p as) (p + as.length) bs := by
  induction as generalizing m p with
  | nil => rfl
  | cons a as ih =>
    rw [List.cons_append, write, write, ih, List.length_cons, Nat.add_right_comm, Nat.add_assoc]

theorem write_of_lt (h : q < p) : write m p bs q = m q := by
  induction bs generalizing m p with
  | nil => rfl
  | cons b bs ih =>
    rw [write, ih (Nat.lt_succ_of_lt h)]
    exact Function.update_of_ne h.ne b m

theorem write_of_ge (h : p + bs.length ≤ q) : write m p bs q = m q := by
  induction bs generalizing m p with
  | nil => rfl
  | cons b bs ih =>
    rw [List.length_cons] at h
    have hne : q ≠ p := by omega
    have hrest : p + 1 + bs.length ≤ q := by omega
    rw [write, ih hrest]
    exact Function.update_of_ne hne b m

/-- Whatever the bytes are, only their own region changes. -/
theorem write_of_disjoint (h : q < p ∨ p + bs.length ≤ q) : write m p bs q = m q :=
  h.elim write_of_lt write_of_ge

theorem holds_cons : Holds m p (b :: bs) ↔ m p = b ∧ Holds m (p + 1) bs := Iff.rfl

theorem holds_append : Holds m p (as ++ bs) ↔ Holds m p as ∧ Holds m (p + as.length) bs := by
  induction as generalizing p with
  | nil => simp [Holds]
  | cons a as ih =>
    rw [List.cons_append, holds_cons, holds_cons, ih, List.length_cons, and_assoc, Nat.add_assoc,
      Nat.add_comm 1]

theorem holds_write (m : Mem) (p : ℕ) (bs : List UInt8) : Holds (write m p bs) p bs := by
  induction bs generalizing m p with
  | nil => trivial
  | cons b bs ih =>
    refine ⟨?_, ih _ _⟩
    rw [write, write_of_lt p.lt_succ_self]
    exact Function.update_self p b m

theorem holds_read (m : Mem) (p n : ℕ) : Holds m p (read m p n) := by
  induction n generalizing p with
  | zero => trivial
  | succ n ih => exact ⟨rfl, ih (p + 1)⟩

theorem Holds.read_eq (h : Holds m p bs) : read m p bs.length = bs := by
  induction bs generalizing p with
  | nil => rfl
  | cons b bs ih =>
    rw [List.length_cons, read, ih h.2, h.1]

theorem Holds.getElem (h : Holds m p bs) {i : ℕ} (hi : i < bs.length) : m (p + i) = bs[i] := by
  induction bs generalizing p i with
  | nil => exact absurd hi (Nat.not_lt_zero i)
  | cons b bs ih =>
    cases i with
    | zero => exact h.1
    | succ i =>
      have hrest := ih h.2 (Nat.lt_of_succ_lt_succ hi)
      rwa [Nat.add_assoc, Nat.add_comm 1] at hrest

theorem Holds.congr (h : Holds m p bs) (hm : ∀ q, p ≤ q → q < p + bs.length → m' q = m q) :
    Holds m' p bs := by
  induction bs generalizing p with
  | nil => trivial
  | cons b bs ih =>
    rw [List.length_cons] at hm
    refine ⟨?_, ih h.2 fun q hlo hhi => hm q (by omega) (by omega)⟩
    rw [hm p le_rfl (by omega), h.1]

theorem read_congr (hm : ∀ q, p ≤ q → q < p + n → m' q = m q) : read m' p n = read m p n := by
  induction n generalizing p with
  | zero => rfl
  | succ n ih =>
    rw [read, read, hm p le_rfl (by omega), ih fun q hlo hhi => hm q (by omega) (by omega)]

theorem read_append (m : Mem) (p k n : ℕ) : read m p (k + n) = read m p k ++ read m (p + k) n := by
  induction k generalizing p with
  | zero => simp [read]
  | succ k ih =>
    rw [Nat.add_right_comm, read, read, ih, List.cons_append, Nat.add_assoc, Nat.add_comm 1]

/-- A region that a write does not meet reads the same afterwards. -/
theorem read_write_of_disjoint (h : q + n ≤ p ∨ p + bs.length ≤ q) :
    read (write m p bs) q n = read m q n :=
  read_congr fun _ _ _ => write_of_disjoint (by omega)

theorem read_write (m : Mem) (p : ℕ) (bs : List UInt8) : read (write m p bs) p bs.length = bs :=
  (holds_write m p bs).read_eq

/-- What is written arrives where it is copied to. -/
theorem holds_of_copy (h : read m' q bs.length = read (write m p bs) p bs.length) : Holds m' q bs := by
  have hread := holds_read m' q bs.length
  rwa [h.trans (read_write m p bs)] at hread

/-- `bs` written at a pointer that moves behind it. -/
def emit (w : Mem × ℕ) (bs : List UInt8) : Mem × ℕ := (write w.1 w.2 bs, w.2 + bs.length)

@[simp] theorem emit_nil (w : Mem × ℕ) : emit w [] = w := rfl

@[simp] theorem emit_emit (w : Mem × ℕ) (as bs : List UInt8) :
    emit (emit w as) bs = emit w (as ++ bs) := by
  unfold emit
  rw [write_append, List.length_append, Nat.add_assoc]

/-- `w'` is where a pointer gets to from `w` when some bytes are written. -/
def After (w w' : Mem × ℕ) : Prop := ∃ bs, w' = emit w bs

theorem After.refl (w : Mem × ℕ) : After w w := ⟨[], (emit_nil w).symm⟩

theorem After.emit (w : Mem × ℕ) (bs : List UInt8) : After w (emit w bs) := ⟨bs, rfl⟩

theorem After.trans {w w' w'' : Mem × ℕ} (h : After w w') (h' : After w' w'') : After w w'' := by
  obtain ⟨bs, rfl⟩ := h
  obtain ⟨cs, rfl⟩ := h'
  exact ⟨bs ++ cs, emit_emit w bs cs⟩

theorem After.ite {w w' w'' : Mem × ℕ} {c : Prop} [Decidable c] (h : After w w') (h' : After w w'') :
    After w (if c then w' else w'') := by
  split_ifs
  · exact h
  · exact h'

/-- A part that may be left out. -/
theorem After.option {w w' w'' : Mem × ℕ} {c : Prop} [Decidable c] (h : After w w') (h' : After w' w'') :
    After w (if c then w'' else w') := (h.trans h').ite h

end ByteMem
