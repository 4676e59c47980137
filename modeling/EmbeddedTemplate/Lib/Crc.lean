import Mathlib.Data.List.TakeDrop
import Mathlib.Logic.Function.Iterate

/-! Cyclic redundancy checks as a shift register of `w` bits that is fed with the most
significant bit first. Everything is linear in exclusive or, so what an error does to a
checksum does not depend on the message. -/
namespace Crc

variable {w : ℕ} (poly : BitVec w)

/-- One shift with feedback of the bit that falls out. -/
def shift (r : BitVec w) : BitVec w := (r <<< 1) ^^^ (if r.msb then poly else 0#w)

def top (b : Bool) : BitVec w := if b then BitVec.intMin w else 0#w

def feed (r : BitVec w) (b : Bool) : BitVec w := shift poly (r ^^^ top b)

def feedAll (r : BitVec w) (bs : List Bool) : BitVec w := bs.foldl (feed poly) r

/-- The first `w` bits of a string as a word. -/
def pack : List Bool → BitVec w
  | [] => 0#w
  | b :: bs => top b ^^^ (pack bs >>> 1)

variable {poly}

theorem shift_xor (a b : BitVec w) : shift poly (a ^^^ b) = shift poly a ^^^ shift poly b := by
  unfold shift
  rw [BitVec.msb_xor, BitVec.shiftLeft_xor_distrib]
  cases a.msb <;> cases b.msb
  · simp
  · simp [BitVec.xor_assoc]
  · simp only [Bool.xor_false, if_true, Bool.false_eq_true, if_false, BitVec.xor_zero]
    ac_rfl
  · -- the feedback of both words cancels
    have hcancel : poly ^^^ (b <<< 1 ^^^ poly) = b <<< 1 := by
      rw [BitVec.xor_comm, BitVec.xor_assoc, BitVec.xor_self, BitVec.xor_zero]
    simp only [Bool.xor_self, Bool.false_eq_true, if_false, if_true, BitVec.xor_zero]
    rw [BitVec.xor_assoc, hcancel]

theorem shift_zero : shift poly (0#w) = 0#w := by
  simp [shift]

theorem top_xor (x y : Bool) : (top (x ^^ y) : BitVec w) = top x ^^^ top y := by
  cases x <;> cases y <;> simp [top]

theorem feed_xor (a b : BitVec w) (x y : Bool) :
    feed poly (a ^^^ b) (x ^^ y) = feed poly a x ^^^ feed poly b y := by
  unfold feed
  rw [← shift_xor, top_xor]
  congr 1
  ac_rfl

theorem feedAll_xor (a b : BitVec w) {xs ys : List Bool} (h : xs.length = ys.length) :
    feedAll poly (a ^^^ b) (List.zipWith xor xs ys) = feedAll poly a xs ^^^ feedAll poly b ys := by
  induction xs generalizing a b ys with
  | nil =>
    have hnil : ys = [] := List.eq_nil_of_length_eq_zero h.symm
    subst hnil
    rfl
  | cons x xs ih =>
    obtain ⟨y, ys, rfl⟩ := List.exists_cons_of_length_eq_add_one (show ys.length = xs.length + 1 by
      simpa using h.symm)
    simp only [List.zipWith_cons_cons, feedAll, List.foldl_cons, feed_xor]
    exact ih _ _ (by simpa using h)

theorem feedAll_append (r : BitVec w) (xs ys : List Bool) :
    feedAll poly r (xs ++ ys) = feedAll poly (feedAll poly r xs) ys := List.foldl_append

/-- A polynomial with a constant term loses no information in a shift. -/
theorem eq_zero_of_shift (hp : poly.getLsbD 0 = true) {r : BitVec w} (h : shift poly r = 0#w) :
    r = 0#w := by
  have hw : 0 < w := by
    by_contra hw
    simp [BitVec.getLsbD_of_ge poly 0 (by omega)] at hp
  have hmsb : r.msb = false := by
    have hbit := congrArg (fun x => x.getLsbD 0) h
    by_contra hr
    rw [Bool.not_eq_false] at hr
    simp [shift, hr, hw, -BitVec.getLsbD_eq_getElem, hp] at hbit
  have hleft : r <<< 1 = 0#w := by simpa [shift, hmsb] using h
  apply BitVec.eq_of_getLsbD_eq
  intro i hi
  by_cases hlast : i + 1 < w
  · have hbit := congrArg (fun x => x.getLsbD (i + 1)) hleft
    simpa [hlast, ← BitVec.getLsbD_eq_getElem] using hbit
  · have hi' : i = w - 1 := by omega
    rw [hi', ← BitVec.msb_eq_getLsbD_last, hmsb, BitVec.getLsbD_zero]

theorem eq_zero_of_iterate_shift (hp : poly.getLsbD 0 = true) {r : BitVec w} (n : ℕ)
    (h : (shift poly)^[n] r = 0#w) : r = 0#w := by
  induction n generalizing r with
  | zero => exact h
  | succ n ih =>
    rw [Function.iterate_succ_apply] at h
    exact eq_zero_of_shift hp (ih h)

/-- Zeros after an error do not repair it. -/
theorem feedAll_zeros (r : BitVec w) (n : ℕ) :
    feedAll poly r (List.replicate n false) = (shift poly)^[n] r := by
  induction n generalizing r with
  | zero => rfl
  | succ n ih =>
    rw [List.replicate_succ, Function.iterate_succ_apply, ← ih]
    simp [feedAll, feed, top]

theorem iterate_shift_zero (n : ℕ) : (shift poly)^[n] (0#w) = 0#w :=
  Function.iterate_fixed shift_zero n

theorem iterate_shift_xor (n : ℕ) (a b : BitVec w) :
    (shift poly)^[n] (a ^^^ b) = (shift poly)^[n] a ^^^ (shift poly)^[n] b := by
  induction n generalizing a b with
  | zero => rfl
  | succ n ih => rw [Function.iterate_succ_apply, shift_xor, ih]; rfl

/-- A word whose top `n` bits are clear only moves in `n` shifts. -/
theorem iterate_shift_of_clear (n : ℕ) {r : BitVec w} (h : ∀ i < n, r.getMsbD i = false) :
    (shift poly)^[n] r = r <<< n := by
  induction n generalizing r with
  | zero => simp
  | succ n ih =>
    have hmsb : r.msb = false := by
      rw [BitVec.msb_eq_getMsbD_zero]
      exact h 0 (Nat.succ_pos n)
    have hone : shift poly r = r <<< 1 := by simp [shift, hmsb]
    have hclear : ∀ i < n, (r <<< 1).getMsbD i = false := by
      intro i hi
      rw [BitVec.getMsbD_shiftLeft]
      exact h (i + 1) (Nat.succ_lt_succ hi)
    rw [Function.iterate_succ_apply, hone, ih hclear, ← BitVec.shiftLeft_add, Nat.add_comm]

theorem getMsbD_top (b : Bool) (i : ℕ) :
    (top b : BitVec w).getMsbD i = (b && decide (0 < w) && decide (i = 0)) := by
  cases b <;> simp [top, BitVec.getMsbD_intMin]

theorem getMsbD_pack (bs : List Bool) (i : ℕ) :
    (pack bs : BitVec w).getMsbD i = (decide (i < w) && bs.getD i false) := by
  induction bs generalizing i with
  | nil => simp [pack]
  | cons b bs ih =>
    rw [pack, BitVec.getMsbD_xor, BitVec.getMsbD_ushiftRight, getMsbD_top, ih]
    cases i with
    | zero => simp [Bool.and_comm]
    | succ i =>
      by_cases hi : i + 1 < w
      · simp [hi, Nat.lt_of_succ_lt hi]
      · simp [hi]

variable (poly) in
/-- The later bits of a string are not at the top yet, so a shift only moves them. -/
theorem shift_pack_ushiftRight {bs : List Bool} (h : bs.length < w) :
    shift poly (pack bs >>> 1) = (pack bs : BitVec w) := by
  have hmsb : (pack bs >>> 1 : BitVec w).msb = false := by
    rw [BitVec.msb_eq_getMsbD_zero, BitVec.getMsbD_ushiftRight]
    simp
  rw [shift, hmsb, if_neg Bool.false_ne_true, BitVec.xor_zero]
  apply BitVec.eq_of_getMsbD_eq
  intro i hi
  rw [BitVec.getMsbD_shiftLeft, BitVec.getMsbD_ushiftRight, Nat.add_sub_cancel]
  by_cases hlast : i + 1 < w
  · simp [hlast]
  · have hout : bs.length ≤ i := by omega
    simp [hlast, getMsbD_pack, hout]

theorem feedAll_eq (r : BitVec w) {bs : List Bool} (h : bs.length ≤ w) :
    feedAll poly r bs = (shift poly)^[bs.length] (r ^^^ pack bs) := by
  induction bs generalizing r with
  | nil => simp [feedAll, pack]
  | cons b bs ih =>
    rw [List.length_cons] at h
    have hmove := shift_pack_ushiftRight poly h
    have hstep : feed poly r b ^^^ pack bs = shift poly (r ^^^ pack (b :: bs)) := by
      rw [pack, ← BitVec.xor_assoc, shift_xor, hmove]
      rfl
    rw [List.length_cons, Function.iterate_succ_apply, ← hstep]
    exact ih _ (Nat.le_of_succ_le h)

theorem eq_false_of_pack {bs : List Bool} (h : bs.length ≤ w) (hz : (pack bs : BitVec w) = 0#w) :
    ∀ b ∈ bs, b = false := by
  intro b hb
  obtain ⟨i, hi, rfl⟩ := List.getElem_of_mem hb
  have hbit := getMsbD_pack (w := w) bs i
  simpa [hz, Nat.lt_of_lt_of_le hi h, hi] using hbit.symm

/-- Some bit is set, and all set bits lie within `n` consecutive places. -/
def Burst (n : ℕ) (e : List Bool) : Prop :=
  true ∈ e ∧ ∃ start, ∀ i, e[i]? = some true → start ≤ i ∧ i < start + n

theorem Burst.of_concat_false {n : ℕ} {e : List Bool} (h : Burst n (e ++ [false])) : Burst n e := by
  obtain ⟨hmem, start, hbits⟩ := h
  constructor
  · simpa using hmem
  · refine ⟨start, fun i hi => hbits i ?_⟩
    have hlt : i < e.length := (List.getElem?_eq_some_iff.mp hi).1
    rwa [List.getElem?_append_left hlt]

theorem eq_replicate_false {e : List Bool} (h : ∀ i : ℕ, e[i]? ≠ some true) :
    e = List.replicate e.length false := by
  rw [List.eq_replicate_iff]
  refine ⟨rfl, fun b hb => ?_⟩
  obtain ⟨i, hi⟩ := List.mem_iff_getElem?.mp hb
  cases b with
  | false => rfl
  | true => exact absurd hi (h i)

theorem Burst.split {n : ℕ} {e : List Bool} (h : Burst n e) :
    ∃ before burst after, e = List.replicate before false ++ burst ++ List.replicate after false ∧
      burst.length ≤ n ∧ true ∈ burst := by
  obtain ⟨hmem, start, hbits⟩ := h
  have hbefore := eq_replicate_false (e := e.take start) (fun i hi => by
    obtain ⟨hlt, -⟩ := List.getElem?_eq_some_iff.mp hi
    rw [List.length_take] at hlt
    rw [List.getElem?_take_of_lt (by omega)] at hi
    have := hbits i hi
    omega)
  have hafter := eq_replicate_false (e := e.drop (start + n)) (fun i hi => by
    rw [List.getElem?_drop] at hi
    have := hbits _ hi
    omega)
  have hsplit : e = e.take start ++ (e.drop start).take n ++ e.drop (start + n) := by
    rw [List.append_assoc, ← List.drop_drop, List.take_append_drop, List.take_append_drop]
  have hin : true ∈ (e.drop start).take n := by
    rw [hsplit, hbefore, hafter] at hmem
    simpa using hmem
  rw [hbefore, hafter] at hsplit
  exact ⟨_, _, _, hsplit, List.length_take_le _ _, hin⟩

/-- A burst that fits the register leaves a nonzero checksum, wherever it stands. -/
theorem Burst.feedAll_ne_zero (hp : poly.getLsbD 0 = true) {e : List Bool} (he : Burst w e) :
    feedAll poly 0#w e ≠ 0#w := by
  obtain ⟨before, burst, after, rfl, hlen, hb⟩ := he.split
  intro h
  rw [feedAll_append, feedAll_append, feedAll_zeros, feedAll_zeros, iterate_shift_zero,
    feedAll_eq _ hlen, BitVec.zero_xor] at h
  have hpack := eq_zero_of_iterate_shift hp _ (eq_zero_of_iterate_shift hp _ h)
  exact absurd (eq_false_of_pack hlen hpack true hb) (by simp)

theorem feedAll_eq_zero_iff (hp : poly.getLsbD 0 = true) (r : BitVec w) {bs : List Bool}
    (h : bs.length = w) : feedAll poly r bs = 0#w ↔ r = pack bs := by
  rw [feedAll_eq r (Nat.le_of_eq h)]
  constructor
  · intro hz
    exact BitVec.xor_eq_zero_iff.mp (eq_zero_of_iterate_shift hp _ hz)
  · intro hr
    rw [hr, BitVec.xor_self, iterate_shift_zero]

end Crc
