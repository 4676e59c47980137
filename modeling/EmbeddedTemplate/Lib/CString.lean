import Mathlib.Data.Int.Notation
import Mathlib.Data.List.TakeWhile
import Mathlib.Data.Nat.Notation

/-! The string functions of the C library on the bytes from a pointer on. A NUL ends a string,
and what follows it is still there; so does the end of the list. `long` has 32 bits. -/
namespace CString

def minus : UInt8 := 45
def plus : UInt8 := 43
def zero : UInt8 := 48

def isSpace (c : UInt8) : Bool := c == 32 || (9 ≤ c && c ≤ 13)

/-- What a character stands for as a digit; 36 is none. -/
def digitValue (c : UInt8) : ℕ :=
  if 48 ≤ c ∧ c ≤ 57 then c.toNat - 48
  else if 97 ≤ c ∧ c ≤ 122 then c.toNat - 87
  else if 65 ≤ c ∧ c ≤ 90 then c.toNat - 55
  else 36

def isDigit (base : ℕ) (c : UInt8) : Bool := decide (digitValue c < base)

def value (base : ℕ) (ds : List UInt8) : ℕ := ds.foldl (fun n c => n * base + digitValue c) 0

def skipSign (s : List UInt8) : List UInt8 :=
  if s.head? = some minus ∨ s.head? = some plus then s.tail else s

/-- `0x` in front of a hexadecimal number. -/
def skipPrefix (base : ℕ) (s : List UInt8) : List UInt8 :=
  if base = 16 ∧ s.head? = some zero ∧ (s[1]? = some 120 ∨ s[1]? = some 88) ∧
      s[2]?.any (isDigit 16) then
    s.drop 2
  else s

/-- The nearest number of a `long`. -/
def long (n : ℤ) : ℤ :=
  if n < -2147483648 then -2147483648 else if 2147483647 < n then 2147483647 else n

/-- `strtol` with the place it stores to its second argument. -/
def strtol (base : ℕ) (s : List UInt8) : ℤ × List UInt8 :=
  let t := s.dropWhile isSpace
  let u := skipPrefix base (skipSign t)
  let ds := u.takeWhile (isDigit base)
  if ds = [] then (0, s)
  else (long (if t.head? = some minus then -value base ds else value base ds),
    u.dropWhile (isDigit base))

def atoi (s : List UInt8) : ℤ := (strtol 10 s).1

def strchr (c : UInt8) : List UInt8 → Option (List UInt8)
  | [] => none
  | b :: s => if b = c then some (b :: s) else if b = 0 then none else strchr c s

variable {s back : List UInt8}

/-- A search stops at the end of the string. -/
theorem strchr_append_nul {c : UInt8} (hc : c ≠ 0) (hs : 0 ∉ s) (back : List UInt8) :
    strchr c (s ++ 0 :: back) = (strchr c s).map (· ++ 0 :: back) := by
  induction s with
  | nil => simp [strchr, Ne.symm hc]
  | cons b s ih =>
    rw [List.mem_cons, not_or] at hs
    simp only [List.cons_append, strchr, if_neg (Ne.symm hs.1), ih hs.2]
    split_ifs
    · rfl
    · rfl

theorem dropWhile_append_nul {p : UInt8 → Bool} (hp : p 0 = false) (s back : List UInt8) :
    (s ++ 0 :: back).dropWhile p = s.dropWhile p ++ 0 :: back := by
  rw [List.dropWhile_append]
  cases h : s.dropWhile p with
  | nil => simp [hp]
  | cons b t => simp

theorem takeWhile_append_nul {p : UInt8 → Bool} (hp : p 0 = false) (s back : List UInt8) :
    (s ++ 0 :: back).takeWhile p = s.takeWhile p := by
  rw [List.takeWhile_append]
  split_ifs with h
  · rw [List.takeWhile_cons_of_neg (by simp [hp]), List.append_nil]
    exact ((List.takeWhile_prefix p).eq_of_length h).symm
  · rfl

theorem skipSign_append_nul (s back : List UInt8) :
    skipSign (s ++ 0 :: back) = skipSign s ++ 0 :: back := by
  cases s with
  | nil => rfl
  | cons b s =>
    by_cases hb : b = minus ∨ b = plus
    · simp [skipSign, hb]
    · simp [skipSign, hb]

theorem skipPrefix_ten (s : List UInt8) : skipPrefix 10 s = s := if_neg (by simp)

theorem head?_append_nul {c : UInt8} (hc : c ≠ 0) (s back : List UInt8) :
    (s ++ 0 :: back).head? = some c ↔ s.head? = some c := by
  cases s with
  | nil => simp [Ne.symm hc]
  | cons b s => rfl

theorem atoi_append_nul (s back : List UInt8) : atoi (s ++ 0 :: back) = atoi s := by
  unfold atoi strtol
  dsimp only
  rw [dropWhile_append_nul (by decide), skipPrefix_ten, skipPrefix_ten, skipSign_append_nul,
    takeWhile_append_nul (by decide)]
  simp only [head?_append_nul (show minus ≠ 0 by decide)]
  split_ifs
  · rfl
  · rfl
  · rfl

theorem atoi_dropWhile {p : UInt8 → Bool} (hp : ∀ c, p c = true → isSpace c = true) (s : List UInt8) :
    atoi (s.dropWhile p) = atoi s := by
  have hdrop : (s.dropWhile p).dropWhile isSpace = s.dropWhile isSpace := by
    induction s with
    | nil => rfl
    | cons b s ih =>
      by_cases hb : p b = true
      · rw [List.dropWhile_cons_of_pos hb, List.dropWhile_cons_of_pos (hp b hb), ih]
      · rw [List.dropWhile_cons_of_neg hb]
  unfold atoi strtol
  dsimp only
  rw [hdrop]
  split_ifs
  · rfl
  · rfl
  · rfl

theorem strtol_of_stop {c : UInt8} (hsp : isSpace c = false) (hm : c ≠ minus) (hp : c ≠ plus)
    (hd : isDigit 10 c = false) (s : List UInt8) : strtol 10 (c :: s) = (0, c :: s) := by
  have hdrop : (c :: s).dropWhile isSpace = c :: s := List.dropWhile_cons_of_neg (by simp [hsp])
  have hsign : skipSign (c :: s) = c :: s := if_neg (by simp [hm, hp])
  unfold strtol
  dsimp only
  rw [hdrop, skipPrefix_ten, hsign, List.takeWhile_cons_of_neg (by simp [hd]), if_pos rfl]

/-- What a conversion takes: blanks, a sign or none, and digits. -/
structure Numeral (blanks sign ds : List UInt8) : Prop where
  blanks : ∀ c ∈ blanks, isSpace c = true
  sign : sign = [] ∨ sign = [plus] ∨ sign = [minus]
  digits : ∀ c ∈ ds, isDigit 10 c = true
  ne_nil : ds ≠ []

def signed (sign ds : List UInt8) : ℤ := if sign = [minus] then -value 10 ds else value 10 ds

theorem isDigit_ten_iff (c : UInt8) : isDigit 10 c = true ↔ 48 ≤ c ∧ c ≤ 57 := by
  simp only [isDigit, decide_eq_true_eq, digitValue, UInt8.le_iff_toNat_le, UInt8.toNat_ofNat]
  split_ifs <;> omega

theorem not_isSpace_of_isDigit {c : UInt8} (h : isDigit 10 c = true) :
    isSpace c = false ∧ c ≠ minus ∧ c ≠ plus := by
  have hge := ((isDigit_ten_iff c).mp h).1
  simp only [UInt8.le_iff_toNat_le, UInt8.toNat_ofNat] at hge
  refine ⟨?_, ?_, ?_⟩
  · simp only [isSpace, Bool.or_eq_false_iff, Bool.and_eq_false_iff, beq_eq_false_iff_ne, ne_eq,
      decide_eq_false_iff_not, UInt8.le_iff_toNat_le, UInt8.toNat_ofNat, ← UInt8.toNat_inj]
    omega
  · rintro rfl
    exact absurd hge (by decide)
  · rintro rfl
    exact absurd hge (by decide)

theorem strtol_numeral {blanks sign ds rest : List UInt8} (h : Numeral blanks sign ds)
    (hr : ∀ c ∈ rest.head?, isDigit 10 c = false) :
    strtol 10 (blanks ++ (sign ++ (ds ++ rest))) = (long (signed sign ds), rest) := by
  obtain ⟨d, ds', hds⟩ := List.exists_cons_of_ne_nil h.ne_nil
  obtain ⟨hsp, hm, hp⟩ := not_isSpace_of_isDigit (h.digits d (by simp [hds]))
  have hdrop : (blanks ++ (sign ++ (ds ++ rest))).dropWhile isSpace = sign ++ (ds ++ rest) := by
    rw [List.dropWhile_append_of_pos h.blanks]
    obtain hs | hs | hs := h.sign
    · simp [hs, hds, hsp]
    · simp [hs, isSpace, plus]
    · simp [hs, isSpace, minus]
  have hskip : skipSign (sign ++ (ds ++ rest)) = ds ++ rest := by
    obtain hs | hs | hs := h.sign
    · simp [hs, skipSign, hds, hm, hp]
    · simp [hs, skipSign]
    · simp [hs, skipSign]
  have hneg : (sign ++ (ds ++ rest)).head? = some minus ↔ sign = [minus] := by
    obtain hs | hs | hs := h.sign
    · simp [hs, hds, hm]
    · simp [hs]
    · simp [hs]
  have hstop : rest.takeWhile (isDigit 10) = [] ∧ rest.dropWhile (isDigit 10) = rest := by
    cases rest with
    | nil => exact ⟨rfl, rfl⟩
    | cons c rest => simp [hr c rfl]
  unfold strtol signed
  dsimp only
  rw [hdrop, skipPrefix_ten, hskip, List.takeWhile_append_of_pos h.digits, hstop.1,
    List.dropWhile_append_of_pos h.digits, hstop.2, List.append_nil, if_neg h.ne_nil]
  simp only [hneg]

/-- A conversion takes nothing, or the longest numeral in front. -/
theorem strtol_cases (s : List UInt8) : strtol 10 s = (0, s) ∨ ∃ blanks sign ds rest,
    Numeral blanks sign ds ∧ s = blanks ++ (sign ++ (ds ++ rest)) ∧
      strtol 10 s = (long (signed sign ds), rest) := by
  obtain ⟨sign, hsign, ht⟩ : ∃ sign, (sign = [] ∨ sign = [plus] ∨ sign = [minus]) ∧
      s.dropWhile isSpace = sign ++ skipSign (s.dropWhile isSpace) := by
    cases s.dropWhile isSpace with
    | nil => exact ⟨[], .inl rfl, rfl⟩
    | cons c t =>
      by_cases hm : c = minus
      · exact ⟨[minus], by simp, by simp [skipSign, hm]⟩
      by_cases hp : c = plus
      · exact ⟨[plus], by simp, by simp [skipSign, hp]⟩
      · exact ⟨[], .inl rfl, by simp [skipSign, hm, hp]⟩
  generalize hu : skipSign (s.dropWhile isSpace) = u at ht
  by_cases hds : u.takeWhile (isDigit 10) = []
  · left
    unfold strtol
    dsimp only
    rw [hu, skipPrefix_ten, if_pos hds]
  · right
    have hnum : Numeral (s.takeWhile isSpace) sign (u.takeWhile (isDigit 10)) :=
      ⟨fun c hc => List.mem_takeWhile_imp hc, hsign, fun c hc => List.mem_takeWhile_imp hc, hds⟩
    have hs : s = s.takeWhile isSpace ++
        (sign ++ (u.takeWhile (isDigit 10) ++ u.dropWhile (isDigit 10))) := by
      rw [List.takeWhile_append_dropWhile, ← ht, List.takeWhile_append_dropWhile]
    have hstop : ∀ c ∈ (u.dropWhile (isDigit 10)).head?, isDigit 10 c = false := by
      intro c hc
      have hhead := List.head?_dropWhile_not (isDigit 10) u
      rwa [Option.mem_def.mp hc] at hhead
    have hconv := strtol_numeral hnum hstop
    rw [← hs] at hconv
    exact ⟨_, sign, _, _, hnum, hs, hconv⟩

end CString
