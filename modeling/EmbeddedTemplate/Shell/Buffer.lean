import EmbeddedTemplate.Lib.StringMem
import EmbeddedTemplate.Shell.Tokens

/-! `shell_execute_command` on the buffer of `shell_loop`. The passes work in place, and each of them is the
function of the characters that the model of the command line has for it. -/
namespace EmbeddedTemplate.Shell.Buffer

open StringMem Words

/-- `SHELL_MAXSIZE`. No function looks at more bytes than this and no loop takes more rounds, and
where that does not do there is no result. -/
def maxSize : ℕ := 50

/-- The statements that write to the buffer. -/
inductive Site where
  | getline
  | newline
  | blank
  | altSpace
  | collapse
  | finalSpace
  | split
  | putBack
  | removeQuotes
deriving DecidableEq

abbrev Mem := StringMem.Mem Site

/-- `(void)strcat(cmd, "\n")` unless the line ends with one. -/
def terminate (m : Mem) (cmd : ℤ) : Option Mem := do
  let n ← m.strlen maxSize cmd
  if m.byte (cmd + n - 1) ≠ lineFeed then m.strcat .newline maxSize cmd [lineFeed] else some m

/-- `while (*p)`: the first pass. -/
def blankLoop : ℕ → Mem → ℤ → Option Mem
  | 0, _, _ => none
  | n + 1, m, p =>
    if m.byte p = 0 then some m
    else
      let m := if m.byte p = carriageReturn ∨ m.byte p = lineFeed ∨ m.byte p = tab then
        m.put .blank p space else m
      blankLoop n m (p + 1)

/-- The body of the second pass, on `inside_quotes` and `quote_char`. -/
def markChar (st : Bool × UInt8) (c : UInt8) : (Bool × UInt8) × Option UInt8 :=
  if c = apostrophe ∨ c = quotation then
    (if !st.1 then (true, c) else if c = st.2 then (false, 0) else st, none)
  else (st, if c = space ∧ st.1 then some altSpace else none)

/-- `while (*temp && *temp == ' ')`. -/
def squeeze : ℕ → Mem → ℤ → Option Mem
  | 0, _, _ => none
  | n + 1, m, temp =>
    if m.byte temp ≠ 0 ∧ m.byte temp = space then do
      let len ← m.strlen maxSize temp
      squeeze n (m.memmove .collapse temp (temp + 1) len) temp
    else some m

/-- `while (p)`: the third pass. -/
def collapseLoop : ℕ → Mem → Option ℤ → Option Mem
  | 0, _, _ => none
  | _ + 1, m, none => some m
  | n + 1, m, some p => do
    let m ← squeeze maxSize m (p + 1)
    let p ← m.strchr maxSize (p + 1) space
    collapseLoop n m p

/-- `while (1)`: the fourth pass. With `none` for `argv`, there are too many arguments. -/
def splitLoop : ℕ → Mem → ℤ → List ℤ → Option (Option (List ℤ) × Mem)
  | 0, _, _, _ => none
  | n + 1, m, p, argv => do
    match ← m.strchr maxSize p space with
    | none => some (some argv, m)
    | some temp =>
      let m := m.put .split temp 0
      if argv.length = maxArgs then some (none, m) else splitLoop n m (temp + 1) (argv ++ [p])

def putBackChar (_ : Unit) (c : UInt8) : Unit × Option UInt8 :=
  ((), if c = altSpace then some space else none)

/-- Remove quotes: the pointer to the argument, and the end of it. -/
def removeQuotes (m : Mem) (p : ℤ) : Option (ℤ × Mem) := do
  let n ← m.strlen maxSize p
  if (m.byte p = apostrophe ∨ m.byte p = quotation) ∧ m.byte p = m.byte (p + n - 1) then
    some (p + 1, m.put .removeQuotes (p + n - 1) 0)
  else some (p, m)

/-- The body of the loop over the arguments. -/
def processArgument (m : Mem) (p : ℤ) : Option (ℤ × Mem) := do
  let (m, _) ← m.forChars .putBack putBackChar maxSize maxSize p 0 ()
  removeQuotes m p

/-- `for (i = 0; i < argc; i ++)`. -/
def processArguments : Mem → List ℤ → Option (List ℤ × Mem)
  | m, [] => some ([], m)
  | m, p :: argv => do
    let (q, m) ← processArgument m p
    let (argv, m) ← processArguments m argv
    some (q :: argv, m)

/-- `shell_execute_command` behind the third pass: skip over the initial space, add a final one if there is
none, and call the handler with the arguments. -/
def executeArguments (shellCommands : List Command) (m : Mem) (cmd : ℤ) : Option (Result × Mem) := do
  let p := if m.byte cmd = space then cmd + 1 else cmd
  let n ← m.strlen maxSize p
  let m ← if m.byte (p + n - 1) ≠ space then m.strcat .finalSpace maxSize p [space] else some m
  match ← splitLoop maxSize m p [] with
  | (none, m) => some (⟨-124, none⟩, m)
  | (some argv, m) =>
    let (argv, m) ← processArguments m argv
    let args ← argv.mapM (m.read maxSize)
    some (executeCommandInCommands shellCommands argv.length args, m)

/-- `shell_execute_command`, with `shell_commands`. -/
def executeCommand (shellCommands : List Command) (m : Mem) (cmd : ℤ) (rc : ℤ) :
    Option (Result × Mem) := do
  let n ← m.strlen maxSize cmd
  if n = 0 then some (⟨Int8.ofInt rc, none⟩, m)
  else
    let m ← terminate m cmd
    let m ← blankLoop maxSize m cmd
    let (m, insideQuotes, _) ← m.forChars .altSpace markChar maxSize maxSize cmd 0 (false, 0)
    if insideQuotes then some (⟨-126, none⟩, m)
    else
      let p ← m.strchr maxSize cmd space
      let m ← collapseLoop maxSize m p
      if m.equals cmd [space] then some (⟨Int8.ofInt rc, none⟩, m)
      else executeArguments shellCommands m cmd

variable {m : Mem} {p : ℤ} {s : List UInt8}

/-- Every statement but the append of a final space. -/
def Executed (site : Site) : Prop := site ≠ .finalSpace

theorem byte_last (h : Holds m p s) (hs : s ≠ []) : some (m.byte (p + s.length - 1)) = s.getLast? := by
  obtain ⟨t, c, rfl⟩ := (List.eq_nil_or_concat' s).resolve_left hs
  have hc := (holds_cons.mp (holds_append.mp h).2).1.1
  have hend : p + (t ++ [c]).length - 1 = p + t.length := by
    rw [List.length_append, List.length_singleton]
    omega
  rw [hend, hc, List.getLast?_concat]

theorem terminate_spec (h : Holds m p s) (hs : s ≠ []) (hlen : s.length < maxSize) :
    ∃ m', terminate m p = some m' ∧ Holds m' p (Shell.terminate s) ∧
      Edits Executed p (p + s.length + 2) m m' := by
  have hlast : m.byte (p + s.length - 1) ≠ lineFeed ↔ s.getLast? ≠ some lineFeed := by
    rw [← byte_last h hs, Ne, Ne, Option.some.injEq]
  unfold terminate Shell.terminate
  simp only [h.strlen hlen, Option.bind_eq_bind, Option.bind_some, hlast]
  split_ifs with hc
  · obtain ⟨m', hrun, hold, hedit⟩ := h.strcat (t := [lineFeed])
      (show Executed .newline by simp [Executed]) (by decide) hlen
    rw [List.length_singleton] at hedit
    exact ⟨m', hrun, hold, hedit.mono le_rfl (by omega)⟩
  · exact ⟨m, rfl, h, .refl _ _ _ m⟩

theorem blankLoop_spec {n : ℕ} (h : Holds m p s) (hn : s.length < n) :
    ∃ m', blankLoop n m p = some m' ∧ Holds m' p (s.map Shell.blank) ∧
      Edits Executed p (p + s.length) m m' := by
  induction n generalizing m p s with
  | zero => cases hn
  | succ n ih =>
    cases s with
    | nil => exact ⟨m, by simp [blankLoop, holds_nil.mp h], h, .refl _ _ _ m⟩
    | cons c s =>
      obtain ⟨⟨hc, hne⟩, hs⟩ := holds_cons.mp h
      rw [List.length_cons] at hn
      have hbody : ∃ m₁, (if c = carriageReturn ∨ c = lineFeed ∨ c = tab then
            m.put .blank p space else m) = m₁ ∧ Holds m₁ p (Shell.blank c :: s) ∧
          Edits Executed p (p + 1) m m₁ := by
        unfold Shell.blank
        split_ifs
        · refine ⟨_, rfl, ?_, .put (by simp [Executed]) le_rfl (by omega)⟩
          exact h.put_head (by decide)
        · exact ⟨m, rfl, h, .refl _ _ _ m⟩
      obtain ⟨m₁, hm₁, hold, hedit⟩ := hbody
      obtain ⟨hc₁, hs₁⟩ := holds_cons.mp hold
      obtain ⟨m', hrun, hold', hedit'⟩ := ih hs₁ (by omega)
      refine ⟨m', ?_, ?_, ?_⟩
      · simp only [blankLoop, hc, if_neg hne, hm₁, hrun]
      · rw [List.map_cons]
        refine holds_cons.mpr ⟨⟨?_, hc₁.2⟩, hold'⟩
        rw [hedit'.frame p (by omega), hc₁.1]
      · rw [List.length_cons]
        exact (hedit.mono le_rfl (by omega)).trans (hedit'.mono (by omega) (by omega))

theorem squeeze_spec {n : ℕ} (h : Holds m p s) (hlen : s.length < maxSize) (hn : s.length < n) :
    ∃ m', squeeze n m p = some m' ∧ Holds m' p (s.dropWhile (· == space)) ∧
      Edits Executed p (p + s.length) m m' := by
  induction n generalizing m s with
  | zero => cases hn
  | succ n ih =>
    cases s with
    | nil => exact ⟨m, by simp [squeeze, holds_nil.mp h], h, .refl _ _ _ m⟩
    | cons c s =>
      obtain ⟨⟨hc, hne⟩, -⟩ := holds_cons.mp h
      by_cases hsp : c = space
      · obtain ⟨hold, hedit⟩ := h.memmove (show Executed .collapse by simp [Executed])
        have hlt : s.length < (c :: s).length := Nat.lt_succ_self _
        obtain ⟨m', hrun, hold', hedit'⟩ := ih hold (hlt.trans hlen) (Nat.lt_of_succ_lt_succ hn)
        refine ⟨m', ?_, ?_, hedit.trans (hedit'.mono le_rfl (by omega))⟩
        · rw [squeeze, if_pos (by rw [hc]; exact ⟨hne, hsp⟩)]
          simp only [h.strlen hlen, Option.bind_eq_bind, Option.bind_some, hrun]
        · simpa [hsp] using hold'
      · refine ⟨m, ?_, by simpa [hsp] using h, .refl _ _ _ m⟩
        rw [squeeze, if_neg (by rw [hc]; exact fun hand => hsp hand.2)]

theorem eq_takeWhile_space (hs : space ∈ s) : ∃ r, s.dropWhile (· != space) = space :: r ∧
    s = s.takeWhile (· != space) ++ space :: r := by
  have hsplit := List.takeWhile_append_dropWhile (p := (· != space)) (l := s)
  cases hdrop : s.dropWhile (· != space) with
  | nil =>
    rw [List.dropWhile_eq_nil_iff] at hdrop
    exact absurd (hdrop space hs) (by simp)
  | cons c r =>
    have hc : c = space := by
      have hhead := List.head_dropWhile_not (p := (· != space)) (l := s) (by simp [hdrop])
      simpa [hdrop] using hhead
    rw [hdrop, hc] at hsplit
    exact ⟨r, by rw [hc], hsplit.symm⟩

theorem collapseLoop_spec {n : ℕ} (h : Holds m p s) (hlen : s.length < maxSize) (hn : s.length < n) :
    ∃ q m', m.strchr maxSize p space = some q ∧ collapseLoop n m q = some m' ∧
      Holds m' p (Shell.collapseLoop n s) ∧ Edits Executed p (p + s.length) m m' := by
  induction n generalizing m p s with
  | zero => cases hn
  | succ n ih =>
    have hfind := h.strchr (c := space) (by decide) hlen
    by_cases hs : space ∈ s
    · obtain ⟨r, hdrop, heq⟩ := eq_takeWhile_space hs
      rw [if_pos hs] at hfind
      rw [Shell.collapseLoop, hdrop]
      generalize s.takeWhile (· != space) = t at heq hfind
      subst heq
      obtain ⟨ht, hr⟩ := holds_append.mp h
      obtain ⟨hspace, hr⟩ := holds_cons.mp hr
      rw [List.length_append, List.length_cons] at hlen hn ⊢
      -- the spaces behind the one that was found
      obtain ⟨m₁, hsq, hold₁, hedit₁⟩ := squeeze_spec (n := maxSize) hr (by omega) (by omega)
      have hle := List.length_dropWhile_le (· == space) r
      -- and the rest of the line
      obtain ⟨q, m₂, hq, hrun, hold₂, hedit₂⟩ := ih hold₁ (by omega) (by omega)
      have hedit : Edits Executed (p + t.length + 1) (p + t.length + 1 + r.length) m m₂ :=
        hedit₁.trans (hedit₂.mono le_rfl (by omega))
      refine ⟨_, m₂, hfind, ?_, ?_, hedit.mono (by omega) (by omega)⟩
      · simp only [collapseLoop, hsq, hq, Option.bind_eq_bind, Option.bind_some, hrun]
      · refine holds_append.mpr ⟨ht.edits hedit (.inl (by omega)), holds_cons.mpr ⟨⟨?_, hspace.2⟩, hold₂⟩⟩
        rw [hedit.frame _ (by omega), hspace.1]
    · rw [if_neg hs] at hfind
      have hdrop : s.dropWhile (· != space) = [] := by
        rw [List.dropWhile_eq_nil_iff]
        intro c hc
        simpa using ne_of_mem_of_not_mem hc hs
      rw [Shell.collapseLoop, hdrop]
      exact ⟨none, m, hfind, rfl, h, .refl _ _ _ m⟩

def Args (m : Mem) : ℤ → List (List UInt8) → Prop
  | _, [] => True
  | p, w :: ws => Holds m p w ∧ Args m (p + w.length + 1) ws

def pointers : ℤ → List (List UInt8) → List ℤ
  | _, [] => []
  | p, w :: ws => p :: pointers (p + w.length + 1) ws

theorem length_joined_cons (w : List UInt8) (ws : List (List UInt8)) :
    (joined (w :: ws)).length = w.length + 1 + (joined ws).length := by
  rw [joined_cons, List.length_append, List.length_cons]
  omega

theorem Args.edits {ws : List (List UInt8)} {m' : Mem} {lo hi : ℤ} (h : Args m p ws)
    (he : Edits Executed lo hi m m') (hout : hi ≤ p) : Args m' p ws := by
  induction ws generalizing p with
  | nil => trivial
  | cons w ws ih => exact ⟨h.1.edits he (.inr hout), ih h.2 (by omega)⟩

/-- The fourth pass finds as many words as `argv` has room for. -/
theorem splitLoop_spec {ws : List (List UInt8)} (hws : ∀ w ∈ ws, space ∉ w) {n : ℕ} {argv : List ℤ}
    (hargc : argv.length ≤ maxArgs) (h : Holds m p (joined ws)) (hlen : (joined ws).length < maxSize)
    (hn : (joined ws).length < n) :
    ∃ m', Edits Executed p (p + (joined ws).length) m m' ∧
      if argv.length + ws.length ≤ maxArgs then
        splitLoop n m p argv = some (some (argv ++ pointers p ws), m') ∧ Args m' p ws
      else splitLoop n m p argv = some (none, m') := by
  induction ws generalizing m p n argv with
  | nil =>
    obtain ⟨n, rfl⟩ := Nat.exists_eq_succ_of_ne_zero (Nat.ne_zero_of_lt hn)
    have hfind := h.strchr (c := space) (by decide) hlen
    refine ⟨m, .refl _ _ _ m, ?_⟩
    rw [if_pos (by simpa using hargc)]
    refine ⟨?_, trivial⟩
    simp [splitLoop, hfind, joined, pointers]
  | cons w ws ih =>
    obtain ⟨n, rfl⟩ := Nat.exists_eq_succ_of_ne_zero (Nat.ne_zero_of_lt hn)
    rw [List.forall_mem_cons] at hws
    have hfind := h.strchr (c := space) (by decide) hlen
    have htake : (joined (w :: ws)).takeWhile (· != space) = w := by
      rw [joined_cons, List.takeWhile_append_of_pos]
      · simp
      · intro b hb
        simpa using ne_of_mem_of_not_mem hb hws.1
    rw [if_pos (by simp [joined_cons]), htake] at hfind
    rw [length_joined_cons] at hlen hn ⊢
    rw [joined_cons] at h
    have hedit₁ : Edits Executed (p + w.length) (p + w.length + 1) m
        (m.put .split (p + w.length) 0) := .put (by simp [Executed]) le_rfl (by omega)
    have hword : Holds (m.put .split (p + w.length) 0) p w := h.put_nul
    have hrest := ((holds_cons.mp (holds_append.mp h).2).2).edits hedit₁ (.inr le_rfl)
    simp only [splitLoop, hfind, Option.bind_eq_bind, Option.bind_some, List.length_cons]
    by_cases hfull : argv.length = maxArgs
    · refine ⟨_, hedit₁.mono (by omega) (by omega), ?_⟩
      rw [if_pos hfull, if_neg (by omega)]
    · have hargc' : (argv ++ [p]).length ≤ maxArgs := by
        rw [List.length_append, List.length_singleton]
        omega
      obtain ⟨m₂, hedit₂, hrun⟩ := ih hws.2 hargc' hrest (by omega) (n := n) (by omega)
      refine ⟨m₂, (hedit₁.mono (by omega) (by omega)).trans (hedit₂.mono (by omega) (by omega)), ?_⟩
      rw [if_neg hfull]
      rw [List.length_append, List.length_singleton, Nat.add_assoc, Nat.add_comm 1] at hrun
      split_ifs at hrun ⊢ with hroom
      · refine ⟨?_, hword.edits hedit₂ (.inl (by omega)), hrun.2⟩
        rw [hrun.1, List.append_assoc]
        rfl
      · exact hrun

theorem scan_putBackChar (w : List UInt8) : scan putBackChar () w = (w.map Shell.putBack, ()) := by
  induction w with
  | nil => rfl
  | cons c w ih =>
    rw [scan, List.map_cons, Shell.putBack]
    simp only [putBackChar, ih]
    split_ifs
    · rfl
    · rfl

/-- The list model has the body of the second pass in its loop. -/
theorem scan_markChar (st : Bool × UInt8) (s : List UInt8) :
    ((scan markChar st s).1, (scan markChar st s).2.1) = markLoop s st.1 st.2 := by
  induction s generalizing st with
  | nil => rfl
  | cons c s ih =>
    rw [scan, markLoop]
    by_cases hc : c = apostrophe ∨ c = quotation
    · simp only [markChar, if_pos hc, ← ih, Option.getD_none]
    · simp only [markChar, if_neg hc, ← ih]
      split_ifs
      · rfl
      · rfl

theorem put_removeQuotes {c : UInt8} (h : Holds m p (c :: s)) :
    Holds (m.put .removeQuotes (p + s.length) 0) (p + 1) s.dropLast := by
  have hs := (holds_cons.mp h).2
  rcases List.eq_nil_or_concat' s with rfl | ⟨t, d, rfl⟩
  · have hedit : Edits Executed p (p + 1) m (m.put .removeQuotes p 0) :=
      .put (by simp [Executed]) le_rfl (by omega)
    simpa using hs.edits hedit (.inr le_rfl)
  · have hend : p + (t ++ [d]).length = p + 1 + t.length := by
      rw [List.length_append, List.length_singleton]
      omega
    rw [hend, List.dropLast_concat]
    exact hs.put_nul

/-- The argument is still at its place, or one character behind it. -/
theorem removeQuotes_spec (h : Holds m p s) (hlen : s.length < maxSize) :
    ∃ q m', removeQuotes m p = some (q, m') ∧ Holds m' q (Shell.removeQuotes s) ∧
      p ≤ q ∧ q + (Shell.removeQuotes s).length ≤ p + s.length ∧
      Edits Executed p (p + s.length) m m' := by
  unfold removeQuotes
  simp only [h.strlen hlen, Option.bind_eq_bind, Option.bind_some]
  cases s with
  | nil =>
    have hno : ¬ ((m.byte p = apostrophe ∨ m.byte p = quotation) ∧
        m.byte p = m.byte (p + ([] : List UInt8).length - 1)) := by
      rintro ⟨hquote, -⟩
      rw [holds_nil.mp h] at hquote
      exact absurd hquote (by decide)
    rw [if_neg hno]
    exact ⟨p, m, rfl, h, le_rfl, le_rfl, .refl _ _ _ m⟩
  | cons c t =>
    have hc := (holds_cons.mp h).1.1
    have hlast := byte_last h (List.cons_ne_nil c t)
    have hcond : ((m.byte p = apostrophe ∨ m.byte p = quotation) ∧
          m.byte p = m.byte (p + (c :: t).length - 1)) ↔
        ((c :: t).head? = some apostrophe ∨ (c :: t).head? = some quotation) ∧
          (c :: t).head? = (c :: t).getLast? := by
      rw [← hlast, hc, List.head?_cons, Option.some.injEq, Option.some.injEq, Option.some.injEq]
    have hend : p + (c :: t).length - 1 = p + t.length := by
      rw [List.length_cons]
      omega
    rw [Shell.removeQuotes]
    simp only [hcond]
    split_ifs
    · refine ⟨p + 1, _, rfl, ?_, by omega, ?_, ?_⟩
      · rw [hend]
        exact put_removeQuotes h
      · rw [List.tail_cons, List.length_dropLast, List.length_cons]
        omega
      · rw [hend, List.length_cons]
        exact .put (by simp [Executed]) (by omega) (by omega)
    · exact ⟨p, m, rfl, h, le_rfl, le_rfl, .refl _ _ _ m⟩

theorem putBackChar_ne (st : Unit) (c : UInt8) : ∀ d ∈ (putBackChar st c).2, d ≠ 0 := by
  intro d hd
  simp only [putBackChar, Option.mem_def, Option.ite_none_right_eq_some, Option.some.injEq] at hd
  rw [← hd.2]
  decide

theorem markChar_ne (st : Bool × UInt8) (c : UInt8) : ∀ d ∈ (markChar st c).2, d ≠ 0 := by
  intro d hd
  by_cases hc : c = apostrophe ∨ c = quotation
  · rw [markChar, if_pos hc] at hd
    cases hd
  · simp only [markChar, if_neg hc, Option.mem_def, Option.ite_none_right_eq_some,
      Option.some.injEq] at hd
    rw [← hd.2]
    decide

theorem processArgument_spec (h : Holds m p s) (hlen : s.length < maxSize) :
    ∃ q m', processArgument m p = some (q, m') ∧
      Holds m' q (Shell.removeQuotes (s.map Shell.putBack)) ∧ p ≤ q ∧
      q + (Shell.removeQuotes (s.map Shell.putBack)).length ≤ p + s.length ∧
      Edits Executed p (p + s.length) m m' := by
  obtain ⟨m₁, hrun, hold, hedit⟩ := h.forChars putBackChar_ne ()
    (show Executed .putBack by simp [Executed]) hlen hlen
  rw [scan_putBackChar] at hold
  have hmap : (s.map Shell.putBack).length = s.length := List.length_map _
  obtain ⟨q, m₂, hrun', hold', hle, hend, hedit'⟩ := removeQuotes_spec hold (hmap ▸ hlen)
  rw [hmap] at hend hedit'
  refine ⟨q, m₂, ?_, hold', hle, hend, hedit.trans hedit'⟩
  simp only [processArgument, hrun, Option.bind_eq_bind, Option.bind_some, hrun']

theorem processArguments_spec {ws : List (List UInt8)} (h : Args m p ws)
    (hlen : (joined ws).length < maxSize) :
    ∃ argv m', processArguments m (pointers p ws) = some (argv, m') ∧ argv.length = ws.length ∧
      argv.mapM (m'.read maxSize) = some (ws.map fun w => Shell.removeQuotes (w.map Shell.putBack)) ∧
      Edits Executed p (p + (joined ws).length) m m' := by
  induction ws generalizing m p with
  | nil => exact ⟨[], m, rfl, rfl, rfl, .refl _ _ _ m⟩
  | cons w ws ih =>
    rw [length_joined_cons] at hlen ⊢
    obtain ⟨q, m₁, hrun₁, hold₁, hle, hend, hedit₁⟩ := processArgument_spec h.1 (by omega)
    obtain ⟨argv, m₂, hrun₂, hargc, hread, hedit₂⟩ := ih (h.2.edits hedit₁ (by omega)) (by omega)
    have hold₂ := hold₁.edits hedit₂ (.inl (by omega))
    refine ⟨q :: argv, m₂, ?_, congrArg (· + 1) hargc, ?_, ?_⟩
    · simp only [pointers, processArguments, hrun₁, hrun₂, Option.bind_eq_bind, Option.bind_some]
    · rw [List.mapM_cons, hold₂.read (by omega), hread]
      rfl
    · exact (hedit₁.mono le_rfl (by omega)).trans (hedit₂.mono (by omega) (by omega))

theorem skipSpace_spec {ws : List (List UInt8)} {front : List UInt8} (hws : ∀ w ∈ ws, w ≠ [] ∧ space ∉ w)
    (hne : ws ≠ []) (hfront : front = [] ∨ front = [space]) (h : Holds m p (front ++ joined ws)) :
    ∃ q, (if m.byte p = space then p + 1 else p) = q ∧ Holds m q (joined ws) ∧ p ≤ q ∧
      q + (joined ws).length ≤ p + (front ++ joined ws).length := by
  rcases hfront with rfl | rfl
  · obtain ⟨w, ws, rfl⟩ := List.exists_cons_of_ne_nil hne
    obtain ⟨hw, hsp⟩ := hws w (by simp)
    obtain ⟨c, w, rfl⟩ := List.exists_cons_of_ne_nil hw
    have hc : m.byte p = c := (holds_cons.mp (joined_cons (c :: w) ws ▸ h)).1.1
    have hcsp : c ≠ space := by
      rintro rfl
      exact hsp (by simp)
    rw [hc, if_neg hcsp]
    exact ⟨p, rfl, h, le_rfl, le_rfl⟩
  · obtain ⟨hc, hrest⟩ := holds_cons.mp h
    rw [hc.1, if_pos rfl]
    refine ⟨p + 1, rfl, hrest, by omega, ?_⟩
    rw [List.length_append, List.length_singleton]
    omega

/-- The line ends with a space, so no other one is appended. -/
theorem executeArguments_spec (shellCommands : List Command) {ws : List (List UInt8)} {front : List UInt8}
    (hws : ∀ w ∈ ws, w ≠ [] ∧ space ∉ w) (hne : ws ≠ []) (hfront : front = [] ∨ front = [space])
    (h : Holds m p (front ++ joined ws)) (hlen : (front ++ joined ws).length < maxSize) :
    ∃ m', executeArguments shellCommands m p =
        some (if ws.length ≤ maxArgs then
          executeCommandInCommands shellCommands ws.length
            (ws.map fun w => Shell.removeQuotes (w.map Shell.putBack))
        else ⟨-124, none⟩, m') ∧
      Edits Executed p (p + (front ++ joined ws).length) m m' := by
  obtain ⟨q, hq, hold, hle, hend⟩ := skipSpace_spec hws hne hfront h
  unfold executeArguments
  rw [hq]
  have hshort : (joined ws).length < maxSize := by omega
  have hlast : m.byte (q + (joined ws).length - 1) = space := by
    have hjoin := getLast?_joined hne
    have hnil : joined ws ≠ [] := by
      intro hnil
      rw [hnil] at hjoin
      cases hjoin
    rw [← byte_last hold hnil] at hjoin
    exact Option.some.inj hjoin
  obtain ⟨m₁, hedit₁, hsplit⟩ := splitLoop_spec (fun w hw => (hws w hw).2)
    (show ([] : List ℤ).length ≤ maxArgs from Nat.zero_le _) hold hshort hshort
  simp only [hold.strlen hshort, hlast, ne_eq, not_true_eq_false, if_false, Option.bind_eq_bind,
    Option.bind_some]
  rw [List.length_nil, Nat.zero_add] at hsplit
  split_ifs at hsplit ⊢ with hroom
  · obtain ⟨hrun, hargs⟩ := hsplit
    obtain ⟨argv, m₂, hrun₂, hargc, hread, hedit₂⟩ := processArguments_spec hargs hshort
    refine ⟨m₂, ?_, (hedit₁.trans hedit₂).mono hle hend⟩
    rw [hrun]
    simp only [List.nil_append, hrun₂, hread, Option.bind_some, hargc]
  · refine ⟨m₁, ?_, hedit₁.mono hle hend⟩
    rw [hsplit]
    rfl

/-- What the second pass leaves of a line whose quotes are closed ends with a space. -/
theorem getLast?_markLoop {r u : List UInt8} (h : markLoop (r ++ [space]) false 0 = (u, false)) :
    u.getLast? = some space := by
  have hloop : markLoop (r ++ [space]) false 0 = ((marked none (r ++ [space])).map mark,
      ((r ++ [space]).foldl quoteStep none).isSome) :=
    markLoop_eq (q := none) (by simp) (r ++ [space])
  rw [hloop, Prod.mk.injEq, Option.isSome_eq_false_iff, Option.isNone_iff_eq_none] at h
  obtain ⟨rfl, hclosed⟩ := h
  have hr : Closed r := (closed_append_space r).mp hclosed
  rw [hr.marked_append_space, List.map_append, List.map_singleton, List.getLast?_append]
  rfl

theorem parse_of_markLoop {u : List UInt8} {insideQuotes : Bool} (hs : s ≠ []) (rc : ℤ)
    (h : markLoop ((Shell.terminate s).map Shell.blank) false 0 = (u, insideQuotes)) :
    parse s rc =
      if insideQuotes then .returned (-126)
      else if collapse u = [space] then .returned (Int8.ofInt rc)
      else (Shell.splitLoop maxArgs (trim (collapse u))).elim (.returned (-124)) fun argv =>
        .dispatched (argv.map fun p => Shell.removeQuotes (p.map Shell.putBack)) := by
  rw [parse, if_neg (mt List.length_eq_zero_iff.mp hs), h]
  dsimp only
  cases Shell.splitLoop maxArgs (trim (collapse u)) with
  | none => rfl
  | some argv => rfl

theorem length_terminate_le (s : List UInt8) : (Shell.terminate s).length ≤ s.length + 1 := by
  unfold Shell.terminate
  split_ifs <;> simp

theorem length_collapseLoop_le (n : ℕ) (s : List UInt8) : (Shell.collapseLoop n s).length ≤ s.length := by
  induction n generalizing s with
  | zero => exact le_rfl
  | succ n ih =>
    have hsplit := congrArg List.length (List.takeWhile_append_dropWhile (p := (· != space)) (l := s))
    rw [Shell.collapseLoop]
    cases hdrop : s.dropWhile (· != space) with
    | nil => exact le_rfl
    | cons c r =>
      rw [hdrop, List.length_append, List.length_cons] at hsplit
      have hrest := ih (r.dropWhile (· == space))
      have hle := List.length_dropWhile_le (· == space) r
      dsimp only
      rw [List.length_append, List.length_cons]
      omega

theorem markedLine_spec (h : Holds m p s) (hs : s ≠ []) (hlen : s.length + 2 ≤ maxSize) :
    ∃ m₁ m₂ m₃ u insideQuotes quoteChar, terminate m p = some m₁ ∧ blankLoop maxSize m₁ p = some m₂ ∧
      m₂.forChars .altSpace markChar maxSize maxSize p 0 (false, 0) =
        some (m₃, insideQuotes, quoteChar) ∧
      markLoop ((Shell.terminate s).map Shell.blank) false 0 = (u, insideQuotes) ∧
      Holds m₃ p u ∧ u.length < maxSize ∧ Edits Executed p (p + maxSize) m m₃ := by
  obtain ⟨m₁, hrun₁, hold₁, hedit₁⟩ := terminate_spec h hs (by omega)
  have hlen₁ : (Shell.terminate s).length < maxSize := by
    have := length_terminate_le s
    omega
  have hlen₂ : ((Shell.terminate s).map Shell.blank).length < maxSize := by rwa [List.length_map]
  obtain ⟨m₂, hrun₂, hold₂, hedit₂⟩ := blankLoop_spec (n := maxSize) hold₁ hlen₁
  obtain ⟨m₃, hrun₃, hold₃, hedit₃⟩ := hold₂.forChars markChar_ne (false, 0)
    (show Executed .altSpace by simp [Executed]) hlen₂ hlen₂
  refine ⟨m₁, m₂, m₃, _, _, _, hrun₁, hrun₂, hrun₃, (scan_markChar (false, 0) _).symm, hold₃, ?_, ?_⟩
  · rwa [length_scan]
  · have h₁ : Edits Executed p (p + maxSize) m m₁ := hedit₁.mono le_rfl (by omega)
    have h₂ : Edits Executed p (p + maxSize) m₁ m₂ := hedit₂.mono le_rfl (by omega)
    exact (h₁.trans h₂).trans (hedit₃.mono le_rfl (by omega))

theorem collapse_spec (h : Holds m p s) (hlast : s.getLast? = some space) (hlen : s.length < maxSize) :
    ∃ q m', m.strchr maxSize p space = some q ∧ collapseLoop maxSize m q = some m' ∧
      Holds m' p (collapse s) ∧ (collapse s).length < maxSize ∧
      Edits Executed p (p + maxSize) m m' := by
  have heq : Shell.collapseLoop maxSize s = collapse s := by
    rw [collapse, collapseLoop_eq hlast hlen.le, collapseLoop_eq hlast le_rfl]
  obtain ⟨q, m', hfind, hrun, hold, hedit⟩ := collapseLoop_spec h hlen hlen
  rw [heq] at hold
  exact ⟨q, m', hfind, hrun, hold, (length_collapseLoop_le _ s).trans_lt hlen,
    hedit.mono le_rfl (by omega)⟩

/-- On a line that leaves room for two characters, `shell_execute_command` is the function of the
characters, and it does not leave the buffer. -/
theorem executeCommand_spec (shellCommands : List Command) {cmd : ℤ} (rc : ℤ) (h : Holds m cmd s)
    (hlen : s.length + 2 ≤ maxSize) :
    ∃ m', executeCommand shellCommands m cmd rc =
        some (Shell.executeCommand shellCommands s rc, m') ∧
      Edits Executed cmd (cmd + maxSize) m m' := by
  have hlt : s.length < maxSize := by omega
  unfold executeCommand
  simp only [h.strlen hlt, Option.bind_eq_bind, Option.bind_some, List.length_eq_zero_iff]
  by_cases hs : s = []
  · refine ⟨m, ?_, .refl _ _ _ m⟩
    rw [if_pos hs, hs]
    rfl
  obtain ⟨m₁, m₂, m₃, u, insideQuotes, quoteChar, hrun₁, hrun₂, hrun₃, hmark, hold₃, hlen₃, hedit₃⟩ :=
    markedLine_spec h hs hlen
  rw [if_neg hs]
  simp only [hrun₁, hrun₂, hrun₃, Option.bind_some, Shell.executeCommand, parse_of_markLoop hs rc hmark]
  cases insideQuotes with
  | true => exact ⟨m₃, rfl, hedit₃⟩
  | false =>
    obtain ⟨r, hterm, -⟩ := terminate_eq s
    have hlast : u.getLast? = some space := by
      rw [hterm, List.map_append] at hmark
      exact getLast?_markLoop hmark
    obtain ⟨q, m₄, hfind, hrun₄, hold₄, hlen₄, hedit₄⟩ := collapse_spec hold₃ hlast hlen₃
    simp only [Bool.false_eq_true, if_false, hfind, hrun₄, Option.bind_some,
      hold₄.equals (t := [space]) (by decide)]
    split_ifs with hone
    · exact ⟨m₄, rfl, hedit₃.trans hedit₄⟩
    · have hne : words (· == space) u ≠ [] := mt (collapse_eq_space_iff hlast).mpr hone
      have hws : ∀ w ∈ words (· == space) u, w ≠ [] ∧ space ∉ w := by
        intro w hw
        obtain ⟨hnil, hsep⟩ := of_mem_words hw
        exact ⟨hnil, fun hmem => absurd (hsep space hmem) (by decide)⟩
      rw [trim_eq hlast hne, splitLoop_joined fun w hw => (of_mem_words hw).2]
      rw [collapse, collapseLoop_eq hlast le_rfl] at hold₄ hlen₄
      obtain ⟨m₅, hrun₅, hedit₅⟩ := executeArguments_spec shellCommands hws hne
        (by split_ifs <;> simp) hold₄ hlen₄
      refine ⟨m₅, ?_, (hedit₃.trans hedit₄).trans (hedit₅.mono le_rfl (by omega))⟩
      rw [hrun₅]
      split_ifs with hroom
      · simp only [Option.elim_some, List.length_map]
      · rfl

end EmbeddedTemplate.Shell.Buffer
