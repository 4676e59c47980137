import EmbeddedTemplate.Shell.Tokens

/-! What of a quoted section of the command line reaches the handler. -/
namespace EmbeddedTemplate.Shell

open Words

/-- `body` stands between a pair of matching quotes. -/
def Section (line pre : List UInt8) (q : UInt8) (body post : List UInt8) : Prop :=
  line = pre ++ q :: (body ++ q :: post) ∧ Closed pre ∧ isQuote q = true ∧ q ∉ body

instance (line pre : List UInt8) (q : UInt8) (body post : List UInt8) :
    Decidable (Section line pre q body post) := inferInstanceAs (Decidable (_ ∧ _))

def argumentOf (pre : List UInt8) (q : UInt8) (body : List UInt8) : ℕ :=
  (tokens ((pre ++ q :: (body ++ [q])).map blank)).length - 1

/-- Each quoted section is, byte for byte, in its argument. -/
def Undisturbed (line : List UInt8) (argv : List (List UInt8)) : Prop :=
  ∀ pre q body post, Section line pre q body post →
    ∃ u v, argv[argumentOf pre q body]? = some (u ++ (body ++ v))

theorem blank_of_isQuote {c : UInt8} (hc : isQuote c = true) : blank c = c := by
  have hor : c = apostrophe ∨ c = quotation := by simpa [isQuote] using hc
  obtain rfl | rfl := hor <;> decide

theorem blank_eq_iff {q : UInt8} (hq : isQuote q = true) (c : UInt8) : blank c = q ↔ c = q := by
  have hne : q ≠ space ∧ q ≠ carriageReturn ∧ q ≠ lineFeed ∧ q ≠ tab := by
    have hor : q = apostrophe ∨ q = quotation := by simpa [isQuote] using hq
    obtain rfl | rfl := hor <;> decide
  unfold blank
  split_ifs with hc
  · constructor
    · exact fun h => absurd h.symm hne.1
    · rintro rfl
      exact absurd hc (by simp [hne])
  · rfl

theorem isQuote_blank (c : UInt8) : isQuote (blank c) = isQuote c := by
  have h₁ := blank_eq_iff (q := apostrophe) (by decide) c
  have h₂ := blank_eq_iff (q := quotation) (by decide) c
  rw [Bool.eq_iff_iff]
  simp [isQuote, h₁, h₂]

/-- The first pass keeps the quotes of a line. -/
theorem foldl_map_blank {q : Option UInt8} (hq : ∀ b ∈ q, isQuote b = true) (l : List UInt8) :
    (l.map blank).foldl quoteStep q = l.foldl quoteStep q := by
  induction l generalizing q with
  | nil => rfl
  | cons c l ih =>
    have hstep : quoteStep q (blank c) = quoteStep q c := by
      cases q with
      | none =>
        by_cases hc : isQuote c = true
        · rw [blank_of_isQuote hc]
        · simp [quoteStep, isQuote_blank, hc]
      | some b => simp [quoteStep, blank_eq_iff (hq b rfl)]
    rw [List.map_cons, List.foldl_cons, hstep, ih (quoteStep_isQuote hq c), List.foldl_cons]

theorem foldl_of_not_mem {q : UInt8} {body : List UInt8} (h : q ∉ body) :
    body.foldl quoteStep (some q) = some q := by
  induction body with
  | nil => rfl
  | cons c body ih =>
    rw [List.mem_cons, not_or] at h
    rw [List.foldl_cons, quoteStep, if_neg (Ne.symm h.1), ih h.2]

theorem marked_of_not_mem {q : UInt8} {body : List UInt8} (h : q ∉ body) :
    ∀ x ∈ marked (some q) body, x.2 = false := by
  induction body with
  | nil => simp [marked]
  | cons c body ih =>
    rw [List.mem_cons, not_or] at h
    rw [marked, quoteStep, if_neg (Ne.symm h.1)]
    exact List.forall_mem_cons.mpr ⟨rfl, ih h.2⟩

/-- A quoted section lies in the token that ends the line up to its closing quote. -/
theorem tokens_section {pre body : List UInt8} {q : UInt8} (hpre : Closed pre)
    (hq : isQuote q = true) (hbody : q ∉ body) (post : List UInt8) :
    ∃ x y, (tokens (pre ++ q :: (body ++ q :: post)))[
      (tokens (pre ++ q :: (body ++ [q]))).length - 1]? = some (x ++ q :: (body ++ q :: y)) := by
  have hopen : quoteStep none q = some q := by simp [quoteStep, hq]
  have hclose : quoteStep (some q) q = none := by simp [quoteStep]
  have hmarked (r : List UInt8) : marked none (pre ++ q :: (body ++ q :: r)) =
      marked none pre ++
        ((q, q == space) :: (marked (some q) body ++ [(q, false)]) ++ marked none r) := by
    rw [marked_append, show pre.foldl quoteStep none = none from hpre, marked, hopen,
      marked_append, foldl_of_not_mem hbody, marked, hclose]
    simp
  have hspace : (q == space) = false := by
    rw [beq_eq_false_iff_ne]
    rintro rfl
    exact absurd hq (by decide)
  have hword : ∀ x ∈ (q, q == space) :: (marked (some q) body ++ [(q, false)]), x.2 = false := by
    refine List.forall_mem_cons.mpr ⟨hspace, fun x hx => ?_⟩
    rcases List.mem_append.mp hx with hx | hx
    · exact marked_of_not_mem hbody x hx
    · rw [List.mem_singleton.mp hx]
  have hend := hmarked []
  rw [show marked none [] = [] from rfl, List.append_nil] at hend
  obtain ⟨x, y, hxy⟩ := words_getElem hword (List.cons_ne_nil _ _) (marked none pre) (marked none post)
  refine ⟨x.map Prod.fst, y.map Prod.fst, ?_⟩
  unfold tokens
  rw [List.getElem?_map, List.length_map, hmarked, hend, hxy]
  simp [map_fst_marked]

theorem removeQuotes_section (x body y : List UInt8) (q : UInt8) :
    ∃ u v, removeQuotes (x ++ q :: (body ++ q :: y)) = u ++ (body ++ v) := by
  unfold removeQuotes
  split_ifs
  · refine ⟨(x ++ [q]).tail, (q :: y).dropLast, ?_⟩
    have hsplit : x ++ q :: (body ++ q :: y) = (x ++ [q]) ++ (body ++ (q :: y)) := by simp
    rw [hsplit, List.tail_append_of_ne_nil (by simp), List.dropLast_append_of_ne_nil (by simp),
      List.dropLast_append_of_ne_nil (by simp)]
  · exact ⟨x ++ [q], q :: y, by simp⟩

theorem mem_of_mem_removeQuotes {p : List UInt8} {c : UInt8} (hc : c ∈ removeQuotes p) : c ∈ p := by
  unfold removeQuotes at hc
  split_ifs at hc
  · exact List.mem_of_mem_tail (List.dropLast_subset _ hc)
  · exact hc

def Replaced (c : UInt8) : Prop :=
  c = tab ∨ c = carriageReturn ∨ c = lineFeed ∨ c = altSpace

instance (c : UInt8) : Decidable (Replaced c) := inferInstanceAs (Decidable (_ ∨ _))

theorem not_replaced_putBack_blank (c : UInt8) : ¬ Replaced (putBack (blank c)) := by
  by_cases hb : c = carriageReturn ∨ c = lineFeed ∨ c = tab
  · rw [blank, if_pos hb]
    decide
  · rw [blank, if_neg hb]
    by_cases ha : c = altSpace
    · rw [putBack, if_pos ha]
      decide
    · rw [putBack, if_neg ha]
      unfold Replaced
      tauto

theorem of_not_replaced {c : UInt8} (h : ¬ Replaced c) : blank c = c ∧ putBack c = c := by
  unfold Replaced at h
  exact ⟨if_neg (by tauto), if_neg (by tauto)⟩

theorem parse_eq_dispatched {line : List UInt8} {rc : ℤ} {argv : List (List UInt8)}
    (h : parse line rc = .dispatched argv) :
    argv = (tokens (line.map blank)).map fun t => removeQuotes (t.map putBack) := by
  rw [parse_eq] at h
  split_ifs at h
  exact (Outcome.dispatched.inj h).symm

theorem called_eq_some {shellCommands : List Command} {line cmd : List UInt8} {rc : ℤ} {argc : ℕ}
    {argv : List (List UInt8)}
    (h : (executeCommand shellCommands line rc).called = some (cmd, argc, argv)) :
    argv = (tokens (line.map blank)).map fun t => removeQuotes (t.map putBack) := by
  unfold executeCommand at h
  cases hparse : parse line rc with
  | returned c =>
    simp only [hparse] at h
    cases h
  | dispatched args =>
    simp only [hparse, executeCommandInCommands] at h
    split at h
    · simp only [Option.some.injEq, Prod.mk.injEq] at h
      obtain ⟨-, -, rfl⟩ := h
      exact parse_eq_dispatched hparse
    · cases h

/-- The quoted text of a dispatched line reaches the handler undisturbed if and only if no
tab, carriage return, line feed or `SHELL_ALT_SPACE` is quoted. -/
theorem undisturbed_iff {shellCommands : List Command} {line cmd : List UInt8} {rc : ℤ} {argc : ℕ}
    {argv : List (List UInt8)}
    (h : (executeCommand shellCommands line rc).called = some (cmd, argc, argv)) :
    Undisturbed line argv ↔
      ∀ pre q body post, Section line pre q body post → ∀ c ∈ body, ¬ Replaced c := by
  obtain rfl := called_eq_some h
  constructor
  · intro hkept pre q body post hsec c hc
    obtain ⟨u, v, harg⟩ := hkept pre q body post hsec
    obtain ⟨t, ht, heq⟩ := List.mem_map.mp (List.mem_of_getElem? harg)
    have hmem : c ∈ removeQuotes (t.map putBack) := by
      rw [heq]
      simp [hc]
    obtain ⟨b, hb, rfl⟩ := List.mem_map.mp (mem_of_mem_removeQuotes hmem)
    obtain ⟨a, -, rfl⟩ := List.mem_map.mp (mem_of_mem_tokens ht hb)
    exact not_replaced_putBack_blank a
  · rintro hclean pre q body post hsec
    have hbody := hclean pre q body post hsec
    obtain ⟨rfl, hpre, hq, hmem⟩ := hsec
    have hblank : body.map blank = body :=
      (List.map_congr_left fun c hc => (of_not_replaced (hbody c hc)).1).trans (List.map_id body)
    have hback : body.map putBack = body :=
      (List.map_congr_left fun c hc => (of_not_replaced (hbody c hc)).2).trans (List.map_id body)
    have hqback : putBack q = q := by
      refine if_neg ?_
      rintro rfl
      exact absurd hq (by decide)
    have hpre' : Closed (pre.map blank) := (foldl_map_blank (by simp) pre).trans hpre
    have hline (r : List UInt8) : (pre ++ q :: (body ++ q :: r)).map blank =
        pre.map blank ++ q :: (body ++ q :: r.map blank) := by
      simp [hblank, blank_of_isQuote hq]
    obtain ⟨x, y, htok⟩ := tokens_section hpre' hq hmem (post.map blank)
    obtain ⟨u, v, hstrip⟩ := removeQuotes_section (x.map putBack) body (y.map putBack) q
    refine ⟨u, v, ?_⟩
    unfold argumentOf
    rw [List.getElem?_map, hline, hline, List.map_nil, htok, Option.map_some, ← hstrip]
    simp [hback, hqback]

theorem undisturbed_led :
    Undisturbed " led 'a  b'".toUTF8.toList ["led".toUTF8.toList, "a  b".toUTF8.toList] ↔
      ∀ pre q body post, Section " led 'a  b'".toUTF8.toList pre q body post →
        ∀ c ∈ body, ¬ Replaced c :=
  undisturbed_iff (show (executeCommand [ledCommand] " led 'a  b'".toUTF8.toList 0).called =
    some ("led".toUTF8.toList, 2, ["led".toUTF8.toList, "a  b".toUTF8.toList]) by decide +kernel)

/-- A quoted tab reaches the handler as a space. -/
theorem quoted_tab_disturbed :
    (executeCommand [ledCommand] "led 'a\tb'".toUTF8.toList 0).called =
        some ("led".toUTF8.toList, 2, ["led".toUTF8.toList, "a b".toUTF8.toList]) ∧
      ¬ Undisturbed "led 'a\tb'".toUTF8.toList ["led".toUTF8.toList, "a b".toUTF8.toList] := by
  refine ⟨by decide +kernel, fun h => ?_⟩
  obtain ⟨u, v, harg⟩ := h "led ".toUTF8.toList apostrophe "a\tb".toUTF8.toList [] (by decide +kernel)
  have hpos : argumentOf "led ".toUTF8.toList apostrophe "a\tb".toUTF8.toList = 1 := by decide +kernel
  rw [hpos] at harg
  have hmem : tab ∈ "a b".toUTF8.toList := by
    rw [Option.some.inj harg]
    have htab : tab ∈ "a\tb".toUTF8.toList := by decide +kernel
    exact List.mem_append_right u (List.mem_append_left v htab)
  exact absurd hmem (by decide +kernel)

end EmbeddedTemplate.Shell
