import EmbeddedTemplate.Lib.Words
import EmbeddedTemplate.Shell.Basic

/-! The passes of `shell_execute_command` against a tokenizer that reads the line once. -/
namespace EmbeddedTemplate.Shell

open Words

def isQuote (c : UInt8) : Bool := c == apostrophe || c == quotation

/-- The quote that is open behind the character `c`. -/
def quoteStep : Option UInt8 → UInt8 → Option UInt8
  | none, c => if isQuote c then some c else none
  | some q, c => if c = q then none else some q

/-- The characters of a line, with whether they are a space outside quotes. -/
def marked : Option UInt8 → List UInt8 → List (UInt8 × Bool)
  | _, [] => []
  | q, c :: cs => (c, q.isNone && c == space) :: marked (quoteStep q c) cs

def Closed (line : List UInt8) : Prop := line.foldl quoteStep none = none

instance (line : List UInt8) : Decidable (Closed line) := inferInstanceAs (Decidable (_ = none))

def Blank (line : List UInt8) : Prop := ∀ c ∈ line, c = space

instance (line : List UInt8) : Decidable (Blank line) := List.decidableBAll (· = space) line

def tokens (line : List UInt8) : List (List UInt8) :=
  (words Prod.snd (marked none line)).map (List.map Prod.fst)

def spaced (c : UInt8) : UInt8 := if c ∈ [tab, lineFeed, carriageReturn] then space else c

/-- A token without its first and last character, where these are the same quote. -/
def unquoted : List UInt8 → List UInt8
  | [] => []
  | q :: t => if isQuote q ∧ (q :: t).getLast? = some q then t.dropLast else q :: t

/-- The first command with the name `argv[0]` is called. -/
def dispatch (argv : List (List UInt8)) : List Command → Result
  | [] => ⟨-128, none⟩
  | c :: cs =>
    if argv.head? = some c.cmd then
      ⟨Int8.ofInt (c.handler argv.length argv), some (c.cmd, argv.length, argv)⟩
    else dispatch argv cs

def execute (shellCommands : List Command) (line : List UInt8) (rc : ℤ) : Result :=
  let n := line.map spaced
  if Blank n then ⟨Int8.ofInt rc, none⟩
  else if ¬ Closed n then ⟨-126, none⟩
  else if 10 < (tokens n).length then ⟨-124, none⟩
  else dispatch ((tokens n).map unquoted) shellCommands

/-- What the second pass makes of a character. -/
def mark (x : UInt8 × Bool) : UInt8 := if x.1 = space ∧ x.2 = false then altSpace else x.1

variable {q : Option UInt8} {l : List UInt8}

theorem quoteStep_of_not_quote {c : UInt8} (hq : ∀ b ∈ q, isQuote b = true) (hc : isQuote c = false) :
    quoteStep q c = q := by
  cases q with
  | none => simp [quoteStep, hc]
  | some b =>
    have hne : c ≠ b := by
      rintro rfl
      exact absurd (hq c rfl) (by simp [hc])
    simp [quoteStep, hne]

theorem quoteStep_isQuote (hq : ∀ b ∈ q, isQuote b = true) (c : UInt8) :
    ∀ b ∈ quoteStep q c, isQuote b = true := by
  cases q with
  | none =>
    intro b hb
    simp only [quoteStep] at hb
    split_ifs at hb with hc
    · exact Option.some.inj hb ▸ hc
    · cases hb
  | some a =>
    intro b hb
    simp only [quoteStep] at hb
    split_ifs at hb
    · cases hb
    · exact hq b hb

theorem foldl_isQuote (hq : ∀ b ∈ q, isQuote b = true) (l : List UInt8) :
    ∀ b ∈ l.foldl quoteStep q, isQuote b = true := by
  induction l generalizing q with
  | nil => exact hq
  | cons c l ih => exact ih (quoteStep_isQuote hq c)

theorem marked_append (q : Option UInt8) (l r : List UInt8) :
    marked q (l ++ r) = marked q l ++ marked (l.foldl quoteStep q) r := by
  induction l generalizing q with
  | nil => rfl
  | cons c l ih => exact congrArg _ (ih _)

theorem map_fst_marked (q : Option UInt8) (l : List UInt8) : (marked q l).map Prod.fst = l := by
  induction l generalizing q with
  | nil => rfl
  | cons c l ih => exact congrArg _ (ih _)

theorem eq_space_of_marked {x : UInt8 × Bool} (hx : x ∈ marked q l) (h : x.2 = true) :
    x.1 = space := by
  induction l generalizing q with
  | nil => cases hx
  | cons c l ih =>
    rcases List.mem_cons.mp hx with rfl | hx
    · simpa using (Bool.and_eq_true_iff.mp h).2
    · exact ih hx

/-- The separators of the line are the spaces that are left after the second pass. -/
theorem mark_beq_space {x : UInt8 × Bool} (hx : x ∈ marked q l) : (mark x == space) = x.2 := by
  unfold mark
  cases hs : x.2 with
  | true =>
    have := eq_space_of_marked hx hs
    simp [this]
  | false =>
    by_cases hsp : x.1 = space
    · simp [hsp]
      decide
    · simp [hsp]

theorem blank_ne_altSpace {c : UInt8} (h : c ≠ altSpace) : blank c ≠ altSpace := by
  unfold blank
  split_ifs
  · decide
  · exact h

theorem putBack_mark (x : UInt8 × Bool) : putBack (mark x) = putBack x.1 := by
  unfold mark
  split_ifs with h
  · rw [h.1]
    decide
  · rfl

/-- The second pass, from a position at which the quote `q` is open. -/
theorem markLoop_eq (hq : ∀ b ∈ q, isQuote b = true) (l : List UInt8) :
    markLoop l q.isSome (q.getD 0) = ((marked q l).map mark, (l.foldl quoteStep q).isSome) := by
  induction l generalizing q with
  | nil => rfl
  | cons c l ih =>
    have hstep := ih (quoteStep_isQuote hq c)
    by_cases hc : isQuote c = true
    · have hor : c = apostrophe ∨ c = quotation := by simpa [isQuote] using hc
      have hns : c ≠ space := by
        rintro rfl
        exact absurd hc (by decide)
      have hmark : mark (c, q.isNone && c == space) = c := by simp [mark, hns]
      have hstate : (if (!q.isSome) = true then (true, c)
          else if c = q.getD 0 then (false, 0) else (q.isSome, q.getD 0)) =
          ((quoteStep q c).isSome, (quoteStep q c).getD 0) := by
        cases q with
        | none => simp [quoteStep, hc]
        | some b =>
          by_cases hb : c = b
          · simp [quoteStep, hb]
          · simp [quoteStep, hb]
      simp only [markLoop, if_pos hor, hstate, hstep, marked, List.map_cons, hmark, List.foldl_cons]
    · have hnor : ¬ (c = apostrophe ∨ c = quotation) := by simpa [isQuote] using hc
      rw [quoteStep_of_not_quote hq (Bool.not_eq_true _ ▸ hc)] at hstep
      have hmark : mark (c, q.isNone && c == space) = if c = space ∧ q.isSome then altSpace else c := by
        cases q with
        | none => by_cases hs : c = space <;> simp [mark, hs]
        | some b => simp [mark]
      simp only [markLoop, if_neg hnor, hstep, marked, List.map_cons, hmark, List.foldl_cons,
        quoteStep_of_not_quote hq (Bool.not_eq_true _ ▸ hc)]

/-- Words with a space behind each of them. -/
def joined (ws : List (List UInt8)) : List UInt8 := ws.flatMap (· ++ [space])

theorem joined_cons (w : List UInt8) (ws : List (List UInt8)) :
    joined (w :: ws) = w ++ space :: joined ws := by
  simp [joined]

theorem collapseLoop_nil (n : ℕ) : collapseLoop n [] = [] := by
  cases n <;> rfl

/-- The third pass leaves one space behind each word, and one in front when there was one. -/
theorem collapseLoop_eq {s : List UInt8} (hlast : s.getLast? = some space) {n : ℕ}
    (hn : s.length ≤ n) :
    collapseLoop n s =
      (if s.head? = some space then [space] else []) ++ joined (words (· == space) s) := by
  induction n generalizing s with
  | zero =>
    obtain rfl : s = [] := List.length_eq_zero_iff.mp (Nat.le_zero.mp hn)
    cases hlast
  | succ n ih =>
    obtain ⟨hpre, hall | ⟨b, r, hb, heq⟩⟩ := eq_takeWhile_append (· == space) s
    · -- the last character is a space
      have hmem := hpre space (hall ▸ List.mem_of_getLast? hlast)
      exact absurd hmem (by decide)
    obtain rfl : b = space := eq_of_beq hb
    have hdrop : s.dropWhile (· != space) = space :: r := by
      have hsplit : s.takeWhile (· != space) ++ s.dropWhile (· != space) = s :=
        List.takeWhile_append_dropWhile
      exact List.append_cancel_left (hsplit.trans heq)
    have hrest : collapseLoop n (r.dropWhile (· == space)) = joined (words (· == space) r) := by
      rw [← words_dropWhile (· == space) r]
      cases hr : r.dropWhile (· == space) with
      | nil => exact collapseLoop_nil n
      | cons c r' =>
        have hsuf : c :: r' <:+ s := by
          rw [← hr, heq]
          exact (List.dropWhile_suffix _).trans
            ((List.suffix_cons space r).trans (List.suffix_append _ _))
        have hlast' : (c :: r').getLast? = some space := by
          obtain ⟨t, ht⟩ := hsuf
          rw [← ht, List.getLast?_append] at hlast
          simpa using hlast
        have hc : c ≠ space := by
          have hhead := List.head_dropWhile_not (p := (· == space)) (l := r) (by simp [hr])
          simpa [hr] using hhead
        have hlen : (c :: r').length ≤ n := by
          have hle : (c :: r').length ≤ r.length := hr ▸ List.length_dropWhile_le _ r
          have hs := congrArg List.length heq
          rw [List.length_append, List.length_cons] at hs
          omega
        rw [ih hlast' hlen]
        simp [hc]
    have hwords : words (· == space) s =
        words (· == space) (s.takeWhile (· != space)) ++ words (· == space) r := by
      conv_lhs => rw [heq]
      exact @words_append_sep _ (· == space) space hb _ _
    simp only [collapseLoop, hdrop, hrest, hwords]
    cases ht : s.takeWhile (· != space) with
    | nil =>
      have hhead : s.head? = some space := by
        rw [heq]
        change (s.takeWhile (· != space) ++ space :: r).head? = some space
        rw [ht]
        rfl
      simp [hhead]
    | cons c t =>
      have hpre' : ∀ b ∈ c :: t, (b == space) = false := by
        rw [← ht]
        exact hpre
      have hhead : s.head? = some c := by
        rw [heq]
        change (s.takeWhile (· != space) ++ space :: r).head? = some c
        rw [ht]
        rfl
      have hc : c ≠ space := by simpa using hpre' c (by simp)
      rw [words_of_forall hpre' (by simp), List.singleton_append, joined_cons]
      simp [hhead, hc]

theorem splitLoop_joined {ws : List (List UInt8)} (hws : ∀ w ∈ ws, ∀ b ∈ w, (b == space) = false)
    (slots : ℕ) : splitLoop slots (joined ws) = if ws.length ≤ slots then some ws else none := by
  induction ws generalizing slots with
  | nil => cases slots <;> rfl
  | cons w ws ih =>
    rw [List.forall_mem_cons] at hws
    have hne : ∀ b ∈ w, (b != space) = true := by simpa using hws.1
    have hdrop : (joined (w :: ws)).dropWhile (· != space) = space :: joined ws := by
      rw [joined_cons, List.dropWhile_append_of_pos hne]
      rfl
    have htake : (joined (w :: ws)).takeWhile (· != space) = w := by
      rw [joined_cons, List.takeWhile_append_of_pos hne]
      simp
    cases slots with
    | zero => simp [splitLoop, hdrop]
    | succ slots =>
      rw [splitLoop, hdrop]
      simp only [htake, ih hws.2, List.length_cons, Nat.add_le_add_iff_right]
      split_ifs <;> rfl

theorem getLast?_joined {ws : List (List UInt8)} (hne : ws ≠ []) :
    (joined ws).getLast? = some space := by
  obtain ⟨ws, w, rfl⟩ := List.eq_nil_or_concat ws |>.resolve_left hne
  simp [joined]

theorem trim_eq {s : List UInt8} (hlast : s.getLast? = some space)
    (hne : words (· == space) s ≠ []) : trim (collapse s) = joined (words (· == space) s) := by
  unfold collapse
  rw [collapseLoop_eq hlast le_rfl]
  obtain ⟨w, ws, hws⟩ := List.exists_cons_of_ne_nil hne
  have hjoin := getLast?_joined hne
  unfold trim
  by_cases hhead : s.head? = some space
  · simp [hhead, hjoin]
  · obtain ⟨hw, hsep⟩ := of_mem_words (show w ∈ words (· == space) s by simp [hws])
    obtain ⟨c, t, rfl⟩ := List.exists_cons_of_ne_nil hw
    have hc : c ≠ space := by simpa using hsep c (by simp)
    have hfirst : (joined (words (· == space) s)).head? = some c := by
      rw [hws, joined_cons]
      rfl
    simp [hhead, hfirst, hjoin, hc]

theorem collapse_eq_space_iff {s : List UInt8} (hlast : s.getLast? = some space) :
    collapse s = [space] ↔ words (· == space) s = [] := by
  unfold collapse
  rw [collapseLoop_eq hlast le_rfl]
  constructor
  · intro h
    by_contra hne
    obtain ⟨w, ws, hws⟩ := List.exists_cons_of_ne_nil hne
    obtain ⟨hw, -⟩ := of_mem_words (show w ∈ words (· == space) s by simp [hws])
    have hlen := congrArg List.length h
    have hpos := List.length_pos_iff.mpr hw
    rw [hws, joined_cons] at hlen
    simp only [List.length_append, List.length_cons, List.length_nil] at hlen
    omega
  · intro h
    have hhead : s.head? = some space := by
      cases s with
      | nil => cases hlast
      | cons c s =>
        have hc := words_eq_nil_iff.mp h c (by simp)
        simpa using hc
    rw [h, if_pos hhead]
    rfl

theorem closed_append_space (m : List UInt8) : Closed (m ++ [space]) ↔ Closed m := by
  have hquote := foldl_isQuote (q := none) (by simp) m
  unfold Closed
  rw [List.foldl_append]
  change quoteStep _ space = none ↔ _
  rw [quoteStep_of_not_quote hquote (by decide)]

theorem Closed.marked_append_space {m : List UInt8} (h : Closed m) :
    marked none (m ++ [space]) = marked none m ++ [(space, true)] := by
  rw [marked_append, show m.foldl quoteStep none = none from h]
  rfl

theorem Closed.tokens_append_space {m : List UInt8} (h : Closed m) :
    tokens (m ++ [space]) = tokens m := by
  unfold tokens
  rw [h.marked_append_space, words_append_singleton rfl]

theorem marked_of_spaces {m : List UInt8} (h : Blank m) :
    Closed m ∧ ∀ x ∈ marked none m, x.2 = true := by
  induction m with
  | nil => exact ⟨rfl, by simp [marked]⟩
  | cons c m ih =>
    obtain ⟨rfl, hm⟩ := List.forall_mem_cons.mp h
    obtain ⟨hclosed, hmarked⟩ := ih hm
    exact ⟨hclosed, List.forall_mem_cons.mpr ⟨rfl, hmarked⟩⟩

theorem tokens_eq_nil_iff {m : List UInt8} : tokens m = [] ↔ Blank m := by
  unfold tokens
  rw [List.map_eq_nil_iff, words_eq_nil_iff]
  constructor
  · intro h c hc
    rw [← map_fst_marked none m] at hc
    obtain ⟨x, hx, rfl⟩ := List.mem_map.mp hc
    exact eq_space_of_marked hx (h x hx)
  · exact fun h => (marked_of_spaces h).2

theorem mem_of_mem_tokens {m t : List UInt8} (ht : t ∈ tokens m) {c : UInt8} (hc : c ∈ t) :
    c ∈ m := by
  obtain ⟨w, hw, rfl⟩ := List.mem_map.mp ht
  obtain ⟨x, hx, rfl⟩ := List.mem_map.mp hc
  rw [← map_fst_marked none m]
  exact List.mem_map_of_mem (mem_of_mem_words hw hx)

theorem passes_eq {m : List UInt8} (h : Closed m) :
    let s := (marked none (m ++ [space])).map mark
    (collapse s = [space] ↔ Blank m) ∧
      (¬ Blank m →
        (splitLoop maxArgs (trim (collapse s))).map (List.map fun p => removeQuotes (p.map putBack)) =
          if (tokens m).length ≤ maxArgs then
            some ((tokens m).map fun t => removeQuotes (t.map putBack))
          else none) := by
  intro s
  have hlast : s.getLast? = some space := by
    simp only [s, h.marked_append_space, List.map_append, List.map_singleton, List.getLast?_append]
    rfl
  have hwords : words (· == space) s =
      (words Prod.snd (marked none (m ++ [space]))).map (List.map mark) :=
    words_map fun x hx => mark_beq_space hx
  have htokens : tokens m = (words Prod.snd (marked none (m ++ [space]))).map (List.map Prod.fst) :=
    h.tokens_append_space.symm
  have hnil : words (· == space) s = [] ↔ Blank m := by
    rw [hwords, List.map_eq_nil_iff, ← tokens_eq_nil_iff, htokens, List.map_eq_nil_iff]
  refine ⟨(collapse_eq_space_iff hlast).trans hnil, fun hne => ?_⟩
  rw [trim_eq hlast (mt hnil.mp hne), splitLoop_joined fun w hw => (of_mem_words hw).2]
  have hlen : (words (· == space) s).length = (tokens m).length := by
    rw [hwords, htokens, List.length_map, List.length_map]
  have hargs : (words (· == space) s).map (fun p => removeQuotes (p.map putBack)) =
      (tokens m).map fun t => removeQuotes (t.map putBack) := by
    rw [hwords, htokens, List.map_map, List.map_map]
    refine List.map_congr_left fun w _ => ?_
    simp only [Function.comp_apply, List.map_map]
    congr 2
    funext x
    exact putBack_mark x
  rw [hlen]
  split_ifs
  · exact congrArg some hargs
  · rfl

theorem terminate_eq (line : List UInt8) :
    ∃ r, terminate line = r ++ [lineFeed] ∧ (line = r ∨ line = r ++ [lineFeed]) := by
  unfold terminate
  by_cases hlast : line.getLast? = some lineFeed
  · obtain ⟨r, hr⟩ := List.getLast?_eq_some_iff.mp hlast
    exact ⟨r, by rw [if_neg (not_not.mpr hlast), hr], .inr hr⟩
  · exact ⟨line, if_pos hlast, .inl rfl⟩

theorem parse_eq (line : List UInt8) (rc : ℤ) :
    parse line rc =
      if Blank (line.map blank) then .returned (Int8.ofInt rc)
      else if ¬ Closed (line.map blank) then .returned (-126)
      else if maxArgs < (tokens (line.map blank)).length then .returned (-124)
      else .dispatched ((tokens (line.map blank)).map fun t => removeQuotes (t.map putBack)) := by
  by_cases hempty : line = []
  · rw [hempty, parse, if_pos List.length_nil, if_pos (by simp [Blank])]
  obtain ⟨r, hterm, hline⟩ := terminate_eq line
  generalize hm : r.map blank = m
  have hblank : (terminate line).map blank = m ++ [space] := by
    rw [hterm, List.map_append, hm]
    rfl
  have hcase : line.map blank = m ∨ line.map blank = m ++ [space] := by
    rcases hline with rfl | rfl
    · exact .inl hm
    · right
      rw [List.map_append, hm]
      rfl
  have hclosed : Closed (line.map blank) ↔ Closed m := by
    rcases hcase with h | h
    · rw [h]
    · rw [h, closed_append_space]
  have hspaces : Blank (line.map blank) ↔ Blank m := by
    rcases hcase with h | h
    · rw [h]
    · simp [h, Blank, or_imp]
  have hloop : markLoop (m ++ [space]) false 0 = ((marked none (m ++ [space])).map mark,
      ((m ++ [space]).foldl quoteStep none).isSome) :=
    markLoop_eq (q := none) (by simp) (m ++ [space])
  unfold parse
  rw [if_neg (by simpa using hempty), hblank, hloop]
  simp only [hspaces, hclosed]
  by_cases hc : Closed m
  · have hopen : ((m ++ [space]).foldl quoteStep none).isSome = false := by
      rw [(closed_append_space m).mpr hc]
      rfl
    have htokens : tokens (line.map blank) = tokens m := by
      rcases hcase with h | h
      · rw [h]
      · rw [h, hc.tokens_append_space]
    obtain ⟨hone, hsplit⟩ := passes_eq hc
    simp only [hopen, Bool.false_eq_true, if_false, hone, hc, not_true_eq_false, htokens]
    by_cases hsp : Blank m
    · rw [if_pos hsp, if_pos hsp]
    · rw [if_neg hsp, if_neg hsp]
      specialize hsplit hsp
      by_cases hlen : (tokens m).length ≤ maxArgs
      · rw [if_pos hlen] at hsplit
        obtain ⟨argv, hargv, hmap⟩ := Option.map_eq_some_iff.mp hsplit
        rw [hargv, if_neg (Nat.not_lt.mpr hlen)]
        exact congrArg _ hmap
      · rw [if_neg hlen] at hsplit
        rw [Option.map_eq_none_iff.mp hsplit, if_pos (Nat.lt_of_not_le hlen)]
  · have hopen : ((m ++ [space]).foldl quoteStep none).isSome = true := by
      rw [Option.isSome_iff_ne_none]
      exact mt (closed_append_space m).mp hc
    have hsp : ¬ Blank m := fun h => hc (marked_of_spaces h).1
    simp only [hopen, if_true, if_neg hsp, hc, not_false_eq_true]

theorem blank_eq_spaced (c : UInt8) : blank c = spaced c := by
  have hiff : (c = carriageReturn ∨ c = lineFeed ∨ c = tab) ↔ c ∈ [tab, lineFeed, carriageReturn] := by
    simp only [List.mem_cons, List.not_mem_nil, or_false]
    tauto
  simp only [blank, spaced, hiff]

theorem removeQuotes_eq_unquoted (t : List UInt8) : removeQuotes t = unquoted t := by
  cases t with
  | nil => rfl
  | cons q t =>
    have hquote : ((q :: t).head? = some apostrophe ∨ (q :: t).head? = some quotation) ↔ isQuote q = true := by
      simp [isQuote]
    have hlast : (q :: t).head? = (q :: t).getLast? ↔ (q :: t).getLast? = some q := eq_comm
    simp only [removeQuotes, unquoted, hquote, hlast, List.tail_cons]

theorem executeCommandInCommands_eq_dispatch {argv : List (List UInt8)} (hne : argv ≠ [])
    (cmds : List Command) : executeCommandInCommands cmds argv.length argv = dispatch argv cmds := by
  obtain ⟨name, args, rfl⟩ := List.exists_cons_of_ne_nil hne
  induction cmds with
  | nil => rfl
  | cons c cmds ih =>
    by_cases hname : name = c.cmd
    · simp [executeCommandInCommands, dispatch, hname]
    · have hbeq : (c.cmd == name) = false := by simpa using fun h => hname h.symm
      simp only [executeCommandInCommands, dispatch, List.head?_cons, Option.some.injEq, if_neg hname,
        ← ih, List.headD_cons, List.find?_cons, hbeq]

/-- A line without `SHELL_ALT_SPACE` is executed as the tokenizer says. -/
theorem executeCommand_eq (shellCommands : List Command) {line : List UInt8}
    (h : altSpace ∉ line) (rc : ℤ) :
    executeCommand shellCommands line rc = execute shellCommands line rc := by
  have hback : ∀ t ∈ tokens (line.map blank), t.map putBack = t := by
    intro t ht
    refine (List.map_congr_left fun c hc => ?_).trans (List.map_id t)
    obtain ⟨b, hb, rfl⟩ := List.mem_map.mp (mem_of_mem_tokens ht hc)
    exact if_neg (blank_ne_altSpace fun heq => h (heq ▸ hb))
  have hargs : ((tokens (line.map blank)).map fun t => removeQuotes (t.map putBack)) =
      (tokens (line.map blank)).map unquoted :=
    List.map_congr_left fun t ht => (congrArg removeQuotes (hback t ht)).trans (removeQuotes_eq_unquoted t)
  have hspaced : line.map blank = line.map spaced := List.map_congr_left fun c _ => blank_eq_spaced c
  unfold executeCommand execute
  rw [parse_eq, hargs, hspaced, show maxArgs = 10 from rfl]
  by_cases hspaces : Blank (line.map spaced)
  · simp only [if_pos hspaces]
  · simp only [if_neg hspaces]
    by_cases hclosed : Closed (line.map spaced)
    · have hne : (tokens (line.map spaced)).map unquoted ≠ [] := by
        rw [Ne, List.map_eq_nil_iff, tokens_eq_nil_iff]
        exact hspaces
      simp only [hclosed, not_true_eq_false, if_false]
      by_cases hlen : 10 < (tokens (line.map spaced)).length
      · simp only [if_pos hlen]
      · simp only [if_neg hlen]
        exact executeCommandInCommands_eq_dispatch hne shellCommands
    · simp only [hclosed, not_false_eq_true, if_true]

def ledCommand : Command := ⟨"led".toUTF8.toList, fun argc _ => argc⟩

theorem executeCommand_led :
    executeCommand [ledCommand] " led 'a  b'\t-x".toUTF8.toList 7 =
      execute [ledCommand] " led 'a  b'\t-x".toUTF8.toList 7 :=
  executeCommand_eq [ledCommand] (by decide +kernel) 7

end EmbeddedTemplate.Shell
