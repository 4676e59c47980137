import Mathlib.Data.List.Basic

/-! Topic filters, from `MQTTClient.c`: the function that walks over the characters of a filter and of a name, and
what a filter means for the levels of a name. -/
namespace EmbeddedTemplate.Mqtt

/-- `'/'`. -/
def separator : UInt8 := 47

/-- `'+'`. -/
def singleLevel : UInt8 := 43

/-- `'#'`. -/
def multiLevel : UInt8 := 35

/-- `isTopicMatched`, from `curf` and `curn` on. Where it breaks out of its loop, characters are left. -/
def isTopicMatched : List UInt8 → List UInt8 → Bool
  | [], ns => ns.isEmpty
  | _ :: _, [] => false
  | f :: fs, n :: ns =>
    if n = separator ∧ f ≠ separator then false
    else if f ≠ singleLevel ∧ f ≠ multiLevel ∧ f ≠ n then false
    else if f = singleLevel then isTopicMatched fs (ns.dropWhile (· ≠ separator))
    else if f = multiLevel then isTopicMatched fs []
    else isTopicMatched fs ns

def levels (text : List UInt8) : List (List UInt8) := text.splitOn separator

/-- A level is a wildcard or has none in it, and only the last one takes all the others. -/
structure WellFormed (filter : List (List UInt8)) : Prop where
  single : ∀ l ∈ filter, singleLevel ∈ l → l = [singleLevel]
  multi : ∀ l ∈ filter, multiLevel ∈ l → l = [multiLevel]
  last : ∀ l ∈ filter.dropLast, l ≠ [multiLevel]

/-- What a filter means: a single-level wildcard stands for any level, and a multi-level one for any number of
them, the empty number included. -/
def Matches : List (List UInt8) → List (List UInt8) → Prop
  | [], ls => ls = []
  | f :: fs, ls => f = [multiLevel] ∨ match ls with
    | [] => False
    | l :: ls => (f = [singleLevel] ∨ f = l) ∧ Matches fs ls

/-- Some wildcard of the filter stands where the name has an empty level, or none. -/
def FacesEmpty : List (List UInt8) → List (List UInt8) → Prop
  | [], _ => False
  | f :: fs, ls => (f = [singleLevel] ∨ f = [multiLevel]) ∧ ls.headD [] = [] ∨ FacesEmpty fs ls.tail

variable {f n l : List UInt8} {fs ls : List (List UInt8)}

theorem isTopicMatched_append (hsep : separator ∉ l) (hsingle : singleLevel ∉ l) (hmulti : multiLevel ∉ l)
    (f n : List UInt8) :
    isTopicMatched (l ++ f) n = true ↔ ∃ rest, n = l ++ rest ∧ isTopicMatched f rest = true := by
  induction l generalizing n with
  | nil => simp
  | cons c l ih =>
    rw [List.mem_cons, not_or] at hsep hsingle hmulti
    have hs : ¬ c = singleLevel := fun h => hsingle.1 h.symm
    have hm : ¬ c = multiLevel := fun h => hmulti.1 h.symm
    have hc : ¬ c = separator := fun h => hsep.1 h.symm
    cases n with
    | nil => simp [isTopicMatched]
    | cons d n =>
      rw [List.cons_append, isTopicMatched]
      by_cases hcd : c = d
      · subst hcd
        simp [hs, hm, hc, ih hsep.2 hsingle.2 hmulti.2]
      · have hdc : ¬ d = c := fun h => hcd h.symm
        simp [hs, hm, hcd, hdc]

theorem isTopicMatched_separator (f n : List UInt8) :
    isTopicMatched (separator :: f) n = true ↔
      ∃ rest, n = separator :: rest ∧ isTopicMatched f rest = true := by
  cases n with
  | nil => simp [isTopicMatched]
  | cons d n =>
    have hs : ¬ separator = singleLevel := by decide
    have hm : ¬ separator = multiLevel := by decide
    by_cases hd : separator = d
    · subst hd
      simp [isTopicMatched, hs, hm]
    · have hds : ¬ d = separator := fun h => hd h.symm
      simp [isTopicMatched, hs, hm, hd, hds]

/-- The single-level wildcard takes a level, unless it is empty. -/
theorem isTopicMatched_single (hl : separator ∉ l) (hn : n = [] ∨ n.head? = some separator) (f : List UInt8) :
    isTopicMatched (singleLevel :: f) (l ++ n) = true ↔ l ≠ [] ∧ isTopicMatched f n = true := by
  have hs : ¬ singleLevel = separator := by decide
  cases l with
  | nil =>
    rcases hn with rfl | hn
    · simp [isTopicMatched]
    · obtain ⟨rest, rfl⟩ := List.head?_eq_some_iff.mp hn
      simp [isTopicMatched, hs]
  | cons c l =>
    rw [List.mem_cons, not_or] at hl
    have hc : ¬ c = separator := fun h => hl.1 h.symm
    have hdrop : (l ++ n).dropWhile (· ≠ separator) = n := by
      have hlevel : ∀ x ∈ l, decide (x ≠ separator) = true := by
        intro x hx
        exact decide_eq_true fun h => hl.2 (h ▸ hx)
      rw [List.dropWhile_append_of_pos hlevel]
      rcases hn with rfl | hn
      · rfl
      · obtain ⟨rest, rfl⟩ := List.head?_eq_some_iff.mp hn
        simp
    rw [List.cons_append, isTopicMatched, hdrop]
    simp [hc]

def joined : List (List UInt8) → List UInt8
  | [] => []
  | l :: ls => separator :: (l ++ joined ls)

theorem joined_cases (ls : List (List UInt8)) : joined ls = [] ∨ (joined ls).head? = some separator := by
  cases ls with
  | nil => exact .inl rfl
  | cons => exact .inr rfl

theorem isTopicMatched_joined_cases (h : isTopicMatched (joined fs) n = true) :
    n = [] ∨ n.head? = some separator := by
  cases fs with
  | nil => exact .inl (by simpa [joined, isTopicMatched] using h)
  | cons f fs =>
    obtain ⟨rest, rfl, -⟩ := (isTopicMatched_separator _ n).mp h
    exact .inr rfl

/-- The multi-level wildcard takes everything, unless the first level is empty. -/
theorem isTopicMatched_multi (hl : separator ∉ l) (hn : n = [] ∨ n.head? = some separator) :
    isTopicMatched [multiLevel] (l ++ n) = true ↔ l ≠ [] := by
  have hs : ¬ multiLevel = separator := by decide
  have hm : ¬ multiLevel = singleLevel := by decide
  cases l with
  | nil =>
    rcases hn with rfl | hn
    · simp [isTopicMatched]
    · obtain ⟨rest, rfl⟩ := List.head?_eq_some_iff.mp hn
      simp [isTopicMatched, hs]
  | cons c l =>
    rw [List.mem_cons, not_or] at hl
    have hc : ¬ c = separator := fun h => hl.1 h.symm
    simp [isTopicMatched, hc, hm]

theorem level_inj {k n' : List UInt8} (hk : separator ∉ k) (hl : separator ∉ l)
    (hn : n = [] ∨ n.head? = some separator) (hn' : n' = [] ∨ n'.head? = some separator)
    (h : k ++ n = l ++ n') : k = l ∧ n = n' := by
  have htake : ∀ (j t : List UInt8), separator ∉ j → (t = [] ∨ t.head? = some separator) →
      (j ++ t).takeWhile (· ≠ separator) = j := by
    intro j t hj ht
    have hlevel : ∀ x ∈ j, decide (x ≠ separator) = true := by
      intro x hx
      exact decide_eq_true fun h => hj (h ▸ hx)
    rw [List.takeWhile_append_of_pos hlevel]
    rcases ht with rfl | ht
    · simp
    · obtain ⟨rest, rfl⟩ := List.head?_eq_some_iff.mp ht
      simp
  have hkl : k = l := by
    rw [← htake k n hk hn, h, htake l n' hl hn']
  subst hkl
  exact ⟨rfl, List.append_cancel_left h⟩

theorem WellFormed.tail (h : WellFormed (f :: fs)) : WellFormed fs where
  single l hl := h.single l (List.mem_cons_of_mem f hl)
  multi l hl := h.multi l (List.mem_cons_of_mem f hl)
  last l hl := by
    cases fs with
    | nil => cases hl
    | cons g gs => exact h.last l (List.mem_cons_of_mem f hl)

theorem WellFormed.eq_nil (h : WellFormed ([multiLevel] :: fs)) : fs = [] := by
  cases fs with
  | nil => rfl
  | cons g gs => exact absurd rfl (h.last _ List.mem_cons_self)

theorem isTopicMatched_level (hf : separator ∉ f) (hl : separator ∉ l) (hwf : WellFormed (f :: fs))
    (ih : isTopicMatched (joined fs) (joined ls) = true ↔ Matches fs ls ∧ ¬ FacesEmpty fs ls) :
    isTopicMatched (f ++ joined fs) (l ++ joined ls) = true ↔
      Matches (f :: fs) (l :: ls) ∧ ¬ FacesEmpty (f :: fs) (l :: ls) := by
  have hne : ¬ [singleLevel] = [multiLevel] := by decide
  by_cases hmulti : multiLevel ∈ f
  · have hfm : f = [multiLevel] := hwf.multi f List.mem_cons_self hmulti
    subst hfm
    have hfs : fs = [] := hwf.eq_nil
    subst hfs
    simp [isTopicMatched_multi hl (joined_cases ls), Matches, FacesEmpty, joined]
  · by_cases hsingle : singleLevel ∈ f
    · have hfs : f = [singleLevel] := hwf.single f List.mem_cons_self hsingle
      subst hfs
      rw [List.singleton_append, isTopicMatched_single hl (joined_cases ls), ih]
      simp only [Matches, FacesEmpty, hne, List.headD_cons, List.tail_cons, true_or, true_and, false_or,
        not_or]
      exact ⟨fun h => ⟨h.2.1, h.1, h.2.2⟩, fun h => ⟨h.2.1, h.1, h.2.2⟩⟩
    · have hs : ¬ f = [singleLevel] := by
        rintro rfl
        exact hsingle List.mem_cons_self
      have hm : ¬ f = [multiLevel] := by
        rintro rfl
        exact hmulti List.mem_cons_self
      rw [isTopicMatched_append hf hsingle hmulti]
      simp only [Matches, FacesEmpty, hs, hm, false_or, false_and, List.tail_cons]
      constructor
      · rintro ⟨rest, hrest, hmatch⟩
        obtain ⟨rfl, rfl⟩ := level_inj hl hf (joined_cases ls) (isTopicMatched_joined_cases hmatch) hrest
        exact ⟨⟨rfl, (ih.mp hmatch).1⟩, (ih.mp hmatch).2⟩
      · rintro ⟨⟨rfl, hmatch⟩, hfaces⟩
        exact ⟨joined ls, rfl, ih.mpr ⟨hmatch, hfaces⟩⟩

theorem isTopicMatched_joined (hfs : ∀ f ∈ fs, separator ∉ f) (hls : ∀ l ∈ ls, separator ∉ l)
    (hwf : WellFormed fs) :
    isTopicMatched (joined fs) (joined ls) = true ↔ Matches fs ls ∧ ¬ FacesEmpty fs ls := by
  induction fs generalizing ls with
  | nil =>
    cases ls with
    | nil => simp [joined, isTopicMatched, Matches, FacesEmpty]
    | cons l ls => simp [joined, isTopicMatched, Matches]
  | cons f fs ih =>
    cases ls with
    | nil =>
      simp only [joined, isTopicMatched, Bool.false_eq_true, Matches, or_false, FacesEmpty, List.headD_nil,
        and_true, not_or, false_iff, not_and]
      rintro rfl ⟨-, h⟩
      exact absurd rfl h
    | cons l ls =>
      rw [List.forall_mem_cons] at hfs hls
      have hlevel := isTopicMatched_level hfs.1 hls.1 hwf (ih hfs.2 hls.2 hwf.tail)
      rw [← hlevel, joined, joined, isTopicMatched_separator]
      simp

theorem levels_eq (text : List UInt8) : ∃ l ls, levels text = l :: ls ∧ text = l ++ joined ls ∧
    separator ∉ l ∧ ∀ k ∈ ls, separator ∉ k := by
  induction text with
  | nil => exact ⟨[], [], rfl, rfl, by simp, by simp⟩
  | cons c text ih =>
    obtain ⟨l, ls, hlevels, htext, hl, hls⟩ := ih
    unfold levels at hlevels ⊢
    rw [List.splitOn_cons_eq_if_modifyHead, hlevels]
    by_cases hc : c = separator
    · subst hc
      refine ⟨[], l :: ls, by simp, by rw [htext]; rfl, by simp, ?_⟩
      exact List.forall_mem_cons.mpr ⟨hl, hls⟩
    · have hne : ¬ separator = c := fun h => hc h.symm
      refine ⟨c :: l, ls, by simp [hc], by rw [htext]; rfl, ?_, hls⟩
      simp [hne, hl]

/-- The function agrees with the meaning of a well-formed filter, except where a wildcard faces an empty level or,
at the end, no level. -/
theorem isTopicMatched_iff {filter name : List UInt8} (h : WellFormed (levels filter)) :
    isTopicMatched filter name = true ↔
      Matches (levels filter) (levels name) ∧ ¬ FacesEmpty (levels filter) (levels name) := by
  obtain ⟨f, fs, hf, hfilter, hsep, hseps⟩ := levels_eq filter
  obtain ⟨l, ls, hl, hname, hnsep, hnseps⟩ := levels_eq name
  rw [hf] at h ⊢
  rw [hl, hfilter, hname]
  exact isTopicMatched_level hsep hnsep h (isTopicMatched_joined hseps hnseps h.tail)

/-- The filter `+/#` and the name `a/b`. -/
theorem isTopicMatched_iff_wildcards : WellFormed (levels [43, 47, 35]) ∧
    (isTopicMatched [43, 47, 35] [97, 47, 98] = true ↔
      Matches (levels [43, 47, 35]) (levels [97, 47, 98]) ∧
        ¬ FacesEmpty (levels [43, 47, 35]) (levels [97, 47, 98])) := by
  have h : WellFormed (levels [43, 47, 35]) := ⟨by decide, by decide, by decide⟩
  exact ⟨h, isTopicMatched_iff h⟩

end EmbeddedTemplate.Mqtt
