import Mathlib.Data.List.Basic
import Mathlib.Data.List.TakeWhile

/-! The words of a list: its maximal parts without separators. -/
namespace Words

variable {α β : Type*}

def words (sep : α → Bool) (l : List α) : List (List α) := (l.splitOnP sep).filter (!·.isEmpty)

variable {sep : α → Bool}

@[simp] theorem words_nil : words sep [] = [] := rfl

theorem words_append_sep {s : α} (hs : sep s = true) (l r : List α) :
    words sep (l ++ s :: r) = words sep l ++ words sep r := by
  unfold words
  rw [List.splitOnP_append_cons l r hs, List.filter_append]

theorem words_cons_sep {s : α} (hs : sep s = true) (l : List α) :
    words sep (s :: l) = words sep l :=
  words_append_sep hs [] l

theorem words_append_singleton {s : α} (hs : sep s = true) (l : List α) :
    words sep (l ++ [s]) = words sep l := by
  rw [words_append_sep hs l [], words_nil, List.append_nil]

theorem words_of_forall {l : List α} (hl : ∀ b ∈ l, sep b = false) (hne : l ≠ []) :
    words sep l = [l] := by
  unfold words
  rw [List.splitOnP_eq_singleton hl]
  simp [hne]

/-- A list is a part without separators, and nothing or a separator and the rest. -/
theorem eq_takeWhile_append (sep : α → Bool) (l : List α) :
    (∀ b ∈ l.takeWhile (!sep ·), sep b = false) ∧
      (l = l.takeWhile (!sep ·) ∨ ∃ s r, sep s = true ∧ l = l.takeWhile (!sep ·) ++ s :: r) := by
  constructor
  · intro b hb
    simpa using List.mem_takeWhile_imp hb
  · have hsplit := List.takeWhile_append_dropWhile (p := (!sep ·)) (l := l)
    cases hdrop : l.dropWhile (!sep ·) with
    | nil =>
      left
      rw [hdrop, List.append_nil] at hsplit
      exact hsplit.symm
    | cons s r =>
      right
      have hs : (!sep s) = false := by
        have hhead := List.head_dropWhile_not (p := (!sep ·)) (l := l) (by simp [hdrop])
        simpa [hdrop] using hhead
      refine ⟨s, r, by simpa using hs, ?_⟩
      rw [← hdrop]
      exact hsplit.symm

/-- A part without separators opens the first word. -/
theorem words_append_of_forall {l : List α} (hl : ∀ b ∈ l, sep b = false) (hne : l ≠ [])
    (r : List α) : ∃ y rest, words sep (l ++ r) = (l ++ y) :: rest := by
  obtain ⟨hpre, heq | ⟨s, r', hs, heq⟩⟩ := eq_takeWhile_append sep r
  · refine ⟨r, [], words_of_forall ?_ (by simp [hne])⟩
    intro b hb
    rcases List.mem_append.mp hb with hb | hb
    · exact hl b hb
    · exact hpre b (heq ▸ hb)
  · refine ⟨r.takeWhile (!sep ·), words sep r', ?_⟩
    conv_lhs => rw [heq, ← List.append_assoc, words_append_sep hs]
    rw [words_of_forall _ (by simp [hne])]
    · rfl
    · intro b hb
      rcases List.mem_append.mp hb with hb | hb
      · exact hl b hb
      · exact hpre b hb

/-- The word that a part without separators lies in is the last one up to the end of the part. -/
theorem words_getElem {l : List α} (hl : ∀ b ∈ l, sep b = false) (hne : l ≠ []) (p r : List α) :
    ∃ x y, (words sep (p ++ (l ++ r)))[(words sep (p ++ l)).length - 1]? = some (x ++ (l ++ y)) := by
  obtain ⟨hpre, hcase⟩ := eq_takeWhile_append sep p.reverse
  have hpre' : ∀ b ∈ (p.reverse.takeWhile (!sep ·)).reverse ++ l, sep b = false := by
    intro b hb
    rcases List.mem_append.mp hb with hb | hb
    · exact hpre b (List.mem_reverse.mp hb)
    · exact hl b hb
  have hne' : (p.reverse.takeWhile (!sep ·)).reverse ++ l ≠ [] := by simp [hne]
  generalize p.reverse.takeWhile (!sep ·) = t at hcase hpre' hne'
  obtain ⟨y, rest, hfirst⟩ := words_append_of_forall hpre' hne' r
  rw [List.append_assoc] at hfirst
  refine ⟨t.reverse, y, ?_⟩
  obtain heq | ⟨s, p', hs, heq⟩ := hcase
  · obtain rfl : p = t.reverse := by rw [← heq, List.reverse_reverse]
    rw [hfirst, words_of_forall hpre' hne', List.append_assoc]
    rfl
  · -- the separator in front of the word ends the words of `p'`
    obtain rfl : p = p'.reverse ++ s :: t.reverse := by
      rw [← List.reverse_reverse p, heq]
      simp
    simp only [List.append_assoc, List.cons_append]
    rw [words_append_sep hs, words_append_sep hs, hfirst, words_of_forall hpre' hne']
    simp

theorem words_dropWhile (sep : α → Bool) (l : List α) : words sep (l.dropWhile sep) = words sep l := by
  induction l with
  | nil => rfl
  | cons a l ih =>
    by_cases ha : sep a = true
    · rw [List.dropWhile_cons_of_pos ha, ih, words_cons_sep ha]
    · rw [List.dropWhile_cons_of_neg ha]

theorem words_map {sep' : β → Bool} {f : α → β} {l : List α} (h : ∀ a ∈ l, sep' (f a) = sep a) :
    words sep' (l.map f) = (words sep l).map (List.map f) := by
  have hsplit : (l.map f).splitOnP sep' = (l.splitOnP sep).map (List.map f) := by
    induction l with
    | nil => rfl
    | cons a l ih =>
      rw [List.forall_mem_cons] at h
      rw [List.map_cons, List.splitOnP_cons_eq_if_modifyHead, List.splitOnP_cons_eq_if_modifyHead, h.1,
        ih h.2]
      by_cases ha : sep a = true
      · simp [ha]
      · simp only [ha, Bool.false_eq_true, if_false]
        cases l.splitOnP sep <;> rfl
  unfold words
  rw [hsplit, List.filter_map]
  congr 2
  funext w
  simp

theorem words_eq_nil_iff {l : List α} : words sep l = [] ↔ ∀ b ∈ l, sep b = true := by
  induction l with
  | nil => simp
  | cons a l ih =>
    by_cases ha : sep a = true
    · rw [words_cons_sep ha, ih]
      simp [ha]
    · obtain ⟨y, rest, hw⟩ := words_append_of_forall
        (show ∀ b ∈ [a], sep b = false by simpa using ha) (by simp) l
      rw [List.singleton_append] at hw
      simp [hw, ha]

theorem of_mem_words {l w : List α} (h : w ∈ words sep l) : w ≠ [] ∧ ∀ b ∈ w, sep b = false := by
  have hparts : ∀ w ∈ l.splitOnP sep, ∀ b ∈ w, sep b = false := by
    clear h
    induction l with
    | nil => simp
    | cons a l ih =>
      rw [List.splitOnP_cons_eq_if_modifyHead]
      by_cases ha : sep a = true
      · simpa [ha] using ih
      · obtain ⟨first, rest, hsplit⟩ := List.exists_cons_of_ne_nil (List.splitOnP_ne_nil sep l)
        rw [hsplit] at ih
        simp only [List.forall_mem_cons] at ih
        simpa [ha, hsplit] using ih
  obtain ⟨hmem, hne⟩ := List.mem_filter.mp h
  exact ⟨by simpa using hne, hparts w hmem⟩

theorem mem_of_mem_words {l w : List α} (h : w ∈ words sep l) {b : α} (hb : b ∈ w) : b ∈ l := by
  have hparts : ∀ w ∈ l.splitOnP sep, ∀ b ∈ w, b ∈ l := by
    clear h hb
    induction l with
    | nil => simp
    | cons a l ih =>
      have hcons : ∀ w ∈ l.splitOnP sep, ∀ b ∈ w, b ∈ a :: l :=
        fun w hw b hb => List.mem_cons_of_mem a (ih w hw b hb)
      rw [List.splitOnP_cons_eq_if_modifyHead]
      by_cases ha : sep a = true
      · simpa [ha] using hcons
      · obtain ⟨first, rest, hsplit⟩ := List.exists_cons_of_ne_nil (List.splitOnP_ne_nil sep l)
        rw [hsplit] at hcons
        simp only [List.forall_mem_cons] at hcons
        simpa [ha, hsplit] using hcons
  exact hparts w (List.mem_filter.mp h).1 b hb

end Words
