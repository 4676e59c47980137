import Mathlib.Data.List.Pairwise
import Mathlib.Algebra.BigOperators.Group.List.Basic
import Mathlib.Algebra.GroupWithZero.Nat
import Mathlib.Order.Interval.Finset.Nat

/-! Address regions and free lists kept in address order with every pair of
neighbours merged. -/

/-- The cells `addr, …, addr + size - 1`. -/
structure Region where
  addr : ℕ
  size : ℕ
deriving DecidableEq

namespace Region

def stop (r : Region) : ℕ := r.addr + r.size

def Disjoint (r s : Region) : Prop := r.stop ≤ s.addr ∨ s.stop ≤ r.addr

def Contains (r : Region) (x : ℕ) : Prop := r.addr ≤ x ∧ x < r.stop

instance (r s : Region) : Decidable (r.Disjoint s) := inferInstanceAs (Decidable (_ ∨ _))
instance (r : Region) (x : ℕ) : Decidable (r.Contains x) := inferInstanceAs (Decidable (_ ∧ _))

theorem Disjoint.symm {r s : Region} (h : r.Disjoint s) : s.Disjoint r := Or.symm h

theorem disjoint_of_cells {r s : Region} (hr : 0 < r.size) (hs : 0 < s.size)
    (h : ∀ x, r.Contains x → ¬ s.Contains x) : r.Disjoint s := by
  by_contra hd
  have hr' := h r.addr
  have hs' := h s.addr
  simp only [Disjoint, Contains, stop] at hd hr' hs'
  omega

theorem Disjoint.not_contains {r s : Region} (h : r.Disjoint s) {x : ℕ} (hx : r.Contains x) :
    ¬ s.Contains x := by
  simp only [Disjoint, Contains, stop] at *
  omega

def Covers (l : List Region) (x : ℕ) : Prop := ∃ r ∈ l, r.Contains x

instance (l : List Region) (x : ℕ) : Decidable (Covers l x) :=
  inferInstanceAs (Decidable (∃ _ ∈ l, _))

@[simp] theorem covers_nil (x : ℕ) : ¬ Covers [] x := by simp [Covers]

@[simp] theorem covers_cons (r : Region) (l : List Region) (x : ℕ) :
    Covers (r :: l) x ↔ r.Contains x ∨ Covers l x := by
  simp [Covers]

@[simp] theorem covers_append (k l : List Region) (x : ℕ) :
    Covers (k ++ l) x ↔ Covers k x ∨ Covers l x := by
  induction k with
  | nil => simp
  | cons r k ih => simp [ih, or_assoc]

def total (l : List Region) : ℕ := (l.map size).sum

@[simp] theorem total_nil : total [] = 0 := rfl

@[simp] theorem total_cons (r : Region) (l : List Region) : total (r :: l) = r.size + total l := by
  simp [total]

@[simp] theorem total_append (k l : List Region) : total (k ++ l) = total k + total l := by
  simp [total]

def cells : List Region → Finset ℕ
  | [] => ∅
  | r :: l => Finset.Ico r.addr r.stop ∪ cells l

theorem mem_cells (l : List Region) (x : ℕ) : x ∈ cells l ↔ Covers l x := by
  induction l with
  | nil => simp [cells]
  | cons r l ih => simp [cells, ih, Contains]

theorem card_cells_le (l : List Region) : (cells l).card ≤ total l := by
  induction l with
  | nil => simp [cells]
  | cons r l ih =>
    have hu := Finset.card_union_le (Finset.Ico r.addr r.stop) (cells l)
    have hr : (Finset.Ico r.addr r.stop).card = r.size := by simp [stop]
    rw [cells, total_cons]
    omega

theorem card_cells {l : List Region} (h : l.Pairwise Disjoint) : (cells l).card = total l := by
  induction l with
  | nil => simp [cells]
  | cons r l ih =>
    obtain ⟨hr, hl⟩ := List.pairwise_cons.mp h
    have hsep : ∀ x ∈ Finset.Ico r.addr r.stop, x ∉ cells l := by
      intro x hx hxl
      obtain ⟨s, hs, hxs⟩ := (mem_cells l x).mp hxl
      exact (hr s hs).not_contains (Finset.mem_Ico.mp hx) hxs
    have hd := Finset.disjoint_left.mpr fun {x} => hsep x
    rw [cells, Finset.card_union_of_disjoint hd, ih hl, Nat.card_Ico, total_cons]
    simp [stop]

theorem total_le_of_covered {l k : List Region} (hl : l.Pairwise Disjoint)
    (h : ∀ x, Covers l x → Covers k x) : total l ≤ total k := by
  rw [← card_cells hl]
  refine (Finset.card_le_card fun x hx => ?_).trans (card_cells_le k)
  exact (mem_cells k x).mpr (h x ((mem_cells l x).mp hx))

/-- When they are as large as the list, they miss none of its cells. -/
theorem covers_of_total_le {l k : List Region} (hl : l.Pairwise Disjoint)
    (h : ∀ x, Covers l x → Covers k x) (htotal : total k ≤ total l) {x : ℕ} (hx : Covers k x) :
    Covers l x := by
  have hsub : cells l ⊆ cells k := fun y hy => (mem_cells k y).mpr (h y ((mem_cells l y).mp hy))
  have hcard : (cells k).card ≤ (cells l).card := by
    rw [card_cells hl]
    exact (card_cells_le k).trans htotal
  rw [← mem_cells, Finset.eq_of_subset_of_card_le hsub hcard]
  exact (mem_cells k x).mpr hx

/-- Every stretch of covered cells is shorter than `n`. -/
def Fits (n : ℕ) (l : List Region) : Prop :=
  ∀ r : Region, (∀ x, r.Contains x → Covers l x) → r.size < n

theorem Fits.mono {n : ℕ} {k l : List Region} (h : Fits n l) (hc : ∀ x, Covers k x → Covers l x) :
    Fits n k := fun r hr => h r fun x hx => hc x (hr x hx)

theorem Fits.size_lt {n : ℕ} {r : Region} {l : List Region} (h : Fits n l) (hr : r ∈ l) :
    r.size < n := h r fun _ hx => ⟨r, hr, hx⟩

theorem fits_of_total_lt {n : ℕ} {l : List Region} (h : total l < n) : Fits n l := by
  intro r hr
  have hle := total_le_of_covered (List.pairwise_singleton _ r) (k := l) fun x hx =>
    hr x (by simpa using hx)
  rw [total_cons, total_nil] at hle
  omega

/-- In address order, with at least one foreign cell between two neighbours. -/
def Spaced (l : List Region) : Prop := l.Pairwise fun r s => r.stop < s.addr

instance (l : List Region) : Decidable (Spaced l) :=
  inferInstanceAs (Decidable (l.Pairwise _))

theorem Spaced.disjoint {l : List Region} (h : Spaced l) : l.Pairwise Disjoint :=
  h.imp fun hlt => Or.inl hlt.le

/-- Two members are the same one, or there is a foreign cell between them. -/
theorem Spaced.trichotomy {l : List Region} (h : Spaced l) {r s : Region} (hr : r ∈ l)
    (hs : s ∈ l) : r.stop < s.addr ∨ r = s ∨ s.stop < r.addr := by
  induction l with
  | nil => simp at hr
  | cons t l ih =>
    obtain ⟨ht, hl⟩ := List.pairwise_cons.mp h
    rcases List.mem_cons.mp hr with rfl | hrl
    · rcases List.mem_cons.mp hs with rfl | hsl
      · exact Or.inr (Or.inl rfl)
      · exact Or.inl (ht s hsl)
    · rcases List.mem_cons.mp hs with rfl | hsl
      · exact Or.inr (Or.inr (ht r hrl))
      · exact ih hl hrl hsl

theorem Spaced.exists_mem {l : List Region} (h : Spaced l) {r : Region} (hpos : 0 < r.size)
    (hc : ∀ x, r.Contains x → Covers l x) : ∃ s ∈ l, s.addr ≤ r.addr ∧ r.stop ≤ s.stop := by
  obtain ⟨s, hs, hlo, hhi⟩ := hc r.addr ⟨le_rfl, by simp only [stop]; omega⟩
  refine ⟨s, hs, hlo, ?_⟩
  by_contra hlong
  -- the cell behind `s` belongs to `r` but to no member
  obtain ⟨t, ht, htlo, hthi⟩ := hc s.stop ⟨by omega, by omega⟩
  rcases h.trichotomy hs ht with hlt | rfl | hlt
  · omega
  · omega
  · simp only [stop] at *
    omega

theorem Spaced.fits {n : ℕ} {l : List Region} (h : Spaced l) (hn : 0 < n)
    (hl : ∀ r ∈ l, r.size < n) : Fits n l := by
  intro r hr
  by_cases hpos : 0 < r.size
  · obtain ⟨s, hs, hlo, hhi⟩ := h.exists_mem hpos hr
    have := hl s hs
    simp only [stop] at hhi
    omega
  · omega

theorem Spaced.mem_of_covers {k l : List Region} (hk : Spaced k) (hl : Spaced l)
    (hkp : ∀ r ∈ k, 0 < r.size) (hlp : ∀ r ∈ l, 0 < r.size)
    (h : ∀ x, Covers k x ↔ Covers l x) {r : Region} (hr : r ∈ k) : r ∈ l := by
  obtain ⟨s, hs, hlo, hhi⟩ := hl.exists_mem (hkp r hr) fun x hx => (h x).mp ⟨r, hr, hx⟩
  obtain ⟨t, ht, hlo', hhi'⟩ := hk.exists_mem (hlp s hs) fun x hx => (h x).mpr ⟨s, hs, hx⟩
  have hrt : r = t := by
    have hpos := hkp r hr
    rcases hk.trichotomy hr ht with hlt | heq | hlt
    · simp only [stop] at *
      omega
    · exact heq
    · simp only [stop] at *
      omega
  subst hrt
  have hrs : r = s := by
    cases r
    cases s
    simp only [stop, Region.mk.injEq] at *
    omega
  exact hrs ▸ hs

/-- A free list in address order with every pair of neighbours merged is determined by its
cells. -/
theorem Spaced.eq_of_covers {k l : List Region} (hk : Spaced k) (hl : Spaced l)
    (hkp : ∀ r ∈ k, 0 < r.size) (hlp : ∀ r ∈ l, 0 < r.size)
    (h : ∀ x, Covers k x ↔ Covers l x) : k = l := by
  have hnodup : ∀ {j : List Region}, Spaced j → j.Nodup := by
    intro j hj
    refine List.Pairwise.imp (fun {r s} hlt heq => ?_) hj
    simp only [heq, stop] at hlt
    omega
  have hperm : k.Perm l := (List.perm_ext_iff_of_nodup (hnodup hk) (hnodup hl)).mpr fun r =>
    ⟨hk.mem_of_covers hl hkp hlp h, hl.mem_of_covers hk hlp hkp fun x => (h x).symm⟩
  refine hperm.eq_of_pairwise (fun r s _ _ hrs hsr => ?_) hk hl
  simp only [stop] at hrs hsr
  omega

/-- Put `r` in front of `l`, as one region with the first when they touch. -/
def join (r : Region) : List Region → List Region
  | [] => [r]
  | s :: l => if r.stop = s.addr then ⟨r.addr, r.size + s.size⟩ :: l else r :: s :: l

/-- Ordered insertion that merges `r` with the neighbours it touches. -/
def insert (r : Region) : List Region → List Region
  | [] => [r]
  | s :: l => if r.addr < s.addr then join r (s :: l) else join s (insert r l)

@[simp] theorem total_join (r : Region) (l : List Region) : total (join r l) = r.size + total l := by
  cases l with
  | nil => rfl
  | cons s l =>
    simp only [join]
    split_ifs <;> simp [Nat.add_assoc]

theorem total_insert (r : Region) (l : List Region) :
    total (insert r l) = r.size + total l := by
  induction l with
  | nil => rfl
  | cons s l ih =>
    unfold insert
    split_ifs
    · rw [total_join]
    · rw [total_join, ih, total_cons]
      omega

theorem covers_join (r : Region) (l : List Region) (x : ℕ) :
    Covers (join r l) x ↔ r.Contains x ∨ Covers l x := by
  cases l with
  | nil => simp [join]
  | cons s l =>
    simp only [join]
    split_ifs with h
    · simp only [covers_cons, ← or_assoc]
      refine or_congr_left ?_
      simp only [Contains, stop] at *
      omega
    · simp

theorem covers_insert (r : Region) (l : List Region) (x : ℕ) :
    Covers (insert r l) x ↔ r.Contains x ∨ Covers l x := by
  induction l with
  | nil => simp [insert]
  | cons s l ih =>
    unfold insert
    split_ifs
    · rw [covers_join]
    · rw [covers_join, ih, covers_cons]
      tauto

/-- A region that starts the list ends strictly before everything after it, or
touches the first of them. -/
theorem spaced_join {r : Region} {l : List Region} (hl : Spaced l)
    (hr : ∀ s ∈ l, r.stop ≤ s.addr) : Spaced (join r l) := by
  cases l with
  | nil => simp [join, Spaced]
  | cons s l =>
    obtain ⟨hs, hrest⟩ := List.pairwise_cons.mp hl
    have hfirst := hr s (by simp)
    simp only [join]
    split_ifs with h
    · refine List.pairwise_cons.mpr ⟨fun t ht => ?_, hrest⟩
      have := hs t ht
      simp only [stop] at *
      omega
    · refine List.pairwise_cons.mpr ⟨fun t ht => ?_, hl⟩
      rcases List.mem_cons.mp ht with rfl | ht
      · omega
      · have := hs t ht
        simp only [stop] at *
        omega

theorem join_eq_cons (r : Region) (l : List Region) :
    ∃ t k, join r l = t :: k ∧ t.addr = r.addr := by
  cases l with
  | nil => exact ⟨r, [], rfl, rfl⟩
  | cons s l =>
    simp only [join]
    split_ifs
    · exact ⟨_, _, rfl, rfl⟩
    · exact ⟨_, _, rfl, rfl⟩

theorem join_of_lt {r : Region} {l : List Region} (h : ∀ s ∈ l, r.stop < s.addr) :
    join r l = r :: l := by
  cases l with
  | nil => rfl
  | cons s l =>
    have := h s (by simp)
    exact if_neg (by omega)

/-- What holds of the regions put in, and of a merged one with its two parts, holds of
every region of the result. -/
theorem forall_mem_join {P : Region → Prop}
    (hP : ∀ r s, P r → P s → P ⟨r.addr, r.size + s.size⟩) {r : Region} {l : List Region}
    (hr : P r) (hl : ∀ s ∈ l, P s) : ∀ t ∈ join r l, P t := by
  cases l with
  | nil => simpa [join] using hr
  | cons s l =>
    obtain ⟨hs, hrest⟩ := List.forall_mem_cons.mp hl
    simp only [join]
    split_ifs
    · exact List.forall_mem_cons.mpr ⟨hP r s hr hs, hrest⟩
    · exact List.forall_mem_cons.mpr ⟨hr, hl⟩

theorem forall_mem_insert {P : Region → Prop}
    (hP : ∀ r s, P r → P s → P ⟨r.addr, r.size + s.size⟩) {r : Region} {l : List Region}
    (hr : P r) (hl : ∀ s ∈ l, P s) : ∀ t ∈ insert r l, P t := by
  induction l with
  | nil => simpa [insert] using hr
  | cons s l ih =>
    obtain ⟨hs, hrest⟩ := List.forall_mem_cons.mp hl
    unfold insert
    split_ifs
    · exact forall_mem_join hP hr hl
    · exact forall_mem_join hP hs (ih hrest)

theorem le_addr_of_mem_insert {n : ℕ} {r t : Region} {l : List Region} (hr : n ≤ r.addr)
    (hl : ∀ s ∈ l, n ≤ s.addr) (ht : t ∈ insert r l) : n ≤ t.addr :=
  forall_mem_insert (P := fun t => n ≤ t.addr) (fun _ _ h _ => h) hr hl t ht

theorem le_size_of_mem_insert {n : ℕ} {r t : Region} {l : List Region} (hr : n ≤ r.size)
    (hl : ∀ s ∈ l, n ≤ s.size) (ht : t ∈ insert r l) : n ≤ t.size :=
  forall_mem_insert (P := fun t => n ≤ t.size) (fun _ _ h _ => Nat.le_add_right_of_le h) hr hl t ht

theorem spaced_insert {r : Region} {l : List Region} (hl : Spaced l) (hpos : 0 < r.size)
    (hne : ∀ s ∈ l, 0 < s.size) (hd : ∀ s ∈ l, r.Disjoint s) : Spaced (insert r l) := by
  induction l with
  | nil => simp [insert, Spaced]
  | cons s l ih =>
    obtain ⟨hs, hrest⟩ := List.pairwise_cons.mp hl
    have hsd := hd s (by simp)
    have hsp := hne s (by simp)
    unfold insert
    split_ifs with h
    · refine spaced_join hl fun t ht => ?_
      rcases List.mem_cons.mp ht with rfl | ht
      · simp only [Disjoint, stop] at *
        omega
      · have := hs t ht
        simp only [Disjoint, stop] at *
        omega
    · have hafter : s.stop ≤ r.addr := by
        simp only [Disjoint, stop] at *
        omega
      refine spaced_join (ih hrest (fun t ht => hne t (by simp [ht]))
        fun t ht => hd t (by simp [ht])) fun t ht => ?_
      exact le_addr_of_mem_insert hafter (fun u hu => (hs u hu).le) ht

end Region
