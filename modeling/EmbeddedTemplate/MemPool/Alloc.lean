import EmbeddedTemplate.MemPool.FreeList

/-! What `splite` and `mem_pool_malloc` do to the free list, as functions on lists of
segments. -/
namespace EmbeddedTemplate.MemPool

open ByteMem Region

/-- The segment found, cut at `sz` when more than `slack` bytes remain. Otherwise it is
handed out whole and nothing of the list behind it is kept. -/
def carve (sz slack : ℕ) (r : Region) (l : List Region) : Region × List Region :=
  if sz + slack < r.size then (⟨r.addr, sz⟩, ⟨r.addr + sz, r.size - sz⟩ :: l) else (r, [])

/-- First fit: the block and the remaining free list. -/
def allocate (sz slack : ℕ) : List Region → Option (Region × List Region)
  | [] => none
  | r :: l =>
    if r.size < sz then (allocate sz slack l).map fun x => (x.1, r :: x.2)
    else some (carve sz slack r l)

theorem allocate_cases {sz slack : ℕ} {l l' : List Region} {b : Region}
    (h : allocate sz slack l = some (b, l')) :
    ∃ pre r post, l = pre ++ r :: post ∧ (∀ s ∈ pre, s.size < sz) ∧ sz ≤ r.size ∧
      ((sz + slack < r.size ∧ b = ⟨r.addr, sz⟩ ∧
          l' = pre ++ ⟨r.addr + sz, r.size - sz⟩ :: post) ∨
        (r.size ≤ sz + slack ∧ b = r ∧ l' = pre)) := by
  induction l generalizing l' with
  | nil => simp [allocate] at h
  | cons s l ih =>
    simp only [allocate] at h
    split_ifs at h with hfit
    · obtain ⟨⟨b', k⟩, hk, he⟩ := Option.map_eq_some_iff.mp h
      obtain ⟨rfl, rfl⟩ := Prod.mk.injEq .. ▸ he
      obtain ⟨pre, r, post, rfl, hpre, hr, hcase⟩ := ih hk
      refine ⟨s :: pre, r, post, rfl, ?_, hr, ?_⟩
      · intro t ht
        rcases List.mem_cons.mp ht with rfl | ht
        · exact hfit
        · exact hpre t ht
      · rcases hcase with ⟨hcut, hb, rfl⟩ | ⟨hcut, hb, rfl⟩
        · exact Or.inl ⟨hcut, hb, rfl⟩
        · exact Or.inr ⟨hcut, hb, rfl⟩
    · refine ⟨[], s, l, rfl, by simp, by omega, ?_⟩
      have he := Option.some.inj h
      unfold carve at he
      split_ifs at he with hcut
      · obtain ⟨rfl, rfl⟩ := Prod.mk.injEq .. ▸ he
        exact Or.inl ⟨hcut, rfl, rfl⟩
      · obtain ⟨rfl, rfl⟩ := Prod.mk.injEq .. ▸ he
        exact Or.inr ⟨by omega, rfl, rfl⟩

theorem carve_addr (sz slack : ℕ) (r : Region) (l : List Region) :
    (carve sz slack r l).1.addr = r.addr := by
  unfold carve
  split_ifs <;> rfl

theorem carve_disjoint {sz slack : ℕ} {r t : Region} {l : List Region} (_ : sz ≤ r.size)
    (h : r.Disjoint t) : (carve sz slack r l).1.Disjoint t := by
  unfold carve
  split_ifs
  · simp only [Region.Disjoint, stop] at *
    omega
  · exact h

theorem covers_allocate {sz slack : ℕ} {l l' : List Region} {b : Region}
    (h : allocate sz slack l = some (b, l')) {x : ℕ} (hx : Covers (b :: l') x) : Covers l x := by
  obtain ⟨pre, r, post, rfl, -, hr, ⟨-, rfl, rfl⟩ | ⟨-, rfl, rfl⟩⟩ := allocate_cases h
  · have hcell : ∀ y, Contains ⟨r.addr, sz⟩ y ∨ Contains ⟨r.addr + sz, r.size - sz⟩ y →
        r.Contains y := by
      intro y hy
      simp only [Contains, stop] at *
      omega
    have := hcell x
    simp only [covers_cons, covers_append] at *
    tauto
  · simp only [covers_cons, covers_append] at *
    tauto

theorem le_size_of_allocate {sz slack hdr : ℕ} {l l' : List Region} {b : Region}
    (h : allocate sz slack l = some (b, l')) (hsz : hdr ≤ sz) (hslack : hdr ≤ slack)
    (hl : ∀ s ∈ l, hdr ≤ s.size) : ∀ r ∈ b :: l', hdr ≤ r.size := by
  obtain ⟨pre, r, post, rfl, -, -, ⟨hcut, rfl, rfl⟩ | ⟨-, rfl, rfl⟩⟩ := allocate_cases h
  · intro t ht
    simp only [List.mem_cons, List.mem_append] at ht
    rcases ht with rfl | ht | rfl | ht
    · exact hsz
    · exact hl t (by simp [ht])
    · show hdr ≤ r.size - sz
      omega
    · exact hl t (by simp [ht])
  · intro t ht
    rcases List.mem_cons.mp ht with rfl | ht
    · exact hl t (by simp)
    · exact hl t (by simp [ht])

theorem spaced_allocate {sz slack : ℕ} {l l' : List Region} {b : Region}
    (h : allocate sz slack l = some (b, l')) (hl : Spaced l) : Spaced l' := by
  obtain ⟨pre, r, post, rfl, -, hr, ⟨-, -, rfl⟩ | ⟨-, -, rfl⟩⟩ := allocate_cases h
  · simp only [Spaced, List.pairwise_append, List.pairwise_cons, List.mem_cons] at *
    obtain ⟨hpre, ⟨hrpost, hpost⟩, hcross⟩ := hl
    refine ⟨hpre, ⟨fun t ht => ?_, hpost⟩, ?_⟩
    · have := hrpost t ht
      simp only [stop] at *
      omega
    · rintro s hs t (rfl | ht)
      · exact Nat.lt_add_right sz (hcross s hs r (Or.inl rfl))
      · exact hcross s hs t (Or.inr ht)
  · exact (List.pairwise_append.mp hl).1

theorem disjoint_allocate {sz slack : ℕ} {l l' : List Region} {b : Region}
    (h : allocate sz slack l = some (b, l')) (hl : Spaced l) : ∀ r ∈ l', b.Disjoint r := by
  obtain ⟨pre, r, post, rfl, -, hr, hcase⟩ := allocate_cases h
  obtain ⟨-, hpost, hcross⟩ := List.pairwise_append.mp hl
  obtain ⟨hrpost, -⟩ := List.pairwise_cons.mp hpost
  have hbefore : ∀ s ∈ pre, s.stop ≤ r.addr := fun s hs => (hcross s hs r (by simp)).le
  rcases hcase with ⟨-, rfl, rfl⟩ | ⟨-, rfl, rfl⟩
  · intro t ht
    simp only [List.mem_append, List.mem_cons] at ht
    rcases ht with ht | rfl | ht
    · exact Or.inr (hbefore t ht)
    · exact Or.inl le_rfl
    · have := hrpost t ht
      simp only [Region.Disjoint, stop] at *
      omega
  · intro t ht
    exact Or.inr (hbefore t ht)

/-- The first segment that fits is cut, or nothing lies behind it. -/
def KeepsRest (sz slack : ℕ) : List Region → Prop
  | [] => True
  | r :: l => if r.size < sz then KeepsRest sz slack l else sz + slack < r.size ∨ l = []

instance KeepsRest.decidable (sz slack : ℕ) : ∀ l, Decidable (KeepsRest sz slack l)
  | [] => isTrue trivial
  | r :: l =>
    have := KeepsRest.decidable sz slack l
    inferInstanceAs (Decidable (if r.size < sz then _ else _))

/-- Then only the block leaves the list: every other segment stays on it. -/
theorem allocate_of_keepsRest {sz slack : ℕ} {l l' : List Region} {b : Region}
    (h : allocate sz slack l = some (b, l')) (hkeep : KeepsRest sz slack l) :
    ∃ pre r post rest, l = pre ++ r :: post ∧ l' = pre ++ rest ++ post ∧ b.addr = r.addr ∧
      b.size + total rest = r.size ∧ ∀ t ∈ rest, b.stop ≤ t.addr ∧ t.stop ≤ r.stop := by
  induction l generalizing l' with
  | nil => simp [allocate] at h
  | cons s l ih =>
    simp only [allocate] at h
    simp only [KeepsRest] at hkeep
    split_ifs at h hkeep with hfit
    · obtain ⟨⟨b', k⟩, hk, he⟩ := Option.map_eq_some_iff.mp h
      obtain ⟨rfl, rfl⟩ := Prod.mk.injEq .. ▸ he
      obtain ⟨pre, r, post, rest, rfl, rfl, hrest⟩ := ih hk hkeep
      exact ⟨s :: pre, r, post, rest, rfl, rfl, hrest⟩
    · have he := Option.some.inj h
      unfold carve at he
      split_ifs at he with hcut
      · obtain ⟨rfl, rfl⟩ := Prod.mk.injEq .. ▸ he
        refine ⟨[], s, l, [⟨s.addr + sz, s.size - sz⟩], rfl, rfl, rfl, ?_, ?_⟩
        · simp only [total_cons, total_nil]
          omega
        · intro t ht
          have : t = ⟨s.addr + sz, s.size - sz⟩ := by simpa using ht
          subst this
          simp only [stop]
          omega
      · obtain ⟨rfl, rfl⟩ := Prod.mk.injEq .. ▸ he
        obtain rfl := hkeep.resolve_left (by omega)
        exact ⟨[], s, [], [], rfl, rfl, rfl, rfl, by simp⟩

theorem total_allocate {sz slack : ℕ} {l l' : List Region} {b : Region}
    (h : allocate sz slack l = some (b, l')) (hkeep : KeepsRest sz slack l) :
    b.size + total l' = total l := by
  obtain ⟨pre, r, post, rest, rfl, rfl, -, hsize, -⟩ := allocate_of_keepsRest h hkeep
  simp only [total_append, total_cons]
  omega

namespace Layout
variable {L : Layout}

theorem arena_of_covered {k l : List Region} (hne : ∀ b ∈ k, b.addr ≠ 0)
    (hstop : ∀ b ∈ k, b.stop < L.space) (hfits : Fits (2 ^ 16) k)
    (hd : l.Pairwise Region.Disjoint) (hh : ∀ r ∈ l, L.sizeof ≤ r.size)
    (hc : ∀ x, Covers l x → Covers k x) : L.Arena l := by
  have hpos := L.sizeof_pos
  have hfirst : ∀ r ∈ l, Covers k r.addr := by
    intro r hr
    have := hh r hr
    exact hc _ ⟨r, hr, le_rfl, by simp only [stop]; omega⟩
  have hlast : ∀ r ∈ l, Covers k (r.stop - 1) := by
    intro r hr
    have := hh r hr
    refine hc _ ⟨r, hr, ?_, ?_⟩ <;> simp only [stop] <;> omega
  refine ⟨hd, hh, ?_, ?_, hfits.mono hc⟩
  · intro r hr
    obtain ⟨b, hb, hlo, -⟩ := hfirst r hr
    have := hne b hb
    omega
  · intro r hr
    obtain ⟨b, hb, -, hhi⟩ := hlast r hr
    have := hstop b hb
    omega

theorem Arena.left {k l : List Region} (h : L.Arena (k ++ l)) : L.Arena k :=
  arena_of_covered h.ne_zero h.stop_lt h.fits (List.pairwise_append.mp h.disjoint).1
    (fun r hr => h.header r (List.mem_append_left _ hr))
    fun x hx => (covers_append _ _ x).mpr (Or.inl hx)

theorem Arena.carve {r : Region} {l : List Region} {sz : ℕ} (ha : L.Arena (r :: l))
    (hsz : L.sizeof ≤ sz) :
    L.Arena ((carve sz (2 * L.allignSizeof) r l).1 :: (carve sz (2 * L.allignSizeof) r l).2) := by
  have hal := L.sizeof_le_allignSizeof
  unfold MemPool.carve
  split_ifs with hcut
  · have hd : ∀ t ∈ l, r.Disjoint t := fun t ht => ha.disjoint_of_mem ht
    refine arena_of_covered ha.ne_zero ha.stop_lt ha.fits ?_ ?_ fun x hx => ?_
    · refine List.pairwise_cons.mpr ⟨fun t ht => ?_, List.pairwise_cons.mpr ⟨fun t ht => ?_,
        ha.tail.disjoint⟩⟩
      · rcases List.mem_cons.mp ht with rfl | ht
        · exact Or.inl le_rfl
        · have := hd t ht
          simp only [Region.Disjoint, stop] at *
          omega
      · have := hd t ht
        simp only [Region.Disjoint, stop] at *
        omega
    · intro t ht
      simp only [List.mem_cons] at ht
      rcases ht with rfl | rfl | ht
      · exact hsz
      · show L.sizeof ≤ r.size - sz
        omega
      · exact ha.header t (by simp [ht])
    · simp only [covers_cons, ← or_assoc] at *
      refine hx.imp_left ?_
      simp only [Contains, stop]
      omega
  · refine arena_of_covered ha.ne_zero ha.stop_lt ha.fits (by simp) ?_ fun x hx => ?_
    · intro t ht
      have : t = r := by simpa using ht
      exact this ▸ ha.header r (by simp)
    · simp only [covers_cons, covers_nil, or_false] at *
      exact Or.inl hx

/-- `splite` on a segment that is large enough leaves the pointer to the rest of the
list, and in the header of the segment the size of the block. -/
theorem splite_spec {m : Mem} {r : Region} {l : List Region} {sz : ℕ}
    (hp : L.Path m r.addr (r :: l) 0) (ha : L.Arena (r :: l)) (hsz : L.sizeof ≤ sz)
    (hfit : sz ≤ r.size) :
    ∃ n m', L.splite m r.addr sz = some (n, m') ∧ n < L.space ∧
      L.Path m' n (carve sz (2 * L.allignSizeof) r l).2 0 ∧
      L.size m' r.addr = (carve sz (2 * L.allignSizeof) r l).1.size ∧
      L.next m' r.addr = L.next m r.addr ∧ ∀ t, r.Disjoint t → Same m m' t := by
  obtain ⟨-, hne, hsize, hrest⟩ := hp
  have hal := L.sizeof_le_allignSizeof
  have haC := ha.carve hsz
  have hno : ¬ r.size < sz := by omega
  unfold MemPool.carve at haC ⊢
  by_cases hcut : sz + 2 * L.allignSizeof < r.size
  · simp only [if_pos hcut] at haC ⊢
    have hb : L.sizeof ≤ (⟨r.addr, sz⟩ : Region).size := hsz
    have hleft : L.sizeof ≤ (⟨r.addr + sz, r.size - sz⟩ : Region).size := by
      show L.sizeof ≤ r.size - sz
      omega
    have hstop := ha.stop_lt r (by simp)
    have hrsize := ha.fits.size_lt (List.mem_cons_self ..)
    have haddr := ha.addr_add (List.mem_cons_self ..) hfit
    have hbl : Region.Disjoint ⟨r.addr + sz, r.size - sz⟩ ⟨r.addr, sz⟩ := Or.inr le_rfl
    -- the three stores: `left->size`, `left->next`, `seg->size`
    let m₁ := L.setSize m (r.addr + sz) (r.size - sz)
    let m₂ := L.setNext m₁ (r.addr + sz) (L.next m₁ r.addr)
    let m₃ := L.setSize m₂ r.addr sz
    have h₁ : Same m m₁ ⟨r.addr, sz⟩ := same_setSize m _ hleft hbl
    have h₂ : Same m₁ m₂ ⟨r.addr, sz⟩ := same_setNext m₁ _ hleft hbl
    have hnext : L.next m₁ r.addr = L.next m r.addr := h₁.next_eq hb
    have hsub : ∀ t, r.Disjoint t → Region.Disjoint ⟨r.addr + sz, r.size - sz⟩ t ∧
        Region.Disjoint ⟨r.addr, sz⟩ t := by
      intro t ht
      simp only [Region.Disjoint, stop] at *
      omega
    have hframe₂ : ∀ t, r.Disjoint t → Same m m₂ t := fun t ht =>
      (same_setSize m _ hleft (hsub t ht).1).trans (same_setNext m₁ _ hleft (hsub t ht).1)
    have hpath₂ : L.Path m₂ (r.addr + sz) (⟨r.addr + sz, r.size - sz⟩ :: l) 0 := by
      refine ⟨rfl, Nat.ne_of_gt (Nat.add_pos_left (Nat.pos_of_ne_zero hne) sz), ?_, ?_⟩
      · rw [size_setNext, size_setSize, Nat.mod_eq_of_lt (by omega)]
      · rw [next_setNext, Nat.mod_eq_of_lt (L.next_lt m₁ r.addr), hnext]
        exact hrest.congr fun t ht =>
          ⟨ha.header t (by simp [ht]), hframe₂ t (ha.disjoint_of_mem ht)⟩
    refine ⟨r.addr + sz, m₃, ?_, ?_, ?_, ?_, ?_, fun t ht => (hframe₂ t ht).trans
      (same_setSize (r := ⟨r.addr, sz⟩) m₂ _ hb (hsub t ht).2)⟩
    · simp only [splite, hsize, if_neg hno, if_pos hcut, haddr, m₁, m₂, m₃]
    · simp only [stop] at hstop
      omega
    · exact hpath₂.congr fun t ht =>
        ⟨haC.tail.header t ht, same_setSize (r := ⟨r.addr, sz⟩) m₂ _ hb (haC.disjoint_of_mem ht)⟩
    · show L.size (L.setSize m₂ r.addr sz) r.addr = sz
      rw [size_setSize, Nat.mod_eq_of_lt (by omega)]
    · show L.next (L.setSize m₂ r.addr sz) r.addr = _
      rw [next_setSize, ← hnext]
      exact h₂.next_eq hb
  · simp only [if_neg hcut]
    refine ⟨0, m, ?_, L.space_pos, rfl, hsize, rfl, fun t _ => Same.refl m t⟩
    simp only [splite, hsize, if_neg hno, if_neg hcut]

theorem splite_block {m : Mem} {r b : Region} {l l' : List Region} {sz : ℕ}
    (hp : L.Path m r.addr (r :: l) 0) (ha : L.Arena (r :: l)) (hsz : L.sizeof ≤ sz)
    (hfit : sz ≤ r.size) (hc : carve sz (2 * L.allignSizeof) r l = (b, l')) :
    ∃ n m', L.splite m r.addr sz = some (n, m') ∧ n < L.space ∧ L.Path m' n l' 0 ∧
      L.size m' b.addr = b.size ∧ r.addr = b.addr ∧ L.Arena (b :: l') ∧
      ∀ t, r.Disjoint t → b.Disjoint t ∧ Same m m' t := by
  obtain ⟨n, m', hm', hn, hpath, hsize, -, hframe⟩ := splite_spec hp ha hsz hfit
  have haddr : b.addr = r.addr := by
    have := carve_addr sz (2 * L.allignSizeof) r l
    rwa [hc] at this
  have hdis : ∀ t, r.Disjoint t → b.Disjoint t := by
    intro t ht
    have hd : (carve sz (2 * L.allignSizeof) r l).1.Disjoint t := carve_disjoint hfit ht
    rwa [hc] at hd
  have harena := ha.carve hsz
  rw [hc] at hpath hsize harena
  exact ⟨n, m', hm', hn, hpath, haddr ▸ hsize, haddr.symm, harena,
    fun t ht => ⟨hdis t ht, hframe t ht⟩⟩

theorem Arena.replace {k l l' : List Region} (h : L.Arena (k ++ l)) (h' : L.Arena l')
    (hc : ∀ x, Covers l' x → Covers l x) : L.Arena (k ++ l') := by
  have hpos := L.sizeof_pos
  obtain ⟨hk, -, hcross⟩ := List.pairwise_append.mp h.disjoint
  apply arena_of_covered h.ne_zero h.stop_lt h.fits
  · refine List.pairwise_append.mpr ⟨hk, h'.disjoint, fun x hx t ht => ?_⟩
    have hxs := h.header x (by simp [hx])
    have hts := h'.header t ht
    apply disjoint_of_cells (by omega) (by omega)
    intro y hxy hty
    obtain ⟨r, hr, hry⟩ := hc y ⟨t, ht, hty⟩
    exact (hcross x hx r hr).not_contains hxy hry
  · intro r hr
    rcases List.mem_append.mp hr with hr | hr
    · exact h.header r (by simp [hr])
    · exact h'.header r hr
  · intro x hx
    simp only [covers_append] at *
    exact hx.imp_right (hc x)

theorem Arena.addr_block {b : Region} {l : List Region} (h : L.Arena (b :: l)) :
    L.addr (b.addr + L.sizeof) = b.addr + L.sizeof :=
  h.addr_add (List.mem_cons_self ..) (h.header b (List.mem_cons_self ..))

/-- The header a block carries while it is live. -/
def Poisoned (L : Layout) (m : Mem) (b : Region) : Prop :=
  L.size m b.addr = b.size ∧ L.next m b.addr = L.poison

theorem poisoned_setNext {m : Mem} {b : Region} (h : L.size m b.addr = b.size) :
    L.Poisoned (L.setNext m b.addr L.poison) b := by
  refine ⟨by rwa [size_setNext], ?_⟩
  rw [next_setNext]
  exact Nat.mod_mod _ _

theorem mallocLoop_none {m : Mem} (pool : ℕ) {fuel sz : ℕ} {cur : Region} {l : List Region}
    (hp : L.Path m cur.addr (cur :: l) 0) (hf : l.length < fuel)
    (halloc : allocate sz (2 * L.allignSizeof) l = none) :
    L.mallocLoop pool sz fuel cur.addr m = some ⟨0, pool, m⟩ := by
  induction l generalizing fuel cur with
  | nil =>
    have hnil : L.next m cur.addr = 0 := hp.2.2.2
    obtain ⟨fuel, rfl⟩ := Nat.exists_eq_add_one_of_ne_zero (Nat.ne_zero_of_lt hf)
    simp [mallocLoop, hnil]
  | cons c l ih =>
    obtain ⟨hc, hcne, hcsize, hrest⟩ := hp.next_cons
    obtain ⟨fuel, rfl⟩ := Nat.exists_eq_add_one_of_ne_zero (Nat.ne_zero_of_lt hf)
    simp only [allocate] at halloc
    split_ifs at halloc with hfit
    have hsplit : L.splite m c.addr sz = none := by simp [splite, hcsize, hfit]
    simp only [mallocLoop, hc, if_neg hcne, hsplit]
    exact ih hrest (by simpa using hf) (by simpa using halloc)

theorem mallocLoop_some {m : Mem} (pool : ℕ) {fuel sz : ℕ} {cur b : Region}
    {l l' : List Region} (hp : L.Path m cur.addr (cur :: l) 0) (ha : L.Arena (cur :: l))
    (hsz : L.sizeof ≤ sz) (hf : l.length < fuel)
    (halloc : allocate sz (2 * L.allignSizeof) l = some (b, l')) :
    ∃ m', L.mallocLoop pool sz fuel cur.addr m = some ⟨b.addr + L.sizeof, pool, m'⟩ ∧
      L.Path m' cur.addr (cur :: l') 0 ∧ L.Poisoned m' b ∧
      ∀ t, (∀ r ∈ cur :: l, r.Disjoint t) → Same m m' t := by
  induction l generalizing fuel cur l' with
  | nil => simp [allocate] at halloc
  | cons c l ih =>
    obtain ⟨hc, hcne, hcsize, hrest⟩ := hp.next_cons
    obtain ⟨-, hne, hsize, -⟩ := hp
    obtain ⟨fuel, rfl⟩ := Nat.exists_eq_add_one_of_ne_zero (Nat.ne_zero_of_lt hf)
    have hcur := ha.header cur (by simp)
    simp only [allocate] at halloc
    split_ifs at halloc with hfit
    · obtain ⟨⟨b', k⟩, hk, he⟩ := Option.map_eq_some_iff.mp halloc
      obtain ⟨rfl, rfl⟩ := Prod.mk.injEq .. ▸ he
      obtain ⟨m', hm', hpath, hpois, hframe⟩ := ih hrest ha.tail (by simpa using hf) hk
      have hsame : Same m m' cur := hframe cur fun r hr => (ha.disjoint_of_mem hr).symm
      have hsplit : L.splite m c.addr sz = none := by simp [splite, hcsize, hfit]
      refine ⟨m', ?_, ⟨rfl, hne, (hsame.size_eq hcur).trans hsize, ?_⟩, hpois, fun t ht =>
        hframe t fun r hr => ht r (by simp [hr])⟩
      · simp only [mallocLoop, hc, if_neg hcne, hsplit]
        exact hm'
      · rw [hsame.next_eq hcur, hc]
        exact hpath
    · have he := Option.some.inj halloc
      obtain ⟨n, m₁, hm₁, hn, hpath₁, hsize₁, haddr, haB, hframe₁⟩ :=
        splite_block hrest ha.tail hsz (Nat.le_of_not_lt hfit) he
      have hfirst : allocate sz (2 * L.allignSizeof) (c :: l) = some (b, l') := by
        simp [allocate, hfit, he]
      have hcov : ∀ x, Covers (b :: l') x → Covers (c :: l) x := fun x => covers_allocate hfirst
      have haAll : L.Arena (cur :: b :: l') := Arena.replace (k := [cur]) ha haB hcov
      have hsame₁ : Same m m₁ cur := (hframe₁ cur (ha.disjoint_of_mem (by simp)).symm).2
      have hpath₂ := hpath₁.setNext haAll.swap.tail hn ((hsame₁.size_eq hcur).trans hsize)
      have hcb : cur.Disjoint b := haAll.disjoint_of_mem (by simp)
      have hbh := haAll.header b (by simp)
      have hsame₂ := same_setNext (L := L) m₁ n hcur hcb
      refine ⟨L.setNext (L.setNext m₁ cur.addr n) b.addr L.poison, ?_, ?_, ?_, ?_⟩
      · simp only [mallocLoop, hc, if_neg hcne, hm₁, hsame₁.next_eq hcur]
        rw [haddr, haB.addr_block]
      · exact hpath₂.congr fun t ht => ⟨haAll.swap.tail.header t ht,
          same_setNext _ _ hbh (haAll.swap.disjoint_of_mem ht)⟩
      · exact poisoned_setNext ((hsame₂.size_eq hbh).trans hsize₁)
      · intro t ht
        obtain ⟨hbt, hsplit⟩ := hframe₁ t (ht c (by simp))
        have hlink : Same m₁ (L.setNext m₁ cur.addr n) t :=
          same_setNext m₁ n hcur (ht cur (by simp))
        exact (hsplit.trans hlink).trans (same_setNext _ _ hbh hbt)

theorem malloc_null (m : Mem) (size : ℕ) : L.malloc m 0 size = some ⟨0, 0, m⟩ := by
  simp [malloc]

theorem malloc_none {m : Mem} {pool size : ℕ} {l : List Region} (hp : L.Path m pool l 0)
    (ha : L.Arena l) (halloc : allocate (L.request size) (2 * L.allignSizeof) l = none) :
    L.malloc m pool size = some ⟨0, pool, m⟩ := by
  cases l with
  | nil =>
    have hnull : pool = 0 := hp
    subst hnull
    exact malloc_null m size
  | cons r l =>
    obtain ⟨rfl, hne, hsize, -⟩ := id hp
    simp only [allocate] at halloc
    split_ifs at halloc with hfit
    have hsplit : L.splite m r.addr (L.request size) = none := by simp [splite, hsize, hfit]
    have hlen := ha.length_le
    rw [List.length_cons] at hlen
    simp only [malloc, if_neg hne, hsplit]
    exact mallocLoop_none r.addr hp (by omega) (by simpa using halloc)

/-- A successful `mem_pool_malloc` returns the payload of the first fit, marks its
segment with the poison pointer and leaves the list that `allocate` leaves. -/
theorem malloc_some {m : Mem} {pool size : ℕ} {b : Region} {l l' : List Region}
    (hp : L.Path m pool l 0) (ha : L.Arena l) (hsz : L.sizeof ≤ L.request size)
    (halloc : allocate (L.request size) (2 * L.allignSizeof) l = some (b, l')) :
    ∃ pool' m', L.malloc m pool size = some ⟨b.addr + L.sizeof, pool', m'⟩ ∧
      L.Path m' pool' l' 0 ∧ L.Poisoned m' b ∧
      ∀ t, (∀ r ∈ l, r.Disjoint t) → Same m m' t := by
  cases l with
  | nil => simp [allocate] at halloc
  | cons r l =>
    obtain ⟨rfl, hne, hsize, -⟩ := id hp
    simp only [allocate] at halloc
    split_ifs at halloc with hfit
    · obtain ⟨⟨b', k⟩, hk, he⟩ := Option.map_eq_some_iff.mp halloc
      obtain ⟨rfl, rfl⟩ := Prod.mk.injEq .. ▸ he
      have hsplit : L.splite m r.addr (L.request size) = none := by simp [splite, hsize, hfit]
      have hlen := ha.length_le
      rw [List.length_cons] at hlen
      obtain ⟨m', hm', hrest⟩ := mallocLoop_some r.addr hp ha hsz
        (show l.length < L.space + 1 by omega) hk
      refine ⟨r.addr, m', ?_, hrest⟩
      simp only [malloc, if_neg hne, hsplit]
      exact hm'
    · obtain ⟨n, m₁, hm₁, -, hpath₁, hsize₁, haddr, haB, hframe₁⟩ :=
        splite_block hp ha hsz (Nat.le_of_not_lt hfit) (Option.some.inj halloc)
      have hbh := haB.header b (by simp)
      refine ⟨n, L.setNext m₁ b.addr L.poison, ?_, ?_, poisoned_setNext hsize₁, ?_⟩
      · simp only [malloc, if_neg hne, hm₁]
        rw [haddr, haB.addr_block]
      · exact hpath₁.congr fun t ht => ⟨haB.tail.header t ht,
          same_setNext _ _ hbh (haB.disjoint_of_mem ht)⟩
      · intro t ht
        obtain ⟨hbt, hsplit⟩ := hframe₁ t (ht r (by simp))
        exact hsplit.trans (same_setNext _ _ hbh hbt)

end Layout
end EmbeddedTemplate.MemPool
