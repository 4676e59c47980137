import EmbeddedTemplate.MemPool.Restore

/-! Which segment `mem_pool_malloc` serves a request from. -/
namespace EmbeddedTemplate.MemPool

open ByteMem Region

theorem allocate_eq_none_iff (sz slack : ℕ) (l : List Region) :
    allocate sz slack l = none ↔ ∀ r ∈ l, r.size < sz := by
  induction l with
  | nil => simp [allocate]
  | cons r l ih =>
    simp only [allocate, List.forall_mem_cons]
    split_ifs with hfit
    · simp [ih, hfit]
    · simp [hfit]

theorem length_allocate {sz slack : ℕ} {l l' : List Region} {b : Region}
    (h : allocate sz slack l = some (b, l')) : l'.length ≤ l.length := by
  obtain ⟨pre, r, post, rfl, -, -, ⟨-, -, rfl⟩ | ⟨-, -, rfl⟩⟩ := allocate_cases h
  · simp
  · simp

theorem first_le_of_spaced {sz : ℕ} {pre post : List Region} {r u : Region}
    (h : Spaced (pre ++ r :: post)) (hpre : ∀ t ∈ pre, t.size < sz) (hu : u ∈ pre ++ r :: post)
    (hfit : sz ≤ u.size) : r.addr ≤ u.addr := by
  obtain ⟨-, hpost, -⟩ := List.pairwise_append.mp h
  obtain ⟨hafter, -⟩ := List.pairwise_cons.mp hpost
  simp only [List.mem_append, List.mem_cons] at hu
  rcases hu with hu | rfl | hu
  · exact absurd hfit (Nat.not_le_of_lt (hpre u hu))
  · exact le_rfl
  · have := hafter u hu
    simp only [stop] at this
    omega

namespace Layout
variable {L : Layout}

theorem splite_same {m m' : Mem} {r : Region} {l : List Region} {sz n : ℕ}
    (hp : L.Path m r.addr (r :: l) 0) (ha : L.Arena (r :: l))
    (h : L.splite m r.addr sz = some (n, m')) {t : Region} (ht : r.Disjoint t) : Same m m' t := by
  obtain ⟨-, -, hsize, -⟩ := hp
  have hal := L.sizeof_le_allignSizeof
  have hr := ha.header r (by simp)
  unfold splite at h
  rw [hsize] at h
  split_ifs at h with hfit hcut
  · have haddr := ha.addr_add (List.mem_cons_self ..) (Nat.le_of_not_lt hfit)
    rw [haddr] at h
    obtain ⟨-, rfl⟩ := Prod.mk.injEq .. ▸ Option.some.inj h
    have hleft : L.sizeof ≤ (⟨r.addr + sz, r.size - sz⟩ : Region).size := by
      show L.sizeof ≤ r.size - sz
      omega
    have hdis : Region.Disjoint ⟨r.addr + sz, r.size - sz⟩ t := by
      simp only [Region.Disjoint, stop] at *
      omega
    have hsame₁ := same_setSize m (r.size - sz) hleft hdis
    have hsame₂ := same_setNext (L.setSize m (r.addr + sz) (r.size - sz))
      (L.next (L.setSize m (r.addr + sz) (r.size - sz)) r.addr) hleft hdis
    exact (hsame₁.trans hsame₂).trans (same_setSize _ _ hr ht)
  · obtain ⟨-, rfl⟩ := Prod.mk.injEq .. ▸ Option.some.inj h
    exact Same.refl m t

/-- A segment that `splite` refuses is too small: one that fits lies behind it. -/
theorem fits_behind {m : Mem} {c : Region} {l : List Region} {sz : ℕ}
    (hsize : L.size m c.addr = c.size) (h : L.splite m c.addr sz = none)
    (hfit : ∃ r ∈ c :: l, sz ≤ r.size) : ∃ r ∈ l, sz ≤ r.size := by
  unfold splite at h
  rw [hsize] at h
  split_ifs at h with hlt
  obtain ⟨r, hr, hle⟩ := hfit
  rcases List.mem_cons.mp hr with rfl | hr
  · omega
  · exact ⟨r, hr, hle⟩

theorem mallocLoop_ret {m : Mem} (pool : ℕ) {fuel sz : ℕ} {cur : Region} {l : List Region}
    (hp : L.Path m cur.addr (cur :: l) 0) (ha : L.Arena (cur :: l)) (hf : l.length < fuel)
    (hfit : ∃ r ∈ l, sz ≤ r.size) :
    ∃ res, L.mallocLoop pool sz fuel cur.addr m = some res ∧
      ∃ r ∈ l, res.ret = L.addr (r.addr + L.sizeof) := by
  induction l generalizing fuel cur with
  | nil => simp at hfit
  | cons c l ih =>
    obtain ⟨hc, hcne, hcsize, hrest⟩ := hp.next_cons
    obtain ⟨fuel, rfl⟩ := Nat.exists_eq_add_one_of_ne_zero (Nat.ne_zero_of_lt hf)
    simp only [mallocLoop, hc, if_neg hcne]
    cases hsplit : L.splite m c.addr sz with
    | none =>
      have hlater := fits_behind hcsize hsplit hfit
      obtain ⟨res, hres, r, hr, hret⟩ := ih hrest ha.tail (by simpa using hf) hlater
      exact ⟨res, hres, r, by simp [hr], hret⟩
    | some x =>
      obtain ⟨n, m'⟩ := x
      have hsame : Same m m' cur :=
        splite_same hrest ha.tail hsplit (ha.disjoint_of_mem (by simp)).symm
      refine ⟨_, rfl, c, by simp, ?_⟩
      show L.addr (L.next m' cur.addr + L.sizeof) = _
      rw [hsame.next_eq (ha.header cur (by simp)), hc]

/-- Some segment holds what is left of the request after the 16-bit sum: the call returns
a pointer into one. -/
theorem malloc_ne_null {m : Mem} {pool size : ℕ} {l : List Region} (hp : L.Path m pool l 0)
    (ha : L.Arena l) (hfit : ∃ r ∈ l, L.request size ≤ r.size) :
    ∃ res, L.malloc m pool size = some res ∧ res.ret ≠ 0 := by
  have hret : ∃ res, L.malloc m pool size = some res ∧
      ∃ r ∈ l, res.ret = L.addr (r.addr + L.sizeof) := by
    cases l with
    | nil => simp at hfit
    | cons r l =>
      obtain ⟨rfl, hne, hsize, -⟩ := id hp
      simp only [malloc, if_neg hne]
      cases hsplit : L.splite m r.addr (L.request size) with
      | none =>
        have hlater := fits_behind hsize hsplit hfit
        have hlen := ha.length_le
        rw [List.length_cons] at hlen
        obtain ⟨res, hres, t, ht, hret⟩ := mallocLoop_ret r.addr hp ha
          (show l.length < L.space + 1 by omega) hlater
        exact ⟨res, hres, t, by simp [ht], hret⟩
      | some x => exact ⟨_, rfl, r, by simp, rfl⟩
  obtain ⟨res, hres, r, hr, hret⟩ := hret
  have hhdr := ha.header r hr
  have hpos := L.sizeof_pos
  have haddr := ha.addr_add hr hhdr
  exact ⟨res, hres, by omega⟩

end Layout

/-- What a first-fit allocation of `size` bytes is: NULL exactly when no free segment has
room for them and a header, and otherwise the payload of the lowest segment that has, of
which the header records that room. The bytes meet no other segment. -/
def FirstFit (L : Layout) (s : State) (size : ℕ) : Prop :=
  ∃ l ∈ L.freeList s.mem s.pool, ∃ res, L.malloc s.mem s.pool size = some res ∧
    (res.ret = 0 ↔ ∀ r ∈ l, r.size < size + L.allignSizeof) ∧
    (res.ret ≠ 0 → ∃ r ∈ l, size + L.allignSizeof ≤ r.size ∧
      (∀ u ∈ l, size + L.allignSizeof ≤ u.size → r.addr ≤ u.addr) ∧
      res.ret = r.addr + L.sizeof ∧ size + L.allignSizeof ≤ L.size res.mem r.addr ∧
      (∃ l' ∈ L.freeList res.mem res.pool, ∀ u ∈ l', Region.Disjoint ⟨res.ret, size⟩ u) ∧
      ∀ b ∈ s.blocks L, Region.Disjoint ⟨res.ret, size⟩ b)

open Layout
variable {L : Layout}

theorem firstFit_of_lt {s : State} (hwf : WellFormed L s)
    (hbuf : ∀ b ∈ s.buffers, b.stop < L.space) {size : ℕ} (h : size + L.allignSizeof < 2 ^ 16) :
    FirstFit L s size := by
  obtain ⟨l, hinv⟩ := inv_of_wellFormed hwf hbuf
  have hlist : L.freeList s.mem s.pool = some l := hinv.freeList_eq
  have hreq : L.request size = size + L.allignSizeof := Nat.mod_eq_of_lt h
  have hal := L.sizeof_le_allignSizeof
  have ha : L.Arena l := hinv.arena.left
  refine ⟨l, hlist, ?_⟩
  cases halloc : allocate (L.request size) (2 * L.allignSizeof) l with
  | none =>
    refine ⟨_, malloc_none hinv.path ha halloc, ?_, fun hne => absurd rfl hne⟩
    rw [allocate_eq_none_iff, hreq] at halloc
    simpa using halloc
  | some x =>
    obtain ⟨b, l'⟩ := x
    obtain ⟨pool', m', hm', hpath', ⟨hsize, -⟩, -⟩ :=
      malloc_some hinv.path ha (by omega) halloc
    obtain ⟨pre, r, post, rfl, hpre, hr, hcase⟩ := allocate_cases halloc
    have hb : b.addr = r.addr ∧ L.request size ≤ b.size ∧ b.size ≤ r.size := by
      rcases hcase with ⟨-, rfl, -⟩ | ⟨-, rfl, -⟩
      · exact ⟨rfl, le_rfl, hr⟩
      · exact ⟨rfl, hr, le_rfl⟩
    obtain ⟨hbaddr, hbreq, hble⟩ := hb
    rw [hreq] at hpre hr hbreq
    have hmem : r ∈ pre ++ r :: post := by simp
    have hsub : ∀ u, b.Disjoint u → Region.Disjoint ⟨b.addr + L.sizeof, size⟩ u := by
      intro u hu
      simp only [Region.Disjoint, stop] at *
      omega
    have hlen : l'.length ≤ L.space := (length_allocate halloc).trans ha.length_le
    have hrne := ha.ne_zero r hmem
    refine ⟨_, hm', ⟨fun hnull => ?_, fun hall => ?_⟩, fun _ => ⟨r, hmem, hr, ?_, ?_, ?_, ?_, ?_⟩⟩
    · have : b.addr + L.sizeof = 0 := hnull
      omega
    · exact absurd hr (Nat.not_le_of_lt (hall r hmem))
    · exact fun u hu hfit => first_le_of_spaced hinv.spaced hpre hu hfit
    · show b.addr + L.sizeof = _
      rw [hbaddr]
    · show _ ≤ L.size m' r.addr
      rw [← hbaddr, hsize]
      exact hbreq
    · exact ⟨l', walk_of_path hpath' (Nat.lt_succ_of_le hlen),
        fun u hu => hsub u (disjoint_allocate halloc hinv.spaced u hu)⟩
    · intro t ht
      obtain ⟨k, hk, -, -, -, hlive⟩ := hwf
      obtain rfl := Option.some.inj (hk.symm.trans hlist)
      have hd := hlive r hmem t ht
      apply hsub
      simp only [Region.Disjoint, stop] at *
      omega

/-- `size + ALLIGN_SIZEOF(..)` is a 16-bit sum. Allocation is first fit as long as it does
not wrap, and when it does, as long as no free segment holds what is left of it. -/
theorem firstFit_iff (L : Layout) (s : State) (hwf : WellFormed L s)
    (hbuf : ∀ b ∈ s.buffers, b.stop < L.space) (size : ℕ) :
    FirstFit L s size ↔ size + L.allignSizeof < 2 ^ 16 ∨
      ∀ l ∈ L.freeList s.mem s.pool, ∀ r ∈ l, r.size < L.request size := by
  obtain ⟨l, hinv⟩ := inv_of_wellFormed hwf hbuf
  have hlist : L.freeList s.mem s.pool = some l := hinv.freeList_eq
  have ha : L.Arena l := hinv.arena.left
  by_cases hlt : size + L.allignSizeof < 2 ^ 16
  · exact iff_of_true (firstFit_of_lt hwf hbuf hlt) (Or.inl hlt)
  -- a segment has fewer than `2 ^ 16` bytes, so the claim wants NULL here
  have hsmall : ∀ r ∈ l, r.size < size + L.allignSizeof := by
    intro r hr
    have := ha.fits.size_lt hr
    omega
  constructor
  · rintro ⟨k, hk, res, hres, hnull, -⟩
    obtain rfl := Option.some.inj (hk.symm.trans hlist)
    right
    intro k' hk' r hr
    obtain rfl := Option.some.inj (hk'.symm.trans hlist)
    by_contra hfit
    obtain ⟨res', hres', hne⟩ := malloc_ne_null hinv.path ha ⟨r, hr, Nat.le_of_not_lt hfit⟩
    obtain rfl := Option.some.inj (hres'.symm.trans hres)
    exact hne (hnull.mpr hsmall)
  · intro hor
    have hall := hor.resolve_left hlt l hlist
    have hnone := malloc_none hinv.path ha ((allocate_eq_none_iff _ _ l).mpr hall)
    exact ⟨l, hlist, _, hnone, iff_of_true rfl hsmall, fun hne => absurd rfl hne⟩

/-- The last request that fits, with no rest. -/
theorem firstFit_whole_segment :
    FirstFit .lp64 oneBuffer 184 :=
  (firstFit_iff .lp64 oneBuffer (by decide +kernel) (by decide +kernel) 184).mpr
    (Or.inl (by decide))

/-- A request of 65535 bytes wraps to 15 and is served from a segment of 200 bytes. -/
theorem malloc_wraps :
    WellFormed .lp64 oneBuffer ∧
      (∃ res ∈ Layout.lp64.malloc oneBuffer.mem oneBuffer.pool 65535, res.ret = 1016 ∧
        Layout.lp64.size res.mem 1000 = 15) ∧
      ¬ FirstFit .lp64 oneBuffer 65535 := by
  have hlist : Layout.lp64.freeList oneBuffer.mem oneBuffer.pool = some [⟨1000, 200⟩] := by
    decide +kernel
  have hret : ∀ res ∈ Layout.lp64.malloc oneBuffer.mem oneBuffer.pool 65535, res.ret = 1016 := by
    decide +kernel
  refine ⟨by decide +kernel, by decide +kernel, ?_⟩
  rintro ⟨l, hl, res, hres, hnull, -⟩
  obtain rfl := Option.some.inj (hl.symm.trans hlist)
  have hzero := hnull.mpr (by decide)
  rw [hret res hres] at hzero
  omega

end EmbeddedTemplate.MemPool
