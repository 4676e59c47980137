import EmbeddedTemplate.MemPool.Basic
import Mathlib.Algebra.Order.Floor.Semiring
import Mathlib.Data.Finset.Card

/-! The singly linked free list in memory. `Path` follows `next` from one pointer to
another; each function of `mem_pool.c` is specified by the path it leaves behind and by
the regions whose bytes it does not touch. -/
namespace EmbeddedTemplate.MemPool.Layout

open ByteMem Region

variable (L : Layout)

theorem sizeof_le_allignSizeof : L.sizeof ≤ L.allignSizeof := by
  have hpos := L.allign_pos
  have hdiv := Nat.div_add_mod (L.sizeof + L.allignSize - 1) L.allignSize
  have hmod := Nat.mod_lt (L.sizeof + L.allignSize - 1) hpos
  rw [Nat.mul_comm] at hdiv
  unfold allignSizeof
  omega

theorem sizeof_pos : 0 < L.sizeof := by
  have := L.sizeOff_le
  omega

theorem space_pos : 0 < L.space := Nat.pow_pos (by decide)

theorem addr_of_lt {n : ℕ} (h : n < L.space) : L.addr n = n := by
  unfold addr
  rw [← Int.natCast_mod, Int.toNat_natCast, Nat.mod_eq_of_lt h]

section Fields
variable (m : Mem) {a b v : ℕ}

theorem next_setNext : L.next (L.setNext m a v) a = v % L.space := load_store_self m _ a v

theorem size_setSize : L.size (L.setSize m a v) a = v % 2 ^ 16 := load_store_self m 2 _ v

@[simp] theorem size_setNext : L.size (L.setNext m a v) a = L.size m a := by
  have := L.ptr_le
  exact load_store_of_disjoint (by omega)

@[simp] theorem next_setSize : L.next (L.setSize m a v) a = L.next m a := by
  have := L.ptr_le
  exact load_store_of_disjoint (by omega)

theorem next_lt (m : Mem) (a : ℕ) : L.next m a < L.space := load_lt m _ a

end Fields

/-- The bytes of `r` are the same in both memories. -/
def Same (m m' : Mem) (r : Region) : Prop := ∀ x, r.Contains x → m' x = m x

theorem Same.refl (m : Mem) (r : Region) : Same m m r := fun _ _ => rfl

theorem Same.trans {m m' m'' : Mem} {r : Region} (h : Same m m' r) (h' : Same m' m'' r) :
    Same m m'' r := fun x hx => (h' x hx).trans (h x hx)

variable {L}

theorem Same.next_eq {m m' : Mem} {r : Region} (h : Same m m' r) (hr : L.sizeof ≤ r.size) :
    L.next m' r.addr = L.next m r.addr := by
  have hp := L.ptr_le
  have hs := L.sizeOff_le
  apply load_congr
  intro x hlo hhi
  exact h x ⟨hlo, by simp only [stop]; omega⟩

theorem Same.size_eq {m m' : Mem} {r : Region} (h : Same m m' r) (hr : L.sizeof ≤ r.size) :
    L.size m' r.addr = L.size m r.addr := by
  have hs := L.sizeOff_le
  apply load_congr
  intro x hlo hhi
  exact h x ⟨by omega, by simp only [stop]; omega⟩

theorem same_setNext (m : Mem) (v : ℕ) {r q : Region} (hr : L.sizeof ≤ r.size)
    (hd : r.Disjoint q) : Same m (L.setNext m r.addr v) q := by
  intro x hx
  have hp := L.ptr_le
  have hs := L.sizeOff_le
  have hout : ¬ r.Contains x := fun hc => hd.not_contains hc hx
  apply store_of_disjoint
  simp only [Contains, stop] at *
  omega

theorem same_setSize (m : Mem) (v : ℕ) {r q : Region} (hr : L.sizeof ≤ r.size)
    (hd : r.Disjoint q) : Same m (L.setSize m r.addr v) q := by
  intro x hx
  have hs := L.sizeOff_le
  have hout : ¬ r.Contains x := fun hc => hd.not_contains hc hx
  apply store_of_disjoint
  simp only [Contains, stop] at *
  omega

variable (L)

/-- Following `next` from `p` visits the segments `l` and arrives at `q`. -/
def Path (m : Mem) : ℕ → List Region → ℕ → Prop
  | p, [], q => p = q
  | p, r :: l, q => p = r.addr ∧ r.addr ≠ 0 ∧ L.size m r.addr = r.size ∧
      Path m (L.next m r.addr) l q

variable {L}

theorem Path.next_cons {m : Mem} {p q : ℕ} {r c : Region} {l : List Region}
    (h : L.Path m p (r :: c :: l) q) : L.next m r.addr = c.addr ∧ c.addr ≠ 0 ∧
      L.size m c.addr = c.size ∧ L.Path m c.addr (c :: l) q := by
  obtain ⟨-, -, -, hrest⟩ := h
  have hc : L.next m r.addr = c.addr := hrest.1
  rw [hc] at hrest
  exact ⟨hc, hrest.2.1, hrest.2.2.1, hrest⟩

theorem Path.congr {m m' : Mem} {p q : ℕ} {l : List Region} (h : L.Path m p l q)
    (hl : ∀ r ∈ l, L.sizeof ≤ r.size ∧ Same m m' r) : L.Path m' p l q := by
  induction l generalizing p with
  | nil => exact h
  | cons r l ih =>
    obtain ⟨hp, hne, hsize, hrest⟩ := h
    obtain ⟨hle, hsame⟩ := hl r (by simp)
    refine ⟨hp, hne, (hsame.size_eq hle).trans hsize, ?_⟩
    rw [hsame.next_eq hle]
    exact ih hrest fun s hs => hl s (by simp [hs])

theorem Path.of_mem {m : Mem} {p q : ℕ} {r : Region} {l : List Region} (h : L.Path m p l q)
    (hr : r ∈ l) : r.addr ≠ 0 ∧ L.size m r.addr = r.size := by
  induction l generalizing p with
  | nil => simp at hr
  | cons s l ih =>
    obtain ⟨-, hne, hsize, hrest⟩ := h
    rcases List.mem_cons.mp hr with rfl | hr
    · exact ⟨hne, hsize⟩
    · exact ih hrest hr

theorem Path.prefix_of_null {m : Mem} {p q : ℕ} {l k : List Region} (h : L.Path m p l q)
    (hk : L.Path m p k 0) : ∃ rest, k = l ++ rest ∧ L.Path m q rest 0 := by
  induction l generalizing p k with
  | nil =>
    have : p = q := h
    exact ⟨k, rfl, this ▸ hk⟩
  | cons r l ih =>
    obtain ⟨hp, hne, hsize, hrest⟩ := h
    cases k with
    | nil =>
      have : p = 0 := hk
      omega
    | cons s k =>
      obtain ⟨hp', _, hsize', hrest'⟩ := hk
      have haddr : r.addr = s.addr := hp.symm.trans hp'
      have hrs : r = s := by
        cases r
        cases s
        simp only [Region.mk.injEq]
        exact ⟨haddr, hsize.symm.trans ((congrArg (L.size m) haddr).trans hsize')⟩
      subst hrs
      obtain ⟨rest, hk', hpath⟩ := ih hrest hrest'
      exact ⟨rest, by simp [hk'], hpath⟩

variable (L)

/-- Pairwise disjoint segments that the address space can hold, and 16-bit sizes even when
neighbours are merged. -/
structure Arena (l : List Region) : Prop where
  disjoint : l.Pairwise Region.Disjoint
  header : ∀ r ∈ l, L.sizeof ≤ r.size
  ne_zero : ∀ r ∈ l, r.addr ≠ 0
  stop_lt : ∀ r ∈ l, r.stop < L.space
  fits : Fits (2 ^ 16) l

variable {L}

theorem Arena.tail {r : Region} {l : List Region} (h : L.Arena (r :: l)) : L.Arena l where
  disjoint := (List.pairwise_cons.mp h.disjoint).2
  header s hs := h.header s (by simp [hs])
  ne_zero s hs := h.ne_zero s (by simp [hs])
  stop_lt s hs := h.stop_lt s (by simp [hs])
  fits := h.fits.mono fun x hx => (covers_cons r l x).mpr (Or.inr hx)

theorem Arena.perm {k l : List Region} (h : L.Arena k) (hp : k.Perm l) : L.Arena l where
  disjoint := (hp.pairwise_iff fun hd => Region.Disjoint.symm hd).mp h.disjoint
  header r hr := h.header r (hp.mem_iff.mpr hr)
  ne_zero r hr := h.ne_zero r (hp.mem_iff.mpr hr)
  stop_lt r hr := h.stop_lt r (hp.mem_iff.mpr hr)
  fits := h.fits.mono fun _ ⟨r, hr, hx⟩ => ⟨r, hp.mem_iff.mpr hr, hx⟩

theorem Arena.disjoint_of_mem {r s : Region} {l : List Region} (h : L.Arena (r :: l))
    (hs : s ∈ l) : r.Disjoint s := (List.pairwise_cons.mp h.disjoint).1 s hs

theorem Arena.nodup {l : List Region} (h : L.Arena l) : (l.map Region.addr).Nodup := by
  rw [List.Nodup, List.pairwise_map]
  have hp := L.sizeof_pos
  refine h.disjoint.imp_of_mem fun {r s} hr hs hd he => ?_
  have hr' := h.header r hr
  have hs' := h.header s hs
  simp only [Region.Disjoint, stop] at hd
  omega

theorem Arena.length_le {l : List Region} (h : L.Arena l) : l.length ≤ L.space := by
  have hsub : (l.map Region.addr).toFinset ⊆ Finset.range L.space := by
    intro a ha
    obtain ⟨r, hr, rfl⟩ := List.mem_map.mp (List.mem_toFinset.mp ha)
    have := h.stop_lt r hr
    simp only [stop] at this
    exact Finset.mem_range.mpr (by omega)
  have hcard := Finset.card_le_card hsub
  rwa [List.toFinset_card_of_nodup h.nodup, List.length_map, Finset.card_range] at hcard

theorem Arena.swap {r s : Region} {l : List Region} (h : L.Arena (r :: s :: l)) :
    L.Arena (s :: r :: l) := h.perm (List.Perm.swap s r l)

theorem Arena.addr_lt {r : Region} {l : List Region} (h : L.Arena l) (hr : r ∈ l) :
    r.addr < L.space := by
  have hstop := h.stop_lt r hr
  simp only [stop] at hstop
  omega

/-- Addresses in a region, and the one behind it, do not wrap. -/
theorem Arena.addr_add {r : Region} {l : List Region} (h : L.Arena l) (hr : r ∈ l) {k : ℕ}
    (hk : k ≤ r.size) : L.addr (r.addr + k) = r.addr + k := by
  have hstop := h.stop_lt r hr
  have hlt : r.addr + k < L.space := by
    simp only [stop] at hstop
    omega
  exact_mod_cast L.addr_of_lt hlt

theorem Arena.merge {r s : Region} {l : List Region} (h : L.Arena (r :: s :: l))
    (ht : r.stop = s.addr) : L.Arena (⟨r.addr, r.size + s.size⟩ :: l) where
  disjoint := by
    refine List.pairwise_cons.mpr ⟨fun t hm => ?_, h.tail.tail.disjoint⟩
    have hrt : r.Disjoint t := h.disjoint_of_mem (by simp [hm])
    have hst : s.Disjoint t := h.tail.disjoint_of_mem hm
    have hp := L.sizeof_pos
    have hs := h.header s (by simp)
    have hsize := h.header t (by simp [hm])
    simp only [Region.Disjoint, stop] at *
    omega
  header := List.forall_mem_cons.mpr
    ⟨Nat.le_add_right_of_le (h.header r (by simp)), h.tail.tail.header⟩
  ne_zero := List.forall_mem_cons.mpr ⟨h.ne_zero r (by simp), h.tail.tail.ne_zero⟩
  stop_lt := by
    refine List.forall_mem_cons.mpr ⟨?_, h.tail.tail.stop_lt⟩
    have hs := h.stop_lt s (by simp)
    simp only [stop] at *
    omega
  fits := by
    refine h.fits.mono fun x hx => ?_
    simp only [covers_cons, ← or_assoc] at *
    refine hx.imp_left ?_
    simp only [Contains, stop] at *
    omega

theorem Arena.join {x r s : Region} {l : List Region} (h : L.Arena (x :: r :: s :: l)) :
    L.Arena (x :: join r (s :: l)) := by
  simp only [Region.join]
  split_ifs with ht
  · have hfront : L.Arena (r :: s :: x :: l) :=
      h.perm ((List.Perm.swap r x _).trans ((List.Perm.swap s x _).cons r))
    exact (hfront.merge ht).swap
  · exact h

/-- `try_combine_with_next` merges a segment with the next one when they touch. -/
theorem tryCombineWithNext_spec {m : Mem} {r s : Region} {l : List Region} {q : ℕ}
    (hp : L.Path m r.addr (r :: s :: l) q) (ha : L.Arena (r :: s :: l))
    (hle : r.stop ≤ s.addr) :
    ∃ m', L.tryCombineWithNext m r.addr = some m' ∧
      L.Path m' r.addr (Region.join r (s :: l)) q ∧ ∀ t, r.Disjoint t → Same m m' t := by
  obtain ⟨-, hne, hsize, hnext, hsne, hssize, hrest⟩ := id hp
  have hr := ha.header r (by simp)
  have hs := ha.header s (by simp)
  have hrs := ha.disjoint_of_mem (s := s) (by simp)
  have haddr : L.addr (L.size m r.addr + r.addr) = r.stop := by
    rw [hsize]
    have := L.addr_of_lt (ha.stop_lt r (by simp))
    simp only [stop] at *
    rw [← this]
    congr 1
    push_cast
    ring
  simp only [tryCombineWithNext, hnext, if_neg hsne, haddr]
  by_cases ht : r.stop = s.addr
  · have hd : ∀ t, r.Disjoint t → Same m (L.setNext m r.addr (L.next m s.addr)) t :=
      fun t => same_setNext m _ hr
    have hsum : r.size + s.size < 2 ^ 16 := (ha.merge ht).fits.size_lt (List.mem_cons_self ..)
    have hssize' := ((hd s hrs).size_eq hs).trans hssize
    rw [if_pos ht, size_setNext, hssize', hsize]
    refine ⟨_, rfl, ?_, fun t hdt => (hd t hdt).trans (same_setSize _ _ hr hdt)⟩
    simp only [Region.join, if_pos ht]
    refine ⟨rfl, hne, ?_, ?_⟩
    · rw [size_setSize, Nat.mod_eq_of_lt hsum]
    · rw [next_setSize, next_setNext, Nat.mod_eq_of_lt (L.next_lt m s.addr)]
      refine hrest.congr fun t ht' => ⟨ha.header t (by simp [ht']), ?_⟩
      have hdt : r.Disjoint t := ha.disjoint_of_mem (by simp [ht'])
      exact (hd t hdt).trans (same_setSize _ _ hr hdt)
  · have hlt : r.stop < s.addr := by omega
    rw [if_neg ht, if_pos hlt]
    refine ⟨m, rfl, ?_, fun t _ => Same.refl m t⟩
    simp only [Region.join, if_neg ht]
    exact hp

theorem Arena.before {r s : Region} {l : List Region} (h : L.Arena (r :: l)) (hs : s ∈ l)
    (hlt : s.addr < r.addr) : s.stop ≤ r.addr := by
  have hd := h.disjoint_of_mem hs
  have hr := h.header r (by simp)
  have hp := L.sizeof_pos
  simp only [Region.Disjoint, stop] at *
  omega

theorem Arena.lt_of_not_lt {r s : Region} {l : List Region} (h : L.Arena (s :: l)) (hr : r ∈ l)
    (hn : ¬ s.addr < r.addr) : r.addr < s.addr := by
  have hd := h.disjoint_of_mem hr
  have hrs := h.header r (by simp [hr])
  have hss := h.header s (by simp)
  have hp := L.sizeof_pos
  simp only [Region.Disjoint, stop] at hd
  omega

theorem Path.setNext {m : Mem} {r : Region} {l : List Region} {p q : ℕ}
    (hp : L.Path m p l q) (ha : L.Arena (r :: l)) (hlt : p < L.space)
    (hsize : L.size m r.addr = r.size) :
    L.Path (L.setNext m r.addr p) r.addr (r :: l) q := by
  refine ⟨rfl, ha.ne_zero r (by simp), by rwa [size_setNext], ?_⟩
  rw [next_setNext, Nat.mod_eq_of_lt hlt]
  exact hp.congr fun t ht => ⟨ha.header t (by simp [ht]),
    same_setNext m p (ha.header r (by simp)) (ha.disjoint_of_mem ht)⟩

variable (L)

/-- The pointer that ends the list after `s` has been added to `l`. Behind the last
segment `add_segment` leaves the `next` field of `s` as it finds it. -/
def tailLink (m : Mem) (s : Region) (l : List Region) : ℕ :=
  if l = [] ∨ ∃ t ∈ l, s.addr < t.addr then 0 else L.next m s.addr

variable {L}

theorem tailLink_cons {m : Mem} {s r t : Region} {l : List Region} (h : r.addr < s.addr) :
    L.tailLink m s (r :: t :: l) = L.tailLink m s (t :: l) := by
  have hr : ¬ s.addr < r.addr := by omega
  simp [tailLink, hr]

theorem addSegmentLoop_last {m : Mem} (pool fuel : ℕ) {s pre : Region}
    (hp : L.Path m pre.addr [pre] 0) (ha : L.Arena [s, pre]) (hlt : pre.addr < s.addr)
    (hsize : L.size m s.addr = s.size) :
    ∃ m', L.addSegmentLoop pool s.addr (fuel + 1) pre.addr m = some (pool, m') ∧
      L.Path m' pre.addr (Region.insert s [pre]) (L.tailLink m s [pre]) ∧
      ∀ t, s.Disjoint t → (∀ r ∈ [pre], r.Disjoint t) → Same m m' t := by
  obtain ⟨-, hpre, hpsize, hnil⟩ := hp
  have hnil : L.next m pre.addr = 0 := hnil
  have hss : s.addr < L.space := ha.addr_lt (by simp)
  have hs : L.Path m s.addr [s] (L.next m s.addr) :=
    ⟨rfl, ha.ne_zero s (by simp), hsize, rfl⟩
  have hle := ha.before (by simp) hlt
  obtain ⟨m', hm', hpath, hframe⟩ :=
    tryCombineWithNext_spec (hs.setNext ha.swap hss hpsize) ha.swap hle
  refine ⟨m', ?_, ?_, fun t hst hl => ?_⟩
  · simp [addSegmentLoop, hnil, hm']
  · have hlink : L.tailLink m s [pre] = L.next m s.addr := by
      have hn : ¬ s.addr < pre.addr := by omega
      simp [tailLink, hn]
    simp only [Region.insert, if_neg (Nat.not_lt.mpr hlt.le), hlink]
    exact hpath
  · have hpt := hl pre (by simp)
    exact (same_setNext m _ (ha.header pre (by simp)) hpt).trans (hframe t hpt)

/-- Insertion between `pre` and `c`: first `s` is combined with `c`, then `pre` with the
result. -/
theorem addSegmentLoop_between {m : Mem} (pool fuel : ℕ) {s pre c : Region} {l : List Region}
    (hp : L.Path m pre.addr (pre :: c :: l) 0) (ha : L.Arena (s :: pre :: c :: l))
    (hlt : pre.addr < s.addr) (hsc : s.addr < c.addr) (hsize : L.size m s.addr = s.size) :
    ∃ m', L.addSegmentLoop pool s.addr (fuel + 1) pre.addr m = some (pool, m') ∧
      L.Path m' pre.addr (Region.insert s (pre :: c :: l)) (L.tailLink m s (pre :: c :: l)) ∧
      ∀ t, s.Disjoint t → (∀ r ∈ pre :: c :: l, r.Disjoint t) → Same m m' t := by
  obtain ⟨hc, hcne, -, hrest⟩ := hp.next_cons
  obtain ⟨-, hpre, hpsize, -⟩ := hp
  have hcs : c.addr < L.space := ha.addr_lt (by simp)
  have hss : s.addr < L.space := ha.addr_lt (by simp)
  have haPre : L.Arena (pre :: s :: c :: l) := ha.swap
  have haS : L.Arena (s :: c :: l) := haPre.tail
  have hsle : s.stop ≤ c.addr := haS.swap.before (by simp) hsc
  obtain ⟨m₂, hm₂, hpath₂, hframe₂⟩ :=
    tryCombineWithNext_spec (hrest.setNext haS hcs hsize) haS hsle
  have hfirst : ∀ t, s.Disjoint t → Same m m₂ t := fun t hst =>
    (same_setNext m _ (ha.header s (by simp)) hst).trans (hframe₂ t hst)
  have hpd : s.Disjoint pre := ha.disjoint_of_mem (by simp)
  have hpsize₂ : L.size m₂ pre.addr = pre.size :=
    ((hfirst pre hpd).size_eq (ha.header pre (by simp))).trans hpsize
  have hpath₃ := hpath₂.setNext haPre.join hss hpsize₂
  have hple : pre.stop ≤ s.addr := ha.before (by simp) hlt
  obtain ⟨t, k, hjoin, hta⟩ := join_eq_cons s (c :: l)
  have haJoin := haPre.join
  rw [hjoin] at hpath₃ haJoin
  obtain ⟨m', hm', hpath, hframe⟩ := tryCombineWithNext_spec hpath₃ haJoin (hta ▸ hple)
  refine ⟨m', ?_, ?_, fun u hsu hl => ?_⟩
  · simp [addSegmentLoop, hc, hcne, hsc, hm₂, hm']
  · have hlink : L.tailLink m s (pre :: c :: l) = 0 := by simp [tailLink, hsc]
    simp only [Region.insert, if_neg (Nat.not_lt.mpr hlt.le), if_pos hsc, hlink, hjoin]
    exact hpath
  · have hpu := hl pre (by simp)
    exact ((hfirst u hsu).trans (same_setNext m₂ _ (ha.header pre (by simp)) hpu)).trans
      (hframe u hpu)

theorem insert_cons_of_lt {s pre c : Region} {l : List Region} (hsp : Spaced (pre :: c :: l))
    (hlt : pre.addr < s.addr) (hcs : c.addr < s.addr) :
    Region.insert s (pre :: c :: l) = pre :: Region.insert s (c :: l) := by
  obtain ⟨hpre, hrest⟩ := List.pairwise_cons.mp hsp
  have hfar : ∀ t ∈ Region.insert s (c :: l), pre.stop < t.addr := by
    intro t ht
    have hpc := hpre c (by simp)
    have hge := le_addr_of_mem_insert (n := c.addr) hcs.le (fun u hu => ?_) ht
    · omega
    · rcases List.mem_cons.mp hu with rfl | hu
      · exact le_rfl
      · have := (List.pairwise_cons.mp hrest).1 u hu
        simp only [stop] at this
        omega
  have hn : ¬ s.addr < pre.addr := by omega
  rw [← join_of_lt hfar]
  exact if_neg hn

theorem addSegmentLoop_spec {m : Mem} (pool : ℕ) {fuel : ℕ} {s pre : Region} {l : List Region}
    (hp : L.Path m pre.addr (pre :: l) 0) (ha : L.Arena (s :: pre :: l))
    (hsp : Spaced (pre :: l)) (hlt : pre.addr < s.addr) (hsize : L.size m s.addr = s.size)
    (hf : l.length < fuel) :
    ∃ m', L.addSegmentLoop pool s.addr fuel pre.addr m = some (pool, m') ∧
      L.Path m' pre.addr (Region.insert s (pre :: l)) (L.tailLink m s (pre :: l)) ∧
      ∀ t, s.Disjoint t → (∀ r ∈ pre :: l, r.Disjoint t) → Same m m' t := by
  induction l generalizing fuel pre with
  | nil =>
    obtain ⟨fuel, rfl⟩ := Nat.exists_eq_add_one_of_ne_zero (Nat.ne_zero_of_lt hf)
    exact addSegmentLoop_last pool fuel hp ha hlt hsize
  | cons c l ih =>
    obtain ⟨fuel, rfl⟩ := Nat.exists_eq_add_one_of_ne_zero (Nat.ne_zero_of_lt hf)
    by_cases hsc : s.addr < c.addr
    · exact addSegmentLoop_between pool fuel hp ha hlt hsc hsize
    · obtain ⟨hc, hcne, -, hrest⟩ := hp.next_cons
      obtain ⟨-, hpre, hpsize, -⟩ := hp
      have hlt' : c.addr < s.addr := ha.lt_of_not_lt (by simp) hsc
      have hspC := (List.pairwise_cons.mp hsp).2
      obtain ⟨m', hm', hpath, hframe⟩ := ih hrest ha.swap.tail hspC hlt' (by simpa using hf)
      have hpd : s.Disjoint pre := ha.disjoint_of_mem (by simp)
      have hpl : ∀ r ∈ c :: l, r.Disjoint pre := fun r hr =>
        (ha.tail.disjoint_of_mem hr).symm
      have hsame := hframe pre hpd hpl
      have hhdr := ha.header pre (by simp)
      refine ⟨m', ?_, ?_, fun t hst hl => hframe t hst fun r hr => hl r (by simp [hr])⟩
      · simp [addSegmentLoop, hc, hcne, hsc, hm']
      · rw [insert_cons_of_lt hsp hlt hlt', tailLink_cons hlt]
        refine ⟨rfl, hpre, (hsame.size_eq hhdr).trans hpsize, ?_⟩
        rw [hsame.next_eq hhdr, hc]
        exact hpath

/-- `add_segment` inserts the segment in address order, merged with the neighbours it
touches, and changes no byte outside the segment and the list. -/
theorem addSegment_spec {m : Mem} {pool : ℕ} {s : Region} {l : List Region}
    (hp : L.Path m pool l 0) (ha : L.Arena (s :: l)) (hsp : Spaced l)
    (hsize : L.size m s.addr = s.size) :
    ∃ p' m', L.addSegment m pool s.addr = some (p', m') ∧
      L.Path m' p' (Region.insert s l) (L.tailLink m s l) ∧
      ∀ t, s.Disjoint t → (∀ r ∈ l, r.Disjoint t) → Same m m' t := by
  have hs := ha.header s (by simp)
  cases l with
  | nil =>
    have hnull : pool = 0 := hp
    refine ⟨s.addr, L.setNext m s.addr 0, by simp [addSegment, hnull], ?_, fun t hst _ =>
      same_setNext m 0 hs hst⟩
    have hnil : L.Path m 0 [] 0 := rfl
    simpa [Region.insert, tailLink] using hnil.setNext ha L.space_pos hsize
  | cons r l =>
    have hpool : pool = r.addr := hp.1
    have hne : r.addr ≠ 0 := hp.2.1
    rw [hpool] at hp ⊢
    by_cases hlt : s.addr < r.addr
    · have hrs : r.addr < L.space := ha.addr_lt (by simp)
      have hle : s.stop ≤ r.addr := ha.swap.before (by simp) hlt
      obtain ⟨m', hm', hpath, hframe⟩ :=
        tryCombineWithNext_spec (hp.setNext ha hrs hsize) ha hle
      refine ⟨s.addr, m', by simp [addSegment, hne, hlt, hm'], ?_, fun t hst _ => ?_⟩
      · have hlink : L.tailLink m s (r :: l) = 0 := by simp [tailLink, hlt]
        simp only [Region.insert, if_pos hlt, hlink]
        exact hpath
      · exact (same_setNext m _ hs hst).trans (hframe t hst)
    · have hlt' : r.addr < s.addr := ha.lt_of_not_lt (by simp) hlt
      have hfuel : l.length < L.space + 1 := by
        have := ha.tail.length_le
        simp only [List.length_cons] at this
        omega
      obtain ⟨m', hm', hpath, hframe⟩ := addSegmentLoop_spec r.addr hp ha hsp hlt' hsize hfuel
      refine ⟨r.addr, m', ?_, hpath, hframe⟩
      rw [addSegment, if_neg hne, if_neg hlt]
      exact hm'

end EmbeddedTemplate.MemPool.Layout
