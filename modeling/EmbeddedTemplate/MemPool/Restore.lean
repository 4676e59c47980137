import EmbeddedTemplate.MemPool.Runs

/-! Freeing all blocks of a series of allocations, in any order. -/
namespace EmbeddedTemplate.MemPool

open ByteMem Region Layout Transition

variable {L : Layout}

theorem segmentCountLoop_of_path {m : Mem} {p fuel ret : ℕ} {l : List Region}
    (h : L.Path m p l 0) (hf : l.length < fuel) (hret : ret < 2 ^ 16) :
    L.segmentCountLoop m fuel p ret = some ((ret + l.length) % 2 ^ 16) := by
  induction l generalizing p fuel ret with
  | nil =>
    have hnull : p = 0 := h
    obtain ⟨fuel, rfl⟩ := Nat.exists_eq_add_one_of_ne_zero (Nat.ne_zero_of_lt hf)
    rw [show (ret + ([] : List Region).length) % 2 ^ 16 = ret from Nat.mod_eq_of_lt hret]
    simp [segmentCountLoop, hnull]
  | cons r l ih =>
    obtain ⟨rfl, hne, -, hrest⟩ := h
    obtain ⟨fuel, rfl⟩ := Nat.exists_eq_add_one_of_ne_zero (Nat.ne_zero_of_lt hf)
    simp only [segmentCountLoop, if_neg hne]
    rw [ih hrest (by simpa using hf) (Nat.mod_lt _ (by decide)), Nat.mod_add_mod, List.length_cons,
      Nat.add_assoc, Nat.add_comm 1]

theorem Inv.getSegmentCount_eq {s : State} {l : List Region} (h : Inv L s l 0) :
    L.getSegmentCount s.mem s.pool = some (l.length % 2 ^ 16) := by
  have hlen := h.arena.left.length_le
  have hloop := segmentCountLoop_of_path h.path (Nat.lt_succ_of_le hlen) (Nat.two_pow_pos 16)
  rwa [Nat.zero_add] at hloop

/-- The pool as the owner of `blocks` sees it, who has cut them from the segments `l₀`. -/
def State.ownedBy (s : State) (blocks : List ℕ) (l₀ : List Region) : State :=
  { s with live := blocks, buffers := l₀ }

/-- The list of a well-formed pool is a pool of its own, with no block cut from it yet. -/
theorem inv_of_wellFormed {s : State} (h : WellFormed L s)
    (hbuf : ∀ b ∈ s.buffers, b.stop < L.space) : ∃ l, Inv L (s.ownedBy [] l) l 0 := by
  obtain ⟨l, hl, hsp, hhdr, hin, -⟩ := h
  have hpath := path_of_walk hl
  have hpos := L.sizeof_pos
  have hsize : ∀ r ∈ l, r.size < 2 ^ 16 := by
    intro r hr
    rw [← (hpath.of_mem hr).2]
    exact load_lt s.mem 2 _
  have hfits : Fits (2 ^ 16) l := hsp.fits (Nat.two_pow_pos 16) hsize
  have hstop : ∀ r ∈ l, r.stop < L.space := by
    intro r hr
    have hle := hhdr r hr
    have hlast : r.Contains (r.stop - 1) := by
      simp only [Contains, stop]
      omega
    obtain ⟨b, hb, hlo, hhi⟩ := hin r hr _ (mem_range'_iff.mpr hlast)
    have := hbuf b hb
    omega
  have hne : ∀ r ∈ l, r.addr ≠ 0 := fun r hr => (hpath.of_mem hr).1
  have harena : L.Arena l := ⟨hsp.disjoint, hhdr, hne, hstop, hfits⟩
  have hnil : l ++ State.blocks L (s.ownedBy [] l) = l := List.append_nil l
  refine ⟨l, hpath, hsp, hnil.symm ▸ harena, ?_, ?_, ?_, hne, hstop, hfits⟩
  · rw [hnil]
    exact fun x hx => hx
  · simp [State.ownedBy]
  · simp [State.ownedBy]

theorem step_malloc_ownedBy {s s' : State} {n : ℕ} (blocks : List ℕ) (l₀ : List Region)
    (h : step L s (.malloc n) = some s') :
    ∃ q, s'.live = q ++ s.live ∧
      step L (s.ownedBy blocks l₀) (.malloc n) = some (s'.ownedBy (q ++ blocks) l₀) := by
  simp only [step, Option.bind_eq_bind, Option.bind_eq_some_iff, Option.some.injEq] at h
  obtain ⟨r, hr, rfl⟩ := h
  by_cases hret : r.ret = 0
  · refine ⟨[], by simp [hret], ?_⟩
    simp [step, State.ownedBy, hr, hret]
  · refine ⟨[r.ret], by simp [hret], ?_⟩
    simp [step, State.ownedBy, hr, hret]

theorem step_free_ownedBy {s s' : State} {p : ℕ} {blocks : List ℕ} {l₀ : List Region}
    (h : step L (s.ownedBy blocks l₀) (.free p) = some s') :
    ∃ t, step L s (.free p) = some t ∧ s' = t.ownedBy (blocks.erase p) l₀ := by
  simp only [step, State.ownedBy, Option.bind_eq_bind, Option.bind_eq_some_iff,
    Option.some.injEq] at h
  obtain ⟨⟨pool, mem⟩, hr, rfl⟩ := h
  exact ⟨⟨mem, pool, s.live.erase p, s.buffers⟩, by simp [step, hr], rfl⟩

theorem mallocs_balanced {s t : State} {blocks sizes : List ℕ} {l₀ : List Region}
    (h : Balanced L (s.ownedBy blocks l₀))
    (hfit : AllSteps (step L) (FitSafe L) s (sizes.map Op.malloc))
    (hrun : run (step L) s (sizes.map Op.malloc) = some t) :
    ∃ q, t.live = q ++ s.live ∧ Balanced L (t.ownedBy (q ++ blocks) l₀) := by
  induction sizes generalizing s blocks with
  | nil =>
    obtain rfl : s = t := Option.some.inj hrun
    exact ⟨[], rfl, h⟩
  | cons n sizes ih =>
    obtain ⟨s', hs', hrest⟩ := run_cons.mp hrun
    obtain ⟨q, hq, hstep⟩ := step_malloc_ownedBy blocks l₀ hs'
    have hfirst : FitSafe L (s.ownedBy blocks l₀) (.malloc n) := hfit.1
    obtain ⟨u, hu, hbal, -⟩ := malloc_balanced h hfirst
    obtain rfl := Option.some.inj (hu.symm.trans hstep)
    obtain ⟨q', hq', hbal'⟩ := ih hbal (hfit.tail hs') hrest
    exact ⟨q' ++ q, by simp [hq', hq], by simpa using hbal'⟩

theorem frees_balanced {s : State} {blocks order : List ℕ} {l₀ : List Region}
    (h : Balanced L (s.ownedBy blocks l₀)) (hperm : order.Perm blocks)
    (hsafe : AllSteps (step L) (ListSafe L) s (order.map Op.free)) :
    ∃ t, run (step L) s (order.map Op.free) = some t ∧ Balanced L (t.ownedBy [] l₀) := by
  induction order generalizing s blocks with
  | nil =>
    obtain rfl := hperm.nil_eq
    exact ⟨s, rfl, h⟩
  | cons p order ih =>
    obtain ⟨hp, hrest⟩ := List.cons_perm_iff_perm_erase.mp hperm
    obtain ⟨l, hinv, hcons⟩ := h
    obtain ⟨u, hu, hinv', hcons', -⟩ := free_conserves hinv hcons hp
    rw [hinv.tailLink_eq_zero (b := blockOf L (s.ownedBy blocks l₀).mem p)
      (Or.imp_right Or.inr hsafe.1)] at hinv'
    obtain ⟨s', hs', rfl⟩ := step_free_ownedBy hu
    obtain ⟨t, ht, hbal⟩ := ih ⟨_, hinv', hcons'⟩ hrest (hsafe.tail hs')
    exact ⟨t, run_cons.mpr ⟨s', hs', ht⟩, hbal⟩

theorem Balanced.restored {s : State} {l₀ : List Region} (hl₀ : Spaced l₀)
    (hpos : ∀ r ∈ l₀, 0 < r.size) (h : Balanced L (s.ownedBy [] l₀)) :
    Inv L (s.ownedBy [] l₀) l₀ 0 := by
  obtain ⟨l, hinv, hcons⟩ := h
  have hnil : l ++ State.blocks L (s.ownedBy [] l₀) = l := List.append_nil l
  have hcov : ∀ x, Covers l x → Covers l₀ x := by
    have := hinv.covered
    rwa [hnil] at this
  have htotal : total l₀ ≤ total l := by
    have hzero : total (State.blocks L (s.ownedBy [] l₀)) = 0 := rfl
    have hbuf : total (s.ownedBy [] l₀).buffers = total l₀ := rfl
    omega
  have hlpos : ∀ r ∈ l, 0 < r.size := fun r hr =>
    L.sizeof_pos.trans_le (hinv.arena.left.header r hr)
  have heq : l = l₀ := hinv.spaced.eq_of_covers hl₀ hlpos hpos fun x =>
    ⟨hcov x, covers_of_total_le hinv.spaced.disjoint hcov htotal⟩
  exact heq ▸ hinv

/-- A series of allocations from a well-formed pool, each of which meets `FitSafe`, and then
the blocks freed in any order in which each call meets `ListSafe`: the free list is the
original one again. -/
theorem frees_restore (L : Layout) (s₀ s : State) (hwf : WellFormed L s₀)
    (hbuf : ∀ b ∈ s₀.buffers, b.stop < L.space) (sizes blocks order : List ℕ)
    (hrun : run (step L) s₀ (sizes.map Op.malloc) = some s) (hlive : s.live = blocks ++ s₀.live)
    (hperm : order.Perm blocks)
    (hfit : AllSteps (step L) (FitSafe L) s₀ (sizes.map Op.malloc))
    (hsafe : AllSteps (step L) (ListSafe L) s (order.map Op.free)) :
    ∃ t, run (step L) s (order.map Op.free) = some t ∧
      (∃ l, L.freeList s₀.mem s₀.pool = some l ∧ L.freeList t.mem t.pool = some l) ∧
      (∃ n, L.getFreeSize s₀.mem s₀.pool = some n ∧ L.getFreeSize t.mem t.pool = some n) ∧
      ∃ n, L.getSegmentCount s₀.mem s₀.pool = some n ∧ L.getSegmentCount t.mem t.pool = some n := by
  obtain ⟨l₀, hinv₀⟩ := inv_of_wellFormed hwf hbuf
  obtain ⟨q, hq, hbal⟩ := mallocs_balanced ⟨l₀, hinv₀, rfl⟩ hfit hrun
  have hqb : q = blocks := List.append_cancel_right (hq.symm.trans hlive)
  rw [List.append_nil, hqb] at hbal
  obtain ⟨t, ht, hend⟩ := frees_balanced hbal hperm hsafe
  have hinv := hend.restored hinv₀.spaced fun r hr =>
    L.sizeof_pos.trans_le (hinv₀.arena.left.header r hr)
  exact ⟨t, ht, ⟨l₀, hinv₀.freeList_eq, hinv.freeList_eq⟩,
    ⟨_, hinv₀.getFreeSize_eq, hinv.getFreeSize_eq⟩,
    ⟨_, hinv₀.getSegmentCount_eq, hinv.getSegmentCount_eq⟩⟩

/-- The pool after `mem_pool_add_buffer` with 200 bytes at 1000. -/
def oneBuffer : State :=
  ⟨Layout.lp64.setNext (Layout.lp64.setSize (fun _ => 0) 1000 200) 1000 0, 1000, [], [⟨1000, 200⟩]⟩

/-- Two blocks of a segment with a rest, the second freed first. -/
theorem frees_restore_two :
    ∃ s ∈ run (step .lp64) oneBuffer [.malloc 10, .malloc 20], s.live = [1042, 1016] ∧
      ∃ t ∈ run (step .lp64) s [.free 1042, .free 1016],
        Layout.lp64.freeList t.mem t.pool = some [⟨1000, 200⟩] := by
  have hgood : ∀ s ∈ run (step .lp64) oneBuffer [.malloc 10, .malloc 20], s.live = [1042, 1016] ∧
      AllSteps (step .lp64) (ListSafe .lp64) s [.free 1042, .free 1016] := by decide +kernel
  have hsome : (run (step .lp64) oneBuffer [.malloc 10, .malloc 20]).isSome := by decide +kernel
  have hlist : Layout.lp64.freeList oneBuffer.mem oneBuffer.pool = some [⟨1000, 200⟩] := by
    decide +kernel
  obtain ⟨s, hs⟩ := Option.isSome_iff_exists.mp hsome
  obtain ⟨hlive, hsafe⟩ := hgood s hs
  obtain ⟨t, ht, ⟨l, hl, hl'⟩, -⟩ := frees_restore .lp64 oneBuffer s (by decide +kernel)
    (by decide +kernel) [10, 20] [1042, 1016] [1042, 1016] hs hlive (List.Perm.refl _)
    (by decide +kernel) hsafe
  exact ⟨s, hs, hlive, t, ht, hl'.trans (hl.symm.trans hlist)⟩

/-- With the whole segment handed out, the block freed second lies above the first and
keeps its poison pointer: the list does not end. -/
theorem frees_not_restore :
    WellFormed .lp64 oneBuffer ∧ Layout.lp64.getSegmentCount oneBuffer.mem oneBuffer.pool = some 1 ∧
      ∃ s ∈ run (step .lp64) oneBuffer [.malloc 10, .malloc 158], s.live = [1042, 1016] ∧
        ∃ t ∈ run (step .lp64) s [.free 1016, .free 1042],
          Layout.lp64.next t.mem 1000 = Layout.lp64.poison ∧
          Layout.lp64.freeList t.mem t.pool ≠
            Layout.lp64.freeList oneBuffer.mem oneBuffer.pool ∧
          Layout.lp64.getSegmentCount t.mem t.pool = some 2 := by
  decide +kernel

end EmbeddedTemplate.MemPool
