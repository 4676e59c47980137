import EmbeddedTemplate.MemPool.Invariant

/-! The free list and the bytes of the pool along every run of calls. -/
namespace EmbeddedTemplate.MemPool

open ByteMem Region Layout Transition

variable {L : Layout}

theorem walk_of_path {m : Mem} {p fuel : ℕ} {l : List Region} (h : L.Path m p l 0)
    (hf : l.length < fuel) : L.walk m fuel p = some l := by
  induction l generalizing p fuel with
  | nil =>
    have hnull : p = 0 := h
    obtain ⟨fuel, rfl⟩ := Nat.exists_eq_add_one_of_ne_zero (Nat.ne_zero_of_lt hf)
    simp [walk, hnull]
  | cons r l ih =>
    obtain ⟨rfl, hne, hsize, hrest⟩ := h
    obtain ⟨fuel, rfl⟩ := Nat.exists_eq_add_one_of_ne_zero (Nat.ne_zero_of_lt hf)
    simp [walk, hne, hsize, ih hrest (by simpa using hf)]

theorem path_of_walk {m : Mem} {p fuel : ℕ} {l : List Region} (h : L.walk m fuel p = some l) :
    L.Path m p l 0 := by
  induction fuel generalizing p l with
  | zero => simp [walk] at h
  | succ fuel ih =>
    simp only [walk] at h
    split_ifs at h with hnull
    · obtain rfl := Option.some.inj h
      exact hnull
    · obtain ⟨k, hk, rfl⟩ := Option.map_eq_some_iff.mp h
      exact ⟨rfl, hnull, rfl, ih hk⟩

theorem Inv.freeList_eq {s : State} {l : List Region} (h : Inv L s l 0) :
    L.freeList s.mem s.pool = some l :=
  walk_of_path h.path (Nat.lt_succ_of_le h.arena.left.length_le)

theorem mem_range'_iff {r : Region} {x : ℕ} : x ∈ List.range' r.addr r.size ↔ r.Contains x := by
  simp [List.mem_range'_1, Contains, stop]

theorem Inv.wellFormed {s : State} {l : List Region} (h : Inv L s l 0) : WellFormed L s := by
  refine ⟨l, h.freeList_eq, h.spaced, h.arena.left.header, ?_, ?_⟩
  · intro r hr x hx
    exact h.covered x ⟨r, by simp [hr], mem_range'_iff.mp hx⟩
  · exact fun r hr b hb => (List.pairwise_append.mp h.arena.disjoint).2.2 r hr b hb

variable (L)

/-- A segment goes in front of some free segment, or its `next` field is null already:
behind the last segment `add_segment` does not write it. A request does not wrap around
16 bits to less than a header. -/
def ListSafe (s : State) : Op → Prop
  | .addBuffer buffer _ => s.pool = 0 ∨ L.next s.mem buffer = 0 ∨
      ∃ l ∈ L.freeList s.mem s.pool, ∃ r ∈ l, buffer < r.addr
  | .malloc n => s.pool = 0 ∨ L.sizeof ≤ L.request n
  | .free p => s.pool = 0 ∨ ∃ l ∈ L.freeList s.mem s.pool, ∃ r ∈ l, L.segOf p < r.addr
  | .write _ _ => True

instance (s : State) : DecidablePred (ListSafe L s)
  | .addBuffer _ _ => inferInstanceAs (Decidable (_ ∨ _ ∨ _))
  | .malloc _ => inferInstanceAs (Decidable (_ ∨ _))
  | .free _ => inferInstanceAs (Decidable (_ ∨ _))
  | .write _ _ => inferInstanceAs (Decidable True)

variable {L}

theorem Inv.tailLink_eq_zero {s : State} {l : List Region} {b : Region} (h : Inv L s l 0)
    (hsafe : s.pool = 0 ∨ L.next s.mem b.addr = 0 ∨
      ∃ l ∈ L.freeList s.mem s.pool, ∃ r ∈ l, b.addr < r.addr) : L.tailLink s.mem b l = 0 := by
  unfold tailLink
  split_ifs with hcond
  · rfl
  · push Not at hcond
    rcases hsafe with hnull | hnext | ⟨k, hk, r, hr, hlt⟩
    · cases l with
      | nil => exact absurd rfl hcond.1
      | cons r l => exact absurd (h.path.1.symm.trans hnull) h.path.2.1
    · exact hnext
    · have hkl : k = l := Option.some.inj (hk.symm.trans h.freeList_eq)
      have := hcond.2 r (hkl ▸ hr)
      omega

theorem step_inv {s : State} {op : Op} (h : ∃ l, Inv L s l 0)
    (hop : Legal L s op ∧ ListSafe L s op) :
    ∃ s', step L s op = some s' ∧ ∃ l, Inv L s' l 0 := by
  obtain ⟨l, h⟩ := h
  obtain ⟨hlegal, hsafe⟩ := hop
  cases op with
  | addBuffer buffer size =>
    obtain ⟨s', hs', hinv, -, -⟩ := addBuffer_inv h hlegal
    rw [h.tailLink_eq_zero (b := ⟨buffer, size⟩) hsafe] at hinv
    exact ⟨s', hs', _, hinv⟩
  | malloc size =>
    rcases malloc_inv h hsafe with hs' | ⟨s', b, l', hs', -, hinv, -, -⟩
    · exact ⟨s, hs', l, h⟩
    · exact ⟨s', hs', l', hinv⟩
  | free p =>
    obtain ⟨s', hs', hinv, -, -⟩ := free_inv h hlegal
    rw [h.tailLink_eq_zero (b := blockOf L s.mem p) (Or.imp_right Or.inr hsafe)] at hinv
    exact ⟨s', hs', _, hinv⟩
  | write a v => exact ⟨_, rfl, l, (write_inv h hlegal).1⟩

/-- Every run of legal calls that meet `ListSafe` returns, with a well-formed free list. -/
theorem run_wellFormed (L : Layout) (mem : Mem) (ops : List Op)
    (h : AllSteps (step L) (fun s op => Legal L s op ∧ ListSafe L s op) (State.empty mem) ops) :
    ∃ t, run (step L) (State.empty mem) ops = some t ∧ WellFormed L t := by
  obtain ⟨t, ht, l, hinv⟩ := run_progress (I := fun s => ∃ l, Inv L s l 0)
    (fun s op hI hop => step_inv hI hop) ⟨[], inv_empty mem⟩ h
  exact ⟨t, ht, hinv.wellFormed⟩

/-- A block is taken from the head of the list and freed in front of it again. -/
theorem run_wellFormed_split_and_merge :
    ∃ t, run (step .lp64) (State.empty fun _ => 0)
        [.addBuffer 1000 200, .malloc 10, .malloc 20, .free 1016] = some t ∧
      WellFormed .lp64 t :=
  run_wellFormed .lp64 (fun _ => 0) _ (by decide +kernel)

/-- A block freed behind the last free segment stays linked to the poison pointer. -/
theorem freed_behind_last_not_wellFormed :
    AllSteps (step .lp64) (Legal .lp64) (State.empty fun _ => 0)
        [.addBuffer 1000 100, .malloc 84, .addBuffer 500 100, .free 1016] ∧
      ∃ t ∈ run (step .lp64) (State.empty fun _ => 0)
          [.addBuffer 1000 100, .malloc 84, .addBuffer 500 100, .free 1016],
        ¬ WellFormed .lp64 t ∧ t.pool = 500 ∧ Layout.lp64.next t.mem 500 = 1000 ∧
          Layout.lp64.next t.mem 1000 = Layout.lp64.poison := by
  decide +kernel

theorem freeSizeLoop_of_path {m : Mem} {p fuel ret : ℕ} {l : List Region}
    (h : L.Path m p l 0) (hf : l.length < fuel) (hret : ret < 2 ^ 16) :
    L.freeSizeLoop m fuel p ret = some ((ret + total l) % 2 ^ 16) := by
  induction l generalizing p fuel ret with
  | nil =>
    have hnull : p = 0 := h
    obtain ⟨fuel, rfl⟩ := Nat.exists_eq_add_one_of_ne_zero (Nat.ne_zero_of_lt hf)
    rw [show (ret + total []) % 2 ^ 16 = ret from Nat.mod_eq_of_lt hret]
    simp [freeSizeLoop, hnull]
  | cons r l ih =>
    obtain ⟨rfl, hne, hsize, hrest⟩ := h
    obtain ⟨fuel, rfl⟩ := Nat.exists_eq_add_one_of_ne_zero (Nat.ne_zero_of_lt hf)
    simp only [freeSizeLoop, if_neg hne, hsize]
    rw [ih hrest (by simpa using hf) (Nat.mod_lt _ (by decide)), Nat.mod_add_mod, total_cons,
      Nat.add_assoc]

theorem Inv.getFreeSize_eq {s : State} {l : List Region} (h : Inv L s l 0) :
    L.getFreeSize s.mem s.pool = some (total l % 2 ^ 16) := by
  have hlen := h.arena.left.length_le
  have hloop := freeSizeLoop_of_path h.path (Nat.lt_succ_of_le hlen) (Nat.two_pow_pos 16)
  rwa [Nat.zero_add] at hloop

variable (L)

def Conserved (s : State) : Prop :=
  ∃ n ∈ L.getFreeSize s.mem s.pool, n + total (s.blocks L) = total s.buffers

instance (s : State) : Decidable (Conserved L s) :=
  inferInstanceAs (Decidable (∃ _ ∈ L.getFreeSize s.mem s.pool, _))

/-- A request that does not wrap around to less than a header and whose first fit is cut
or is the last segment of the list. -/
def FitSafe (s : State) : Op → Prop
  | .malloc n => (s.pool = 0 ∨ L.sizeof ≤ L.request n) ∧
      ∀ l ∈ L.freeList s.mem s.pool, KeepsRest (L.request n) (2 * L.allignSizeof) l
  | _ => True

instance (s : State) : DecidablePred (FitSafe L s)
  | .malloc _ => inferInstanceAs (Decidable (_ ∧ _))
  | .addBuffer _ _ => inferInstanceAs (Decidable True)
  | .free _ => inferInstanceAs (Decidable True)
  | .write _ _ => inferInstanceAs (Decidable True)

variable {L}

/-- When no byte is missing, a list that runs past its last segment cannot be well
formed: there is no room for another segment in the buffers. -/
theorem Inv.link_eq_zero {s : State} {l : List Region} {q : ℕ} (h : Inv L s l q)
    (hcons : total l + total (s.blocks L) = total s.buffers) (hwf : WellFormed L s) : q = 0 := by
  obtain ⟨k, hk, hspaced, hhdr, hin, hlive⟩ := hwf
  obtain ⟨rest, rfl, hpath⟩ := h.path.prefix_of_null (path_of_walk hk)
  cases rest with
  | nil => exact hpath
  | cons r rest =>
    exfalso
    have hpos := L.sizeof_pos
    have hr := hhdr r (by simp)
    have hcov : ∀ x, Covers ((l ++ r :: rest) ++ s.blocks L) x → Covers s.buffers x := by
      intro x hx
      rcases (covers_append _ _ x).mp hx with ⟨t, ht, hxt⟩ | hx
      · exact hin t ht x (mem_range'_iff.mpr hxt)
      · exact h.covered x ((covers_append _ _ x).mpr (Or.inr hx))
    have hdisj : ((l ++ r :: rest) ++ s.blocks L).Pairwise Region.Disjoint :=
      List.pairwise_append.mpr ⟨hspaced.disjoint,
        (List.pairwise_append.mp h.arena.disjoint).2.1, hlive⟩
    have hle := total_le_of_covered hdisj hcov
    simp only [total_append, total_cons] at hle
    omega

def Balanced (L : Layout) (s : State) : Prop :=
  ∃ l, Inv L s l 0 ∧ total l + total (s.blocks L) = total s.buffers

theorem malloc_balanced {s : State} {n : ℕ} (h : Balanced L s) (hfit : FitSafe L s (.malloc n)) :
    ∃ s', step L s (.malloc n) = some s' ∧ Balanced L s' ∧ s'.buffers = s.buffers := by
  obtain ⟨l, h, hcons⟩ := h
  rcases malloc_inv h hfit.1 with hs' | ⟨s', b, l', hs', halloc, hinv, hblocks, hbuf⟩
  · exact ⟨s, hs', ⟨l, h, hcons⟩, rfl⟩
  · have htotal := total_allocate halloc (hfit.2 l h.freeList_eq)
    refine ⟨s', hs', ⟨l', hinv, ?_⟩, hbuf⟩
    rw [hblocks, hbuf, total_cons]
    omega

theorem free_conserves {s : State} {l : List Region} {p : ℕ} (h : Inv L s l 0)
    (hcons : total l + total (s.blocks L) = total s.buffers) (hp : p ∈ s.live) :
    ∃ s', step L s (.free p) = some s' ∧
      Inv L s' (Region.insert (blockOf L s.mem p) l) (L.tailLink s.mem (blockOf L s.mem p) l) ∧
      total (Region.insert (blockOf L s.mem p) l) + total (s'.blocks L) = total s'.buffers ∧
      s'.buffers = s.buffers := by
  obtain ⟨s', hs', hinv, hperm, hbuf⟩ := free_inv h hp
  have hsum : total (s.blocks L) = (blockOf L s.mem p).size + total (s'.blocks L) := by
    rw [← total_cons]
    exact (hperm.map Region.size).sum_eq
  refine ⟨s', hs', hinv, ?_, hbuf⟩
  rw [total_insert, hbuf]
  omega

theorem step_balanced {s : State} {op : Op} (h : Balanced L s ∧ total s.buffers < 2 ^ 16)
    (hop : Legal L s op ∧ FitSafe L s op ∧ ∀ s' ∈ step L s op, WellFormed L s') :
    ∃ s', step L s op = some s' ∧ Balanced L s' ∧ total s'.buffers < 2 ^ 16 := by
  obtain ⟨hbal, htot⟩ := h
  obtain ⟨l, h, hcons⟩ := id hbal
  obtain ⟨hlegal, hfit, hwf⟩ := hop
  cases op with
  | addBuffer buffer n =>
    obtain ⟨s', hs', hinv, hblocks, hbuf⟩ := addBuffer_inv h hlegal
    have hcons' : total (Region.insert ⟨buffer, n⟩ l) + total (s'.blocks L) = total s'.buffers := by
      rw [total_insert, hblocks, hbuf, total_cons]
      omega
    have hlink := hinv.link_eq_zero hcons' (hwf s' hs')
    refine ⟨s', hs', ⟨_, hlink ▸ hinv, hcons'⟩, ?_⟩
    rw [hbuf, total_cons]
    exact hlegal.2.2.2.1
  | malloc n =>
    obtain ⟨s', hs', hbal', hbuf⟩ := malloc_balanced hbal hfit
    exact ⟨s', hs', hbal', hbuf ▸ htot⟩
  | free p =>
    obtain ⟨s', hs', hinv, hcons', hbuf⟩ := free_conserves h hcons hlegal
    have hlink := hinv.link_eq_zero hcons' (hwf s' hs')
    exact ⟨s', hs', ⟨_, hlink ▸ hinv, hcons'⟩, hbuf ▸ htot⟩
  | write a v =>
    obtain ⟨hinv, hblocks⟩ := write_inv h hlegal
    exact ⟨_, rfl, ⟨l, hinv, hblocks ▸ hcons⟩, htot⟩

/-- In every run of legal calls that meet `FitSafe`, as long as the free list is well
formed, the bytes are conserved, and the next request that meets `FitSafe` takes one
segment, or the front of it, from the list and leaves all others on it. -/
theorem run_conserved (L : Layout) (mem : Mem) (ops : List Op)
    (h : AllSteps (step L) (fun s op => Legal L s op ∧ FitSafe L s op ∧
      ∀ s' ∈ step L s op, WellFormed L s') (State.empty mem) ops) :
    ∃ t l, run (step L) (State.empty mem) ops = some t ∧ L.freeList t.mem t.pool = some l ∧
      Conserved L t ∧
      ∀ n, FitSafe L t (.malloc n) → ∃ t', step L t (.malloc n) = some t' ∧ (t' = t ∨
        ∃ pre r post rest, l = pre ++ r :: post ∧
          L.freeList t'.mem t'.pool = some (pre ++ rest ++ post) ∧
          t'.blocks L = ⟨r.addr, r.size - total rest⟩ :: t.blocks L ∧
          ∀ u ∈ rest, r.addr + (r.size - total rest) ≤ u.addr ∧ u.stop ≤ r.stop) := by
  obtain ⟨t, ht, ⟨l, hinv, hcons⟩, htot⟩ :=
    run_progress (I := fun s => Balanced L s ∧ total s.buffers < 2 ^ 16)
      (fun s op hI hop => step_balanced hI hop) ⟨⟨[], inv_empty mem, rfl⟩, Nat.two_pow_pos 16⟩ h
  have hsize : L.getFreeSize t.mem t.pool = some (total l) := by
    rw [hinv.getFreeSize_eq, Nat.mod_eq_of_lt (by omega)]
  refine ⟨t, l, ht, hinv.freeList_eq, ⟨total l, hsize, hcons⟩, fun n hn => ?_⟩
  rcases malloc_inv hinv hn.1 with ht' | ⟨t', b, l', ht', halloc, hinv', hblocks, -⟩
  · exact ⟨t, ht', Or.inl rfl⟩
  · obtain ⟨pre, r, post, rest, hl, hl', haddr, hsize, hrest⟩ :=
      allocate_of_keepsRest halloc (hn.2 l hinv.freeList_eq)
    have hbsize : b.size = r.size - total rest := by omega
    have hb : b = ⟨r.addr, r.size - total rest⟩ := by
      cases b
      simp_all
    refine ⟨t', ht', Or.inr ⟨pre, r, post, rest, hl, hl' ▸ hinv'.freeList_eq, hb ▸ hblocks, ?_⟩⟩
    intro u hu
    have := hrest u hu
    rw [hb] at this
    exact this

/-- Blocks of a split segment, freed in the opposite order. -/
theorem run_conserved_split_and_merge :
    ∃ t l, run (step .lp64) (State.empty fun _ => 0)
        [.addBuffer 1000 200, .malloc 10, .malloc 20, .free 1042, .free 1016] = some t ∧
      Layout.lp64.freeList t.mem t.pool = some l ∧ Conserved .lp64 t := by
  obtain ⟨t, l, ht, hl, hcons, -⟩ := run_conserved .lp64 (fun _ => 0)
    [.addBuffer 1000 200, .malloc 10, .malloc 20, .free 1042, .free 1016] (by decide +kernel)
  exact ⟨t, l, ht, hl, hcons⟩

/-- An exact fit at the head of a list of two drops the second segment. -/
theorem exact_fit_not_conserved :
    AllSteps (step .lp64) (fun s op => Legal .lp64 s op ∧
        ∀ s' ∈ step .lp64 s op, WellFormed .lp64 s') (State.empty fun _ => 0)
        [.addBuffer 2000 100, .addBuffer 1000 100, .malloc 84] ∧
      ∃ t ∈ run (step .lp64) (State.empty fun _ => 0)
          [.addBuffer 2000 100, .addBuffer 1000 100, .malloc 84],
        ¬ Conserved .lp64 t ∧ Layout.lp64.getFreeSize t.mem t.pool = some 0 ∧
          total (t.blocks .lp64) = 100 ∧ total t.buffers = 200 := by
  decide +kernel

end EmbeddedTemplate.MemPool
