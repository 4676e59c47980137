import EmbeddedTemplate.MemPool.Alloc

/-! The invariant of the memory pool, and the free list along every run of calls. -/
namespace EmbeddedTemplate.MemPool

open ByteMem Region Layout Transition

variable (L : Layout)

/-- The path from `*pool` visits `l` and arrives at `q`; the segments on it and the
live blocks are disjoint parts of the buffers, and live blocks are poisoned. -/
structure Inv (s : State) (l : List Region) (q : ℕ) : Prop where
  path : L.Path s.mem s.pool l q
  spaced : Spaced l
  arena : L.Arena (l ++ s.blocks L)
  covered : ∀ x, Covers (l ++ s.blocks L) x → Covers s.buffers x
  poisoned : ∀ p ∈ s.live, L.next s.mem (L.segOf p) = L.poison
  payload : ∀ p ∈ s.live, p = L.segOf p + L.sizeof
  buffers_ne : ∀ b ∈ s.buffers, b.addr ≠ 0
  buffers_stop : ∀ b ∈ s.buffers, b.stop < L.space
  buffers_fit : Fits (2 ^ 16) s.buffers

variable {L}

theorem inv_empty (mem : Mem) : Inv L (State.empty mem) [] 0 where
  path := rfl
  spaced := List.Pairwise.nil
  arena := ⟨List.Pairwise.nil, by simp [State.blocks, State.empty],
    by simp [State.blocks, State.empty], by simp [State.blocks, State.empty],
    fits_of_total_lt (by simp [State.blocks, State.empty])⟩
  covered := by simp [State.blocks, State.empty]
  poisoned := by simp [State.empty]
  payload := by simp [State.empty]
  buffers_ne := by simp [State.empty]
  buffers_stop := by simp [State.empty]
  buffers_fit := fits_of_total_lt (by simp [State.empty])

theorem blockOf_eq {m m' : Mem} {p : ℕ} (h : Same m m' (blockOf L m p))
    (hh : L.sizeof ≤ (blockOf L m p).size) : blockOf L m' p = blockOf L m p := by
  have hsize := h.size_eq hh
  simp only [blockOf] at *
  rw [hsize]

theorem mem_blocks {s : State} {p : ℕ} (hp : p ∈ s.live) : blockOf L s.mem p ∈ s.blocks L :=
  List.mem_map.mpr ⟨p, hp, rfl⟩

theorem blocks_congr {m m' : Mem} {live : List ℕ}
    (hh : ∀ p ∈ live, L.sizeof ≤ (blockOf L m p).size)
    (hsame : ∀ p ∈ live, Same m m' (blockOf L m p)) :
    live.map (blockOf L m') = live.map (blockOf L m) ∧
      ∀ p ∈ live, L.next m' (L.segOf p) = L.next m (L.segOf p) := by
  constructor
  · exact List.map_congr_left fun p hp => blockOf_eq (hsame p hp) (hh p hp)
  · exact fun p hp => (hsame p hp).next_eq (r := blockOf L m p) (hh p hp)

theorem Inv.header {s : State} {l : List Region} {q : ℕ} (h : Inv L s l q) :
    ∀ p ∈ s.live, L.sizeof ≤ (blockOf L s.mem p).size :=
  fun _ hp => h.arena.header _ (List.mem_append_right _ (mem_blocks hp))

theorem Inv.seg_ne_zero {s : State} {l : List Region} {q p : ℕ} (h : Inv L s l q)
    (hp : p ∈ s.live) : p ≠ 0 := by
  have hpay := h.payload p hp
  have hpos := L.sizeof_pos
  omega

theorem Inv.disjoint_live {s : State} {l : List Region} {q p : ℕ} (h : Inv L s l q)
    (hp : p ∈ s.live) : ∀ r ∈ l, r.Disjoint (blockOf L s.mem p) :=
  fun r hr => (List.pairwise_append.mp h.arena.disjoint).2.2 r hr _ (mem_blocks hp)

/-- Adding a segment that is neither free nor live, with the list left by `add_segment`. -/
theorem arena_insert {b : Region} {l k : List Region} (ha : L.Arena (b :: l ++ k))
    (hsp : Spaced l) : Spaced (Region.insert b l) ∧ L.Arena (Region.insert b l ++ k) := by
  have hpos := L.sizeof_pos
  have hbl : L.Arena (b :: l) := ha.left
  have hlen : ∀ r ∈ b :: l, 0 < r.size := fun r hr => hpos.trans_le (hbl.header r hr)
  have hspaced : Spaced (Region.insert b l) :=
    spaced_insert hsp (hlen b (by simp)) (fun s hs => hlen s (by simp [hs]))
      fun s hs => hbl.disjoint_of_mem hs
  have hins : L.Arena (Region.insert b l) := by
    refine arena_of_covered hbl.ne_zero hbl.stop_lt hbl.fits hspaced.disjoint ?_ ?_
    · intro r hr
      exact le_size_of_mem_insert (hbl.header b (by simp)) (fun s hs => hbl.header s (by simp [hs])) hr
    · intro x hx
      rwa [covers_cons, ← covers_insert]
  refine ⟨hspaced, ?_⟩
  have hperm : L.Arena (k ++ (b :: l)) := ha.perm List.perm_append_comm
  have hrep := Arena.replace hperm hins fun x hx => by rwa [covers_cons, ← covers_insert]
  exact hrep.perm List.perm_append_comm

theorem Inv.disjoint_buffer {s : State} {l : List Region} {q : ℕ} (h : Inv L s l q) {b : Region}
    (hb : 0 < b.size) (hdisj : ∀ c ∈ s.buffers, b.Disjoint c) :
    ∀ r ∈ l ++ s.blocks L, b.Disjoint r := by
  intro r hr
  have hpos := L.sizeof_pos
  have hrs := h.arena.header r hr
  apply disjoint_of_cells hb (by omega)
  intro x hx hrx
  obtain ⟨c, hc, hcx⟩ := h.covered x ⟨r, hr, hrx⟩
  exact (hdisj c hc).not_contains hx hcx

theorem addBuffer_inv {s : State} {l : List Region} {buffer size : ℕ} (h : Inv L s l 0)
    (hl : Legal L s (.addBuffer buffer size)) :
    ∃ s', step L s (.addBuffer buffer size) = some s' ∧
      Inv L s' (Region.insert ⟨buffer, size⟩ l) (L.tailLink s.mem ⟨buffer, size⟩ l) ∧
      s'.blocks L = s.blocks L ∧ s'.buffers = ⟨buffer, size⟩ :: s.buffers := by
  obtain ⟨hne, hstop, hhdr, htotal, hdisj⟩ := hl
  have hpos := L.sizeof_pos
  have hbsize : L.sizeof ≤ (⟨buffer, size⟩ : Region).size := hhdr
  have hfresh := h.disjoint_buffer (hpos.trans_le hbsize) hdisj
  have hbuf_ne : ∀ b ∈ (⟨buffer, size⟩ : Region) :: s.buffers, b.addr ≠ 0 :=
    List.forall_mem_cons.mpr ⟨hne, h.buffers_ne⟩
  have hbuf_stop : ∀ b ∈ (⟨buffer, size⟩ : Region) :: s.buffers, b.stop < L.space :=
    List.forall_mem_cons.mpr ⟨hstop, h.buffers_stop⟩
  have hbuf_fit : Fits (2 ^ 16) ((⟨buffer, size⟩ : Region) :: s.buffers) :=
    fits_of_total_lt (by rwa [total_cons])
  have harena : L.Arena ((⟨buffer, size⟩ : Region) :: l ++ s.blocks L) := by
    refine arena_of_covered hbuf_ne hbuf_stop hbuf_fit
      (List.pairwise_cons.mpr ⟨hfresh, h.arena.disjoint⟩)
      (List.forall_mem_cons.mpr ⟨hhdr, h.arena.header⟩) ?_
    intro x hx
    rw [List.cons_append, covers_cons] at hx
    rw [covers_cons]
    exact hx.imp_right (h.covered x)
  obtain ⟨hspaced, harena'⟩ := arena_insert harena h.spaced
  let m₁ := L.setSize s.mem buffer size
  have hsame₁ : ∀ r ∈ l ++ s.blocks L, Same s.mem m₁ r := fun r hr =>
    same_setSize (r := ⟨buffer, size⟩) s.mem size hbsize (hfresh r hr)
  have hpath₁ : L.Path m₁ s.pool l 0 := h.path.congr fun r hr =>
    ⟨h.arena.header r (by simp [hr]), hsame₁ r (by simp [hr])⟩
  have hsize₁ : L.size m₁ buffer = size := by
    rw [size_setSize]
    exact Nat.mod_eq_of_lt (by omega)
  obtain ⟨p', m', hm', hpath, hframe⟩ := addSegment_spec hpath₁ harena.left h.spaced hsize₁
  have hlink : L.tailLink m₁ ⟨buffer, size⟩ l = L.tailLink s.mem ⟨buffer, size⟩ l := by
    simp only [tailLink, m₁, next_setSize]
  have hsame : ∀ p ∈ s.live, Same s.mem m' (blockOf L s.mem p) := by
    intro p hp
    have hb := List.mem_append_right l (mem_blocks (L := L) hp)
    exact (hsame₁ _ hb).trans (hframe _ (hfresh _ hb) (h.disjoint_live hp))
  obtain ⟨hblocks, hnext⟩ := blocks_congr h.header hsame
  refine ⟨⟨m', p', s.live, ⟨buffer, size⟩ :: s.buffers⟩, ?_, ?_, hblocks, rfl⟩
  · simp only [step, addBuffer]
    rw [show L.addSegment (L.setSize s.mem buffer size) s.pool buffer = some (p', m') from hm']
    rfl
  · have hblocks' : State.blocks L ⟨m', p', s.live, ⟨buffer, size⟩ :: s.buffers⟩ = s.blocks L :=
      hblocks
    refine ⟨hlink ▸ hpath, hspaced, hblocks' ▸ harena', fun x hx => ?_, fun p hp => ?_, h.payload,
      hbuf_ne, hbuf_stop, hbuf_fit⟩
    · rw [hblocks', covers_append, covers_insert, or_assoc, ← covers_append] at hx
      exact (covers_cons _ _ x).mpr (hx.imp_right (h.covered x))
    · exact (hnext p hp).trans (h.poisoned p hp)

theorem free_inv {s : State} {l : List Region} {p : ℕ} (h : Inv L s l 0)
    (hp : p ∈ s.live) :
    ∃ s', step L s (.free p) = some s' ∧
      Inv L s' (Region.insert (blockOf L s.mem p) l)
        (L.tailLink s.mem (blockOf L s.mem p) l) ∧
      (s.blocks L).Perm (blockOf L s.mem p :: s'.blocks L) ∧ s'.buffers = s.buffers := by
  let b := blockOf L s.mem p
  have hperm : s.live.Perm (p :: s.live.erase p) := List.perm_cons_erase hp
  have hbperm : (s.blocks L).Perm (b :: (s.live.erase p).map (blockOf L s.mem)) := hperm.map _
  have hrest : ∀ p' ∈ s.live.erase p, p' ∈ s.live := fun _ => List.mem_of_mem_erase
  have harena : L.Arena (b :: l ++ (s.live.erase p).map (blockOf L s.mem)) :=
    h.arena.perm ((hbperm.append_left l).trans List.perm_middle)
  obtain ⟨hspaced, harena'⟩ := arena_insert harena h.spaced
  obtain ⟨pool', m', hm', hpath, hframe⟩ := addSegment_spec h.path harena.left h.spaced rfl
  have hsame : ∀ p' ∈ s.live.erase p, Same s.mem m' (blockOf L s.mem p') := by
    intro p' hp'
    have hmem : blockOf L s.mem p' ∈ (s.live.erase p).map (blockOf L s.mem) :=
      List.mem_map.mpr ⟨p', hp', rfl⟩
    have hcross := (List.pairwise_append.mp harena.disjoint).2.2
    exact hframe _ (hcross b (by simp) _ hmem) fun r hr => hcross r (by simp [hr]) _ hmem
  obtain ⟨hblocks, hnext⟩ := blocks_congr (fun p' hp' => h.header p' (hrest p' hp')) hsame
  have hblocks' : State.blocks L ⟨m', pool', s.live.erase p, s.buffers⟩ =
      (s.live.erase p).map (blockOf L s.mem) := hblocks
  refine ⟨⟨m', pool', s.live.erase p, s.buffers⟩, ?_, ?_, hblocks' ▸ hbperm, rfl⟩
  · have hpois : L.poison = L.next s.mem (L.segOf p) := (h.poisoned p hp).symm
    simp only [step, free, if_neg (h.seg_ne_zero hp), if_pos hpois]
    rw [show L.addSegment s.mem s.pool (L.segOf p) = some (pool', m') from hm']
    rfl
  · refine ⟨hpath, hspaced, hblocks' ▸ harena', fun x hx => ?_, fun p' hp' => ?_, fun p' hp' =>
      h.payload p' (hrest p' hp'), h.buffers_ne, h.buffers_stop, h.buffers_fit⟩
    · apply h.covered x
      obtain ⟨r, hr, hrx⟩ : Covers (b :: l ++ (s.live.erase p).map (blockOf L s.mem)) x := by
        rw [hblocks', covers_append, covers_insert, ← covers_cons, ← covers_append] at hx
        exact hx
      have hmem := ((hbperm.append_left l).trans List.perm_middle).mem_iff.mpr hr
      exact ⟨r, hmem, hrx⟩
    · exact (hnext p' hp').trans (h.poisoned p' (hrest p' hp'))

theorem segOf_payload {b : Region} {l : List Region} (h : L.Arena (b :: l)) :
    L.segOf (b.addr + L.sizeof) = b.addr := by
  have hstop := h.stop_lt b (by simp)
  simp only [stop] at hstop
  unfold segOf
  rw [show ((b.addr + L.sizeof : ℕ) : ℤ) - L.sizeof = (b.addr : ℤ) by push_cast; ring]
  exact L.addr_of_lt (by omega)

/-- The allocated block, the free list left and the live blocks. -/
theorem Inv.arena_allocate {s : State} {l l' : List Region} {b : Region} {q size : ℕ}
    (h : Inv L s l q) (hreq : L.sizeof ≤ size)
    (halloc : allocate size (2 * L.allignSizeof) l = some (b, l')) :
    L.Arena (b :: l' ++ s.blocks L) := by
  have hal := L.sizeof_le_allignSizeof
  have hcov : ∀ x, Covers (b :: l') x → Covers l x := fun x => covers_allocate halloc
  have hbl : L.Arena (b :: l') := by
    refine arena_of_covered h.arena.left.ne_zero h.arena.left.stop_lt h.arena.left.fits
      ?_ ?_ hcov
    · exact List.pairwise_cons.mpr ⟨disjoint_allocate halloc h.spaced,
        (spaced_allocate halloc h.spaced).disjoint⟩
    · exact le_size_of_allocate halloc hreq (by omega) h.arena.left.header
  exact (Arena.replace (h.arena.perm List.perm_append_comm) hbl hcov).perm List.perm_append_comm

/-- A call that finds no segment changes nothing; otherwise the free list becomes the one
that `allocate` leaves and the block becomes live. -/
theorem malloc_inv {s : State} {l : List Region} {size : ℕ} (h : Inv L s l 0)
    (hsz : s.pool = 0 ∨ L.sizeof ≤ L.request size) :
    step L s (.malloc size) = some s ∨
    ∃ s' b l', step L s (.malloc size) = some s' ∧
      allocate (L.request size) (2 * L.allignSizeof) l = some (b, l') ∧ Inv L s' l' 0 ∧
      s'.blocks L = b :: s.blocks L ∧ s'.buffers = s.buffers := by
  by_cases hnull : s.pool = 0
  · left
    have hcall : L.malloc s.mem s.pool size = some ⟨0, s.pool, s.mem⟩ := by
      rw [hnull]
      exact malloc_null s.mem size
    simp [step, hcall]
  cases halloc : allocate (L.request size) (2 * L.allignSizeof) l with
  | none =>
    left
    simp [step, malloc_none h.path h.arena.left halloc]
  | some r =>
    right
    obtain ⟨b, l'⟩ := r
    have hreq : L.sizeof ≤ L.request size := hsz.resolve_left hnull
    obtain ⟨pool', m', hm', hpath, hpois, hframe⟩ := malloc_some h.path h.arena.left hreq halloc
    have harena := h.arena_allocate hreq halloc
    have hseg := segOf_payload harena
    have hblock : blockOf L m' (b.addr + L.sizeof) = b := by
      simp only [blockOf, hseg, hpois.1]
    have hsame : ∀ p ∈ s.live, Same s.mem m' (blockOf L s.mem p) :=
      fun p hp => hframe _ (h.disjoint_live hp)
    obtain ⟨hblocks, hnext⟩ := blocks_congr h.header hsame
    have hblocks' : State.blocks L ⟨m', pool', (b.addr + L.sizeof) :: s.live, s.buffers⟩ =
        b :: s.blocks L := by
      simp only [State.blocks, List.map_cons, hblock, hblocks]
    have hpos := L.sizeof_pos
    refine ⟨⟨m', pool', (b.addr + L.sizeof) :: s.live, s.buffers⟩, b, l', ?_, rfl, ?_, hblocks',
      rfl⟩
    · have hret : b.addr + L.sizeof ≠ 0 := by omega
      simp only [step, hm', Option.bind_eq_bind, Option.bind_some, if_neg hret]
    · refine ⟨hpath, spaced_allocate halloc h.spaced, ?_, fun x hx => ?_, ?_, ?_, h.buffers_ne,
        h.buffers_stop, h.buffers_fit⟩
      · rw [hblocks']
        exact harena.perm List.perm_middle.symm
      · apply h.covered x
        rw [hblocks'] at hx
        have := @covers_allocate _ _ _ _ _ halloc x
        simp only [covers_append, covers_cons] at *
        tauto
      · intro p hp
        rcases List.mem_cons.mp hp with rfl | hp
        · rw [hseg]
          exact hpois.2
        · exact (hnext p hp).trans (h.poisoned p hp)
      · intro p hp
        rcases List.mem_cons.mp hp with rfl | hp
        · rw [hseg]
        · exact h.payload p hp

theorem Inv.write_outside {s : State} {l : List Region} {q a : ℕ} {v : UInt8} (h : Inv L s l q)
    (hl : Legal L s (.write a v)) :
    ∀ p ∈ s.live, a < L.segOf p ∨ L.segOf p + L.sizeof ≤ a := by
  intro p hp
  have hsz := h.header p hp
  by_contra hc
  have hin : (blockOf L s.mem p).Contains a := by
    simp only [blockOf, Contains, stop] at *
    omega
  rcases hl with hout | ⟨p', hp', hlo, hhi⟩
  · exact hout (h.covered a ⟨_, List.mem_append_right l (mem_blocks hp), hin⟩)
  · have hin' : (blockOf L s.mem p').Contains a := ⟨by simp only [blockOf]; omega, hhi⟩
    have hne : p' ≠ p := by
      rintro rfl
      omega
    have hperm : s.live.Perm (p :: s.live.erase p) := List.perm_cons_erase hp
    have hmem : blockOf L s.mem p' ∈ (s.live.erase p).map (blockOf L s.mem) :=
      List.mem_map.mpr ⟨p', (List.mem_erase_of_ne hne).mpr hp', rfl⟩
    have hpair := (h.arena.perm (((hperm.map (blockOf L s.mem)).append_left l).trans
      List.perm_middle)).disjoint
    exact ((List.pairwise_cons.mp hpair).1 _ (List.mem_append_right l hmem)).not_contains hin hin'

theorem write_inv {s : State} {l : List Region} {a : ℕ} {v : UInt8} (h : Inv L s l 0)
    (hl : Legal L s (.write a v)) :
    Inv L { s with mem := Function.update s.mem a v } l 0 ∧
      State.blocks L { s with mem := Function.update s.mem a v } = s.blocks L := by
  have hpos := L.sizeof_pos
  have hfree : ∀ r ∈ l, Same s.mem (Function.update s.mem a v) r := by
    intro r hr x hx
    apply Function.update_of_ne
    rintro rfl
    rcases hl with hout | ⟨p, hp, hlo, hhi⟩
    · exact hout (h.covered x ⟨r, by simp [hr], hx⟩)
    · exact (h.disjoint_live hp r hr).not_contains hx ⟨by simp only [blockOf]; omega, hhi⟩
  have hloads : ∀ p ∈ s.live, L.size (Function.update s.mem a v) (L.segOf p) =
      L.size s.mem (L.segOf p) ∧
      L.next (Function.update s.mem a v) (L.segOf p) = L.next s.mem (L.segOf p) := by
    intro p hp
    have hout := h.write_outside hl p hp
    have hp' := L.ptr_le
    have hs' := L.sizeOff_le
    constructor <;> apply load_congr <;> intro x hlo hhi <;>
      exact Function.update_of_ne (by omega) _ _
  have hblocks : State.blocks L { s with mem := Function.update s.mem a v } = s.blocks L := by
    refine List.map_congr_left fun p hp => ?_
    simp only [blockOf, (hloads p hp).1]
  refine ⟨⟨?_, h.spaced, ?_, ?_, ?_, h.payload, h.buffers_ne, h.buffers_stop, h.buffers_fit⟩,
    hblocks⟩
  · exact h.path.congr fun r hr => ⟨h.arena.header r (by simp [hr]), hfree r hr⟩
  · rw [hblocks]
    exact h.arena
  · rw [hblocks]
    exact h.covered
  · exact fun p hp => ((hloads p hp).2).trans (h.poisoned p hp)

end EmbeddedTemplate.MemPool
