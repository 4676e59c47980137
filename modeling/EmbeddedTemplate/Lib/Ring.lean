import Mathlib.Data.List.Chain
import Mathlib.Data.List.Nodup
import Mathlib.Logic.Function.Basic

/-! Circular doubly linked lists with an embedded head. Nodes are addresses; the two
pointer fields of all nodes are two maps, so several lists share one heap and a list is
untouched by writes to nodes outside it. -/

structure Links (α : Type*) where
  next : α → α
  prev : α → α

namespace Links
variable {α : Type*}

/-- `v` follows `u` in both directions. -/
def Linked (l : Links α) (u v : α) : Prop := l.next u = v ∧ l.prev v = u

/-- The list with head `h` holds the nodes `xs` in this order. -/
structure Ring (l : Links α) (h : α) (xs : List α) : Prop where
  chain : (h :: (xs ++ [h])).IsChain l.Linked
  nodup : (h :: xs).Nodup

variable {l l' : Links α} {h p q x : α} {xs ys zs : List α}

/-- A chain reads `next` of all nodes but the last and `prev` of all but the first. -/
theorem isChain_congr {c : List α} (hn : ∀ u ∈ c.dropLast, l'.next u = l.next u)
    (hp : ∀ v ∈ c.tail, l'.prev v = l.prev v) (hc : c.IsChain l.Linked) :
    c.IsChain l'.Linked := by
  induction c with
  | nil => exact .nil
  | cons u c ih =>
    cases c with
    | nil => exact .singleton u
    | cons v c =>
      obtain ⟨⟨hnext, hprev⟩, hrest⟩ := List.isChain_cons_cons.mp hc
      have hu : l'.next u = v := by rw [hn u (by simp), hnext]
      have hv : l'.prev v = u := by rw [hp v (by simp), hprev]
      apply List.isChain_cons_cons.mpr
      constructor
      · exact ⟨hu, hv⟩
      · apply ih _ _ hrest
        · intro w hw
          exact hn w (List.mem_cons_of_mem u hw)
        · intro w hw
          exact hp w (List.mem_cons_of_mem v hw)

namespace Ring

theorem congr (hr : Ring l h xs) (hn : ∀ u ∈ h :: xs, l'.next u = l.next u)
    (hp : ∀ u ∈ h :: xs, l'.prev u = l.prev u) : Ring l' h xs := by
  refine ⟨isChain_congr (fun u hu => hn u ?_) (fun v hv => hp v ?_) hr.chain, hr.nodup⟩
  · rwa [← List.cons_append, List.dropLast_concat] at hu
  · simpa [or_comm] using hv

theorem exists_next (hr : Ring l h xs) :
    ∃ ys, xs ++ [h] = l.next h :: ys ∧ l.next h ∉ ys ∧ l.prev (l.next h) = h := by
  have hnd := hr.nodup
  cases xs with
  | nil =>
    have hc := List.isChain_cons_cons.mp hr.chain
    exact ⟨[], by simp [hc.1.1], by simp, by rw [hc.1.1, hc.1.2]⟩
  | cons x xs =>
    have hc := List.isChain_cons_cons.mp hr.chain
    simp only [List.nodup_cons, List.mem_cons, not_or] at hnd
    refine ⟨xs ++ [h], by rw [hc.1.1, List.cons_append], ?_, by rw [hc.1.1, hc.1.2]⟩
    rw [hc.1.1, List.mem_append, List.mem_singleton, not_or]
    exact ⟨hnd.2.1, Ne.symm hnd.1.1⟩

theorem next_mem (hr : Ring l h xs) : l.next h ∈ h :: xs := by
  obtain ⟨ys, he, -, -⟩ := hr.exists_next
  have hm : l.next h ∈ xs ++ [h] := by simp [he]
  simpa [or_comm] using hm

theorem next_eq_head_iff (hr : Ring l h xs) : l.next h = h ↔ xs = [] := by
  have hnd := hr.nodup
  have hc := hr.chain
  cases xs with
  | nil => simpa using (List.isChain_cons_cons.mp hc).1.1
  | cons x xs =>
    have hx : l.next h = x := (List.isChain_cons_cons.mp hc).1.1
    simp only [List.nodup_cons, List.mem_cons, not_or] at hnd
    simp [hx, Ne.symm hnd.1.1]

theorem next_of_mem (hr : Ring l h (ys ++ x :: zs)) :
    l.next x = (zs ++ [h]).head (by simp) := by
  have hsplit : h :: ((ys ++ x :: zs) ++ [h]) = (h :: ys) ++ x :: (zs ++ [h]) := by simp
  obtain ⟨q, bs, hq⟩ := List.exists_cons_of_ne_nil (List.concat_ne_nil h zs)
  have hc := hr.chain
  rw [hsplit, hq, List.isChain_append_cons_cons] at hc
  simp only [hq, List.head_cons]
  exact hc.2.1.1

theorem next_head (hr : Ring l h xs) : l.next h = (xs ++ [h]).head (by simp) := by
  obtain ⟨ys, he, -, -⟩ := hr.exists_next
  simp [he]

/-- The nodes of a list determine its forward pointers. -/
theorem next_eq (hr : Ring l h xs) (hr' : Ring l' h xs) (hx : x ∈ h :: xs) :
    l.next x = l'.next x := by
  rcases List.mem_cons.mp hx with rfl | hx
  · rw [hr.next_head, hr'.next_head]
  · obtain ⟨ys, zs, rfl⟩ := List.append_of_mem hx
    rw [hr.next_of_mem, hr'.next_of_mem]

theorem next_mem_of_mem (hr : Ring l h (ys ++ x :: zs)) : l.next x ∈ h :: (ys ++ zs) := by
  have hmem := List.head_mem (show zs ++ [h] ≠ [] by simp)
  rw [← hr.next_of_mem] at hmem
  grind

theorem prev_mem_of_mem (hr : Ring l h (ys ++ x :: zs)) : l.prev x ∈ h :: (ys ++ zs) := by
  obtain ⟨as, p, hp⟩ : ∃ as p, h :: ys = as ++ [p] :=
    ⟨_, _, (List.dropLast_append_getLast (List.cons_ne_nil h ys)).symm⟩
  have hsplit : h :: ((ys ++ x :: zs) ++ [h]) = as ++ p :: x :: (zs ++ [h]) := by
    rw [List.append_cons as p, ← hp]
    simp
  have hc := hr.chain
  rw [hsplit, List.isChain_append_cons_cons] at hc
  have hmem : p ∈ h :: ys := by simp [hp]
  rw [hc.2.1.2]
  grind

end Ring

section Update
variable [DecidableEq α]

/-- Make `v` the successor of `u`. -/
def link (l : Links α) (u v : α) : Links α :=
  { next := Function.update l.next u v, prev := Function.update l.prev v u }

/-- Walk along `next` until the head is met again. -/
def walk (l : Links α) (h : α) : ℕ → α → Option (List α)
  | 0, _ => none
  | fuel + 1, pos =>
    if pos = h then some [] else (walk l h fuel (l.next pos)).map (pos :: ·)

/-- The nodes of the list with head `h`, when there are at most `n` of them. -/
def toList (l : Links α) (n : ℕ) (h : α) : Option (List α) := l.walk h (n + 1) (l.next h)

theorem isChain_link_of_not_mem {c : List α} (hp : p ∉ c.dropLast) (hq : q ∉ c.tail)
    (hc : c.IsChain l.Linked) : c.IsChain (l.link p q).Linked := by
  apply isChain_congr _ _ hc
  · intro u hu
    exact Function.update_of_ne (ne_of_mem_of_not_mem hu hp) _ _
  · intro v hv
    exact Function.update_of_ne (ne_of_mem_of_not_mem hv hq) _ _

/-- Linking the end of one chain to the start of another. -/
theorem isChain_link (hxs : (xs ++ [p]).IsChain l.Linked) (hys : (q :: ys).IsChain l.Linked)
    (hp : p ∉ xs) (hq : q ∉ (xs ++ [p]).tail) (hp' : p ∉ (q :: ys).dropLast) (hq' : q ∉ ys) :
    (xs ++ p :: q :: ys).IsChain (l.link p q).Linked := by
  apply List.isChain_append_cons_cons.mpr
  refine ⟨isChain_link_of_not_mem (by simpa using hp) hq hxs, ?_,
    isChain_link_of_not_mem hp' hq' hys⟩
  simp [Linked, link]

namespace Ring

theorem link_of_not_mem (hr : Ring l h xs) (hp : p ∉ h :: xs) (hq : q ∉ h :: xs) :
    Ring (l.link p q) h xs := by
  apply hr.congr
  · intro u hu
    exact Function.update_of_ne (ne_of_mem_of_not_mem hu hp) _ _
  · intro u hu
    exact Function.update_of_ne (ne_of_mem_of_not_mem hu hq) _ _

theorem push (hr : Ring l h xs) (hx : x ∉ h :: xs) :
    Ring ((l.link x (l.next h)).link h x) h (x :: xs) := by
  obtain ⟨ys, he, hnot, -⟩ := hr.exists_next
  have hnd := hr.nodup
  simp only [List.nodup_cons, List.mem_cons, not_or] at hnd hx
  have hdrop : (l.next h :: ys).dropLast = xs := by rw [← he, List.dropLast_concat]
  have hchain : (l.next h :: ys).IsChain l.Linked := by
    rw [← he]
    exact List.isChain_of_isChain_cons hr.chain
  have hone : ([] ++ x :: l.next h :: ys).IsChain (l.link x (l.next h)).Linked :=
    isChain_link (.singleton x) hchain (by simp) (by simp) (by rw [hdrop]; exact hx.2) hnot
  rw [List.nil_append, ← he] at hone
  have hlast : (x :: (xs ++ [h])).dropLast = x :: xs := by
    rw [← List.cons_append, List.dropLast_concat]
  constructor
  · rw [← List.nil_append (h :: _)]
    apply isChain_link (.singleton h) hone (by simp) (by simp)
    · rw [hlast]
      simp [Ne.symm hx.1, hnd.1]
    · simp [hx.1, hx.2]
  · simp [Ne.symm hx.1, hx.2, hnd.1, hnd.2]

theorem unlink (hr : Ring l h (ys ++ x :: zs)) :
    Ring (l.link (l.prev x) (l.next x)) h (ys ++ zs) := by
  obtain ⟨as, p, hp⟩ : ∃ as p, h :: ys = as ++ [p] :=
    ⟨_, _, (List.dropLast_append_getLast (List.cons_ne_nil h ys)).symm⟩
  obtain ⟨q, bs, hq⟩ := List.exists_cons_of_ne_nil (List.concat_ne_nil h zs)
  have hsplit : h :: ((ys ++ x :: zs) ++ [h]) = as ++ p :: x :: q :: bs := by
    rw [← hq, List.append_cons as p, ← hp]
    simp
  have hc := hr.chain
  rw [hsplit] at hc
  obtain ⟨hleft, hpx, hrest⟩ := List.isChain_append_cons_cons.mp hc
  obtain ⟨hxq, hright⟩ := List.isChain_cons_cons.mp hrest
  have hnd := hr.nodup
  have hnd' : (h :: (ys ++ zs)).Nodup :=
    hnd.sublist (.cons_cons h (.append_left (List.sublist_cons_self x zs) ys))
  refine ⟨?_, hnd'⟩
  have hgoal : h :: ((ys ++ zs) ++ [h]) = as ++ p :: q :: bs := by
    rw [← hq, List.append_cons as p, ← hp]
    simp
  rw [hgoal, hpx.2, hxq.1]
  have hps : p ∈ h :: ys := by simp [hp]
  have hqs : q ∈ zs ++ [h] := by simp [hq]
  apply isChain_link hleft hright
  · intro hmem
    have : (as ++ [p]).Nodup := hp ▸ hnd'.sublist (.cons_cons h (List.sublist_append_left ys zs))
    grind
  · rw [← hp]
    grind
  · rw [← hq, List.dropLast_concat]
    grind
  · intro hmem
    have : (q :: bs).Nodup := by
      rw [← hq]
      grind
    grind

/-- The whole list `xs` with head `h` moves behind the head `k`. -/
theorem splice {k : α} (hr : Ring l h xs) (hk : Ring l k ys) (hne : xs ≠ [])
    (hdis : (h :: k :: (xs ++ ys)).Nodup) :
    Ring ((l.link k (l.next h)).link (l.prev h) (l.next k)) k (xs ++ ys) := by
  obtain ⟨a, as, ha⟩ := List.exists_cons_of_ne_nil hne
  obtain ⟨bs, b, hb⟩ : ∃ bs b, xs = bs ++ [b] :=
    ⟨_, _, (List.dropLast_append_getLast hne).symm⟩
  obtain ⟨cs, hcs, hnot, -⟩ := hk.exists_next
  have hnext : l.next h = a := by
    have hc := hr.chain
    rw [ha, List.cons_append, List.isChain_cons_cons] at hc
    exact hc.1.1
  have hsplit : h :: (xs ++ [h]) = (h :: bs) ++ b :: h :: [] := by rw [hb]; simp
  have hprev : l.prev h = b := by
    have hc := hr.chain
    rw [hsplit, List.isChain_append_cons_cons] at hc
    exact hc.2.1.2
  rw [hnext, hprev]
  have hxs : (a :: as).IsChain l.Linked := by
    rw [← ha]
    exact (List.isChain_append.mp (List.isChain_of_isChain_cons hr.chain)).1
  have hys : (l.next k :: cs).IsChain l.Linked := by
    rw [← hcs]
    exact List.isChain_of_isChain_cons hk.chain
  have hmem : ∀ u ∈ l.next k :: cs, u ∈ ys ∨ u = k := by
    intro u hu
    rw [← hcs] at hu
    simpa using hu
  have hdrop : (l.next k :: cs).dropLast = ys := by rw [← hcs, List.dropLast_concat]
  have hkxs : ([] ++ k :: a :: as).IsChain (l.link k a).Linked := by
    apply isChain_link (.singleton k) hxs (by simp) (by simp)
    · intro hm
      have := List.dropLast_subset _ hm
      grind
    · grind
  have hkys : (l.next k :: cs).IsChain (l.link k a).Linked := by
    apply isChain_link_of_not_mem _ _ hys
    · rw [hdrop]
      grind
    · intro hm
      have := hmem a (List.mem_cons_of_mem _ hm)
      grind
  have hgoal : k :: ((xs ++ ys) ++ [k]) = (k :: bs) ++ b :: l.next k :: cs := by
    rw [List.append_assoc, hcs, hb]
    simp
  constructor
  · rw [hgoal]
    apply isChain_link _ hkys
    · grind
    · have := hmem (l.next k) (by simp)
      grind
    · rw [hdrop]
      grind
    · exact hnot
    · rwa [List.nil_append, ← ha, hb] at hkxs
  · grind

theorem init (l : Links α) (h : α) : Ring (l.link h h) h [] :=
  ⟨by simp [Linked, link], List.nodup_singleton h⟩

theorem walk_eq (hr : Ring l h (ys ++ zs)) {n : ℕ} (hn : zs.length < n) :
    l.walk h n ((zs ++ [h]).head (by simp)) = some zs := by
  induction zs generalizing ys n with
  | nil =>
    obtain ⟨n, rfl⟩ := Nat.exists_eq_succ_of_ne_zero (Nat.pos_iff_ne_zero.mp hn)
    simp [walk]
  | cons z zs ih =>
    obtain ⟨n, rfl⟩ := Nat.exists_eq_succ_of_ne_zero (Nat.pos_iff_ne_zero.mp (by omega : 0 < n))
    have hz : z ≠ h := by
      have hnd := hr.nodup
      grind
    rw [List.append_cons] at hr
    have hrest := ih hr (by simpa using hn)
    rw [List.append_assoc, List.singleton_append] at hr
    simp [walk, hz, hr.next_of_mem, hrest]

theorem toList_eq (hr : Ring l h xs) {n : ℕ} (hn : xs.length ≤ n) : l.toList n h = some xs := by
  have hr' : Ring l h ([] ++ xs) := hr
  rw [toList, hr.next_head]
  exact hr'.walk_eq (Nat.lt_succ_of_le hn)

end Ring
end Update
end Links
