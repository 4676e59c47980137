import EmbeddedTemplate.Lib.Ring

/-! The intrusive lists of `misc/list.h`. All writes go through pairs of consecutive
nodes, so each function is a composition of `Links.link`. -/
namespace EmbeddedTemplate

abbrev Heads := Links ℕ

namespace Heads

def listPoison1 : ℕ := 0xFFFFFE
def listPoison2 : ℕ := 0xFFFFFF

def initListHead (l : Heads) (list : ℕ) : Heads := l.link list list

/-- `__list_add`. -/
def listAddBetween (l : Heads) (new prev next : ℕ) : Heads := (l.link new next).link prev new

def listAdd (l : Heads) (new head : ℕ) : Heads := listAddBetween l new head (l.next head)

def listDelEntry (l : Heads) (entry : ℕ) : Heads := l.link (l.prev entry) (l.next entry)

def listDel (l : Heads) (entry : ℕ) : Heads :=
  let l := listDelEntry l entry
  { next := Function.update l.next entry listPoison1
    prev := Function.update l.prev entry listPoison2 }

def listMove (l : Heads) (list head : ℕ) : Heads := listAdd (listDelEntry l list) list head

def listEmpty (l : Heads) (head : ℕ) : Bool := l.next head == head

/-- `__list_splice`. -/
def listSpliceBetween (l : Heads) (list prev next : ℕ) : Heads :=
  (l.link prev (l.next list)).link (l.prev list) next

def listSpliceInit (l : Heads) (list head : ℕ) : Heads :=
  if listEmpty l list then l
  else initListHead (listSpliceBetween l list head (l.next head)) list

variable {l : Heads} {h k x : ℕ} {xs ys zs : List ℕ}

theorem listEmpty_iff (hr : l.Ring h xs) : listEmpty l h = true ↔ xs = [] := by
  rw [listEmpty, beq_iff_eq, hr.next_eq_head_iff]

theorem listAdd_ring (hr : l.Ring h xs) (hx : x ∉ h :: xs) : (listAdd l x h).Ring h (x :: xs) :=
  hr.push hx

theorem listAdd_frame (hr : l.Ring h xs) (hk : l.Ring k ys)
    (hdis : (k :: ys).Disjoint (x :: h :: xs)) : (listAdd l x h).Ring k ys := by
  have hnext := hr.next_mem
  unfold listAdd listAddBetween
  apply (hk.link_of_not_mem _ _).link_of_not_mem <;> grind [List.Disjoint]

theorem listDelEntry_ring (hr : l.Ring h (ys ++ x :: zs)) :
    (listDelEntry l x).Ring h (ys ++ zs) := hr.unlink

theorem listDelEntry_frame (hr : l.Ring h (ys ++ x :: zs)) (hk : l.Ring k xs)
    (hdis : (k :: xs).Disjoint (h :: (ys ++ x :: zs))) : (listDelEntry l x).Ring k xs := by
  have hnext := hr.next_mem_of_mem
  have hprev := hr.prev_mem_of_mem
  unfold listDelEntry
  apply hk.link_of_not_mem <;> grind [List.Disjoint]

theorem listDel_ring (hr : l.Ring h (ys ++ x :: zs)) : (listDel l x).Ring h (ys ++ zs) := by
  have hnd := hr.nodup
  apply (listDelEntry_ring hr).congr
  · intro u hu
    exact Function.update_of_ne (by grind) _ _
  · intro u hu
    exact Function.update_of_ne (by grind) _ _

theorem listDel_frame (hr : l.Ring h (ys ++ x :: zs)) (hk : l.Ring k xs)
    (hdis : (k :: xs).Disjoint (h :: (ys ++ x :: zs))) : (listDel l x).Ring k xs := by
  apply (listDelEntry_frame hr hk hdis).congr
  · intro u hu
    exact Function.update_of_ne (by grind [List.Disjoint]) _ _
  · intro u hu
    exact Function.update_of_ne (by grind [List.Disjoint]) _ _

/-- A node moves from the list of `h` to the front of the list of `k`. -/
theorem listMove_ring (hr : l.Ring h (ys ++ x :: zs)) (hk : l.Ring k xs)
    (hdis : (k :: xs).Disjoint (h :: (ys ++ x :: zs))) :
    (listMove l x k).Ring h (ys ++ zs) ∧ (listMove l x k).Ring k (x :: xs) := by
  have hfrom := listDelEntry_ring hr
  have hto := listDelEntry_frame hr hk hdis
  have hnd := hr.nodup
  constructor
  · exact listAdd_frame hto hfrom (by grind [List.Disjoint])
  · exact listAdd_ring hto (by grind [List.Disjoint])

theorem listSpliceInit_ring (hr : l.Ring h xs) (hk : l.Ring k ys)
    (hdis : (k :: ys).Disjoint (h :: xs)) :
    (listSpliceInit l h k).Ring h [] ∧ (listSpliceInit l h k).Ring k (xs ++ ys) := by
  unfold listSpliceInit
  by_cases hxs : xs = []
  · subst hxs
    rw [if_pos ((listEmpty_iff hr).mpr rfl)]
    exact ⟨hr, hk⟩
  · rw [if_neg (by rwa [listEmpty_iff hr])]
    have hnd : (h :: k :: (xs ++ ys)).Nodup := by
      have h1 := hr.nodup
      have h2 := hk.nodup
      grind [List.Disjoint, List.nodup_append]
    refine ⟨Links.Ring.init _ h, ?_⟩
    exact (hr.splice hk hxs hnd).link_of_not_mem (by grind) (by grind)

end Heads
end EmbeddedTemplate
