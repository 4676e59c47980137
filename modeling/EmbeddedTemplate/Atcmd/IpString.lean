import EmbeddedTemplate.Lib.CString

/-! `is_ip_string` of `atcmd.c`, with which `atcmd_connect_tcp` tells an address from a name. -/
namespace EmbeddedTemplate.Atcmd

open CString

def dot : UInt8 := 46

/-- One `strtol` and the checks behind it; `p + 1` is left for the next one. -/
def ipseg (stop : UInt8) (p : List UInt8) : Option (List UInt8) :=
  let r := strtol 10 p
  if r.1 < 0 ∨ 255 < r.1 ∨ r.2.headD 0 ≠ stop then none else some r.2.tail

/-- `is_ip_string`; `none` is a null pointer. -/
def isIpString : Option (List UInt8) → Bool
  | none => false
  | some p => ((((ipseg dot p).bind (ipseg dot)).bind (ipseg dot)).bind (ipseg 0)).isSome

/-- Decimal digits that denote a value up to 255. -/
def Octet (x : List UInt8) : Prop := x ≠ [] ∧ (∀ c ∈ x, isDigit 10 c = true) ∧ value 10 x ≤ 255

/-- Nothing, or such digits with blanks or a sign in front. -/
def Padded (x : List UInt8) : Prop :=
  x = [] ∨ ∃ blanks sign ds, x = blanks ++ (sign ++ ds) ∧ Numeral blanks sign ds ∧
    blanks ++ sign ≠ [] ∧ value 10 ds ≤ 255 ∧ (sign = [minus] → value 10 ds = 0)

/-- Four segments separated by single dots. -/
def Dotted (s : List UInt8) (P : List (List UInt8) → Prop) : Prop :=
  ∃ a b c d, s = a ++ dot :: (b ++ dot :: (c ++ dot :: d)) ∧ P [a, b, c, d]

def DottedQuad (s : List UInt8) : Prop := Dotted s fun segs => ∀ x ∈ segs, Octet x

/-- Of four segments, each is an octet or a padded one, and not all are octets. -/
def PaddedQuad (s : List UInt8) : Prop :=
  Dotted s fun segs => (∀ x ∈ segs, Octet x ∨ Padded x) ∧ ∃ x ∈ segs, Padded x

variable {x : List UInt8}

theorem not_octet_of_padded (h : Padded x) : ¬ Octet x := by
  rintro ⟨hne, hd, -⟩
  obtain rfl | ⟨blanks, sign, ds, rfl, hnum, hpad, -⟩ := h
  · exact hne rfl
  · cases blanks with
    | cons c blanks =>
      have hsp := (not_isSpace_of_isDigit (hd c (by simp))).1
      rw [hnum.blanks c (by simp)] at hsp
      cases hsp
    | nil =>
      obtain rfl | rfl | rfl := hnum.sign
      · exact hpad rfl
      · exact absurd (hd plus (by simp)) (by decide)
      · exact absurd (hd minus (by simp)) (by decide)

/-- What a conversion to a value up to 255 takes, digits or not. -/
theorem octet_or_padded_iff : (Octet x ∨ Padded x) ↔
    x = [] ∨ ∃ blanks sign ds, x = blanks ++ (sign ++ ds) ∧ Numeral blanks sign ds ∧
      value 10 ds ≤ 255 ∧ (sign = [minus] → value 10 ds = 0) := by
  constructor
  · rintro (⟨hne, hd, hv⟩ | rfl | ⟨blanks, sign, ds, hx, hnum, -, hv, hm⟩)
    · exact .inr ⟨[], [], x, rfl, ⟨by simp, .inl rfl, hd, hne⟩, hv, by simp⟩
    · exact .inl rfl
    · exact .inr ⟨blanks, sign, ds, hx, hnum, hv, hm⟩
  · rintro (rfl | ⟨blanks, sign, ds, hx, hnum, hv, hm⟩)
    · exact .inr (.inl rfl)
    · by_cases hpad : blanks ++ sign = []
      · obtain ⟨rfl, rfl⟩ := List.append_eq_nil_iff.mp hpad
        exact .inl ⟨hx ▸ hnum.ne_nil, hx ▸ hnum.digits, hx ▸ hv⟩
      · exact .inr (.inr ⟨blanks, sign, ds, hx, hnum, hpad, hv, hm⟩)

theorem long_range_iff {sign ds : List UInt8} :
    (0 ≤ long (signed sign ds) ∧ long (signed sign ds) ≤ 255) ↔
      value 10 ds ≤ 255 ∧ (sign = [minus] → value 10 ds = 0) := by
  unfold long signed
  by_cases hm : sign = [minus]
  · simp only [hm, if_true, true_imp_iff]
    split_ifs
    all_goals omega
  · simp only [hm, if_false, false_imp_iff, and_true]
    split_ifs
    all_goals omega

theorem strtol_range_iff {p r : List UInt8} (hr : r = [] ∨ ∃ q, r = dot :: q) :
    ((strtol 10 p).2 = r ∧ 0 ≤ (strtol 10 p).1 ∧ (strtol 10 p).1 ≤ 255) ↔
      ∃ x, (Octet x ∨ Padded x) ∧ p = x ++ r := by
  simp only [octet_or_padded_iff]
  constructor
  · rintro ⟨hrest, hv⟩
    obtain hz | ⟨blanks, sign, ds, rest, hnum, hp, hconv⟩ := strtol_cases p
    · rw [hz] at hrest
      exact ⟨[], .inl rfl, hrest⟩
    · rw [hconv] at hrest hv
      obtain rfl : rest = r := hrest
      refine ⟨blanks ++ (sign ++ ds), .inr ⟨blanks, sign, ds, rfl, hnum, long_range_iff.mp hv⟩, ?_⟩
      simpa using hp
  · rintro ⟨x, hx, rfl⟩
    obtain rfl | ⟨blanks, sign, ds, rfl, hnum, hv⟩ := hx
    · have hz : strtol 10 r = (0, r) := by
        obtain rfl | ⟨q, rfl⟩ := hr
        · rfl
        · exact strtol_of_stop (by decide) (by decide) (by decide) (by decide) q
      rw [List.nil_append, hz]
      exact ⟨rfl, Int.le_refl 0, by omega⟩
    · have hstop : ∀ c ∈ r.head?, isDigit 10 c = false := by
        obtain rfl | ⟨q, rfl⟩ := hr
        · simp
        · simp only [List.head?_cons, Option.mem_def, Option.some.injEq, forall_eq']
          decide
      have hconv := strtol_numeral hnum hstop
      simp only [List.append_assoc, hconv]
      exact ⟨trivial, long_range_iff.mpr hv⟩

theorem ipseg_eq_some_iff {stop : UInt8} {p q : List UInt8} :
    ipseg stop p = some q ↔ (0 ≤ (strtol 10 p).1 ∧ (strtol 10 p).1 ≤ 255) ∧
      (strtol 10 p).2.headD 0 = stop ∧ (strtol 10 p).2.tail = q := by
  unfold ipseg
  dsimp only
  split_ifs with hfail
  · simp only [false_iff]
    rintro ⟨⟨hlo, hhi⟩, hstop, -⟩
    obtain h | h | h := hfail
    · omega
    · omega
    · exact h hstop
  · simp only [ne_eq, not_or, not_not] at hfail
    obtain ⟨hlo, hhi, hstop⟩ := hfail
    simp only [Option.some.injEq]
    exact ⟨fun h => ⟨⟨by omega, by omega⟩, hstop, h⟩, fun h => h.2.2⟩

theorem ipseg_dot_iff {p q : List UInt8} :
    ipseg dot p = some q ↔ ∃ x, (Octet x ∨ Padded x) ∧ p = x ++ dot :: q := by
  rw [← strtol_range_iff (.inr ⟨q, rfl⟩), ipseg_eq_some_iff]
  have hnz : (0 : UInt8) ≠ dot := by decide
  cases (strtol 10 p).2 with
  | nil => simp [hnz]
  | cons c rest =>
    simp only [List.headD_cons, List.tail_cons, List.cons.injEq]
    exact and_comm

theorem ipseg_nul_iff {p : List UInt8} (hp : 0 ∉ p) :
    (∃ q, ipseg 0 p = some q) ↔ Octet p ∨ Padded p := by
  have hiff := strtol_range_iff (p := p) (r := []) (.inl rfl)
  simp only [List.append_nil, exists_eq_right'] at hiff
  simp only [← hiff, ipseg_eq_some_iff]
  have hmem : 0 ∉ (strtol 10 p).2 := by
    obtain hz | ⟨blanks, sign, ds, rest, -, hs, hconv⟩ := strtol_cases p
    · rwa [hz]
    · rw [hconv]
      exact fun h => hp (hs ▸ by simp [h])
  cases hrest : (strtol 10 p).2 with
  | nil => simp
  | cons c rest =>
    have hc : c ≠ 0 := by
      rintro rfl
      exact hmem (by simp [hrest])
    simp [hc]

/-- The function accepts four segments of which each is an octet or a padded one. -/
theorem isIpString_iff {s : List UInt8} (hs : 0 ∉ s) :
    isIpString (some s) = true ↔ Dotted s fun segs => ∀ x ∈ segs, Octet x ∨ Padded x := by
  simp only [isIpString, Option.isSome_iff_exists, Option.bind_eq_some_iff]
  constructor
  · rintro ⟨_, r, ⟨q, ⟨p, hp, hq⟩, hr⟩, hlast⟩
    obtain ⟨a, ha, rfl⟩ := ipseg_dot_iff.mp hp
    obtain ⟨b, hb, rfl⟩ := ipseg_dot_iff.mp hq
    obtain ⟨c, hc, rfl⟩ := ipseg_dot_iff.mp hr
    have hr0 : 0 ∉ r := fun h => hs (by simp [h])
    have hd := (ipseg_nul_iff hr0).mp ⟨_, hlast⟩
    exact ⟨a, b, c, r, rfl, by simp [ha, hb, hc, hd]⟩
  · rintro ⟨a, b, c, d, rfl, h⟩
    simp only [List.forall_mem_cons, List.not_mem_nil, false_imp_iff, implies_true, and_true] at h
    obtain ⟨ha, hb, hc, hd⟩ := h
    have hd0 : 0 ∉ d := fun h => hs (by simp [h])
    obtain ⟨q, hq⟩ := (ipseg_nul_iff hd0).mpr hd
    exact ⟨q, d, ⟨c ++ dot :: d, ⟨b ++ dot :: (c ++ dot :: d), ipseg_dot_iff.mpr ⟨a, ha, rfl⟩,
      ipseg_dot_iff.mpr ⟨b, hb, rfl⟩⟩, ipseg_dot_iff.mpr ⟨c, hc, rfl⟩⟩, hq⟩

theorem dot_not_mem (h : Octet x ∨ Padded x) : dot ∉ x := by
  intro hmem
  rw [octet_or_padded_iff] at h
  obtain rfl | ⟨blanks, sign, ds, rfl, hnum, -⟩ := h
  · cases hmem
  · rw [List.mem_append, List.mem_append] at hmem
    obtain hm | hm | hm := hmem
    · exact absurd (hnum.blanks dot hm) (by decide)
    · obtain rfl | rfl | rfl := hnum.sign
      · cases hm
      · exact absurd hm (by decide)
      · exact absurd hm (by decide)
    · exact absurd (hnum.digits dot hm) (by decide)

theorem splitOnP_dots {a b c d : List UInt8} (h : ∀ x ∈ [a, b, c, d], dot ∉ x) :
    (a ++ dot :: (b ++ dot :: (c ++ dot :: d))).splitOnP (· == dot) = [a, b, c, d] := by
  have hone : ∀ x ∈ [a, b, c, d], x.splitOnP (· == dot) = [x] := by
    intro x hx
    refine List.splitOnP_eq_singleton fun e he => ?_
    exact beq_eq_false_iff_ne.mpr (ne_of_mem_of_not_mem he (h x hx))
  rw [List.splitOnP_append_cons _ _ rfl, List.splitOnP_append_cons _ _ rfl,
    List.splitOnP_append_cons _ _ rfl]
  rw [hone a (by simp), hone b (by simp), hone c (by simp), hone d (by simp)]
  rfl

theorem Dotted.unique {s : List UInt8} {P Q : List (List UInt8) → Prop}
    (hP : ∀ l, P l → ∀ x ∈ l, dot ∉ x) (hQ : ∀ l, Q l → ∀ x ∈ l, dot ∉ x) (h : Dotted s P)
    (h' : Dotted s Q) : ∃ l, P l ∧ Q l := by
  obtain ⟨a, b, c, d, heq, hp⟩ := h
  obtain ⟨a', b', c', d', heq', hq⟩ := h'
  have hsplit := splitOnP_dots (hP _ hp)
  rw [← heq, heq', splitOnP_dots (hQ _ hq)] at hsplit
  exact ⟨_, hp, hsplit ▸ hq⟩

/-- The function recognises exactly the dotted quads if and only if no segment is padded. -/
theorem isIpString_dottedQuad_iff {s : List UInt8} (hs : 0 ∉ s) :
    (isIpString (some s) = true ↔ DottedQuad s) ↔ ¬ PaddedQuad s := by
  rw [isIpString_iff hs]
  constructor
  · intro h hpad
    have hquad : DottedQuad s := h.mp (by
      obtain ⟨a, b, c, d, rfl, hall, -⟩ := hpad
      exact ⟨a, b, c, d, rfl, hall⟩)
    obtain ⟨l, hoct, -, x, hx, hpx⟩ := hquad.unique
      (fun l hl x hx => dot_not_mem (.inl (hl x hx))) (fun l hl x hx => dot_not_mem (hl.1 x hx)) hpad
    exact not_octet_of_padded hpx (hoct x hx)
  · intro hpad
    constructor
    · rintro ⟨a, b, c, d, rfl, hall⟩
      refine ⟨a, b, c, d, rfl, fun x hx => ?_⟩
      exact (hall x hx).resolve_right fun hp => hpad ⟨a, b, c, d, rfl, hall, x, hx, hp⟩
    · rintro ⟨a, b, c, d, rfl, hall⟩
      exact ⟨a, b, c, d, rfl, fun x hx => .inl (hall x hx)⟩

theorem isIpString_dottedQuad_loopback :
    (isIpString (some "127.0.0.1".toUTF8.toList) = true ↔ DottedQuad "127.0.0.1".toUTF8.toList) ↔
      ¬ PaddedQuad "127.0.0.1".toUTF8.toList :=
  isIpString_dottedQuad_iff (by decide +kernel)

/-- Three dots are taken for an address. -/
theorem isIpString_three_dots :
    isIpString (some [dot, dot, dot]) = true ∧ ¬ DottedQuad [dot, dot, dot] := by
  refine ⟨by decide +kernel, ?_⟩
  rintro ⟨a, b, c, d, heq, hall⟩
  have hlen := congrArg List.length heq
  have ha := List.length_pos_iff.mpr (hall a (by simp)).1
  simp only [List.length_append, List.length_cons, List.length_nil] at hlen
  omega

end EmbeddedTemplate.Atcmd
