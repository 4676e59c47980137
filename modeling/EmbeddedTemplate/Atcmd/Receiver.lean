import EmbeddedTemplate.Atcmd.Basic
import EmbeddedTemplate.Ringbuffer.Fifo

/-! The receiver against the segments of the stream: every byte of a line or a frame goes to
the handler it is meant for, and the receiver is in step again after each segment. -/
namespace EmbeddedTemplate.Atcmd

/-- A part of the stream: a text line without its line feed, or a TCP frame with the bytes
of its length field. -/
inductive Segment where
  | line (chars : List UInt8)
  | frame (digits payload : List UInt8)

def decimal (digits : List UInt8) : ℕ := digits.foldl (fun n b => n * 10 + (b.toNat - 48)) 0

def kept (chars : List UInt8) : List UInt8 := chars.filter (· ≠ carriageReturn)

namespace Segment

def Ok : Segment → Prop
  | .line chars => lineFeed ∉ chars ∧ ¬ ipd <+: kept chars
  | .frame digits payload =>
    (∀ b ∈ digits, 48 ≤ b ∧ b ≤ 57) ∧ decimal digits = payload.length ∧
      1 ≤ payload.length ∧ payload.length ≤ 65535

instance Ok.decidable : ∀ g : Segment, Decidable g.Ok
  | .line chars => inferInstanceAs (Decidable (lineFeed ∉ chars ∧ ¬ ipd <+: kept chars))
  | .frame digits payload =>
    inferInstanceAs (Decidable ((∀ b ∈ digits, 48 ≤ b ∧ b ≤ 57) ∧
      decimal digits = payload.length ∧ 1 ≤ payload.length ∧ payload.length ≤ 65535))

/-- The bytes of a segment and the handler each of them is meant for. -/
def routed : Segment → List (Handler × UInt8)
  | .line chars => (chars ++ [lineFeed]).map (Handler.serialDefault, ·)
  | .frame digits payload =>
    ipd.map (Handler.serialDefault, ·) ++ ((digits ++ [colon]).map (Handler.ipdLength, ·) ++
      payload.map (Handler.ipdContent, ·))

def bytes (g : Segment) : List UInt8 := g.routed.map Prod.snd

end Segment

/-- `auto_prefix` holds the first bytes of `cs`. -/
structure Seen (a : Atcmd) (cs : List UInt8) : Prop where
  index : a.autoPrefixIndex = min 5 cs.length
  bytes : ∀ i < a.autoPrefixIndex, cs[i]? = some (a.autoPrefix i)

/-- The receiver stands inside a segment, with `hd` behind it and `tl` ahead of it. -/
inductive Inside (a : Atcmd) : List (Handler × UInt8) → List (Handler × UInt8) → Prop
  | line (seen rest : List UInt8) (hr : a.serialRecv = .serialDefault) (hs : Seen a (kept seen))
      (hlf : lineFeed ∉ rest) (hipd : ¬ ipd <+: kept seen ++ kept rest) :
      Inside a (seen.map (Handler.serialDefault, ·))
        ((rest ++ [lineFeed]).map (Handler.serialDefault, ·))
  | header (seen rest digits payload : List UInt8) (hr : a.serialRecv = .serialDefault)
      (hs : Seen a seen) (hipd : seen ++ rest = ipd) (hrest : rest ≠ [])
      (hok : (Segment.frame digits payload).Ok) :
      Inside a (seen.map (Handler.serialDefault, ·))
        (rest.map (Handler.serialDefault, ·) ++
          ((digits ++ [colon]).map (Handler.ipdLength, ·) ++
            payload.map (Handler.ipdContent, ·)))
  | length (seen rest payload : List UInt8) (hr : a.serialRecv = .ipdLength)
      (hi : a.autoPrefixIndex = 0) (hlen : a.ipdLength = decimal seen)
      (hok : (Segment.frame (seen ++ rest) payload).Ok) :
      Inside a (ipd.map (Handler.serialDefault, ·) ++ seen.map (Handler.ipdLength, ·))
        ((rest ++ [colon]).map (Handler.ipdLength, ·) ++ payload.map (Handler.ipdContent, ·))
  | content (digits seen rest : List UInt8) (hr : a.serialRecv = .ipdContent)
      (hi : a.autoPrefixIndex = 0) (hidx : a.ipdRecvIndex = seen.length)
      (hlen : a.ipdLength = (seen ++ rest).length) (hlt : (seen ++ rest).length ≤ 65535)
      (hrest : rest ≠ []) :
      Inside a (ipd.map (Handler.serialDefault, ·) ++
          ((digits ++ [colon]).map (Handler.ipdLength, ·) ++ seen.map (Handler.ipdContent, ·)))
        (rest.map (Handler.ipdContent, ·))

theorem Inside.setIpdRb {a : Atcmd} {hd tl : List (Handler × UInt8)} (h : Inside a hd tl)
    (rb : Ringbuffer) : Inside { a with ipdRb := rb } hd tl := by
  cases h with
  | line seen rest hr hs hlf hipd => exact .line seen rest hr ⟨hs.index, hs.bytes⟩ hlf hipd
  | header seen rest digits payload hr hs hipd hrest hok =>
    exact .header seen rest digits payload hr ⟨hs.index, hs.bytes⟩ hipd hrest hok
  | length seen rest payload hr hi hlen hok => exact .length seen rest payload hr hi hlen hok
  | content digits seen rest hr hi hidx hlen hlt hrest =>
    exact .content digits seen rest hr hi hidx hlen hlt hrest

def Boundary (a : Atcmd) : Prop := a.serialRecv = .serialDefault ∧ a.autoPrefixIndex = 0

theorem Boundary.seen_nil {a : Atcmd} (h : Boundary a) : Seen a [] where
  index := by simp [h.2]
  bytes := by
    intro i hi
    rw [h.2] at hi
    omega

theorem Boundary.inside {a : Atcmd} (h : Boundary a) {g : Segment} (hg : g.Ok) :
    Inside a [] g.routed := by
  cases g with
  | line chars => exact .line [] chars h.1 h.seen_nil hg.1 hg.2
  | frame digits payload =>
    exact .header [] ipd digits payload h.1 h.seen_nil rfl (by decide) hg

variable {a : Atcmd} {b : UInt8} {h : Handler} {hd tl : List (Handler × UInt8)} {t : ℕ}

theorem kept_append (l₁ l₂ : List UInt8) : kept (l₁ ++ l₂) = kept l₁ ++ kept l₂ :=
  List.filter_append ..

theorem kept_singleton (hb : b ≠ carriageReturn) : kept [b] = [b] := by
  simp [kept, hb]

theorem Seen.keepPrefix {cs : List UInt8} (h : Seen a cs) (b : UInt8) :
    Seen (keepPrefix a b) (cs ++ [b]) := by
  have hidx := h.index
  unfold Atcmd.keepPrefix
  by_cases hlt : a.autoPrefixIndex < 5
  · rw [if_pos hlt]
    have hlen : a.autoPrefixIndex = cs.length := by omega
    constructor
    · simp only [List.length_append, List.length_singleton]
      omega
    · intro i hi
      simp only at hi ⊢
      by_cases hlast : i = a.autoPrefixIndex
      · rw [hlast, Function.update_self, hlen, List.getElem?_concat_length]
      · have hi' : i < a.autoPrefixIndex := by omega
        rw [Function.update_of_ne hlast, List.getElem?_append_left (by omega)]
        exact h.bytes i hi'
  · rw [if_neg hlt]
    constructor
    · rw [List.length_append, List.length_singleton]
      omega
    · intro i hi
      rw [List.getElem?_append_left (by omega)]
      exact h.bytes i hi

/-- The comparison with `"IPD"` looks at the whole line so far. -/
theorem Seen.compare {cs : List UInt8} (h : Seen a cs) :
    a.autoPrefixIndex = 3 ∧ (List.range 3).map a.autoPrefix = ipd ↔ cs = ipd := by
  have hidx := h.index
  constructor
  · rintro ⟨h3, hmem⟩
    have hlen : cs.length = 3 := by omega
    rw [← hmem]
    apply List.ext_getElem?
    intro i
    by_cases hi : i < 3
    · rw [h.bytes i (by omega)]
      simp [hi]
    · rw [List.getElem?_eq_none (by omega), List.getElem?_eq_none (by simp; omega)]
  · rintro rfl
    have h3 : a.autoPrefixIndex = 3 := hidx
    refine ⟨h3, ?_⟩
    have hb := h.bytes
    rw [h3] at hb
    have h0 := hb 0 (by omega)
    have h1 := hb 1 (by omega)
    have h2 := hb 2 (by omega)
    simp only [ipd, List.getElem?_cons_zero, List.getElem?_cons_succ, Option.some.injEq] at h0 h1 h2
    simp [List.range_succ, ← h0, ← h1, ← h2, ipd]

theorem checkDeadline_of_lt (hlt : a.serialRecv ≠ .serialDefault → t < a.timeToDefault) :
    checkDeadline a t = a := by
  unfold checkDeadline
  rw [if_neg]
  rintro ⟨hne, hle⟩
  have := hlt hne
  omega

theorem recvDefault_char {cs : List UInt8} (hr : a.serialRecv = .serialDefault)
    (hs : Seen a cs) (hlf : b ≠ lineFeed) (hcr : b ≠ carriageReturn)
    (hne : cs ++ [b] ≠ ipd) (now : ℕ) :
    (serialRecvSerialDefault a b now).serialRecv = .serialDefault ∧
      Seen (serialRecvSerialDefault a b now) (cs ++ [b]) := by
  have hs' := hs.keepPrefix b
  have hcmp : ¬ ((keepPrefix a b).autoPrefixIndex = 3 ∧
      (List.range 3).map (keepPrefix a b).autoPrefix = ipd) := fun hc => hne (hs'.compare.mp hc)
  have hkeep : (keepPrefix a b).serialRecv = a.serialRecv := by
    unfold Atcmd.keepPrefix
    split_ifs <;> rfl
  unfold serialRecvSerialDefault
  rw [if_neg hlf, if_pos hcr]
  simp only [hcmp, if_false]
  exact ⟨hkeep.trans hr, hs'.index, hs'.bytes⟩

theorem recvDefault_ipd {cs : List UInt8} (hs : Seen a cs) (hlf : b ≠ lineFeed)
    (hcr : b ≠ carriageReturn) (hipd : cs ++ [b] = ipd) (now : ℕ) :
    (serialRecvSerialDefault a b now).serialRecv = .ipdLength ∧
      (serialRecvSerialDefault a b now).autoPrefixIndex = 0 ∧
      (serialRecvSerialDefault a b now).ipdLength = 0 := by
  have hcmp := (hs.keepPrefix b).compare.mpr hipd
  unfold serialRecvSerialDefault
  rw [if_neg hlf, if_pos hcr]
  simp only [hcmp, and_self, if_true]

/-- What a handler leaves behind when it has taken the first byte of `tl`. -/
def Next (a : Atcmd) (hd tl : List (Handler × UInt8)) : Prop :=
  (tl = [] → Boundary a) ∧ (tl ≠ [] → Inside a hd tl)

theorem next_line (now : ℕ) (hr : a.serialRecv = .serialDefault) {seen rest : List UInt8}
    (hs : Seen a (kept seen)) (hlf : lineFeed ∉ rest) (hipd : ¬ ipd <+: kept seen ++ kept rest)
    (htl : (rest ++ [lineFeed]).map (Handler.serialDefault, ·) = (h, b) :: tl) :
    h = .serialDefault ∧ Next (serialRecvSerialDefault a b now)
      (seen.map (Handler.serialDefault, ·) ++ [(h, b)]) tl := by
  cases rest with
  | nil =>
    simp only [List.nil_append, List.map_cons, List.map_nil, List.cons.injEq, Prod.mk.injEq] at htl
    obtain ⟨⟨rfl, rfl⟩, rfl⟩ := htl
    refine ⟨rfl, fun _ => ⟨?_, ?_⟩, fun hne => absurd rfl hne⟩
    · rw [serialRecvSerialDefault, if_pos rfl]
      exact hr
    · rw [serialRecvSerialDefault, if_pos rfl]
  | cons c rest =>
    simp only [List.cons_append, List.map_cons, List.cons.injEq, Prod.mk.injEq] at htl
    obtain ⟨⟨rfl, rfl⟩, rfl⟩ := htl
    have hc : c ≠ lineFeed := fun he => hlf (by simp [he])
    have hlf' : lineFeed ∉ rest := fun hm => hlf (List.mem_cons_of_mem c hm)
    refine ⟨rfl, fun hnil => by simp at hnil, fun _ => ?_⟩
    rw [← List.map_singleton, ← List.map_append]
    by_cases hcr : c = carriageReturn
    · -- a carriage return is dropped by the handler and by `kept`
      have hkept : kept (seen ++ [c]) = kept seen := by
        rw [kept_append, hcr]
        simp [kept]
      have hsame : serialRecvSerialDefault a c now = a := by
        rw [serialRecvSerialDefault, if_neg hc, if_neg (not_not.mpr hcr)]
      rw [hsame]
      refine .line (seen ++ [c]) rest hr (hkept ▸ hs) hlf' ?_
      rw [hkept]
      rwa [show kept (c :: rest) = kept rest by simp [kept, hcr]] at hipd
    · have hcons : kept (c :: rest) = c :: kept rest := by simp [kept, hcr]
      rw [hcons, ← List.singleton_append, ← List.append_assoc] at hipd
      have hne : kept seen ++ [c] ≠ ipd := fun he => hipd (he ▸ List.prefix_append ipd _)
      obtain ⟨hr', hs'⟩ := recvDefault_char hr hs hc hcr hne now
      have hkept : kept (seen ++ [c]) = kept seen ++ [c] := by
        rw [kept_append, kept_singleton hcr]
      exact .line (seen ++ [c]) rest hr' (hkept ▸ hs') hlf' (by rwa [hkept])

theorem next_header (now : ℕ) (hr : a.serialRecv = .serialDefault)
    {seen rest digits payload : List UInt8} (hs : Seen a seen) (hipd : seen ++ rest = ipd)
    (hrest : rest ≠ []) (hok : (Segment.frame digits payload).Ok)
    (htl : rest.map (Handler.serialDefault, ·) ++ ((digits ++ [colon]).map (Handler.ipdLength, ·) ++
      payload.map (Handler.ipdContent, ·)) = (h, b) :: tl) :
    h = .serialDefault ∧ Next (serialRecvSerialDefault a b now)
      (seen.map (Handler.serialDefault, ·) ++ [(h, b)]) tl := by
  obtain ⟨c, rest, rfl⟩ := List.exists_cons_of_ne_nil hrest
  simp only [List.cons_append, List.map_cons, List.cons.injEq, Prod.mk.injEq] at htl
  obtain ⟨⟨rfl, rfl⟩, rfl⟩ := htl
  have hc : c ∈ ipd := by simp [← hipd]
  have hlf : c ≠ lineFeed := ne_of_mem_of_not_mem hc (by decide)
  have hcr : c ≠ carriageReturn := ne_of_mem_of_not_mem hc (by decide)
  refine ⟨rfl, fun hnil => by simp at hnil, fun _ => ?_⟩
  rw [← List.map_singleton, ← List.map_append]
  rw [← List.singleton_append, ← List.append_assoc] at hipd
  by_cases hlast : rest = []
  · subst hlast
    rw [List.append_nil] at hipd
    obtain ⟨hr', hi', hlen'⟩ := recvDefault_ipd hs hlf hcr hipd now
    have hlen := Inside.length [] digits payload hr' hi' hlen' hok
    rw [hipd]
    simpa using hlen
  · have hne : seen ++ [c] ≠ ipd := by
      intro he
      rw [he] at hipd
      exact hlast (by simpa using hipd)
    obtain ⟨hr', hs'⟩ := recvDefault_char hr hs hlf hcr hne now
    exact .header (seen ++ [c]) rest digits payload hr' hs' hipd hlast hok

theorem decimal_concat (ds : List UInt8) (d : UInt8) :
    decimal (ds ++ [d]) = decimal ds * 10 + (d.toNat - 48) := by
  simp [decimal]

theorem decimal_le_append (ds es : List UInt8) : decimal ds ≤ decimal (ds ++ es) := by
  induction es using List.reverseRecOn with
  | nil => simp
  | append_singleton es e ih =>
    rw [← List.append_assoc, decimal_concat]
    omega

theorem next_length (now : ℕ) (hr : a.serialRecv = .ipdLength) (hi : a.autoPrefixIndex = 0)
    {seen rest payload : List UInt8} (hlen : a.ipdLength = decimal seen)
    (hok : (Segment.frame (seen ++ rest) payload).Ok)
    (htl : (rest ++ [colon]).map (Handler.ipdLength, ·) ++ payload.map (Handler.ipdContent, ·) =
      (h, b) :: tl) :
    h = .ipdLength ∧ Next (serialRecvIpdLength a b now)
      (ipd.map (Handler.serialDefault, ·) ++ seen.map (Handler.ipdLength, ·) ++ [(h, b)]) tl := by
  obtain ⟨hdig, hval, hpos, hmax⟩ := hok
  cases rest with
  | nil =>
    simp only [List.nil_append, List.map_cons, List.map_nil, List.cons_append, List.cons.injEq,
      Prod.mk.injEq] at htl
    obtain ⟨⟨rfl, rfl⟩, rfl⟩ := htl
    have hne : payload ≠ [] := by
      rintro rfl
      simp at hpos
    refine ⟨rfl, fun hnil => absurd hnil (by simpa using hne), fun _ => ?_⟩
    rw [List.append_nil] at hval
    obtain ⟨hr', hi', hidx', hlen'⟩ : (serialRecvIpdLength a colon now).serialRecv = .ipdContent ∧
        (serialRecvIpdLength a colon now).autoPrefixIndex = 0 ∧
        (serialRecvIpdLength a colon now).ipdRecvIndex = 0 ∧
        (serialRecvIpdLength a colon now).ipdLength = payload.length := by
      rw [serialRecvIpdLength, if_pos rfl]
      exact ⟨rfl, hi, rfl, hlen.trans hval⟩
    simpa using Inside.content seen [] payload hr' hi' hidx' hlen' hmax hne
  | cons d rest =>
    simp only [List.cons_append, List.map_cons, List.cons.injEq, Prod.mk.injEq] at htl
    obtain ⟨⟨rfl, rfl⟩, rfl⟩ := htl
    have hd : 48 ≤ d ∧ d ≤ 57 := hdig d (by simp)
    have hcolon : d ≠ colon := by
      rintro rfl
      exact absurd hd.2 (by decide)
    rw [List.append_cons] at hdig hval
    -- the digits read so far spell at most the length of the payload
    have hle := decimal_le_append (seen ++ [d]) rest
    rw [hval, decimal_concat] at hle
    have hnew : (serialRecvIpdLength a d now).ipdLength = decimal (seen ++ [d]) := by
      have h10 : Word.wrap 16 ((a.ipdLength * 10 : ℕ) : ℤ) = a.ipdLength * 10 :=
        Word.wrap_of_lt (by omega)
      simp only [serialRecvIpdLength, if_neg hcolon, if_pos hd, h10]
      rw [decimal_concat, hlen]
      exact Word.wrap_of_lt (by omega)
    refine ⟨rfl, fun hnil => by simp at hnil, fun _ => ?_⟩
    rw [List.append_assoc, ← List.map_singleton, ← List.map_append]
    refine .length (seen ++ [d]) rest payload ?_ ?_ hnew ⟨hdig, hval, hpos, hmax⟩
    · simp only [serialRecvIpdLength, if_neg hcolon, if_pos hd]
      exact hr
    · simp only [serialRecvIpdLength, if_neg hcolon, if_pos hd]
      exact hi

theorem next_content (now : ℕ) (hr : a.serialRecv = .ipdContent) (hi : a.autoPrefixIndex = 0)
    {digits seen rest : List UInt8} (hidx : a.ipdRecvIndex = seen.length)
    (hlen : a.ipdLength = (seen ++ rest).length) (hlt : (seen ++ rest).length ≤ 65535)
    (hrest : rest ≠ []) (htl : rest.map (Handler.ipdContent, ·) = (h, b) :: tl) :
    h = .ipdContent ∧ Next (serialRecvIpdContent a b now)
      (ipd.map (Handler.serialDefault, ·) ++ ((digits ++ [colon]).map (Handler.ipdLength, ·) ++
        seen.map (Handler.ipdContent, ·)) ++ [(h, b)]) tl := by
  obtain ⟨c, rest, rfl⟩ := List.exists_cons_of_ne_nil hrest
  simp only [List.map_cons, List.cons.injEq, Prod.mk.injEq] at htl
  obtain ⟨⟨rfl, rfl⟩, rfl⟩ := htl
  rw [List.length_append, List.length_cons] at hlen hlt
  have hnext : Word.wrap 16 ((a.ipdRecvIndex : ℤ) + 1) = seen.length + 1 := by
    rw [hidx]
    exact Word.wrap_of_lt (n := seen.length + 1) (by omega)
  refine ⟨rfl, fun hnil => ⟨?_, ?_⟩, fun hne => ?_⟩
  · have hrest : rest.length = 0 := by simpa using hnil
    simp only [serialRecvIpdContent, hnext]
    rw [if_pos (by omega)]
  · simp only [serialRecvIpdContent]
    split_ifs <;> exact hi
  · have hpos : rest ≠ [] := by simpa using hne
    have hmore := List.length_pos_iff.mpr hpos
    have hend : ¬ a.ipdLength ≤ seen.length + 1 := by omega
    have hall : (seen ++ [c] ++ rest).length = seen.length + (rest.length + 1) := by
      rw [List.append_assoc, List.singleton_append, List.length_append, List.length_cons]
    obtain ⟨hr', hi', hidx', hlen'⟩ : (serialRecvIpdContent a c now).serialRecv = .ipdContent ∧
        (serialRecvIpdContent a c now).autoPrefixIndex = 0 ∧
        (serialRecvIpdContent a c now).ipdRecvIndex = seen.length + 1 ∧
        (serialRecvIpdContent a c now).ipdLength = seen.length + (rest.length + 1) := by
      simp only [serialRecvIpdContent, hnext, if_neg hend]
      exact ⟨hr, hi, trivial, hlen⟩
    simpa using Inside.content digits (seen ++ [c]) rest hr' hi' (hidx'.trans (by simp))
      (hlen'.trans hall.symm) (hall.trans_le hlt) hpos

/-- One byte: it goes to the handler it is meant for, and the receiver stays in step. -/
theorem Inside.next (hin : Inside a hd ((h, b) :: tl))
    (ht : a.serialRecv ≠ .serialDefault → t < a.timeToDefault) (now : ℕ) :
    (checkDeadline a t).serialRecv = h ∧
      Next (recvSerialByte a b t now) (hd ++ [(h, b)]) tl := by
  rw [recvSerialByte, checkDeadline_of_lt ht]
  generalize htl : (h, b) :: tl = tl' at hin
  cases hin with
  | line seen rest hr hs hlf hipd =>
    obtain ⟨rfl, hnext⟩ := next_line now hr hs hlf hipd htl.symm
    rw [callSerialRecv, hr]
    exact ⟨rfl, hnext⟩
  | header seen rest digits payload hr hs hipd hrest hok =>
    obtain ⟨rfl, hnext⟩ := next_header now hr hs hipd hrest hok htl.symm
    rw [callSerialRecv, hr]
    exact ⟨rfl, hnext⟩
  | length seen rest payload hr hi hlen hok =>
    obtain ⟨rfl, hnext⟩ := next_length now hr hi hlen hok htl.symm
    rw [callSerialRecv, hr]
    exact ⟨rfl, hnext⟩
  | content digits seen rest hr hi hidx hlen hlt hrest =>
    obtain ⟨rfl, hnext⟩ := next_content now hr hi hidx hlen hlt hrest htl.symm
    rw [callSerialRecv, hr]
    exact ⟨rfl, hnext⟩

end EmbeddedTemplate.Atcmd
