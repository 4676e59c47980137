import EmbeddedTemplate.Atcmd.Receiver

/-! TCP frames in the receiver: how many bytes the length field makes it take, and how its
deadline compares with real time. -/
namespace EmbeddedTemplate.Atcmd

open Transition

/-- A byte with the results of the two `os_get_time` calls made for it. -/
structure Arrival where
  byte : UInt8
  t : UInt32
  now : UInt32

def Arrival.receive (a : Atcmd) (x : Arrival) : Atcmd :=
  recvSerialByte a x.byte x.t.toNat x.now.toNat

def handlers : Atcmd → List Arrival → List Handler
  | _, [] => []
  | a, x :: xs => (checkDeadline a x.t.toNat).serialRecv :: handlers (x.receive a) xs

def Timely : Atcmd → List Arrival → Prop
  | _, [] => True
  | a, x :: xs =>
    (a.serialRecv ≠ .serialDefault → x.t.toNat < a.timeToDefault) ∧ Timely (x.receive a) xs

def spelled (header : List UInt8) : ℕ := decimal (header.filter fun b => 48 ≤ b && b ≤ 57)

/-- Exactly the next `n` bytes go to `serial_recv_ipd_content`, and the byte after them is the
first one for `serial_recv_serial_default`. -/
def Accounted (n : ℕ) (hs : List Handler) : Prop :=
  hs.take n = List.replicate (min n hs.length) .ipdContent ∧ ∀ h ∈ hs[n]?, h = .serialDefault

instance (n : ℕ) (hs : List Handler) : Decidable (Accounted n hs) := inferInstanceAs (Decidable (_ ∧ _))

variable {a : Atcmd}

theorem Timely.append {xs ys : List Arrival} (h : Timely a (xs ++ ys)) :
    Timely a xs ∧ Timely (xs.foldl (fun a x => x.receive a) a) ys := by
  induction xs generalizing a with
  | nil => exact ⟨trivial, h⟩
  | cons x xs ih => exact ⟨⟨h.1, (ih h.2).1⟩, (ih h.2).2⟩

theorem receive_eq {x : Arrival} (ht : a.serialRecv ≠ .serialDefault → x.t.toNat < a.timeToDefault) :
    x.receive a = callSerialRecv a x.byte x.now.toNat := by
  rw [Arrival.receive, recvSerialByte, checkDeadline_of_lt ht]

theorem receive_ipd (ha : Boundary a) {xs : List Arrival} (hxs : xs.map Arrival.byte = ipd)
    (ht : Timely a xs) :
    (xs.foldl (fun a x => x.receive a) a).serialRecv = .ipdLength ∧
      (xs.foldl (fun a x => x.receive a) a).ipdLength = 0 := by
  obtain ⟨x, y, z, rfl⟩ := List.length_eq_three.mp (by simpa [ipd] using congrArg List.length hxs)
  simp only [List.map_cons, List.map_nil, ipd, List.cons.injEq, and_true] at hxs
  obtain ⟨hx, hy, hz⟩ := hxs
  obtain ⟨htx, hty, htz, -⟩ := ht
  have h1 : x.receive a = serialRecvSerialDefault a x.byte x.now.toNat := by
    rw [receive_eq htx, callSerialRecv, ha.1]
  obtain ⟨hr1, hs1⟩ := recvDefault_char ha.1 ha.seen_nil (b := x.byte) (by rw [hx]; decide)
    (by rw [hx]; decide) (by rw [hx]; decide) x.now.toNat
  rw [← h1] at hr1 hs1
  have h2 : y.receive (x.receive a) = serialRecvSerialDefault (x.receive a) y.byte y.now.toNat := by
    rw [receive_eq hty, callSerialRecv, hr1]
  obtain ⟨hr2, hs2⟩ := recvDefault_char hr1 hs1 (b := y.byte) (by rw [hy]; decide)
    (by rw [hy]; decide) (by rw [hx, hy]; decide) y.now.toNat
  rw [← h2] at hr2 hs2
  have h3 : z.receive (y.receive (x.receive a)) =
      serialRecvSerialDefault (y.receive (x.receive a)) z.byte z.now.toNat := by
    rw [receive_eq htz, callSerialRecv, hr2]
  obtain ⟨hr3, -, hl3⟩ := recvDefault_ipd hs2 (b := z.byte) (by rw [hz]; decide)
    (by rw [hz]; decide) (by rw [hx, hy, hz]; rfl) z.now.toNat
  rw [← h3] at hr3 hl3
  exact ⟨hr3, hl3⟩

theorem receive_header {d : List UInt8} (hr : a.serialRecv = .ipdLength)
    (hlen : a.ipdLength = decimal d % 2 ^ 16) {xs : List Arrival} (ht : Timely a xs)
    (hcolon : colon ∉ xs.map Arrival.byte) :
    (xs.foldl (fun a x => x.receive a) a).serialRecv = .ipdLength ∧
      (xs.foldl (fun a x => x.receive a) a).ipdLength =
        decimal (d ++ (xs.map Arrival.byte).filter fun b => 48 ≤ b && b ≤ 57) % 2 ^ 16 := by
  induction xs generalizing a d with
  | nil => simpa using ⟨hr, hlen⟩
  | cons x xs ih =>
    rw [List.map_cons, List.mem_cons, not_or] at hcolon
    have hx : x.receive a = serialRecvIpdLength a x.byte x.now.toNat := by
      rw [receive_eq ht.1, callSerialRecv, hr]
    rw [List.foldl_cons, List.map_cons, List.filter_cons]
    by_cases hd : 48 ≤ x.byte ∧ x.byte ≤ 57
    · have hdb : (48 ≤ x.byte && x.byte ≤ 57) = true := by simpa using hd
      rw [if_pos hdb, List.append_cons]
      have hnew : x.receive a = { a with
          ipdLength := Word.wrap 16 (Word.wrap 16 (a.ipdLength * 10 : ℕ) + (x.byte.toNat - 48) : ℕ) } := by
        rw [hx, serialRecvIpdLength, if_neg (Ne.symm hcolon.1), if_pos hd]
      refine ih (by rw [hnew]; exact hr) ?_ ht.2 hcolon.2
      rw [hnew, decimal_concat]
      simp only [Word.wrap_natCast, hlen]
      omega
    · have hdb : ¬ (48 ≤ x.byte && x.byte ≤ 57) = true := by simpa using hd
      rw [if_neg hdb]
      have hsame : x.receive a = a := by
        rw [hx, serialRecvIpdLength, if_neg (Ne.symm hcolon.1), if_neg hd]
      rw [hsame]
      exact ih hr hlen (hsame ▸ ht.2) hcolon.2

theorem length_handlers (a : Atcmd) (xs : List Arrival) : (handlers a xs).length = xs.length := by
  induction xs generalizing a with
  | nil => rfl
  | cons x xs ih => rw [handlers, List.length_cons, List.length_cons, ih]

theorem Accounted.content {n i : ℕ} {hs : List Handler} (h : Accounted n hs) (hi : i < n)
    (hlt : i < hs.length) : hs[i]? = some .ipdContent := by
  have htake : (hs.take n)[i]? = hs[i]? := by rw [List.getElem?_take, if_pos hi]
  rw [← htake, h.1, List.getElem?_replicate, if_pos (by omega)]

/-- A stream that is long enough shows how many bytes were taken. -/
theorem Accounted.unique {m n : ℕ} {hs : List Handler} (hm : Accounted m hs) (hn : Accounted n hs)
    (hlen : m < hs.length) : m = n := by
  rcases Nat.lt_trichotomy m n with hlt | heq | hlt
  · exact Handler.noConfusion (hm.2 _ (hn.content hlt hlen))
  · exact heq
  · exact Handler.noConfusion (hn.2 _ (hm.content hlt (by omega)))

theorem accounted_cons {n : ℕ} {hs : List Handler} (h : Accounted n hs) :
    Accounted (n + 1) (.ipdContent :: hs) := by
  refine ⟨?_, h.2⟩
  rw [List.take_succ_cons, h.1, List.length_cons, Nat.add_min_add_right, List.replicate_succ]

theorem handlers_default (hr : a.serialRecv = .serialDefault) (xs : List Arrival) :
    Accounted 0 (handlers a xs) := by
  cases xs with
  | nil => simp [Accounted, handlers]
  | cons x xs =>
    have hsame : checkDeadline a x.t.toNat = a := checkDeadline_of_lt fun hne => absurd hr hne
    simp [Accounted, handlers, hsame, hr]

/-- The payload: the length is compared after a byte has been taken, so at least one is. -/
theorem handlers_content {k m : ℕ} (hr : a.serialRecv = .ipdContent) (hidx : a.ipdRecvIndex = k)
    (hm : max a.ipdLength 1 = k + m) (hpos : 0 < m) (hlt : k + m < 2 ^ 16) {xs : List Arrival}
    (ht : Timely a xs) : Accounted m (handlers a xs) := by
  induction m generalizing a k xs with
  | zero => omega
  | succ m ih =>
    cases xs with
    | nil => simp [Accounted, handlers]
    | cons x xs =>
      have hx : x.receive a = serialRecvIpdContent a x.byte x.now.toNat := by
        rw [receive_eq ht.1, callSerialRecv, hr]
      have hnext : Word.wrap 16 ((a.ipdRecvIndex : ℤ) + 1) = k + 1 := by
        rw [hidx]
        exact @Word.wrap_of_lt 16 (k + 1) (by omega)
      have hfirst : (checkDeadline a x.t.toNat).serialRecv = .ipdContent := by
        rw [checkDeadline_of_lt ht.1, hr]
      rw [handlers, hfirst]
      apply accounted_cons
      by_cases hend : a.ipdLength ≤ k + 1
      · have hm0 : m = 0 := by omega
        rw [hm0]
        apply handlers_default
        rw [hx]
        simp only [serialRecvIpdContent, hnext, if_pos hend]
      · have hgo : (x.receive a).serialRecv = .ipdContent ∧ (x.receive a).ipdRecvIndex = k + 1 ∧
            (x.receive a).ipdLength = a.ipdLength := by
          rw [hx]
          simp only [serialRecvIpdContent, hnext, if_neg hend]
          exact ⟨hr, trivial, trivial⟩
        exact ih hgo.1 hgo.2.1 (by rw [hgo.2.2]; omega) (by omega) (by omega) ht.2

theorem handlers_frame (ha : Boundary a) {header : List UInt8} (hcolon : colon ∉ header)
    {xs stream : List Arrival} (hxs : xs.map Arrival.byte = ipd ++ header ++ [colon])
    (ht : Timely a (xs ++ stream)) :
    Accounted (max (spelled header % 2 ^ 16) 1)
      (handlers (xs.foldl (fun a x => x.receive a) a) stream) := by
  obtain ⟨zs, cs, rfl, hzs, hcs⟩ := List.map_eq_append_iff.mp hxs
  obtain ⟨is, hs, rfl, his, hhs⟩ := List.map_eq_append_iff.mp hzs
  obtain ⟨c, rfl, hc⟩ := List.map_eq_singleton_iff.mp hcs
  obtain ⟨hframe, hstream⟩ := ht.append
  obtain ⟨hhead, htc⟩ := hframe.append
  obtain ⟨hti, hth⟩ := hhead.append
  obtain ⟨hr1, hl1⟩ := receive_ipd ha his hti
  obtain ⟨hr2, hl2⟩ := receive_header hr1 (d := []) (by rw [hl1]; rfl) hth (hhs ▸ hcolon)
  rw [List.foldl_append, List.foldl_append] at hstream ⊢
  rw [List.foldl_append] at htc
  generalize hs.foldl (fun a x => x.receive a) (is.foldl (fun a x => x.receive a) a) = a' at *
  have hcontent : c.receive a' = serialRecvIpdLength a' colon c.now.toNat := by
    rw [receive_eq htc.1, callSerialRecv, hr2, hc]
  rw [serialRecvIpdLength, if_pos rfl] at hcontent
  rw [List.foldl_cons, List.foldl_nil] at hstream ⊢
  have hlen : (c.receive a').ipdLength = spelled header % 2 ^ 16 := by
    rw [hcontent, ← hhs]
    exact hl2
  refine @handlers_content _ 0 _ (by rw [hcontent]) (by rw [hcontent]) ?_ (by omega) (by omega) _ hstream
  rw [hlen, Nat.zero_add]

/-- The span of the deadline that the handler of `a` sets when it turns `a` into `a'`. -/
def arms (a a' : Atcmd) (b : UInt8) : Option ℕ :=
  match a.serialRecv with
  | .ipdContent => some 20
  | .ipdLength => if b = colon then some 20 else none
  | .serialDefault => if a'.serialRecv = .ipdLength then some 50 else none

theorem arms_cases {a' : Atcmd} {b : UInt8} {n : ℕ} (h : arms a a' b = some n) : n = 20 ∨ n = 50 := by
  unfold arms at h
  split at h
  · exact .inl (Option.some.inj h).symm
  · split_ifs at h
    exact .inl (Option.some.inj h).symm
  · split_ifs at h
    exact .inr (Option.some.inj h).symm

theorem serialRecvSerialDefault_start (hr : a.serialRecv = .serialDefault) (b : UInt8) (now : ℕ) :
    let a' := serialRecvSerialDefault a b now
    (a'.serialRecv = .ipdLength ∧ a'.timeToDefault = Word.wrap 32 (now + 50 : ℕ)) ∨
      a'.serialRecv = .serialDefault := by
  have hkeep : (keepPrefix a b).serialRecv = .serialDefault := by
    rw [← hr]
    unfold keepPrefix
    split_ifs <;> rfl
  unfold serialRecvSerialDefault
  split_ifs with hlf hcr
  · exact .inr hr
  · simp only
    split_ifs
    · exact .inl ⟨rfl, rfl⟩
    · exact .inr hkeep
  · exact .inr hr

theorem callSerialRecv_deadline (a : Atcmd) (b : UInt8) (now : ℕ) :
    let a' := callSerialRecv a b now
    (∃ n : ℕ, arms a a' b = some n ∧ a'.timeToDefault = Word.wrap 32 (now + n : ℕ)) ∨
      arms a a' b = none ∧ (a'.serialRecv ≠ .serialDefault →
        a'.timeToDefault = a.timeToDefault ∧ a.serialRecv ≠ .serialDefault) := by
  unfold callSerialRecv arms
  cases hr : a.serialRecv with
  | ipdContent =>
    left
    refine ⟨20, rfl, ?_⟩
    simp only [serialRecvIpdContent]
    split_ifs <;> rfl
  | ipdLength =>
    simp only [serialRecvIpdLength]
    by_cases hb : b = colon
    · rw [if_pos hb, if_pos hb]
      exact .inl ⟨20, rfl, rfl⟩
    · rw [if_neg hb, if_neg hb]
      refine .inr ⟨rfl, fun _ => ⟨?_, by simp⟩⟩
      split_ifs <;> rfl
  | serialDefault =>
    obtain ⟨hlen, htime⟩ | hdef := serialRecvSerialDefault_start hr b now
    · simp only [hlen, if_true]
      exact .inl ⟨50, rfl, htime⟩
    · simp only [hdef, reduceCtorEq, if_false]
      exact .inr ⟨trivial, fun hne => absurd rfl hne⟩

def atZero (bs : List UInt8) : List Arrival := bs.map fun b => ⟨b, 0, 0⟩

theorem timely_atZero (h : a.serialRecv ≠ .serialDefault → 0 < a.timeToDefault) (bs : List UInt8) :
    Timely a (atZero bs) := by
  induction bs generalizing a with
  | nil => trivial
  | cons b bs ih =>
    refine ⟨h, ih fun hne => ?_⟩
    have hcall := callSerialRecv_deadline a b 0
    rw [receive_eq h] at hne ⊢
    obtain ⟨n, hn, htime⟩ | ⟨-, hkeep⟩ := hcall
    · have hspan : Word.wrap 32 ((0 + n : ℕ) : ℤ) = n := by
        rw [Nat.zero_add]
        exact Word.wrap_of_lt (by rcases arms_cases hn with rfl | rfl <;> decide)
      rcases arms_cases hn with rfl | rfl
      · exact (htime.trans hspan).symm ▸ (by decide : 0 < 20)
      · exact (htime.trans hspan).symm ▸ (by decide : 0 < 50)
    · obtain ⟨hsame, hframe⟩ := hkeep hne
      exact hsame.symm ▸ h hframe

/-- For every header at the start of a line and every stream behind it, with no deadline
expiring: the number of payload bytes is the one the header spells exactly when that is
between 1 and 65535. -/
theorem ipd_length_accounted_iff (ha : Boundary a) {header : List UInt8} (hcolon : colon ∉ header) :
    (∀ xs stream : List Arrival, xs.map Arrival.byte = ipd ++ header ++ [colon] →
      Timely a (xs ++ stream) →
        Accounted (spelled header) (handlers (xs.foldl (fun a x => x.receive a) a) stream)) ↔
      1 ≤ spelled header ∧ spelled header < 2 ^ 16 := by
  constructor
  · intro h
    -- one byte more than the receiver takes, all of them at time 0
    let m := max (spelled header % 2 ^ 16) 1
    have hxs : (atZero (ipd ++ header ++ [colon])).map Arrival.byte = ipd ++ header ++ [colon] := by
      rw [atZero, List.map_map]
      exact List.map_id _
    have ht : Timely a (atZero (ipd ++ header ++ [colon]) ++ atZero (List.replicate (m + 1) 0)) := by
      rw [atZero, atZero, ← List.map_append]
      exact timely_atZero (fun hne => absurd ha.1 hne) _
    have hclaim := h _ _ hxs ht
    have hcode := handlers_frame ha hcolon hxs ht
    have heq : m = spelled header := hcode.unique hclaim (by simp [length_handlers, atZero, m])
    omega
  · rintro ⟨hpos, hlt⟩ xs stream hxs ht
    have hframe := handlers_frame ha hcolon hxs ht
    rwa [Nat.mod_eq_of_lt hlt, max_eq_left hpos] at hframe

/-- The header `,3` and four bytes. -/
theorem ipd_length_accounted_three :
    Accounted 3 (handlers ((atZero (ipd ++ [44, 51] ++ [colon])).foldl (fun a x => x.receive a) .zero)
      (atZero [7, 7, 7, 7])) :=
  (ipd_length_accounted_iff ⟨rfl, rfl⟩ (show colon ∉ [44, 51] by decide)).mpr (by decide) _ _ rfl
    (timely_atZero (by simp [zero]) [73, 80, 68, 44, 51, 58, 7, 7, 7, 7])

/-- Behind the header `0` one byte is taken as payload, and behind `65537` only one. -/
theorem ipd_length_zero_and_wrapped :
    Timely .zero (atZero (ipd ++ [48] ++ [colon] ++ [7])) ∧
      ¬ Accounted (spelled [48])
        (handlers ((atZero (ipd ++ [48] ++ [colon])).foldl (fun a x => x.receive a) .zero) (atZero [7])) ∧
      Timely .zero (atZero (ipd ++ [54, 53, 53, 51, 55] ++ [colon] ++ [7, 7])) ∧
      ¬ Accounted (spelled [54, 53, 53, 51, 55])
        (handlers ((atZero (ipd ++ [54, 53, 53, 51, 55] ++ [colon])).foldl (fun a x => x.receive a) .zero)
          (atZero [7, 7])) :=
  ⟨timely_atZero (by simp [zero]) _, by decide +kernel, timely_atZero (by simp [zero]) _,
    by decide +kernel⟩

/-- The receiver and the real time in milliseconds: of the last reading, and of the event that
the current deadline counts from, with its span. -/
structure Clocked where
  atcmd : Atcmd
  time : ℕ
  since : ℕ
  span : ℕ

/-- `atcmd_recv_serial_byte` with the real times of its two readings. `os_get_time` returns
their low 32 bits. -/
def Clocked.next (x : Clocked) (b : UInt8) (t now : ℕ) : Clocked :=
  let a := checkDeadline x.atcmd (t % 2 ^ 32)
  let a' := callSerialRecv a b (now % 2 ^ 32)
  match arms a a' b with
  | some span => ⟨a', now, now, span⟩
  | none => { x with atcmd := a', time := now }

def tick (x : Clocked) (arrival : UInt8 × ℕ × ℕ) : Option Clocked :=
  if x.time ≤ arrival.2.1 ∧ arrival.2.1 ≤ arrival.2.2 then
    some (x.next arrival.1 arrival.2.1 arrival.2.2)
  else none

def Clocked.init (a : Atcmd) : Clocked := ⟨a, 0, 0, 0⟩

/-- Outside the line handler `time_to_default` is the deadline modulo `2 ^ 32`. -/
structure ClockedInv (x : Clocked) : Prop where
  deadline : x.atcmd.serialRecv ≠ .serialDefault →
    x.atcmd.timeToDefault = (x.since + x.span) % 2 ^ 32
  span_le : x.span ≤ 50
  since_le : x.since ≤ x.time

theorem ClockedInv.step {x x' : Clocked} (h : ClockedInv x) {arrival : UInt8 × ℕ × ℕ}
    (hs : tick x arrival = some x') : ClockedInv x' := by
  obtain ⟨b, t, now⟩ := arrival
  obtain ⟨⟨ht, hnow⟩, hs⟩ := Option.ite_none_right_eq_some.mp hs
  simp only at ht hnow
  cases hs
  have hsince := h.since_le
  unfold Clocked.next
  obtain ⟨n, hn, htime⟩ | ⟨hn, hkeep⟩ :=
    callSerialRecv_deadline (checkDeadline x.atcmd (t % 2 ^ 32)) b (now % 2 ^ 32)
  · simp only [hn]
    refine ⟨fun _ => ?_, ?_, le_rfl⟩
    · rw [Word.wrap_natCast, Nat.mod_add_mod] at htime
      exact htime
    · have := arms_cases hn
      simp only
      omega
  · simp only [hn]
    refine ⟨fun hne => ?_, h.span_le, by simp only; omega⟩
    obtain ⟨hsame, hframe⟩ := hkeep hne
    -- the deadline has not been reached, or the line handler would be set
    have hcheck : checkDeadline x.atcmd (t % 2 ^ 32) = x.atcmd := by
      unfold checkDeadline at hframe ⊢
      split_ifs at hframe ⊢ with hdue
      · exact absurd rfl hframe
      · rfl
    rw [hcheck] at hframe
    exact hsame.trans ((congrArg Atcmd.timeToDefault hcheck).trans (h.deadline hframe))

/-- Neither the deadline nor the clock wraps around between the event and the byte with an
effect on the comparison. -/
def Unwrapped (x : Clocked) (t : ℕ) : Prop :=
  (t < x.since + x.span → t / 2 ^ 32 = (x.since + x.span) / 2 ^ 32) ∧
    (x.since + x.span ≤ t → (x.since + x.span) % 2 ^ 32 ≤ t % 2 ^ 32)

/-- In every run from `atcmd_init`, for a byte that arrives inside a frame: the receiver is
forced back to the line handler exactly when the span of the deadline has elapsed, if and only
if the comparison is not disturbed by a wrap-around. An earlier payload byte is then never
taken for a line byte. -/
theorem deadline_honoured_iff (a : Atcmd) (recvBuffer ipdBuffer : ℕ → UInt8) (recvLen ipdLen : UInt8)
    {arrivals : List (UInt8 × ℕ × ℕ)} {x : Clocked}
    (hrun : run tick (.init (Atcmd.init a recvBuffer ipdBuffer recvLen ipdLen)) arrivals = some x)
    (hframe : x.atcmd.serialRecv ≠ .serialDefault) {t : ℕ} (ht : x.time ≤ t) :
    (((checkDeadline x.atcmd (t % 2 ^ 32)).serialRecv = .serialDefault ↔ x.since + x.span ≤ t) ↔
      Unwrapped x t) ∧
    (Unwrapped x t → t < x.since + x.span →
      (checkDeadline x.atcmd (t % 2 ^ 32)).serialRecv = x.atcmd.serialRecv) := by
  have h : ClockedInv x := run_preserves (fun _ _ _ hI hs => hI.step hs)
    ⟨fun hne => absurd rfl hne, Nat.zero_le _, le_rfl⟩ hrun
  have hdl := h.deadline hframe
  have hspan := h.span_le
  have hsince := h.since_le
  have hforced : (checkDeadline x.atcmd (t % 2 ^ 32)).serialRecv = .serialDefault ↔
      (x.since + x.span) % 2 ^ 32 ≤ t % 2 ^ 32 := by
    rw [← hdl]
    unfold checkDeadline
    by_cases hle : x.atcmd.timeToDefault ≤ t % 2 ^ 32
    · rw [if_pos ⟨hframe, hle⟩]
      exact iff_of_true rfl hle
    · rw [if_neg fun hdue => hle hdue.2]
      exact iff_of_false hframe hle
  have hiff : ((checkDeadline x.atcmd (t % 2 ^ 32)).serialRecv = .serialDefault ↔ x.since + x.span ≤ t) ↔
      Unwrapped x t := by
    rw [hforced]
    unfold Unwrapped
    omega
  refine ⟨hiff, fun hun hlt => ?_⟩
  have hnot : ¬ (checkDeadline x.atcmd (t % 2 ^ 32)).serialRecv = .serialDefault := by
    rw [hiff.mpr hun]
    omega
  unfold checkDeadline at hnot ⊢
  split_ifs at hnot ⊢ with hdue
  · exact absurd rfl hnot
  · rfl

/-- The second payload byte of a frame, 5 ms after the first one. -/
theorem deadline_honoured_second_byte :
    ∃ x ∈ run tick (.init (Atcmd.init .zero (fun _ => 0) (fun _ => 0) 20 4))
        [(73, 100, 100), (80, 101, 101), (68, 102, 102), (50, 103, 104), (58, 110, 110), (7, 120, 121)],
      x.atcmd.serialRecv = .ipdContent ∧ x.since = 121 ∧
        (checkDeadline x.atcmd (126 % 2 ^ 32)).serialRecv = .ipdContent := by
  have hrun : ∃ x ∈ run tick (.init (Atcmd.init .zero (fun _ => 0) (fun _ => 0) 20 4))
      [(73, 100, 100), (80, 101, 101), (68, 102, 102), (50, 103, 104), (58, 110, 110), (7, 120, 121)],
      x.atcmd.serialRecv = .ipdContent ∧ x.time = 121 ∧ x.since = 121 ∧ x.span = 20 := by
    decide +kernel
  obtain ⟨x, hx, hr, htime, hsince, hspan⟩ := hrun
  have hun : Unwrapped x 126 := by
    unfold Unwrapped
    omega
  obtain ⟨-, hearly⟩ := deadline_honoured_iff .zero (fun _ => 0) (fun _ => 0) 20 4 hx (by simp [hr])
    (show x.time ≤ 126 by omega)
  exact ⟨x, hx, hr, hsince, (hearly hun (by omega)).trans hr⟩

/-- The first payload byte is taken 10 ms before the clock wraps around, which puts the
deadline at 10: the second one, 5 ms later, is taken for a line byte. After a wrap-around a
byte that is too late is still taken as payload. -/
theorem deadline_wraps :
    (∃ x ∈ run tick (.init (Atcmd.init .zero (fun _ => 0) (fun _ => 0) 20 4))
        ([73, 80, 68, 50].map (fun b => (b, 2 ^ 32 - 70, 2 ^ 32 - 70)) ++
          [(58, 2 ^ 32 - 25, 2 ^ 32 - 25), (7, 2 ^ 32 - 10, 2 ^ 32 - 10)]),
      x.atcmd.serialRecv = .ipdContent ∧ x.since = 2 ^ 32 - 10 ∧ x.span = 20 ∧
        (checkDeadline x.atcmd ((2 ^ 32 - 5) % 2 ^ 32)).serialRecv = .serialDefault) ∧
    ∃ x ∈ run tick (.init (Atcmd.init .zero (fun _ => 0) (fun _ => 0) 20 4))
        ([73, 80, 68, 50, 58, 7].map fun b => (b, 2 ^ 32 - 60, 2 ^ 32 - 60)),
      x.since = 2 ^ 32 - 60 ∧ x.span = 20 ∧
        (checkDeadline x.atcmd ((2 ^ 32 + 5) % 2 ^ 32)).serialRecv = .ipdContent := by
  decide +kernel

end EmbeddedTemplate.Atcmd
