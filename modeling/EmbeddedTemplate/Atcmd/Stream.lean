import EmbeddedTemplate.Atcmd.Receiver

/-! The TCP payload from the serial stream to the callers of `atcmd_recv_tcp`, over all
schedules of arriving bytes and polls. -/
namespace EmbeddedTemplate.Atcmd

open Transition

variable {s s' : State}

/-- A byte arrives before the deadline, and a payload byte finds room. -/
def InTime (s : State) : Act → Prop
  | .byte t _ =>
    (s.atcmd.serialRecv ≠ .serialDefault → t.toNat < s.atcmd.timeToDefault) ∧
      (s.atcmd.serialRecv = .ipdContent → s.atcmd.ipdRb.len < s.atcmd.ipdRb.cap)
  | _ => True

instance InTime.decidable (s : State) : ∀ a, Decidable (InTime s a)
  | .byte t _ => inferInstanceAs (Decidable
      ((s.atcmd.serialRecv ≠ .serialDefault → t.toNat < s.atcmd.timeToDefault) ∧
        (s.atcmd.serialRecv = .ipdContent → s.atcmd.ipdRb.len < s.atcmd.ipdRb.cap)))
  | .recvTcp _ _ _ | .poll _ => isTrue trivial

def payload (handled : List (Handler × UInt8)) : List UInt8 :=
  (handled.filter fun p => p.1 = .ipdContent).map Prod.snd

/-- The bytes that `atcmd_recv_tcp` has taken out of `ipd_rb`: those of the calls that have
returned and those in the buffer of a running call. -/
def State.delivered (s : State) : List UInt8 :=
  s.returned ++ (s.reader.map Reader.buff).getD []

theorem payload_concat (handled : List (Handler × UInt8)) (h : Handler) (b : UInt8) :
    payload (handled ++ [(h, b)]) =
      payload handled ++ if h = .ipdContent then [b] else [] := by
  unfold payload
  by_cases hh : h = .ipdContent
  · simp [hh]
  · simp [hh]

theorem callSerialRecv_ipdRb (a : Atcmd) (b : UInt8) (now : ℕ) :
    (callSerialRecv a b now).ipdRb =
      if a.serialRecv = .ipdContent then (a.ipdRb.put b 1).2 else a.ipdRb := by
  unfold callSerialRecv
  cases hr : a.serialRecv with
  | serialDefault =>
    simp only [serialRecvSerialDefault, keepPrefix, reduceCtorEq, if_false]
    split_ifs <;> rfl
  | ipdLength =>
    simp only [serialRecvIpdLength, reduceCtorEq, if_false]
    split_ifs <;> rfl
  | ipdContent =>
    simp only [serialRecvIpdContent, if_true]
    split_ifs <;> rfl

/-- Nothing is lost between `ipd_rb` and the callers. -/
structure Conveyed (s : State) : Prop where
  inv : s.atcmd.ipdRb.Inv
  eq : s.delivered ++ s.atcmd.ipdRb.content = payload s.handled

namespace Conveyed

theorem byteStep (h : Conveyed s) {t now : ℕ}
    (ht : s.atcmd.serialRecv ≠ .serialDefault → t < s.atcmd.timeToDefault)
    (hroom : s.atcmd.serialRecv = .ipdContent → s.atcmd.ipdRb.len < s.atcmd.ipdRb.cap)
    (hs : byteStep s t now = some s') : Conveyed s' := by
  unfold Atcmd.byteStep at hs
  cases hw : s.wire with
  | nil =>
    rw [hw] at hs
    cases hs
  | cons b wire =>
    rw [hw] at hs
    cases hs
    have hrb := callSerialRecv_ipdRb s.atcmd b now
    by_cases hc : s.atcmd.serialRecv = .ipdContent
    · obtain ⟨hinv, -, -, hcont⟩ := Ringbuffer.tryWrite_spec h.inv (show [b].length < 2 ^ 16 by simp)
      have hspace := hroom hc
      rw [List.take_of_length_le (by simp; omega)] at hcont
      rw [if_pos hc, Ringbuffer.put_eq_tryWrite, List.replicate_one] at hrb
      constructor
      · simp only [recvSerialByte, checkDeadline_of_lt ht, hrb]
        exact hinv
      · simp only [recvSerialByte, checkDeadline_of_lt ht, hrb, hcont, payload_concat, if_pos hc,
          ← List.append_assoc]
        rw [← h.eq]
        rfl
    · rw [if_neg hc] at hrb
      constructor
      · simp only [recvSerialByte, checkDeadline_of_lt ht, hrb]
        exact h.inv
      · simp only [recvSerialByte, checkDeadline_of_lt ht, hrb, payload_concat, if_neg hc,
          List.append_nil]
        exact h.eq

theorem pollStep (h : Conveyed s) {r : Reader} (hr : s.reader = some r) (t : ℕ) :
    Conveyed (pollStep s r t) := by
  obtain ⟨hinv, -, hbytes, -, hcont⟩ :=
    Ringbuffer.tryRead_spec h.inv (Word.wrap_lt 16 ((r.len : ℤ) - r.buff.length))
  have heq := h.eq
  simp only [State.delivered, hr, Option.map_some, Option.getD_some] at heq
  have hsplit := List.prefix_iff_eq_append.mp
    (List.take_prefix (Word.wrap 16 ((r.len : ℤ) - r.buff.length)) s.atcmd.ipdRb.content)
  unfold Atcmd.pollStep
  dsimp only
  split_ifs
  · refine ⟨hinv, ?_⟩
    simp only [State.delivered, Option.map_none, Option.getD_none, List.append_nil]
    rw [hbytes, hcont, List.append_assoc, List.append_assoc, hsplit, ← List.append_assoc, heq]
  · refine ⟨hinv, ?_⟩
    simp only [State.delivered, Option.map_some, Option.getD_some]
    rw [hbytes, hcont, List.append_assoc, List.append_assoc, hsplit, ← List.append_assoc, heq]

theorem step (h : Conveyed s) {a : Act} (ha : InTime s a) (hs : step s a = some s') :
    Conveyed s' := by
  cases a with
  | byte t now => exact h.byteStep ha.1 ha.2 hs
  | recvTcp len now timeout =>
    cases hr : s.reader with
    | some r => simp [Atcmd.step, hr] at hs
    | none =>
      simp only [Atcmd.step, hr] at hs
      cases hs
      refine ⟨h.inv, ?_⟩
      have heq := h.eq
      simp only [State.delivered, hr, Option.map_none, Option.getD_none] at heq
      exact heq
  | poll t =>
    obtain ⟨r, hr, rfl⟩ := Option.map_eq_some_iff.mp hs
    exact h.pollStep hr t.toNat

end Conveyed

/-- The receiver is in step with the stream `segs`: it is behind the segments `done`, or
inside the one that follows them. -/
inductive InStep (segs : List Segment) (s : State) : Prop
  | between (done rest : List Segment) (hsegs : segs = done ++ rest) (hb : Boundary s.atcmd)
      (hh : s.handled = done.flatMap Segment.routed) (hw : s.wire = rest.flatMap Segment.bytes)
  | within (done rest : List Segment) (g : Segment) (hd tl : List (Handler × UInt8))
      (hsegs : segs = done ++ g :: rest) (hg : g.routed = hd ++ tl) (hhd : hd ≠ []) (htl : tl ≠ [])
      (hin : Inside s.atcmd hd tl) (hh : s.handled = done.flatMap Segment.routed ++ hd)
      (hw : s.wire = tl.map Prod.snd ++ rest.flatMap Segment.bytes)

namespace InStep
variable {segs : List Segment}

theorem advance {done rest : List Segment} {g : Segment} {hd tl : List (Handler × UInt8)}
    (hsegs : segs = done ++ g :: rest) (hg : g.routed = hd ++ tl) (htl : tl ≠ [])
    (hin : Inside s.atcmd hd tl) (hh : s.handled = done.flatMap Segment.routed ++ hd)
    (hw : s.wire = tl.map Prod.snd ++ rest.flatMap Segment.bytes) {t now : ℕ}
    (ht : s.atcmd.serialRecv ≠ .serialDefault → t < s.atcmd.timeToDefault)
    (hs : byteStep s t now = some s') : InStep segs s' := by
  obtain ⟨⟨h, b⟩, tl, rfl⟩ := List.exists_cons_of_ne_nil htl
  simp only [List.map_cons, List.cons_append] at hw
  simp only [byteStep, hw] at hs
  cases hs
  obtain ⟨hhandler, hnext⟩ := hin.next ht now
  have hdone : s.handled ++ [((checkDeadline s.atcmd t).serialRecv, b)] =
      done.flatMap Segment.routed ++ (hd ++ [(h, b)]) := by
    rw [hh, hhandler, List.append_assoc]
  by_cases hend : tl = []
  · subst hend
    refine .between (done ++ [g]) rest (by simp [hsegs]) (hnext.1 rfl) ?_ (by simp)
    rw [List.flatMap_append, List.flatMap_singleton, hg]
    exact hdone
  · exact .within done rest g (hd ++ [(h, b)]) tl hsegs (by simp [hg]) (by simp) hend
      (hnext.2 hend) hdone rfl

theorem reader (h : InStep segs s) (rb : Ringbuffer)
    (ha : s'.atcmd = { s.atcmd with ipdRb := rb }) (hh' : s'.handled = s.handled)
    (hw' : s'.wire = s.wire) : InStep segs s' := by
  cases h with
  | between done rest hsegs hb hh hw =>
    exact .between done rest hsegs (ha ▸ hb) (hh'.trans hh) (hw'.trans hw)
  | within done rest g hd tl hsegs hg hhd htl hin hh hw =>
    refine .within done rest g hd tl hsegs hg hhd htl ?_ (hh'.trans hh) (hw'.trans hw)
    rw [ha]
    exact hin.setIpdRb rb

theorem step (h : InStep segs s) (hok : ∀ g ∈ segs, g.Ok) {a : Act} (ha : InTime s a)
    (hs : step s a = some s') : InStep segs s' := by
  cases a with
  | byte t now =>
    cases h with
    | between done rest hsegs hb hh hw =>
      cases rest with
      | nil =>
        simp only [Atcmd.step, byteStep, hw, List.flatMap_nil] at hs
        cases hs
      | cons g rest =>
        have hin := hb.inside (hok g (by simp [hsegs]))
        have hne : g.routed ≠ [] := by cases g <;> simp [Segment.routed, ipd]
        exact advance hsegs rfl hne hin (by simp [hh]) (by simp [hw, Segment.bytes]) ha.1 hs
    | within done rest g hd tl hsegs hg hhd htl hin hh hw =>
      exact advance hsegs hg htl hin hh hw ha.1 hs
  | recvTcp len now timeout =>
    cases hr : s.reader with
    | some r => simp [Atcmd.step, hr] at hs
    | none =>
      simp only [Atcmd.step, hr] at hs
      cases hs
      exact h.reader s.atcmd.ipdRb rfl rfl rfl
  | poll t =>
    obtain ⟨r, hr, rfl⟩ := Option.map_eq_some_iff.mp hs
    apply h.reader (s.atcmd.ipdRb.tryRead (Word.wrap 16 ((r.len : ℤ) - r.buff.length))).rb
    all_goals
      simp only [pollStep]
      split_ifs <;> rfl

/-- The bytes that arrived went to the handlers they are meant for. -/
theorem handled_prefix (h : InStep segs s) : s.handled <+: segs.flatMap Segment.routed := by
  cases h with
  | between done rest hsegs hb hh hw =>
    rw [hh, hsegs, List.flatMap_append]
    exact List.prefix_append _ _
  | within done rest g hd tl hsegs hg hhd htl hin hh hw =>
    rw [hh, hsegs, List.flatMap_append, List.flatMap_cons, hg, List.append_assoc hd]
    exact List.prefix_append_right_inj _ |>.mpr (List.prefix_append _ _)

theorem length_flatMap_bytes (gs : List Segment) :
    (gs.flatMap Segment.bytes).length = (gs.flatMap Segment.routed).length := by
  induction gs with
  | nil => rfl
  | cons g gs ih => simp [Segment.bytes, ih]

theorem boundary (h : InStep segs s) {pre : List Segment} (hpre : pre <+: segs)
    (hlen : s.handled.length = (pre.flatMap Segment.bytes).length) : Boundary s.atcmd := by
  cases h with
  | between done rest hsegs hb hh hw => exact hb
  | within done rest g hd tl hsegs hg hhd htl hin hh hw =>
    exfalso
    have hhd' := List.length_pos_iff.mpr hhd
    have htl' := List.length_pos_iff.mpr htl
    rw [length_flatMap_bytes, hh, List.length_append] at hlen
    have hmono : ∀ {xs ys : List Segment}, xs <+: ys →
        (xs.flatMap Segment.routed).length ≤ (ys.flatMap Segment.routed).length := by
      rintro xs ys ⟨zs, rfl⟩
      rw [List.flatMap_append, List.length_append]
      omega
    have hnext : done ++ [g] <+: segs := ⟨rest, by simp [hsegs]⟩
    have hdone : done <+: segs := ⟨g :: rest, hsegs.symm⟩
    by_cases hle : pre.length ≤ done.length
    · have hshort := hmono (List.prefix_of_prefix_length_le hpre hdone hle)
      omega
    · have hlong := hmono (List.prefix_of_prefix_length_le hnext hpre (by simp; omega))
      rw [List.flatMap_append, List.flatMap_singleton, List.length_append, hg,
        List.length_append] at hlong
      omega

end InStep

/-- A receiver after `atcmd_init`, with the stream `segs` ahead of it. -/
def start (a : Atcmd) (recvBuffer ipdBuffer : ℕ → UInt8) (recvLen ipdLen : UInt8)
    (segs : List Segment) : State where
  atcmd := init a recvBuffer ipdBuffer recvLen ipdLen
  wire := segs.flatMap Segment.bytes
  reader := none
  returned := []
  handled := []

/-- For every stream of lines and frames and every schedule of arriving bytes and polls in
which no byte is late and no payload byte meets a full `ipd_rb`: each byte goes to the
handler it is meant for, the bytes taken by `atcmd_recv_tcp` followed by the content of
`ipd_rb` are the payload received so far, and the receiver is back in
`serial_recv_serial_default` at the end of each segment. -/
theorem tcp_stream_faithful (a : Atcmd) (recvBuffer ipdBuffer : ℕ → UInt8)
    (recvLen ipdLen : UInt8) {segs : List Segment} (hsegs : ∀ g ∈ segs, g.Ok) {as : List Act}
    {s : State} (h : AllSteps step InTime (start a recvBuffer ipdBuffer recvLen ipdLen segs) as)
    (hrun : run step (start a recvBuffer ipdBuffer recvLen ipdLen segs) as = some s) :
    s.handled <+: segs.flatMap Segment.routed ∧
      s.delivered ++ s.atcmd.ipdRb.content = payload s.handled ∧
      ∀ pre, pre <+: segs → s.handled.length = (pre.flatMap Segment.bytes).length →
        s.atcmd.serialRecv = .serialDefault ∧ s.atcmd.autoPrefixIndex = 0 := by
  have hlen : ipdLen.toNat < 2 ^ 16 := by
    have := ipdLen.toNat_lt
    omega
  have hconv := run_invariant (I := Conveyed) (fun _ _ _ hI ha hs => hI.step ha hs)
    ⟨Ringbuffer.init_inv ipdBuffer hlen, rfl⟩ h hrun
  have hstep := run_invariant (I := InStep segs) (fun _ _ _ hI ha hs => hI.step hsegs ha hs)
    (.between [] segs rfl ⟨rfl, rfl⟩ rfl rfl) h hrun
  exact ⟨hstep.handled_prefix, hconv.eq, fun pre hpre hl => hstep.boundary hpre hl⟩

/-- The line `OK`, then a frame whose payload is a line feed and `IP`, with a reader that
polls in the middle of the payload. -/
theorem tcp_stream_faithful_ok_and_frame :
    ∃ s ∈ run step (start .zero (fun _ => 0) (fun _ => 0) 20 4
          [.line [79, 75, 13], .frame [51] [10, 73, 80]])
        [.byte 0 0, .byte 1 1, .byte 2 2, .recvTcp 3 2 100, .byte 3 3, .byte 4 4, .byte 5 5,
          .poll 5, .byte 6 6, .byte 7 7, .byte 8 8, .byte 9 9, .poll 9, .byte 10 10, .byte 11 11],
      s.delivered ++ s.atcmd.ipdRb.content = payload s.handled ∧ payload s.handled = [10, 73, 80] ∧
        s.delivered = [10] ∧ s.atcmd.serialRecv = .serialDefault := by
  have hrun : ∃ s ∈ run step (start .zero (fun _ => 0) (fun _ => 0) 20 4
        [.line [79, 75, 13], .frame [51] [10, 73, 80]])
      [.byte 0 0, .byte 1 1, .byte 2 2, .recvTcp 3 2 100, .byte 3 3, .byte 4 4, .byte 5 5,
        .poll 5, .byte 6 6, .byte 7 7, .byte 8 8, .byte 9 9, .poll 9, .byte 10 10, .byte 11 11],
      payload s.handled = [10, 73, 80] ∧ s.delivered = [10] ∧ s.handled.length = 12 := by
    decide +kernel
  obtain ⟨s, hs, hpayload, hdelivered, hlen⟩ := hrun
  obtain ⟨-, heq, hend⟩ := tcp_stream_faithful .zero (fun _ => 0) (fun _ => 0) 20 4
    (by decide +kernel) (by decide +kernel) hs
  exact ⟨s, hs, heq, hpayload, hdelivered, (hend _ (List.prefix_refl _) hlen).1⟩

end EmbeddedTemplate.Atcmd
