import EmbeddedTemplate.Atcmd.Basic
import EmbeddedTemplate.Ringbuffer.Records

/-! Reply lines and the tokens of `sem`. -/
namespace EmbeddedTemplate.Atcmd
open Ringbuffer (record records)

inductive ReplyAct where
  | byte (b : UInt8) (t now : UInt32)
  | expect (exp : Expect)
  | clearRecvBuffer

def replyStep (a : Atcmd) : ReplyAct → Option Atcmd
  | .byte b t now => some (recvSerialByte a b t.toNat now.toNat)
  | .expect exp => some (expectRound a exp).1
  | .clearRecvBuffer => some (clearRecvBuffer a)

/-- The byte makes `auto_prefix` start with `IPD`. -/
def CompletesIpd (a : Atcmd) (b : UInt8) : Prop :=
  (keepPrefix a b).autoPrefixIndex = 3 ∧ (List.range 3).map (keepPrefix a b).autoPrefix = ipd

instance (a : Atcmd) (b : UInt8) : Decidable (CompletesIpd a b) :=
  inferInstanceAs (Decidable (_ ∧ _))

/-- Bytes that arrive before any deadline. -/
def bytesAt (bs : List UInt8) : List ReplyAct := bs.map fun b => .byte b 0 0

/-- A byte for the line handler finds room for the end of a line, is not itself a NUL that is
stored, and does not start a frame while a complete line is waiting. -/
def Orderly (a : Atcmd) : ReplyAct → Prop
  | .byte b t _ => (checkDeadline a t.toNat).serialRecv = .serialDefault →
      (b = lineFeed → a.rb.len < a.rb.cap) ∧ (b = 0 → a.rb.len = a.rb.cap) ∧
        (CompletesIpd a b → records a.rb.content = 0)
  | _ => True

instance Orderly.decidable (a : Atcmd) : ∀ act, Decidable (Orderly a act)
  | .byte b _ _ => inferInstanceAs (Decidable (_ → (b = lineFeed → _) ∧ (b = 0 → _) ∧ (_ → _)))
  | .expect _ => isTrue trivial
  | .clearRecvBuffer => isTrue trivial

theorem checkDeadline_eq (a : Atcmd) (t : ℕ) :
    checkDeadline a t = { a with serialRecv := (checkDeadline a t).serialRecv } := by
  unfold checkDeadline
  split_ifs
  · rfl
  · rfl

theorem completesIpd_setSerialRecv (a : Atcmd) (h : Handler) (b : UInt8) :
    CompletesIpd { a with serialRecv := h } b ↔ CompletesIpd a b := by
  unfold CompletesIpd keepPrefix
  split_ifs
  · rfl
  · rfl

theorem keepPrefix_rb (a : Atcmd) (b : UInt8) :
    (keepPrefix a b).rb = a.rb ∧ (keepPrefix a b).sem = a.sem := by
  unfold keepPrefix
  split_ifs
  · exact ⟨rfl, rfl⟩
  · exact ⟨rfl, rfl⟩

theorem serialRecvSerialDefault_cases (a : Atcmd) (b : UInt8) (now : ℕ) :
    let a' := serialRecvSerialDefault a b now
    (b = lineFeed ∧ a'.rb = (a.rb.put 0 1).2 ∧ a'.sem = a.sem + 1) ∨
      (b = carriageReturn ∧ a'.rb = a.rb ∧ a'.sem = a.sem) ∨
      (CompletesIpd a b ∧ a'.rb = a.rb.clear ∧ a'.sem = a.sem) ∨
      (b ≠ lineFeed ∧ a'.rb = (a.rb.put b 1).2 ∧ a'.sem = a.sem) := by
  obtain ⟨hrb, hsem⟩ := keepPrefix_rb a b
  unfold serialRecvSerialDefault
  by_cases hlf : b = lineFeed
  · rw [if_pos hlf]
    exact .inl ⟨hlf, rfl, rfl⟩
  · rw [if_neg hlf]
    by_cases hcr : b = carriageReturn
    · rw [if_neg (not_not.mpr hcr)]
      exact .inr (.inl ⟨hcr, rfl, rfl⟩)
    · rw [if_pos hcr]
      by_cases hipd : CompletesIpd a b
      · have hif := hipd
        unfold CompletesIpd at hif
        simp only [if_pos hif]
        exact .inr (.inr (.inl ⟨hipd, congrArg _ hrb, hsem⟩))
      · have hif := hipd
        unfold CompletesIpd at hif
        simp only [if_neg hif]
        exact .inr (.inr (.inr ⟨hlf, congrArg (fun rb => (rb.put b 1).2) hrb, hsem⟩))

/-- What a received byte does to them: the two frame handlers leave them alone. -/
theorem recvSerialByte_cases (a : Atcmd) (b : UInt8) (t now : ℕ) :
    let a' := recvSerialByte a b t now
    (a'.rb = a.rb ∧ a'.sem = a.sem) ∨
    ((checkDeadline a t).serialRecv = .serialDefault ∧
      ((b = lineFeed ∧ a'.rb = (a.rb.put 0 1).2 ∧ a'.sem = a.sem + 1) ∨
       (CompletesIpd a b ∧ a'.rb = a.rb.clear ∧ a'.sem = a.sem) ∨
       (b ≠ lineFeed ∧ a'.rb = (a.rb.put b 1).2 ∧ a'.sem = a.sem))) := by
  unfold recvSerialByte
  rw [checkDeadline_eq]
  generalize (checkDeadline a t).serialRecv = h
  cases h with
  | serialDefault =>
    have hdef := serialRecvSerialDefault_cases { a with serialRecv := .serialDefault } b now
    rw [completesIpd_setSerialRecv] at hdef
    obtain hlf | ⟨-, hcr⟩ | hipd | hput := hdef
    · exact .inr ⟨rfl, .inl hlf⟩
    · exact .inl hcr
    · exact .inr ⟨rfl, .inr (.inl hipd)⟩
    · exact .inr ⟨rfl, .inr (.inr hput)⟩
  | ipdLength =>
    left
    simp only [callSerialRecv, serialRecvIpdLength]
    split_ifs
    all_goals exact ⟨rfl, rfl⟩
  | ipdContent =>
    left
    simp only [callSerialRecv, serialRecvIpdContent]
    split_ifs
    all_goals exact ⟨rfl, rfl⟩

structure Tokens (a : Atcmd) : Prop where
  inv : a.rb.Inv
  sem_eq : a.sem = records a.rb.content

theorem put_one_spec {rb : Ringbuffer} (h : rb.Inv) (b : UInt8) :
    (rb.put b 1).2.Inv ∧
      (rb.put b 1).2.content = rb.content ++ if rb.len < rb.cap then [b] else [] := by
  obtain ⟨hI, -, -, hq⟩ := Ringbuffer.tryWrite_spec h (show (List.replicate 1 b).length < 2 ^ 16 by simp)
  rw [Ringbuffer.put_eq_tryWrite]
  refine ⟨hI, hq.trans ?_⟩
  by_cases hroom : rb.len < rb.cap
  · rw [if_pos hroom, List.take_of_length_le (by simp; omega)]
    rfl
  · rw [if_neg hroom, show rb.cap - rb.len = 0 by omega, List.take_zero]

theorem Tokens.byte {a : Atcmd} (h : Tokens a) {b : UInt8} {t now : UInt32}
    (ho : Orderly a (.byte b t now)) : Tokens (recvSerialByte a b t.toNat now.toNat) := by
  obtain ⟨hrb, hsem⟩ | ⟨hdef, hcase⟩ := recvSerialByte_cases a b t.toNat now.toNat
  · exact ⟨hrb ▸ h.inv, by rw [hrb, hsem, h.sem_eq]⟩
  · obtain ⟨hroom, hnul, hipd⟩ := ho hdef
    obtain ⟨hlf, hrb, hsem⟩ | ⟨hc, hrb, hsem⟩ | ⟨-, hrb, hsem⟩ := hcase
    · obtain ⟨hI, hq⟩ := put_one_spec h.inv 0
      refine ⟨hrb ▸ hI, ?_⟩
      rw [hrb, hsem, hq, if_pos (hroom hlf), h.sem_eq]
      simp [records]
    · refine ⟨hrb ▸ Ringbuffer.clear_inv h.inv, ?_⟩
      rw [hrb, hsem, h.sem_eq, hipd hc]
      rfl
    · obtain ⟨hI, hq⟩ := put_one_spec h.inv b
      refine ⟨hrb ▸ hI, ?_⟩
      rw [hrb, hsem, hq, h.sem_eq]
      by_cases hb : b = 0
      · rw [if_neg (by have := hnul hb; omega), List.append_nil]
      · split_ifs
        · simp [records, hb]
        · simp

theorem Tokens.lines_kept {a : Atcmd} (h : Tokens a) {b : UInt8} {t now : UInt32}
    (ho : Orderly a (.byte b t now)) {p : List UInt8} (hp : p <+: a.rb.content)
    (hend : p.getLast? = some 0) : p <+: (recvSerialByte a b t.toNat now.toNat).rb.content := by
  obtain ⟨hrb, -⟩ | ⟨hdef, hcase⟩ := recvSerialByte_cases a b t.toNat now.toNat
  · rwa [hrb]
  · obtain ⟨-, -, hipd⟩ := ho hdef
    obtain ⟨-, hrb, -⟩ | ⟨hc, -, -⟩ | ⟨-, hrb, -⟩ := hcase
    · rw [hrb, (put_one_spec h.inv 0).2]
      exact hp.trans (List.prefix_append _ _)
    · have hmem : 0 ∈ a.rb.content := hp.subset (List.mem_of_getLast? hend)
      exact absurd hmem (List.count_eq_zero.mp (hipd hc))
    · rw [hrb, (put_one_spec h.inv b).2]
      exact hp.trans (List.prefix_append _ _)

theorem records_drop_record {q : List UInt8} (h : records q ≠ 0) :
    records (q.drop (record q).length) = records q - 1 := by
  induction q with
  | nil => exact absurd rfl h
  | cons b q ih =>
    rw [Ringbuffer.record_cons]
    by_cases hb : b = 0
    · simp [hb, records]
    · have hcount : records (b :: q) = records q := List.count_cons_of_ne hb
      rw [hcount] at h ⊢
      rw [if_neg hb, List.length_cons, List.drop_succ_cons, ih h]

theorem Tokens.expect {a : Atcmd} (h : Tokens a) (exp : Expect) : Tokens (expectRound a exp).1 := by
  unfold expectRound
  by_cases hz : a.sem = 0
  · rw [if_pos hz]
    exact h
  · rw [if_neg hz]
    have hpre : ∀ p ∈ exp.expect.map Subtype.val, 0 ∉ p := by
      intro p hp
      obtain ⟨q, -, rfl⟩ := Option.mem_map.mp hp
      exact q.property
    obtain ⟨hI, -, hq⟩ :=
      Ringbuffer.readStringAndIsWithPrefix_spec hpre exp.recvBuff exp.buffSize.toNat_lt h.inv
    refine ⟨hI, ?_⟩
    have hne : records a.rb.content ≠ 0 := h.sem_eq ▸ hz
    change a.sem - 1 = records (Ringbuffer.content _)
    rw [hq, records_drop_record hne, h.sem_eq]

theorem Tokens.step {a a' : Atcmd} (h : Tokens a) {act : ReplyAct} (ho : Orderly a act)
    (hs : replyStep a act = some a') : Tokens a' := by
  cases act with
  | byte b t now => exact Option.some.inj hs ▸ h.byte ho
  | expect exp => exact Option.some.inj hs ▸ h.expect exp
  | clearRecvBuffer => exact Option.some.inj hs ▸ ⟨Ringbuffer.clear_inv h.inv, rfl⟩

theorem Tokens.init (a : Atcmd) (recvBuffer ipdBuffer : ℕ → UInt8) (recvLen ipdLen : UInt8) :
    Tokens (Atcmd.init a recvBuffer ipdBuffer recvLen ipdLen) where
  inv := Ringbuffer.init_inv recvBuffer (Nat.lt_trans recvLen.toNat_lt (by decide))
  sem_eq := rfl

/-- From `atcmd_init`, in every run whose bytes meet the condition: `sem` counts the
NUL-terminated records of `rb`, and no byte takes a complete line out. -/
theorem tokens_count_lines (a : Atcmd) (recvBuffer ipdBuffer : ℕ → UInt8) (recvLen ipdLen : UInt8)
    {acts : List ReplyAct} {s : Atcmd}
    (ho : Transition.AllSteps replyStep Orderly (Atcmd.init a recvBuffer ipdBuffer recvLen ipdLen) acts)
    (hrun : Transition.run replyStep (Atcmd.init a recvBuffer ipdBuffer recvLen ipdLen) acts = some s) :
    s.sem = records s.rb.content ∧
      ∀ b t now, Orderly s (.byte b t now) → ∀ p, p <+: s.rb.content → p.getLast? = some 0 →
        p <+: (recvSerialByte s b t.toNat now.toNat).rb.content := by
  have h : Tokens s := Transition.run_invariant (fun s act s' hI hP hs => Tokens.step hI hP hs)
    (Tokens.init a recvBuffer ipdBuffer recvLen ipdLen) ho hrun
  exact ⟨h.sem_eq, fun b t now hb p hp hend => h.lines_kept hb hp hend⟩

/-- The line `OK`, a second line, and an `expect` that takes the first one. -/
theorem tokens_count_lines_two :
    ∃ s ∈ Transition.run replyStep (Atcmd.init .zero (fun _ => 0) (fun _ => 0) 20 4)
        (bytesAt [79, 75, 13, 10, 69, 10] ++ [.expect ⟨some ⟨[79, 75], by decide⟩, true, 8⟩]),
      s.sem = records s.rb.content ∧ s.rb.content = [69, 0] := by
  have hrun : ∃ s ∈ Transition.run replyStep (Atcmd.init .zero (fun _ => 0) (fun _ => 0) 20 4)
      (bytesAt [79, 75, 13, 10, 69, 10] ++ [.expect ⟨some ⟨[79, 75], by decide⟩, true, 8⟩]),
      s.rb.content = [69, 0] := by
    decide +kernel
  obtain ⟨s, hs, hq⟩ := hrun
  exact ⟨s, hs, (tokens_count_lines .zero (fun _ => 0) (fun _ => 0) 20 4 (by decide +kernel) hs).1, hq⟩

/-- A frame that starts while the line `OK` is waiting erases it and leaves its token. A line
feed that meets a full buffer and a NUL byte in the stream break the count as well. -/
theorem frame_erases_line :
    (∃ s ∈ Transition.run replyStep (Atcmd.init .zero (fun _ => 0) (fun _ => 0) 20 4)
        (bytesAt [79, 75, 10, 73, 80, 68]), s.sem = 1 ∧ records s.rb.content = 0) ∧
      (∃ s ∈ Transition.run replyStep (Atcmd.init .zero (fun _ => 0) (fun _ => 0) 2 4)
        (bytesAt [79, 75, 10]), s.sem = 1 ∧ records s.rb.content = 0) ∧
      ∃ s ∈ Transition.run replyStep (Atcmd.init .zero (fun _ => 0) (fun _ => 0) 20 4)
        (bytesAt [79, 0]), s.sem = 0 ∧ records s.rb.content = 1 := by
  decide +kernel

end EmbeddedTemplate.Atcmd
