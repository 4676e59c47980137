import EmbeddedTemplate.Ringbuffer.Basic
import EmbeddedTemplate.Lib.Transition

/-! Refinement of the ring buffer to a bounded FIFO queue of bytes. -/
namespace EmbeddedTemplate.Ringbuffer

/-- The representation invariant. With capacity 0 nothing is stored and the indices agree. -/
structure Inv (rb : Ringbuffer) : Prop where
  cap_lt : rb.cap < 2 ^ 16
  len_le : rb.len ≤ rb.cap
  in_lt : 0 < rb.cap → rb.inIdx < rb.cap
  out_lt : 0 < rb.cap → rb.out < rb.cap
  in_eq : rb.inIdx = (rb.out + rb.len) % rb.cap

def content (rb : Ringbuffer) : List UInt8 := Circular.window rb.buf rb.cap rb.out rb.len

@[simp] theorem length_content (rb : Ringbuffer) : rb.content.length = rb.len := by
  simp [content]

theorem size16_of_lt {n : ℕ} (h : n < 2 ^ 16) : size16 (n : ℤ) = n := Word.wrap_of_lt h

theorem size16_succ {n : ℕ} (h : n + 1 < 2 ^ 16) : size16 ((n : ℤ) + 1) = n + 1 :=
  size16_of_lt h

@[simp] theorem store_cap (rb : Ringbuffer) (b : UInt8) : (rb.store b).cap = rb.cap := rfl
@[simp] theorem drop_cap (rb : Ringbuffer) : rb.drop.cap = rb.cap := rfl

theorem init_inv (buf : ℕ → UInt8) {c : ℕ} (hc : c < 2 ^ 16) : (init buf c).Inv where
  cap_lt := hc
  len_le := Nat.zero_le _
  in_lt := id
  out_lt := id
  in_eq := by simp [init]

@[simp] theorem init_content (buf : ℕ → UInt8) (c : ℕ) : (init buf c).content = [] := rfl

theorem clear_inv {rb : Ringbuffer} (h : rb.Inv) : rb.clear.Inv where
  cap_lt := h.cap_lt
  len_le := Nat.zero_le _
  in_lt := id
  out_lt := id
  in_eq := by simp [clear]

@[simp] theorem clear_content (rb : Ringbuffer) : rb.clear.content = [] := rfl

/-- One store into a buffer with room. Neither counter wraps at 16 bits. -/
theorem store_spec {rb : Ringbuffer} (h : rb.Inv) (b : UInt8) (hroom : rb.len < rb.cap) :
    (rb.store b).Inv ∧ (rb.store b).content = rb.content ++ [b] := by
  have hcap := h.cap_lt
  have hin := h.in_lt (by omega)
  have hout := h.out_lt (by omega)
  have hnext : size16 (rb.inIdx + 1) = rb.inIdx + 1 := size16_succ (by omega)
  have hlen : size16 (rb.len + 1) = rb.len + 1 := size16_succ (by omega)
  have hadv : (rb.store b).inIdx = Circular.advance rb.cap rb.inIdx := by
    simp only [store, hnext, Circular.advance]
  constructor
  · refine ⟨hcap, ?_, fun _ => ?_, fun _ => hout, ?_⟩
    · simp only [store, hlen]
      omega
    · rw [hadv]
      exact Circular.advance_lt hin
    · rw [hadv, Circular.advance_eq_mod hin, h.in_eq, Nat.mod_add_mod]
      simp only [store, hlen, Nat.add_assoc]
  · simp only [content, store, hlen, h.in_eq]
    exact Circular.window_push rb.buf rb.out b hroom

theorem drop_spec {rb : Ringbuffer} (h : rb.Inv) (hpos : 0 < rb.len) :
    rb.drop.Inv ∧ rb.content = rb.buf rb.out :: rb.drop.content := by
  have hcap := h.cap_lt
  have hle := h.len_le
  have hout := h.out_lt (by omega)
  have hnext : size16 (rb.out + 1) = rb.out + 1 := size16_succ (by omega)
  have hlen : size16 ((rb.len : ℤ) - 1) = rb.len - 1 := by
    unfold size16 Word.wrap
    omega
  have hadv : rb.drop.out = Circular.advance rb.cap rb.out := by
    simp only [drop, hnext, Circular.advance]
  have hdec : rb.drop.len = rb.len - 1 := hlen
  have hsucc : rb.len = rb.len - 1 + 1 := by omega
  constructor
  · refine ⟨hcap, ?_, h.in_lt, fun _ => ?_, ?_⟩
    · rw [hdec, drop_cap]
      omega
    · rw [hadv]
      exact Circular.advance_lt hout
    · have hin := h.in_eq
      rw [hsucc] at hin
      rw [hadv, hdec, Circular.advance_eq_mod hout, drop_cap, Nat.mod_add_mod]
      rw [show rb.drop.inIdx = rb.inIdx from rfl, hin]
      congr 1
      omega
  · have hpop := Circular.window_pop rb.buf (rb.len - 1) hout
    rw [← hsucc] at hpop
    simp only [content, hdec, hadv, drop_cap]
    exact hpop

theorem store_len {rb : Ringbuffer} (h : rb.Inv) (b : UInt8) (hroom : rb.len < rb.cap) :
    (rb.store b).len = rb.len + 1 := by
  have hl := congrArg List.length (store_spec h b hroom).2
  simpa using hl

theorem writeLoop_spec {rb : Ringbuffer} (h : rb.Inv) (dat : List UInt8) (i : ℕ)
    (hi : i + dat.length < 2 ^ 16) :
    (writeLoop dat i rb).2.Inv ∧ (writeLoop dat i rb).2.cap = rb.cap ∧
      (writeLoop dat i rb).1 = i + (dat.take (rb.cap - rb.len)).length ∧
      (writeLoop dat i rb).2.content = rb.content ++ dat.take (rb.cap - rb.len) := by
  induction dat generalizing i rb with
  | nil => simp [writeLoop, h]
  | cons b dat ih =>
    rw [List.length_cons] at hi
    by_cases hroom : rb.len < rb.cap
    · obtain ⟨hinv, hcont⟩ := store_spec h b hroom
      have hspace : rb.cap - rb.len = rb.cap - (rb.store b).len + 1 := by
        rw [store_len h b hroom]
        omega
      have hnext : size16 ((i : ℤ) + 1) = i + 1 := size16_succ (by omega)
      obtain ⟨hI, hc, hr, hq⟩ := ih hinv (i + 1) (by omega)
      simp only [writeLoop, if_pos hroom, hnext, hspace, List.take_succ_cons, List.length_cons]
      refine ⟨hI, hc, ?_, ?_⟩
      · rw [hr, store_cap]
        omega
      · rw [hq, hcont, store_cap, List.append_assoc, List.singleton_append]
    · have hzero : rb.cap - rb.len = 0 := by omega
      simp [writeLoop, hroom, hzero, h]

/-- The prefix of `l` up to and including the first byte that satisfies `stop`. -/
def upTo (stop : UInt8 → Bool) (l : List UInt8) : List UInt8 := l.take (l.findIdx stop + 1)

@[simp] theorem upTo_nil (stop : UInt8 → Bool) : upTo stop [] = [] := rfl

theorem upTo_cons (stop : UInt8 → Bool) (b : UInt8) (l : List UInt8) :
    upTo stop (b :: l) = if stop b then [b] else b :: upTo stop l := by
  cases hb : stop b <;> simp [upTo, List.findIdx_cons, hb]

@[simp] theorem upTo_false (l : List UInt8) : upTo (fun _ => false) l = l := by
  induction l with
  | nil => rfl
  | cons b l ih => simp [upTo_cons, ih]

theorem readLoop_spec (stop : UInt8 → Bool) {rb : Ringbuffer} (h : rb.Inv) (n i : ℕ)
    (hi : i + n < 2 ^ 16) :
    (readLoop stop n i rb).rb.Inv ∧ (readLoop stop n i rb).rb.cap = rb.cap ∧
      (readLoop stop n i rb).bytes = upTo stop (rb.content.take n) ∧
      (readLoop stop n i rb).ret = i + (upTo stop (rb.content.take n)).length ∧
      (readLoop stop n i rb).rb.content =
        rb.content.drop (upTo stop (rb.content.take n)).length := by
  induction n generalizing i rb with
  | zero => simp [readLoop, h]
  | succ n ih =>
    by_cases hpos : 0 < rb.len
    · obtain ⟨hinv, hcont⟩ := drop_spec h hpos
      have hnext : size16 ((i : ℤ) + 1) = i + 1 := size16_succ (by omega)
      obtain ⟨hI, hc, hb, hr, hq⟩ := ih hinv (i + 1) (by omega)
      rw [hcont, List.take_succ_cons, upTo_cons]
      cases hstop : stop (rb.buf rb.out) with
      | true => simp [readLoop, hpos, hstop, hnext, hinv]
      | false =>
        simp only [readLoop, if_pos hpos, hstop, hnext, Bool.false_eq_true, if_false,
          List.length_cons, List.drop_succ_cons]
        refine ⟨hI, hc, congrArg _ hb, ?_, hq⟩
        rw [hr]
        omega
    · have hzero : rb.len = 0 := by omega
      have hnil : rb.content = [] := List.eq_nil_of_length_eq_zero (by rw [length_content, hzero])
      simp [readLoop, hpos, hnil, h]

theorem tryWrite_spec {rb : Ringbuffer} (h : rb.Inv) {dat : List UInt8}
    (hd : dat.length < 2 ^ 16) :
    (rb.tryWrite dat).2.Inv ∧ (rb.tryWrite dat).2.cap = rb.cap ∧
      (rb.tryWrite dat).1 = (dat.take (rb.cap - rb.len)).length ∧
      (rb.tryWrite dat).2.content = rb.content ++ dat.take (rb.cap - rb.len) := by
  simpa only [tryWrite, Nat.zero_add] using writeLoop_spec h dat 0 (by omega)

theorem put_eq_tryWrite (rb : Ringbuffer) (uch : UInt8) (len : ℕ) :
    rb.put uch len = rb.tryWrite (List.replicate len uch) := rfl

theorem write_of_lt {rb : Ringbuffer} {dat : List UInt8} (h : rb.Inv)
    (hd : rb.cap - rb.len < dat.length) : rb.write dat = (0, rb) := by
  have hle := h.len_le
  exact if_pos (by omega)

theorem write_of_le {rb : Ringbuffer} {dat : List UInt8} (h : rb.Inv)
    (hd : dat.length ≤ rb.cap - rb.len) :
    (rb.write dat).2.Inv ∧ (rb.write dat).2.cap = rb.cap ∧
      (rb.write dat).1 = dat.length ∧ (rb.write dat).2.content = rb.content ++ dat := by
  have hle := h.len_le
  have hcap := h.cap_lt
  have hw : rb.write dat = rb.tryWrite dat := if_neg (by omega)
  have hspec := tryWrite_spec h (show dat.length < 2 ^ 16 by omega)
  rwa [List.take_of_length_le hd, ← hw] at hspec

theorem tryReadUtil_spec {rb : Ringbuffer} (h : rb.Inv) (term : UInt8) {n : ℕ}
    (hn : n < 2 ^ 16) :
    (rb.tryReadUtil n term).rb.Inv ∧ (rb.tryReadUtil n term).rb.cap = rb.cap ∧
      (rb.tryReadUtil n term).bytes = upTo (· == term) (rb.content.take n) ∧
      (rb.tryReadUtil n term).ret = (upTo (· == term) (rb.content.take n)).length ∧
      (rb.tryReadUtil n term).rb.content =
        rb.content.drop (upTo (· == term) (rb.content.take n)).length := by
  simpa only [tryReadUtil, Nat.zero_add] using readLoop_spec (· == term) h n 0 (by omega)

theorem tryRead_spec {rb : Ringbuffer} (h : rb.Inv) {n : ℕ} (hn : n < 2 ^ 16) :
    (rb.tryRead n).rb.Inv ∧ (rb.tryRead n).rb.cap = rb.cap ∧
      (rb.tryRead n).bytes = rb.content.take n ∧
      (rb.tryRead n).ret = (rb.content.take n).length ∧
      (rb.tryRead n).rb.content = rb.content.drop (rb.content.take n).length := by
  simpa only [tryRead, Nat.zero_add, upTo_false] using
    readLoop_spec (fun _ => false) h n 0 (by omega)

theorem read_inv {rb : Ringbuffer} (h : rb.Inv) {n : ℕ} (hn : n < 2 ^ 16) :
    (rb.read n).rb.Inv ∧ (rb.read n).rb.cap = rb.cap := by
  unfold read
  by_cases hfree : (rb.cap : ℤ) - rb.len < n
  · rw [if_pos hfree]
    exact ⟨h, rfl⟩
  · rw [if_neg hfree]
    obtain ⟨hI, hc, -⟩ := tryRead_spec h hn
    exact ⟨hI, hc⟩

theorem read_of_append {rb : Ringbuffer} (h : rb.Inv) {p rest : List UInt8}
    (hfree : rb.len + p.length ≤ rb.cap) (hc : rb.content = p ++ rest) :
    (rb.read p.length).ret = p.length ∧ (rb.read p.length).bytes = p ∧
      (rb.read p.length).rb.content = rest := by
  have hcap := h.cap_lt
  obtain ⟨-, -, hb, hr, hq⟩ := tryRead_spec h (show p.length < 2 ^ 16 by omega)
  have htake : rb.content.take p.length = p := by rw [hc, List.take_left]
  rw [read, if_neg (by omega), hr, hb, hq, htake, hc, List.drop_left]
  exact ⟨rfl, rfl, rfl⟩

theorem getLeftSpace_eq {rb : Ringbuffer} (h : rb.Inv) : rb.getLeftSpace = rb.cap - rb.len := by
  have hle := h.len_le
  have hcap := h.cap_lt
  unfold getLeftSpace size16 Word.wrap
  omega

/-- The calls of a client, with `uint16_t` lengths and a data block of such a length. -/
inductive Op where
  | clear
  | put (uch : UInt8) (len : UInt16)
  | tryWrite (dat : {dat : List UInt8 // dat.length < 2 ^ 16})
  | write (dat : {dat : List UInt8 // dat.length < 2 ^ 16})
  | tryRead (len : UInt16)
  | tryReadUtil (len : UInt16) (term : UInt8)
  | getLeftSpace

/-- Return value of a call and the bytes it stored in the caller's buffer. -/
structure Reply where
  ret : ℕ
  bytes : List UInt8

def exec (rb : Ringbuffer) : Op → Ringbuffer × Reply
  | .clear => (rb.clear, ⟨0, []⟩)
  | .put uch len => let r := rb.put uch len.toNat; (r.2, ⟨r.1, []⟩)
  | .tryWrite dat => let r := rb.tryWrite dat; (r.2, ⟨r.1, []⟩)
  | .write dat => let r := rb.write dat; (r.2, ⟨r.1, []⟩)
  | .tryRead len => let r := rb.tryRead len.toNat; (r.rb, ⟨r.ret, r.bytes⟩)
  | .tryReadUtil len term => let r := rb.tryReadUtil len.toNat term; (r.rb, ⟨r.ret, r.bytes⟩)
  | .getLeftSpace => (rb, ⟨rb.getLeftSpace, []⟩)

/-- Append the longest prefix of `dat` that fits. -/
def Fifo.offer (cap : ℕ) (q dat : List UInt8) : List UInt8 × Reply :=
  let kept := dat.take (cap - q.length)
  (q ++ kept, ⟨kept.length, []⟩)

/-- Remove `bytes`, a prefix of the queue, and hand them out. -/
def Fifo.take (q bytes : List UInt8) : List UInt8 × Reply :=
  (q.drop bytes.length, ⟨bytes.length, bytes⟩)

/-- The bounded queue that the ring buffer implements. -/
def Fifo.exec (cap : ℕ) (q : List UInt8) : Op → List UInt8 × Reply
  | .clear => ([], ⟨0, []⟩)
  | .put uch len => Fifo.offer cap q (List.replicate len.toNat uch)
  | .tryWrite dat => Fifo.offer cap q dat
  | .write dat =>
    if cap - q.length < dat.val.length then (q, ⟨0, []⟩) else (q ++ dat, ⟨dat.val.length, []⟩)
  | .tryRead len => Fifo.take q (q.take len.toNat)
  | .tryReadUtil len term => Fifo.take q (upTo (· == term) (q.take len.toNat))
  | .getLeftSpace => (q, ⟨cap - q.length, []⟩)

theorem exec_refines {rb : Ringbuffer} (h : rb.Inv) (op : Op) :
    (rb.exec op).1.Inv ∧ (rb.exec op).1.cap = rb.cap ∧
      Fifo.exec rb.cap rb.content op = ((rb.exec op).1.content, (rb.exec op).2) := by
  cases op with
  | clear => exact ⟨clear_inv h, rfl, rfl⟩
  | put uch len =>
    have hd : (List.replicate len.toNat uch).length < 2 ^ 16 := by
      simpa using len.toNat_lt
    obtain ⟨hI, hc, hr, hq⟩ := tryWrite_spec h hd
    refine ⟨hI, hc, ?_⟩
    simp only [Fifo.exec, Fifo.offer, exec, put_eq_tryWrite, hr, hq, length_content]
  | tryWrite dat =>
    obtain ⟨hI, hc, hr, hq⟩ := tryWrite_spec h dat.property
    refine ⟨hI, hc, ?_⟩
    simp only [Fifo.exec, Fifo.offer, exec, hr, hq, length_content]
  | write dat =>
    by_cases hroom : rb.cap - rb.len < dat.val.length
    · have hw := write_of_lt h hroom
      simp [Fifo.exec, exec, hw, hroom, h]
    · obtain ⟨hI, hc, hr, hq⟩ := write_of_le h (Nat.le_of_not_lt hroom)
      refine ⟨hI, hc, ?_⟩
      simp only [Fifo.exec, exec, hr, hq, length_content, if_neg hroom]
  | tryRead len =>
    obtain ⟨hI, hc, hb, hr, hq⟩ := tryRead_spec h len.toNat_lt
    refine ⟨hI, hc, ?_⟩
    simp only [Fifo.exec, Fifo.take, exec, hb, hr, hq]
  | tryReadUtil len term =>
    obtain ⟨hI, hc, hb, hr, hq⟩ := tryReadUtil_spec h term len.toNat_lt
    refine ⟨hI, hc, ?_⟩
    simp only [Fifo.exec, Fifo.take, exec, hb, hr, hq]
  | getLeftSpace =>
    refine ⟨h, rfl, ?_⟩
    simp only [Fifo.exec, exec, getLeftSpace_eq h, length_content]

/-- Every sequence of calls on a fresh ring buffer of any capacity: the invariant
holds afterwards, the stored bytes and all replies are those of the bounded queue,
and a `ringbuffer_write` that does not fit would return 0 and change nothing. -/
theorem calls_refine_fifo (buf : ℕ → UInt8) (c : UInt16) (ops : List Op) :
    let r := Transition.replies exec (init buf c.toNat) ops
    r.1.Inv ∧ r.1.cap = c.toNat ∧
      Transition.replies (Fifo.exec c.toNat) [] ops = (r.1.content, r.2) ∧
      ∀ dat : List UInt8, c.toNat - r.1.content.length < dat.length →
        r.1.write dat = (0, r.1) := by
  have hinit : (init buf c.toNat).Inv ∧ (init buf c.toNat).cap = c.toNat :=
    ⟨init_inv buf c.toNat_lt, rfl⟩
  obtain ⟨⟨hI, hc⟩, hsim⟩ :=
    Transition.replies_simulation content (fun rb => rb.Inv ∧ rb.cap = c.toNat)
      (fun rb op ⟨hI, hc⟩ => by
        obtain ⟨hI', hc', hstep⟩ := exec_refines hI op
        exact ⟨⟨hI', hc'.trans hc⟩, hc ▸ hstep⟩) hinit ops
  refine ⟨hI, hc, hsim, fun dat hd => write_of_lt hI ?_⟩
  rwa [hc, ← length_content]

end EmbeddedTemplate.Ringbuffer
