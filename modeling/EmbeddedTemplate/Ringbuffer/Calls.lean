import EmbeddedTemplate.Ringbuffer.Records

/-! The whole interface of the ring buffer: record reads, when `ringbuffer_read` is
all-or-nothing, and when the two drop functions leave a queue. -/
namespace EmbeddedTemplate.Ringbuffer

open Transition

/-- Every function of `ringbuffer.h` that is called with a ring buffer already set up. -/
inductive Call where
  | fifo (op : Op)
  | read (len : UInt16)
  | readString (dst : Bool) (bufSize : UInt16)
  | readStringAndIsWithPrefix (pre : Option {p : List UInt8 // 0 ∉ p}) (dst : Bool) (size : UInt16)
  | dropFromTail (size : UInt16)
  | dropFromHead (size : UInt16)

def call (rb : Ringbuffer) : Call → Ringbuffer
  | .fifo op => (rb.exec op).1
  | .read len => (rb.read len.toNat).rb
  | .readString dst bufSize => (rb.readString dst bufSize.toNat).rb
  | .readStringAndIsWithPrefix pre dst size =>
    (rb.readStringAndIsWithPrefix (pre.map Subtype.val) dst size.toNat).rb
  | .dropFromTail size => (rb.dropFromTail size.toNat).2
  | .dropFromHead size => (rb.dropFromHead size.toNat).2

/-- The call is not one of the two `ringbuffer_drop_from_` functions. -/
def Call.NoDrop : Call → Prop
  | .dropFromTail _ => False
  | .dropFromHead _ => False
  | _ => True

theorem call_inv {rb : Ringbuffer} (h : rb.Inv) {c : Call} (hc : c.NoDrop) : (rb.call c).Inv := by
  cases c with
  | fifo op => exact (exec_refines h op).1
  | read len => exact (read_inv h len.toNat_lt).1
  | readString dst bufSize => exact (readString_spec dst bufSize.toNat_lt h).1
  | readStringAndIsWithPrefix pre dst size =>
    apply (readStringAndIsWithPrefix_spec _ dst size.toNat_lt h).1
    intro p hp
    obtain ⟨q, -, rfl⟩ := Option.mem_map.mp hp
    exact q.property
  | dropFromTail size => exact hc.elim
  | dropFromHead size => exact hc.elim

theorem calls_inv {rb : Ringbuffer} (h : rb.Inv) {cs : List Call} (hcs : ∀ c ∈ cs, c.NoDrop) :
    (cs.foldl call rb).Inv := by
  induction cs generalizing rb with
  | nil => exact h
  | cons c cs ih =>
    rw [List.forall_mem_cons] at hcs
    exact ih (call_inv h hcs.1) hcs.2

/-- Every state that calls other than the two drops lead to represents a queue. In every state
that does, both record reads take the first record out, store as much of it as fits and report
that much, and the second one tells whether the record starts with the prefix. -/
theorem reads_take_one_record :
    (∀ (buf : ℕ → UInt8) (c : UInt16) (cs : List Call), (∀ c ∈ cs, c.NoDrop) →
      (cs.foldl call (init buf c.toNat)).Inv) ∧
    ∀ rb : Ringbuffer, rb.Inv → ∀ (dst : Bool) (size : UInt16),
      (let r := rb.readString dst size.toNat
       r.rb.Inv ∧ rb.content = record rb.content ++ r.rb.content ∧
        r.bytes = (if dst then (record rb.content).take size.toNat else []) ∧
        r.ret = if dst then min size.toNat (record rb.content).length else 0) ∧
      ∀ p : List UInt8, 0 ∉ p →
        let r := rb.readStringAndIsWithPrefix (some p) dst size.toNat
        r.rb.Inv ∧ rb.content = record rb.content ++ r.rb.content ∧
          r.bytes = (if dst then (record rb.content).take size.toNat else []) ∧
          r.size = (if dst then min size.toNat (record rb.content).length else 0) ∧
          (r.ret = true ↔ p <+: record rb.content) := by
  refine ⟨fun buf c cs hcs => calls_inv (init_inv buf c.toNat_lt) hcs, fun rb h dst size => ?_⟩
  have hsplit : record rb.content ++ rb.content.drop (record rb.content).length = rb.content :=
    List.prefix_iff_eq_append.mp (List.take_prefix _ _)
  have hlen : ∀ bytes : List UInt8, (bytes = if dst then (record rb.content).take size.toNat else []) →
      bytes.length = if dst then min size.toNat (record rb.content).length else 0 := by
    rintro bytes rfl
    cases dst with
    | false => rfl
    | true => exact List.length_take
  constructor
  · obtain ⟨hI, -, hq, hb, hr⟩ := readString_spec dst size.toNat_lt h
    refine ⟨hI, ?_, hb, hr.trans (hlen _ hb)⟩
    rw [hq, hsplit]
  · intro p hp
    obtain ⟨hI, -, hq, hb, hz, hr⟩ :=
      prefixLoop_spec dst size.toNat_lt hp h (by decide : (1 : UInt8) ≠ 0) (Nat.zero_le _)
    refine ⟨hI, ?_, hb, ?_, hr⟩
    · rw [readStringAndIsWithPrefix, hq, hsplit]
    · exact hz.trans ((Nat.zero_add _).trans (hlen _ hb))

/-- Two records, of which the first one is read as far as it fits. -/
theorem reads_take_one_record_two :
    let rb := [Call.fifo (.tryWrite ⟨[79, 75, 0, 69, 0], by decide⟩)].foldl call (init (fun _ => 0) 8)
    (rb.readStringAndIsWithPrefix (some [79, 75]) true 2).bytes = [79, 75] ∧
      (rb.readStringAndIsWithPrefix (some [79, 75]) true 2).ret = true ∧
      rb.content = [79, 75, 0] ++ (rb.readStringAndIsWithPrefix (some [79, 75]) true 2).rb.content := by
  intro rb
  have h : rb.Inv := reads_take_one_record.1 (fun _ => 0) 8 _ (by simp [Call.NoDrop])
  obtain ⟨-, hq, hb, -, hr⟩ := (reads_take_one_record.2 rb h true 2).2 [79, 75] (by decide)
  have hrec : record rb.content = [79, 75, 0] := by decide
  rw [hrec] at hq hb hr
  exact ⟨hb, hr.mpr (by decide), hq⟩

/-- The contract above the declaration of `ringbuffer_read`. -/
def AllOrNothing (rb : Ringbuffer) (n : ℕ) : Prop :=
  if rb.content.length < n then rb.read n = ⟨0, [], rb⟩
  else (rb.read n).ret = n ∧ (rb.read n).bytes = rb.content.take n ∧
    (rb.read n).rb.content = rb.content.drop n

theorem allOrNothing_iff {rb : Ringbuffer} (h : rb.Inv) {n : ℕ} (hn : n < 2 ^ 16) :
    AllOrNothing rb n ↔
      (n ≤ rb.len → n ≤ rb.cap - rb.len) ∧ (rb.len < n → rb.cap - rb.len < n ∨ rb.len = 0) := by
  have hle := h.len_le
  obtain ⟨-, -, hb, hr, hq⟩ := tryRead_spec h hn
  rw [List.length_take, length_content] at hr hq
  unfold AllOrNothing
  rw [length_content]
  by_cases hshort : rb.len < n
  · rw [if_pos hshort]
    have hmin : min n rb.len = rb.len := by omega
    by_cases hfree : rb.cap - rb.len < n
    · have hread : rb.read n = ⟨0, [], rb⟩ := if_pos (by omega)
      simp only [hread, true_iff]
      omega
    · have hread : rb.read n = rb.tryRead n := if_neg (by omega)
      rw [hread]
      constructor
      · intro heq
        rw [heq, hmin] at hr
        exact ⟨by omega, fun _ => .inr hr.symm⟩
      · rintro ⟨-, hcond⟩
        have hempty : ¬ 0 < rb.len := by
          obtain hlt | hz := hcond hshort
          · exact absurd hlt hfree
          · omega
        unfold tryRead
        cases n with
        | zero => rfl
        | succ n => rw [readLoop, if_neg hempty]
  · rw [if_neg hshort]
    by_cases hfree : rb.cap - rb.len < n
    · have hread : rb.read n = ⟨0, [], rb⟩ := if_pos (by omega)
      rw [hread]
      constructor
      · rintro ⟨hret, -⟩
        have hret' : 0 = n := hret
        omega
      · rintro ⟨hroom, -⟩
        have := hroom (by omega)
        omega
    · have hread : rb.read n = rb.tryRead n := if_neg (by omega)
      have hmin : min n rb.len = n := by omega
      rw [hmin] at hr hq
      rw [hread]
      constructor
      · intro _
        omega
      · intro _
        exact ⟨hr, hb, hq⟩

/-- In every state that calls other than the two drops lead to, `ringbuffer_read` is
all-or-nothing for exactly the lengths on which its guard, which looks at the free space,
agrees with the stored length, or when nothing is stored. -/
theorem read_allOrNothing_iff (buf : ℕ → UInt8) (c : UInt16) {cs : List Call}
    (hcs : ∀ c ∈ cs, c.NoDrop) (n : UInt16) :
    let rb := cs.foldl call (init buf c.toNat)
    AllOrNothing rb n.toNat ↔
      (n.toNat ≤ rb.len → n.toNat ≤ rb.cap - rb.len) ∧
        (rb.len < n.toNat → rb.cap - rb.len < n.toNat ∨ rb.len = 0) :=
  allOrNothing_iff (calls_inv (init_inv buf c.toNat_lt) hcs) n.toNat_lt

/-- A half-full buffer. -/
theorem read_allOrNothing_half :
    AllOrNothing ([Call.fifo (.put 7 2)].foldl call (init (fun _ => 0) (4 : UInt16).toNat))
      (2 : UInt16).toNat :=
  (@read_allOrNothing_iff (fun _ => 0) 4 [.fifo (.put 7 2)] (by simp [Call.NoDrop]) 2).mpr (by decide)

/-- A full buffer refuses to give anything back. -/
theorem full_buffer_not_read :
    ¬ AllOrNothing ([Call.fifo (.put 7 2)].foldl call (init (fun _ => 0) (2 : UInt16).toNat))
      (1 : UInt16).toNat := by
  rintro h
  have hret : 0 = 1 := h.1
  omega

/-- What a drop of `size` bytes should do: `k = min(size, len)` bytes go from one end, `k` is
returned and a queue is left. -/
def Dropped (front : Bool) (rb : Ringbuffer) (size : ℕ) (r : ℕ × Ringbuffer) : Prop :=
  r.1 = min size rb.len ∧ r.2.len = rb.len - min size rb.len ∧ r.2.Inv ∧
    r.2.content = if front then rb.content.drop (min size rb.len)
      else rb.content.take (rb.len - min size rb.len)

/-- Nothing is dropped, or everything, by a number that moves `out` once or half around. -/
def TailFits (rb : Ringbuffer) (size : ℕ) : Prop :=
  size = 0 ∨ size = rb.len ∧ (rb.len = rb.cap ∨ 2 * rb.len = rb.cap)

/-- Everything is dropped, by a number that moves `in` to `out`: nothing, once or half around
without a carry out of 16 bits, or once around 16 bits. -/
def HeadFits (rb : Ringbuffer) (size : ℕ) : Prop :=
  size = rb.len ∧ (rb.len = 0 ∨ (rb.len = rb.cap ∨ 2 * rb.len = rb.cap) ∧ rb.inIdx + rb.len < 2 ^ 16 ∨
    rb.len = 2 ^ 15 ∧ rb.out + rb.len < rb.cap)

theorem Inv.in_cases {rb : Ringbuffer} (h : rb.Inv) (hc : 0 < rb.cap) :
    rb.out + rb.len < rb.cap ∧ rb.inIdx = rb.out + rb.len ∨
      rb.cap ≤ rb.out + rb.len ∧ rb.inIdx + rb.cap = rb.out + rb.len := by
  have hout := h.out_lt hc
  have hle := h.len_le
  have hin := h.in_eq
  by_cases hlt : rb.out + rb.len < rb.cap
  · rw [Nat.mod_eq_of_lt hlt] at hin
    exact .inl ⟨hlt, hin⟩
  · rw [Nat.mod_eq_sub_mod (by omega), Nat.mod_eq_of_lt (by omega)] at hin
    exact .inr ⟨by omega, by omega⟩

theorem inv_empty_iff {cap inIdx out : ℕ} (buf : ℕ → UInt8) (hcap : cap < 2 ^ 16)
    (hout : 0 < cap → out < cap) : (⟨cap, 0, inIdx, out, buf⟩ : Ringbuffer).Inv ↔ inIdx = out := by
  have hmod : out % cap = out := by
    rcases Nat.eq_zero_or_pos cap with h0 | hpos
    · rw [h0, Nat.mod_zero]
    · exact Nat.mod_eq_of_lt (hout hpos)
  constructor
  · intro h
    exact h.in_eq.trans hmod
  · intro heq
    exact ⟨hcap, Nat.zero_le _, fun hc => heq ▸ hout hc, hout, heq.trans hmod.symm⟩

theorem dropped_all_iff (front : Bool) {rb rb' : Ringbuffer} (hlen : rb'.len = 0) :
    Dropped front rb rb.len (rb.len, rb') ↔ rb'.Inv := by
  have hnil : rb'.content = [] := List.length_eq_zero_iff.mp (by rw [length_content, hlen])
  have hend : [] = if front then rb.content.drop rb.len else rb.content.take 0 := by
    cases front with
    | false => rfl
    | true => exact (List.drop_of_length_le (length_content rb).le).symm
  unfold Dropped
  simp only [min_self, hlen, hnil, Nat.sub_self, ← hend, true_and, and_true]

/-- The returned number is right only if it is the number of stored bytes. -/
theorem not_dropped (front : Bool) {rb rb' : Ringbuffer} {size : ℕ} (hne : size ≠ rb.len) :
    ¬ Dropped front rb size (if size < rb.len then rb.len else size, rb') := by
  rintro ⟨hret, -⟩
  simp only at hret
  split_ifs at hret <;> omega

theorem dropFromTail_iff (front : Bool) {rb : Ringbuffer} (h : rb.Inv) (size : ℕ) :
    Dropped front rb size (rb.dropFromTail size) ↔ TailFits rb size := by
  have hcap := h.cap_lt
  have hle := h.len_le
  unfold TailFits dropFromTail
  by_cases h0 : size = 0
  · rw [if_pos h0, h0]
    simp only [true_or, iff_true]
    refine ⟨by simp, by simp, h, ?_⟩
    cases front with
    | false => simp [List.take_of_length_le]
    | true => simp
  · rw [if_neg h0]
    by_cases hsize : size = rb.len
    · subst hsize
      have hout := h.out_lt (by omega)
      have hz : size16 ((rb.len : ℤ) - rb.len) = 0 := by
        unfold size16 Word.wrap
        omega
      simp only [lt_self_iff_false, if_false, hz, h0, false_or, true_and]
      have hnew : rb.out < rb.len → size16 ((rb.out : ℤ) + rb.cap - rb.len) = rb.out + rb.cap - rb.len := by
        intro hlt
        unfold size16 Word.wrap
        omega
      rw [dropped_all_iff front rfl, inv_empty_iff rb.buf hcap ?_]
      · have hin := h.in_cases (by omega)
        split_ifs with hlt
        · rw [hnew hlt]
          omega
        · omega
      · intro _
        split_ifs with hlt
        · rw [hnew hlt]
          omega
        · omega
    · exact iff_of_false (not_dropped front hsize) (by simp [h0, hsize])

theorem dropFromHead_iff (front : Bool) {rb : Ringbuffer} (h : rb.Inv) (hin : rb.inIdx < 2 ^ 16)
    (size : ℕ) :
    Dropped front rb size (rb.dropFromHead size) ↔ HeadFits rb size := by
  have hcap := h.cap_lt
  have hle := h.len_le
  unfold HeadFits dropFromHead
  by_cases hsize : size = rb.len
  · subst hsize
    have hz : size16 ((rb.len : ℤ) - rb.len) = 0 := by
      unfold size16 Word.wrap
      omega
    simp only [lt_self_iff_false, if_false, hz, true_and]
    have hnext : size16 ((rb.inIdx + rb.len : ℕ) : ℤ) = (rb.inIdx + rb.len) % 2 ^ 16 :=
      Word.wrap_natCast 16 _
    rw [dropped_all_iff front rfl, inv_empty_iff rb.buf hcap h.out_lt, hnext]
    rcases Nat.eq_zero_or_pos rb.cap with h0 | hpos
    · have heq := h.in_eq
      have hl0 : rb.len = 0 := by omega
      rw [h0, Nat.mod_zero] at heq
      simp only [hl0, true_or, iff_true, h0]
      split_ifs <;> omega
    · have hcases := h.in_cases hpos
      have hout := h.out_lt hpos
      have hlt := h.in_lt hpos
      split_ifs <;> omega
  · exact iff_of_false (not_dropped front hsize) (by simp [hsize])

def Call.Fits (rb : Ringbuffer) : Call → Prop
  | .dropFromTail size => TailFits rb size.toNat
  | .dropFromHead size => HeadFits rb size.toNat
  | .fifo _ | .read _ | .readString _ _ | .readStringAndIsWithPrefix _ _ _ => True

def callStep (rb : Ringbuffer) (c : Call) : Option Ringbuffer := some (rb.call c)

/-! `in` is a `uint16_t` also where the capacity is 0 and the invariant sets it no bound. Reads
leave it alone. -/
section InIdx
variable (rb : Ringbuffer)

theorem readLoop_inIdx (stop : UInt8 → Bool) (n i : ℕ) :
    (readLoop stop n i rb).rb.inIdx = rb.inIdx := by
  induction n generalizing i rb with
  | zero => rfl
  | succ n ih =>
    unfold readLoop
    dsimp only
    split_ifs
    · rfl
    · exact ih rb.drop _
    · rfl

theorem readString_inIdx (dst : Bool) (bufSize : ℕ) :
    (rb.readString dst bufSize).rb.inIdx = rb.inIdx := by
  unfold readString
  generalize rb.len + 1 = n
  generalize 0 = ret
  induction n generalizing ret rb with
  | zero => rfl
  | succ n ih =>
    unfold readStringLoop popChar
    by_cases hlen : rb.len = 0
    · rw [if_pos hlen]
    · rw [if_neg hlen]
      by_cases h0 : rb.buf rb.out = 0
      · simp only [if_pos h0]
        rfl
      · simp only [if_neg h0]
        exact ih rb.drop _

theorem prefixLoop_inIdx (dst : Bool) (size : ℕ) (pre : List UInt8) (chr : UInt8) (saved : ℕ) :
    (prefixLoop dst size pre chr saved rb).rb.inIdx = rb.inIdx := by
  induction pre generalizing chr saved rb with
  | nil =>
    unfold prefixLoop
    by_cases h0 : chr ≠ 0
    · rw [if_pos h0]
      exact readString_inIdx rb _ _
    · rw [if_neg h0]
  | cons pe pes ih =>
    unfold prefixLoop popChar
    by_cases hlen : rb.len = 0
    · rw [if_pos hlen]
    · rw [if_neg hlen]
      by_cases hne : pe ≠ rb.buf rb.out
      · simp only [if_pos hne]
        by_cases h0 : rb.buf rb.out ≠ 0
        · simp only [if_pos h0]
          exact readString_inIdx rb.drop _ _
        · simp only [if_neg h0]
          rfl
      · simp only [if_neg hne]
        exact ih rb.drop _ _

variable {rb}

theorem writeLoop_inIdx_lt (hin : rb.inIdx < 2 ^ 16) (dat : List UInt8) (i : ℕ) :
    (writeLoop dat i rb).2.inIdx < 2 ^ 16 := by
  induction dat generalizing i rb with
  | nil => exact hin
  | cons b dat ih =>
    unfold writeLoop
    split_ifs
    · refine ih ?_ _
      unfold store
      dsimp only
      split_ifs
      · decide
      · exact Word.wrap_lt 16 _
    · exact hin

theorem call_inIdx_lt (hin : rb.inIdx < 2 ^ 16) (c : Call) : (rb.call c).inIdx < 2 ^ 16 := by
  have hwrite : ∀ dat, (rb.tryWrite dat).2.inIdx < 2 ^ 16 := fun dat => writeLoop_inIdx_lt hin dat 0
  have hread : ∀ stop n, (readLoop stop n 0 rb).rb.inIdx < 2 ^ 16 := fun stop n => by
    rw [readLoop_inIdx]
    exact hin
  have hstring : ∀ dst size, (rb.readString dst size).rb.inIdx < 2 ^ 16 := fun dst size => by
    rw [readString_inIdx]
    exact hin
  cases c with
  | fifo op =>
    cases op with
    | clear => exact Nat.zero_lt_succ _
    | put uch len => exact hwrite _
    | tryWrite dat => exact hwrite _
    | write dat =>
      simp only [call, exec, write]
      split_ifs
      · exact hin
      · exact hwrite _
    | tryRead len => exact hread _ _
    | tryReadUtil len term => exact hread _ _
    | getLeftSpace => exact hin
  | read len =>
    simp only [call, read]
    split_ifs
    · exact hin
    · exact hread _ _
  | readString dst bufSize => exact hstring _ _
  | readStringAndIsWithPrefix pre dst size =>
    cases pre with
    | none => exact hstring _ _
    | some p => exact (prefixLoop_inIdx rb _ _ _ _ _).trans_lt hin
  | dropFromTail size =>
    simp only [call, dropFromTail]
    split_ifs <;> exact hin
  | dropFromHead size =>
    simp only [call, dropFromHead]
    generalize (if size.toNat < rb.len then rb.len else size.toNat) = n
    have hnext : size16 ((rb.inIdx + n : ℕ) : ℤ) < 2 ^ 16 := Word.wrap_lt 16 _
    split_ifs
    · exact (Nat.sub_le _ _).trans_lt hnext
    · exact hnext

end InIdx

theorem call_fits {rb : Ringbuffer} (h : rb.Inv) (hin : rb.inIdx < 2 ^ 16) {c : Call}
    (hc : c.Fits rb) : (rb.call c).Inv := by
  cases c with
  | dropFromTail size => exact ((dropFromTail_iff true h size.toNat).mpr hc).2.2.1
  | dropFromHead size => exact ((dropFromHead_iff true h hin size.toNat).mpr hc).2.2.1
  | fifo | read | readString | readStringAndIsWithPrefix => exact call_inv h trivial

/-- In every state that calls lead to whose drops all fit, there is a queue. For every size and
whichever end is meant, the two functions drop bytes of it exactly when they fit. -/
theorem drops_keep_queue_iff (front : Bool) (buf : ℕ → UInt8) (c : UInt16) {cs : List Call}
    {rb : Ringbuffer} (hfits : AllSteps callStep Call.Fits (init buf c.toNat) cs)
    (hrun : run callStep (init buf c.toNat) cs = some rb) (size : UInt16) :
    rb.Inv ∧ (Dropped front rb size.toNat (rb.dropFromTail size.toNat) ↔ TailFits rb size.toNat) ∧
      (Dropped (!front) rb size.toNat (rb.dropFromHead size.toNat) ↔ HeadFits rb size.toNat) := by
  obtain ⟨h, hin⟩ := run_invariant (I := fun rb => rb.Inv ∧ rb.inIdx < 2 ^ 16)
    (fun rb c rb' ⟨h, hin⟩ hc hs => by
      obtain rfl : rb.call c = rb' := Option.some.inj hs
      exact ⟨call_fits h hin hc, call_inIdx_lt hin c⟩)
    ⟨init_inv buf c.toNat_lt, Nat.zero_lt_succ _⟩ hfits hrun
  exact ⟨h, dropFromTail_iff front h size.toNat, dropFromHead_iff (!front) h hin size.toNat⟩

/-- Both bytes of a half-full buffer, which was filled and emptied by a drop before. -/
theorem drops_keep_queue_half :
    ∃ rb ∈ run callStep (init (fun _ => 0) (4 : UInt16).toNat)
        [.fifo (.put 7 2), .dropFromTail 2, .fifo (.put 8 2)],
      rb.content = [8, 8] ∧ Dropped true rb 2 (rb.dropFromTail 2) ∧
        Dropped false rb 2 (rb.dropFromHead 2) := by
  refine ⟨_, rfl, by decide, ?_⟩
  have hfits : AllSteps callStep Call.Fits (init (fun _ => 0) (4 : UInt16).toNat)
      [.fifo (.put 7 2), .dropFromTail 2, .fifo (.put 8 2)] :=
    ⟨trivial, .inr (by decide), trivial, trivial⟩
  obtain ⟨-, htail, hhead⟩ := drops_keep_queue_iff true (fun _ => 0) 4 hfits rfl 2
  exact ⟨htail.mpr (.inr (by decide)), hhead.mpr (by unfold HeadFits; decide)⟩

/-- Of three bytes in a buffer of four, one is to be dropped: both functions drop all of them
and leave `in` and `out` apart, so that the next byte that is put is not the next one read. -/
theorem drop_one_of_three :
    let rb := [Call.fifo (.put 7 3)].foldl call (init (fun _ => 0) 4)
    (∀ front, ¬ Dropped front rb 1 (rb.dropFromTail 1) ∧ ¬ Dropped front rb 1 (rb.dropFromHead 1)) ∧
      (rb.dropFromTail 1).1 = 3 ∧ (rb.dropFromHead 1).1 = 3 ∧
      (((rb.dropFromTail 1).2.put 9 1).2.tryRead 1).bytes = [7] := by
  intro rb
  refine ⟨fun front => ⟨?_, ?_⟩, by decide, by decide, by decide⟩
  · rintro ⟨hret, -⟩
    exact absurd hret (by decide)
  · rintro ⟨hret, -⟩
    exact absurd hret (by decide)

end EmbeddedTemplate.Ringbuffer
