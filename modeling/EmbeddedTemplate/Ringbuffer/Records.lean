import EmbeddedTemplate.Ringbuffer.Fifo

/-! NUL-terminated records in the ring buffer, as the text protocols store them. -/
namespace EmbeddedTemplate.Ringbuffer

/-- The first record of a queue with its NUL, or all of it when there is none. -/
def record (q : List UInt8) : List UInt8 := upTo (· == 0) q

def records (q : List UInt8) : ℕ := q.count 0

theorem record_cons (b : UInt8) (q : List UInt8) :
    record (b :: q) = if b = 0 then [b] else b :: record q := by
  simp only [record, upTo_cons, beq_iff_eq]

theorem popChar_of_cons {rb : Ringbuffer} (h : rb.Inv) {b : UInt8} {q : List UInt8}
    (hq : rb.content = b :: q) :
    rb.popChar = some (b, rb.drop) ∧ rb.drop.Inv ∧ rb.drop.content = q ∧ rb.drop.len + 1 = rb.len := by
  have hlen : rb.len = q.length + 1 := by
    rw [← length_content, hq, List.length_cons]
  obtain ⟨hinv, hcont⟩ := drop_spec h (by omega)
  rw [hq, List.cons.injEq] at hcont
  have hdl : rb.drop.len = q.length := by rw [← length_content, ← hcont.2]
  refine ⟨?_, hinv, hcont.2.symm, by omega⟩
  rw [popChar, if_neg (by omega), hcont.1]

theorem popChar_of_nil {rb : Ringbuffer} (hq : rb.content = []) : rb.popChar = none := by
  have hlen : rb.len = 0 := by rw [← length_content, hq, List.length_nil]
  rw [popChar, if_pos hlen]

/-- The number of bytes stored after one more, where the destination may be NULL or full. -/
def savedNext (dst : Bool) (size saved : ℕ) : ℕ :=
  if (dst && decide (saved < size)) = true then size16 (saved + 1) else saved

theorem savedNext_le (dst : Bool) {size saved : ℕ} (hs : size < 2 ^ 16) (hsaved : saved ≤ size) :
    savedNext dst size saved ≤ size := by
  unfold savedNext
  split_ifs with hstore
  · have hlt : saved < size := of_decide_eq_true (Bool.and_elim_right hstore)
    rw [size16_succ (by omega)]
    exact hlt
  · exact hsaved

theorem stored_cons (dst : Bool) {size saved n : ℕ} (hs : size < 2 ^ 16) (hsaved : saved ≤ size) (b : UInt8)
    {r bytes : List UInt8}
    (hb : bytes = if dst then r.take (size - savedNext dst size saved) else [])
    (hn : n = savedNext dst size saved + bytes.length) :
    let bytes' := if (dst && decide (saved < size)) = true then b :: bytes else bytes
    bytes' = (if dst then (b :: r).take (size - saved) else []) ∧ n = saved + bytes'.length := by
  unfold savedNext at hb hn
  cases dst with
  | false => simpa using ⟨hb, hn⟩
  | true =>
    by_cases hlt : saved < size
    · simp only [hlt, decide_true, Bool.and_true, if_true, size16_succ (show saved + 1 < 2 ^ 16 by omega)]
        at hb hn ⊢
      have hsucc : size - saved = size - (saved + 1) + 1 := by omega
      rw [hsucc, List.take_succ_cons, hb, List.length_cons]
      rw [hb] at hn
      exact ⟨rfl, by omega⟩
    · have hzero : size - saved = 0 := by omega
      simp only [hlt, hzero, decide_false, Bool.and_false, Bool.false_eq_true, if_true, if_false,
        List.take_zero] at hb hn ⊢
      exact ⟨hb, hn⟩

theorem readStringLoop_spec (dst : Bool) {bufSize : ℕ} (hb : bufSize < 2 ^ 16) {rb : Ringbuffer}
    (h : rb.Inv) {n : ℕ} (hn : rb.len < n) (ret : ℕ) (hret : ret ≤ bufSize) :
    let r := readStringLoop dst bufSize n ret rb
    r.rb.Inv ∧ r.rb.cap = rb.cap ∧ r.rb.content = rb.content.drop (record rb.content).length ∧
      r.bytes = (if dst then (record rb.content).take (bufSize - ret) else []) ∧
      r.ret = ret + r.bytes.length := by
  induction n generalizing ret rb with
  | zero => omega
  | succ n ih =>
    cases hq : rb.content with
    | nil => simp [readStringLoop, popChar_of_nil hq, h, hq, record]
    | cons b q =>
      obtain ⟨hpop, hinv, hcont, hlen⟩ := popChar_of_cons h hq
      simp only [readStringLoop, hpop]
      rw [record_cons]
      by_cases hb0 : b = 0
      · simp only [if_pos hb0]
        exact ⟨hinv, rfl, hcont, stored_cons dst hb hret b (by simp) rfl⟩
      · simp only [if_neg hb0]
        obtain ⟨hI, hc, hq', hby, hrt⟩ := ih hinv (by omega) _ (savedNext_le dst hb hret)
        rw [hcont] at hq' hby
        exact ⟨hI, hc, hq', stored_cons dst hb hret b hby hrt⟩

theorem readString_spec (dst : Bool) {bufSize : ℕ} (hb : bufSize < 2 ^ 16) {rb : Ringbuffer} (h : rb.Inv) :
    (rb.readString dst bufSize).rb.Inv ∧ (rb.readString dst bufSize).rb.cap = rb.cap ∧
      (rb.readString dst bufSize).rb.content = rb.content.drop (record rb.content).length ∧
      (rb.readString dst bufSize).bytes = (if dst then (record rb.content).take bufSize else []) ∧
      (rb.readString dst bufSize).ret = (rb.readString dst bufSize).bytes.length := by
  simpa only [readString, Nat.zero_add, Nat.sub_zero] using
    readStringLoop_spec dst hb h (Nat.lt_succ_self rb.len) 0 (Nat.zero_le bufSize)

theorem readRest_spec (ret dst : Bool) {size saved : ℕ} (hs : size < 2 ^ 16) (hsaved : saved ≤ size)
    {rb : Ringbuffer} (h : rb.Inv) :
    let r := rb.readRest ret dst size saved
    r.rb.Inv ∧ r.rb.cap = rb.cap ∧ r.rb.content = rb.content.drop (record rb.content).length ∧
      r.bytes = (if dst then (record rb.content).take (size - saved) else []) ∧
      r.size = saved + r.bytes.length ∧ r.ret = ret := by
  have hleft : size16 ((size : ℤ) - saved) = size - saved := by
    unfold size16 Word.wrap
    omega
  obtain ⟨hI, hc, hq, hb, hr⟩ := readString_spec dst (show size - saved < 2 ^ 16 by omega) h
  have hlen : (rb.readString dst (size - saved)).bytes.length ≤ size - saved := by
    rw [hb]
    cases dst with
    | false => simp
    | true => exact List.length_take_le _ _
  have hsize : size16 ((saved + (rb.readString dst (size - saved)).ret : ℕ) : ℤ) =
      saved + (rb.readString dst (size - saved)).bytes.length := by
    rw [hr]
    exact size16_of_lt (by omega)
  simp only [readRest, hleft]
  exact ⟨hI, hc, hq, hb, hsize, trivial⟩

/-- Whatever the prefix is and wherever it differs, one record is taken out and stored as far
as it fits. -/
theorem prefixLoop_spec (dst : Bool) {size : ℕ} (hs : size < 2 ^ 16) {pre : List UInt8} (hpre : 0 ∉ pre)
    {rb : Ringbuffer} (h : rb.Inv) {chr : UInt8} (hchr : chr ≠ 0) {saved : ℕ} (hsaved : saved ≤ size) :
    let r := prefixLoop dst size pre chr saved rb
    r.rb.Inv ∧ r.rb.cap = rb.cap ∧ r.rb.content = rb.content.drop (record rb.content).length ∧
      r.bytes = (if dst then (record rb.content).take (size - saved) else []) ∧
      r.size = saved + r.bytes.length ∧ (r.ret = true ↔ pre <+: record rb.content) := by
  induction pre generalizing rb chr saved with
  | nil =>
    obtain ⟨hI, hc, hq, hb, hz, hr⟩ := readRest_spec true dst hs hsaved h
    simp only [prefixLoop, if_pos hchr]
    exact ⟨hI, hc, hq, hb, hz, by simp [hr]⟩
  | cons pe pes ih =>
    cases hq : rb.content with
    | nil => simp [prefixLoop, popChar_of_nil hq, h, hq, record]
    | cons b q =>
      obtain ⟨hpop, hinv, hcont, -⟩ := popChar_of_cons h hq
      rw [List.mem_cons, not_or] at hpre
      have hle := savedNext_le dst hs hsaved
      simp only [prefixLoop, hpop]
      rw [record_cons]
      by_cases hb : pe = b
      · -- the prefix goes on, so this was not the NUL of the record
        have hb0 : b ≠ 0 := fun h0 => hpre.1 (h0 ▸ hb.symm)
        obtain ⟨hI, hc, hq', hby, hz, hr⟩ := ih hpre.2 hinv hb0 hle
        rw [hcont] at hq' hby hr
        obtain ⟨hby', hz'⟩ := stored_cons dst hs hsaved b hby hz
        simp only [hb, ne_eq, not_true_eq_false, if_false, if_neg hb0]
        exact ⟨hI, hc, hq', hby', hz', hr.trans (by simp [List.cons_prefix_cons])⟩
      · simp only [ne_eq, hb, not_false_eq_true, if_true]
        by_cases hb0 : b = 0
        · have hnil : [] = if dst then ([] : List UInt8).take (size - savedNext dst size saved) else [] := by
            simp
          obtain ⟨hby, hz⟩ := stored_cons dst hs hsaved b hnil rfl
          simp only [hb0, not_true_eq_false, if_false, if_true] at hby hz hb ⊢
          refine ⟨hinv, rfl, hcont, hby, hz, ?_⟩
          simp [List.cons_prefix_cons, hb]
        · obtain ⟨hI, hc, hq', hby, hz, hr⟩ := readRest_spec false dst hs hle hinv
          rw [hcont] at hq' hby
          obtain ⟨hby', hz'⟩ := stored_cons dst hs hsaved b hby hz
          simp only [hb0, not_false_eq_true, if_true, if_false]
          refine ⟨hI, hc, hq', hby', hz', ?_⟩
          rw [List.cons_prefix_cons]
          exact ⟨fun ht => Bool.noConfusion (hr.symm.trans ht), fun hp => absurd hp.1 hb⟩

theorem readStringAndIsWithPrefix_spec {pre : Option (List UInt8)} (hpre : ∀ p ∈ pre, 0 ∉ p) (dst : Bool)
    {size : ℕ} (hs : size < 2 ^ 16) {rb : Ringbuffer} (h : rb.Inv) :
    (rb.readStringAndIsWithPrefix pre dst size).rb.Inv ∧
      (rb.readStringAndIsWithPrefix pre dst size).rb.cap = rb.cap ∧
      (rb.readStringAndIsWithPrefix pre dst size).rb.content =
        rb.content.drop (record rb.content).length := by
  cases pre with
  | none =>
    obtain ⟨hI, hc, hq, -⟩ := readString_spec dst hs h
    exact ⟨hI, hc, hq⟩
  | some p =>
    obtain ⟨hI, hc, hq, -⟩ :=
      prefixLoop_spec dst hs (hpre p rfl) h (by decide : (1 : UInt8) ≠ 0) (Nat.zero_le size)
    exact ⟨hI, hc, hq⟩

end EmbeddedTemplate.Ringbuffer
