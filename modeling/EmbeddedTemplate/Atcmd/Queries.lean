import EmbeddedTemplate.Lib.CString
import EmbeddedTemplate.Lib.Word

/-! The queries of `atcmd.c` that read numbers out of a reply line. -/
namespace EmbeddedTemplate.Atcmd.Queries

open CString

def comma : UInt8 := 44
def quotation : UInt8 := 34

/-- `"AT+CSQ"` -/
def atCsq : List UInt8 := [65, 84, 43, 67, 83, 81]
/-- `"+CSQ:"` -/
def csq : List UInt8 := [43, 67, 83, 81, 58]
/-- `"AT+QISACK"` -/
def atQisack : List UInt8 := [65, 84, 43, 81, 73, 83, 65, 67, 75]
/-- `"+QISACK:"` -/
def qisack : List UInt8 := [43, 81, 73, 83, 65, 67, 75, 58]
/-- `"AT+CREG?"` -/
def atCreg : List UInt8 := [65, 84, 43, 67, 82, 69, 71, 63]
/-- `"+CREG:"` -/
def creg : List UInt8 := [43, 67, 82, 69, 71, 58]

/-- The arguments of `atcmd_exec_command` in a query. -/
structure Request where
  cmd : List UInt8
  expect : List UInt8
  buffSize : UInt8
  ms : ℕ
deriving DecidableEq

/-- `atcmd_exec_command`: it returns 0, or 1 with the bytes from `exp->recv_buff` on. -/
abbrev ExecCommand := Request → Option (List UInt8)

def atoiSkipBankPrefix (s : List UInt8) : ℤ := atoi (s.dropWhile fun c => c == 32 || c == 9)

/-- Conversions to `unsigned char`, `unsigned short` and `unsigned long`. -/
def uchar (n : ℤ) : UInt8 := UInt8.ofNat (Word.wrap 8 n)
def ushort (n : ℤ) : UInt16 := UInt16.ofNat (Word.wrap 16 n)
def ulong (n : ℤ) : UInt32 := UInt32.ofNat (Word.wrap 32 n)

/-- `atcmd_get_signal_quality`, with what its pointers point to; `none` is a null pointer. -/
def getSignalQuality (execCommand : ExecCommand) (rssi ber : Option UInt8) :
    Bool × Option UInt8 × Option UInt8 :=
  match execCommand ⟨atCsq, csq, 20, 500⟩ with
  | none => (false, rssi, ber)
  | some line =>
    let p := line.drop 5
    let thisRssi := uchar (atoiSkipBankPrefix p)
    if 31 < thisRssi ∧ thisRssi ≠ 99 then (false, rssi, ber)
    else
      match strchr comma p.tail with
      | none => (false, rssi, ber)
      | some p =>
        let thisBer := uchar (atoiSkipBankPrefix p.tail)
        if 7 < thisBer ∧ thisBer ≠ 99 then (false, rssi, ber)
        else (true, rssi.map fun _ => thisRssi, ber.map fun _ => thisBer)

/-- `atcmd_get_data_sent_info` -/
def getDataSentInfo (execCommand : ExecCommand) (sent acked unacked : Option UInt32) :
    Bool × Option UInt32 × Option UInt32 × Option UInt32 :=
  match execCommand ⟨atQisack, qisack, 48, 1000⟩ with
  | none => (false, sent, acked, unacked)
  | some line =>
    let p := line.drop 8
    let thisSent := atoiSkipBankPrefix p
    if thisSent = -1 then (false, sent, acked, unacked)
    else
      match strchr comma p with
      | none => (false, sent, acked, unacked)
      | some p =>
        let thisAcked := atoiSkipBankPrefix p.tail
        if thisAcked = -1 then (false, sent, acked, unacked)
        else
          match strchr comma p.tail with
          | none => (false, sent, acked, unacked)
          | some p =>
            let thisUnacked := atoiSkipBankPrefix p.tail
            if thisUnacked = -1 then (false, sent, acked, unacked)
            else (true, sent.map fun _ => ulong thisSent, acked.map fun _ => ulong thisAcked,
              unacked.map fun _ => ulong thisUnacked)

/-- `atcmd_get_lacci`, with the two elements of `lac_ci`. -/
def getLacci (execCommand : ExecCommand) (lacCi : Option (UInt16 × UInt16)) :
    Bool × Option (UInt16 × UInt16) :=
  match lacCi with
  | none => (false, none)
  | some (lac, ci) =>
    match execCommand ⟨atCreg, creg, 28, 1000⟩ with
    | none => (false, some (lac, ci))
    | some buf =>
      match strchr quotation buf with
      | none => (false, some (lac, ci))
      | some ops =>
        let r := strtol 16 ops.tail
        let lac := ushort r.1
        if r.2.head? ≠ some quotation then (false, some (lac, ci))
        else
          match strchr quotation r.2.tail with
          | none => (false, some (lac, ci))
          | some ops =>
            let r := strtol 16 ops.tail
            let ci := ushort r.1
            if r.2.head? ≠ some quotation then (false, some (lac, ci)) else (true, some (lac, ci))

def Atomic {α : Type} (r : Bool × α) (before : α) : Prop := r.1 = false → r.2 = before

instance {α : Type} [DecidableEq α] (r : Bool × α) (before : α) : Decidable (Atomic r before) :=
  inferInstanceAs (Decidable (_ → _))

/-- The hexadecimal number behind the next quote, and what follows it if a quote closes it. -/
def quoted (s : List UInt8) : Option (UInt16 × Option (List UInt8)) :=
  (strchr quotation s).map fun q =>
    let r := strtol 16 q.tail
    (ushort r.1, if r.2.head? = some quotation then some r.2.tail else none)

/-- The reply has no quote, two numbers in quotes, or no number that differs from the one that
is there before. -/
def Complete (line : List UInt8) (lac ci : UInt16) : Prop :=
  match quoted line with
  | none => True
  | some (n, none) => n = lac
  | some (n, some rest) =>
    match quoted rest with
    | none => n = lac
    | some (m, none) => n = lac ∧ m = ci
    | some (_, some _) => True

theorem getSignalQuality_atomic (execCommand : ExecCommand) (rssi ber : Option UInt8) :
    Atomic (getSignalQuality execCommand rssi ber) (rssi, ber) := by
  intro h
  unfold getSignalQuality at h ⊢
  cases hline : execCommand ⟨atCsq, csq, 20, 500⟩ with
  | none => rfl
  | some line =>
    simp only [hline] at h ⊢
    split_ifs at h ⊢ with hrssi
    · rfl
    · cases hp : strchr comma (line.drop 5).tail with
      | none => rfl
      | some p =>
        simp only [hp] at h ⊢
        split_ifs at h ⊢
        rfl

theorem getDataSentInfo_atomic (execCommand : ExecCommand) (sent acked unacked : Option UInt32) :
    Atomic (getDataSentInfo execCommand sent acked unacked) (sent, acked, unacked) := by
  intro h
  unfold getDataSentInfo at h ⊢
  cases hline : execCommand ⟨atQisack, qisack, 48, 1000⟩ with
  | none => rfl
  | some line =>
    simp only [hline] at h ⊢
    split_ifs at h ⊢ with hsent
    · rfl
    · cases hp : strchr comma (line.drop 8) with
      | none => rfl
      | some p =>
        simp only [hp] at h ⊢
        split_ifs at h ⊢ with hacked
        · rfl
        · cases hq : strchr comma p.tail with
          | none => rfl
          | some q =>
            simp only [hq] at h ⊢
            split_ifs at h ⊢
            rfl

theorem getLacci_atomic_iff (execCommand : ExecCommand) (lac ci : UInt16) :
    Atomic (getLacci execCommand (some (lac, ci))) (some (lac, ci)) ↔
      ∀ line, execCommand ⟨atCreg, creg, 28, 1000⟩ = some line → Complete line lac ci := by
  unfold Atomic getLacci
  cases hline : execCommand ⟨atCreg, creg, 28, 1000⟩ with
  | none => simp
  | some line =>
    simp only [Option.some.injEq, forall_eq', Complete, quoted]
    cases hq : strchr quotation line with
    | none => simp
    | some q =>
      simp only [Option.map_some]
      by_cases hclosed : (strtol 16 q.tail).2.head? = some quotation
      · simp only [hclosed, ne_eq, not_true_eq_false, if_true, if_false]
        cases hq' : strchr quotation (strtol 16 q.tail).2.tail with
        | none => simp
        | some q' =>
          simp only [Option.map_some]
          by_cases hclosed' : (strtol 16 q'.tail).2.head? = some quotation
          · simp [hclosed']
          · simp [hclosed']
      · simp [hclosed]

/-- A query that fails leaves the locations of the caller alone if and only if the reply with
the cell is complete. -/
theorem queries_atomic_iff (execCommand : ExecCommand) (rssi ber : Option UInt8)
    (sent acked unacked : Option UInt32) (lacCi : Option (UInt16 × UInt16)) :
    (Atomic (getSignalQuality execCommand rssi ber) (rssi, ber) ∧
      Atomic (getDataSentInfo execCommand sent acked unacked) (sent, acked, unacked) ∧
      Atomic (getLacci execCommand lacCi) lacCi) ↔
    ∀ p ∈ lacCi, ∀ line, execCommand ⟨atCreg, creg, 28, 1000⟩ = some line → Complete line p.1 p.2 := by
  have hsignal := getSignalQuality_atomic execCommand rssi ber
  have hsent := getDataSentInfo_atomic execCommand sent acked unacked
  cases lacCi with
  | none =>
    have hnone : Atomic (getLacci execCommand none) none := fun _ => rfl
    simp [hsignal, hsent, hnone]
  | some p =>
    have hlacci := getLacci_atomic_iff execCommand p.1 p.2
    simp only [hsignal, hsent, true_and, Option.mem_def, Option.some.injEq, forall_eq']
    exact hlacci

/-- `+CREG: 2,1,"1A2B"` fails for its missing second number and has stored the first one. -/
theorem lacci_stored_by_failed_query :
    let reply := creg ++ " 2,1,\"1A2B\"".toUTF8.toList ++ [0]
    getLacci (fun _ => some reply) (some (0, 0)) = (false, some (0x1A2B, 0)) ∧
      ¬ Atomic (getLacci (fun _ => some reply) (some (0, 0))) (some (0, 0)) := by
  decide +kernel

/-- The values of a quality up to `m`, and 99 for an unknown one. -/
def Quality (m v : ℤ) : Prop := 0 ≤ v ∧ v ≤ m ∨ v = 99

instance (m v : ℤ) : Decidable (Quality m v) := inferInstanceAs (Decidable (_ ∨ _))

/-- The result of `atcmd_get_signal_quality` is what stands behind the colon and behind the
first comma of `s`, and it is a failure when one of the two is out of range. -/
def SignalRead (s : List UInt8) (res : Bool × Option UInt8 × Option UInt8) : Prop :=
  (∀ r b, res = (true, some r, some b) →
    (atoi s = r.toNat ∧ Quality 31 (atoi s)) ∧
      ∃ t, strchr comma s = some t ∧ atoi t.tail = b.toNat ∧ Quality 7 (atoi t.tail)) ∧
  (¬ Quality 31 (atoi s) ∨ (∃ t, strchr comma s = some t ∧ ¬ Quality 7 (atoi t.tail)) →
    res.1 = false)

def low (v : ℤ) : ℤ := v % 256

def Narrowed (s : List UInt8) : Prop :=
  s.head? ≠ some comma ∧ ∃ t, strchr comma s = some t ∧
    (Quality 31 (low (atoi s)) ∧ Quality 7 (low (atoi t.tail))) ∧
      ¬ (Quality 31 (atoi s) ∧ Quality 7 (atoi t.tail))

/-- A comma follows the colon, and the number behind the second comma is taken for the one
behind the first. -/
def CommaSkipped (s : List UInt8) : Prop :=
  s.head? = some comma ∧ ∃ t, strchr comma s.tail = some t ∧
    Quality 7 (low (atoi t.tail)) ∧ atoi s.tail ≠ low (atoi t.tail)

/-- The line ends with the colon, and a comma is found behind its NUL. -/
def Stale (s back : List UInt8) : Prop :=
  s = [] ∧ ∃ t, strchr comma back = some t ∧ Quality 7 (low (atoi t.tail))

theorem uchar_toNat (v : ℤ) : ((uchar v).toNat : ℤ) = low v := by
  have hnn : 0 ≤ v % 256 := Int.emod_nonneg v (by decide)
  have hlt : v % 256 < 256 := Int.emod_lt_of_pos v (by decide)
  have hword : Word.wrap 8 v = (v % 256).toNat := rfl
  unfold uchar low
  rw [hword, UInt8.toNat_ofNat_of_lt' (by simp only [UInt8.size]; omega)]
  omega

/-- The range checks are checks of the low byte. -/
theorem not_quality_iff (m : UInt8) (v : ℤ) :
    (m < uchar v ∧ uchar v ≠ 99) ↔ ¬ Quality m.toNat (low v) := by
  rw [← uchar_toNat, Quality, UInt8.lt_iff_toNat_lt, ne_eq, ← UInt8.toNat_inj]
  simp only [UInt8.toNat_ofNat]
  omega

theorem quality_low {m : ℤ} (hm : m ≤ 255) {v : ℤ} (h : Quality m v) : low v = v := by
  unfold Quality low at *
  omega

theorem atoiSkipBankPrefix_eq (s : List UInt8) : atoiSkipBankPrefix s = atoi s := by
  refine atoi_dropWhile (fun c hc => ?_) s
  simp only [Bool.or_eq_true, beq_iff_eq] at hc
  obtain rfl | rfl := hc <;> decide

theorem getSignalQuality_eq {execCommand : ExecCommand} {p : List UInt8}
    (h : execCommand ⟨atCsq, csq, 20, 500⟩ = some (csq ++ p)) (r b : UInt8) :
    getSignalQuality execCommand (some r) (some b) =
      match strchr comma p.tail with
      | none => (false, some r, some b)
      | some t =>
        if Quality 31 (low (atoi p)) ∧ Quality 7 (low (atoi t.tail)) then
          (true, some (uchar (atoi p)), some (uchar (atoi t.tail)))
        else (false, some r, some b) := by
  have hdrop : (csq ++ p).drop 5 = p := rfl
  have hrssi := not_quality_iff 31 (atoi p)
  simp only [getSignalQuality, h, hdrop, atoiSkipBankPrefix_eq, hrssi]
  cases ht : strchr comma p.tail with
  | none =>
    split_ifs
    · rfl
    · rfl
  | some t =>
    have hber := not_quality_iff 7 (atoi t.tail)
    simp only [hber]
    by_cases h₁ : Quality 31 (low (atoi p))
    · by_cases h₂ : Quality 7 (low (atoi t.tail))
      · simp [h₁, h₂]
      · simp [h₁, h₂]
    · simp [h₁]

theorem signalRead_failed (s : List UInt8) (r b : UInt8) : SignalRead s (false, some r, some b) :=
  ⟨fun _ _ h => by simp at h, fun _ => rfl⟩

theorem signalRead_iff {s : List UInt8} {v w : ℤ} :
    SignalRead s (true, some (uchar v), some (uchar w)) ↔
      (atoi s = low v ∧ Quality 31 (atoi s)) ∧
        ∃ t, strchr comma s = some t ∧ atoi t.tail = low w ∧ Quality 7 (atoi t.tail) := by
  rw [← uchar_toNat, ← uchar_toNat]
  constructor
  · exact fun h => h.1 _ _ rfl
  · rintro ⟨hrssi, t, ht, hber⟩
    constructor
    · intro r b heq
      simp only [Prod.mk.injEq, Option.some.injEq, true_and] at heq
      obtain ⟨rfl, rfl⟩ := heq
      exact ⟨hrssi, t, ht, hber⟩
    · rintro (h | ⟨t', ht', h⟩)
      · exact absurd hrssi.2 h
      · obtain rfl : t = t' := Option.some.inj (ht.symm.trans ht')
        exact absurd hber.2 h

theorem tail_append_of_strchr {c : UInt8} {s t : List UInt8} (h : strchr c s = some t)
    (r : List UInt8) :
    (t ++ r).tail = t.tail ++ r := by
  rw [List.tail_append_of_ne_nil]
  rintro rfl
  induction s with
  | nil => cases h
  | cons b s ih =>
    unfold strchr at h
    split_ifs at h
    · cases h
    · exact ih h

variable {execCommand : ExecCommand} {s back : List UInt8}

theorem signalRead_nil (h : execCommand ⟨atCsq, csq, 20, 500⟩ = some (csq ++ 0 :: back)) (r b : UInt8) :
    SignalRead [] (getSignalQuality execCommand (some r) (some b)) ↔ ¬ Stale [] back := by
  have hrssi : atoi (0 :: back) = 0 := atoi_append_nul [] back
  have hzero : Quality 31 (low 0) := by decide
  rw [getSignalQuality_eq h, List.tail_cons, hrssi]
  unfold Stale
  cases ht : strchr comma back with
  | none => simp [signalRead_failed]
  | some t =>
    by_cases hber : Quality 7 (low (atoi t.tail))
    · simp [hzero, hber, signalRead_iff, strchr]
    · simp [hber, signalRead_failed]

theorem signalRead_comma (hs : 0 ∉ s)
    (h : execCommand ⟨atCsq, csq, 20, 500⟩ = some (csq ++ comma :: (s ++ 0 :: back))) (r b : UInt8) :
    SignalRead (comma :: s) (getSignalQuality execCommand (some r) (some b)) ↔
      ¬ CommaSkipped (comma :: s) := by
  have hrssi (t : List UInt8) : atoi (comma :: t) = 0 :=
    congrArg Prod.fst (strtol_of_stop (by decide) (by decide) (by decide) (by decide) t)
  have hzero : Quality 31 (low 0) := by decide
  rw [getSignalQuality_eq h, List.tail_cons, hrssi, strchr_append_nul (by decide) hs]
  unfold CommaSkipped
  cases ht : strchr comma s with
  | none => simp [signalRead_failed, ht]
  | some t =>
    simp only [Option.map_some, tail_append_of_strchr ht, atoi_append_nul]
    by_cases hber : Quality 7 (low (atoi t.tail))
    · have hfirst : strchr comma (comma :: s) = some (comma :: s) := by simp [strchr]
      rw [if_pos ⟨hzero, hber⟩, signalRead_iff, hfirst, hrssi]
      constructor
      · rintro ⟨-, t', ht', heq, -⟩ ⟨-, t'', ht'', -, hne⟩
        cases ht'
        obtain rfl : t = t'' := Option.some.inj (ht.symm.trans ht'')
        exact hne heq
      · intro hn
        have heq : atoi s = low (atoi t.tail) := by
          by_contra hne
          exact hn ⟨rfl, t, ht, hber, hne⟩
        exact ⟨⟨rfl, hzero⟩, _, rfl, heq, heq ▸ hber⟩
    · rw [if_neg fun h => hber h.2]
      simp [signalRead_failed, ht, hber]

theorem signalRead_cons {c : UInt8} (hc : c ≠ comma) (hs : 0 ∉ c :: s)
    (h : execCommand ⟨atCsq, csq, 20, 500⟩ = some (csq ++ c :: (s ++ 0 :: back))) (r b : UInt8) :
    SignalRead (c :: s) (getSignalQuality execCommand (some r) (some b)) ↔ ¬ Narrowed (c :: s) := by
  rw [List.mem_cons, not_or] at hs
  have hrssi : atoi (c :: (s ++ 0 :: back)) = atoi (c :: s) := atoi_append_nul (c :: s) back
  have hfirst : strchr comma (c :: s) = strchr comma s := by
    rw [strchr, if_neg hc, if_neg (Ne.symm hs.1)]
  have hhead : (c :: s).head? ≠ some comma := by simpa using hc
  rw [getSignalQuality_eq h, List.tail_cons, hrssi, strchr_append_nul (by decide) hs.2]
  unfold Narrowed
  rw [hfirst]
  cases ht : strchr comma s with
  | none => simp [signalRead_failed]
  | some t =>
    simp only [Option.map_some, tail_append_of_strchr ht, atoi_append_nul]
    by_cases hlow : Quality 31 (low (atoi (c :: s))) ∧ Quality 7 (low (atoi t.tail))
    · rw [if_pos hlow, signalRead_iff, hfirst, ht]
      constructor
      · rintro ⟨⟨-, hr⟩, t', ht', -, hb⟩ ⟨-, t'', ht'', -, hn⟩
        cases ht'
        cases ht''
        exact hn ⟨hr, hb⟩
      · intro hn
        have hboth : Quality 31 (atoi (c :: s)) ∧ Quality 7 (atoi t.tail) := by
          by_contra hne
          exact hn ⟨hhead, t, rfl, hlow, hne⟩
        exact ⟨⟨(quality_low (by decide) hboth.1).symm, hboth.1⟩, t, rfl,
          (quality_low (by decide) hboth.2).symm, hboth.2⟩
    · rw [if_neg hlow]
      simp only [signalRead_failed, true_iff]
      rintro ⟨-, t', ht', hq, -⟩
      cases ht'
      exact hlow hq

/-- The values that the query delivers for a line are those of the modem if and only if no
number is narrowed into its range, no comma skipped and none found behind the line. -/
theorem signal_read_iff (hs : 0 ∉ s)
    (h : execCommand ⟨atCsq, csq, 20, 500⟩ = some (csq ++ (s ++ 0 :: back))) (r b : UInt8) :
    SignalRead s (getSignalQuality execCommand (some r) (some b)) ↔
      ¬ (Narrowed s ∨ CommaSkipped s ∨ Stale s back) := by
  cases s with
  | nil =>
    have hrest : ¬ Narrowed [] ∧ ¬ CommaSkipped [] := by simp [Narrowed, CommaSkipped, strchr]
    rw [signalRead_nil h]
    simp [hrest]
  | cons c s =>
    have hstale : ¬ Stale (c :: s) back := by simp [Stale]
    by_cases hc : c = comma
    · subst hc
      have hrest : ¬ Narrowed (comma :: s) := by simp [Narrowed]
      rw [signalRead_comma (List.not_mem_of_not_mem_cons hs) h]
      simp [hrest, hstale]
    · have hrest : ¬ CommaSkipped (c :: s) := by simp [CommaSkipped, hc]
      rw [signalRead_cons hc hs h]
      simp [hrest, hstale]

/-- The line of the comment in the source. -/
theorem signal_read_documented :
    let s := " 28, 0".toUTF8.toList
    SignalRead s (getSignalQuality (fun _ => some (csq ++ (s ++ [0]))) (some 0) (some 0)) ↔
      ¬ (Narrowed s ∨ CommaSkipped s ∨ Stale s []) :=
  signal_read_iff (by decide +kernel) rfl 0 0

/-- `+CSQ: 256,0` is answered with 0 and 0, and so is `+CSQ:,5,0`. Behind the line `+CSQ:`, the
bytes of an earlier one are read. -/
theorem signal_misread :
    let query (s : List UInt8) := getSignalQuality (fun _ => some (csq ++ s)) (some 1) (some 1)
    (query " 256,0\x00".toUTF8.toList = (true, some 0, some 0) ∧
      ¬ SignalRead " 256,0".toUTF8.toList (query " 256,0\x00".toUTF8.toList)) ∧
    (query ",5,0\x00".toUTF8.toList = (true, some 0, some 0) ∧
      ¬ SignalRead ",5,0".toUTF8.toList (query ",5,0\x00".toUTF8.toList)) ∧
    (query "\x008,3\x00".toUTF8.toList = (true, some 0, some 3) ∧
      ¬ SignalRead [] (query "\x008,3\x00".toUTF8.toList)) := by
  refine ⟨⟨by decide +kernel, fun h => ?_⟩, ⟨by decide +kernel, fun h => ?_⟩,
    ⟨by decide +kernel, fun h => ?_⟩⟩
  · have hfail := h.2 (.inl (by decide +kernel))
    exact absurd hfail (by decide +kernel)
  · obtain ⟨-, t, ht, heq, -⟩ := h.1 0 0 (by decide +kernel)
    have hfirst : strchr comma ",5,0".toUTF8.toList = some ",5,0".toUTF8.toList := by decide +kernel
    obtain rfl := Option.some.inj (hfirst.symm.trans ht)
    exact absurd heq (by decide +kernel)
  · obtain ⟨-, t, ht, -⟩ := h.1 0 3 (by decide +kernel)
    cases ht

end EmbeddedTemplate.Atcmd.Queries
