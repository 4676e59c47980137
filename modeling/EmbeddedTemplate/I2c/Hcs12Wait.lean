import EmbeddedTemplate.I2c.Hcs12
import EmbeddedTemplate.Lib.Polling

/-! The waiting loops of `hcs12_i2c.c`. -/
namespace EmbeddedTemplate.Hcs12I2c
open Polling

/-- A round of `acquire_i2c`, which finds the bit `aquired` set or not. -/
def acquireRound (aquired : Bool) (i : ℕ) : Round Bool :=
  if !aquired then .stop true else if 20 ≤ i then .stop false else .again (i + 1)

/-- A round of the first loop of `hcs12_i2c_start_and_tx_addr`, which reads bit 5 of the status
register. It leaves `i` alone. -/
def busyRound (busy : Bool) (i : ℕ) : Round Bool :=
  if !busy then .stop true else if 10 < i then .stop false else .again i

/-- A round of the second loop, with the test of its condition that follows. -/
def startRound (busy : Bool) (i : ℕ) : Round Bool :=
  if busy then .stop true else if i + 1 < 1000 then .again (i + 1) else .stop false

/-- A round of `wait_txing` and of `wait_rxing`, where `i` is a `uint8_t`. -/
def waitRound (length index : UInt8) (i : ℕ) : Round UInt8 :=
  if length ≤ index then .stop index
  else if length.toNat < i then .stop index
  else .again (Word.wrap 8 (i + 1))

/-- What a call reads, in the order of the readings: `aquired`, bit 5 of the status register, and the
indices that the interrupts move. -/
structure Readings where
  aquired : ℕ → Bool
  status : ℕ → Bool
  tx : ℕ → UInt8
  rx : ℕ → UInt8

def startAndTxAddr (fuel : ℕ) (status : ℕ → Bool) : Option Bool := do
  let free ← loop busyRound status fuel 0 0
  if free.1 then
    let started ← loop startRound status fuel free.2 0
    some started.1
  else some false

/-- `wait_txing` and `wait_rxing`, which return the index. -/
def wait (fuel : ℕ) (length : UInt8) (index : ℕ → UInt8) : Option UInt8 :=
  (loop (waitRound length) index fuel 0 0).map Prod.fst

/-- The return value of `hcs12_i2c_write_then_read`, if it returns. -/
def writeThenRead (fuel : ℕ) (env : Readings) (wlen rlen : UInt8) : Option UInt8 := do
  let acquired ← loop acquireRound env.aquired fuel 0 0
  if acquired.1 then
    let started ← startAndTxAddr fuel env.status
    if started then
      let len ← (if 0 < wlen then wait fuel wlen env.tx else some 0)
      if 0 < wlen ∧ len < wlen then some len
      else if 0 < rlen then (wait fuel rlen env.rx).map (len + ·)
      else some len
    else some 0
  else some 0

def Started (status : ℕ → Bool) : Prop :=
  ∃ k, status k = false ∧ (∀ j < k, status j = true) ∧ ∃ j < 1000, status (k + 1 + j) = true

def Reaches (length : UInt8) (index : ℕ → UInt8) : Prop :=
  ∃ j, length ≤ index j ∧ (length = 255 ∨ j ≤ length.toNat + 1)

/-- The counter of the loop never exceeds a length of 255, and the index never reaches it. -/
def Stuck (length : UInt8) (index : ℕ → UInt8) : Prop := length = 255 ∧ ∀ j, index j ≠ 255

/-- The driver is acquired, and then the bus stays busy for ever, or one of the two waits for 255
bytes that do not all come. -/
def Hangs (env : Readings) (wlen rlen : UInt8) : Prop :=
  (∃ k ≤ 20, env.aquired k = false) ∧
    ((∀ k, env.status k = true) ∨
      Started env.status ∧ (Stuck wlen env.tx ∨ Reaches wlen env.tx ∧ Stuck rlen env.rx))

section
variable {fuel k : ℕ} {r : Bool × ℕ}

theorem acquireRound_givesUp : GivesUp acquireRound (· = false) 20 where
  counts := by
    intro x m i h
    unfold acquireRound at h
    split_ifs at h
    cases h
    rfl
  success x i := by
    unfold acquireRound
    split_ifs <;> simp_all
  failure x i := by
    unfold acquireRound
    cases x <;> simp

theorem acquire_some {aquired : ℕ → Bool} (h : loop acquireRound aquired fuel 0 0 = some r) :
    r.1 = true ↔ ∃ k ≤ 20, aquired k = false := by
  simpa only [Nat.zero_add] using acquireRound_givesUp.loop_some h

theorem busyRound_counts : Counts busyRound fun _ => 0 := by
  intro x m i h
  unfold busyRound at h
  split_ifs at h
  cases h
  rfl

theorem busyRound_stop {busy a : Bool} : busyRound busy 0 = .stop a ↔ busy = false ∧ a = true := by
  cases busy <;> cases a <;> decide

theorem busy_some {status : ℕ → Bool} (h : loop busyRound status fuel 0 0 = some r) :
    ∃ k, r = (true, k + 1) ∧ status k = false ∧ ∀ j < k, status j = true := by
  obtain ⟨n, hnext, hstop, hbefore⟩ := loop_some (m := 0) busyRound_counts h
  simp only [Nat.zero_add, ne_eq, busyRound_stop] at hnext hstop hbefore
  refine ⟨n, ?_, hstop.1, ?_⟩
  · rw [← hnext, ← hstop.2]
  · intro j hj
    by_contra hfree
    exact hbefore j hj true ⟨Bool.eq_false_iff.mpr hfree, rfl⟩

theorem busy_isSome {status : ℕ → Bool} (h : status k = false) (hfuel : k < fuel) :
    (loop busyRound status fuel 0 0).isSome := by
  have hstop : busyRound (status (0 + k)) 0 = .stop true := by
    rw [Nat.zero_add, busyRound_stop]
    exact ⟨h, rfl⟩
  exact loop_isSome (m := 0) busyRound_counts hstop hfuel

theorem startRound_givesUp : GivesUp startRound (· = true) 999 where
  counts := by
    intro x m i h
    unfold startRound at h
    split_ifs at h
    cases h
    rfl
  success x i := by
    unfold startRound
    split_ifs <;> simp_all
  failure x i := by
    unfold startRound
    cases x <;> simp

theorem start_some {status : ℕ → Bool} (h : loop startRound status fuel k 0 = some r) :
    r.1 = true ↔ ∃ j < 1000, status (k + j) = true := by
  simpa only [Nat.lt_succ_iff] using startRound_givesUp.loop_some h

theorem waitRound_counts (length : UInt8) : Counts (waitRound length) (· % 256) := by
  intro x m i h
  unfold waitRound at h
  split_ifs at h
  cases h
  have hcast : ((m % 256 : ℕ) : ℤ) + 1 = ((m % 256 + 1 : ℕ) : ℤ) := (Nat.cast_succ _).symm
  dsimp only
  rw [hcast, Word.wrap_natCast]
  exact Nat.mod_add_mod m 256 1

/-- The counter exceeds every length below 255. -/
theorem waitRound_stop {length index a : UInt8} {i : ℕ} :
    waitRound length index i = .stop a ↔ a = index ∧ (length ≤ index ∨ length.toNat < i) := by
  unfold waitRound
  split_ifs with hdone hlong
  · simp [hdone, eq_comm]
  · simp [hlong, eq_comm]
  · simp [hdone, hlong]

theorem toNat_eq_255 {b : UInt8} : b = 255 ↔ b.toNat = 255 := by
  rw [← UInt8.toNat_inj]
  rfl

theorem wait_some {length a : UInt8} {index : ℕ → UInt8} (h : wait fuel length index = some a) :
    (length ≤ a ↔ Reaches length index) ∧ ¬ Stuck length index := by
  obtain ⟨r, hr, rfl⟩ := Option.map_eq_some_iff.mp h
  obtain ⟨n, -, hstop, hbefore⟩ := loop_some (m := 0) (waitRound_counts length) hr
  simp only [Nat.zero_add, ne_eq, waitRound_stop] at hstop hbefore
  obtain ⟨hval, hend⟩ := hstop
  have hlt := length.toNat_lt
  rw [hval]
  refine ⟨⟨fun hle => ⟨n, hle, ?_⟩, ?_⟩, ?_⟩
  · -- a counter beyond the length would have ended the loop one round earlier
    rw [toNat_eq_255]
    by_contra hlong
    exact hbefore (length.toNat + 1) (by omega) _ ⟨rfl, .inr (by omega)⟩
  · rintro ⟨j, hj, hround⟩
    rw [toNat_eq_255] at hround
    have hnj : n ≤ j := by
      by_contra hjn
      exact hbefore j (by omega) _ ⟨rfl, .inl hj⟩
    rcases hend with hle | hlong
    · exact hle
    · have hlast : n = j := by omega
      rwa [hlast]
  · rintro ⟨h255, hnever⟩
    rcases hend with hle | hlong
    · have hge := UInt8.le_iff_toNat_le.mp hle
      have hidx := (index n).toNat_lt
      rw [toNat_eq_255] at h255
      exact hnever n (toNat_eq_255.mpr (by omega))
    · rw [toNat_eq_255] at h255
      omega

theorem wait_isSome {length : UInt8} {index : ℕ → UInt8} (h : ¬ Stuck length index) :
    ∃ n, ∀ fuel, n < fuel → (wait fuel length index).isSome := by
  have hstop : ∃ n, waitRound length (index (0 + n)) ((0 + n) % 256) = .stop (index (0 + n)) := by
    by_cases h255 : length = 255
    · obtain ⟨j, hj⟩ : ∃ j, index j = 255 := by
        simpa [Stuck, h255] using h
      refine ⟨j, waitRound_stop.mpr ⟨rfl, .inl ?_⟩⟩
      simp [hj, h255]
    · rw [toNat_eq_255] at h255
      have hlt := length.toNat_lt
      exact ⟨length.toNat + 1, waitRound_stop.mpr ⟨rfl, .inr (by omega)⟩⟩
  obtain ⟨n, hn⟩ := hstop
  refine ⟨n, fun fuel hfuel => ?_⟩
  have hloop := loop_isSome (m := 0) (waitRound_counts length) hn hfuel
  rwa [wait, Option.isSome_map]

theorem startAndTxAddr_some {status : ℕ → Bool} {b : Bool} (h : startAndTxAddr fuel status = some b) :
    (∃ k, status k = false) ∧ (b = true ↔ Started status) := by
  simp only [startAndTxAddr, Option.bind_eq_bind, Option.bind_eq_some_iff] at h
  obtain ⟨free, hfree, h⟩ := h
  obtain ⟨k, rfl, hk, hbefore⟩ := busy_some hfree
  simp only [if_true, Option.bind_eq_some_iff, Option.some.injEq] at h
  obtain ⟨started, hstarted, rfl⟩ := h
  refine ⟨⟨k, hk⟩, ?_⟩
  rw [start_some hstarted]
  constructor
  · intro hj
    exact ⟨k, hk, hbefore, hj⟩
  · rintro ⟨k', hk', hbefore', hj⟩
    have hle : k ≤ k' := by
      by_contra hlt
      simp [hbefore k' (by omega)] at hk'
    have hge : k' ≤ k := by
      by_contra hlt
      simp [hbefore' k (by omega)] at hk
    rwa [le_antisymm hge hle] at hj

theorem startAndTxAddr_isSome {status : ℕ → Bool} (h : status k = false) (hfuel : k + 999 < fuel) :
    (startAndTxAddr fuel status).isSome := by
  obtain ⟨free, hfree⟩ := Option.isSome_iff_exists.mp (busy_isSome h (show k < fuel by omega))
  obtain ⟨j, rfl, -, -⟩ := busy_some hfree
  obtain ⟨started, hstarted⟩ :=
    Option.isSome_iff_exists.mp (startRound_givesUp.loop_isSome status (j + 1) (show 999 < fuel by omega))
  simp [startAndTxAddr, hfree, hstarted]

theorem not_hangs {env : Readings} {wlen rlen v : UInt8} (h : writeThenRead fuel env wlen rlen = some v) :
    ¬ Hangs env wlen rlen := by
  rintro ⟨hfree, hhang⟩
  simp only [writeThenRead, Option.bind_eq_bind, Option.bind_eq_some_iff] at h
  obtain ⟨acquired, hacquired, h⟩ := h
  rw [if_pos ((acquire_some hacquired).mpr hfree), Option.bind_eq_some_iff] at h
  obtain ⟨started, hstarted, h⟩ := h
  obtain ⟨⟨k, hk⟩, hiff⟩ := startAndTxAddr_some hstarted
  rcases hhang with hbusy | ⟨hstart, hstuck⟩
  · simp [hbusy k] at hk
  rw [if_pos (hiff.mpr hstart), Option.bind_eq_some_iff] at h
  obtain ⟨len, hlen, h⟩ := h
  rcases hstuck with htx | ⟨hreach, hrx⟩
  · have hpos : 0 < wlen := by
      rw [htx.1]
      decide
    rw [if_pos hpos] at hlen
    exact (wait_some hlen).2 htx
  · have hall : ¬ (0 < wlen ∧ len < wlen) := by
      rintro ⟨hpos, hlt⟩
      rw [if_pos hpos] at hlen
      exact absurd ((wait_some hlen).1.mpr hreach) (UInt8.not_le.mpr hlt)
    have hpos : 0 < rlen := by
      rw [hrx.1]
      decide
    rw [if_neg hall, if_pos hpos] at h
    obtain ⟨got, hgot, -⟩ := Option.map_eq_some_iff.mp h
    exact (wait_some hgot).2 hrx

theorem exists_fuel {P : Prop} {Q : ℕ → Prop} (h : P → ∃ n, Q n) : ∃ n, P → Q n := by
  by_cases hP : P
  · obtain ⟨n, hn⟩ := h hP
    exact ⟨n, fun _ => hn⟩
  · exact ⟨0, fun h => absurd h hP⟩

/-- What a call that does not hang needs, loop by loop. -/
theorem loops_end {env : Readings} {wlen rlen : UInt8} (h : ¬ Hangs env wlen rlen)
    (hfree : ∃ k ≤ 20, env.aquired k = false) :
    (∃ k, env.status k = false) ∧
      (Started env.status → ¬ Stuck wlen env.tx ∧ (Reaches wlen env.tx → ¬ Stuck rlen env.rx)) := by
  constructor
  · by_contra hbusy
    exact h ⟨hfree, .inl fun k => by_contra fun hk => hbusy ⟨k, Bool.eq_false_iff.mpr hk⟩⟩
  · intro hstart
    constructor
    · intro htx
      exact h ⟨hfree, .inr ⟨hstart, .inl htx⟩⟩
    · intro hreach hrx
      exact h ⟨hfree, .inr ⟨hstart, .inr ⟨hreach, hrx⟩⟩⟩

theorem writeThenRead_isSome {env : Readings} {wlen rlen : UInt8} (h : ¬ Hangs env wlen rlen) :
    ∃ fuel, (writeThenRead fuel env wlen rlen).isSome := by
  have hends := loops_end h
  obtain ⟨nt, ht⟩ := exists_fuel (P := ¬ Stuck wlen env.tx) wait_isSome
  obtain ⟨nr, hr⟩ := exists_fuel (P := ¬ Stuck rlen env.rx) wait_isSome
  obtain ⟨k, hk⟩ := exists_fuel (P := ∃ k, env.status k = false) id
  refine ⟨nt + nr + k + 1000, ?_⟩
  obtain ⟨acquired, hacquired⟩ := Option.isSome_iff_exists.mp
    (acquireRound_givesUp.loop_isSome env.aquired 0 (show 20 < nt + nr + k + 1000 by omega))
  simp only [writeThenRead, hacquired, Option.bind_eq_bind, Option.bind_some]
  by_cases hok : acquired.1 = true
  · obtain ⟨hstatus, hwait⟩ := hends ((acquire_some hacquired).mp hok)
    obtain ⟨started, hstarted⟩ := Option.isSome_iff_exists.mp
      (startAndTxAddr_isSome (hk hstatus) (show k + 999 < nt + nr + k + 1000 by omega))
    rw [if_pos hok, hstarted, Option.bind_some]
    by_cases hst : started = true
    · obtain ⟨htx, hrx⟩ := hwait ((startAndTxAddr_some hstarted).2.mp hst)
      obtain ⟨sent, hsent⟩ := Option.isSome_iff_exists.mp
        (ht htx _ (show nt < nt + nr + k + 1000 by omega))
      have hlen : ∃ len, (if 0 < wlen then wait (nt + nr + k + 1000) wlen env.tx else some 0) = some len ∧
          (¬ (0 < wlen ∧ len < wlen) → Reaches wlen env.tx) := by
        by_cases hpos : 0 < wlen
        · refine ⟨sent, by rw [if_pos hpos, hsent], fun hall => ?_⟩
          exact (wait_some hsent).1.mp (UInt8.not_lt.mp fun hlt => hall ⟨hpos, hlt⟩)
        · refine ⟨0, if_neg hpos, fun _ => ⟨0, ?_, .inr (Nat.zero_le _)⟩⟩
          exact UInt8.le_trans (UInt8.not_lt.mp hpos) UInt8.zero_le
      obtain ⟨len, hlen, hreach⟩ := hlen
      rw [if_pos hst, hlen, Option.bind_some]
      split_ifs with hshort hread
      · rfl
      · rw [Option.isSome_map]
        exact hr (hrx (hreach hshort)) _ (by omega)
      · rfl
    · simp [hst]
  · simp [hok]

/-- A call returns unless the bus stays busy after it has acquired the driver, or it waits for 255
bytes of which the last does not come. -/
theorem writeThenRead_returns_iff (env : Readings) (wlen rlen : UInt8) :
    (∃ fuel, (writeThenRead fuel env wlen rlen).isSome) ↔ ¬ Hangs env wlen rlen := by
  constructor
  · rintro ⟨fuel, h⟩
    obtain ⟨v, hv⟩ := Option.isSome_iff_exists.mp h
    exact not_hangs hv
  · exact writeThenRead_isSome

/-- A bus that stays busy, and 255 bytes to write of which none is acknowledged. -/
theorem writeThenRead_hangs :
    (∀ fuel, writeThenRead fuel ⟨fun _ => false, fun _ => true, fun _ => 0, fun _ => 0⟩ 1 0 = none) ∧
      ∀ fuel, writeThenRead fuel ⟨fun _ => false, fun k => k % 2 = 1, fun _ => 0, fun _ => 0⟩ 255 0 = none := by
  have hnone : ∀ {env wlen rlen}, Hangs env wlen rlen → ∀ fuel, writeThenRead fuel env wlen rlen = none := by
    intro env wlen rlen hhang fuel
    cases hv : writeThenRead fuel env wlen rlen with
    | none => rfl
    | some v => exact absurd hhang (not_hangs hv)
  constructor
  · exact hnone ⟨⟨0, by decide, rfl⟩, .inl fun _ => rfl⟩
  · apply hnone
    refine ⟨⟨0, by decide, rfl⟩, .inr ⟨⟨0, rfl, ?_, 0, by decide, rfl⟩, .inl ⟨rfl, ?_⟩⟩⟩
    · exact fun j hj => absurd hj (Nat.not_lt_zero j)
    · intro j
      exact (by decide : (0 : UInt8) ≠ 255)

end

end EmbeddedTemplate.Hcs12I2c
