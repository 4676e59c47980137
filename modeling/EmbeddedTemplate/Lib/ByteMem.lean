import Mathlib.Data.List.Range
import Mathlib.Algebra.Order.Ring.Nat
import Mathlib.Tactic.Ring

/-! Byte-addressed memory with little-endian words. A word is stored and loaded byte by
byte, so two overlapping accesses disturb each other as they do on the machine; disjoint
accesses commute. -/
namespace ByteMem

/-- Byte number `i` of `v`, counted from the least significant one. -/
def byte (v i : ℕ) : UInt8 := UInt8.ofNat (v / 256 ^ i)

/-- The low `w` bytes of `v`. -/
def bytes (w v : ℕ) : List UInt8 := (List.range w).map (byte v)

def value : List UInt8 → ℕ
  | [] => 0
  | b :: l => b.toNat + 256 * value l

theorem bytes_succ (w v : ℕ) : bytes (w + 1) v = byte v 0 :: bytes w (v / 256) := by
  have hshift : ∀ i, byte v (i + 1) = byte (v / 256) i := by
    intro i
    unfold byte
    rw [pow_succ', Nat.div_div_eq_div_mul]
  simp only [bytes, List.range_succ_eq_map, List.map_cons, List.map_map]
  congr 1
  exact List.map_congr_left fun i _ => hshift i

theorem value_bytes (w v : ℕ) : value (bytes w v) = v % 256 ^ w := by
  induction w generalizing v with
  | zero => simp [bytes, value, Nat.mod_one]
  | succ w ih =>
    have hlow : (byte v 0).toNat = v % 256 := by simp [byte]
    rw [bytes_succ, value, ih, hlow, pow_succ', Nat.mod_mul]

theorem value_lt (l : List UInt8) : value l < 256 ^ l.length := by
  induction l with
  | nil => simp [value]
  | cons b l ih =>
    have hb := b.toNat_lt
    rw [value, List.length_cons, pow_succ]
    omega

abbrev Mem := ℕ → UInt8

def load (m : Mem) (w a : ℕ) : ℕ := value ((List.range w).map fun i => m (a + i))

def store (m : Mem) (w a v : ℕ) : Mem :=
  fun x => if a ≤ x ∧ x < a + w then byte v (x - a) else m x

theorem load_lt (m : Mem) (w a : ℕ) : load m w a < 256 ^ w := by
  simpa [load] using value_lt ((List.range w).map fun i => m (a + i))

/-- A load depends only on the bytes it covers. -/
theorem load_congr {m m' : Mem} {w a : ℕ} (h : ∀ x, a ≤ x → x < a + w → m x = m' x) :
    load m w a = load m' w a := by
  unfold load
  congr 1
  refine List.map_congr_left fun i hi => h _ (by omega) ?_
  have := List.mem_range.mp hi
  omega

theorem store_of_disjoint {m : Mem} {w a v x : ℕ} (h : x < a ∨ a + w ≤ x) :
    store m w a v x = m x := if_neg (by omega)

theorem load_store_self (m : Mem) (w a v : ℕ) : load (store m w a v) w a = v % 256 ^ w := by
  have he : (List.range w).map (fun i => store m w a v (a + i)) = bytes w v := by
    refine List.map_congr_left fun i hi => ?_
    have hlt := List.mem_range.mp hi
    have hin : a ≤ a + i ∧ a + i < a + w := by omega
    simp only [store, if_pos hin, Nat.add_sub_cancel_left]
  rw [load, he, value_bytes]

theorem load_store_of_disjoint {m : Mem} {w a v n b : ℕ} (h : b + n ≤ a ∨ a + w ≤ b) :
    load (store m w a v) n b = load m n b :=
  load_congr fun x _ _ => store_of_disjoint (by omega)

end ByteMem
