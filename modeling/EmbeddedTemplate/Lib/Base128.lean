import Mathlib.Data.List.Basic
import Mathlib.Tactic.Ring

/-! Numbers in base 128, the least significant digit first, with the top bit of a byte set when more digits
follow; and frames of a header byte, a length in this form and a body. -/
namespace Base128

def encode (n : ℕ) : List UInt8 :=
  if n < 128 then [UInt8.ofNat n] else UInt8.ofNat (n % 128 + 128) :: encode (n / 128)
termination_by n
decreasing_by omega

/-- Reads a number of at most so many digits, and leaves the bytes after it. -/
def decode : ℕ → List UInt8 → Option (ℕ × List UInt8)
  | 0, _ => none
  | _ + 1, [] => none
  | limit + 1, b :: bs =>
    if b.toNat < 128 then some (b.toNat, bs)
    else (decode limit bs).map fun r => (b.toNat - 128 + 128 * r.1, r.2)

theorem encode_of_lt {n : ℕ} (h : n < 128) : encode n = [UInt8.ofNat n] := by
  rw [encode, if_pos h]

theorem encode_of_ge {n : ℕ} (h : 128 ≤ n) :
    encode n = UInt8.ofNat (n % 128 + 128) :: encode (n / 128) := by
  rw [encode, if_neg (by omega)]

theorem encode_ne_nil (n : ℕ) : encode n ≠ [] := by
  rw [encode]
  split_ifs
  all_goals exact List.cons_ne_nil _ _

/-- `k` digits carry the numbers below `128 ^ k`. -/
theorem length_encode_le_iff (n k : ℕ) : (encode n).length ≤ k + 1 ↔ n < 128 ^ (k + 1) := by
  induction k generalizing n with
  | zero =>
    rcases lt_or_ge n 128 with h | h
    · simp [encode_of_lt h, h]
    · have hne := List.length_pos_of_ne_nil (encode_ne_nil (n / 128))
      rw [encode_of_ge h, List.length_cons]
      omega
  | succ k ih =>
    rcases lt_or_ge n 128 with h | h
    · have hpow : 128 ≤ 128 ^ (k + 1 + 1) := Nat.le_self_pow (by omega) 128
      rw [encode_of_lt h, List.length_singleton]
      omega
    · rw [encode_of_ge h, List.length_cons, Nat.add_le_add_iff_right, ih, pow_succ _ (k + 1)]
      exact Nat.div_lt_iff_lt_mul (by omega)

theorem length_encode_pos (n : ℕ) : 0 < (encode n).length := List.length_pos_of_ne_nil (encode_ne_nil n)

theorem toNat_digit {n : ℕ} (h : n < 256) : (UInt8.ofNat n).toNat = n := by
  rw [UInt8.toNat_ofNat']
  exact Nat.mod_eq_of_lt h

/-- The reader takes the digits of the number off the front, whatever follows them. -/
theorem decode_encode {n k : ℕ} (h : n < 128 ^ (k + 1)) (rest : List UInt8) :
    decode (k + 1) (encode n ++ rest) = some (n, rest) := by
  induction k generalizing n with
  | zero =>
    have hn : n < 128 := by simpa using h
    rw [encode_of_lt hn, List.singleton_append, decode, toNat_digit (by omega), if_pos hn]
  | succ k ih =>
    rcases lt_or_ge n 128 with hn | hn
    · rw [encode_of_lt hn, List.singleton_append, decode, toNat_digit (by omega), if_pos hn]
    · have hhigh : n / 128 < 128 ^ (k + 1) := by
        rw [pow_succ] at h
        exact Nat.div_lt_of_lt_mul (by rwa [Nat.mul_comm])
      rw [encode_of_ge hn, List.cons_append, decode, toNat_digit (by omega), if_neg (by omega),
        ih hhigh, Option.map_some, Nat.add_sub_cancel, Nat.mod_add_div]

def frame (header : UInt8) (body : List UInt8) : List UInt8 := header :: (encode body.length ++ body)

end Base128
