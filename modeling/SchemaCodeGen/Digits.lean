import Mathlib.Algebra.Order.Ring.Nat
import Mathlib.Data.Int.Init

namespace SchemaCodeGen.Digits

open Nat

def padded : Nat → Nat → List Char
  | 0, _ => []
  | k + 1, n => padded k (n / 10) ++ [digitChar (n % 10)]

@[simp] theorem length_padded (k n : Nat) : (padded k n).length = k := by
  induction k generalizing n with
  | zero => rfl
  | succ k ih => rw [padded, List.length_append, ih, List.length_singleton]

theorem padded_add (k l n : Nat) : padded (k + l) n = padded k (n / 10 ^ l) ++ padded l n := by
  induction l generalizing n with
  | zero => simp [padded]
  | succ l ih =>
      rw [← Nat.add_assoc, padded, padded, ih, List.append_assoc, Nat.div_div_eq_div_mul,
        pow_succ, mul_comm 10]

theorem padded_succ (k n : Nat) :
    padded (k + 1) n = digitChar (n / 10 ^ k % 10) :: padded k n := by
  rw [Nat.add_comm, padded_add]
  rfl

theorem padded_mod (k n : Nat) : padded k (n % 10 ^ k) = padded k n := by
  induction k generalizing n with
  | zero => rfl
  | succ k ih =>
      have hdiv : n % 10 ^ (k + 1) / 10 = n / 10 % 10 ^ k := by
        rw [pow_succ, mul_comm, Nat.mod_mul_right_div_self]
      have hmod : n % 10 ^ (k + 1) % 10 = n % 10 :=
        Nat.mod_mod_of_dvd _ (dvd_pow_self 10 (Nat.succ_ne_zero k))
      rw [padded, padded, hdiv, hmod, ih]

theorem toDigits_append {a k : Nat} (ha : 0 < a) (n : Nat) (h : n / 10 ^ k = a) :
    toDigits 10 n = toDigits 10 a ++ padded k n := by
  induction k generalizing n with
  | zero => simpa [padded] using congrArg (toDigits 10) h
  | succ k ih =>
      have hdiv : n / 10 / 10 ^ k = a := by rw [Nat.div_div_eq_div_mul, mul_comm, ← pow_succ, h]
      have hle : 10 ≤ n := by
        by_contra hlt
        have hzero : n / 10 = 0 := Nat.div_eq_of_lt (by omega)
        rw [hzero, Nat.zero_div] at hdiv
        omega
      rw [toDigits_of_base_le (by omega) hle, ih _ hdiv, padded, List.append_assoc]

/-- The digits of the last `k + 1` places, each of them only from its unit on. -/
def trimmed (n : Nat) : Nat → List Char
  | 0 => [digitChar (n % 10)]
  | k + 1 => (if 10 ^ (k + 1) ≤ n then [digitChar (n / 10 ^ (k + 1) % 10)] else []) ++ trimmed n k

theorem trimmed_of_le {n k : Nat} (h : 10 ^ k ≤ n) : trimmed n k = padded (k + 1) n := by
  induction k with
  | zero => simp [trimmed, padded]
  | succ k ih =>
      have hk : 10 ^ k ≤ n := le_trans (Nat.pow_le_pow_right (by omega) (Nat.le_succ k)) h
      rw [trimmed, if_pos h, ih hk, padded_succ (k + 1)]
      rfl

theorem trimmed_eq {n k : Nat} (h : n < 10 ^ (k + 1)) : trimmed n k = toDigits 10 n := by
  induction k with
  | zero =>
      have hn : n < 10 := by simpa using h
      rw [trimmed, Nat.mod_eq_of_lt hn, toDigits_of_lt_base hn]
  | succ k ih =>
      have hten : 0 < 10 ^ (k + 1) := Nat.pow_pos (by omega)
      by_cases hle : 10 ^ (k + 1) ≤ n
      · have hpos : 0 < n / 10 ^ (k + 1) := Nat.div_pos hle hten
        have hlt : n / 10 ^ (k + 1) < 10 := by
          rw [Nat.div_lt_iff_lt_mul hten, mul_comm, ← pow_succ]
          exact h
        rw [trimmed_of_le hle, padded_succ, toDigits_append hpos n rfl, toDigits_of_lt_base hlt,
          Nat.mod_eq_of_lt hlt]
        rfl
      · rw [trimmed, if_neg hle, List.nil_append, ih (by omega)]

end SchemaCodeGen.Digits
