import Mathlib.Algebra.Order.Field.Power
import Mathlib.Algebra.Order.Floor.Ring
import Mathlib.Data.Int.Log
import Mathlib.Data.Rat.Floor
import Mathlib.Tactic.Positivity

namespace SchemaCodeGen.Floats

inductive Ieee
  | nan
  | inf (negative : Bool)
  | negZero
  | fin (q : ℚ)
  deriving DecidableEq

structure Format where
  precision : Nat
  minExponent : Int
  maxExponent : Int

def binary64 : Format := ⟨53, -1074, 971⟩
def binary32 : Format := ⟨24, -149, 104⟩

namespace Ieee

def IsFinite : Ieee → Prop
  | .negZero | .fin _ => True
  | .nan | .inf _ => False

instance (x : Ieee) : Decidable x.IsFinite := by
  cases x <;> simp only [IsFinite] <;> infer_instance

/-- The equality of C++, under which the two zeros agree and no NaN equals anything. -/
def eq : Ieee → Ieee → Bool
  | .nan, _ | _, .nan => false
  | .inf a, .inf b => a == b
  | .inf _, _ | _, .inf _ => false
  | .negZero, .negZero => true
  | .negZero, .fin q | .fin q, .negZero => q == 0
  | .fin q, .fin r => q == r

theorem eq_self {x : Ieee} (h : x.IsFinite) : x.eq x = true := by
  cases x with
  | negZero => rfl
  | fin q => simp [eq]
  | nan | inf _ => exact absurd h (by simp [IsFinite])

def between (lo hi : ℚ) : Ieee → Bool
  | .fin q => decide (lo ≤ q) && decide (q ≤ hi)
  | .negZero => decide (lo ≤ 0) && decide (0 ≤ hi)
  | .nan | .inf _ => false

end Ieee

namespace Format

variable (f : Format)

def ulpExponent (q : ℚ) : Int := max (Int.log 2 |q| - (f.precision - 1)) f.minExponent

def maxFinite : ℚ := (2 ^ f.precision - 1) * (2 : ℚ) ^ f.maxExponent

def roundEven (q : ℚ) : Int :=
  let n := ⌊q⌋
  if q - n < 1 / 2 then n
  else if 1 / 2 < q - n then n + 1
  else if n % 2 = 0 then n else n + 1

/-- Round a rational number to the format, to nearest with ties to even. -/
def round (q : ℚ) : Ieee :=
  if q = 0 then .fin 0
  else
    let e := f.ulpExponent q
    let r := roundEven (q / (2 : ℚ) ^ e) * (2 : ℚ) ^ e
    if r = 0 then (if q < 0 then .negZero else .fin 0)
    else if f.maxFinite < |r| then .inf (q < 0)
    else .fin r

def narrow : Ieee → Ieee
  | .fin q => f.round q
  | x => x

def Representable (q : ℚ) : Prop :=
  ∃ m e : Int, |m| < 2 ^ f.precision ∧ f.minExponent ≤ e ∧ e ≤ f.maxExponent ∧
    q = m * (2 : ℚ) ^ e

def Holds : Ieee → Prop
  | .fin q => f.Representable q
  | _ => True

end Format

open Format

theorem roundEven_int (n : Int) : roundEven (n : ℚ) = n := by
  simp [roundEven]

theorem intLog_eq {b : Nat} {q : ℚ} {e : Int} (hb : 1 < b) (hq : 0 < q) (hlo : (b : ℚ) ^ e ≤ q)
    (hhi : q < (b : ℚ) ^ (e + 1)) : Int.log b q = e := by
  apply le_antisymm
  · exact Int.lt_add_one_iff.mp ((Int.lt_zpow_iff_log_lt hb hq).mp hhi)
  · exact (Int.zpow_le_iff_le_log hb hq).mp hlo

theorem round_eq {f : Format} {q : ℚ} {n : Int} (hn : roundEven (q / 2 ^ f.ulpExponent q) = n)
    (hn0 : n ≠ 0) (hmax : |(n * 2 ^ f.ulpExponent q : ℚ)| ≤ f.maxFinite) :
    f.round q = .fin (n * 2 ^ f.ulpExponent q) := by
  have hq : q ≠ 0 := by
    rintro rfl
    rw [zero_div, ← Int.cast_zero, roundEven_int] at hn
    exact hn0 hn.symm
  have hr : (n * 2 ^ f.ulpExponent q : ℚ) ≠ 0 :=
    mul_ne_zero (by exact_mod_cast hn0) (zpow_pos (by norm_num) _).ne'
  simp only [Format.round, if_neg hq, hn, if_neg hr, if_neg (not_lt.mpr hmax)]

theorem ulpExponent_le {f : Format} {m e : Int} (hm : |m| < 2 ^ f.precision)
    (he : f.minExponent ≤ e) (h0 : m ≠ 0) : f.ulpExponent (m * (2 : ℚ) ^ e) ≤ e := by
  have hpos : (0 : ℚ) < |(m * (2 : ℚ) ^ e)| := by positivity
  have hlt : |(m * (2 : ℚ) ^ e)| < (2 : ℚ) ^ (e + f.precision) := by
    rw [abs_mul, abs_of_pos (by positivity : (0 : ℚ) < 2 ^ e), zpow_add₀ (by norm_num), mul_comm]
    have hm' : |(m : ℚ)| < 2 ^ f.precision := by exact_mod_cast hm
    have hz : ((2 : ℚ) ^ (f.precision : Int)) = 2 ^ f.precision := zpow_natCast _ _
    rw [hz]
    exact mul_lt_mul_of_pos_left hm' (by positivity)
  have hlog : Int.log 2 |(m * (2 : ℚ) ^ e)| < e + f.precision :=
    (Int.lt_zpow_iff_log_lt (by norm_num) hpos).mp (by exact_mod_cast hlt)
  rw [ulpExponent, max_le_iff]
  exact ⟨by omega, he⟩

theorem round_of_representable {f : Format} {q : ℚ} (h : f.Representable q) :
    f.round q = .fin q := by
  obtain ⟨m, e, hm, hlo, hhi, hq⟩ := h
  by_cases h0 : m = 0
  · simp [hq, Format.round, h0]
  have hpow : (0 : ℚ) < 2 ^ e := zpow_pos (by norm_num) e
  have hq0 : q ≠ 0 := by
    rw [hq]
    exact mul_ne_zero (by exact_mod_cast h0) hpow.ne'
  have hle : f.ulpExponent q ≤ e := hq ▸ ulpExponent_le hm hlo h0
  obtain ⟨k, hk⟩ := Int.eq_ofNat_of_zero_le (sub_nonneg.mpr hle)
  have hulp : (0 : ℚ) < 2 ^ f.ulpExponent q := zpow_pos (by norm_num) _
  -- The number is an integral multiple of its unit in the last place.
  have hdiv : q / 2 ^ f.ulpExponent q = ((m * 2 ^ k : Int) : ℚ) := by
    have hz : (2 : ℚ) ^ e = 2 ^ k * 2 ^ f.ulpExponent q := by
      rw [← zpow_natCast, ← zpow_add₀ (by norm_num)]
      congr 1
      omega
    rw [div_eq_iff hulp.ne']
    push_cast
    rw [mul_assoc, ← hz, hq]
  have hback : (roundEven (q / 2 ^ f.ulpExponent q) : ℚ) * 2 ^ f.ulpExponent q = q := by
    rw [hdiv, roundEven_int, ← hdiv, div_mul_cancel₀ _ hulp.ne']
  have hmax : ¬ f.maxFinite < |q| := by
    rw [not_lt, maxFinite, hq, abs_mul, abs_of_pos hpow]
    have hm' : |(m : ℚ)| ≤ 2 ^ f.precision - 1 := by
      have : |m| ≤ 2 ^ f.precision - 1 := by omega
      exact_mod_cast this
    exact mul_le_mul hm' (zpow_le_zpow_right₀ (by norm_num) hhi) hpow.le
      (le_trans (abs_nonneg _) hm')
  simp only [Format.round, hq0, if_false, hback, hmax]

theorem narrow_of_holds {f : Format} {x : Ieee} (h : f.Holds x) : f.narrow x = x := by
  cases x with
  | fin q => exact round_of_representable h
  | nan | inf _ | negZero => rfl

end SchemaCodeGen.Floats
