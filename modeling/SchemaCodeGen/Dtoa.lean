import SchemaCodeGen.Grisu

namespace SchemaCodeGen.Dtoa

open CString Decimal Digits Floats Itoa Fallible Sax JsonNumbers SoftFloats Grisu

section Text

def writeExponent (K : Int) : Text :=
  let k := K.natAbs
  (if K < 0 then ['-'] else []) ++
    if k ≥ 100 then [digit (k / 100), lut (k % 100 * 2), lut (k % 100 * 2 + 1)]
    else if k ≥ 10 then [lut (k * 2), lut (k * 2 + 1)]
    else [digit k]

/-- The end behind the last digit that is no zero, from the place `first + n` down, and behind
one digit at least. -/
def trimmedEnd (buffer : Text) (first : Nat) : Nat → Nat
  | 0 => first + 1
  | n + 1 =>
      if buffer.getD (first + n + 1) nul ≠ '0' then first + n + 2 else trimmedEnd buffer first n

def prettify (buffer : Text) (k : Int) (maxDecimalPlaces : Nat) : Text :=
  let length := buffer.length
  let kk := length + k
  if 0 ≤ k ∧ kk ≤ 21 then buffer ++ (List.replicate (kk - length).toNat '0' ++ ['.', '0'])
  else if 0 < kk ∧ kk ≤ 21 then
    let buffer := buffer.take kk.toNat ++ '.' :: buffer.drop kk.toNat
    if 0 > k + maxDecimalPlaces then
      buffer.take (trimmedEnd buffer (kk.toNat + 1) (maxDecimalPlaces - 1))
    else buffer
  else if -6 < kk ∧ kk ≤ 0 then
    let buffer := '0' :: '.' :: (List.replicate (-kk).toNat '0' ++ buffer)
    if length - kk > maxDecimalPlaces then buffer.take (trimmedEnd buffer 2 (maxDecimalPlaces - 1))
    else buffer
  else if kk < -maxDecimalPlaces then ['0', '.', '0']
  else if length = 1 then buffer ++ 'e' :: writeExponent (kk - 1)
  else buffer.take 1 ++ '.' :: (buffer.drop 1 ++ 'e' :: writeExponent (kk - 1))

/-- The text of a finite double; the callers have others handled before. -/
def dtoa (value : Ieee) (maxDecimalPlaces : Nat := 324) : Step Text :=
  if maxDecimalPlaces < 1 then .error .assertion
  else
    match value with
    | .nan | .inf _ => .error .assertion
    | .negZero => .ok ['-', '0', '.', '0']
    | .fin q =>
        if q = 0 then .ok ['0', '.', '0']
        else do
          let (sign, q) := if q < 0 then (['-'], -q) else ([], q)
          let (buffer, K) ← grisu2 q
          .ok (sign ++ prettify buffer K maxDecimalPlaces)

end Text

section Significand

theorem ofDouble_spec {q : ℚ} (hq : 0 < q) (h : binary64.Representable q) :
    ∃ v, DiyFp.ofDouble q = v ∧ q = v.value ∧ v.e = binary64.ulpExponent q ∧ v.f ≠ 0 ∧
      v.f < 2 ^ 53 ∧ -1074 ≤ v.e ∧ v.e ≤ 971 := by
  obtain ⟨m, e, hm, hmin, hmax, hqm⟩ := h
  have hpow := two_zpow_pos e
  have hm0 : 0 < m := by
    have : (0 : ℚ) < m := by
      rw [hqm] at hq
      exact pos_of_mul_pos_left hq hpow.le
    exact_mod_cast this
  have hle : binary64.ulpExponent q ≤ e := hqm ▸ ulpExponent_le hm hmin hm0.ne'
  have hulp := two_zpow_pos (binary64.ulpExponent q)
  obtain ⟨k, hk⟩ := Int.eq_ofNat_of_zero_le (sub_nonneg.mpr hle)
  obtain ⟨n, hn⟩ : ∃ n : Nat, m * 2 ^ k = n := ⟨(m * 2 ^ k).toNat, by
    rw [Int.toNat_of_nonneg (by positivity)]⟩
  have hquotient : q / (2 : ℚ) ^ binary64.ulpExponent q = n := by
    have hsplit : e = k + binary64.ulpExponent q := by omega
    have hn' : (m * 2 ^ k : ℚ) = n := by exact_mod_cast hn
    have hpowers : (2 : ℚ) ^ e = 2 ^ k * (2 : ℚ) ^ binary64.ulpExponent q := by
      rw [← zpow_natCast, ← zpow_add₀ (by norm_num), ← hsplit]
    rw [div_eq_iff hulp.ne', ← hn', mul_assoc, ← hpowers]
    exact hqm
  have hvalue : q = n * (2 : ℚ) ^ binary64.ulpExponent q := (div_eq_iff hulp.ne').mp hquotient
  have hn53 : n < 2 ^ 53 := by
    have habs := @abs_lt_of_ulp binary64 q
    rw [abs_of_pos hq] at habs
    conv_lhs at habs => rw [hvalue]
    have := lt_of_mul_lt_mul_right habs hulp.le
    exact_mod_cast this
  refine ⟨⟨n, binary64.ulpExponent q⟩, ?_, hvalue, rfl, ?_, hn53, le_max_right _ _,
    le_trans hle hmax⟩
  · rw [DiyFp.ofDouble, hquotient, Rat.num_natCast, Int.toNat_natCast]
  · rintro rfl
    rw [Nat.cast_zero, zero_mul] at hvalue
    exact hq.ne' hvalue

theorem roundEven_of_near {x : ℚ} {n : Int} (h : |x - n| < 1 / 2) : Format.roundEven x = n := by
  obtain ⟨h1, h2⟩ := DecimalFloats.roundEven_near x
  obtain ⟨h3, h4⟩ := abs_lt.mp h
  have hlo : (n : ℚ) - 1 < Format.roundEven x := by linarith
  have hhi : (Format.roundEven x : ℚ) < n + 1 := by linarith
  have hlo' : n - 1 < Format.roundEven x := by exact_mod_cast hlo
  have hhi' : Format.roundEven x < n + 1 := by exact_mod_cast hhi
  omega

theorem ulpExponent_eq_of_log {V : ℚ} {k : Int} (hV : 0 < V) (hlo : (2 : ℚ) ^ k ≤ V)
    (hhi : V < (2 : ℚ) ^ (k + 1)) (hk : -1022 ≤ k) : binary64.ulpExponent V = k - 52 := by
  have hlog : Int.log 2 V = k := intLog_eq (by norm_num) hV (by exact_mod_cast hlo) (by exact_mod_cast hhi)
  rw [Format.ulpExponent, abs_of_pos hV, hlog]
  simp only [binary64]
  omega

theorem round_near {V : ℚ} {k e : Int} (hexp : binary64.ulpExponent V = e) (hk : k ≠ 0)
    (hlo : (k - 1 / 2 : ℚ) * (2 : ℚ) ^ e < V) (hhi : V < (k + 1 / 2 : ℚ) * (2 : ℚ) ^ e)
    (hmax : |k * (2 : ℚ) ^ e| ≤ binary64.maxFinite) : binary64.round V = .fin (k * (2 : ℚ) ^ e) := by
  have hunit := two_zpow_pos e
  have hnear : |V / (2 : ℚ) ^ e - k| < 1 / 2 := by
    have hlo := (lt_div_iff₀ hunit).mpr hlo
    have hhi := (div_lt_iff₀ hunit).mpr hhi
    rw [abs_lt]
    constructor <;> linarith
  subst hexp
  exact round_eq (roundEven_of_near hnear) hk hmax

theorem below_ge (f : Nat) : (4 * f - 2 : ℚ) ≤ below f := by
  have h : 4 * f ≤ below f + 2 := by
    have := (below_bounds f).1
    omega
  have h : (4 * f : ℚ) ≤ below f + 2 := by exact_mod_cast h
  linarith

section HalfUnit

variable {f : Nat} {e : Int} {V : ℚ}

theorem lt_of_between (hlt : f < 2 ^ 53) (habove : V < (2 * f + 1) * ((2 : ℚ) ^ e / 2)) :
    V < (2 : ℚ) ^ (e + 52 + 1) := by
  have hunit := two_zpow_pos e
  have hfq : (f + 1 : ℚ) ≤ 2 ^ 53 := by exact_mod_cast hlt
  rw [zpow_add_one₀ (by norm_num), zpow_add₀ (by norm_num)]
  norm_num
  nlinarith

/-- A unit that is not the double's own belongs to a double that is a power of two and has a smaller
one below it. -/
theorem half_unit (he : e = binary64.ulpExponent (f * (2 : ℚ) ^ e)) (hf : f ≠ 0) (hlt : f < 2 ^ 53)
    (hlo : -1074 ≤ e) (hbelow : below f * ((2 : ℚ) ^ e / 4) < V)
    (habove : V < (2 * f + 1) * ((2 : ℚ) ^ e / 2)) (hne : binary64.ulpExponent V ≠ e) :
    f = kDpHiddenBit ∧ binary64.ulpExponent V = e - 1 ∧ V < (2 : ℚ) ^ 52 * (2 : ℚ) ^ e := by
  have hunit := two_zpow_pos e
  have hbelowq := below_ge f
  have hfq : (1 : ℚ) ≤ f := by exact_mod_cast Nat.one_le_iff_ne_zero.mpr hf
  have hfpos : 0 < (f : ℚ) * (2 : ℚ) ^ e := mul_pos (by linarith) hunit
  have hV : 0 < V := lt_of_le_of_lt (mul_nonneg (Nat.cast_nonneg _) (by linarith)) hbelow
  have hwide := lt_of_between hlt habove
  have hmin : e ≠ -1074 := by
    intro hmin
    have hlog : Int.log 2 |V| < e + 52 + 1 :=
      (Int.lt_zpow_iff_log_lt (by norm_num) (abs_pos.mpr hV.ne')).mp
        (by rw [abs_of_pos hV]; exact_mod_cast hwide)
    refine hne ?_
    rw [Format.ulpExponent, hmin]
    simp only [binary64]
    omega
  have htop : e + 52 = Int.log 2 |(f * (2 : ℚ) ^ e)| := by
    rw [Format.ulpExponent] at he
    simp only [binary64] at he
    omega
  have hnormal : (2 : ℚ) ^ 52 ≤ f := by
    have hle : (2 : ℚ) ^ Int.log 2 |(f * (2 : ℚ) ^ e)| ≤ |(f * (2 : ℚ) ^ e)| := by
      exact_mod_cast Int.zpow_log_le_self (b := 2) (by norm_num) (abs_pos.mpr hfpos.ne')
    rw [← htop, abs_of_pos hfpos, add_comm, zpow_add₀ (by norm_num)] at hle
    exact le_of_mul_le_mul_right (by exact_mod_cast hle) hunit
  have hlt52 : V < (2 : ℚ) ^ 52 * (2 : ℚ) ^ e := by
    by_contra hge
    refine hne ?_
    have hlog := ulpExponent_eq_of_log hV
      (show (2 : ℚ) ^ (e + 52) ≤ V by
        rw [add_comm, zpow_add₀ (by norm_num)]
        exact_mod_cast not_lt.mp hge) hwide (by omega)
    omega
  have hhidden : f = kDpHiddenBit := by
    have hle : (f : ℚ) < 2 ^ 52 + 1 := by
      by_contra hgt
      have hgt := not_lt.mp hgt
      nlinarith
    have hle : f < 2 ^ 52 + 1 := by exact_mod_cast hle
    have hge : 2 ^ 52 ≤ f := by exact_mod_cast hnormal
    show f = 2 ^ 52
    omega
  have hlog := @ulpExponent_eq_of_log V (e + 51) hV
    (by
      rw [add_comm, zpow_add₀ (by norm_num)]
      norm_num
      nlinarith)
    (by
      rw [show e + 51 + 1 = 52 + e by ring, zpow_add₀ (by norm_num)]
      exact_mod_cast hlt52) (by omega)
  exact ⟨hhidden, by omega, hlt52⟩

end HalfUnit

/-- What lies between the boundaries rounds to the double. -/
theorem round_between {q V : ℚ} {v : DiyFp} (hq : q = v.value) (he : v.e = binary64.ulpExponent q)
    (hf : v.f ≠ 0) (hlt : v.f < 2 ^ 53) (hlo : -1074 ≤ v.e) (hhi : v.e ≤ 971)
    (hbelow : below v.f * (2 : ℚ) ^ (v.e - 2) < V) (habove : V < (2 * v.f + 1) * (2 : ℚ) ^ (v.e - 1)) :
    binary64.round V = .fin q := by
  obtain ⟨f, e⟩ := v
  simp only [DiyFp.value] at *
  subst hq
  have hunit := two_zpow_pos e
  have hquarter : (2 : ℚ) ^ (e - 2) = (2 : ℚ) ^ e / 4 := by
    rw [zpow_sub₀ (by norm_num)]
    norm_num
  have hhalf : (2 : ℚ) ^ (e - 1) = (2 : ℚ) ^ e / 2 := zpow_sub_one₀ (by norm_num) e
  have hfq : (1 : ℚ) ≤ f := by exact_mod_cast Nat.one_le_iff_ne_zero.mpr hf
  have hfq' : (f : ℚ) ≤ 2 ^ 53 - 1 := by
    have h : (f + 1 : ℚ) ≤ 2 ^ 53 := by exact_mod_cast hlt
    linarith
  have hbelowq := below_ge f
  rw [hquarter] at hbelow
  rw [hhalf] at habove
  have hmax : |(f : ℚ) * (2 : ℚ) ^ e| ≤ binary64.maxFinite := by
    rw [abs_of_pos (mul_pos (by linarith) hunit)]
    have hpow : (2 : ℚ) ^ e ≤ (2 : ℚ) ^ (971 : Int) := zpow_le_zpow_right₀ (by norm_num) hhi
    exact mul_le_mul hfq' hpow hunit.le (by norm_num [binary64])
  -- The number has the unit of the double, or half of it below a power of two.
  by_cases hsame : binary64.ulpExponent V = e
  · have hround := @round_near V f e hsame (by exact_mod_cast hf) (by push_cast; nlinarith)
      (by push_cast; linarith) (by exact_mod_cast hmax)
    rw [hround, Int.cast_natCast]
  · obtain ⟨hhidden, hexp, hlt52⟩ := half_unit he hf hlt hlo hbelow habove hsame
    have hbelow52 : (below f : ℚ) = 2 ^ 54 - 1 := by
      have h : below f + 1 = 2 ^ 54 := by
        rw [below, if_pos hhidden, hhidden]
        rfl
      have h : (below f + 1 : ℚ) = 2 ^ 54 := by exact_mod_cast h
      linarith
    have hvalue : ((2 ^ 53 : Int) : ℚ) * (2 : ℚ) ^ (e - 1) = f * (2 : ℚ) ^ e := by
      rw [hhalf, hhidden]
      norm_num [kDpHiddenBit]
      ring
    rw [hbelow52] at hbelow
    have hround := @round_near V (2 ^ 53) (e - 1) hexp (by norm_num) (by rw [hhalf]; push_cast; linarith)
      (by rw [hhalf]; push_cast; linarith) (by rw [hvalue]; exact hmax)
    rw [hround, hvalue]

end Significand

section Places

variable {D j : Nat}

theorem valueFrom_toDigits (n : Nat) : valueFrom 0 (Nat.toDigits 10 n) = n := digitsValue_toDigits n

theorem valueFrom_zeros (n k : Nat) : valueFrom n (List.replicate k '0') = n * 10 ^ k := by
  induction k generalizing n with
  | zero => rw [pow_zero, mul_one]; rfl
  | succ k ih =>
      have hzero : digitOf '0' = 0 := rfl
      rw [List.replicate_succ, valueFrom, List.foldl_cons, hzero]
      refine (ih (10 * n + 0)).trans ?_
      rw [pow_succ]
      ring

theorem padded_zeros (k : Nat) : padded k (D * 10 ^ k) = List.replicate k '0' := by
  induction k with
  | zero => rfl
  | succ k ih =>
      have hdiv : D * 10 ^ (k + 1) / 10 = D * 10 ^ k := by
        rw [pow_succ, ← mul_assoc, Nat.mul_div_cancel _ (by omega)]
      have hmod : D * 10 ^ (k + 1) % 10 = 0 := by
        rw [pow_succ, ← mul_assoc, Nat.mul_mod_left]
      rw [padded, hdiv, hmod, ih, List.replicate_succ']
      rfl

theorem toDigits_zeros (hD : 0 < D) (k : Nat) :
    Nat.toDigits 10 (D * 10 ^ k) = Nat.toDigits 10 D ++ List.replicate k '0' := by
  have hdiv : D * 10 ^ k / 10 ^ k = D := Nat.mul_div_cancel _ (Nat.pow_pos (by omega))
  rw [toDigits_append hD _ hdiv, padded_zeros]

theorem length_bounds (hD : 0 < D) :
    10 ^ ((Nat.toDigits 10 D).length - 1) ≤ D ∧ D < 10 ^ (Nat.toDigits 10 D).length := by
  have hlength : 0 < (Nat.toDigits 10 D).length := List.length_pos_of_ne_nil Nat.toDigits_ne_nil
  refine ⟨?_, (Nat.length_toDigits_le_iff (by omega) hlength).mp le_rfl⟩
  by_contra hlt
  rw [not_le] at hlt
  rcases Nat.eq_zero_or_pos ((Nat.toDigits 10 D).length - 1) with hzero | hpos
  · rw [hzero, pow_zero] at hlt
    omega
  · have := (Nat.length_toDigits_le_iff (by omega) hpos).mpr hlt
    omega

theorem split_toDigits (hD : 0 < D) (hj : j < (Nat.toDigits 10 D).length) :
    Nat.toDigits 10 D = Nat.toDigits 10 (D / 10 ^ j) ++ padded j D ∧
      (Nat.toDigits 10 (D / 10 ^ j)).length = (Nat.toDigits 10 D).length - j := by
  have hle : 10 ^ j ≤ D :=
    le_trans (Nat.pow_le_pow_right (by omega) (by omega)) (length_bounds hD).1
  have hsplit := toDigits_append (Nat.div_pos hle (Nat.pow_pos (by omega))) D rfl
  refine ⟨hsplit, ?_⟩
  have hlength := congrArg List.length hsplit
  rw [List.length_append, length_padded] at hlength
  omega

theorem take_toDigits (hD : 0 < D) (hj : j < (Nat.toDigits 10 D).length) :
    (Nat.toDigits 10 D).take ((Nat.toDigits 10 D).length - j) = Nat.toDigits 10 (D / 10 ^ j) ∧
      (Nat.toDigits 10 D).drop ((Nat.toDigits 10 D).length - j) = padded j D := by
  obtain ⟨hsplit, hlength⟩ := split_toDigits hD hj
  rw [← hlength]
  constructor
  · conv_lhs => rw [hsplit]
    rw [List.take_left']
    rfl
  · conv_lhs => rw [hsplit]
    rw [List.drop_left']
    rfl

theorem allDigits_padded (k n : Nat) : AllDigits (padded k n) := by
  induction k generalizing n with
  | zero => exact List.forall_mem_nil _
  | succ k ih =>
      have hdigit : ∀ d < 10, (Nat.digitChar d).isDigit = true := by decide
      refine List.forall_mem_append.mpr ⟨ih _, fun c hc => ?_⟩
      rw [List.mem_singleton.mp hc]
      exact hdigit _ (Nat.mod_lt n (by omega))

theorem allDigits_toDigits (n : Nat) : AllDigits (Nat.toDigits 10 n) := fun _ hc => isDigit_of_mem hc

theorem allDigits_zeros (k : Nat) : AllDigits (List.replicate k '0') := by
  intro c hc
  rw [List.eq_of_mem_replicate hc]
  rfl

theorem writeExponent_eq {K : Int} (h : K.natAbs < 1000) :
    writeExponent K = (if K < 0 then ['-'] else []) ++ Nat.toDigits 10 K.natAbs := by
  have hpair : ∀ d < 100, [lut (d * 2), lut (d * 2 + 1)] = padded 2 d := by
    intro d hd
    have hlut := lut_pair d hd
    rw [Nat.shiftLeft_eq, pow_one] at hlut
    rw [hlut.1, hlut.2]
    simp [padded, Nat.mod_eq_of_lt (show d / 10 < 10 by omega)]
  obtain ⟨k, hk⟩ : ∃ k, K.natAbs = k := ⟨_, rfl⟩
  rw [hk] at h
  simp only [writeExponent, hk]
  congr 1
  split_ifs with h100 h10
  · have hsplit := @toDigits_append (k / 100) 2 (by omega) k rfl
    rw [hsplit, ← toDigits_one (show k / 100 < 10 by omega), hpair _ (Nat.mod_lt k (by omega)),
      ← padded_mod 2 k]
    rfl
  · have hsplit := @toDigits_append (k / 10) 1 (by omega) k (by rw [pow_one])
    rw [hsplit, hpair _ (by omega), Nat.toDigits_of_lt_base (show k / 10 < 10 by omega)]
    simp [padded, Nat.mod_eq_of_lt (show k / 10 < 10 by omega)]
  · exact toDigits_one (by omega)

end Places

section Prettified

variable {D : Nat} {K : Int}

/-- The number as it is written: a JSON number in at most 24 characters, with a fraction or an
exponent, that stands for exactly the digits and the power. -/
structure Written (D : Nat) (K : Int) (t : NumberText) : Prop where
  plus : t.minus = false
  valid : t.Valid
  fractional : ¬ t.Integral
  magnitude : t.magnitude = D * (10 : ℚ) ^ K
  length : t.text.length ≤ 24

def exponentOf (K : Int) : Option (Char × Text × Text) :=
  some ('e', if K < 0 then ['-'] else [], Nat.toDigits 10 K.natAbs)

theorem exponentText_exponentOf (h : K.natAbs < 1000) :
    exponentText (exponentOf K) = 'e' :: writeExponent K := by
  rw [writeExponent_eq h]
  rfl

theorem length_writeExponent_le (h : K.natAbs < 1000) : (writeExponent K).length ≤ 4 := by
  have hlength : (Nat.toDigits 10 K.natAbs).length ≤ 3 :=
    (Nat.length_toDigits_le_iff (by omega) (by omega)).mpr (by omega)
  rw [writeExponent_eq h, List.length_append]
  split_ifs <;> simp only [List.length_singleton, List.length_nil] <;> omega

theorem exponentText_valid (K : Int) : ExponentText (exponentOf K) := by
  intro e he
  obtain rfl := Option.some.inj he
  refine ⟨.inl rfl, ?_, Nat.toDigits_ne_nil, allDigits_toDigits _⟩
  split_ifs
  · exact .inr (.inr rfl)
  · exact .inl rfl

theorem power_exponentOf (minus : Bool) (whole : Text) (fraction : Option Text) :
    NumberText.power ⟨minus, whole, fraction, exponentOf K⟩ = K := by
  rw [NumberText.power, exponentOf]
  simp only [valueFrom_toDigits]
  by_cases hneg : K < 0
  · rw [if_pos hneg, if_pos rfl]
    omega
  · rw [if_neg hneg, if_neg (by decide)]
    omega

theorem written_whole (hD : 0 < D) (k : Nat) (hlength : (Nat.toDigits 10 D).length + k ≤ 21) :
    Written D k ⟨false, Nat.toDigits 10 (D * 10 ^ k), some ['0'], none⟩ := by
  refine ⟨rfl, ⟨wholeText_toDigits _, fun ds hds => ?_, fun e he => ?_⟩, fun h => ?_, ?_, ?_⟩
  · obtain rfl := Option.some.inj hds
    exact ⟨by decide, fun c hc => by rw [List.mem_singleton.mp hc]; rfl⟩
  · exact absurd he (by simp)
  · exact absurd h.1 (by simp)
  · have hvalue : valueFrom 0 (Nat.toDigits 10 (D * 10 ^ k) ++ ['0']) = 10 * (D * 10 ^ k) := by
      rw [valueFrom_append, valueFrom_toDigits]
      rfl
    rw [NumberText.magnitude, NumberText.power, NumberText.places, Option.getD_some, hvalue]
    rw [List.length_singleton, Nat.cast_one, zero_sub, zpow_neg_one, zpow_natCast]
    push_cast
    ring
  · rw [toDigits_zeros hD]
    simp [NumberText.text, fractionText, exponentText]
    omega

theorem written_point (hD : 0 < D) {j : Nat} (hj : 0 < j) (hlt : j < (Nat.toDigits 10 D).length)
    (hlength : (Nat.toDigits 10 D).length ≤ 17) :
    Written D (-(j : Int)) ⟨false, Nat.toDigits 10 (D / 10 ^ j), some (padded j D), none⟩ := by
  obtain ⟨hsplit, hwhole⟩ := split_toDigits hD hlt
  refine ⟨rfl, ⟨wholeText_toDigits _, fun ds hds => ?_, fun e he => ?_⟩, fun h => ?_, ?_, ?_⟩
  · obtain rfl := Option.some.inj hds
    exact ⟨List.ne_nil_of_length_pos (by rwa [length_padded]), allDigits_padded _ _⟩
  · exact absurd he (by simp)
  · exact absurd h.1 (by simp)
  · rw [NumberText.magnitude, NumberText.power, NumberText.places, Option.getD_some, ← hsplit,
      valueFrom_toDigits, length_padded, zero_sub]
  · simp [NumberText.text, fractionText, exponentText, hwhole]
    omega

theorem written_zeros (D : Nat) {k : Nat} (hk : k ≤ 5) (hlength : (Nat.toDigits 10 D).length ≤ 17) :
    Written D (-(((Nat.toDigits 10 D).length + k : Nat) : Int))
      ⟨false, ['0'], some (List.replicate k '0' ++ Nat.toDigits 10 D), none⟩ := by
  refine ⟨rfl, ⟨.inl rfl, fun ds hds => ?_, fun e he => ?_⟩, fun h => ?_, ?_, ?_⟩
  · obtain rfl := Option.some.inj hds
    refine ⟨List.append_ne_nil_of_right_ne_nil _ Nat.toDigits_ne_nil, ?_⟩
    exact List.forall_mem_append.mpr ⟨allDigits_zeros k, allDigits_toDigits D⟩
  · exact absurd he (by simp)
  · exact absurd h.1 (by simp)
  · have hvalue : valueFrom 0 (['0'] ++ (List.replicate k '0' ++ Nat.toDigits 10 D)) = D := by
      have hzero : valueFrom 0 ['0'] = 0 := rfl
      rw [valueFrom_append, valueFrom_append, hzero, valueFrom_zeros, Nat.zero_mul, valueFrom_toDigits]
    rw [NumberText.magnitude, NumberText.power, NumberText.places, Option.getD_some, hvalue, zero_sub,
      List.length_append, List.length_replicate, Nat.add_comm]
  · simp [NumberText.text, fractionText, exponentText]
    omega

theorem written_digit (hD : D < 10) (hK : K.natAbs < 1000) :
    Written D K ⟨false, Nat.toDigits 10 D, none, exponentOf K⟩ := by
  refine ⟨rfl, ⟨wholeText_toDigits _, fun ds hds => ?_, exponentText_valid K⟩, fun h => ?_, ?_, ?_⟩
  · exact absurd hds (by simp)
  · exact absurd h.2.1 (by simp [exponentOf])
  · rw [NumberText.magnitude, power_exponentOf, NumberText.places, Option.getD_none, List.append_nil,
      valueFrom_toDigits, List.length_nil, Nat.cast_zero, sub_zero]
  · have hexponent := length_writeExponent_le hK
    rw [NumberText.text, exponentText_exponentOf hK, Nat.toDigits_of_lt_base hD]
    simp [fractionText]
    omega

theorem written_exponent (hD : 0 < D) {j : Nat} (hj : 0 < j) (hlt : (Nat.toDigits 10 D).length = j + 1)
    (hlength : (Nat.toDigits 10 D).length ≤ 17) (hK : (j + K).natAbs < 1000) :
    Written D K ⟨false, Nat.toDigits 10 (D / 10 ^ j), some (padded j D), exponentOf (j + K)⟩ := by
  obtain ⟨hsplit, hwhole⟩ := @split_toDigits D j hD (by omega)
  refine ⟨rfl, ⟨wholeText_toDigits _, fun ds hds => ?_, exponentText_valid _⟩, fun h => ?_, ?_, ?_⟩
  · obtain rfl := Option.some.inj hds
    exact ⟨List.ne_nil_of_length_pos (by rwa [length_padded]), allDigits_padded _ _⟩
  · exact absurd h.1 (by simp)
  · rw [NumberText.magnitude, power_exponentOf, NumberText.places, Option.getD_some, ← hsplit,
      valueFrom_toDigits, length_padded, add_sub_cancel_left]
  · have hexponent := length_writeExponent_le hK
    rw [NumberText.text, exponentText_exponentOf hK]
    simp [fractionText, hwhole]
    omega

/-- Whatever form it takes, the text keeps the number. -/
theorem prettify_written (hD : 0 < D) (hD17 : D < 10 ^ 17)
    (hlo : -323 ≤ (Nat.toDigits 10 D).length + K) (hhi : (Nat.toDigits 10 D).length + K ≤ 309) :
    ∃ t, prettify (Nat.toDigits 10 D) K 324 = t.text ∧ Written D K t := by
  have hlength : (Nat.toDigits 10 D).length ≤ 17 :=
    (Nat.length_toDigits_le_iff (by omega) (by omega)).mpr hD17
  have hpos : 0 < (Nat.toDigits 10 D).length := List.length_pos_of_ne_nil Nat.toDigits_ne_nil
  rw [prettify]
  simp only
  split_ifs with hwhole hpoint hcut hzeros hcut' hnone hone
  · obtain ⟨k, rfl⟩ := Int.eq_ofNat_of_zero_le hwhole.1
    refine ⟨_, ?_, written_whole hD k (by omega)⟩
    rw [add_sub_cancel_left, NumberText.text, toDigits_zeros hD]
    simp [fractionText, exponentText]
  · omega
  · obtain ⟨j, hj⟩ : ∃ j : Nat, K = -(j : Int) := ⟨(-K).toNat, by omega⟩
    subst hj
    have hplace : ((Nat.toDigits 10 D).length + -(j : Int)).toNat = (Nat.toDigits 10 D).length - j := by
      omega
    obtain ⟨htake, hdrop⟩ := @take_toDigits D j hD (by omega)
    refine ⟨_, ?_, written_point hD (show 0 < j by omega) (by omega) hlength⟩
    rw [hplace, htake, hdrop]
    simp [NumberText.text, fractionText, exponentText]
  · omega
  · obtain ⟨k, hk⟩ : ∃ k : Nat, (Nat.toDigits 10 D).length + K = -(k : Int) :=
      ⟨(-((Nat.toDigits 10 D).length + K)).toNat, by omega⟩
    have hwritten := @written_zeros D k (by omega) hlength
    have hK : -(((Nat.toDigits 10 D).length + k : Nat) : Int) = K := by omega
    rw [hK] at hwritten
    refine ⟨_, ?_, hwritten⟩
    rw [hk, neg_neg, Int.toNat_natCast]
    simp [NumberText.text, fractionText, exponentText]
  · omega
  · have hlt : D < 10 := by
      have h := (length_bounds hD).2
      rwa [hone, pow_one] at h
    have hK : ((Nat.toDigits 10 D).length : Int) + K - 1 = K := by omega
    refine ⟨_, ?_, written_digit hlt (show K.natAbs < 1000 by omega)⟩
    rw [NumberText.text, exponentText_exponentOf (by omega), hK]
    rfl
  · obtain ⟨j, hj⟩ : ∃ j, (Nat.toDigits 10 D).length = j + 1 := ⟨(Nat.toDigits 10 D).length - 1, by omega⟩
    have hK : ((Nat.toDigits 10 D).length : Int) + K - 1 = j + K := by omega
    obtain ⟨htake, hdrop⟩ := @take_toDigits D j hD (by omega)
    have hone : (Nat.toDigits 10 D).length - j = 1 := by omega
    rw [hone] at htake hdrop
    refine ⟨_, ?_, written_exponent hD (show 0 < j by omega) hj hlength (by omega)⟩
    rw [NumberText.text, exponentText_exponentOf (by omega), hK, htake, hdrop]
    simp [fractionText]

end Prettified

section Doubles

/-- The decimal point of a double stands at most 323 places in front of its digits, and at most
309 places behind the first. -/
theorem decimal_range {v : DiyFp} {D : Nat} {K : Int} (hD : 0 < D) (hf : v.f ≠ 0) (hlt : v.f < 2 ^ 53)
    (hlo : -1074 ≤ v.e) (hhi : v.e ≤ 971) (hbelow : below v.f * (2 : ℚ) ^ (v.e - 2) < D * (10 : ℚ) ^ K)
    (habove : D * (10 : ℚ) ^ K < (2 * v.f + 1) * (2 : ℚ) ^ (v.e - 1)) :
    -323 ≤ (Nat.toDigits 10 D).length + K ∧ (Nat.toDigits 10 D).length + K ≤ 309 := by
  obtain ⟨hshort, hlong⟩ := length_bounds hD
  have hpos : 0 < (Nat.toDigits 10 D).length := List.length_pos_of_ne_nil Nat.toDigits_ne_nil
  obtain ⟨n, hn⟩ : ∃ n, (Nat.toDigits 10 D).length = n + 1 := ⟨(Nat.toDigits 10 D).length - 1, by omega⟩
  rw [hn] at hshort hlong ⊢
  rw [Nat.add_sub_cancel] at hshort
  have hten : (0 : ℚ) < 10 := by norm_num
  have hpow := zpow_pos hten K
  have hpower : ∀ k : Nat, (10 : ℚ) ^ k * (10 : ℚ) ^ K = (10 : ℚ) ^ (k + K) := fun k => by
    rw [zpow_add₀ hten.ne', zpow_natCast]
  constructor
  · have hleast : (10 : ℚ) ^ (-324 : Int) < (10 : ℚ) ^ ((n + 1 : Nat) + K) := by
      have hquarter : (10 : ℚ) ^ (-324 : Int) ≤ (2 : ℚ) ^ (-1076 : Int) := by
        have hnat : 2 ^ 1076 ≤ 10 ^ 324 := by decide +kernel
        have hcast : (2 : ℚ) ^ 1076 ≤ 10 ^ 324 := by exact_mod_cast hnat
        rw [zpow_neg, zpow_neg]
        exact inv_anti₀ (by positivity) (by exact_mod_cast hcast)
      have hfrom : (2 : ℚ) ^ (-1076 : Int) ≤ (2 : ℚ) ^ (v.e - 2) :=
        zpow_le_zpow_right₀ (by norm_num) (by omega)
      have hone : (1 : ℚ) ≤ below v.f := by
        have h := (below_bounds v.f).1
        have h : 1 ≤ below v.f := by omega
        exact_mod_cast h
      have hD' : (D : ℚ) ≤ 10 ^ (n + 1) := by exact_mod_cast hlong.le
      calc (10 : ℚ) ^ (-324 : Int) ≤ (2 : ℚ) ^ (v.e - 2) := hquarter.trans hfrom
        _ ≤ below v.f * (2 : ℚ) ^ (v.e - 2) := le_mul_of_one_le_left (two_zpow_pos _).le hone
        _ < D * (10 : ℚ) ^ K := hbelow
        _ ≤ 10 ^ (n + 1) * (10 : ℚ) ^ K := mul_le_mul_of_nonneg_right hD' hpow.le
        _ = (10 : ℚ) ^ ((n + 1 : Nat) + K) := hpower (n + 1)
    have := (zpow_lt_zpow_iff_right₀ (show (1 : ℚ) < 10 by norm_num)).mp hleast
    omega
  · have hmost : (10 : ℚ) ^ ((n : Int) + K) < (10 : ℚ) ^ (309 : Int) := by
      have hwide : (2 : ℚ) ^ 1024 ≤ 10 ^ 309 := by
        have hnat : 2 ^ 1024 ≤ 10 ^ 309 := by decide +kernel
        exact_mod_cast hnat
      have hto : (2 : ℚ) ^ (v.e - 1) ≤ (2 : ℚ) ^ (970 : Int) :=
        zpow_le_zpow_right₀ (by norm_num) (by omega)
      have hsignificand : (2 * v.f + 1 : ℚ) ≤ 2 ^ 54 := by
        have h : 2 * v.f + 1 ≤ 2 ^ 54 := by omega
        exact_mod_cast h
      have hD' : (10 : ℚ) ^ n ≤ D := by exact_mod_cast hshort
      calc (10 : ℚ) ^ ((n : Int) + K) = 10 ^ n * (10 : ℚ) ^ K := (hpower n).symm
        _ ≤ D * (10 : ℚ) ^ K := mul_le_mul_of_nonneg_right hD' hpow.le
        _ < (2 * v.f + 1) * (2 : ℚ) ^ (v.e - 1) := habove
        _ ≤ 2 ^ 54 * (2 : ℚ) ^ (970 : Int) :=
          mul_le_mul hsignificand hto (two_zpow_pos _).le (by positivity)
        _ = 2 ^ 1024 := by
          rw [← zpow_natCast, ← zpow_natCast, ← zpow_add₀ (by norm_num)]
          rfl
        _ ≤ (10 : ℚ) ^ (309 : Int) := by exact_mod_cast hwide
    have := (zpow_lt_zpow_iff_right₀ (show (1 : ℚ) < 10 by norm_num)).mp hmost
    omega

theorem dtoa_positive {q : ℚ} (hq : 0 < q) (h : binary64.Representable q) :
    ∃ D K t, grisu2 q = .ok (Nat.toDigits 10 D, K) ∧ prettify (Nat.toDigits 10 D) K 324 = t.text ∧
      Written D K t ∧ binary64.round t.magnitude = .fin q := by
  obtain ⟨v, hv, hvalue, he, hf, hlt, hlo, hhi⟩ := ofDouble_spec hq h
  obtain ⟨D, K, hrun, hD, hD17, hbelow, habove⟩ := grisu2_eq hv hf hlt hlo hhi
  obtain ⟨hfirst, hlast⟩ := decimal_range hD hf hlt hlo hhi hbelow habove
  obtain ⟨t, htext, ht⟩ := prettify_written hD hD17 hfirst hlast
  refine ⟨D, K, t, hrun, htext, ht, ?_⟩
  rw [ht.magnitude]
  exact round_between hvalue he hf hlt hlo hhi hbelow habove

theorem representable_neg {f : Format} {q : ℚ} (h : f.Representable q) : f.Representable (-q) := by
  obtain ⟨m, e, hm, hmin, hmax, rfl⟩ := h
  refine ⟨-m, e, by rwa [abs_neg], hmin, hmax, ?_⟩
  rw [Int.cast_neg, neg_mul]

theorem signed_number {t : NumberText} (hplus : t.minus = false) (hvalid : t.Valid)
    (hfractional : ¬ t.Integral) :
    ∃ t' : NumberText, t'.text = '-' :: t.text ∧ t'.Valid ∧ ¬ t'.Integral ∧
      t'.rounded = negate (binary64.round t.magnitude) := by
  refine ⟨{ t with minus := true }, ?_, ⟨hvalid.whole, hvalid.fraction, hvalid.exponent⟩, ?_, rfl⟩
  · rw [NumberText.text, NumberText.text, hplus]
    rfl
  · rintro ⟨hfraction, hexponent, hle⟩
    have hmost : most64 true ≤ most64 t.minus := by rw [hplus]; decide
    exact hfractional ⟨hfraction, hexponent, le_trans hle hmost⟩

def zeroText (minus : Bool) : NumberText := ⟨minus, ['0'], some ['0'], none⟩

theorem zeroText_valid (minus : Bool) : (zeroText minus).Valid ∧ ¬ (zeroText minus).Integral := by
  refine ⟨⟨.inl rfl, fun ds hds => ?_, fun e he => absurd he (by simp [zeroText])⟩,
    fun h => absurd h.1 (by simp [zeroText])⟩
  obtain rfl := Option.some.inj hds
  exact ⟨by decide, fun c hc => by rw [List.mem_singleton.mp hc]; rfl⟩

theorem zeroText_rounded (minus : Bool) :
    (zeroText minus).rounded = if minus then .negZero else .fin 0 := by
  have hvalue : valueFrom 0 ['0', '0'] = 0 := rfl
  have hmagnitude : (zeroText minus).magnitude = 0 := by
    rw [NumberText.magnitude]
    show (valueFrom 0 ['0', '0'] : ℚ) * _ = 0
    rw [hvalue, Nat.cast_zero, zero_mul]
  have hround : binary64.round 0 = .fin 0 := if_pos rfl
  rw [NumberText.rounded, hmagnitude, hround]
  cases minus <;> rfl

theorem dtoa_number {x : Ieee} (hx : binary64.Holds x) (hfinite : x.IsFinite) :
    ∃ t : NumberText, dtoa x = .ok t.text ∧ t.Valid ∧ ¬ t.Integral ∧ t.text.length ≤ 25 ∧
      t.rounded = x := by
  cases x with
  | nan | inf _ => exact absurd hfinite (by simp [Ieee.IsFinite])
  | negZero =>
      exact ⟨zeroText true, rfl, (zeroText_valid true).1, (zeroText_valid true).2, by decide,
        zeroText_rounded true⟩
  | fin q =>
      rcases lt_trichotomy q 0 with hneg | rfl | hpos
      · obtain ⟨D, K, t, hrun, htext, ht, hround⟩ :=
          dtoa_positive (neg_pos.mpr hneg) (representable_neg hx)
        obtain ⟨t', htext', hvalid, hfractional, hrounded⟩ :=
          signed_number ht.plus ht.valid ht.fractional
        refine ⟨t', ?_, hvalid, hfractional, ?_, ?_⟩
        · simp only [dtoa, if_neg (show ¬ (324 < 1) by omega), if_neg hneg.ne, if_pos hneg, hrun,
            ok_bind, htext, htext']
          rfl
        · have := ht.length
          rw [htext', List.length_cons]
          omega
        · rw [hrounded, hround, negate, if_neg (neg_ne_zero.mpr hneg.ne), neg_neg]
      · exact ⟨zeroText false, by simp [dtoa, zeroText, NumberText.text, fractionText, exponentText],
          (zeroText_valid false).1, (zeroText_valid false).2, by decide, zeroText_rounded false⟩
      · obtain ⟨D, K, t, hrun, htext, ht, hround⟩ := dtoa_positive hpos hx
        refine ⟨t, ?_, ht.valid, ht.fractional, le_trans ht.length (by omega), ?_⟩
        · simp only [dtoa, if_neg (show ¬ (324 < 1) by omega), if_neg hpos.ne',
            if_neg (not_lt.mpr hpos.le), hrun, ok_bind, htext, List.nil_append]
        · rw [NumberText.rounded, ht.plus, if_neg (by decide), hround]

end Doubles

end SchemaCodeGen.Dtoa
