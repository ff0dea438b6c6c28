import SchemaCodeGen.JsonNumbers
import SchemaCodeGen.SoftFloats

namespace SchemaCodeGen.ShortNumbers

open CString Decimal Floats Fallible Sax JsonStreams JsonNumbers SoftFloats

section Powers

theorem ofNat_of_lt {n : Nat} (h : n < 2 ^ 53) : ofNat n = .fin n := by
  have hint : |(n : Int)| < 2 ^ 53 := by
    rw [Int.abs_natCast]
    exact_mod_cast h
  have hrep : binary64.Representable n := ⟨n, 0, hint, by decide, by decide, by simp⟩
  exact round_of_representable hrep

theorem tenTo_of_le {n : Nat} (h : n ≤ 22) : tenTo n = 10 ^ n := by
  have hfive : 5 ^ n < 2 ^ 53 := lt_of_le_of_lt (Nat.pow_le_pow_right (by omega) h) (by decide)
  have hint : |(5 ^ n : Int)| < 2 ^ 53 := by
    rw [abs_of_nonneg (by positivity)]
    exact_mod_cast hfive
  have hsplit : (10 : ℚ) ^ n = ((5 ^ n : Int) : ℚ) * (2 : ℚ) ^ (n : Int) := by
    rw [zpow_natCast, Int.cast_pow, ← mul_pow]
    norm_num
  have hrep : binary64.Representable (10 ^ n) :=
    ⟨5 ^ n, n, hint, by simp only [binary64]; omega, by simp only [binary64]; omega, hsplit⟩
  have hround : Format.narrow binary64 (.fin (10 ^ n)) = .fin (10 ^ n) := round_of_representable hrep
  rw [tenTo, hround]

theorem strtod_exact (n : Nat) {p : Int} (hlo : -22 ≤ p) (hhi : p ≤ 22) :
    strtodNormalPrecision (.fin n) p = .ok (binary64.round (n * (10 : ℚ) ^ p)) := by
  rw [strtodNormalPrecision, if_neg (by omega), fastPath, if_neg (by omega)]
  split_ifs with hpos
  · obtain ⟨k, rfl⟩ := Int.eq_ofNat_of_zero_le hpos
    rw [pow10, if_pos ⟨hpos, by omega⟩, ok_bind, Int.toNat_natCast, tenTo_of_le (by omega), zpow_natCast]
    rfl
  · obtain ⟨k, hk⟩ := Int.eq_ofNat_of_zero_le (show 0 ≤ -p by omega)
    obtain rfl : p = -(k : Int) := by omega
    rw [pow10, if_pos ⟨by omega, by omega⟩, ok_bind, neg_neg, Int.toNat_natCast,
      tenTo_of_le (by omega), zpow_neg, zpow_natCast, ← div_eq_mul_inv]
    rfl

theorem round_ne_inf {n : Nat} (hn : n < 2 ^ 53) {p : Int} (hlo : -22 ≤ p) (hhi : p ≤ 22) :
    binary64.round (n * (10 : ℚ) ^ p) ≠ .inf false := by
  rcases Nat.eq_zero_or_pos n with rfl | hpos
  · rw [Nat.cast_zero, zero_mul, Format.round, if_pos rfl]
    exact fun h => Ieee.noConfusion h
  have hn1 : (1 : ℚ) ≤ n := by exact_mod_cast hpos
  have hn2 : (n : ℚ) < 2 ^ 53 := by exact_mod_cast hn
  have hten : (0 : ℚ) < (10 : ℚ) ^ p := zpow_pos (by norm_num) p
  have hleast : (10 : ℚ) ^ (-22 : Int) ≤ (10 : ℚ) ^ p := zpow_le_zpow_right₀ (by norm_num) hlo
  have hmost : (10 : ℚ) ^ p ≤ (10 : ℚ) ^ (22 : Int) := zpow_le_zpow_right₀ (by norm_num) hhi
  have habs : |(n * (10 : ℚ) ^ p : ℚ)| = n * (10 : ℚ) ^ p := abs_of_pos (by positivity)
  obtain ⟨r, hround, _⟩ := @round_within (n * (10 : ℚ) ^ p) 1000 (by decide) le_rfl
    (by
      rw [habs]
      calc (2 : ℚ) ^ (-1000 : Int) ≤ (2 : ℚ) ^ (-100 : Int) :=
            zpow_le_zpow_right₀ (by norm_num) (by decide)
        _ ≤ (10 : ℚ) ^ (-22 : Int) := by norm_num
        _ ≤ (10 : ℚ) ^ p := hleast
        _ ≤ n * (10 : ℚ) ^ p := le_mul_of_one_le_left hten.le hn1)
    (by
      rw [habs]
      calc n * (10 : ℚ) ^ p ≤ 2 ^ 53 * (10 : ℚ) ^ (22 : Int) :=
            mul_le_mul hn2.le hmost hten.le (by norm_num)
        _ < (2 : ℚ) ^ (200 : Int) := by norm_num
        _ ≤ (2 : ℚ) ^ (1000 : Int) := zpow_le_zpow_right₀ (by norm_num) (by decide))
  rw [hround]
  exact fun h => Ieee.noConfusion h

end Powers

section Exact

theorem fractionInt_exact {ds : Text} (hds : AllDigits ds) (n : Nat) (ef : Int) (k : Nat)
    (hn : valueFrom n ds < 2 ^ 53) (hlo : -2 ^ 31 ≤ ef - ds.length) (hhi : ef ≤ 0) :
    ∃ k', ∀ rest, NoDigit rest →
      fractionInt n ef k (ds ++ rest) = .ok (valueFrom n ds, ef - ds.length, k', rest) := by
  induction ds generalizing n ef k with
  | nil =>
      refine ⟨k, fun rest hrest => ?_⟩
      have hef : ef - (([] : Text).length : Int) = ef := by simp
      rw [hef]
      cases rest with
      | nil => rfl
      | cons c rest =>
          have hc : c.isDigit = false := hrest
          simp [fractionInt, hc, valueFrom]
  | cons c ds ih =>
      rw [AllDigits, List.forall_mem_cons] at hds
      rw [List.length_cons] at hlo
      have hle : 10 * n + digitOf c ≤ valueFrom n (c :: ds) := le_valueFrom _ ds
      have hstop : ¬ n > 0x1FFFFFFFFFFFFF := by omega
      have hnext : (n * 10 + digitOf c) % 2 ^ 64 = 10 * n + digitOf c := by
        rw [mul_comm, Nat.mod_eq_of_lt (by omega)]
      have hint : int32 (ef - 1) = .ok (ef - 1) := int32_of (by omega) (by omega)
      obtain ⟨k', hrun⟩ := ih hds.2 (10 * n + digitOf c) (ef - 1)
        (if 10 * n + digitOf c ≠ 0 then k + 1 else k) hn (by omega) (by omega)
      refine ⟨k', fun rest hrest => ?_⟩
      have hlen : ef - ((c :: ds).length : Int) = ef - 1 - ds.length := by
        rw [List.length_cons]
        omega
      rw [List.cons_append, fractionInt, if_pos hds.1, if_neg hstop, hlen]
      simp only [hnext, hint, ok_bind]
      exact hrun rest hrest

theorem fractionReal_end (d : Ieee) (ef : Int) (k : Nat) {rest : Text} (h : NoDigit rest) :
    fractionReal d ef k rest = .ok (d, ef, rest) := by
  cases rest with
  | nil => rfl
  | cons c rest =>
      have hc : c.isDigit = false := h
      simp [fractionReal, hc]

theorem fraction_exact {r : Reading} (hr : r.useDouble = false) {ds : Text} (hne : ds ≠ [])
    (hds : AllDigits ds) (hlen : ds.length < 2 ^ 27) (hn : valueFrom r.significand ds < 2 ^ 53)
    {rest : Text} (hrest : NoDigit rest) :
    parseFraction r (fractionText (some ds) ++ rest) =
      .ok ({ r with d := .fin (valueFrom r.significand ds), expFrac := -ds.length, useDouble := true },
        rest) := by
  obtain ⟨k, hrun⟩ :=
    fractionInt_exact hds r.significand 0 r.significandDigit hn (by omega) le_rfl
  obtain ⟨c, ds, rfl⟩ := List.exists_cons_of_ne_nil hne
  have hc := hds c List.mem_cons_self
  rw [fractionText, List.cons_append, parseFraction, consume_cons]
  simp only [ok_bind, if_true, hr, Bool.false_eq_true, if_false, hrun rest hrest,
    fractionReal_end _ _ _ hrest, ofNat_of_lt hn, zero_sub]
  rw [List.cons_append, peek_cons, if_pos hc]

variable {maxExp : Int} {ds : Text}

theorem negativeExponent_exact (hds : AllDigits ds) (n : Nat) (hle : (valueFrom n ds : Int) ≤ maxExp)
    (hmax : maxExp < 2 ^ 31) {rest : Text} (hrest : NoDigit rest) :
    negativeExponent maxExp n (ds ++ rest) = .ok ((valueFrom n ds : Int), rest) := by
  induction ds generalizing n with
  | nil =>
      cases rest with
      | nil => rfl
      | cons c rest =>
          have hc : c.isDigit = false := hrest
          simp [negativeExponent, hc, valueFrom]
  | cons c ds ih =>
      rw [AllDigits, List.forall_mem_cons] at hds
      have hnext : 10 * n + digitOf c ≤ valueFrom n (c :: ds) := le_valueFrom _ ds
      have hcast : (n : Int) * 10 + digitOf c = (10 * n + digitOf c : Nat) := by omega
      have hint : int32 ((n : Int) * 10 + digitOf c) = .ok ((10 * n + digitOf c : Nat) : Int) := by
        rw [hcast]
        exact int32_of (by omega) (by omega)
      rw [List.cons_append, negativeExponent, if_pos hds.1]
      simp only [hint, ok_bind, if_neg (show ¬ ((10 * n + digitOf c : Nat) : Int) > maxExp by omega)]
      exact ih hds.2 (10 * n + digitOf c) hle

theorem positiveExponent_exact (start : Text) (hds : AllDigits ds) (n : Nat)
    (hle : (valueFrom n ds : Int) ≤ maxExp) (hmax : maxExp < 2 ^ 31) {rest : Text} (hrest : NoDigit rest) :
    positiveExponent start maxExp n (ds ++ rest) = .ok ((valueFrom n ds : Int), rest) := by
  induction ds generalizing n with
  | nil =>
      cases rest with
      | nil => rfl
      | cons c rest =>
          have hc : c.isDigit = false := hrest
          simp [positiveExponent, hc, valueFrom]
  | cons c ds ih =>
      rw [AllDigits, List.forall_mem_cons] at hds
      have hnext : 10 * n + digitOf c ≤ valueFrom n (c :: ds) := le_valueFrom _ ds
      have hcast : (n : Int) * 10 + digitOf c = (10 * n + digitOf c : Nat) := by omega
      have hint : int32 ((n : Int) * 10 + digitOf c) = .ok ((10 * n + digitOf c : Nat) : Int) := by
        rw [hcast]
        exact int32_of (by omega) (by omega)
      rw [List.cons_append, positiveExponent, if_pos hds.1]
      simp only [hint, ok_bind, if_neg (show ¬ ((10 * n + digitOf c : Nat) : Int) > maxExp by omega)]
      exact ih hds.2 (10 * n + digitOf c) hle

end Exact

section Short

/-- The digits make an integer below 2^53, and at most 22 places lie between its last digit and
the decimal point. -/
structure Short (t : NumberText) : Prop where
  digits : valueFrom 0 (t.whole ++ t.places) < 2 ^ 53
  lower : -22 ≤ t.power - t.places.length
  upper : t.power - t.places.length ≤ 22

variable {t : NumberText}

theorem exponentDigits_exact (start : Text) {mark : Char} {sign ds : Text}
    (hx : ExponentText (some (mark, sign, ds))) {places : Nat} (hplaces : places < 2 ^ 27) {power : Int}
    (hpower : power = if sign = ['-'] then -(valueFrom 0 ds : Int) else valueFrom 0 ds)
    (hlo : -22 ≤ power - places) (hhi : power - places ≤ 22) {rest : Text} (hrest : NoDigit rest) :
    parseExponentDigits start (-places) (sign ++ ds ++ rest) = .ok (power, rest) := by
  obtain ⟨_, hsign, hne, hds⟩ := hx _ rfl
  obtain ⟨c, ds, rfl⟩ := List.exists_cons_of_ne_nil hne
  rw [AllDigits, List.forall_mem_cons] at hds
  have hvalue : valueFrom 0 (c :: ds) = valueFrom (digitOf c) ds := by simp [valueFrom]
  rw [hvalue] at hpower
  by_cases hminus : sign = ['-']
  · rw [if_pos hminus] at hpower
    have hdiv : (-(places : Int) + 2147483639).tdiv 10 = (-(places : Int) + 2147483639) / 10 :=
      Int.tdiv_eq_ediv_of_nonneg (by omega)
    rw [hminus, List.append_assoc, List.singleton_append, List.cons_append,
      parseExponentDigits_minus start (by omega) hds.1, hdiv,
      negativeExponent_exact hds.2 (digitOf c) (by omega) (by omega) hrest, ok_bind, hpower]
  · rw [if_neg hminus] at hpower
    have hsign : sign = [] ∨ sign = ['+'] := by tauto
    have hint : int32 (308 - -(places : Int)) = .ok (308 - -(places : Int)) :=
      int32_of (by omega) (by omega)
    rw [List.append_assoc, List.cons_append, parseExponentDigits_plus start _ hsign hds.1, hint, ok_bind,
      positiveExponent_exact start hds.2 (digitOf c) (by omega) (by omega) hrest, hpower]

/-- A significand that is exact, and the power of ten behind it. -/
structure Exact (t : NumberText) (r : Reading) : Prop where
  useDouble : r.useDouble = true
  d : r.d = .fin (valueFrom 0 (t.whole ++ t.places) : Nat)
  exponent : r.exp + r.expFrac = t.power - t.places.length

theorem finish_exact (start : Text) {r : Reading} (hr : Exact t r) (hs : Short t) :
    finishNumber start t.minus r = .ok (.double t.rounded) := by
  have hint : int32 (t.power - t.places.length) = .ok (t.power - t.places.length) :=
    int32_of (by have := hs.lower; omega) (by have := hs.upper; omega)
  simp only [finishNumber, hr.useDouble, if_true, hr.exponent, hint, ok_bind, hr.d,
    strtod_exact _ hs.lower hs.upper, if_neg (round_ne_inf hs.digits hs.lower hs.upper)]
  rw [NumberText.rounded, NumberText.magnitude]

theorem length_places_le : t.places.length ≤ t.text.length := by
  rw [NumberText.places, NumberText.text, List.length_append, List.length_append, List.length_append]
  cases t.fraction with
  | none => exact Nat.zero_le _
  | some ds =>
      rw [Option.getD_some, fractionText, List.length_cons]
      omega

/-- A significand behind the fraction that is exact, in one type or the other. -/
structure Significant (t : NumberText) (r : Reading) : Prop where
  exp : r.exp = 0
  expFrac : r.expFrac = -t.places.length
  real : r.useDouble = true → r.d = .fin (valueFrom 0 (t.whole ++ t.places) : Nat)
  integral : r.useDouble = false →
    t.fraction = none ∧ r.significand = valueFrom 0 (t.whole ++ t.places)

theorem fraction_short (ht : t.Valid) (hs : Short t) (hlen : t.places.length < 2 ^ 27) {r : Reading}
    (hr : WholeResult t.minus t.whole r) (hinteger : r.useDouble = false)
    (hsignificand : r.significand = valueFrom 0 t.whole) {rest : Text}
    (hrest : FractionEnds t.fraction rest) :
    ∃ r', parseFraction r (fractionText t.fraction ++ rest) = .ok (r', rest) ∧ Significant t r' := by
  have hsplit := valueFrom_append 0 t.whole t.places
  have hdigits := hs.digits
  cases hf : t.fraction with
  | none =>
      have hplaces : t.places = [] := by rw [NumberText.places, hf, Option.getD_none]
      rw [hf] at hrest
      refine ⟨r, (fraction_none hr.expFrac).reads _ hrest, hr.exp, ?_, ?_, fun _ => ⟨hf, ?_⟩⟩
      · rw [hr.expFrac, hplaces]
        rfl
      · exact fun h => absurd (hinteger.symm.trans h) (by decide)
      · rw [hsignificand, hplaces, List.append_nil]
  | some ds =>
      have hplaces : t.places = ds := by rw [NumberText.places, hf, Option.getD_some]
      rw [hf] at hrest
      rw [hplaces] at hdigits hlen hsplit
      obtain ⟨hne, hds⟩ := ht.fraction ds hf
      refine ⟨_, fraction_exact hinteger hne hds hlen ?_ hrest, hr.exp, ?_, fun _ => ?_,
        fun h => absurd h (by simp)⟩
      · rw [hsignificand, ← hsplit]
        exact hdigits
      · rw [hplaces]
      · rw [hplaces, hsplit, hsignificand]

theorem exponent_short (ht : t.Valid) (hreal : ¬ t.Integral) (hs : Short t)
    (hlen : t.places.length < 2 ^ 27) (hwhole : valueFrom 0 t.whole ≤ most64 t.minus) {r : Reading}
    (hr : Significant t r) {rest : Text} (hrest : ExponentEnds t.exponent rest) :
    ∃ r', (∀ start, parseExponent start r (exponentText t.exponent ++ rest) = .ok (r', rest)) ∧
      Exact t r' := by
  have hx := ht.exponent
  have hexp := hr.exp
  have hexpFrac := hr.expFrac
  cases he : t.exponent with
  | none =>
      rw [he] at hrest
      have hpower : t.power = 0 := by rw [NumberText.power, he]
      have hdouble : r.useDouble = true := by
        by_contra hnot
        exact hreal ⟨(hr.integral (by simpa using hnot)).1, he, hwhole⟩
      refine ⟨r, fun start => ?_, hdouble, hr.real hdouble, by omega⟩
      exact (exponent_none hexp (by omega) (by omega)).reads start rest hrest
  | some x =>
      obtain ⟨mark, sign, ds⟩ := x
      rw [he] at hrest hx
      have hpower : t.power = if sign = ['-'] then -(valueFrom 0 ds : Int) else valueFrom 0 ds := by
        rw [NumberText.power, he]
      have hd : (if r.useDouble then r.d else ofNat r.significand) =
          .fin (valueFrom 0 (t.whole ++ t.places) : Nat) := by
        cases hdouble : r.useDouble with
        | true => exact hr.real hdouble
        | false =>
            rw [(hr.integral hdouble).2]
            exact ofNat_of_lt hs.digits
      have hreads := fun start => exponentDigits_exact start hx hlen hpower hs.lower hs.upper hrest
      refine ⟨{ r with d := if r.useDouble then r.d else ofNat r.significand, useDouble := true,
                       exp := t.power }, fun start => ?_, rfl, hd, ?_⟩
      · rw [exponentText, List.cons_append, parseExponent_mark start r (hx _ rfl).1, hexpFrac,
          hreads start, ok_bind]
      · simp only [hexpFrac]
        omega

theorem parseNumber_short (ht : t.Valid) (hreal : ¬ t.Integral) (hlen : t.text.length < 2 ^ 27)
    (hs : Short t) {rest : Text} (hrest : t.Ends rest) :
    parseNumber (t.text ++ rest) = .ok (.double t.rounded, rest) := by
  have hplaces := lt_of_le_of_lt (@length_places_le t) hlen
  have hwhole : valueFrom 0 t.whole ≤ most64 t.minus := by
    have hle := le_valueFrom (valueFrom 0 t.whole) t.places
    have hsplit := valueFrom_append 0 t.whole t.places
    have hdigits := hs.digits
    have hwide : 2 ^ 53 ≤ most64 t.minus := by cases t.minus <;> decide
    omega
  obtain ⟨r, hr⟩ := whole_reads t.minus ht.whole
  obtain ⟨hinteger, hsignificand, _⟩ := hr.integral hwhole
  obtain ⟨r', hfraction, hr'⟩ := fraction_short ht hs hplaces hr hinteger hsignificand hrest.fraction
  obtain ⟨r'', hexponent, hexact⟩ := exponent_short ht hreal hs hplaces hwhole hr' hrest.exponent
  rw [parseNumber_text_append ht.whole, parseUnsigned, hr.reads _ hrest.whole, ok_bind]
  simp only [hfraction, ok_bind, hexponent, finish_exact _ hexact hs]

end Short

end SchemaCodeGen.ShortNumbers
