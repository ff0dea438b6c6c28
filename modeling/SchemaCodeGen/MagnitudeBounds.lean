import SchemaCodeGen.ShortNumbers

namespace SchemaCodeGen.MagnitudeBounds

open CString Decimal Floats Format Fallible Sax JsonStreams JsonNumbers SoftFloats ShortNumbers

section Rounding

variable {q x : ℚ} {k : Nat}

theorem roundEven_le {n : Int} (h : x ≤ n) : roundEven x ≤ n := by
  have hfloor : ⌊x⌋ ≤ n := Int.floor_le_iff.mpr (by linarith)
  have hlt := Int.lt_floor_add_one x
  rcases eq_or_lt_of_le hfloor with heq | hlt'
  · have hx : x = n := le_antisymm h (heq ▸ Int.floor_le x)
    rw [hx, roundEven_int]
  · rw [roundEven]
    split_ifs <;> omega

theorem le_roundEven {n : Int} (h : n ≤ x) : n ≤ roundEven x := by
  have hfloor : n ≤ ⌊x⌋ := Int.le_floor.mpr h
  rw [roundEven]
  split_ifs <;> omega

theorem ulpExponent_le_of_le (h0 : 0 < q) (hq : q ≤ 2 ^ k) : binary64.ulpExponent q ≤ k := by
  have hlog : Int.log 2 |q| ≤ k := by
    rw [abs_of_pos h0]
    calc Int.log 2 q ≤ Int.log 2 ((2 : ℚ) ^ (k : Int)) := by
          refine Int.log_mono_right h0 ?_
          rwa [zpow_natCast]
      _ = k := Int.log_zpow (b := 2) (by norm_num) k
  rw [ulpExponent, max_le_iff]
  simp only [binary64]
  omega

theorem round_le (h0 : 0 ≤ q) (hq : q ≤ 2 ^ k) (hk : k ≤ 1000) :
    ∃ r, binary64.round q = .fin r ∧ 0 ≤ r ∧ r ≤ 2 ^ k := by
  rcases eq_or_lt_of_le h0 with rfl | hpos
  · exact ⟨0, by rw [Format.round, if_pos rfl], le_rfl, by positivity⟩
  have hulp := two_zpow_pos (binary64.ulpExponent q)
  obtain ⟨n, hn⟩ := Int.eq_ofNat_of_zero_le (sub_nonneg.mpr (ulpExponent_le_of_le hpos hq))
  have hsplit : (2 : ℚ) ^ k = ((2 ^ n : Int) : ℚ) * (2 : ℚ) ^ binary64.ulpExponent q := by
    rw [Int.cast_pow, Int.cast_ofNat, ← zpow_natCast, ← zpow_natCast, ← zpow_add₀ (by norm_num)]
    congr 1
    omega
  have hupper : roundEven (q / (2 : ℚ) ^ binary64.ulpExponent q) ≤ 2 ^ n :=
    roundEven_le (by rwa [div_le_iff₀ hulp, ← hsplit])
  have hlower : 0 ≤ roundEven (q / (2 : ℚ) ^ binary64.ulpExponent q) :=
    le_roundEven (by rw [Int.cast_zero]; positivity)
  have hr0 : 0 ≤ (roundEven (q / (2 : ℚ) ^ binary64.ulpExponent q) : ℚ) *
      (2 : ℚ) ^ binary64.ulpExponent q := mul_nonneg (by exact_mod_cast hlower) hulp.le
  have hr : (roundEven (q / (2 : ℚ) ^ binary64.ulpExponent q) : ℚ) *
      (2 : ℚ) ^ binary64.ulpExponent q ≤ 2 ^ k := by
    rw [hsplit]
    exact mul_le_mul_of_nonneg_right (by exact_mod_cast hupper) hulp.le
  have hmax : ¬ binary64.maxFinite < |(roundEven (q / (2 : ℚ) ^ binary64.ulpExponent q) : ℚ) *
      (2 : ℚ) ^ binary64.ulpExponent q| := by
    rw [abs_of_nonneg hr0, not_lt]
    calc _ ≤ (2 : ℚ) ^ k := hr
      _ ≤ 2 ^ 1000 := pow_le_pow_right₀ (by norm_num) hk
      _ = 2 ^ 29 * (2 : ℚ) ^ (971 : Int) := by
          rw [← zpow_natCast, ← zpow_natCast, ← zpow_add₀ (by norm_num)]
          rfl
      _ ≤ binary64.maxFinite := mul_le_mul_of_nonneg_right (by norm_num [binary64]) (two_zpow_pos _).le
  simp only [Format.round, if_neg hpos.ne', if_neg (not_lt.mpr h0), if_neg hmax]
  split_ifs with hzero
  · exact ⟨0, rfl, le_rfl, by positivity⟩
  · exact ⟨_, rfl, hr0, hr⟩

theorem one_le_round {r : ℚ} (hq : 1 ≤ q) (h : binary64.round q = .fin r) : 1 ≤ r := by
  have hpos : 0 < q := lt_of_lt_of_le one_pos hq
  have hulp := two_zpow_pos (binary64.ulpExponent q)
  have hone : 1 ≤ (roundEven (q / (2 : ℚ) ^ binary64.ulpExponent q) : ℚ) *
      (2 : ℚ) ^ binary64.ulpExponent q := by
    rcases le_total (binary64.ulpExponent q) 0 with hsmall | hlarge
    · obtain ⟨n, hn⟩ := Int.eq_ofNat_of_zero_le (neg_nonneg.mpr hsmall)
      have hsplit : ((2 ^ n : Int) : ℚ) * (2 : ℚ) ^ binary64.ulpExponent q = 1 := by
        rw [Int.cast_pow, Int.cast_ofNat, ← zpow_natCast, ← zpow_add₀ (by norm_num), ← hn]
        simp
      have hle : (2 ^ n : Int) ≤ roundEven (q / (2 : ℚ) ^ binary64.ulpExponent q) :=
        le_roundEven (by rwa [le_div_iff₀ hulp, hsplit])
      rw [← hsplit]
      exact mul_le_mul_of_nonneg_right (by exact_mod_cast hle) hulp.le
    · have habs : |q| = q := abs_of_pos hpos
      have hle : (1 : Int) ≤ roundEven (q / (2 : ℚ) ^ binary64.ulpExponent q) := by
        have hleast : (2 : ℚ) ^ binary64.minExponent ≤ |q| := by
          rw [habs]
          exact le_trans (zpow_le_one_of_nonpos₀ (by norm_num) (by decide)) hq
        have h := ulp_le_abs (by decide) hleast
        rw [habs] at h
        refine le_roundEven ?_
        rwa [Int.cast_one, one_le_div hulp]
      calc (1 : ℚ) ≤ 1 * (2 : ℚ) ^ binary64.ulpExponent q := by
            rw [one_mul]
            exact one_le_zpow₀ (by norm_num) hlarge
        _ ≤ _ := mul_le_mul_of_nonneg_right (by exact_mod_cast hle) hulp.le
  simp only [Format.round, if_neg hpos.ne'] at h
  split_ifs at h with hzero
  · rw [hzero] at hone
    norm_num at hone
  · rwa [← Ieee.fin.inj h]

end Rounding

section Digits

def Below (d : Ieee) (k : Nat) : Prop := ∃ q, d = .fin q ∧ 0 ≤ q ∧ q ≤ 2 ^ k

variable {d : Ieee} {k : Nat}

theorem Below.mono {l : Nat} (h : Below d k) (hl : k ≤ l) : Below d l := by
  obtain ⟨q, hd, h0, hq⟩ := h
  exact ⟨q, hd, h0, le_trans hq (pow_le_pow_right₀ (by norm_num) hl)⟩

theorem below_lift {op : ℚ → ℚ} {l : Nat} (h : Below d k) (hl : l ≤ 1000)
    (hop : ∀ q, 0 ≤ q → q ≤ 2 ^ k → 0 ≤ op q ∧ op q ≤ 2 ^ l) : Below (lift op d) l := by
  obtain ⟨q, rfl, h0, hq⟩ := h
  obtain ⟨h0', hq'⟩ := hop q h0 hq
  exact round_le h0' hq' hl

theorem below_ofNat {n : Nat} (h : n < 2 ^ 64) : Below (ofNat n) 64 :=
  round_le (Nat.cast_nonneg n) (by exact_mod_cast h.le) (by decide)

theorem below_appendDigit (h : Below d k) {c : Char} (hc : c.isDigit = true) (hk : k + 5 ≤ 1000) :
    Below (appendDigit d c) (k + 5) := by
  have hdigit : (digitOf c : ℚ) ≤ 9 := by exact_mod_cast (digitOf_range hc).2
  have hten : Below (lift (· * 10) d) (k + 4) := by
    refine below_lift h (by omega) fun q h0 hq => ⟨by positivity, ?_⟩
    rw [pow_add]
    linarith
  refine below_lift hten hk fun q h0 hq => ⟨by positivity, ?_⟩
  have hone : (1 : ℚ) ≤ 2 ^ k := one_le_pow₀ (by norm_num)
  rw [pow_add] at hq ⊢
  linarith

theorem below_bigDigits {is : Text} (h : Below d k) (hk : k + 5 * is.length ≤ 1000) :
    Below (bigDigits d is).1 (k + 5 * is.length) := by
  induction is generalizing d k with
  | nil => exact h
  | cons c is ih =>
      rw [List.length_cons] at hk ⊢
      rw [bigDigits]
      split_ifs with hc
      · exact (ih (below_appendDigit h hc (by omega)) (by omega)).mono (by omega)
      · exact h.mono (by omega)

theorem below_of_not_positive (h : Below d k) (hd : isPositive d ≠ true) : Below d 0 := by
  obtain ⟨q, rfl, h0, _⟩ := h
  have hq : q ≤ 0 := by simpa [isPositive] using hd
  exact ⟨q, rfl, h0, le_trans hq (by norm_num)⟩

theorem below_fractionReal {ef ef' : Int} {sd : Nat} {is rest : Text} {d' : Ieee} (h : Below d k)
    (hk : k + 5 * (17 - sd) ≤ 1000) (hrun : fractionReal d ef sd is = .ok (d', ef', rest)) :
    Below d' (k + 5 * (17 - sd)) := by
  induction is generalizing d ef sd k with
  | nil =>
      simp only [fractionReal, Except.ok.injEq, Prod.mk.injEq] at hrun
      rw [← hrun.1]
      exact h.mono (by omega)
  | cons c is ih =>
      rw [fractionReal] at hrun
      split_ifs at hrun with hc hcount
      · obtain ⟨ef₁, _, hrun⟩ := bind_eq_ok.mp hrun
        have hnext := below_appendDigit h hc (by omega)
        by_cases hpos : isPositive (appendDigit d c) = true
        · rw [if_pos hpos] at hrun
          exact (ih hnext (by omega) hrun).mono (by omega)
        · rw [if_neg hpos] at hrun
          exact (ih (below_of_not_positive hnext hpos) (by omega) hrun).mono (by omega)
      · exact ih h hk hrun
      · simp only [Except.ok.injEq, Prod.mk.injEq] at hrun
        rw [← hrun.1]
        exact h.mono (by omega)

theorem countDigits_lt {modulus limit : Nat} {last : Char} {n : Nat} (h : n < modulus) (sd : Nat)
    (is : Text) : (countDigits modulus limit last n sd is).1 < modulus := by
  induction is generalizing n sd with
  | nil => exact h
  | cons c is ih =>
      rw [countDigits]
      split_ifs
      · exact h
      · exact ih (Nat.mod_lt _ (by omega)) _
      · exact h

theorem length_countDigits (modulus limit : Nat) (last : Char) (n sd : Nat) (is : Text) :
    (countDigits modulus limit last n sd is).2.2.2.length ≤ is.length := by
  induction is generalizing n sd with
  | nil => exact le_rfl
  | cons c is ih =>
      rw [countDigits]
      split_ifs
      · exact le_rfl
      · exact (ih _ _).trans (Nat.le_succ _)
      · exact le_rfl

theorem fractionInt_lt {n n' : Nat} {ef ef' : Int} {sd sd' : Nat} {is rest : Text} (h : n < 2 ^ 64)
    (hrun : fractionInt n ef sd is = .ok (n', ef', sd', rest)) : n' < 2 ^ 64 := by
  induction is generalizing n ef sd with
  | nil =>
      simp only [fractionInt, Except.ok.injEq, Prod.mk.injEq] at hrun
      omega
  | cons c is ih =>
      rw [fractionInt] at hrun
      split_ifs at hrun
      · simp only [Except.ok.injEq, Prod.mk.injEq] at hrun
        omega
      · obtain ⟨ef₁, _, hrun⟩ := bind_eq_ok.mp hrun
        exact ih (Nat.mod_lt _ (by omega)) hrun
      · simp only [Except.ok.injEq, Prod.mk.injEq] at hrun
        omega

end Digits

section Readings

def SignificandBelow (r : Reading) (k : Nat) : Prop := r.significand < 2 ^ 64 ∧ Below r.d k

theorem below_zero (k : Nat) : Below (.fin 0) k := ⟨0, rfl, le_rfl, by positivity⟩

variable {minus : Bool} {whole : Text} {r r' : Reading}

theorem whole_below (hwhole : WholeText whole) (hlen : 64 + 5 * whole.length ≤ 1000)
    (hrun : parseWhole minus whole = .ok (r, [])) : SignificandBelow r (64 + 5 * whole.length) := by
  obtain rfl | ⟨c, ds, rfl, hne, hall⟩ := hwhole
  · have hzero : parseWhole minus ['0'] = .ok ({}, []) := rfl
    rw [hzero] at hrun
    obtain rfl := (Prod.ext_iff.mp (Except.ok.inj hrun)).1
    exact ⟨by decide, below_zero _⟩
  have hc := hall c List.mem_cons_self
  have hfirst := (digitOf_range hc).2
  rw [parseWhole_digit minus hc hne] at hrun
  have hlt := @countDigits_lt (2 ^ 32) (if minus then 214748364 else 429496729)
    (if minus then '8' else '5') (digitOf c) (by omega) 0 ds
  obtain ⟨i, sd, more, is, hcount⟩ : ∃ i sd more is, countDigits (2 ^ 32)
      (if minus then 214748364 else 429496729) (if minus then '8' else '5') (digitOf c) 0 ds =
        (i, sd, more, is) := ⟨_, _, _, _, rfl⟩
  rw [hcount] at hrun hlt
  cases more with
  | false =>
      simp only [Except.ok.injEq, Prod.mk.injEq] at hrun
      rw [← hrun.1]
      exact ⟨lt_trans hlt (by decide), below_zero _⟩
  | true =>
      have hlt' := @countDigits_lt (2 ^ 64)
        (if minus then 0x0CCCCCCCCCCCCCCC else 0x1999999999999999) (if minus then '8' else '5') i
        (lt_trans hlt (by decide)) sd is
      obtain ⟨i64, sd', more', is', hcount'⟩ : ∃ i64 sd' more' is', countDigits (2 ^ 64)
          (if minus then 0x0CCCCCCCCCCCCCCC else 0x1999999999999999) (if minus then '8' else '5') i sd
            is = (i64, sd', more', is') := ⟨_, _, _, _, rfl⟩
      rw [hcount'] at hlt'
      simp only [hcount'] at hrun
      cases more' with
      | false =>
          simp only [Except.ok.injEq, Prod.mk.injEq] at hrun
          rw [← hrun.1]
          exact ⟨hlt', below_zero _⟩
      | true =>
          simp only [Except.ok.injEq, Prod.mk.injEq] at hrun
          rw [← hrun.1]
          have hshort : is.length ≤ ds.length := by
            have h := length_countDigits (2 ^ 32) (if minus then 214748364 else 429496729)
              (if minus then '8' else '5') (digitOf c) 0 ds
            rwa [hcount] at h
          have hshort' : is'.length ≤ is.length := by
            have h := length_countDigits (2 ^ 64)
              (if minus then 0x0CCCCCCCCCCCCCCC else 0x1999999999999999) (if minus then '8' else '5') i sd is
            rwa [hcount'] at h
          rw [List.length_cons] at hlen ⊢
          exact ⟨hlt', (below_bigDigits (below_ofNat hlt') (by omega)).mono (by omega)⟩

theorem fraction_below {f : Option Text} {k : Nat} (hr : SignificandBelow r k) (hk : 64 ≤ k)
    (hk' : k + 85 ≤ 1000) (hf : ∀ ds ∈ f, ds ≠ [] ∧ AllDigits ds)
    (hrun : parseFraction r (fractionText f) = .ok (r', [])) :
    SignificandBelow r' (k + 85) := by
  cases f with
  | none =>
      have hsame : parseFraction r [] = .ok (r, []) := rfl
      rw [fractionText, hsame] at hrun
      obtain rfl := (Prod.ext_iff.mp (Except.ok.inj hrun)).1
      exact ⟨hr.1, hr.2.mono (by omega)⟩
  | some ds =>
      obtain ⟨hne, hds⟩ := hf ds rfl
      obtain ⟨c, ds, rfl⟩ := List.exists_cons_of_ne_nil hne
      rw [fractionText, parseFraction_digit r (hds c List.mem_cons_self)] at hrun
      cases hdouble : r.useDouble with
      | true =>
          rw [hdouble, if_pos rfl] at hrun
          obtain ⟨⟨d, ef, rest⟩, hreal, hrun⟩ := bind_eq_ok.mp hrun
          simp only [Except.ok.injEq, Prod.mk.injEq] at hrun
          rw [← hrun.1]
          exact ⟨hr.1, (below_fractionReal hr.2 (by omega) hreal).mono (by omega)⟩
      | false =>
          rw [hdouble, if_neg Bool.false_ne_true] at hrun
          obtain ⟨⟨n, ef, sd, rest⟩, hint, hrun⟩ := bind_eq_ok.mp hrun
          obtain ⟨⟨d, ef', rest'⟩, hreal, hrun⟩ := bind_eq_ok.mp hrun
          simp only [Except.ok.injEq, Prod.mk.injEq] at hrun
          rw [← hrun.1]
          have hn := fractionInt_lt hr.1 hint
          exact ⟨hr.1, (below_fractionReal ((below_ofNat hn).mono hk) (by omega) hreal).mono (by omega)⟩

/-- A small exponent is read, as it is written where it has no minus. -/
theorem exponent_small {x : Option (Char × Text × Text)} (hx : ExponentText x)
    (hlo : -2 ^ 27 ≤ r.expFrac) (hhi : r.expFrac ≤ 0) (hexp : r.exp = 0) {n : Nat} (hn : n ≤ 308)
    (hpower : ∀ mark sign ds, x = some (mark, sign, ds) → sign ≠ ['-'] → valueFrom 0 ds ≤ n) :
    ∃ r', (∀ start rest, ExponentEnds x rest →
        parseExponent start r (exponentText x ++ rest) = .ok (r', rest)) ∧
      -2 ^ 31 ≤ r'.exp + r'.expFrac ∧ r'.exp + r'.expFrac ≤ n ∧
        (r'.d = r.d ∨ r'.d = ofNat r.significand) := by
  cases x with
  | none =>
      refine ⟨r, (exponent_none hexp hlo hhi).reads, by omega, by omega, .inl rfl⟩
  | some x =>
      obtain ⟨mark, sign, ds⟩ := x
      obtain ⟨hmark, hsign, hne, hds⟩ := hx _ rfl
      obtain ⟨e, hl, hu, hrun⟩ : ∃ e : Int, -2 ^ 31 ≤ e + r.expFrac ∧ e + r.expFrac ≤ n ∧
          ∀ start rest, NoDigit rest →
            parseExponentDigits start r.expFrac (sign ++ ds ++ rest) = .ok (e, rest) := by
        obtain ⟨c, ds, rfl⟩ := List.exists_cons_of_ne_nil hne
        rw [AllDigits, List.forall_mem_cons] at hds
        have h9 := (digitOf_range hds.1).2
        by_cases hminus : sign = ['-']
        · have hdiv : (r.expFrac + 2147483639).tdiv 10 = (r.expFrac + 2147483639) / 10 :=
            Int.tdiv_eq_ediv_of_nonneg (by omega)
          obtain ⟨e, h0, hle, hrun⟩ := negativeExponent_append hds.2
            ((r.expFrac + 2147483639) / 10) (digitOf c) (by omega) (by omega) (by omega)
          refine ⟨-e, by omega, by omega, fun start rest hrest => ?_⟩
          rw [hminus, List.append_assoc, List.singleton_append, List.cons_append,
            parseExponentDigits_minus start hhi hds.1, hdiv, hrun rest hrest, ok_bind]
        · have hvalue : valueFrom 0 (c :: ds) = valueFrom (digitOf c) ds := by simp [valueFrom]
          have hle := hpower mark sign (c :: ds) rfl hminus
          rw [hvalue] at hle
          have hsign : sign = [] ∨ sign = ['+'] := by tauto
          have hint : int32 (308 - r.expFrac) = .ok (308 - r.expFrac) := int32_of (by omega) (by omega)
          refine ⟨valueFrom (digitOf c) ds, by omega, by omega, fun start rest hrest => ?_⟩
          rw [List.append_assoc, List.cons_append, parseExponentDigits_plus start _ hsign hds.1, hint,
            ok_bind, positiveExponent_exact start hds.2 (digitOf c) (by omega) (by omega) hrest]
      refine ⟨{ r with d := if r.useDouble then r.d else ofNat r.significand, useDouble := true,
                       exp := e }, fun start rest hrest => ?_, hl, hu, ?_⟩
      · rw [exponentText, List.cons_append, parseExponent_mark start r hmark, hrun start rest hrest,
          ok_bind]
      · cases r.useDouble with
        | true => exact .inl rfl
        | false => exact .inr rfl

end Readings

section Powers

variable {d : Ieee} {k : Nat}

theorem tenTo_le {n : Nat} (hn : n ≤ 250) : 0 ≤ tenTo n ∧ tenTo n ≤ 2 ^ (4 * n) := by
  have hle : (10 : ℚ) ^ n ≤ 2 ^ (4 * n) := by
    rw [pow_mul]
    exact pow_le_pow_left₀ (by norm_num) (by norm_num) n
  obtain ⟨r, hround, h0, hr⟩ := round_le (by positivity) hle (by omega)
  rw [tenTo, Format.narrow, hround]
  exact ⟨h0, hr⟩

theorem tenTo_zero_or (n : Nat) : tenTo n = 0 ∨ 1 ≤ tenTo n := by
  have hone : (1 : ℚ) ≤ 10 ^ n := one_le_pow₀ (by norm_num)
  rw [tenTo, Format.narrow]
  split
  next r hround => exact .inr (one_le_round hone hround)
  next => exact .inl rfl

theorem below_fastPath {p : Int} {n : Nat} (h : Below d k) (hp : p ≤ n) (hk : k + 4 * n ≤ 1000) :
    ∃ d', fastPath d p = .ok d' ∧ Below d' (k + 4 * n) := by
  rw [fastPath]
  split_ifs with hlow hpos
  · exact ⟨_, rfl, below_zero _⟩
  · obtain ⟨m, rfl⟩ := Int.eq_ofNat_of_zero_le hpos
    obtain ⟨h0', ht⟩ := @tenTo_le m (by omega)
    have hmn : (2 : ℚ) ^ (4 * m) ≤ 2 ^ (4 * n) := pow_le_pow_right₀ (by norm_num) (by omega)
    rw [pow10, if_pos ⟨hpos, by omega⟩, ok_bind, Int.toNat_natCast]
    refine ⟨_, rfl, below_lift h hk fun q h0 hq => ⟨mul_nonneg h0 h0', ?_⟩⟩
    rw [pow_add]
    exact mul_le_mul hq (ht.trans hmn) h0' (by positivity)
  · rw [pow10, if_pos ⟨by omega, by omega⟩, ok_bind]
    refine ⟨_, rfl, (below_lift h (by omega) fun q h0 hq => ?_ : Below _ k).mono (by omega)⟩
    obtain hzero | hone := tenTo_zero_or (-p).toNat
    · rw [hzero, div_zero]
      exact ⟨le_rfl, by positivity⟩
    · exact ⟨div_nonneg h0 (le_trans zero_le_one hone), (div_le_self h0 hone).trans hq⟩

theorem below_strtod {p : Int} {n : Nat} (h : Below d k) (hp : p ≤ n) (hk : k + 4 * n ≤ 1000) :
    ∃ d', strtodNormalPrecision d p = .ok d' ∧ Below d' (k + 4 * n) := by
  rw [strtodNormalPrecision]
  split_ifs with hlow
  · obtain ⟨d₁, hd₁, h₁⟩ := below_fastPath (p := -308) (n := 0) h (by omega) (by omega)
    obtain ⟨d₂, hd₂, h₂⟩ := below_fastPath (p := p + 308) (n := n) h₁ (by omega) (by omega)
    exact ⟨d₂, by rw [hd₁, ok_bind, hd₂], h₂⟩
  · exact below_fastPath h hp hk

end Powers

section Moderate

/-- The digits in front of the point and those that the exponent can add are few. -/
def Moderate (t : NumberText) : Prop := t.whole.length + t.power.toNat ≤ 170

/-- A number of moderate magnitude is read, to whatever double. -/
theorem parseNumber_moderate {t : NumberText} (ht : t.Valid) (hlen : t.text.length < 2 ^ 27)
    (hm : Moderate t) {rest : Text} (hrest : t.Ends rest) :
    ∃ e, parseNumber (t.text ++ rest) = .ok (e, rest) := by
  rw [Moderate] at hm
  have hlens : (fractionText t.fraction).length < 2 ^ 27 := by
    rw [NumberText.text, List.length_append, List.length_append, List.length_append] at hlen
    omega
  obtain ⟨r, hr⟩ := whole_reads t.minus ht.whole
  obtain ⟨r', hr', _⟩ := fraction_reads hr.expFrac ht.fraction hlens
  have hlower := hr'.lower
  have hown := hr.reads [] (.inr rfl)
  rw [List.append_nil] at hown
  have hwhole := whole_below ht.whole (by omega) hown
  have hends : FractionEnds t.fraction [] := by
    cases t.fraction with
    | none => exact (by decide : peek [] ≠ '.')
    | some _ => rfl
  have hown' := hr'.reads [] hends
  rw [List.append_nil] at hown'
  have hfraction := fraction_below hwhole (by omega) (by omega) ht.fraction hown'
  have hpower : ∀ mark sign ds, t.exponent = some (mark, sign, ds) → sign ≠ ['-'] →
      valueFrom 0 ds ≤ t.power.toNat := by
    intro mark sign ds hx hsign
    rw [NumberText.power, hx]
    simp only [if_neg hsign, Int.toNat_natCast, le_refl]
  obtain ⟨r'', hrun, hl, hu, hd⟩ := exponent_small (n := t.power.toNat) ht.exponent (by omega) hr'.upper
    (hr'.exp.trans hr.exp) (by omega) hpower
  have hbelow : Below r''.d (64 + 5 * t.whole.length + 85) := by
    obtain hd | hd := hd
    · rw [hd]
      exact hfraction.2
    · rw [hd]
      exact (below_ofNat hfraction.1).mono (by omega)
  obtain ⟨d, hstrtod, q, rfl, _⟩ := below_strtod (p := r''.exp + r''.expFrac) hbelow hu (by omega)
  have hint : int32 (r''.exp + r''.expFrac) = .ok (r''.exp + r''.expFrac) := int32_of hl (by omega)
  rw [parseNumber_text_append ht.whole, parseUnsigned, hr.reads _ hrest.whole, ok_bind]
  simp only [hr'.reads _ hrest.fraction, ok_bind, hrun _ _ hrest.exponent, finishNumber, hint, hstrtod,
    reduceCtorEq, if_false]
  split_ifs <;> exact ⟨_, rfl⟩

end Moderate

end SchemaCodeGen.MagnitudeBounds
