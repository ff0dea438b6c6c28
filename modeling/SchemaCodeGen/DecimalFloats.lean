import SchemaCodeGen.CNumber
import SchemaCodeGen.Decimal
import Mathlib.Tactic.Linarith
import Mathlib.Tactic.NormNum

namespace SchemaCodeGen.DecimalFloats

open CString CNumber Floats Format Decimal

theorem isDigitOf_ten (c : Char) : isDigitOf 10 c = c.isDigit := by
  rw [isDigitOf, digitValue]
  split_ifs with hd hl hu
  · have hc : 48 ≤ c.toNat ∧ c.toNat ≤ 57 := by simpa [Char.isDigit, UInt32.le_iff_toNat_le] using hd
    have h0 : '0'.toNat = 48 := rfl
    simp only [hd, h0, decide_eq_true_eq]
    omega
  · simp [hd]
  · simp [hd]
  · simp [hd]

theorem natOf_zeros {digits : Text} (h : ∀ c ∈ digits, c.isDigit = true) (k : Nat) :
    natOf 10 (List.replicate k '0' ++ digits) = Nat.ofDigitChars 10 digits 0 := by
  have hall : ∀ c ∈ List.replicate k '0' ++ digits, c.isDigit = true := by
    intro c hc
    rcases List.mem_append.mp hc with hc | hc
    · rw [List.eq_of_mem_replicate hc]
      rfl
    · exact h c hc
  have hfold : natOf 10 (List.replicate k '0' ++ digits) =
      Nat.ofDigitChars 10 (List.replicate k '0' ++ digits) 0 := by
    rw [natOf, Nat.ofDigitChars_eq_foldl]
    refine List.foldl_ext _ _ _ fun n c hc => ?_
    rw [digitValue, if_pos (hall c hc)]
  rw [hfold, Nat.ofDigitChars_append, Nat.ofDigitChars_replicate_zero, Nat.mul_zero]

theorem natOf_leftpad (n k : Nat) : natOf 10 ((Nat.toDigits 10 n).leftpad k '0') = n := by
  rw [List.leftpad, natOf_zeros fun c hc => isDigit_of_mem hc, Nat.ofDigitChars_ten_toDigits]

theorem isDigit_leftpad {n k : Nat} {c : Char} (h : c ∈ (Nat.toDigits 10 n).leftpad k '0') :
    c.isDigit = true := by
  rcases List.mem_append.mp h with hc | hc
  · rw [List.eq_of_mem_replicate hc]
    rfl
  · exact isDigit_of_mem hc

theorem significand_pointed (n decimals : Nat) {rest : Text} (hrest : ∀ c ∈ rest.head?, c.isDigit = false) :
    significand 10 (pointed (Nat.toDigits 10 n) decimals ++ rest) = some (n, decimals, rest) := by
  obtain ⟨padded, hpadded⟩ : ∃ t, t = (Nat.toDigits 10 n).leftpad (decimals + 1) '0' := ⟨_, rfl⟩
  have hlength : decimals + 1 ≤ padded.length := by
    rw [hpadded, List.leftpad, List.length_append, List.length_replicate]
    omega
  have hdigit : ∀ c ∈ padded, c.isDigit = true := fun c hc => isDigit_leftpad (hpadded ▸ hc)
  have hwhole : ∀ c ∈ padded.take (padded.length - decimals), isDigitOf 10 c = true :=
    fun c hc => (isDigitOf_ten c).trans (hdigit c (List.mem_of_mem_take hc))
  have hfraction : ∀ c ∈ padded.drop (padded.length - decimals), isDigitOf 10 c = true :=
    fun c hc => (isDigitOf_ten c).trans (hdigit c (List.mem_of_mem_drop hc))
  have hpoint : ∀ c ∈ ('.' :: (padded.drop (padded.length - decimals) ++ rest)).head?,
      isDigitOf 10 c = false := by
    rintro _ ⟨⟩
    rfl
  have hrest' : ∀ c ∈ rest.head?, isDigitOf 10 c = false :=
    fun c hc => (isDigitOf_ten c).trans (hrest c hc)
  have hne : padded.take (padded.length - decimals) ≠ [] := by
    rw [Ne, List.take_eq_nil_iff, not_or]
    exact ⟨by omega, List.ne_nil_of_length_pos (by omega)⟩
  have hplaces : (padded.drop (padded.length - decimals)).length = decimals := by
    rw [List.length_drop]
    omega
  rw [pointed, ← hpadded, List.append_assoc, List.cons_append, significand,
    takeWhile_before hwhole hpoint, dropWhile_before hwhole hpoint]
  simp only [List.head?_cons, if_true, List.tail_cons, takeWhile_before hfraction hrest',
    dropWhile_before hfraction hrest', hne, false_and, if_false, List.take_append_drop, hplaces]
  rw [hpadded, natOf_leftpad]

theorem exponent_written (e : Int) {rest : Text} (hrest : ∀ c ∈ rest.head?, c.isDigit = false) :
    exponent 'e' ('e' :: (if e < 0 then '-' else '+') :: ((Nat.toDigits 10 e.natAbs).leftpad 2 '0' ++ rest)) =
      some (e, rest) := by
  have hdigits : ∀ c ∈ (Nat.toDigits 10 e.natAbs).leftpad 2 '0', c.isDigit = true :=
    fun c hc => isDigit_leftpad hc
  have hne : (Nat.toDigits 10 e.natAbs).leftpad 2 '0' ≠ [] := by
    rw [List.leftpad]
    exact List.append_ne_nil_of_right_ne_nil _ Nat.toDigits_ne_nil
  have hsign : takeSign ((if e < 0 then '-' else '+') ::
      ((Nat.toDigits 10 e.natAbs).leftpad 2 '0' ++ rest)) =
        (decide (e < 0), (Nat.toDigits 10 e.natAbs).leftpad 2 '0' ++ rest) := by
    by_cases he : e < 0
    · simp only [he, if_true, takeSign, decide_true]
    · simp only [he, if_false, takeSign, decide_false]
  rw [exponent, if_pos (by rfl), hsign]
  simp only [takeWhile_before hdigits hrest, dropWhile_before hdigits hrest, if_neg hne, natOf_leftpad]
  by_cases he : e < 0
  · rw [decide_eq_true he, if_pos rfl]
    congr 2
    omega
  · rw [decide_eq_false he, if_neg (by simp)]
    congr 2
    omega

theorem exponent_none {rest : Text} (hrest : ∀ c ∈ rest.head?, isMark 'e' c = false) :
    exponent 'e' rest = some (0, rest) := by
  cases rest with
  | nil => rfl
  | cons c rest => rw [exponent, if_neg (by simp [hrest c rfl])]

/-- Six digits with the power of ten of the first of them. -/
def written (n : Nat) (e : Int) : Text :=
  if -4 ≤ e ∧ e < 6 then pointed (decimalText n) (5 - e).toNat
  else
    pointed (decimalText n) 5 ++ 'e' :: (if e < 0 then '-' else '+') ::
      (decimalText e.natAbs).leftpad 2 '0'

def Ends (rest : Text) : Prop := ∀ c ∈ rest.head?, c.isDigit = false ∧ isMark 'e' c = false

theorem finite_written (strict : Bool) (f : Format) (n : Nat) (e : Int) {rest : Text} (hrest : Ends rest) :
    finite strict f 10 10 'e' (written n e ++ rest) =
      some (f.round (n * (10 : ℚ) ^ (e - 5)), rest) := by
  have hdigit : ∀ c ∈ rest.head?, c.isDigit = false := fun c hc => (hrest c hc).1
  have hmark : ∀ c ∈ rest.head?, isMark 'e' c = false := fun c hc => (hrest c hc).2
  by_cases he : -4 ≤ e ∧ e < 6
  · have hpow : (10 : ℚ) ^ (e - 5) = 1 / 10 ^ (5 - e).toNat := by
      rw [one_div, ← zpow_natCast, ← zpow_neg]
      congr 1
      omega
    rw [written, if_pos he, finite, decimalText, significand_pointed _ _ hdigit]
    simp only [Option.bind_some, exponent_none hmark, Nat.cast_ofNat, zpow_zero, mul_one, hpow,
      mul_one_div]
  · have hpoint : ∀ c ∈ ('e' :: (if e < 0 then '-' else '+') ::
        ((Nat.toDigits 10 e.natAbs).leftpad 2 '0' ++ rest)).head?, c.isDigit = false := by
      rintro _ ⟨⟩
      rfl
    rw [written, if_neg he, finite, decimalText, decimalText, List.append_assoc, List.cons_append,
      List.cons_append, significand_pointed _ _ hpoint]
    simp only [Option.bind_some, exponent_written e hdigit, Nat.cast_ofNat]
    rw [zpow_sub₀ (by norm_num), mul_div_assoc]
    norm_cast

def sixDigits (q : ℚ) : ℚ :=
  roundEven (q / (10 : ℚ) ^ (Int.log 10 q - 5)) * (10 : ℚ) ^ (Int.log 10 q - 5)

theorem roundEven_near (q : ℚ) : q - 1 / 2 ≤ roundEven q ∧ (roundEven q : ℚ) ≤ q + 1 / 2 := by
  have hlo := Int.floor_le q
  have hhi := Int.lt_floor_add_one q
  rw [roundEven]
  split_ifs with h1 h2 h3 <;> push_cast <;> constructor <;> linarith

theorem roundEven_bounds {q : ℚ} (hq : 0 < q) :
    100000 ≤ roundEven (q / (10 : ℚ) ^ (Int.log 10 q - 5)) ∧
      roundEven (q / (10 : ℚ) ^ (Int.log 10 q - 5)) ≤ 1000000 := by
  have hpow : (0 : ℚ) < (10 : ℚ) ^ (Int.log 10 q - 5) := zpow_pos (by norm_num) _
  have hlo : (100000 : ℚ) ≤ q / (10 : ℚ) ^ (Int.log 10 q - 5) := by
    rw [le_div_iff₀ hpow, show (100000 : ℚ) = 10 ^ (5 : Int) by norm_num, ← zpow_add₀ (by norm_num)]
    have h := Int.zpow_log_le_self (by decide : 1 < 10) hq
    simpa using h
  have hhi : q / (10 : ℚ) ^ (Int.log 10 q - 5) < 1000000 := by
    rw [div_lt_iff₀ hpow, show (1000000 : ℚ) = 10 ^ (6 : Int) by norm_num, ← zpow_add₀ (by norm_num)]
    have h := Int.lt_zpow_succ_log_self (by decide : 1 < 10) q
    have he : 6 + (Int.log 10 q - 5) = Int.log 10 q + 1 := by omega
    rw [he]
    exact_mod_cast h
  obtain ⟨hdown, hup⟩ := roundEven_near (q / (10 : ℚ) ^ (Int.log 10 q - 5))
  constructor
  · have h : ((99999 : Int) : ℚ) < roundEven (q / (10 : ℚ) ^ (Int.log 10 q - 5)) := by
      push_cast
      linarith
    have := Int.cast_lt.mp h
    omega
  · have h : (roundEven (q / (10 : ℚ) ^ (Int.log 10 q - 5)) : ℚ) < ((1000001 : Int) : ℚ) := by
      push_cast
      linarith
    have := Int.cast_lt.mp h
    omega

theorem finite_general (strict : Bool) (f : Format) {q : ℚ} (hq : 0 ≤ q) {rest : Text} (hrest : Ends rest) :
    finite strict f 10 10 'e' (general q ++ rest) = some (f.round (sixDigits q), rest) := by
  rcases hq.eq_or_lt with rfl | hpos
  · have hzero : general 0 = written 0 0 := by
      rw [general, if_pos rfl]
      rfl
    have hsix : sixDigits 0 = ((0 : Nat) : ℚ) * 10 ^ ((0 : Int) - 5) := by
      rw [sixDigits, zero_div, ← Int.cast_zero, roundEven_int]
      simp
    rw [hzero, hsix, finite_written strict f 0 0 hrest]
  · obtain ⟨hlo, hhi⟩ := roundEven_bounds hpos
    obtain ⟨n, hn⟩ := Int.eq_ofNat_of_zero_le (by omega : 0 ≤ roundEven (q / (10 : ℚ) ^ (Int.log 10 q - 5)))
    have hgeneral : general q =
        if n = 1000000 then written 100000 (Int.log 10 q + 1) else written n (Int.log 10 q) := by
      have hnat : (roundEven (q / (10 : ℚ) ^ (Int.log 10 q - 5))).toNat = n := by
        rw [hn, Int.toNat_natCast]
      rw [general, if_neg hpos.ne']
      simp only [hnat]
      by_cases hcarried : n = 1000000
      · simp only [hcarried, if_true, written]
      · simp only [hcarried, if_false, written]
    rw [hgeneral, sixDigits, hn]
    by_cases hcarried : n = 1000000
    · have hvalue : ((100000 : Nat) : ℚ) * 10 ^ (Int.log 10 q + 1 - 5) =
          ((n : Int) : ℚ) * 10 ^ (Int.log 10 q - 5) := by
        rw [hcarried, show Int.log 10 q + 1 - 5 = 1 + (Int.log 10 q - 5) by omega,
          zpow_add₀ (by norm_num)]
        push_cast
        ring
      rw [if_pos hcarried, finite_written strict f _ _ hrest, hvalue]
    · rw [if_neg hcarried, finite_written strict f _ _ hrest]
      rfl

section Naturals

def Short (n : Nat) : Prop := ∃ m k : Nat, m < 10 ^ 6 ∧ n = m * 10 ^ k

variable {n : Nat}

theorem sixDigits_of_scaled {q : ℚ} {i : Int} (h : q / (10 : ℚ) ^ (Int.log 10 q - 5) = i) :
    sixDigits q = q := by
  have hpow : (10 : ℚ) ^ (Int.log 10 q - 5) ≠ 0 := zpow_ne_zero _ (by norm_num)
  rw [sixDigits, h, roundEven_int, ← h, div_mul_cancel₀ _ hpow]

theorem log_cases (hn : 0 < n) : n < 10 ^ 6 ∨
    ∃ k : Nat, Int.log 10 (n : ℚ) - 5 = k ∧ 0 < k ∧ 10 ^ (k + 5) ≤ n := by
  rw [Int.log_natCast]
  rcases Nat.lt_or_ge n (10 ^ 6) with hlt | hge
  · exact .inl hlt
  · have hlog : 6 ≤ Nat.log 10 n := Nat.le_log_of_pow_le (by decide) hge
    obtain ⟨k, hk⟩ := Nat.exists_eq_add_of_le' (by omega : 5 ≤ Nat.log 10 n)
    refine .inr ⟨k, by omega, by omega, ?_⟩
    rw [← hk]
    exact Nat.pow_log_le_self 10 hn.ne'

theorem sixDigits_of_short (h : Short n) : sixDigits n = n := by
  obtain ⟨m, k, hm, rfl⟩ := h
  rcases Nat.eq_zero_or_pos (m * 10 ^ k) with hzero | hpos
  · simp [hzero, sixDigits, roundEven]
  · have hlog : Int.log 10 ((m * 10 ^ k : Nat) : ℚ) ≤ k + 5 := by
      rw [Int.log_natCast]
      have hlt : m * 10 ^ k < 10 ^ (k + 6) := by
        rw [Nat.add_comm k 6, pow_add]
        exact Nat.mul_lt_mul_of_pos_right hm (by positivity)
      have := Nat.log_lt_of_lt_pow hpos.ne' hlt
      omega
    refine sixDigits_of_scaled (i := m * 10 ^ (k - (Int.log 10 ((m * 10 ^ k : Nat) : ℚ) - 5)).toNat) ?_
    generalize Int.log 10 ((m * 10 ^ k : Nat) : ℚ) = e at hlog
    rw [div_eq_iff (zpow_ne_zero _ (by norm_num))]
    push_cast
    rw [mul_assoc, ← zpow_natCast, ← zpow_natCast, ← zpow_add₀ (by norm_num)]
    congr 2
    omega

theorem sixDigits_eq_iff : sixDigits n = n ↔ Short n := by
  refine ⟨fun h => ?_, sixDigits_of_short⟩
  rcases Nat.eq_zero_or_pos n with rfl | hpos
  · exact ⟨0, 0, by decide, by decide⟩
  rcases log_cases hpos with hlt | ⟨k, hk, _, _⟩
  · exact ⟨n, 0, hlt, by simp⟩
  · obtain ⟨hlo, hhi⟩ := roundEven_bounds (q := n) (by exact_mod_cast hpos)
    obtain ⟨r, hr⟩ := Int.eq_ofNat_of_zero_le (by omega : 0 ≤ roundEven ((n : ℚ) / (10 : ℚ) ^ (Int.log 10 (n : ℚ) - 5)))
    rw [sixDigits, hr, hk, zpow_natCast] at h
    have hn : n = r * 10 ^ k := by exact_mod_cast h.symm
    rw [hr] at hhi
    rcases Nat.lt_or_ge r (10 ^ 6) with hlt | hge
    · exact ⟨r, k, hlt, hn⟩
    · refine ⟨10 ^ 5, k + 1, by decide, ?_⟩
      rw [hn, show r = 10 ^ 6 by omega]
      ring

theorem representable_natCast {f : Format} (hmin : f.minExponent ≤ 0) (hmax : f.precision ≤ f.maxExponent)
    (hprecision : 1 < f.precision) (hn : n ≤ 2 ^ f.precision) : f.Representable n := by
  rcases hn.lt_or_eq with hlt | rfl
  · exact ⟨n, 0, by exact_mod_cast hlt, hmin, by omega, by simp⟩
  · have hone : |(1 : Int)| < 2 ^ f.precision := by
      have h : 1 < 2 ^ f.precision := Nat.one_lt_two_pow (by omega : f.precision ≠ 0)
      exact_mod_cast h
    exact ⟨1, f.precision, hone, by omega, hmax, by simp⟩

/-- So are they when rounded to six digits. -/
theorem representable_sixDigits {f : Format} (hmin : f.minExponent ≤ 0)
    (hmax : f.precision ≤ f.maxExponent) (hprecision : 1 < f.precision) (hn : n ≤ 2 ^ f.precision) :
    f.Representable (sixDigits n) := by
  rcases Nat.eq_zero_or_pos n with rfl | hpos
  · rw [sixDigits_of_short ⟨0, 0, by decide, by decide⟩]
    exact representable_natCast hmin hmax hprecision hn
  rcases log_cases hpos with hlt | ⟨k, hk, hk0, hlo⟩
  · rw [sixDigits_of_short ⟨n, 0, hlt, by simp⟩]
    exact representable_natCast hmin hmax hprecision hn
  · obtain ⟨hdigits, _⟩ := roundEven_bounds (q := n) (by exact_mod_cast hpos)
    obtain ⟨r, hr⟩ := Int.eq_ofNat_of_zero_le (by omega : 0 ≤ roundEven ((n : ℚ) / (10 : ℚ) ^ (Int.log 10 (n : ℚ) - 5)))
    -- The rounding adds at most half of the last digit.
    have hnear : r * 10 ^ k * 2 ≤ n * 2 + 10 ^ k := by
      have h := (roundEven_near ((n : ℚ) / (10 : ℚ) ^ (Int.log 10 (n : ℚ) - 5))).2
      have hpow : (0 : ℚ) < 10 ^ k := by positivity
      rw [hr, hk, zpow_natCast, ← sub_le_iff_le_add, le_div_iff₀ hpow] at h
      have h' : (r : ℚ) * 10 ^ k * 2 ≤ n * 2 + 10 ^ k := by
        push_cast at h
        linarith
      exact_mod_cast h'
    have hfive : 5 ^ k < 2 ^ f.precision :=
      calc 5 ^ k ≤ 10 ^ k := Nat.pow_le_pow_left (by decide) k
        _ < 10 ^ (k + 5) := Nat.pow_lt_pow_right (by decide) (by omega)
        _ ≤ n := hlo
        _ ≤ 2 ^ f.precision := hn
    have hten : 10 ^ k = 5 ^ k * 2 ^ k := by rw [← Nat.mul_pow]
    have htwo : 2 ≤ 2 ^ k := by
      calc 2 = 2 ^ 1 := by decide
        _ ≤ 2 ^ k := Nat.pow_le_pow_right (by decide) hk0
    have hsmall : r * 5 ^ k < 2 ^ f.precision := by
      by_contra hle
      rw [not_lt] at hle
      rw [hten, ← Nat.mul_assoc] at hnear
      nlinarith [Nat.mul_le_mul_right (2 ^ k) hle]
    have hk' : k ≤ f.precision := by
      have hlt : 2 ^ k < 2 ^ f.precision :=
        (Nat.pow_le_pow_left (by decide : 2 ≤ 5) k).trans_lt hfive
      exact ((Nat.pow_lt_pow_iff_right (by decide)).mp hlt).le
    refine ⟨(r * 5 ^ k : Nat), k, ?_, by omega, by omega, ?_⟩
    · exact_mod_cast hsmall
    · rw [sixDigits, hr, hk, zpow_natCast, zpow_natCast]
      have hcast : ((10 : ℚ)) ^ k = 5 ^ k * 2 ^ k := by exact_mod_cast hten
      rw [hcast]
      push_cast
      ring

end Naturals

theorem lower_ne_of_digits {s t : Text} (h : ∀ c ∈ s, c.isDigit = true) (k : Nat)
    (ht : t.all Char.isDigit = false) : lower (s.take k) ≠ t := by
  rintro rfl
  refine absurd ht ?_
  rw [Bool.not_eq_false, List.all_eq_true]
  intro c hc
  obtain ⟨d, hd, rfl⟩ := List.mem_map.mp hc
  have hdigit := h d (List.mem_of_mem_take hd)
  rw [toLower_of_isDigit hdigit, hdigit]

theorem magnitude_digits (strict : Bool) {f : Format} {n : Nat} (h : f.Representable n) :
    magnitude strict f (Nat.toDigits 10 n) = some (.fin n, []) := by
  have hdigits : ∀ c ∈ Nat.toDigits 10 n, c.isDigit = true := fun c hc => isDigit_of_mem hc
  have hten : ∀ c ∈ Nat.toDigits 10 n, isDigitOf 10 c = true :=
    fun c hc => (isDigitOf_ten c).trans (hdigits c hc)
  have hnatOf : natOf 10 (Nat.toDigits 10 n) = n := by
    simpa [List.leftpad] using natOf_leftpad n 0
  have hsignificand : significand 10 (Nat.toDigits 10 n) = some (n, 0, []) := by
    rw [significand, List.takeWhile_eq_self_iff.mpr hten, List.dropWhile_eq_nil_iff.mpr hten]
    simp [Nat.toDigits_ne_nil, hnatOf]
  rw [magnitude, if_neg (lower_ne_of_digits hdigits 8 rfl), if_neg (lower_ne_of_digits hdigits 3 rfl),
    if_neg (lower_ne_of_digits hdigits 3 rfl), if_neg (lower_ne_of_digits hdigits 2 rfl), finite,
    hsignificand]
  simp [exponent, round_of_representable h]

theorem strto_intText {f : Format} {n : Int} (h : f.Representable (n.natAbs : Nat)) :
    strto f (intText n) = ⟨decide (n < 0), .fin (n.natAbs : Nat)⟩ := by
  cases n with
  | ofNat n =>
      obtain ⟨c, t, hdigits⟩ := List.exists_cons_of_ne_nil (Nat.toDigits_ne_nil (n := n) (b := 10))
      have hc : c.isDigit = true := isDigit_of_mem (hdigits ▸ List.mem_cons_self)
      have hspace : (Nat.toDigits 10 n).dropWhile isSpace = Nat.toDigits 10 n := by
        rw [hdigits, List.dropWhile_cons_of_neg (by simp [not_isSpace_of_isDigit hc])]
      have hsign : takeSign (Nat.toDigits 10 n) = (false, Nat.toDigits 10 n) := by
        rw [hdigits, takeSign]
        · exact fun s he => (sign_ne_of_isDigit hc).1 (List.cons.inj he).1
        · exact fun s he => (sign_ne_of_isDigit hc).2 (List.cons.inj he).1
      have hread : magnitude false f (Nat.toDigits 10 n) = some (.fin n, []) := magnitude_digits false h
      rw [Int.ofNat_eq_natCast, intText_natCast, strto, number, hspace, hsign]
      simp [hread]
  | negSucc n =>
      have hspace : ('-' :: Nat.toDigits 10 (n + 1)).dropWhile isSpace = '-' :: Nat.toDigits 10 (n + 1) :=
        List.dropWhile_cons_of_neg (by decide)
      have hsign : takeSign ('-' :: Nat.toDigits 10 (n + 1)) = (true, Nat.toDigits 10 (n + 1)) := rfl
      have hread : magnitude false f (Nat.toDigits 10 (n + 1)) = some (.fin (n + 1 : Nat), []) :=
        magnitude_digits false h
      rw [intText_negSucc, strto, number, hspace, hsign]
      simp [hread]

section Literals

def negate : Ieee → Ieee
  | .nan => .nan
  | .inf b => .inf !b
  | .negZero => .fin 0
  | .fin q => if q = 0 then .negZero else .fin (-q)

def signed (read : Text → Option Ieee) : Text → Option Ieee
  | '-' :: s => (read s).map negate
  | s => read s

/-- A floating literal of the format, with the suffix behind it. One without a point or an
exponent would be a literal of an integer. -/
def floating (f : Format) (suffix s : Text) : Option Ieee :=
  if s.any fun c => c == '.' || isMark 'e' c then
    (finite true f 10 10 'e' s).bind fun r => if lower r.2 = suffix then some r.1 else none
  else none

def cppNumber : Text → Option Ieee :=
  signed fun s => (floating binary32 ['f'] s).or (floating binary64 [] s)

def pythonNumber : Text → Option Ieee := signed (floating binary64 [])

variable {f : Format} {suffix : Text} {n : Nat}

theorem point_mem_general (q : ℚ) : '.' ∈ general q := by
  rw [general]
  split_ifs with h
  · decide
  · dsimp only
    split_ifs <;> simp [pointed]

theorem general_unsigned (n : Nat) (t s : Text) : general n ++ t ≠ '-' :: s := by
  intro hs
  cases hgeneral : general n with
  | nil => exact absurd (point_mem_general n) (by simp [hgeneral])
  | cons c g =>
      rw [hgeneral, List.cons_append] at hs
      obtain rfl : c = '-' := (List.cons.inj hs).1
      have h := finite_general true binary64 (q := n) (by positivity) (by simp [Ends] : Ends [])
      rw [hgeneral] at h
      cases h

theorem signed_showpoint {read : Text → Option Ieee} {m : Int} {d : ℚ}
    (hread : read (general m.natAbs ++ suffix) = some (.fin d)) :
    signed read (showpoint ⟨decide (m < 0), .fin (m.natAbs : Nat)⟩ ++ suffix) = some (.fin m) ↔
      d = (m.natAbs : Nat) := by
  by_cases hm : m < 0
  · obtain ⟨k, rfl⟩ : ∃ k : Nat, m = -k := ⟨m.natAbs, by omega⟩
    rw [Int.natAbs_neg, Int.natAbs_natCast] at *
    have hpos : (0 : ℚ) ≠ k := by
      have hk : 0 ≠ k := by omega
      exact_mod_cast hk
    have hsigned : signed read ('-' :: (general k ++ suffix)) = some (negate (.fin d)) := by
      rw [signed, hread, Option.map_some]
    rw [showpoint, if_pos (decide_eq_true hm), List.append_assoc, List.singleton_append, hsigned, negate]
    split_ifs with hd
    · simp [hd, hpos]
    · simp
  · obtain ⟨k, rfl⟩ : ∃ k : Nat, m = k := ⟨m.natAbs, by omega⟩
    rw [Int.natAbs_natCast] at *
    have hsigned : signed read (general k ++ suffix) = some (.fin d) := by
      rw [signed, hread]
      exact fun s => general_unsigned _ suffix s
    rw [showpoint, if_neg (by simp [hm]), List.nil_append, hsigned]
    simp

theorem floating_general (hrep : f.Representable (sixDigits n)) (hends : Ends suffix)
    (hlower : lower suffix = suffix) : floating f suffix (general n ++ suffix) = some (.fin (sixDigits n)) := by
  have hpoint : (general n ++ suffix).any (fun c => c == '.' || isMark 'e' c) = true := by
    rw [List.any_eq_true]
    exact ⟨'.', List.mem_append_left _ (point_mem_general n), rfl⟩
  rw [floating, if_pos hpoint, finite_general true f (by positivity) hends, Option.bind_some,
    if_pos hlower, round_of_representable hrep]

theorem floating_unsuffixed (n : Nat) : floating f ['f'] (general n) = none := by
  have h := finite_general true f (q := n) (by positivity) (by simp [Ends] : Ends [])
  have hne : lower [] ≠ ['f'] := (List.cons_ne_nil _ _).symm
  rw [List.append_nil] at h
  rw [floating, h, Option.bind_some, if_neg hne, ite_self]

end Literals

end SchemaCodeGen.DecimalFloats
