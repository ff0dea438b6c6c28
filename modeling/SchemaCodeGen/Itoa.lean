import SchemaCodeGen.Decimal
import SchemaCodeGen.Digits

namespace SchemaCodeGen.Itoa

open CString Decimal Digits

def cDigitsLut : Text :=
  ("00010203040506070809" ++ "10111213141516171819" ++ "20212223242526272829" ++
    "30313233343536373839" ++ "40414243444546474849" ++ "50515253545556575859" ++
    "60616263646566676869" ++ "70717273747576777879" ++ "80818283848586878889" ++
    "90919293949596979899").toList

def lut (i : Nat) : Char := cDigitsLut.getD i nul

def put (p : Prop) [Decidable p] (c : Char) : Text := if p then [c] else []

/-- The eight digits of `v0`, which both functions write without a test. -/
def eight (v0 : Nat) : Text :=
  let b := v0 / 10000
  let c := v0 % 10000
  let d1 := (b / 100) <<< 1
  let d2 := (b % 100) <<< 1
  let d3 := (c / 100) <<< 1
  let d4 := (c % 100) <<< 1
  [lut d1, lut (d1 + 1), lut d2, lut (d2 + 1), lut d3, lut (d3 + 1), lut d4, lut (d4 + 1)]

/-- The branches of both functions below 10^8. -/
def below8 (value : Nat) : Text :=
  if value < 10000 then
    let d1 := (value / 100) <<< 1
    let d2 := (value % 100) <<< 1
    put (value ≥ 1000) (lut d1) ++ (put (value ≥ 100) (lut (d1 + 1)) ++
      (put (value ≥ 10) (lut d2) ++ [lut (d2 + 1)]))
  else
    let b := value / 10000
    let c := value % 10000
    let d1 := (b / 100) <<< 1
    let d2 := (b % 100) <<< 1
    let d3 := (c / 100) <<< 1
    let d4 := (c % 100) <<< 1
    put (value ≥ 10000000) (lut d1) ++ (put (value ≥ 1000000) (lut (d1 + 1)) ++
      (put (value ≥ 100000) (lut d2) ++ [lut (d2 + 1)])) ++
      [lut d3, lut (d3 + 1), lut d4, lut (d4 + 1)]

def digit (a : Nat) : Char := Char.ofNat ('0'.toNat + a)

def u32toa (value : Nat) : Text :=
  if value < 100000000 then below8 value
  else
    let a := value / 100000000
    (if a ≥ 10 then [lut (a <<< 1), lut (a <<< 1 + 1)] else [digit a]) ++ eight (value % 100000000)

def u64toa (value : Nat) : Text :=
  if value < 100000000 then below8 value
  else if value < 10000000000000000 then
    let v0 := value / 100000000
    let b0 := v0 / 10000
    let c0 := v0 % 10000
    let d1 := (b0 / 100) <<< 1
    let d2 := (b0 % 100) <<< 1
    let d3 := (c0 / 100) <<< 1
    let d4 := (c0 % 100) <<< 1
    put (value ≥ 1000000000000000) (lut d1) ++ (put (value ≥ 100000000000000) (lut (d1 + 1)) ++
      (put (value ≥ 10000000000000) (lut d2) ++ (put (value ≥ 1000000000000) (lut (d2 + 1)) ++
      (put (value ≥ 100000000000) (lut d3) ++ (put (value ≥ 10000000000) (lut (d3 + 1)) ++
      (put (value ≥ 1000000000) (lut d4) ++ [lut (d4 + 1)])))))) ++
      eight (value % 100000000)
  else
    let a := value / 10000000000000000
    let value := value % 10000000000000000
    (if a < 10 then [digit a]
      else if a < 100 then [lut (a <<< 1), lut (a <<< 1 + 1)]
      else if a < 1000 then
        [digit (a / 100), lut ((a % 100) <<< 1), lut ((a % 100) <<< 1 + 1)]
      else
        [lut ((a / 100) <<< 1), lut ((a / 100) <<< 1 + 1),
          lut ((a % 100) <<< 1), lut ((a % 100) <<< 1 + 1)]) ++
      eight (value / 100000000) ++ eight (value % 100000000)

/-- The unsigned number of `bits` bits that a cast of `n` gives, negated if `n` is negative. -/
def magnitude (bits : Nat) (n : Int) : Nat :=
  let u := (n % 2 ^ bits).toNat
  if n < 0 then (2 ^ bits - 1 - u + 1) % 2 ^ bits else u

def i32toa (value : Int) : Text :=
  (if value < 0 then ['-'] else []) ++ u32toa (magnitude 32 value)

def i64toa (value : Int) : Text :=
  (if value < 0 then ['-'] else []) ++ u64toa (magnitude 64 value)

theorem lut_pair : ∀ d < 100, lut (d <<< 1) = Nat.digitChar (d / 10) ∧
    lut (d <<< 1 + 1) = Nat.digitChar (d % 10) := by decide +kernel

theorem digit_eq : ∀ a < 10, digit a = Nat.digitChar a := by decide

theorem lut_four {v : Nat} (h : v < 10000) :
    lut ((v / 100) <<< 1) = Nat.digitChar (v / 10 ^ 3 % 10) ∧
      lut ((v / 100) <<< 1 + 1) = Nat.digitChar (v / 10 ^ 2 % 10) ∧
      lut ((v % 100) <<< 1) = Nat.digitChar (v / 10 ^ 1 % 10) ∧
      lut ((v % 100) <<< 1 + 1) = Nat.digitChar (v % 10) := by
  obtain ⟨h1, h2⟩ := lut_pair (v / 100) (by omega)
  obtain ⟨h3, h4⟩ := lut_pair (v % 100) (by omega)
  rw [h1, h2, h3, h4]
  exact ⟨congrArg Nat.digitChar (by omega), congrArg Nat.digitChar (by omega),
    congrArg Nat.digitChar (by omega), congrArg Nat.digitChar (by omega)⟩

theorem four_eq {v : Nat} (h : v < 10000) :
    [lut ((v / 100) <<< 1), lut ((v / 100) <<< 1 + 1),
      lut ((v % 100) <<< 1), lut ((v % 100) <<< 1 + 1)] = padded 4 v := by
  obtain ⟨h1, h2, h3, h4⟩ := lut_four h
  rw [h1, h2, h3, h4, padded_succ, padded_succ, padded_succ, padded_succ]
  simp [padded]

theorem eight_eq {v : Nat} (h : v < 100000000) : eight v = padded 8 v := by
  have hb : v / 10000 < 10000 := by omega
  have hc : v % 10000 < 10000 := by omega
  have hpad : padded 4 (v % 10000) = padded 4 v := padded_mod 4 v
  have hsplit : padded 8 v = padded 4 (v / 10000) ++ padded 4 v := padded_add 4 4 v
  rw [hsplit, ← hpad, ← four_eq hb, ← four_eq hc]
  rfl

theorem below8_eq {value : Nat} (h : value < 100000000) : below8 value = Nat.toDigits 10 value := by
  rw [below8]
  split_ifs with hsmall
  · obtain ⟨h1, h2, h3, h4⟩ := lut_four hsmall
    simp only [h1, h2, h3, h4]
    exact trimmed_eq (k := 3) hsmall
  · have hb : value / 10000 < 10000 := by omega
    have hpos : 0 < value / 10000 := by omega
    obtain ⟨h1, h2, h3, h4⟩ := lut_four hb
    have hfront := trimmed_eq (n := value / 10000) (k := 3) hb
    have hback := toDigits_append (k := 4) hpos value rfl
    have hpad : padded 4 (value % 10000) = padded 4 value := padded_mod 4 value
    have hc : value % 10000 < 10000 := by omega
    have e3 : value ≥ 10000000 ↔ 10 ^ 3 ≤ value / 10000 := by omega
    have e2 : value ≥ 1000000 ↔ 10 ^ 2 ≤ value / 10000 := by omega
    have e1 : value ≥ 100000 ↔ 10 ^ 1 ≤ value / 10000 := by omega
    rw [hback, ← hfront, ← hpad, ← four_eq hc]
    simp only [h1, h2, h3, h4, put, trimmed, e3, e2, e1]

theorem front_eight {a value : Nat} {front : Text} (ha : 0 < a) (hdiv : value / 100000000 = a)
    (hfront : front = Nat.toDigits 10 a) :
    front ++ eight (value % 100000000) = Nat.toDigits 10 value := by
  have hpad : padded 8 (value % 100000000) = padded 8 value := padded_mod 8 value
  have hback := toDigits_append (k := 8) ha value hdiv
  rw [eight_eq (Nat.mod_lt _ (by omega)), hpad, hfront, hback]

theorem toDigits_two {a : Nat} (hlo : 10 ≤ a) (hhi : a < 100) :
    [lut (a <<< 1), lut (a <<< 1 + 1)] = Nat.toDigits 10 a := by
  obtain ⟨h1, h2⟩ := lut_pair a hhi
  rw [h1, h2, Nat.toDigits_of_base_le (by omega) hlo, Nat.toDigits_of_lt_base (by omega)]
  rfl

theorem toDigits_one {a : Nat} (h : a < 10) : [digit a] = Nat.toDigits 10 a := by
  rw [digit_eq a h, Nat.toDigits_of_lt_base h]

theorem toDigits_pair {a : Nat} (h : 100 ≤ a) :
    Nat.toDigits 10 (a / 100) ++ [lut ((a % 100) <<< 1), lut ((a % 100) <<< 1 + 1)] =
      Nat.toDigits 10 a := by
  obtain ⟨h1, h2⟩ := lut_pair (a % 100) (by omega)
  have hback := toDigits_append (a := a / 100) (k := 2) (by omega) a rfl
  have hten : a % 100 / 10 = a / 10 % 10 := by omega
  have hone : a % 100 % 10 = a % 10 := by omega
  rw [hback, h1, h2, hten, hone]
  rfl

theorem u32toa_eq {value : Nat} (h : value < 2 ^ 32) : u32toa value = Nat.toDigits 10 value := by
  rw [u32toa]
  split_ifs with hsmall
  · exact below8_eq hsmall
  · refine front_eight (by omega) rfl ?_
    split_ifs with ha
    · exact toDigits_two ha (by omega)
    · exact toDigits_one (by omega)

theorem eight_digits {v value : Nat} (h : v = value / 100000000) (hpos : 0 < v) (hv : v < 100000000) :
    put (value ≥ 1000000000000000) (lut ((v / 10000 / 100) <<< 1)) ++
      (put (value ≥ 100000000000000) (lut ((v / 10000 / 100) <<< 1 + 1)) ++
      (put (value ≥ 10000000000000) (lut ((v / 10000 % 100) <<< 1)) ++
      (put (value ≥ 1000000000000) (lut ((v / 10000 % 100) <<< 1 + 1)) ++
      (put (value ≥ 100000000000) (lut ((v % 10000 / 100) <<< 1)) ++
      (put (value ≥ 10000000000) (lut ((v % 10000 / 100) <<< 1 + 1)) ++
      (put (value ≥ 1000000000) (lut ((v % 10000 % 100) <<< 1)) ++
        [lut ((v % 10000 % 100) <<< 1 + 1)])))))) = Nat.toDigits 10 v := by
  obtain ⟨h7, h6, h5, h4⟩ := lut_four (v := v / 10000) (by omega)
  obtain ⟨h3, h2, h1, h0⟩ := lut_four (v := v % 10000) (by omega)
  rw [← trimmed_eq (k := 7) hv, h7, h6, h5, h4, h3, h2, h1, h0]
  have d7 : v / 10000 / 10 ^ 3 % 10 = v / 10 ^ 7 % 10 := by omega
  have d6 : v / 10000 / 10 ^ 2 % 10 = v / 10 ^ 6 % 10 := by omega
  have d5 : v / 10000 / 10 ^ 1 % 10 = v / 10 ^ 5 % 10 := by omega
  have d4 : v / 10000 % 10 = v / 10 ^ 4 % 10 := rfl
  have d3 : v % 10000 / 10 ^ 3 % 10 = v / 10 ^ 3 % 10 := by omega
  have d2 : v % 10000 / 10 ^ 2 % 10 = v / 10 ^ 2 % 10 := by omega
  have d1 : v % 10000 / 10 ^ 1 % 10 = v / 10 ^ 1 % 10 := by omega
  have d0 : v % 10000 % 10 = v % 10 := by omega
  have e7 : value ≥ 1000000000000000 ↔ 10 ^ 7 ≤ v := by omega
  have e6 : value ≥ 100000000000000 ↔ 10 ^ 6 ≤ v := by omega
  have e5 : value ≥ 10000000000000 ↔ 10 ^ 5 ≤ v := by omega
  have e4 : value ≥ 1000000000000 ↔ 10 ^ 4 ≤ v := by omega
  have e3 : value ≥ 100000000000 ↔ 10 ^ 3 ≤ v := by omega
  have e2 : value ≥ 10000000000 ↔ 10 ^ 2 ≤ v := by omega
  have e1 : value ≥ 1000000000 ↔ 10 ^ 1 ≤ v := by omega
  simp only [put, trimmed, d7, d6, d5, d4, d3, d2, d1, d0, e7, e6, e5, e4, e3, e2, e1]

theorem u64toa_eq {value : Nat} (h : value < 2 ^ 64) : u64toa value = Nat.toDigits 10 value := by
  rw [u64toa]
  split_ifs with hsmall hmid
  · exact below8_eq hsmall
  · exact front_eight (by omega) rfl (eight_digits rfl (by omega) (by omega))
  · have hdiv : value % 10000000000000000 % 100000000 = value % 100000000 := by omega
    have hmod : value % 10000000000000000 / 100000000 = value / 100000000 % 100000000 := by omega
    simp only [hdiv, hmod]
    refine front_eight (by omega) rfl (front_eight (a := value / 10000000000000000) (by omega)
      (by omega) ?_)
    split_ifs with h1 h2 h3
    · exact toDigits_one h1
    · exact toDigits_two (by omega) h2
    · rw [← toDigits_pair (by omega), ← toDigits_one (by omega)]
      rfl
    · rw [← toDigits_pair (by omega), ← toDigits_two (by omega) (by omega)]
      rfl

theorem intText_eq (n : Int) :
    intText n = (if n < 0 then ['-'] else []) ++ Nat.toDigits 10 n.natAbs := by
  cases n with
  | ofNat n =>
      rw [Int.ofNat_eq_natCast, intText_natCast, if_neg (by omega)]
      rfl
  | negSucc n =>
      rw [intText_negSucc, if_pos (Int.negSucc_lt_zero n)]
      rfl

theorem i32toa_eq {n : Int} (hlo : -2 ^ 31 ≤ n) (hhi : n < 2 ^ 31) : i32toa n = intText n := by
  have hmag : magnitude 32 n = n.natAbs := by
    rw [magnitude]
    split_ifs <;> omega
  rw [i32toa, hmag, u32toa_eq (by omega), intText_eq]

theorem i64toa_eq {n : Int} (hlo : -2 ^ 63 ≤ n) (hhi : n < 2 ^ 63) : i64toa n = intText n := by
  have hmag : magnitude 64 n = n.natAbs := by
    rw [magnitude]
    split_ifs <;> omega
  rw [i64toa, hmag, u64toa_eq (by omega), intText_eq]

theorem length_intText_le {n : Int} {k : Nat} (hk : 0 < k) (h : n.natAbs < 10 ^ k) :
    (intText n).length ≤ k + 1 := by
  have hdigits : (Nat.toDigits 10 n.natAbs).length ≤ k :=
    (Nat.length_toDigits_le_iff (by omega) hk).mpr h
  rw [intText_eq, List.length_append]
  split_ifs
  · rw [List.length_singleton]
    omega
  · rw [List.length_nil]
    omega

/-- Every integer of 32 or 64 bits is written as its decimal text. -/
theorem itoa_decimal :
    (∀ value < 2 ^ 32, u32toa value = intText value) ∧
      (∀ value : Int, -2 ^ 31 ≤ value → value < 2 ^ 31 → i32toa value = intText value) ∧
      (∀ value < 2 ^ 64, u64toa value = intText value) ∧
      ∀ value : Int, -2 ^ 63 ≤ value → value < 2 ^ 63 → i64toa value = intText value := by
  refine ⟨fun value h => ?_, fun value hlo hhi => i32toa_eq hlo hhi, fun value h => ?_,
    fun value hlo hhi => i64toa_eq hlo hhi⟩
  · rw [u32toa_eq h, intText_natCast]
  · rw [u64toa_eq h, intText_natCast]

theorem itoa_decimal_least : i64toa (-2 ^ 63) = intText (-2 ^ 63) :=
  itoa_decimal.2.2.2 (-2 ^ 63) (by decide) (by decide)

end SchemaCodeGen.Itoa
