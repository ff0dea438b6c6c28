import SchemaCodeGen.Itoa
import SchemaCodeGen.SoftFloats

namespace SchemaCodeGen.Grisu

open CString Decimal Floats Itoa Fallible Sax SoftFloats

def decrementLast (buffer : Text) : Step Text :=
  match buffer.getLast? with
  | none => .error .overrun
  | some c => .ok (buffer.dropLast ++ [Char.ofNat (c.toNat - 1)])

def grisuRound (delta tenKappa wpw : Nat) : Nat → Text → Nat → Step Text
  | 0, _, _ => .error .fuel
  | n + 1, buffer, rest =>
      if rest < wpw ∧ sub64 delta rest ≥ tenKappa ∧ (add64 rest tenKappa < wpw ∨
          sub64 wpw rest > sub64 (add64 rest tenKappa) wpw) then do
        grisuRound delta tenKappa wpw n (← decrementLast buffer) (add64 rest tenKappa)
      else .ok buffer

def countDecimalDigit32 (n : Nat) : Nat :=
  if n < 10 then 1
  else if n < 100 then 2
  else if n < 1000 then 3
  else if n < 10000 then 4
  else if n < 100000 then 5
  else if n < 1000000 then 6
  else if n < 10000000 then 7
  else if n < 100000000 then 8
  else 9

def kPow10 : List Nat :=
  [1, 10, 100, 1000, 10000, 100000, 1000000, 10000000, 100000000, 1000000000]

def pow10Entry (i : Nat) : Step Nat :=
  match kPow10[i]? with
  | some p => .ok p
  | none => .error .overrun

def unitOf (index : Nat) : Step Nat := if index < 9 then pow10Entry index else .ok 0

def push (buffer : Text) (d : Nat) : Text :=
  if d ≠ 0 ∨ buffer ≠ [] then buffer ++ [digit d] else buffer

section Generation

variable (shift : Int) (wpw : Nat)

def fractionDigits : Nat → Nat → Nat → Nat → Text → Step (Text × Nat)
  | 0, _, _, _, _ => .error .fuel
  | n + 1, index, p2, delta, buffer => do
      let one ← shl64 1 shift
      let p2 := mul64 p2 10
      let delta := mul64 delta 10
      let buffer := push buffer (p2 >>> shift.toNat)
      let p2 := p2 &&& (one - 1)
      let index := index + 1
      if p2 < delta then
        .ok (← grisuRound delta one (mul64 wpw (← unitOf index)) 10 buffer p2, index)
      else fractionDigits n index p2 delta buffer

/-- The digits in front of the point, where the generation may end already. -/
def integerDigits (p2 delta : Nat) : Nat → Nat → Text → Step (Text × Int)
  | 0, _, buffer => do
      let (buffer, index) ← fractionDigits shift wpw 20 0 p2 delta buffer
      .ok (buffer, -index)
  | kappa + 1, p1, buffer => do
      let d := p1 / 10 ^ kappa
      let p1 := p1 % 10 ^ kappa
      let buffer := push buffer d
      let tmp := add64 (← shl64 p1 shift) p2
      if tmp ≤ delta then
        let unit ← shl64 (← pow10Entry kappa) shift
        .ok (← grisuRound delta unit wpw 10 buffer tmp, kappa)
      else integerDigits p2 delta kappa p1 buffer

end Generation

def digitGen (W Mp : DiyFp) (delta : Nat) (K : Int) : Step (Text × Int) := do
  let one ← shl64 1 (-Mp.e)
  let wpw := Mp.sub W
  let p1 := Mp.f >>> (-Mp.e).toNat % 2 ^ 32
  let p2 := Mp.f &&& (one - 1)
  let (buffer, kappa) ← integerDigits (-Mp.e) wpw.f p2 delta (countDecimalDigit32 p1) p1 []
  .ok (buffer, K + kappa)

def grisu2 (value : ℚ) : Step (Text × Int) := do
  let v := DiyFp.ofDouble value
  let (wm, wp) ← v.normalizedBoundaries
  let (cmk, K) ← getCachedPower wp.e
  let W := (← v.normalize).mul cmk
  let Wp := wp.mul cmk
  let Wm := wm.mul cmk
  let Wm : DiyFp := ⟨add64 Wm.f 1, Wm.e⟩
  let Wp : DiyFp := ⟨sub64 Wp.f 1, Wp.e⟩
  digitGen W Wp (sub64 Wp.f Wm.f) K

section Buffer

def digits (D : Nat) : Text := if D = 0 then [] else Nat.toDigits 10 D

theorem digits_of_pos {D : Nat} (h : 0 < D) : digits D = Nat.toDigits 10 D := if_neg (by omega)

theorem toDigits_last (D : Nat) :
    ∃ t, Nat.toDigits 10 D = t ++ [Nat.digitChar (D % 10)] ∧ t = digits (D / 10) := by
  by_cases h : D < 10
  · refine ⟨[], ?_, ?_⟩
    · rw [Nat.toDigits_of_lt_base h, Nat.mod_eq_of_lt h, List.nil_append]
    · rw [Nat.div_eq_of_lt h]
      rfl
  · exact ⟨_, Nat.toDigits_of_base_le (by omega) (by omega), (digits_of_pos (by omega)).symm⟩

theorem push_digits (D : Nat) {d : Nat} (hd : d < 10) : push (digits D) d = digits (10 * D + d) := by
  by_cases hzero : 10 * D + d = 0
  · have hD : D = 0 := by omega
    have hd : d = 0 := by omega
    subst hD hd
    rfl
  · have hkeep : d ≠ 0 ∨ digits D ≠ [] := by
      by_cases hd0 : d = 0
      · rw [digits_of_pos (by omega)]
        exact .inr Nat.toDigits_ne_nil
      · exact .inl hd0
    obtain ⟨t, ht, rfl⟩ := toDigits_last (10 * D + d)
    have hdiv : (10 * D + d) / 10 = D := by omega
    have hmod : (10 * D + d) % 10 = d := by omega
    rw [push, if_pos hkeep, digits_of_pos (Nat.pos_of_ne_zero hzero), ht, hdiv, hmod, digit_eq d hd]

theorem decrement_digitChar : ∀ d < 10, 0 < d →
    Char.ofNat ((Nat.digitChar d).toNat - 1) = Nat.digitChar (d - 1) := by decide

theorem decrementLast_toDigits {D : Nat} (h : 0 < D % 10) :
    decrementLast (Nat.toDigits 10 D) = .ok (Nat.toDigits 10 (D - 1)) := by
  obtain ⟨t, ht, rfl⟩ := toDigits_last D
  obtain ⟨u, hu, rfl⟩ := toDigits_last (D - 1)
  have hdiv : (D - 1) / 10 = D / 10 := by omega
  have hmod : (D - 1) % 10 = D % 10 - 1 := by omega
  rw [decrementLast, ht, hu, hdiv, hmod]
  simp only [List.getLast?_concat, List.dropLast_concat,
    decrement_digitChar _ (Nat.mod_lt D (by omega)) h]

theorem grisuRound_eq {delta unit D D0 rest rest0 : Nat} (wpw : Nat) (hdelta : delta < 2 ^ 64)
    (hunit : 0 < unit) (hprev : 10 * D0 * unit + rest0 = D * unit + rest) (hstop : delta ≤ rest0)
    (hrest : rest ≤ delta) (hle : 10 * D0 ≤ D) (hlast : D < 10 * D0 + 10) {n : Nat}
    (hn : D < 10 * D0 + n) :
    ∃ D' rest', grisuRound delta unit wpw n (Nat.toDigits 10 D) rest = .ok (Nat.toDigits 10 D') ∧
      10 * D0 * unit + rest0 = D' * unit + rest' ∧ rest' ≤ delta ∧ 10 * D0 ≤ D' ∧ D' ≤ D := by
  induction n generalizing D rest with
  | zero => omega
  | succ n ih =>
      rw [grisuRound, sub64_eq hrest hdelta]
      split_ifs with hcond
      · have hroom : rest + unit ≤ delta := by omega
        have hlt : 10 * D0 < D := by
          by_contra hge
          have heq : D = 10 * D0 := by omega
          rw [heq] at hprev
          omega
        obtain ⟨E, rfl⟩ : ∃ E, D = E + 1 := ⟨D - 1, by omega⟩
        have hback : 10 * D0 * unit + rest0 = E * unit + (rest + unit) := by
          rw [hprev]
          ring
        obtain ⟨D', rest', hrun, htotal, hrest', hle', hD'⟩ :=
          ih hback hroom (by omega) (by omega) (by omega)
        refine ⟨D', rest', ?_, htotal, hrest', hle', by omega⟩
        rw [decrementLast_toDigits (by omega), ok_bind, add64_eq (by omega), Nat.add_sub_cancel, hrun]
      · exact ⟨D, rest, rfl, hprev, hrest, hle, le_rfl⟩

end Buffer

section Generated

/-- The digits stand for a number in the interval below the upper boundary, and the interval is
less than ten units of the last digit wide. The boundary `T` and the width `delta` are counted in
units of `one`. -/
def Generated (one T delta : Nat) (text : Text) (kappa : Int) : Prop :=
  ∃ D a m : Nat, text = Nat.toDigits 10 D ∧ kappa = a - m ∧ 0 < D ∧
    D * (10 ^ a * one) ≤ T * 10 ^ m ∧ T * 10 ^ m ≤ D * (10 ^ a * one) + delta * 10 ^ m ∧
    delta * 10 ^ m ≤ 10 * (10 ^ a * one)

theorem pow10Entry_eq {i : Nat} (h : i < 10) : pow10Entry i = .ok (10 ^ i) := by
  have hall : ∀ i < 10, pow10Entry i = .ok (10 ^ i) := by decide
  exact hall i h

theorem unitOf_ok (index : Nat) : ∃ u, unitOf index = .ok u := by
  rw [unitOf]
  split_ifs
  · exact ⟨_, pow10Entry_eq (by omega)⟩
  · exact ⟨_, rfl⟩

variable {s : Nat} {T delta : Nat}

theorem fractionDigits_eq (wpw : Nat) (hs : s ≤ 60) {n m p2 D : Nat} (hD : 0 < D) (hdelta : 0 < delta)
    (htotal : T * 10 ^ m = D * 2 ^ s + p2) (hp2 : p2 < 2 ^ s) (hstop : delta * 10 ^ m ≤ p2)
    (hn : m + n = 20) :
    ∃ D' m', fractionDigits s wpw n m p2 (delta * 10 ^ m) (Nat.toDigits 10 D) =
        .ok (Nat.toDigits 10 D', m') ∧ 0 < D' ∧ D' * 2 ^ s ≤ T * 10 ^ m' ∧
      T * 10 ^ m' ≤ D' * 2 ^ s + delta * 10 ^ m' ∧ delta * 10 ^ m' ≤ 10 * 2 ^ s := by
  have hwide : 2 ^ s ≤ 2 ^ 60 := Nat.pow_le_pow_right (by omega) hs
  have hpos : 0 < 2 ^ s := Nat.two_pow_pos s
  induction n generalizing m p2 D with
  | zero =>
      have hm : m = 20 := by omega
      subst hm
      omega
  | succ n ih =>
      have hone : shl64 1 s = .ok (2 ^ s) := by
        rw [shl64_eq s rfl (by omega) (by omega), one_mul]
      obtain ⟨d, hd⟩ : ∃ d, p2 * 10 / 2 ^ s = d := ⟨_, rfl⟩
      obtain ⟨q2, hq2⟩ : ∃ q2, p2 * 10 % 2 ^ s = q2 := ⟨_, rfl⟩
      have hsplit : p2 * 10 = d * 2 ^ s + q2 := by
        rw [← hd, ← hq2, mul_comm _ (2 ^ s), Nat.div_add_mod]
      have hq2lt : q2 < 2 ^ s := hq2 ▸ Nat.mod_lt _ hpos
      have hd10 : d < 10 := by
        rw [← hd, Nat.div_lt_iff_lt_mul hpos]
        omega
      have hten : T * 10 ^ (m + 1) = (10 * D + d) * 2 ^ s + q2 := by
        calc T * 10 ^ (m + 1) = T * 10 ^ m * 10 := by rw [pow_succ, mul_assoc]
          _ = 10 * D * 2 ^ s + p2 * 10 := by rw [htotal]; ring
          _ = (10 * D + d) * 2 ^ s + q2 := by rw [hsplit]; ring
      have hdelta' : delta * 10 ^ m * 10 = delta * 10 ^ (m + 1) := by rw [pow_succ, mul_assoc]
      have hpush : push (Nat.toDigits 10 D) d = Nat.toDigits 10 (10 * D + d) := by
        rw [← digits_of_pos hD, push_digits D hd10, digits_of_pos (by omega)]
      have hmask : ∀ k, k &&& (2 ^ s - 1) = k % 2 ^ s := fun k => Nat.and_two_pow_sub_one_eq_mod k s
      simp only [fractionDigits, hone, ok_bind, Int.toNat_natCast, Nat.shiftRight_eq_div_pow, hmask,
        mul64_eq (show p2 * 10 < 2 ^ 64 by omega), mul64_eq (show delta * 10 ^ m * 10 < 2 ^ 64 by omega),
        hd, hq2, hdelta', hpush]
      obtain ⟨u, hu⟩ := unitOf_ok (m + 1)
      by_cases hend : q2 < delta * 10 ^ (m + 1)
      · have hprev : 10 * D * 2 ^ s + p2 * 10 = (10 * D + d) * 2 ^ s + q2 := by
          rw [hsplit]
          ring
        obtain ⟨D', rest', hrun, hback, hrest', hle, _⟩ := grisuRound_eq (mul64 wpw u)
          (show delta * 10 ^ (m + 1) < 2 ^ 64 by omega) hpos hprev (by omega) hend.le (by omega)
          (by omega) (show 10 * D + d < 10 * D + 10 by omega)
        have htop : T * 10 ^ (m + 1) = D' * 2 ^ s + rest' := by rw [hten, ← hprev, hback]
        refine ⟨D', m + 1, ?_, by omega, by omega, by omega, by omega⟩
        rw [if_pos hend, hu, ok_bind, hrun, ok_bind]
      · rw [if_neg hend]
        exact ih (by omega) hten hq2lt (by omega) (by omega)

/-- Below 10^kappa there is an end to the digits. -/
theorem integerDigits_eq (wpw : Nat) (hs : s ≤ 60) {kappa p1 p2 D : Nat} (hk : kappa < 10)
    (hT : T < 2 ^ 64) (hdelta : 0 < delta) (htotal : T = D * (10 ^ kappa * 2 ^ s) + (p1 * 2 ^ s + p2))
    (hp1 : p1 < 10 ^ kappa) (hp2 : p2 < 2 ^ s) (hstop : delta < p1 * 2 ^ s + p2)
    (hD : 0 < D ∨ 0 < p1) :
    ∃ text k, integerDigits s wpw p2 delta kappa p1 (digits D) = .ok (text, k) ∧
      Generated (2 ^ s) T delta text k := by
  have hpos : 0 < 2 ^ s := Nat.two_pow_pos s
  induction kappa generalizing p1 D with
  | zero =>
      have hp1 : p1 = 0 := by simpa using hp1
      subst hp1
      have hDpos : 0 < D := hD.resolve_right (by omega)
      obtain ⟨D', m', hrun, hD', hupper, hlower, hcoarse⟩ := @fractionDigits_eq s T delta wpw hs 20 0 p2 D
        hDpos hdelta (by simpa using htotal) hp2 (by omega) rfl
      refine ⟨_, -(m' : Int), ?_, D', 0, m', rfl, by simp, hD', by simpa using hupper,
        by simpa using hlower, by simpa using hcoarse⟩
      rw [pow_zero, mul_one] at hrun
      rw [integerDigits, digits_of_pos hDpos, hrun, ok_bind]
  | succ kappa ih =>
      obtain ⟨d, hd⟩ : ∃ d, p1 / 10 ^ kappa = d := ⟨_, rfl⟩
      obtain ⟨q1, hq1⟩ : ∃ q1, p1 % 10 ^ kappa = q1 := ⟨_, rfl⟩
      have hten : 0 < 10 ^ kappa := Nat.pow_pos (by omega)
      have hsplit : p1 = d * 10 ^ kappa + q1 := by rw [← hd, ← hq1, mul_comm _ (10 ^ kappa), Nat.div_add_mod]
      have hq1lt : q1 < 10 ^ kappa := hq1 ▸ Nat.mod_lt _ hten
      have hd10 : d < 10 := by
        rw [← hd, Nat.div_lt_iff_lt_mul hten, mul_comm, ← pow_succ]
        exact hp1
      have hprev : 10 * D * (10 ^ kappa * 2 ^ s) + (p1 * 2 ^ s + p2) =
          (10 * D + d) * (10 ^ kappa * 2 ^ s) + (q1 * 2 ^ s + p2) := by
        rw [hsplit]
        ring
      have hcarry : T = (10 * D + d) * (10 ^ kappa * 2 ^ s) + (q1 * 2 ^ s + p2) := by
        rw [← hprev, htotal, pow_succ]
        ring
      have hle : q1 * 2 ^ s + p2 ≤ T := by
        rw [hcarry]
        exact Nat.le_add_left _ _
      have hshift : shl64 q1 s = .ok (q1 * 2 ^ s) := shl64_eq s rfl (by omega) (by omega)
      simp only [integerDigits, hd, hq1, hshift, ok_bind, push_digits D hd10,
        add64_eq (show q1 * 2 ^ s + p2 < 2 ^ 64 by omega)]
      by_cases hend : q1 * 2 ^ s + p2 ≤ delta
      · have hpos' : 0 < 10 * D + d := by
          by_contra hzero
          have hD0 : D = 0 := by omega
          have hd0 : d = 0 := by omega
          rw [hD0, hd0, Nat.mul_zero, Nat.add_zero, Nat.zero_mul, Nat.zero_add, Nat.zero_add] at hprev
          omega
        have hunit : 10 ^ kappa * 2 ^ s ≤ T := by
          rw [hcarry]
          exact Nat.le_add_right_of_le (Nat.le_mul_of_pos_left _ hpos')
        have hroom : p1 * 2 ^ s + p2 < 10 * (10 ^ kappa * 2 ^ s) := by
          calc p1 * 2 ^ s + p2 < (p1 + 1) * 2 ^ s := by rw [add_mul]; omega
            _ ≤ 10 ^ (kappa + 1) * 2 ^ s := Nat.mul_le_mul_right _ hp1
            _ = 10 * (10 ^ kappa * 2 ^ s) := by rw [pow_succ]; ring
        obtain ⟨D', rest', hrun, hback, hrest', hle', _⟩ := grisuRound_eq wpw (by omega)
          (Nat.mul_pos hten hpos) hprev hstop.le hend (by omega) (by omega)
          (show 10 * D + d < 10 * D + 10 by omega)
        have htop : T = D' * (10 ^ kappa * 2 ^ s) + rest' := by rw [hcarry, ← hprev, hback]
        have hD' : 0 < D' := by
          by_contra hzero
          have hzero : D' = 0 := by omega
          have hD0 : D = 0 := by omega
          rw [hzero, hD0, Nat.mul_zero, Nat.zero_mul, Nat.zero_add, Nat.zero_add] at hback
          omega
        refine ⟨Nat.toDigits 10 D', kappa, ?_, D', kappa, 0, rfl, by simp, hD', ?_, ?_, ?_⟩
        · rw [if_pos hend, pow10Entry_eq (by omega), ok_bind, shl64_eq s rfl (by omega) (by omega),
            ok_bind, digits_of_pos hpos', hrun, ok_bind]
        · rw [pow_zero, mul_one]
          omega
        · rw [pow_zero, mul_one, mul_one]
          omega
        · rw [pow_zero, mul_one]
          omega
      · rw [if_neg hend]
        exact ih (by omega) hcarry hq1lt (by omega) (by
          by_contra hnone
          have hd0 : d = 0 := by omega
          have hq0 : q1 = 0 := by omega
          rw [hd0, hq0, Nat.zero_mul] at hsplit
          omega)

theorem countDecimalDigit32_bounds {n : Nat} (h : n < 10 ^ 9) :
    countDecimalDigit32 n < 10 ∧ n < 10 ^ countDecimalDigit32 n := by
  rw [countDecimalDigit32]
  split_ifs <;> exact ⟨by omega, by omega⟩

theorem digitGen_eq (W : DiyFp) (K : Int) (hs : s ≤ 60) (hT : T < 2 ^ 64) (hlarge : 2 ^ s ≤ T)
    (hsmall : T < 10 ^ 9 * 2 ^ s) (hdelta : 0 < delta) (hstop : delta < T) :
    ∃ text k, digitGen W ⟨T, -(s : Int)⟩ delta K = .ok (text, K + k) ∧
      Generated (2 ^ s) T delta text k := by
  have hpos : 0 < 2 ^ s := Nat.two_pow_pos s
  have hwide : 2 ^ s ≤ 2 ^ 60 := Nat.pow_le_pow_right (by omega) hs
  have hp1 : T / 2 ^ s < 10 ^ 9 := by rwa [Nat.div_lt_iff_lt_mul hpos]
  have hsplit : T = T / 2 ^ s * 2 ^ s + T % 2 ^ s := by rw [mul_comm, Nat.div_add_mod]
  obtain ⟨hk, hcount⟩ := countDecimalDigit32_bounds hp1
  obtain ⟨text, k, hrun, hgen⟩ := @integerDigits_eq s T delta
    (DiyFp.sub ⟨T, -(s : Int)⟩ W).f hs (countDecimalDigit32 (T / 2 ^ s)) (T / 2 ^ s) (T % 2 ^ s) 0 hk hT
    hdelta (by rw [zero_mul, zero_add]; exact hsplit) hcount (Nat.mod_lt _ hpos)
    (by rw [← hsplit]; exact hstop) (.inr (Nat.div_pos hlarge hpos))
  refine ⟨text, k, ?_, hgen⟩
  have hone : shl64 1 s = .ok (2 ^ s) := by
    rw [shl64_eq s rfl (by omega) (by omega), one_mul]
  simp only [digitGen, neg_neg, hone, ok_bind, Int.toNat_natCast, Nat.shiftRight_eq_div_pow,
    Nat.mod_eq_of_lt (show T / 2 ^ s < 2 ^ 32 by omega), Nat.and_two_pow_sub_one_eq_mod]
  rw [show ([] : Text) = digits 0 from rfl, hrun, ok_bind]

end Generated

section Boundaries

theorem scaled_bounds {p m F P M : Nat} (hp63 : 2 ^ 63 ≤ p) (hp64 : p < 2 ^ 64)
    (hwide : p + 10 ^ 16 * (m + 6) ≤ 10 ^ 16 * p) (hF63 : 2 ^ 63 ≤ F)
    (hP : (p * F + 2 ^ 63) / 2 ^ 64 = P) (hM : (m * F + 2 ^ 63) / 2 ^ 64 = M) :
    P ≤ F ∧ 2 ^ 60 < P ∧ M + 2 < P ∧ P - 1 < 10 ^ 16 * (P - 1 - (M + 1)) := by
  have hlow : 2 ^ 63 * 2 ^ 63 ≤ p * F := Nat.mul_le_mul hp63 hF63
  have hhigh : p * F ≤ (2 ^ 64 - 1) * F := Nat.mul_le_mul_right F (by omega)
  have hdistance : p * F + 10 ^ 16 * (m * F + 6 * F) ≤ 10 ^ 16 * (p * F) := by
    calc p * F + 10 ^ 16 * (m * F + 6 * F) = (p + 10 ^ 16 * (m + 6)) * F := by ring
      _ ≤ 10 ^ 16 * p * F := Nat.mul_le_mul_right F hwide
      _ = 10 ^ 16 * (p * F) := by ring
  obtain ⟨A, hA⟩ : ∃ A, p * F = A := ⟨_, rfl⟩
  obtain ⟨B, hB⟩ : ∃ B, m * F = B := ⟨_, rfl⟩
  rw [hA] at hP hlow hhigh hdistance
  rw [hB] at hM hdistance
  refine ⟨by omega, by omega, by omega, by omega⟩

theorem boundaries_wide {f t m : Nat} (hf : f ≠ 0) (hm : 2 * m = below f * 2 ^ t) (ht : 10 ≤ t)
    (hlt : (2 * f + 1) * 2 ^ t < 2 ^ 64) (hhidden : f = kDpHiddenBit → t = 10) :
    (2 * f + 1) * 2 ^ t + 10 ^ 16 * (m + 6) ≤ 10 ^ 16 * ((2 * f + 1) * 2 ^ t) := by
  by_cases h : f = kDpHiddenBit
  · have h52 : f = 2 ^ 52 := h
    rw [below, if_pos h, hhidden h, h52] at hm
    rw [hhidden h, h52]
    omega
  · have hpow : 2 ^ 10 ≤ 2 ^ t := Nat.pow_le_pow_right (by omega) ht
    have hdistance : (2 * f + 1) * 2 ^ t = m + 2 * 2 ^ t := by
      rw [below, if_neg h] at hm
      obtain ⟨g, rfl⟩ : ∃ g, f = g + 1 := ⟨f - 1, by omega⟩
      have hsub : 4 * (g + 1) - 2 = 4 * g + 2 := by omega
      rw [hsub] at hm
      have hm' : 2 * m = 2 * ((2 * g + 1) * 2 ^ t) := by
        rw [hm]
        ring
      rw [Nat.eq_of_mul_eq_mul_left (by omega) hm']
      ring
    rw [hdistance] at hlt ⊢
    obtain ⟨w, hw⟩ : ∃ w, 2 ^ t = w := ⟨_, rfl⟩
    rw [hw] at hpow hlt ⊢
    linarith

theorem boundary_values {f m t n : Nat} {e : Int} (hm : 2 * m = below f * 2 ^ t)
    (hn : e - 1 - (t : Int) = n - 1137) :
    ((2 * f + 1) * 2 ^ t : Nat) * (2 : ℚ) ^ ((n : Int) - 1137) = (2 * f + 1) * (2 : ℚ) ^ (e - 1) ∧
      m * (2 : ℚ) ^ ((n : Int) - 1137) = below f * (2 : ℚ) ^ (e - 2) := by
  constructor
  · have hsplit : e - 1 = (t : Int) + (n - 1137) := by omega
    rw [hsplit, zpow_add₀ (by norm_num), zpow_natCast, ← mul_assoc]
    push_cast
    ring
  · have hsplit : e - 2 = (t : Int) + (n - 1137) - 1 := by omega
    have hdouble : (2 * m : ℚ) = below f * 2 ^ t := by exact_mod_cast hm
    have hhalf : (m : ℚ) = below f * 2 ^ t / 2 := by linarith
    rw [hsplit, zpow_sub_one₀ (by norm_num), zpow_add₀ (by norm_num), zpow_natCast, hhalf]
    ring

theorem scaled_units (a l s : Nat) : (10 : ℚ) ^ (a - l : Int) * (10 ^ l * 2 ^ s) = 10 ^ a * 2 ^ s ∧
    (2 : ℚ) ^ (-(s : Int)) * (10 ^ l * 2 ^ s) = 10 ^ l := by
  rw [zpow_sub₀ (by norm_num), zpow_natCast, zpow_natCast, zpow_neg, zpow_natCast]
  constructor <;> field_simp

theorem scaled_le {a l s : Nat} {x y : ℚ} :
    x * (10 : ℚ) ^ (a - l : Int) ≤ y * (2 : ℚ) ^ (-(s : Int)) ↔ x * (10 ^ a * 2 ^ s) ≤ y * 10 ^ l := by
  have hscale : (0 : ℚ) < 10 ^ l * 2 ^ s := by positivity
  obtain ⟨htens, htwos⟩ := scaled_units a l s
  rw [← mul_le_mul_iff_of_pos_right hscale, mul_assoc, htens, mul_assoc, htwos]

theorem le_scaled {a l s : Nat} {x y : ℚ} :
    y * (2 : ℚ) ^ (-(s : Int)) ≤ x * (10 : ℚ) ^ (a - l : Int) ↔ y * 10 ^ l ≤ x * (10 ^ a * 2 ^ s) := by
  have hscale : (0 : ℚ) < 10 ^ l * 2 ^ s := by positivity
  obtain ⟨htens, htwos⟩ := scaled_units a l s
  rw [← mul_le_mul_iff_of_pos_right hscale, mul_assoc, htwos, mul_assoc, htens]

/-- The digits of a double lie between the boundaries to its neighbours, and are no more
than 17. -/
theorem grisu2_eq {value : ℚ} {v : DiyFp} (hv : DiyFp.ofDouble value = v) (hf : v.f ≠ 0)
    (hlt : v.f < 2 ^ 53) (hlo : -1074 ≤ v.e) (hhi : v.e ≤ 971) :
    ∃ D K, grisu2 value = .ok (Nat.toDigits 10 D, K) ∧ 0 < D ∧ D < 10 ^ 17 ∧
      below v.f * (2 : ℚ) ^ (v.e - 2) < D * (10 : ℚ) ^ K ∧
      D * (10 : ℚ) ^ K < (2 * v.f + 1) * (2 : ℚ) ^ (v.e - 1) := by
  obtain ⟨t, m, hboundaries, hm, ht, hplo, hphi, hhidden⟩ := normalizedBoundaries_eq hf hlt
  obtain ⟨p, hp⟩ : ∃ p, (2 * v.f + 1) * 2 ^ t = p := ⟨_, rfl⟩
  rw [hp] at hboundaries hplo hphi
  have ht62 : t ≤ 62 := by
    by_contra hgt
    have hpow : 2 ^ 63 ≤ 2 ^ t := Nat.pow_le_pow_right (by omega) (by omega)
    have hthree : 3 * 2 ^ t ≤ p := by
      rw [← hp]
      exact Nat.mul_le_mul_right _ (by omega)
    omega
  obtain ⟨n, hn⟩ : ∃ n : Nat, v.e - 1 - (t : Int) = n - 1137 := ⟨(v.e - 1 - t + 1137).toNat, by omega⟩
  have hn2098 : n < 2098 := by omega
  obtain ⟨hi, hs, hs34, hs60, hsmall⟩ := powerIndex_bounds hn2098
  have hpower := getCachedPower_eq hn2098
  rw [hn] at hboundaries
  obtain ⟨i, hidx⟩ : ∃ i, powerIndex n = i := ⟨_, rfl⟩
  obtain ⟨s, hshift⟩ : ∃ s, pointShift n = s := ⟨_, rfl⟩
  rw [hidx] at hi hs hsmall hpower
  rw [hshift] at hs hs34 hs60 hsmall
  obtain ⟨hF63, hF64, _⟩ := cached_bounds i hi
  obtain ⟨P, hP⟩ : ∃ P, (p * cachedF i + 2 ^ 63) / 2 ^ 64 = P := ⟨_, rfl⟩
  obtain ⟨M, hM⟩ : ∃ M, (m * cachedF i + 2 ^ 63) / 2 ^ 64 = M := ⟨_, rfl⟩
  have hwide := boundaries_wide hf hm ht (by rw [hp]; exact hphi) hhidden
  rw [hp] at hwide
  obtain ⟨hPF, hP60, hMP, hratio⟩ := scaled_bounds hplo hphi hwide hF63 hP hM
  have hone : 2 ^ s ≤ 2 ^ 60 := Nat.pow_le_pow_right (by omega) hs60
  have hexp : ((n : Int) - 1137) + (cached i).e + 64 = -(s : Int) := by
    simp only [cached]
    omega
  have hupperMul : DiyFp.mul ⟨p, n - 1137⟩ (cached i) = ⟨P, -(s : Int)⟩ := by
    rw [mul_eq hphi hF64, DiyFp.mk.injEq]
    exact ⟨hP, hexp⟩
  have hlowerMul : DiyFp.mul ⟨m, n - 1137⟩ (cached i) = ⟨M, -(s : Int)⟩ := by
    rw [mul_eq (show m < 2 ^ 64 by omega) hF64, DiyFp.mk.injEq]
    exact ⟨hM, hexp⟩
  have hnormal := normalize_eq hf (show v.f < 2 ^ 64 by omega)
  obtain ⟨text, k, hrun, D, a, l, rfl, rfl, hD, hupper, hlower, hcoarse⟩ := @digitGen_eq s (P - 1)
    (P - 1 - (M + 1)) (DiyFp.mul ⟨v.f * 2 ^ (63 - Nat.log2 v.f), v.e - (63 - Nat.log2 v.f : Nat)⟩ (cached i))
    (348 - 8 * i) hs60 (by omega) (by omega) (by omega) (by omega) (by omega)
  have hten : (0 : ℚ) < (10 : ℚ) ^ (8 * i - 348 : Int) := zpow_pos (by norm_num) _
  have hupperNear := @mul_cached_near ⟨p, n - 1137⟩ hphi i hi
  have hlowerNear := @mul_cached_near ⟨m, n - 1137⟩ (show m < 2 ^ 64 by omega) i hi
  rw [hupperMul, hexp] at hupperNear
  rw [hlowerMul, hexp] at hlowerNear
  simp only [DiyFp.value] at hupperNear hlowerNear
  obtain ⟨hupperValue, hlowerValue⟩ := boundary_values hm hn
  rw [hp] at hupperValue
  have hshifted : D * (10 : ℚ) ^ (348 - 8 * i + (a - l) : Int) * (10 : ℚ) ^ (8 * i - 348 : Int) =
      D * (10 : ℚ) ^ (a - l : Int) := by
    rw [mul_assoc, ← zpow_add₀ (by norm_num)]
    congr 2
    ring
  have hupper' : D * (10 : ℚ) ^ (a - l : Int) ≤ (P - 1) * (2 : ℚ) ^ (-(s : Int)) := by
    have h : (D * (10 ^ a * 2 ^ s) : ℚ) ≤ ((P - 1 : Nat) : ℚ) * 10 ^ l := by exact_mod_cast hupper
    rw [Nat.cast_sub (by omega), Nat.cast_one] at h
    exact scaled_le.mpr h
  have hlower' : (M + 1) * (2 : ℚ) ^ (-(s : Int)) ≤ D * (10 : ℚ) ^ (a - l : Int) := by
    have hsub : (P - 1) * 10 ^ l = (M + 1) * 10 ^ l + (P - 1 - (M + 1)) * 10 ^ l := by
      rw [← add_mul]
      congr 1
      omega
    have h : (M + 1) * 10 ^ l ≤ D * (10 ^ a * 2 ^ s) := by omega
    exact le_scaled.mpr (by exact_mod_cast h)
  refine ⟨D, 348 - 8 * i + (a - l), ?_, hD, ?_, ?_, ?_⟩
  · simp only [grisu2, hv, hboundaries, ok_bind, hpower, hnormal, hupperMul, hlowerMul,
      add64_eq (show M + 1 < 2 ^ 64 by omega), sub64_eq (show 1 ≤ P by omega) (show P < 2 ^ 64 by omega),
      sub64_eq (show M + 1 ≤ P - 1 by omega) (show P - 1 < 2 ^ 64 by omega), hrun]
  · -- The interval is wider than the upper boundary without its last 16 digits.
    have hten : 0 < 10 ^ l := Nat.pow_pos (by omega)
    have hunit : 0 < 10 ^ a * 2 ^ s := Nat.mul_pos (Nat.pow_pos (by omega)) (Nat.two_pow_pos s)
    refine Nat.lt_of_mul_lt_mul_right (a := 10 ^ a * 2 ^ s) ?_
    calc D * (10 ^ a * 2 ^ s) ≤ (P - 1) * 10 ^ l := hupper
      _ < 10 ^ 16 * (P - 1 - (M + 1)) * 10 ^ l := Nat.mul_lt_mul_of_pos_right hratio hten
      _ = 10 ^ 16 * ((P - 1 - (M + 1)) * 10 ^ l) := by ring
      _ ≤ 10 ^ 16 * (10 * (10 ^ a * 2 ^ s)) := Nat.mul_le_mul_left _ hcoarse
      _ = 10 ^ 17 * (10 ^ a * 2 ^ s) := by ring
  · rw [← hlowerValue]
    refine lt_of_mul_lt_mul_right ?_ hten.le
    calc m * (2 : ℚ) ^ ((n : Int) - 1137) * (10 : ℚ) ^ (8 * i - 348 : Int)
        < (M + 1) * (2 : ℚ) ^ (-(s : Int)) := by linarith [(abs_lt.mp hlowerNear).1]
      _ ≤ D * (10 : ℚ) ^ (a - l : Int) := hlower'
      _ = D * (10 : ℚ) ^ (348 - 8 * i + (a - l) : Int) * (10 : ℚ) ^ (8 * i - 348 : Int) := hshifted.symm
  · rw [← hupperValue]
    refine lt_of_mul_lt_mul_right ?_ hten.le
    calc D * (10 : ℚ) ^ (348 - 8 * i + (a - l) : Int) * (10 : ℚ) ^ (8 * i - 348 : Int)
        = D * (10 : ℚ) ^ (a - l : Int) := hshifted
      _ ≤ (P - 1) * (2 : ℚ) ^ (-(s : Int)) := hupper'
      _ < p * (2 : ℚ) ^ ((n : Int) - 1137) * (10 : ℚ) ^ (8 * i - 348 : Int) := by
        linarith [(abs_lt.mp hupperNear).2]

end Boundaries

end SchemaCodeGen.Grisu
