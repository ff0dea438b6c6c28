import Mathlib.Tactic.IntervalCases
import Mathlib.Tactic.Linarith
import Mathlib.Tactic.Ring
import SchemaCodeGen.Itoa

namespace SchemaCodeGen.Jeaiii

open CString Decimal Digits Itoa

section Macros

def s_100s : Text :=
  ("00102030405060708090" ++ "01112131415161718191" ++ "02122232425262728292" ++
    "03132333435363738393" ++ "04142434445464748494" ++ "05152535455565758595" ++
    "06162636465666768696" ++ "07172737475767778797" ++ "08182838485868788898" ++
    "09192939495969798999").toList

/-- Two bytes of the table, the low one first. There are none behind its end. -/
def W (i : Nat) : Option Text :=
  if i < 100 then some [s_100s.getD (2 * i + 1) nul, s_100s.getD (2 * i) nul] else none

def A (N u : Nat) : Nat :=
  let shift := N / 5 * N * 53 / 16
  let t := 2 ^ (32 + shift) / 10 ^ N + 1 - N / 9
  let t := t * u % 2 ^ 64
  let t := t / 2 ^ shift
  (t + N / 5 * 4) % 2 ^ 64

def D (t : Nat) : Option Text := W (t / 2 ^ 32)

def E (t : Nat) : Nat := 100 * (t % 2 ^ 32) % 2 ^ 64

def Q (t : Nat) : Char := digit (10 * (t % 2 ^ 32) % 2 ^ 64 / 2 ^ 32)

def behind : Nat → Nat → Option Text
  | 0, _ => some []
  | 1, t => some [Q t]
  | n + 2, t => do
      let t := E t
      some ((← D t) ++ (← behind n t))

/-- The macros `L0` to `L9`, which write one character more than their number says. -/
def L : Nat → Nat → Option Text
  | 0, u => some [digit u]
  | 1, u => W u
  | k + 2, u => do
      let t := A (k + 1) u
      some ((← D t) ++ (← behind (k + 1) t))

def LN (u N : Nat) : Option Text := L N u

def LZ (u N : Nat) : Option Text := do some ((← L N u) ++ [nul])

def LG (u : Nat) (F : Nat → Option Text) : Option Text :=
  if u < 100 then if u < 10 then F 0 else F 1
  else if u < 1000000 then
    if u < 10000 then if u < 1000 then F 2 else F 3
    else if u < 100000 then F 4 else F 5
  else if u < 100000000 then if u < 10000000 then F 6 else F 7
  else if u < 1000000000 then F 8 else F 9

end Macros

def u32toaJeaiii (u : Nat) : Option Text := LG u (LZ u)

def negated (bits : Nat) (i : Int) : Nat := (2 ^ bits - (i % 2 ^ bits).toNat) % 2 ^ bits

def i32toaJeaiii (i : Int) : Option Text :=
  if i < 0 then do some ('-' :: (← u32toaJeaiii (negated 32 i))) else u32toaJeaiii i.toNat

def u64toaJeaiii (n : Nat) : Option Text :=
  if n / 2 ^ 32 = 0 then
    let u := n % 2 ^ 32
    LG u (LZ u)
  else
    let a := n / 100000000
    if a / 2 ^ 32 = 0 then do
      let u := a % 2 ^ 32
      let front ← LG u (LN u)
      some (front ++ (← LZ (n % 100000000) 7))
    else do
      let u := a / 100000000 % 2 ^ 32
      let front ← LG u (LN u)
      let middle ← LN (a % 100000000) 7
      some (front ++ middle ++ (← LZ (n % 100000000) 7))

def i64toaJeaiii (i : Int) : Option Text :=
  if i < 0 then do some ('-' :: (← u64toaJeaiii (negated 64 i))) else u64toaJeaiii i.toNat

section Fractions

/-- The fraction is the number of `N` places, rounded up by less than a unit of the last. -/
def Tracks (N u t : Nat) : Prop := u * 2 ^ 32 ≤ t * 10 ^ N ∧ t * 10 ^ N < (u + 1) * 2 ^ 32

variable {N u t : Nat}

theorem Tracks.front (h : Tracks N u t) : t / 2 ^ 32 = u / 10 ^ N := by
  have hten : 0 < 10 ^ N := Nat.pow_pos (by omega)
  obtain ⟨hlo, hhi⟩ := h
  refine Nat.div_eq_of_lt_le ?_ ?_
  · have hle : u / 10 ^ N * 10 ^ N ≤ u := Nat.div_mul_le_self u _
    have h : u / 10 ^ N * 2 ^ 32 * 10 ^ N ≤ t * 10 ^ N :=
      calc u / 10 ^ N * 2 ^ 32 * 10 ^ N = u / 10 ^ N * 10 ^ N * 2 ^ 32 := by ring
        _ ≤ u * 2 ^ 32 := Nat.mul_le_mul_right _ hle
        _ ≤ t * 10 ^ N := hlo
    exact Nat.le_of_mul_le_mul_right h hten
  · have hlt : u + 1 ≤ (u / 10 ^ N + 1) * 10 ^ N := Nat.lt_mul_of_div_lt (Nat.lt_succ_self _) hten
    have h : t * 10 ^ N < (u / 10 ^ N + 1) * 2 ^ 32 * 10 ^ N :=
      calc t * 10 ^ N < (u + 1) * 2 ^ 32 := hhi
        _ ≤ (u / 10 ^ N + 1) * 10 ^ N * 2 ^ 32 := Nat.mul_le_mul_right _ hlt
        _ = (u / 10 ^ N + 1) * 2 ^ 32 * 10 ^ N := by ring
    exact Nat.lt_of_mul_lt_mul_right h

theorem Tracks.behind (h : Tracks N u t) : Tracks N (u % 10 ^ N) (t % 2 ^ 32) := by
  have hfront := h.front
  obtain ⟨q, hq⟩ : ∃ q, u / 10 ^ N = q := ⟨_, rfl⟩
  obtain ⟨l, hl⟩ : ∃ l, t % 2 ^ 32 = l := ⟨_, rfl⟩
  obtain ⟨r, hr⟩ : ∃ r, u % 10 ^ N = r := ⟨_, rfl⟩
  have ht : t = 2 ^ 32 * q + l := by rw [← hq, ← hfront, ← hl, Nat.div_add_mod]
  have hu : u = 10 ^ N * q + r := by rw [← hq, ← hr, Nat.div_add_mod]
  obtain ⟨hlo, hhi⟩ := h
  rw [ht, hu] at hlo hhi
  rw [hl, hr]
  constructor <;> linarith

theorem Tracks.shift {k : Nat} (h : Tracks (N + k) u t) : Tracks N u (10 ^ k * t) := by
  have hsplit : 10 ^ k * t * 10 ^ N = t * 10 ^ (N + k) := by
    rw [pow_add]
    ring
  rwa [Tracks, hsplit]

theorem Tracks.E (h : Tracks (N + 2) u t) : Tracks N (u % 10 ^ (N + 2)) (E t) := by
  have hlt := Nat.mod_lt t (show 0 < 2 ^ 32 by decide)
  have hE : Jeaiii.E t = 10 ^ 2 * (t % 2 ^ 32) := Nat.mod_eq_of_lt (by omega)
  rw [hE]
  exact h.behind.shift

theorem W_eq : ∀ i < 100, W i = some (padded 2 i) := by decide +kernel

theorem D_eq (h : Tracks N u t) (hu : u < 10 ^ (N + 2)) : D t = some (padded 2 (u / 10 ^ N)) := by
  have hlt : u / 10 ^ N < 100 := by
    rw [Nat.div_lt_iff_lt_mul (Nat.pow_pos (by omega))]
    rwa [pow_add, mul_comm] at hu
  rw [D, h.front, W_eq _ hlt]

theorem Q_eq (h : Tracks 1 u t) : [Q t] = padded 1 u := by
  have hlt := Nat.mod_lt t (show 0 < 2 ^ 32 by decide)
  have htrack : Tracks 0 (u % 10 ^ 1) (10 ^ 1 * (t % 2 ^ 32)) := h.behind.shift
  have hfront := htrack.front
  rw [pow_zero, Nat.div_one, pow_one] at hfront
  rw [Q, Nat.mod_eq_of_lt (by omega), hfront, digit_eq _ (Nat.mod_lt u (by omega))]
  rfl

theorem behind_eq (N : Nat) : ∀ {u t}, Tracks N u t → behind N t = some (padded N u) := by
  induction N using Nat.twoStepInduction with
  | zero => exact fun _ => rfl
  | one => exact fun h => congrArg some (Q_eq h)
  | more N ih _ =>
      intro u t h
      have hnext := h.E
      have hmod : padded N (u % 10 ^ (N + 2)) = padded N u := by
        rw [← padded_mod N u, ← padded_mod N (u % _), Nat.mod_mod_of_dvd _ (pow_dvd_pow 10 (by omega))]
      have hdiv : padded 2 (u % 10 ^ (N + 2) / 10 ^ N) = padded 2 (u / 10 ^ N) := by
        rw [← padded_mod 2 (u / _), pow_add, Nat.mod_mul_right_div_self]
      rw [behind, D_eq hnext (Nat.mod_lt u (Nat.pow_pos (by omega))), ih hnext, hmod, hdiv, add_comm N 2,
        padded_add]
      rfl

theorem A_eq {m c shift : Nat} (hm : 2 ^ (32 + N / 5 * N * 53 / 16) / 10 ^ N + 1 - N / 9 = m)
    (hc : N / 5 * 4 = c) (hshift : N / 5 * N * 53 / 16 = shift) (hm32 : m < 2 ^ 32) (hc4 : c ≤ 4)
    (hu32 : u < 2 ^ 32) : A N u = m * u / 2 ^ shift + c := by
  have hprod : m * u ≤ (2 ^ 32 - 1) * (2 ^ 32 - 1) := Nat.mul_le_mul (by omega) (by omega)
  have hdiv : m * u / 2 ^ shift ≤ m * u := Nat.div_le_self _ _
  rw [hshift] at hm
  simp only [A, hc, hshift, hm]
  rw [Nat.mod_eq_of_lt (show m * u < 2 ^ 64 by omega), Nat.mod_eq_of_lt (by omega)]

theorem A_tracks (hN : 0 < N) (hN8 : N ≤ 8) (hu : u < 10 ^ (N + 2)) (hu32 : u < 2 ^ 32) :
    Tracks N u (A N u) := by
  rw [Tracks]
  interval_cases N
  · rw [@A_eq 1 u 429496730 0 0 rfl rfl rfl (by decide) (by decide) hu32]
    omega
  · rw [@A_eq 2 u 42949673 0 0 rfl rfl rfl (by decide) (by decide) hu32]
    omega
  · rw [@A_eq 3 u 4294968 0 0 rfl rfl rfl (by decide) (by decide) hu32]
    omega
  · rw [@A_eq 4 u 429497 0 0 rfl rfl rfl (by decide) (by decide) hu32]
    omega
  · rw [@A_eq 5 u 2814749768 4 16 rfl rfl rfl (by decide) (by decide) hu32]
    omega
  · rw [@A_eq 6 u 2251799814 4 19 rfl rfl rfl (by decide) (by decide) hu32]
    omega
  · rw [@A_eq 7 u 3602879702 4 23 rfl rfl rfl (by decide) (by decide) hu32]
    omega
  · rw [@A_eq 8 u 2882303762 4 26 rfl rfl rfl (by decide) (by decide) hu32]
    omega

end Fractions

section Digits

variable {k u : Nat}

theorem L_eq (hk : k < 10) (hu : u < 10 ^ (k + 1)) (hu32 : u < 2 ^ 32) :
    L k u = some (padded (k + 1) u) := by
  match k with
  | 0 =>
      have hlt : u < 10 := by simpa using hu
      rw [L, digit_eq u hlt, padded, Nat.mod_eq_of_lt hlt]
      rfl
  | 1 => exact W_eq u (by simpa using hu)
  | k + 2 =>
      have h := A_tracks (Nat.succ_pos k) (by omega) hu hu32
      rw [L, D_eq h hu, behind_eq _ h, show k + 2 + 1 = 2 + (k + 1) by omega, padded_add]
      rfl

theorem LG_eq (hu32 : u < 2 ^ 32) :
    ∃ k, k < 10 ∧ u < 10 ^ (k + 1) ∧ (∀ F, LG u F = F k) ∧ Nat.toDigits 10 u = padded (k + 1) u := by
  have hdigits : ∀ {k}, u < 10 ^ (k + 1) → 10 ^ k ≤ u → Nat.toDigits 10 u = padded (k + 1) u :=
    fun hlt hle => by rw [← trimmed_eq hlt, trimmed_of_le hle]
  by_cases h10 : u < 10
  · refine ⟨0, by decide, by simpa using h10, fun F => ?_, ?_⟩
    · rw [LG, if_pos (by omega), if_pos h10]
    · rw [Nat.toDigits_of_lt_base h10, padded, Nat.mod_eq_of_lt h10]
      rfl
  by_cases h100 : u < 100
  · exact ⟨1, by decide, h100, fun F => by rw [LG, if_pos h100, if_neg h10], hdigits h100 (by omega)⟩
  by_cases h1000000 : u < 1000000
  · by_cases h10000 : u < 10000
    · by_cases h1000 : u < 1000
      · refine ⟨2, by decide, h1000, fun F => ?_, hdigits h1000 (by omega)⟩
        rw [LG, if_neg h100, if_pos h1000000, if_pos h10000, if_pos h1000]
      · refine ⟨3, by decide, h10000, fun F => ?_, hdigits h10000 (by omega)⟩
        rw [LG, if_neg h100, if_pos h1000000, if_pos h10000, if_neg h1000]
    · by_cases h100000 : u < 100000
      · refine ⟨4, by decide, h100000, fun F => ?_, hdigits h100000 (by omega)⟩
        rw [LG, if_neg h100, if_pos h1000000, if_neg h10000, if_pos h100000]
      · refine ⟨5, by decide, h1000000, fun F => ?_, hdigits h1000000 (by omega)⟩
        rw [LG, if_neg h100, if_pos h1000000, if_neg h10000, if_neg h100000]
  by_cases h100000000 : u < 100000000
  · by_cases h10000000 : u < 10000000
    · refine ⟨6, by decide, h10000000, fun F => ?_, hdigits h10000000 (by omega)⟩
      rw [LG, if_neg h100, if_neg h1000000, if_pos h100000000, if_pos h10000000]
    · refine ⟨7, by decide, h100000000, fun F => ?_, hdigits h100000000 (by omega)⟩
      rw [LG, if_neg h100, if_neg h1000000, if_pos h100000000, if_neg h10000000]
  by_cases h1000000000 : u < 1000000000
  · refine ⟨8, by decide, h1000000000, fun F => ?_, hdigits h1000000000 (by omega)⟩
    rw [LG, if_neg h100, if_neg h1000000, if_neg h100000000, if_pos h1000000000]
  · have hmost : u < 10 ^ (9 + 1) := by omega
    refine ⟨9, by decide, hmost, fun F => ?_, hdigits hmost (by omega)⟩
    rw [LG, if_neg h100, if_neg h1000000, if_neg h100000000, if_neg h1000000000]

theorem LG_LN (hu32 : u < 2 ^ 32) : LG u (LN u) = some (Nat.toDigits 10 u) := by
  obtain ⟨k, hk, hlt, hrun, hdigits⟩ := LG_eq hu32
  rw [hrun, LN, L_eq hk hlt hu32, hdigits]

theorem u32toaJeaiii_eq (hu32 : u < 2 ^ 32) :
    u32toaJeaiii u = some (Nat.toDigits 10 u ++ [nul]) := by
  obtain ⟨k, hk, hlt, hrun, hdigits⟩ := LG_eq hu32
  rw [u32toaJeaiii, hrun, LZ, L_eq hk hlt hu32, hdigits]
  rfl

theorem u64toaJeaiii_eq {n : Nat} (hn : n < 2 ^ 64) :
    u64toaJeaiii n = some (Nat.toDigits 10 n ++ [nul]) := by
  have hlast : ∀ n, L 7 (n % 100000000) = some (padded 8 n) := by
    intro n
    have hlt : n % 100000000 < 10 ^ (7 + 1) := Nat.mod_lt n (by decide)
    rw [L_eq (by decide) hlt (by omega)]
    exact congrArg some (padded_mod 8 n)
  rw [u64toaJeaiii]
  by_cases hsmall : n / 2 ^ 32 = 0
  · have hu32 : n < 2 ^ 32 := by omega
    rw [if_pos hsmall, Nat.mod_eq_of_lt hu32]
    exact u32toaJeaiii_eq hu32
  rw [if_neg hsmall]
  by_cases hfront : n / 100000000 / 2 ^ 32 = 0
  · have hlt : n / 100000000 < 2 ^ 32 := by omega
    have hsplit := @toDigits_append (n / 100000000) 8 (by omega) n rfl
    simp only [if_pos hfront, Nat.mod_eq_of_lt hlt, LG_LN hlt, LZ, hlast]
    rw [hsplit, List.append_assoc]
    rfl
  · have hlt : n / 100000000 / 100000000 < 2 ^ 32 := by omega
    have hmiddle := @toDigits_append (n / 100000000 / 100000000) 8 (by omega) (n / 100000000) rfl
    have hsplit := @toDigits_append (n / 100000000) 8 (by omega) n rfl
    have hlast' := hlast (n / 100000000)
    simp only [if_neg hfront, Nat.mod_eq_of_lt hlt, LG_LN hlt, LZ, hlast]
    rw [LN, hlast', hsplit, hmiddle, List.append_assoc]
    rfl

end Digits

/-- Every 32-bit and 64-bit integer is written as its decimal text with a terminator, and no
entry behind the end of the table is read. -/
theorem jeaiii_decimal :
    (∀ u < 2 ^ 32, u32toaJeaiii u = some (intText u ++ [nul])) ∧
      (∀ i : Int, -2 ^ 31 ≤ i → i < 2 ^ 31 → i32toaJeaiii i = some (intText i ++ [nul])) ∧
      (∀ n < 2 ^ 64, u64toaJeaiii n = some (intText n ++ [nul])) ∧
      ∀ i : Int, -2 ^ 63 ≤ i → i < 2 ^ 63 → i64toaJeaiii i = some (intText i ++ [nul]) := by
  refine ⟨fun u hu => ?_, fun i hlo hhi => ?_, fun n hn => ?_, fun i hlo hhi => ?_⟩
  · rw [u32toaJeaiii_eq hu, intText_natCast]
  · rw [i32toaJeaiii, intText_eq]
    split_ifs with hneg
    · have habs : negated 32 i = i.natAbs := by
        rw [negated]
        omega
      rw [habs, u32toaJeaiii_eq (by omega)]
      rfl
    · have habs : i.toNat = i.natAbs := by omega
      rw [habs, u32toaJeaiii_eq (by omega)]
      rfl
  · rw [u64toaJeaiii_eq hn, intText_natCast]
  · rw [i64toaJeaiii, intText_eq]
    split_ifs with hneg
    · have habs : negated 64 i = i.natAbs := by
        rw [negated]
        omega
      rw [habs, u64toaJeaiii_eq (by omega)]
      rfl
    · have habs : i.toNat = i.natAbs := by omega
      rw [habs, u64toaJeaiii_eq (by omega)]
      rfl

theorem jeaiii_decimal_most :
    u64toaJeaiii (2 ^ 64 - 1) = some (intText (2 ^ 64 - 1 : Nat) ++ [nul]) :=
  jeaiii_decimal.2.2.1 (2 ^ 64 - 1) (by decide)

end SchemaCodeGen.Jeaiii
