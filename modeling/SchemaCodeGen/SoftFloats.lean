import SchemaCodeGen.DecimalFloats
import SchemaCodeGen.JsonNumbers

namespace SchemaCodeGen.SoftFloats

open Floats Fallible Sax JsonNumbers

section Words

def add64 (a b : Nat) : Nat := (a + b) % 2 ^ 64

def sub64 (a b : Nat) : Nat := (a + 2 ^ 64 - b) % 2 ^ 64

def mul64 (a b : Nat) : Nat := a * b % 2 ^ 64

def shl64 (a : Nat) (n : Int) : Step Nat :=
  if 0 ≤ n ∧ n < 64 then .ok ((a <<< n.toNat) % 2 ^ 64) else .error .overflow

theorem add64_eq {a b : Nat} (h : a + b < 2 ^ 64) : add64 a b = a + b := Nat.mod_eq_of_lt h

theorem sub64_eq {a b : Nat} (h : b ≤ a) (ha : a < 2 ^ 64) : sub64 a b = a - b := by
  rw [sub64, Nat.add_comm, Nat.add_sub_assoc h, Nat.add_mod_left, Nat.mod_eq_of_lt (by omega)]

theorem mul64_eq {a b : Nat} (h : a * b < 2 ^ 64) : mul64 a b = a * b := Nat.mod_eq_of_lt h

theorem shl64_eq {a : Nat} {n : Int} (k : Nat) (hk : n = k) (hlt : k < 64) (ha : a * 2 ^ k < 2 ^ 64) :
    shl64 a n = .ok (a * 2 ^ k) := by
  rw [shl64, if_pos (by omega), hk, Int.toNat_natCast, Nat.shiftLeft_eq, Nat.mod_eq_of_lt ha]

end Words

structure DiyFp where
  f : Nat
  e : Int
  deriving DecidableEq

def kDpHiddenBit : Nat := 0x10000000000000

namespace DiyFp

/-- The significand, hidden bit included, and the exponent in the bits of a positive double. -/
def ofDouble (d : ℚ) : DiyFp :=
  ⟨(d / (2 : ℚ) ^ binary64.ulpExponent d).num.toNat, binary64.ulpExponent d⟩

def value (x : DiyFp) : ℚ := x.f * (2 : ℚ) ^ x.e

def sub (x rhs : DiyFp) : DiyFp := ⟨sub64 x.f rhs.f, x.e⟩

def mul (x rhs : DiyFp) : DiyFp :=
  let p := x.f * rhs.f
  let h := p >>> 64
  let l := p % 2 ^ 64
  ⟨if l &&& 1 <<< 63 ≠ 0 then add64 h 1 else h, x.e + rhs.e + 64⟩

/-- The product from four products of halves. -/
def mulHalves (x rhs : DiyFp) : DiyFp :=
  let m32 := 0xFFFFFFFF
  let a := x.f >>> 32
  let b := x.f &&& m32
  let c := rhs.f >>> 32
  let d := rhs.f &&& m32
  let ac := mul64 a c
  let bc := mul64 b c
  let ad := mul64 a d
  let bd := mul64 b d
  let tmp := add64 (add64 (bd >>> 32) (ad &&& m32)) (bc &&& m32)
  let tmp := add64 tmp (1 <<< 31)
  ⟨add64 (add64 (add64 ac (ad >>> 32)) (bc >>> 32)) (tmp >>> 32), x.e + rhs.e + 64⟩

def normalize (x : DiyFp) : Step DiyFp :=
  if x.f = 0 then .error .assertion
  else
    let s := 63 - Nat.log2 x.f
    .ok ⟨(x.f <<< s) % 2 ^ 64, x.e - s⟩

def shiftUntil (bit : Nat) : Nat → DiyFp → Step DiyFp
  | 0, _ => .error .fuel
  | n + 1, res =>
      if res.f.testBit bit then .ok res
      else shiftUntil bit n ⟨(res.f <<< 1) % 2 ^ 64, res.e - 1⟩

def normalizeLoop (x : DiyFp) : Step DiyFp :=
  if x.f = 0 then .error .assertion else shiftUntil 63 64 x

def normalizeBoundary (x : DiyFp) : Step DiyFp := do
  let res ← shiftUntil 53 64 x
  .ok ⟨(res.f <<< 10) % 2 ^ 64, res.e - 10⟩

def normalizedBoundaries (x : DiyFp) : Step (DiyFp × DiyFp) := do
  let pl ← normalizeBoundary ⟨add64 (x.f <<< 1) 1, x.e - 1⟩
  let mi : DiyFp :=
    if x.f = kDpHiddenBit then ⟨sub64 (x.f <<< 2) 1, x.e - 2⟩ else ⟨sub64 (x.f <<< 1) 1, x.e - 1⟩
  let f ← shl64 mi.f (mi.e - pl.e)
  .ok (⟨f, pl.e⟩, pl)

end DiyFp

section Powers

/-- The significands of 10^-348, 10^-340 and so on up to 10^340. -/
def kCachedPowersF : List Nat :=
  [0xfa8fd5a0081c0288, 0xbaaee17fa23ebf76, 0x8b16fb203055ac76, 0xcf42894a5dce35ea,
    0x9a6bb0aa55653b2d, 0xe61acf033d1a45df, 0xab70fe17c79ac6ca, 0xff77b1fcbebcdc4f,
    0xbe5691ef416bd60c, 0x8dd01fad907ffc3c, 0xd3515c2831559a83, 0x9d71ac8fada6c9b5,
    0xea9c227723ee8bcb, 0xaecc49914078536d, 0x823c12795db6ce57, 0xc21094364dfb5637,
    0x9096ea6f3848984f, 0xd77485cb25823ac7, 0xa086cfcd97bf97f4, 0xef340a98172aace5,
    0xb23867fb2a35b28e, 0x84c8d4dfd2c63f3b, 0xc5dd44271ad3cdba, 0x936b9fcebb25c996,
    0xdbac6c247d62a584, 0xa3ab66580d5fdaf6, 0xf3e2f893dec3f126, 0xb5b5ada8aaff80b8,
    0x87625f056c7c4a8b, 0xc9bcff6034c13053, 0x964e858c91ba2655, 0xdff9772470297ebd,
    0xa6dfbd9fb8e5b88f, 0xf8a95fcf88747d94, 0xb94470938fa89bcf, 0x8a08f0f8bf0f156b,
    0xcdb02555653131b6, 0x993fe2c6d07b7fac, 0xe45c10c42a2b3b06, 0xaa242499697392d3,
    0xfd87b5f28300ca0e, 0xbce5086492111aeb, 0x8cbccc096f5088cc, 0xd1b71758e219652c,
    0x9c40000000000000, 0xe8d4a51000000000, 0xad78ebc5ac620000, 0x813f3978f8940984,
    0xc097ce7bc90715b3, 0x8f7e32ce7bea5c70, 0xd5d238a4abe98068, 0x9f4f2726179a2245,
    0xed63a231d4c4fb27, 0xb0de65388cc8ada8, 0x83c7088e1aab65db, 0xc45d1df942711d9a,
    0x924d692ca61be758, 0xda01ee641a708dea, 0xa26da3999aef774a, 0xf209787bb47d6b85,
    0xb454e4a179dd1877, 0x865b86925b9bc5c2, 0xc83553c5c8965d3d, 0x952ab45cfa97a0b3,
    0xde469fbd99a05fe3, 0xa59bc234db398c25, 0xf6c69a72a3989f5c, 0xb7dcbf5354e9bece,
    0x88fcf317f22241e2, 0xcc20ce9bd35c78a5, 0x98165af37b2153df, 0xe2a0b5dc971f303a,
    0xa8d9d1535ce3b396, 0xfb9b7cd9a4a7443c, 0xbb764c4ca7a44410, 0x8bab8eefb6409c1a,
    0xd01fef10a657842c, 0x9b10a4e5e9913129, 0xe7109bfba19c0c9d, 0xac2820d9623bf429,
    0x80444b5e7aa7cf85, 0xbf21e44003acdd2d, 0x8e679c2f5e44ff8f, 0xd433179d9c8cb841,
    0x9e19db92b4e31ba9, 0xeb96bf6ebadf77d9, 0xaf87023b9bf0ee6b]

def kCachedPowersE : List Int :=
  [-1220, -1193, -1166, -1140, -1113, -1087, -1060, -1034, -1007, -980, -954, -927, -901, -874,
    -847, -821, -794, -768, -741, -715, -688, -661, -635, -608, -582, -555, -529, -502, -475,
    -449, -422, -396, -369, -343, -316, -289, -263, -236, -210, -183, -157, -130, -103, -77,
    -50, -24, 3, 30, 56, 83, 109, 136, 162, 189, 216, 242, 269, 295, 322, 348, 375, 402, 428,
    455, 481, 508, 534, 561, 588, 614, 641, 667, 694, 720, 747, 774, 800, 827, 853, 880, 907,
    933, 960, 986, 1013, 1039, 1066]

def getCachedPowerByIndex (index : Nat) : Step DiyFp :=
  if index < 87 then .ok ⟨kCachedPowersF.getD index 0, kCachedPowersE.getD index 0⟩
  else .error .assertion

def logTwo : Ieee := binary64.round (30102999566398114 / 10 ^ 17)

def toInt : Ieee → Int
  | .fin q => q.num.tdiv q.den
  | _ => 0

def getCachedPower (e : Int) : Step (DiyFp × Int) := do
  let dk := lift (· + 347) (lift (((-61 - e : Int) : ℚ) * ·) logTwo)
  let k := toInt dk
  let k := if isPositive (lift (· - k) dk) then k + 1 else k
  let index := ((k >>> (3 : Nat) + 1) % 2 ^ 32).toNat
  .ok (← getCachedPowerByIndex index, -((-348 : Int) + (index <<< 3 % 2 ^ 32 : Nat)))

end Powers

section Products

theorem and_bit_ne_zero {l : Nat} (h : l < 2 ^ 64) : l &&& 1 <<< 63 ≠ 0 ↔ 2 ^ 63 ≤ l := by
  rw [Nat.one_shiftLeft, Nat.and_two_pow, Nat.testBit_eq_decide_div_mod_eq]
  by_cases hbit : l / 2 ^ 63 % 2 = 1
  · simp only [hbit, decide_true, Bool.toNat_true]
    omega
  · simp only [hbit, decide_false, Bool.toNat_false]
    omega

theorem mul_lt {a b m n : Nat} (ha : a < m) (hb : b < n) : a * b ≤ (m - 1) * (n - 1) :=
  Nat.mul_le_mul (Nat.le_sub_one_of_lt ha) (Nat.le_sub_one_of_lt hb)

variable {x rhs : DiyFp}

theorem mul_eq (hx : x.f < 2 ^ 64) (hr : rhs.f < 2 ^ 64) :
    x.mul rhs = ⟨(x.f * rhs.f + 2 ^ 63) / 2 ^ 64, x.e + rhs.e + 64⟩ := by
  have hp := mul_lt hx hr
  have hl : x.f * rhs.f % 2 ^ 64 < 2 ^ 64 := Nat.mod_lt _ (by omega)
  simp only [DiyFp.mul, Nat.shiftRight_eq_div_pow, and_bit_ne_zero hl, DiyFp.mk.injEq, and_true]
  split_ifs with hbit
  · rw [add64_eq (by omega)]
    omega
  · omega

theorem mulHalves_eq (hx : x.f < 2 ^ 64) (hr : rhs.f < 2 ^ 64) : x.mulHalves rhs = x.mul rhs := by
  have hmask : ∀ n, n &&& 0xFFFFFFFF = n % 2 ^ 32 := fun n => Nat.and_two_pow_sub_one_eq_mod n 32
  rw [mul_eq hx hr]
  simp only [DiyFp.mulHalves, Nat.shiftRight_eq_div_pow, hmask, DiyFp.mk.injEq, and_true]
  obtain ⟨a, ha⟩ : ∃ a, x.f / 2 ^ 32 = a := ⟨_, rfl⟩
  obtain ⟨b, hb⟩ : ∃ b, x.f % 2 ^ 32 = b := ⟨_, rfl⟩
  obtain ⟨c, hc⟩ : ∃ c, rhs.f / 2 ^ 32 = c := ⟨_, rfl⟩
  obtain ⟨d, hd⟩ : ∃ d, rhs.f % 2 ^ 32 = d := ⟨_, rfl⟩
  have hxf : x.f = a * 2 ^ 32 + b := by omega
  have hrf : rhs.f = c * 2 ^ 32 + d := by omega
  have hac := mul_lt (show a < 2 ^ 32 by omega) (show c < 2 ^ 32 by omega)
  have hbc := mul_lt (show b < 2 ^ 32 by omega) (show c < 2 ^ 32 by omega)
  have had := mul_lt (show a < 2 ^ 32 by omega) (show d < 2 ^ 32 by omega)
  have hbd := mul_lt (show b < 2 ^ 32 by omega) (show d < 2 ^ 32 by omega)
  have hproduct : x.f * rhs.f = a * c * 2 ^ 64 + (a * d + b * c) * 2 ^ 32 + b * d := by
    rw [hxf, hrf]
    ring
  rw [ha, hb, hc, hd, hproduct, mul64_eq (by omega), mul64_eq (by omega), mul64_eq (by omega),
    mul64_eq (by omega)]
  simp only [add64]
  omega

end Products

section Normalized

variable {x : DiyFp}

theorem testBit_top {f bit : Nat} (h : f < 2 ^ (bit + 1)) : f.testBit bit = true ↔ 2 ^ bit ≤ f := by
  rw [Nat.testBit_eq_decide_div_mod_eq, decide_eq_true_eq]
  have hpos : 0 < 2 ^ bit := Nat.two_pow_pos bit
  have hlt : f / 2 ^ bit < 2 := by
    rw [Nat.div_lt_iff_lt_mul hpos, mul_comm, ← pow_succ]
    exact h
  rw [Nat.mod_eq_of_lt hlt]
  constructor
  · intro hone
    exact (Nat.div_pos_iff.mp (by omega)).2
  · intro hle
    have := Nat.div_pos hle hpos
    omega

theorem shiftUntil_eq {bit n : Nat} (hbit : bit < 64) (hf : x.f ≠ 0) (hlt : x.f < 2 ^ (bit + 1))
    (hn : bit - Nat.log2 x.f < n) :
    DiyFp.shiftUntil bit n x =
      .ok ⟨x.f * 2 ^ (bit - Nat.log2 x.f), x.e - (bit - Nat.log2 x.f : Nat)⟩ := by
  have hwidth : 2 ^ (bit + 1) ≤ 2 ^ 64 := Nat.pow_le_pow_right (by omega) hbit
  induction n generalizing x with
  | zero => exact absurd hn (Nat.not_lt_zero _)
  | succ n ih =>
      rw [DiyFp.shiftUntil]
      by_cases htop : 2 ^ bit ≤ x.f
      · have hlog : Nat.log2 x.f = bit := (Nat.log2_eq_iff hf).mpr ⟨htop, hlt⟩
        rw [if_pos ((testBit_top hlt).mpr htop), hlog, Nat.sub_self, pow_zero, mul_one]
        simp
      · have hlog : Nat.log2 x.f < bit := (Nat.log2_lt hf).mpr (Nat.not_le.mp htop)
        have hdouble : (x.f <<< 1) % 2 ^ 64 = 2 * x.f := by
          rw [Nat.shiftLeft_eq, pow_one, mul_comm, Nat.mod_eq_of_lt]
          rw [pow_succ] at hlt hwidth
          omega
        have hlog' : Nat.log2 (2 * x.f) = Nat.log2 x.f + 1 := Nat.log2_two_mul hf
        have hstep := @ih ⟨2 * x.f, x.e - 1⟩ (by simp [hf]) (by rw [pow_succ]; simp only; omega)
          (by simp only [hlog']; omega)
        rw [if_neg (by rw [testBit_top hlt]; exact htop), hdouble, hstep]
        simp only [hlog', Except.ok.injEq, DiyFp.mk.injEq]
        have hs : bit - Nat.log2 x.f = bit - (Nat.log2 x.f + 1) + 1 := by omega
        rw [hs, pow_succ]
        exact ⟨by ring, by push_cast; ring⟩

theorem normalize_eq (hf : x.f ≠ 0) (hlt : x.f < 2 ^ 64) :
    x.normalize = .ok ⟨x.f * 2 ^ (63 - Nat.log2 x.f), x.e - (63 - Nat.log2 x.f : Nat)⟩ := by
  have hlog : Nat.log2 x.f < 64 := (Nat.log2_lt hf).mpr hlt
  have htop : x.f < 2 ^ (Nat.log2 x.f + 1) := Nat.lt_log2_self
  have hfits : x.f * 2 ^ (63 - Nat.log2 x.f) < 2 ^ 64 := by
    calc x.f * 2 ^ (63 - Nat.log2 x.f)
        < 2 ^ (Nat.log2 x.f + 1) * 2 ^ (63 - Nat.log2 x.f) :=
          Nat.mul_lt_mul_of_pos_right htop (Nat.two_pow_pos _)
      _ = 2 ^ 64 := by rw [← pow_add]; congr 1; omega
  simp only [DiyFp.normalize, if_neg hf, Nat.shiftLeft_eq, Nat.mod_eq_of_lt hfits]

theorem normalizeLoop_eq (hlt : x.f < 2 ^ 64) : x.normalizeLoop = x.normalize := by
  by_cases hf : x.f = 0
  · rw [DiyFp.normalizeLoop, DiyFp.normalize, if_pos hf, if_pos hf]
  · rw [DiyFp.normalizeLoop, if_neg hf, shiftUntil_eq (by omega) hf hlt (by omega), normalize_eq hf hlt]

/-- Without a wide product and a count of zeros the same numbers come out. -/
theorem portable_eq :
    (∀ x rhs : DiyFp, x.f < 2 ^ 64 → rhs.f < 2 ^ 64 → x.mulHalves rhs = x.mul rhs) ∧
      ∀ x : DiyFp, x.f < 2 ^ 64 → x.normalizeLoop = x.normalize :=
  ⟨fun _ _ hx hr => mulHalves_eq hx hr, fun _ hlt => normalizeLoop_eq hlt⟩

theorem portable_eq_most : DiyFp.mulHalves ⟨2 ^ 64 - 1, 3⟩ ⟨2 ^ 64 - 1, 4⟩ = DiyFp.mul ⟨2 ^ 64 - 1, 3⟩ ⟨2 ^ 64 - 1, 4⟩ ∧
    DiyFp.normalizeLoop ⟨1, 5⟩ = DiyFp.normalize ⟨1, 5⟩ :=
  ⟨portable_eq.1 _ _ (by decide) (by decide), portable_eq.2 _ (by decide)⟩

/-- Four times the significand halfway to the neighbour below, which is nearer below a power of
two. -/
def below (f : Nat) : Nat := if f = kDpHiddenBit then 4 * f - 1 else 4 * f - 2

theorem below_bounds (f : Nat) : 4 * f - 2 ≤ below f ∧ below f ≤ 4 * f - 1 := by
  rw [below]
  split_ifs <;> omega

/-- Both boundaries come with one exponent, and the upper one uses all bits. -/
theorem normalizedBoundaries_eq (hf : x.f ≠ 0) (hlt : x.f < 2 ^ 53) :
    ∃ t m, x.normalizedBoundaries =
        .ok (⟨m, x.e - 1 - (t : Nat)⟩, ⟨(2 * x.f + 1) * 2 ^ t, x.e - 1 - (t : Nat)⟩) ∧
      2 * m = below x.f * 2 ^ t ∧ 10 ≤ t ∧
      2 ^ 63 ≤ (2 * x.f + 1) * 2 ^ t ∧ (2 * x.f + 1) * 2 ^ t < 2 ^ 64 ∧
      (x.f = kDpHiddenBit → t = 10) := by
  have hg : 2 * x.f + 1 ≠ 0 := Nat.succ_ne_zero _
  have hglt : 2 * x.f + 1 < 2 ^ 54 := by omega
  have hlog : Nat.log2 (2 * x.f + 1) < 54 := (Nat.log2_lt hg).mpr hglt
  obtain ⟨u, hu⟩ : ∃ u, 53 - Nat.log2 (2 * x.f + 1) = u := ⟨_, rfl⟩
  have hlo : 2 ^ 53 ≤ (2 * x.f + 1) * 2 ^ u := by
    calc 2 ^ 53 = 2 ^ Nat.log2 (2 * x.f + 1) * 2 ^ u := by rw [← pow_add]; congr 1; omega
      _ ≤ (2 * x.f + 1) * 2 ^ u := Nat.mul_le_mul_right _ (Nat.log2_self_le hg)
  have hhi : (2 * x.f + 1) * 2 ^ u < 2 ^ 54 := by
    calc (2 * x.f + 1) * 2 ^ u
        < 2 ^ (Nat.log2 (2 * x.f + 1) + 1) * 2 ^ u :=
          Nat.mul_lt_mul_of_pos_right Nat.lt_log2_self (Nat.two_pow_pos _)
      _ = 2 ^ 54 := by rw [← pow_add]; congr 1; omega
  have hsplit : (2 * x.f + 1) * 2 ^ (u + 10) = (2 * x.f + 1) * 2 ^ u * 1024 := by
    rw [pow_add, ← mul_assoc]
    norm_num
  have hplus : add64 (x.f <<< 1) 1 = 2 * x.f + 1 := by
    rw [Nat.shiftLeft_eq, pow_one, mul_comm, add64_eq (by omega)]
  have hboundary : DiyFp.normalizeBoundary ⟨2 * x.f + 1, x.e - 1⟩ =
      .ok ⟨(2 * x.f + 1) * 2 ^ (u + 10), x.e - 1 - ((u + 10 : Nat) : Int)⟩ := by
    have hloop := @shiftUntil_eq ⟨2 * x.f + 1, x.e - 1⟩ 53 64 (by omega) hg hglt (by omega)
    rw [DiyFp.normalizeBoundary, hloop, ok_bind]
    simp only [hu, Nat.shiftLeft_eq]
    rw [Nat.mod_eq_of_lt (by omega), hsplit]
    simp only [Except.ok.injEq, DiyFp.mk.injEq, Nat.cast_add]
    exact ⟨by norm_num, by push_cast; ring⟩
  have hpow : 2 ^ (u + 10) = 2 ^ u * 1024 := by rw [pow_add]; norm_num
  by_cases hhidden : x.f = kDpHiddenBit
  · have hf52 : x.f = 2 ^ 52 := hhidden
    have hu0 : u = 0 := by
      have hlog53 : Nat.log2 (2 * x.f + 1) = 53 := (Nat.log2_eq_iff hg).mpr ⟨by omega, by omega⟩
      omega
    subst hu0
    have hminus : sub64 (x.f <<< 2) 1 = 4 * x.f - 1 := by
      rw [Nat.shiftLeft_eq, sub64_eq (by omega) (by omega)]
      omega
    have hshift : shl64 (4 * x.f - 1) (x.e - 2 - (x.e - 1 - ((0 + 10 : Nat) : Int))) =
        .ok ((4 * x.f - 1) * 2 ^ 9) := shl64_eq 9 (by push_cast; ring) (by omega) (by omega)
    refine ⟨0 + 10, (4 * x.f - 1) * 2 ^ 9, ?_, ?_, by omega, by omega, by omega, fun _ => rfl⟩
    · rw [DiyFp.normalizedBoundaries, hplus, hboundary, ok_bind]
      simp only [if_pos hhidden, hminus, hshift, ok_bind]
    · rw [below, if_pos hhidden]
      omega
  · have hminus : sub64 (x.f <<< 1) 1 = 2 * x.f - 1 := by
      rw [Nat.shiftLeft_eq, sub64_eq (by omega) (by omega)]
      omega
    have hle : (2 * x.f - 1) * 2 ^ (u + 10) ≤ (2 * x.f + 1) * 2 ^ (u + 10) :=
      Nat.mul_le_mul_right _ (by omega)
    have hshift : shl64 (2 * x.f - 1) (x.e - 1 - (x.e - 1 - ((u + 10 : Nat) : Int))) =
        .ok ((2 * x.f - 1) * 2 ^ (u + 10)) := shl64_eq (u + 10) (by ring) (by omega) (by omega)
    refine ⟨u + 10, (2 * x.f - 1) * 2 ^ (u + 10), ?_, ?_, by omega, by omega, by omega,
      fun h => absurd h hhidden⟩
    · rw [DiyFp.normalizedBoundaries, hplus, hboundary, ok_bind]
      simp only [if_neg hhidden, hminus, hshift, ok_bind]
    · have hdouble : 2 * (2 * x.f - 1) = 4 * x.f - 2 := by omega
      rw [below, if_neg hhidden, ← mul_assoc, hdouble]

end Normalized

section Rounded

variable {f : Format} {q : ℚ}

theorem two_zpow_pos (e : Int) : (0 : ℚ) < (2 : ℚ) ^ e := zpow_pos (by norm_num) e

theorem ulp_le_abs (hp : 0 < f.precision) (hlo : (2 : ℚ) ^ f.minExponent ≤ |q|) :
    (2 : ℚ) ^ f.ulpExponent q ≤ |q| := by
  have hpos : 0 < |q| := lt_of_lt_of_le (two_zpow_pos _) hlo
  have hlog : (2 : ℚ) ^ Int.log 2 |q| ≤ |q| := by
    exact_mod_cast Int.zpow_log_le_self (b := 2) (by norm_num) hpos
  rw [Format.ulpExponent]
  rcases le_total (Int.log 2 |q| - (f.precision - 1)) f.minExponent with h | h
  · rwa [max_eq_right h]
  · rw [max_eq_left h]
    exact le_trans (zpow_le_zpow_right₀ (by norm_num) (by omega)) hlog

theorem abs_lt_of_ulp :
    |q| < (2 : ℚ) ^ (f.precision : Int) * (2 : ℚ) ^ f.ulpExponent q := by
  have hlog : |q| < (2 : ℚ) ^ (Int.log 2 |q| + 1) := by
    exact_mod_cast Int.lt_zpow_succ_log_self (b := 2) (by norm_num) |q|
  rw [← zpow_add₀ (by norm_num)]
  refine lt_of_lt_of_le hlog (zpow_le_zpow_right₀ (by norm_num) ?_)
  have := le_max_left (Int.log 2 |q| - (f.precision - 1)) f.minExponent
  rw [Format.ulpExponent]
  omega

theorem ulpExponent_lt (hm : f.minExponent < f.maxExponent) (hq : q ≠ 0)
    (hhi : |q| < (2 : ℚ) ^ (f.maxExponent + f.precision - 1)) : f.ulpExponent q < f.maxExponent := by
  have hlog : Int.log 2 |q| < f.maxExponent + f.precision - 1 :=
    (Int.lt_zpow_iff_log_lt (by norm_num) (abs_pos.mpr hq)).mp (by exact_mod_cast hhi)
  rw [Format.ulpExponent, max_lt_iff]
  exact ⟨by omega, hm⟩

/-- A number in the middle of the range is rounded by half a unit in the last place at most. -/
theorem round_close (hp : 0 < f.precision) (hm : f.minExponent < f.maxExponent)
    (hlo : (2 : ℚ) ^ f.minExponent ≤ |q|) (hhi : |q| < (2 : ℚ) ^ (f.maxExponent + f.precision - 1)) :
    ∃ n : Int, f.round q = .fin (n * (2 : ℚ) ^ f.ulpExponent q) ∧
      |(n : ℚ) - q / (2 : ℚ) ^ f.ulpExponent q| ≤ 1 / 2 := by
  have hq : q ≠ 0 := abs_pos.mp (lt_of_lt_of_le (two_zpow_pos _) hlo)
  have hulp := two_zpow_pos (f.ulpExponent q)
  obtain ⟨x, hx⟩ : ∃ x, q / (2 : ℚ) ^ f.ulpExponent q = x := ⟨_, rfl⟩
  have hone : 1 ≤ |x| := by
    rw [← hx, abs_div, abs_of_pos hulp, one_le_div hulp]
    exact ulp_le_abs hp hlo
  have hwide : |x| < (2 : ℚ) ^ (f.precision : Int) := by
    rw [← hx, abs_div, abs_of_pos hulp, div_lt_iff₀ hulp]
    exact abs_lt_of_ulp
  have hnear : |(Format.roundEven x : ℚ) - x| ≤ 1 / 2 := by
    obtain ⟨h1, h2⟩ := DecimalFloats.roundEven_near x
    exact abs_le.mpr ⟨by linarith, by linarith⟩
  have hn0 : Format.roundEven x ≠ 0 := by
    intro hzero
    rw [hzero, Int.cast_zero, zero_sub, abs_neg] at hnear
    linarith
  have hmax : |(Format.roundEven x : ℚ) * (2 : ℚ) ^ f.ulpExponent q| ≤ f.maxFinite := by
    have hle : |(Format.roundEven x : ℚ)| ≤ (2 : ℚ) ^ f.precision := by
      have hlt : |(Format.roundEven x : ℚ)| < (2 : ℚ) ^ f.precision + 1 := by
        rw [zpow_natCast] at hwide
        have := abs_sub_abs_le_abs_sub (Format.roundEven x : ℚ) x
        linarith
      have hint : |Format.roundEven x| < 2 ^ f.precision + 1 := by exact_mod_cast hlt
      exact_mod_cast Int.lt_add_one_iff.mp hint
    have hexp := ulpExponent_lt hm hq hhi
    have hpow : (2 : ℚ) ^ f.ulpExponent q ≤ (2 : ℚ) ^ f.maxExponent / 2 := by
      rw [div_eq_mul_inv, ← zpow_sub_one₀ (by norm_num)]
      exact zpow_le_zpow_right₀ (by norm_num) (by omega)
    have htwo : (2 : ℚ) ≤ (2 : ℚ) ^ f.precision := by
      calc (2 : ℚ) = 2 ^ 1 := (pow_one _).symm
        _ ≤ 2 ^ f.precision := pow_le_pow_right₀ (by norm_num) hp
    rw [abs_mul, abs_of_pos hulp, Format.maxFinite]
    calc |(Format.roundEven x : ℚ)| * (2 : ℚ) ^ f.ulpExponent q
        ≤ (2 : ℚ) ^ f.precision * ((2 : ℚ) ^ f.maxExponent / 2) :=
          mul_le_mul hle hpow hulp.le (by positivity)
      _ = (2 : ℚ) ^ f.precision / 2 * (2 : ℚ) ^ f.maxExponent := by ring
      _ ≤ ((2 : ℚ) ^ f.precision - 1) * (2 : ℚ) ^ f.maxExponent :=
          mul_le_mul_of_nonneg_right (by linarith) (two_zpow_pos _).le
  rw [← hx] at hn0 hmax hnear
  exact ⟨_, round_eq rfl hn0 hmax, hnear⟩

theorem round_within {k : Int} (hk : -1000 ≤ k) (hk' : k ≤ 1000) (hlo : (2 : ℚ) ^ (-1000 : Int) ≤ |q|)
    (hhi : |q| < (2 : ℚ) ^ k) : ∃ r, binary64.round q = .fin r ∧ |r - q| ≤ (2 : ℚ) ^ (k - 54) := by
  have hulp := two_zpow_pos (binary64.ulpExponent q)
  have hq : 0 < |q| := lt_of_lt_of_le (two_zpow_pos _) hlo
  obtain ⟨n, hround, hn⟩ := @round_close binary64 q (by decide) (by decide)
    (le_trans (zpow_le_zpow_right₀ (by norm_num) (by decide)) hlo)
    (lt_of_lt_of_le hhi (zpow_le_zpow_right₀ (by norm_num) (by simp only [binary64]; omega)))
  refine ⟨_, hround, ?_⟩
  have hlog : Int.log 2 |q| < k := (Int.lt_zpow_iff_log_lt (by norm_num) hq).mp (by exact_mod_cast hhi)
  have hexp : binary64.ulpExponent q ≤ k - 53 := by
    rw [Format.ulpExponent, max_le_iff]
    simp only [binary64]
    omega
  have hsplit : n * (2 : ℚ) ^ binary64.ulpExponent q - q =
      (n - q / (2 : ℚ) ^ binary64.ulpExponent q) * (2 : ℚ) ^ binary64.ulpExponent q := by
    rw [sub_mul, div_mul_cancel₀ _ hulp.ne']
  rw [hsplit, abs_mul, abs_of_pos hulp]
  calc |(n : ℚ) - q / (2 : ℚ) ^ binary64.ulpExponent q| * (2 : ℚ) ^ binary64.ulpExponent q
      ≤ 1 / 2 * (2 : ℚ) ^ (k - 53) :=
        mul_le_mul hn (zpow_le_zpow_right₀ (by norm_num) hexp) hulp.le (by norm_num)
    _ = (2 : ℚ) ^ (k - 54) := by
        have hexp : k - 53 = k - 54 + 1 := by ring
        rw [hexp, zpow_add_one₀ (by norm_num)]
        ring

theorem isPositive_round (hlo : (2 : ℚ) ^ (-1000 : Int) ≤ q) (hhi : q < (2 : ℚ) ^ (1000 : Int)) :
    isPositive (binary64.round q) = true := by
  have hq : 0 < q := lt_of_lt_of_le (two_zpow_pos _) hlo
  have habs : |q| = q := abs_of_pos hq
  have hlo' : (2 : ℚ) ^ binary64.minExponent ≤ |q| := by
    rw [habs]
    exact le_trans (zpow_le_zpow_right₀ (by norm_num) (by decide)) hlo
  obtain ⟨n, hround, hn⟩ := @round_close binary64 q (by decide) (by decide) hlo'
    (by
      rw [habs]
      exact lt_of_lt_of_le hhi (zpow_le_zpow_right₀ (by norm_num) (by decide)))
  have hulp := two_zpow_pos (binary64.ulpExponent q)
  have hone : 1 ≤ q / (2 : ℚ) ^ binary64.ulpExponent q := by
    rw [one_le_div hulp]
    have h := ulp_le_abs (by decide) hlo'
    rwa [habs] at h
  have hpos : (0 : ℚ) < n := by linarith [(abs_le.mp hn).1]
  rw [hround, isPositive, decide_eq_true_eq]
  exact mul_pos hpos hulp

end Rounded

section Cached

def cachedF (i : Nat) : Nat := kCachedPowersF.getD i 0

def cachedE (i : Nat) : Nat := (kCachedPowersE.getD i 0 + 1220).toNat

theorem cached_bounds : ∀ i < 87, 2 ^ 63 ≤ cachedF i ∧ cachedF i < 2 ^ 64 ∧
    kCachedPowersE.getD i 0 = cachedE i - 1220 := by
  decide +kernel

theorem cached_near : ∀ i < 87,
    2 * (cachedF i * 2 ^ cachedE i * 10 ^ 348) ≤
        2 * (10 ^ (8 * i) * 2 ^ 1220) + 2 ^ cachedE i * 10 ^ 348 ∧
      2 * (10 ^ (8 * i) * 2 ^ 1220) ≤
        2 * (cachedF i * 2 ^ cachedE i * 10 ^ 348) + 2 ^ cachedE i * 10 ^ 348 := by
  decide +kernel

/-- The index for the exponent `n - 1137`, in integers. -/
def powerIndex (n : Nat) : Nat :=
  (67190827533444370663 - n * 30102999566398114) / 10 ^ 17 / 8 + 1

def pointShift (n : Nat) : Nat := 2293 - n - cachedE (powerIndex n)

theorem cached_range : ∀ i < 86, i = 0 ∨
    (2293 ≤ cachedE i + (67190827533444370663 + 30102999566398114 - 8 * 10 ^ 17 * i) / 30102999566398114 + 60 ∧
      cachedE i + (67190827533444370663 - 8 * 10 ^ 17 * (i - 1)) / 30102999566398114 + 34 ≤ 2293 ∧
      cachedF i < 10 ^ 9 *
        2 ^ (2293 - (67190827533444370663 - 8 * 10 ^ 17 * (i - 1)) / 30102999566398114 - cachedE i)) := by
  decide +kernel

theorem powerIndex_bounds {n : Nat} (hn : n < 2098) : powerIndex n < 87 ∧
    n + cachedE (powerIndex n) + pointShift n = 2293 ∧ 34 ≤ pointShift n ∧ pointShift n ≤ 60 ∧
    cachedF (powerIndex n) < 10 ^ 9 * 2 ^ pointShift n := by
  obtain ⟨i, hi⟩ : ∃ i, powerIndex n = i := ⟨_, rfl⟩
  rw [pointShift, hi]
  rw [powerIndex] at hi
  obtain hzero | ⟨hlo, hhi, hbits⟩ := cached_range i (by omega)
  · omega
  · have hle : 2293 - (67190827533444370663 - 8 * 10 ^ 17 * (i - 1)) / 30102999566398114 - cachedE i ≤
        2293 - n - cachedE i := by omega
    have hpow := Nat.pow_le_pow_right (show 0 < 2 by omega) hle
    exact ⟨by omega, by omega, by omega, by omega, lt_of_lt_of_le hbits (Nat.mul_le_mul_left _ hpow)⟩

theorem multiples_far : ∀ m < 1077, m = 0 ∨ 10 ^ 5 < m * 30102999566398114 % 10 ^ 17 ∧
    m * 30102999566398114 % 10 ^ 17 < 10 ^ 17 - 10 ^ 5 := by
  decide +kernel

theorem logTwo_eq :
    ∃ c, logTwo = .fin c ∧ |c - 30102999566398114 / 10 ^ 17| ≤ (2 : ℚ) ^ (-55 : Int) := by
  have hpos : |(30102999566398114 / 10 ^ 17 : ℚ)| = 30102999566398114 / 10 ^ 17 := by norm_num
  obtain ⟨c, hc, hnear⟩ := @round_within (30102999566398114 / 10 ^ 17) (-1) (by norm_num) (by norm_num)
    (by
      rw [hpos]
      calc (2 : ℚ) ^ (-1000 : Int) ≤ (2 : ℚ) ^ (-2 : Int) := zpow_le_zpow_right₀ (by norm_num) (by norm_num)
        _ ≤ _ := by norm_num)
    (by rw [hpos]; norm_num)
  exact ⟨c, hc, hnear⟩

theorem toInt_fin {q : ℚ} (hq : 0 ≤ q) : toInt (.fin q) = ⌊q⌋ := by
  rw [toInt, Int.tdiv_eq_ediv_of_nonneg (Rat.num_nonneg.mpr hq), Rat.floor_def']

theorem multiple_between {m : Int} (hm : m ≠ 0) (hlo : -1077 < m) (hhi : m < 1077) :
    ∃ j : Int, j * 10 ^ 17 + 10 ^ 5 < m * 30102999566398114 ∧
      m * 30102999566398114 < (j + 1) * 10 ^ 17 - 10 ^ 5 := by
  obtain h | ⟨h1, h2⟩ := multiples_far m.natAbs (by omega)
  · omega
  · rcases lt_or_gt_of_ne hm with hneg | hpos
    · refine ⟨-(m.natAbs * 30102999566398114 / 10 ^ 17 : Nat) - 1, ?_, ?_⟩ <;> omega
    · refine ⟨(m.natAbs * 30102999566398114 / 10 ^ 17 : Nat), ?_, ?_⟩ <;> omega

/-- The errors of the three roundings. -/
theorem scaled_log {m : Int} (hm : m ≠ 0) (hlo : -1077 < m) (hhi : m < 1077) :
    ∃ d, lift (· + 347) (lift ((m : ℚ) * ·) logTwo) = .fin d ∧
      |d - (m * (30102999566398114 / 10 ^ 17) + 347)| ≤ 9 / 10 ^ 13 := by
  obtain ⟨c, hc, hnear⟩ := logTwo_eq
  have hmabs : |(m : ℚ)| ≤ 1076 := by
    have : |m| ≤ 1076 := by rw [abs_le]; omega
    exact_mod_cast this
  have hmone : 1 ≤ |(m : ℚ)| := by
    have : 1 ≤ |m| := Int.one_le_abs hm
    exact_mod_cast this
  have hc' := abs_le.mp hnear
  have hcpos : 1 / 4 ≤ c ∧ c ≤ 2 / 5 := by
    norm_num at hc'
    constructor <;> linarith [hc'.1, hc'.2]
  have hproduct : |m * c| = |(m : ℚ)| * c := by rw [abs_mul, abs_of_pos (show 0 < c by linarith [hcpos.1])]
  obtain ⟨p, hp, hpnear⟩ := @round_within (m * c) 9 (by norm_num) (by norm_num)
    (by
      rw [hproduct]
      calc (2 : ℚ) ^ (-1000 : Int) ≤ (2 : ℚ) ^ (-2 : Int) :=
            zpow_le_zpow_right₀ (by norm_num) (by norm_num)
        _ ≤ 1 * (1 / 4) := by norm_num
        _ ≤ _ := mul_le_mul hmone hcpos.1 (by norm_num) (abs_nonneg _))
    (by
      rw [hproduct]
      calc |(m : ℚ)| * c ≤ 1076 * (2 / 5) := mul_le_mul hmabs hcpos.2 (by linarith) (by norm_num)
        _ < (2 : ℚ) ^ (9 : Int) := by norm_num)
  have hscaled : |m * c - m * (30102999566398114 / 10 ^ 17)| ≤ 1076 * (2 : ℚ) ^ (-55 : Int) := by
    rw [← mul_sub, abs_mul]
    exact mul_le_mul hmabs hnear (abs_nonneg _) (by norm_num)
  have hmc := abs_le.mp hmabs
  have hp' := abs_le.mp hpnear
  have hscaled' := abs_le.mp hscaled
  norm_num at hp' hscaled'
  have hplo : 22 ≤ p + 347 := by linarith [hp'.1, hscaled'.1, hmc.1]
  have hphi : p + 347 ≤ 1000 := by linarith [hp'.2, hscaled'.2, hmc.2]
  have hpabs : |p + 347| = p + 347 := abs_of_pos (by linarith)
  obtain ⟨d, hd, hdnear⟩ := @round_within (p + 347) 10 (by norm_num) (by norm_num)
    (by
      rw [hpabs]
      calc (2 : ℚ) ^ (-1000 : Int) ≤ (2 : ℚ) ^ (0 : Int) :=
            zpow_le_zpow_right₀ (by norm_num) (by norm_num)
        _ ≤ _ := by linarith)
    (by
      rw [hpabs]
      norm_num
      linarith)
  have hd' := abs_le.mp hdnear
  norm_num at hd'
  refine ⟨d, by simp only [hc, lift, Format.narrow, hp, hd], ?_⟩
  rw [abs_le]
  constructor <;> linarith [hd'.1, hd'.2, hp'.1, hp'.2, hscaled'.1, hscaled'.2]

theorem cut_fraction {d : ℚ} {j : Int} (hj : 0 ≤ j) (hlow : (j : ℚ) + 1 / 10 ^ 13 ≤ d) (hhigh : d < j + 1) :
    (if isPositive (lift (· - (toInt (.fin d) : ℚ)) (.fin d)) then toInt (.fin d) + 1 else toInt (.fin d)) =
      j + 1 := by
  have hjq : (0 : ℚ) ≤ j := by exact_mod_cast hj
  have hcut : toInt (.fin d) = j := by
    rw [toInt_fin (by linarith)]
    exact Int.floor_eq_iff.mpr ⟨by linarith, hhigh⟩
  have hpos : isPositive (lift (· - (j : ℚ)) (.fin d)) = true := by
    refine isPositive_round ?_ ?_
    · calc (2 : ℚ) ^ (-1000 : Int) ≤ (2 : ℚ) ^ (-44 : Int) :=
            zpow_le_zpow_right₀ (by norm_num) (by norm_num)
        _ ≤ 1 / 10 ^ 13 := by norm_num
        _ ≤ _ := by linarith
    · calc d - (j : ℚ) < (2 : ℚ) ^ (0 : Int) := by
            rw [zpow_zero]
            linarith
        _ ≤ _ := zpow_le_zpow_right₀ (by norm_num) (by norm_num)
  rw [hcut, if_pos hpos]

theorem cut_index {m : Int} (hlo : -1077 < m) (hhi : m < 1077) :
    ∃ dk k, lift (· + 347) (lift ((m : ℚ) * ·) logTwo) = dk ∧
      (if isPositive (lift (· - (toInt dk : ℚ)) dk) then toInt dk + 1 else toInt dk) = k ∧
      (k - 347) * 10 ^ 17 ≥ m * 30102999566398114 ∧
      (k - 348) * 10 ^ 17 < m * 30102999566398114 := by
  by_cases hm : m = 0
  · obtain ⟨c, hc, _⟩ := logTwo_eq
    have hzero : binary64.round 0 = .fin 0 := if_pos rfl
    have hrep : binary64.round 347 = .fin 347 :=
      round_of_representable ⟨347, 0, by norm_num [binary64], by decide, by decide, by norm_num⟩
    have hfloor : toInt (.fin 347) = 347 := rfl
    refine ⟨.fin 347, 347, ?_, ?_, by omega, by omega⟩
    · simp only [hm, hc, lift, Format.narrow, Int.cast_zero, zero_mul, hzero, zero_add, hrep]
    · simp only [hfloor, lift, Format.narrow, Int.cast_ofNat, sub_self, hzero, isPositive, lt_irrefl,
        decide_false, Bool.false_eq_true, if_false]
  · obtain ⟨j, hj, hj'⟩ := multiple_between hm hlo hhi
    obtain ⟨d, hd, hnear⟩ := scaled_log hm hlo hhi
    have hnear := abs_le.mp hnear
    -- The errors are below the distance to the next integers.
    have hjq : (j : ℚ) * 10 ^ 17 + 10 ^ 5 < m * 30102999566398114 := by exact_mod_cast hj
    have hjq' : (m : ℚ) * 30102999566398114 < (j + 1) * 10 ^ 17 - 10 ^ 5 := by exact_mod_cast hj'
    have hcut := @cut_fraction d (j + 347) (by omega)
      (by push_cast; linarith [hnear.1]) (by push_cast; linarith [hnear.2])
    exact ⟨.fin d, j + 348, hd, hcut.trans (by ring), by omega, by omega⟩

def cached (i : Nat) : DiyFp := ⟨cachedF i, cachedE i - 1220⟩

theorem getCachedPower_eq {n : Nat} (hn : n < 2098) :
    getCachedPower (n - 1137) = .ok (cached (powerIndex n), 348 - 8 * powerIndex n) := by
  have hm : (-61 - ((n : Int) - 1137) : Int) = 1076 - n := by ring
  obtain ⟨dk, k, hdk, hk, hlo, hhi⟩ := @cut_index (1076 - n) (by omega) (by omega)
  have hbounds := (powerIndex_bounds hn).1
  have hshift : k >>> (3 : Nat) = k / 8 := Int.shiftRight_eq_div_pow k 3
  have hquotient : ((67190827533444370663 - n * 30102999566398114) / 10 ^ 17 : Nat) = k := by omega
  have hindex : (k >>> (3 : Nat) + 1) % 2 ^ 32 = powerIndex n := by
    rw [hshift, ← hquotient, powerIndex]
    omega
  have hwide : powerIndex n <<< 3 % 2 ^ 32 = 8 * powerIndex n := by
    rw [Nat.shiftLeft_eq]
    omega
  have hentry : getCachedPowerByIndex (powerIndex n) = .ok (cached (powerIndex n)) := by
    rw [getCachedPowerByIndex, if_pos hbounds, (cached_bounds _ hbounds).2.2]
    rfl
  have hexponent : -(-348 + ((8 * powerIndex n : Nat) : Int)) = 348 - 8 * powerIndex n := by
    push_cast
    ring
  simp only [getCachedPower, hm, hdk, hk, hindex, Int.toNat_natCast, hentry, ok_bind, hwide, hexponent]

theorem cached_value {i : Nat} (h : i < 87) :
    |(cached i).value - (10 : ℚ) ^ (8 * i - 348 : Int)| ≤ (2 : ℚ) ^ (cached i).e / 2 := by
  obtain ⟨hlo, hhi⟩ := cached_near i h
  obtain ⟨s, hs⟩ : ∃ s, s = 2 ^ 1220 := ⟨_, rfl⟩
  obtain ⟨t, ht⟩ : ∃ t, t = 10 ^ 348 := ⟨_, rfl⟩
  rw [← hs, ← ht] at hlo hhi
  have hlo' : (2 * (cachedF i * 2 ^ cachedE i * t) : ℚ) ≤ 2 * (10 ^ (8 * i) * s) + 2 ^ cachedE i * t := by
    exact_mod_cast hlo
  have hhi' : (2 * (10 ^ (8 * i) * s) : ℚ) ≤ 2 * (cachedF i * 2 ^ cachedE i * t) + 2 ^ cachedE i * t := by
    exact_mod_cast hhi
  have htwo : (2 : ℚ) ^ ((cachedE i : Int) - (1220 : Nat)) = 2 ^ cachedE i / s := by
    rw [zpow_sub₀ (by norm_num), zpow_natCast, zpow_natCast, hs, Nat.cast_pow, Nat.cast_ofNat]
  have hten : (10 : ℚ) ^ (((8 * i : Nat) : Int) - (348 : Nat)) = 10 ^ (8 * i) / t := by
    rw [zpow_sub₀ (by norm_num), zpow_natCast, zpow_natCast, ht, Nat.cast_pow, Nat.cast_ofNat]
  have hs0 : (0 : ℚ) < s := by
    rw [hs, Nat.cast_pow]
    exact pow_pos (by norm_num) _
  have ht0 : (0 : ℚ) < t := by
    rw [ht, Nat.cast_pow]
    exact pow_pos (by norm_num) _
  have hvalue : (cached i).value = cachedF i * (2 ^ cachedE i / s) := by
    rw [← htwo]
    rfl
  have hunit : (2 : ℚ) ^ (cached i).e = 2 ^ cachedE i / s := htwo
  have hpower : (10 : ℚ) ^ (8 * i - 348 : Int) = 10 ^ (8 * i) / t := by
    rw [← hten]
    rfl
  have hleft : (cachedF i : ℚ) * (2 ^ cachedE i / s) - 10 ^ (8 * i) / t =
      (cachedF i * 2 ^ cachedE i * t - 10 ^ (8 * i) * s) / (s * t) := by
    field_simp
  have hright : (2 : ℚ) ^ cachedE i / s / 2 = 2 ^ cachedE i * t / 2 / (s * t) := by
    field_simp
  rw [hvalue, hunit, hpower, hleft, hright, abs_div, abs_of_pos (mul_pos hs0 ht0)]
  refine div_le_div_of_nonneg_right (abs_le.mpr ⟨?_, ?_⟩) (mul_pos hs0 ht0).le <;> linarith

/-- A product with a cached power is less than one unit from the exact product. -/
theorem mul_cached_near {x : DiyFp} (hx : x.f < 2 ^ 64) {i : Nat} (h : i < 87) :
    |(x.mul (cached i)).value - x.value * (10 : ℚ) ^ (8 * i - 348 : Int)| <
      (2 : ℚ) ^ (x.e + (cached i).e + 64) := by
  have hbounds := cached_bounds i h
  have hc : (cached i).f < 2 ^ 64 := hbounds.2.1
  obtain ⟨p, hp⟩ : ∃ p, (x.f * (cached i).f + 2 ^ 63) / 2 ^ 64 = p := ⟨_, rfl⟩
  rw [mul_eq hx hc, hp]
  have hunit := two_zpow_pos (x.e + (cached i).e + 64)
  -- The rounding of the product.
  have hround : |(p : ℚ) * 2 ^ 64 - x.f * (cached i).f| ≤ 2 ^ 63 := by
    have hlo : p * 2 ^ 64 ≤ x.f * (cached i).f + 2 ^ 63 := by omega
    have hhi : x.f * (cached i).f ≤ p * 2 ^ 64 + 2 ^ 63 := by omega
    have hlo' : (p * 2 ^ 64 : ℚ) ≤ x.f * (cached i).f + 2 ^ 63 := by exact_mod_cast hlo
    have hhi' : (x.f * (cached i).f : ℚ) ≤ p * 2 ^ 64 + 2 ^ 63 := by exact_mod_cast hhi
    exact abs_le.mpr ⟨by linarith, by linarith⟩
  have hexp : (2 : ℚ) ^ (x.e + (cached i).e + 64) = 2 ^ 64 * ((2 : ℚ) ^ x.e * (2 : ℚ) ^ (cached i).e) := by
    rw [zpow_add₀ (by norm_num), zpow_add₀ (by norm_num), mul_comm]
    rfl
  have hscale : 0 < (2 : ℚ) ^ x.e * (2 : ℚ) ^ (cached i).e := mul_pos (two_zpow_pos _) (two_zpow_pos _)
  have hfirst : |p * (2 : ℚ) ^ (x.e + (cached i).e + 64) - x.value * (cached i).value| ≤
      (2 : ℚ) ^ (x.e + (cached i).e + 64) / 2 := by
    have hsplit : p * (2 : ℚ) ^ (x.e + (cached i).e + 64) - x.value * (cached i).value =
        (p * 2 ^ 64 - x.f * (cached i).f) * ((2 : ℚ) ^ x.e * (2 : ℚ) ^ (cached i).e) := by
      rw [hexp, DiyFp.value, DiyFp.value]
      ring
    rw [hsplit, abs_mul, abs_of_pos hscale, hexp]
    calc |(p : ℚ) * 2 ^ 64 - x.f * (cached i).f| * ((2 : ℚ) ^ x.e * (2 : ℚ) ^ (cached i).e)
        ≤ 2 ^ 63 * ((2 : ℚ) ^ x.e * (2 : ℚ) ^ (cached i).e) := mul_le_mul_of_nonneg_right hround hscale.le
      _ = 2 ^ 64 * ((2 : ℚ) ^ x.e * (2 : ℚ) ^ (cached i).e) / 2 := by ring
  -- The error of the power.
  have hsecond : |x.value * (cached i).value - x.value * (10 : ℚ) ^ (8 * i - 348 : Int)| <
      (2 : ℚ) ^ (x.e + (cached i).e + 64) / 2 := by
    have hxf : (x.f : ℚ) < 2 ^ 64 := by exact_mod_cast hx
    have hxvalue : 0 ≤ x.value := mul_nonneg (Nat.cast_nonneg _) (two_zpow_pos _).le
    rw [← mul_sub, abs_mul, abs_of_nonneg hxvalue, hexp]
    calc x.value * |(cached i).value - (10 : ℚ) ^ (8 * i - 348 : Int)|
        ≤ x.value * ((2 : ℚ) ^ (cached i).e / 2) := mul_le_mul_of_nonneg_left (cached_value h) hxvalue
      _ = x.f * ((2 : ℚ) ^ x.e * (2 : ℚ) ^ (cached i).e / 2) := by
        rw [DiyFp.value]
        ring
      _ < 2 ^ 64 * ((2 : ℚ) ^ x.e * (2 : ℚ) ^ (cached i).e / 2) :=
        mul_lt_mul_of_pos_right hxf (half_pos hscale)
      _ = 2 ^ 64 * ((2 : ℚ) ^ x.e * (2 : ℚ) ^ (cached i).e) / 2 := by ring
  calc |p * (2 : ℚ) ^ (x.e + (cached i).e + 64) - x.value * (10 : ℚ) ^ (8 * i - 348 : Int)|
      ≤ |p * (2 : ℚ) ^ (x.e + (cached i).e + 64) - x.value * (cached i).value| +
          |x.value * (cached i).value - x.value * (10 : ℚ) ^ (8 * i - 348 : Int)| := abs_sub_le _ _ _
    _ < (2 : ℚ) ^ (x.e + (cached i).e + 64) := by linarith

end Cached

end SchemaCodeGen.SoftFloats
