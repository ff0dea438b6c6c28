import SchemaCodeGen.CNumber

/-! The readers of hex digits in `StringHelper.cpp`. End pointers are counted from `foo` on. -/

namespace SchemaCodeGen.HexReaders

open CString CNumber

def toLower (c : Char) : Char := if 'A' ≤ c ∧ c ≤ 'Z' then Char.ofNat (c.toNat + 32) else c

def getHex (c : Char) : UInt32 :=
  let c := toLower c
  if '0' ≤ c ∧ c ≤ '9' then c.val - '0'.val
  else if 'a' ≤ c ∧ c ≤ 'f' then 10 + c.val - 'a'.val
  else 0

/-- A character of a text or its terminator. An access behind that fails. -/
def charAt (s : Text) (i : Nat) : Option Char := (s ++ [nul])[i]?

def getHEX1 (foo : Text) : Option (UInt8 × Nat) := do
  let c0 ← charAt foo 0
  let c1 ← charAt foo 1
  let ret := (getHex c0 <<< 4) ||| getHex c1
  return (ret.toUInt8, 2)

def getHEX2 (foo : Text) : Option (UInt16 × Nat) := do
  let c0 ← charAt foo 0
  let c1 ← charAt foo 1
  let c2 ← charAt foo 2
  let c3 ← charAt foo 3
  let ret := (getHex c0 <<< 12) ||| (getHex c1 <<< 8) ||| (getHex c2 <<< 4) ||| getHex c3
  return (ret.toUInt16, 4)

def push (ret v : UInt32) : UInt32 := (ret <<< 4) ||| v

def getHEX4 (foo : Text) : Option (UInt32 × Nat) := do
  let ret ← (List.range 8).foldlM (fun ret i => (charAt foo i).map fun c => push ret (getHex c)) 0
  return (ret, 8)

/-- The digit as `getHEX` reads it, or none where it breaks. -/
def digit (c : Char) : Option UInt32 :=
  let c := toLower c
  if '0' ≤ c ∧ c ≤ '9' then some (c.val - '0'.val)
  else if 'a' ≤ c ∧ c ≤ 'f' then some (10 + c.val - 'a'.val)
  else none

def getHEXLoop : Text → UInt32 → Nat → UInt32 × Nat
  | [], ret, i => (ret, i)
  | c :: foo, ret, i =>
      match digit c with
      | none => (ret, i)
      | some v => getHEXLoop foo (push ret v) (i + 1)

def getHEX (foo : Text) : UInt32 × Nat := getHEXLoop foo 0 0

section Digits

theorem not_le_of_large {c d : Char} (hc : ¬ c.toNat < 128) (hd : d.toNat < 128) : ¬ c ≤ d := by
  intro h
  have hle : c.toNat ≤ d.toNat := UInt32.le_iff_toNat_le.mp h
  omega

theorem toLower_of_large {c : Char} (hc : ¬ c.toNat < 128) : toLower c = c :=
  if_neg fun h => not_le_of_large hc (by decide) h.2

theorem toLower_eq (c : Char) : toLower c = c.toLower := by
  by_cases hc : c.toNat < 128
  · have hall : ∀ n < 128, toLower (Char.ofNat n) = (Char.ofNat n).toLower := by decide +kernel
    have h := hall c.toNat hc
    rwa [Char.ofNat_toNat] at h
  · have hbig : ¬ c ≤ 'Z' := not_le_of_large hc (by decide)
    rw [toLower_of_large hc]
    unfold Char.toLower
    rw [dif_neg fun h => hbig h.2]

theorem digit_of_large {c : Char} (hc : ¬ c.toNat < 128) : digit c = none := by
  have hnine : ¬ c ≤ '9' := not_le_of_large hc (by decide)
  have hf : ¬ c ≤ 'f' := not_le_of_large hc (by decide)
  rw [digit, toLower_of_large hc]
  simp only [hnine, hf, and_false, if_false]

theorem digitValue_of_large {c : Char} (hc : ¬ c.toNat < 128) : digitValue c = 36 := by
  have hnum : ¬ c.isDigit = true := by
    unfold Char.isDigit
    rw [Bool.and_eq_true, decide_eq_true_eq, decide_eq_true_eq]
    exact fun h => not_le_of_large hc (d := '9') (by decide) h.2
  have hlower : ¬ c.isLower = true := by
    unfold Char.isLower
    rw [Bool.and_eq_true, decide_eq_true_eq, decide_eq_true_eq]
    exact fun h => not_le_of_large hc (d := 'z') (by decide) h.2
  have hupper : ¬ c.isUpper = true := by
    unfold Char.isUpper
    rw [decide_eq_true_eq]
    exact fun h => not_le_of_large hc (d := 'Z') (by decide) h.2
  rw [digitValue, if_neg hnum, if_neg hlower, if_neg hupper]

theorem digit_eq (c : Char) : (digit c).map UInt32.toNat =
    if isDigitOf 16 c then some (digitValue c) else none := by
  by_cases hc : c.toNat < 128
  · have hall : ∀ n < 128, (digit (Char.ofNat n)).map UInt32.toNat =
        if isDigitOf 16 (Char.ofNat n) then some (digitValue (Char.ofNat n)) else none := by
      decide +kernel
    have h := hall c.toNat hc
    rwa [Char.ofNat_toNat] at h
  · rw [digit_of_large hc, isDigitOf, digitValue_of_large hc]
    rfl

theorem getHex_eq (c : Char) : getHex c = (digit c).getD 0 := by
  rw [getHex, digit]
  split_ifs <;> rfl

theorem digit_of_isDigitOf {c : Char} (h : isDigitOf 16 c = true) :
    digit c = some (getHex c) ∧ (getHex c).toNat = digitValue c := by
  have hdigit := digit_eq c
  rw [if_pos h] at hdigit
  obtain ⟨v, hv, htoNat⟩ := Option.map_eq_some_iff.mp hdigit
  rw [getHex_eq, hv]
  exact ⟨rfl, htoNat⟩

theorem digit_of_not_isDigitOf {c : Char} (h : ¬ isDigitOf 16 c = true) : digit c = none := by
  have hdigit := digit_eq c
  rw [if_neg h] at hdigit
  exact Option.map_eq_none_iff.mp hdigit

theorem toNat_push (ret : UInt32) {v : UInt32} (hv : v.toNat < 16) :
    (push ret v).toNat = (16 * ret.toNat + v.toNat) % 2 ^ 32 := by
  have hshift : (ret <<< 4).toNat = (ret.toNat % 2 ^ 28) <<< 4 := by
    rw [UInt32.toNat_shiftLeft]
    simp only [UInt32.reduceToNat, Nat.reduceMod, Nat.shiftLeft_eq]
    omega
  rw [push, UInt32.toNat_or, hshift, ← Nat.shiftLeft_add_eq_or_of_lt (show v.toNat < 2 ^ 4 by omega),
    Nat.shiftLeft_eq]
  omega

end Digits

section Shifts

variable {p s : Text} {n : Nat}

def shifted (p : Text) (ret : UInt32) : UInt32 := p.foldl (fun ret c => push ret (getHex c)) ret

theorem natOf_snoc (b : Nat) (p : Text) (c : Char) : natOf b (p ++ [c]) = b * natOf b p + digitValue c :=
  List.foldl_concat _ _ _ _

theorem natOf_lt (h : ∀ c ∈ p, isDigitOf 16 c = true) : natOf 16 p < 16 ^ p.length := by
  induction p using List.reverseRecOn with
  | nil => exact Nat.one_pos
  | append_singleton p c ih =>
      have hp := ih fun d hd => h d (List.mem_append_left _ hd)
      have hc : digitValue c < 16 := by simpa [isDigitOf] using h c (by simp)
      rw [natOf_snoc, List.length_append, List.length_singleton, pow_succ]
      omega

theorem toNat_shifted (h : ∀ c ∈ p, isDigitOf 16 c = true) :
    (shifted p 0).toNat = natOf 16 p % 2 ^ 32 := by
  induction p using List.reverseRecOn with
  | nil => rfl
  | append_singleton p c ih =>
      have hp := ih fun d hd => h d (List.mem_append_left _ hd)
      have hdigit := h c (by simp)
      have hc : digitValue c < 16 := by simpa [isDigitOf] using hdigit
      have hvalue := (digit_of_isDigitOf hdigit).2
      have hsnoc : shifted (p ++ [c]) 0 = push (shifted p 0) (getHex c) := List.foldl_concat _ _ _ _
      rw [hsnoc, toNat_push _ (hvalue ▸ hc), hp, hvalue, natOf_snoc]
      omega

def hexDigits (s : Text) : Text := s.takeWhile (isDigitOf 16)

theorem getHEXLoop_eq (s : Text) (ret : UInt32) (i : Nat) :
    getHEXLoop s ret i = (shifted (hexDigits s) ret, i + (hexDigits s).length) := by
  induction s generalizing ret i with
  | nil => rfl
  | cons c s ih =>
      rw [getHEXLoop, hexDigits]
      by_cases hc : isDigitOf 16 c = true
      · rw [(digit_of_isDigitOf hc).1, List.takeWhile_cons_of_pos hc, List.length_cons]
        exact (ih (push ret (getHex c)) (i + 1)).trans (by rw [Nat.add_assoc, Nat.add_comm 1]; rfl)
      · rw [digit_of_not_isDigitOf hc, List.takeWhile_cons_of_neg hc]
        rfl

theorem charAt_eq {i : Nat} (h : i < s.length) : charAt s i = s[i]? := List.getElem?_append_left h

theorem getHEX4Loop_eq (h : n ≤ s.length) :
    (List.range n).foldlM (fun ret i => (charAt s i).map fun c => push ret (getHex c)) 0 =
      some (shifted (s.take n) 0) := by
  induction n with
  | zero => rfl
  | succ n ih =>
      have hlt : n < s.length := h
      rw [List.range_succ, List.foldlM_append, ih (Nat.le_of_succ_le h), List.take_succ_eq_append_getElem hlt]
      simp only [Option.bind_eq_bind, Option.bind_some, List.foldlM_cons, List.foldlM_nil, charAt_eq hlt,
        List.getElem?_eq_getElem hlt, Option.map_some, Option.pure_def, shifted, List.foldl_append,
        List.foldl_cons, List.foldl_nil]

end Shifts

section Readers

variable {s : Text} {n : Nat}

def StartsHex (n : Nat) (s : Text) : Prop := n ≤ s.length ∧ ∀ c ∈ s.take n, isDigitOf 16 c = true

/-- The value of the first `n` characters and a pointer just past them, as `getHEX` gives it on
the text cut off there. -/
def Reads (n : Nat) (s : Text) (result : Option (Nat × Nat)) : Prop :=
  result = some (natOf 16 (s.take n), n) ∧
    result = some ((getHEX (s.take n)).1.toNat, (getHEX (s.take n)).2)

theorem natOf_take_lt (h : StartsHex n s) : natOf 16 (s.take n) < 16 ^ n := by
  have hlt := natOf_lt h.2
  rwa [List.length_take, Nat.min_eq_left h.1] at hlt

theorem getHEX_take (hn : n ≤ 8) (h : StartsHex n s) :
    (getHEX (s.take n)).1.toNat = natOf 16 (s.take n) ∧ (getHEX (s.take n)).2 = n := by
  have hall : hexDigits (s.take n) = s.take n := List.takeWhile_eq_self_iff.mpr h.2
  have hpow : 16 ^ n ≤ 16 ^ 8 := Nat.pow_le_pow_right (by decide) hn
  have hlt := natOf_take_lt h
  rw [getHEX, getHEXLoop_eq, hall, toNat_shifted h.2, List.length_take, Nat.min_eq_left h.1]
  exact ⟨Nat.mod_eq_of_lt (by omega), Nat.zero_add n⟩

theorem reads_shifted (hn : n ≤ 8) (h : StartsHex n s) :
    Reads n s (some ((shifted (s.take n) 0).toNat % 16 ^ n, n)) := by
  have hpow : 16 ^ n ≤ 16 ^ 8 := Nat.pow_le_pow_right (by decide) hn
  have hlt := natOf_take_lt h
  have hvalue : (shifted (s.take n) 0).toNat % 16 ^ n = natOf 16 (s.take n) := by
    rw [toNat_shifted h.2, Nat.mod_eq_of_lt (a := natOf 16 (s.take n)) (by omega), Nat.mod_eq_of_lt hlt]
  obtain ⟨hget, hend⟩ := getHEX_take hn h
  rw [Reads, hget, hend, hvalue]
  exact ⟨rfl, rfl⟩

theorem push_zero (v : UInt32) : push 0 v = v := by
  rw [push, UInt32.zero_shiftLeft, UInt32.zero_or]

theorem push_push_push (a b c d : UInt32) :
    push (push (push a b) c) d = (a <<< 12) ||| (b <<< 8) ||| (c <<< 4) ||| d := by
  have h8 : ∀ x : UInt32, x <<< 4 <<< 4 = x <<< 8 := fun x =>
    (UInt32.shiftLeft_add (b := 4) (c := 4) (by decide) (by decide) (by decide)).symm
  have h12 : ∀ x : UInt32, x <<< 8 <<< 4 = x <<< 12 := fun x =>
    (UInt32.shiftLeft_add (b := 8) (c := 4) (by decide) (by decide) (by decide)).symm
  simp only [push, UInt32.shiftLeft_or, h8, h12]

theorem getHEX1_reads (h : StartsHex 2 s) : Reads 2 s ((getHEX1 s).map fun r => (r.1.toNat, r.2)) := by
  obtain ⟨c0, c1, t, rfl⟩ : ∃ c0 c1 t, s = c0 :: c1 :: t := by
    match s, h.1 with
    | c0 :: c1 :: t, _ => exact ⟨c0, c1, t, rfl⟩
  have hshifted : shifted [c0, c1] 0 = (getHex c0 <<< 4) ||| getHex c1 :=
    congrArg (push · (getHex c1)) (push_zero (getHex c0))
  have hresult : (getHEX1 (c0 :: c1 :: t)).map (fun r => (r.1.toNat, r.2)) =
      some ((shifted [c0, c1] 0).toNat % 16 ^ 2, 2) := by
    rw [hshifted]
    rfl
  rw [hresult]
  exact reads_shifted (by decide) h

theorem getHEX2_reads (h : StartsHex 4 s) : Reads 4 s ((getHEX2 s).map fun r => (r.1.toNat, r.2)) := by
  obtain ⟨c0, c1, c2, c3, t, rfl⟩ : ∃ c0 c1 c2 c3 t, s = c0 :: c1 :: c2 :: c3 :: t := by
    match s, h.1 with
    | c0 :: c1 :: c2 :: c3 :: t, _ => exact ⟨c0, c1, c2, c3, t, rfl⟩
  have hshifted : shifted [c0, c1, c2, c3] 0 =
      (getHex c0 <<< 12) ||| (getHex c1 <<< 8) ||| (getHex c2 <<< 4) ||| getHex c3 := by
    rw [← push_push_push, ← push_zero (getHex c0)]
    rfl
  have hresult : (getHEX2 (c0 :: c1 :: c2 :: c3 :: t)).map (fun r => (r.1.toNat, r.2)) =
      some ((shifted [c0, c1, c2, c3] 0).toNat % 16 ^ 4, 4) := by
    rw [hshifted]
    rfl
  rw [hresult]
  exact reads_shifted (by decide) h

theorem getHEX4_reads (h : StartsHex 8 s) : Reads 8 s ((getHEX4 s).map fun r => (r.1.toNat, r.2)) := by
  have hresult : (getHEX4 s).map (fun r => (r.1.toNat, r.2)) =
      some ((shifted (s.take 8) 0).toNat % 16 ^ 8, 8) := by
    have hmod : (shifted (s.take 8) 0).toNat % 16 ^ 8 = (shifted (s.take 8) 0).toNat :=
      Nat.mod_eq_of_lt (shifted (s.take 8) 0).toNat_lt
    rw [getHEX4, getHEX4Loop_eq h.1, hmod]
    rfl
  rw [hresult]
  exact reads_shifted le_rfl h

/-- `getHEX` reads the longest prefix of hex digits, and each of the others what `getHEX` reads
of its digits. -/
theorem readers_agree (s : Text) :
    ((getHEX s).1.toNat = natOf 16 (hexDigits s) % 2 ^ 32 ∧ (getHEX s).2 = (hexDigits s).length) ∧
    (StartsHex 2 s → Reads 2 s ((getHEX1 s).map fun r => (r.1.toNat, r.2))) ∧
    (StartsHex 4 s → Reads 4 s ((getHEX2 s).map fun r => (r.1.toNat, r.2))) ∧
    (StartsHex 8 s → Reads 8 s ((getHEX4 s).map fun r => (r.1.toNat, r.2))) := by
  have hall : ∀ c ∈ hexDigits s, isDigitOf 16 c = true := fun c hc => List.mem_takeWhile_imp hc
  refine ⟨?_, getHEX1_reads, getHEX2_reads, getHEX4_reads⟩
  rw [getHEX, getHEXLoop_eq, toNat_shifted hall]
  exact ⟨rfl, Nat.zero_add _⟩

/-- Nine digits wrap around, and the first eight of them do not. -/
theorem readers_agree_nine :
    getHEX "89aBcDeF0g".toList = (0x9abcdef0, 9) ∧
      Reads 8 "89aBcDeF0g".toList ((getHEX4 "89aBcDeF0g".toList).map fun r => (r.1.toNat, r.2)) ∧
      getHEX4 "89aBcDeF0g".toList = some (0x89abcdef, 8) := by
  have hdigits : ("89aBcDeF0g".toList.take 8).all (isDigitOf 16) = true := by decide
  have hstarts : StartsHex 8 "89aBcDeF0g".toList := ⟨by decide, List.all_eq_true.mp hdigits⟩
  exact ⟨by decide, (readers_agree "89aBcDeF0g".toList).2.2.2 hstarts, by decide⟩

end Readers

end SchemaCodeGen.HexReaders
