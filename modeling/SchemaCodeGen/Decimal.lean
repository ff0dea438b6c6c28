import SchemaCodeGen.CString
import Mathlib.Data.Int.Init

namespace SchemaCodeGen.Decimal

open CString

def intText (n : Int) : Text := (toString n).toList

theorem digitsValue_eq (s : Text) : digitsValue s = Nat.ofDigitChars 10 s 0 :=
  Nat.ofDigitChars_eq_foldl.symm

theorem digitsValue_toDigits (n : Nat) : digitsValue (Nat.toDigits 10 n) = n := by
  rw [digitsValue_eq, Nat.ofDigitChars_ten_toDigits]

theorem isDigit_of_mem {n : Nat} {c : Char} (h : c ∈ Nat.toDigits 10 n) : c.isDigit = true :=
  Nat.isDigit_of_mem_toDigits (by decide) (by decide) h

theorem not_isSpace_of_isDigit {c : Char} (h : c.isDigit = true) : isSpace c = false := by
  have hc : 48 ≤ c.toNat ∧ c.toNat ≤ 57 := by simpa [Char.isDigit, UInt32.le_iff_toNat_le] using h
  have hspace : c ≠ ' ' := by
    rintro rfl
    exact absurd hc (by decide)
  simp only [isSpace, Bool.or_eq_false_iff, beq_eq_false_iff_ne, Bool.and_eq_false_iff,
    decide_eq_false_iff_not]
  exact ⟨hspace, .inr (by omega)⟩

theorem toLower_of_isDigit {c : Char} (h : c.isDigit = true) : c.toLower = c := by
  have hc : 48 ≤ c.toNat ∧ c.toNat ≤ 57 := by simpa [Char.isDigit, UInt32.le_iff_toNat_le] using h
  unfold Char.toLower
  rw [dif_neg]
  rintro ⟨hlo, _⟩
  have hA : 65 ≤ c.toNat := UInt32.le_iff_toNat_le.mp hlo
  omega

theorem sign_ne_of_isDigit {c : Char} (h : c.isDigit = true) : c ≠ '-' ∧ c ≠ '+' := by
  constructor <;> rintro rfl <;> exact absurd h (by decide)

theorem intText_natCast (n : Nat) : intText n = Nat.toDigits 10 n := by
  change n.repr.toList = _
  exact Nat.toList_repr

theorem intText_negSucc (n : Nat) : intText (Int.negSucc n) = '-' :: Nat.toDigits 10 (n + 1) := by
  change ("-" ++ (n + 1).repr).toList = _
  rw [String.toList_append, Nat.toList_repr]
  rfl

theorem decimal_digits {digits rest : Text} (hne : digits ≠ []) (hd : ∀ c ∈ digits, c.isDigit = true)
    (hrest : ∀ c ∈ rest.head?, c.isDigit = false) : decimal (digits ++ rest) = digitsValue digits := by
  obtain ⟨c, t, rfl⟩ := List.exists_cons_of_ne_nil hne
  have hc := hd c List.mem_cons_self
  have htake : (c :: t ++ rest).takeWhile Char.isDigit = c :: t := takeWhile_before hd hrest
  have hdrop : (c :: t ++ rest).dropWhile isSpace = c :: (t ++ rest) := by
    rw [List.cons_append, List.dropWhile_cons_of_neg (by simp [not_isSpace_of_isDigit hc])]
  rw [decimal, hdrop]
  split
  next heq => exact absurd (List.cons.inj heq).1 (sign_ne_of_isDigit hc).1
  next heq => exact absurd (List.cons.inj heq).1 (sign_ne_of_isDigit hc).2
  next => rw [← htake]; rfl

theorem decimal_intText (n : Int) : decimal (intText n) = n := by
  cases n with
  | ofNat n =>
      have hall : ∀ c ∈ Nat.toDigits 10 n, c.isDigit = true := fun c hc => isDigit_of_mem hc
      have h : decimal (Nat.toDigits 10 n ++ []) = digitsValue (Nat.toDigits 10 n) :=
        decimal_digits Nat.toDigits_ne_nil hall (by simp)
      rw [List.append_nil, digitsValue_toDigits] at h
      rw [Int.ofNat_eq_natCast, intText_natCast, h]
  | negSucc n =>
      have htake : (Nat.toDigits 10 (n + 1)).takeWhile Char.isDigit = Nat.toDigits 10 (n + 1) :=
        List.takeWhile_eq_self_iff.mpr fun c hc => isDigit_of_mem hc
      have hdrop : ('-' :: Nat.toDigits 10 (n + 1)).dropWhile isSpace = '-' :: Nat.toDigits 10 (n + 1) :=
        List.dropWhile_cons_of_neg (by decide)
      rw [intText_negSucc, decimal, hdrop]
      simp only [htake, digitsValue_toDigits]
      rfl

theorem nulFree_intText (n : Int) : NulFree (intText n) := by
  have hdigits : ∀ m : Nat, nul ∉ Nat.toDigits 10 m :=
    fun m h => absurd (isDigit_of_mem h) (by decide)
  cases n with
  | ofNat n =>
      rw [Int.ofNat_eq_natCast, intText_natCast]
      exact hdigits n
  | negSucc n =>
      rw [intText_negSucc, NulFree, List.mem_cons, not_or]
      exact ⟨by decide, hdigits (n + 1)⟩

end SchemaCodeGen.Decimal
