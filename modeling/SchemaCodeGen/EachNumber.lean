import SchemaCodeGen.StringHelper

namespace SchemaCodeGen.EachNumber

open CString Decimal Generated StringHelper

section Calls

theorem length_next_lt {s t : Text} {n : Nat} (h : getUint32Value (some s) = (n, some t)) :
    t.length < s.length := by
  rw [getUint32Value] at h
  cases hskip : skipNonDigits (some s) with
  | none => simp [hskip] at h
  | some u =>
      obtain ⟨hsuffix, c, v, rfl, hc⟩ := skipNonDigits_eq_some hskip
      have hdigits : ((c :: v).dropWhile isDigit).length ≤ v.length := by
        rw [List.dropWhile_cons_of_pos hc]
        exact (List.dropWhile_sublist _).length_le
      have hle := hsuffix.length_le
      rw [List.length_cons] at hle
      simp only [hskip, skipDigits] at h
      split_ifs at h with hend
      · cases h
      · have hrest := (skipNonDigits_eq_some (Prod.ext_iff.mp h).2).1.length_le
        omega

/-- The numbers that calls return, each from the pointer of the one before, until it is null. -/
def readNumbers (s : Text) : List Nat :=
  match _ : getUint32Value (some s) with
  | (n, none) => [n]
  | (n, some next) => n :: readNumbers next
termination_by s.length
decreasing_by
  apply length_next_lt
  assumption

theorem readNumbers_last {s : Text} {n : Nat} (h : getUint32Value (some s) = (n, none)) :
    readNumbers s = [n] := by
  rw [readNumbers]
  split
  · rename_i h'
    rw [h] at h'
    cases h'
    rfl
  · rename_i h'
    rw [h] at h'
    cases h'

theorem readNumbers_next {s t : Text} {n : Nat} (h : getUint32Value (some s) = (n, some t)) :
    readNumbers s = n :: readNumbers t := by
  rw [readNumbers]
  split
  · rename_i h'
    rw [h] at h'
    cases h'
  · rename_i h'
    rw [h] at h'
    cases h'
    rfl

end Calls

/-- A number that an `int` holds, as written in decimal. -/
structure Numeral where
  value : Nat
  text : Text
  nonempty : text ≠ []
  digits : ∀ c ∈ text, c.isDigit = true
  written : digitsValue text = value
  small : value < 2 ^ 31

structure Gap where
  text : Text
  plain : ∀ c ∈ text, c.isDigit = false ∧ c ≠ '+' ∧ c ≠ '-' ∧ c ≠ '&'

/-- Numbers with something between every two of them, and any gaps around. -/
structure Sequence where
  lead : Gap
  first : Numeral
  rest : List (Gap × Numeral)
  trail : Gap
  apart : ∀ p ∈ rest, p.1.text ≠ []

def joined : Numeral → List (Gap × Numeral) → Gap → Text
  | n, [], trail => n.text ++ trail.text
  | n, (gap, m) :: rest, trail => n.text ++ (gap.text ++ joined m rest trail)

namespace Sequence

def text (s : Sequence) : Text := s.lead.text ++ joined s.first s.rest s.trail

def numbers (s : Sequence) : List Nat := s.first.value :: s.rest.map fun p => p.2.value

end Sequence

section Numbers

variable {n : Numeral} {gap : Gap} {rest : Text}

theorem Gap.isDigit_eq_false (gap : Gap) : ∀ c ∈ gap.text, isDigit c = false := by
  intro c hc
  obtain ⟨hdigit, hplus, hminus, _⟩ := gap.plain c hc
  simp [isDigit, hdigit, hplus, hminus]

theorem Numeral.isDigit_eq_true (n : Numeral) : ∀ c ∈ n.text, isDigit c = true := by
  intro c hc
  simp [isDigit, n.digits c hc]

theorem skipNonDigits_gap (gap : Gap) (hrest : ∀ c ∈ rest.head?, isDigit c = true) :
    skipNonDigits (some (gap.text ++ rest)) = if rest = [] then none else some rest := by
  have hhead : (gap.text ++ rest).head? ≠ some '&' := by
    rw [List.head?_append]
    cases hgap : gap.text with
    | nil =>
        intro h
        exact absurd (hrest '&' h) (by decide)
    | cons c s =>
        intro h
        exact (gap.plain c (hgap ▸ List.mem_cons_self)).2.2.2 (Option.some.inj h)
  have hdrop : (gap.text ++ rest).dropWhile (fun c => !isDigit c) = rest := by
    apply dropWhile_before
    · intro c hc
      rw [gap.isDigit_eq_false c hc]
      rfl
    · intro c hc
      rw [hrest c hc]
      rfl
  rw [skipNonDigits, skipEntities_of_head hhead]
  simp only [hdrop]

/-- From before a number, a call returns it and leaves the pointer at the next one. -/
theorem getUint32Value_number (lead : Gap) (n : Numeral) (gap : Gap)
    (hrest : ∀ c ∈ rest.head?, isDigit c = true) (hgap : gap.text = [] → rest = []) :
    getUint32Value (some (lead.text ++ (n.text ++ (gap.text ++ rest)))) =
      (n.value, if rest = [] then none else some rest) := by
  obtain ⟨c, t, htext⟩ := List.exists_cons_of_ne_nil n.nonempty
  have hnumber : ∀ d ∈ (n.text ++ (gap.text ++ rest)).head?, isDigit d = true := by
    rw [htext]
    rintro d ⟨⟩
    exact n.isDigit_eq_true c (htext ▸ List.mem_cons_self)
  have hbehind : ∀ d ∈ (gap.text ++ rest).head?, isDigit d = false := by
    intro d hd
    cases hg : gap.text with
    | nil => simp [hg, hgap hg] at hd
    | cons e g =>
        rw [hg] at hd
        obtain rfl := Option.some.inj hd
        exact gap.isDigit_eq_false _ (hg ▸ List.mem_cons_self)
  have hvalue : atoi (n.text ++ (gap.text ++ rest)) = n.value := by
    have hdecimal : decimal (n.text ++ (gap.text ++ rest)) = digitsValue n.text := by
      apply decimal_digits n.nonempty n.digits
      intro d hd
      have hfalse := hbehind d hd
      simp only [isDigit, Bool.or_eq_false_iff] at hfalse
      exact hfalse.1.1
    have hsmall := n.small
    rw [atoi, hdecimal, n.written, clamp]
    omega
  have hdigits : (n.text ++ (gap.text ++ rest)).dropWhile isDigit = gap.text ++ rest :=
    dropWhile_before n.isDigit_eq_true hbehind
  have hne : n.text ++ (gap.text ++ rest) ≠ [] := by
    rw [htext]
    exact List.cons_ne_nil _ _
  rw [getUint32Value, skipNonDigits_gap lead hnumber, if_neg hne]
  simp only [hvalue, skipDigits, hdigits]
  have hsmall := n.small
  have hmod : ((n.value : Int) % 2 ^ 32).toNat = n.value := by omega
  rw [hmod]
  split_ifs with hend hlast hlast
  · rfl
  · exact absurd (List.append_eq_nil_iff.mp hend).2 hlast
  · have hskip := (skipNonDigits_gap gap hrest).trans (if_pos hlast)
    exact congrArg (Prod.mk n.value) hskip
  · have hskip := (skipNonDigits_gap gap hrest).trans (if_neg hlast)
    exact congrArg (Prod.mk n.value) hskip

theorem head_joined (n : Numeral) (rest : List (Gap × Numeral)) (trail : Gap) :
    joined n rest trail ≠ [] ∧ ∀ c ∈ (joined n rest trail).head?, isDigit c = true := by
  obtain ⟨c, t, htext⟩ := List.exists_cons_of_ne_nil n.nonempty
  have hc : isDigit c = true := n.isDigit_eq_true c (htext ▸ List.mem_cons_self)
  cases rest with
  | nil => simp [joined, htext, hc]
  | cons p rest => simp [joined, htext, hc]

theorem readNumbers_joined (lead : Gap) (n : Numeral) (rest : List (Gap × Numeral)) (trail : Gap)
    (hapart : ∀ p ∈ rest, p.1.text ≠ []) :
    readNumbers (lead.text ++ joined n rest trail) = n.value :: rest.map fun p => p.2.value := by
  induction rest generalizing lead n with
  | nil =>
      have hcall : getUint32Value (some (lead.text ++ (n.text ++ (trail.text ++ [])))) =
          (n.value, if ([] : Text) = [] then none else some []) :=
        getUint32Value_number lead n trail (by simp) fun _ => rfl
      rw [List.append_nil, if_pos rfl] at hcall
      exact readNumbers_last hcall
  | cons p rest ih =>
      obtain ⟨gap, m⟩ := p
      obtain ⟨hne, hhead⟩ := head_joined m rest trail
      have hcall := getUint32Value_number lead n gap hhead fun h =>
        absurd h (hapart (gap, m) List.mem_cons_self)
      rw [if_neg hne] at hcall
      have hnext := ih ⟨[], by simp⟩ m fun p hp => hapart p (List.mem_cons_of_mem _ hp)
      rw [joined, readNumbers_next hcall]
      exact congrArg (n.value :: ·) hnext

/-- Every number is read once, in order. -/
theorem readNumbers_text (s : Sequence) : readNumbers s.text = s.numbers :=
  readNumbers_joined s.lead s.first s.rest s.trail s.apart

example : getUint32Value (some "x7, 012\n".toList) = (7, some "012\n".toList) := by decide

end Numbers

end SchemaCodeGen.EachNumber
