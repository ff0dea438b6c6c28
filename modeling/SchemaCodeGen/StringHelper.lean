import SchemaCodeGen.Decimal
import SchemaCodeGen.Generated

/-! The number readers of `StringHelper.cpp`. A pointer into the text is the rest of the
text from there on, or none when it is null. -/

namespace SchemaCodeGen.StringHelper

open CString Decimal Generated

def isDigit (c : Char) : Bool := c.isDigit || c == '-' || c == '+'

/-- Entities the text begins with. The flag says that the text begins inside of one. -/
def skipEntities : Bool → Text → Text
  | _, [] => []
  | true, c :: s => skipEntities (c != ';') s
  | false, c :: s => if c = '&' then skipEntities true s else c :: s

def skipDigits (s : Text) : Option Text :=
  let rest := s.dropWhile isDigit
  if rest = [] then none else some rest

def skipNonDigits : Option Text → Option Text
  | none => none
  | some s =>
      let rest := (skipEntities false s).dropWhile fun c => !isDigit c
      if rest = [] then none else some rest

def isWhitespace (c : Char) : Bool :=
  c == ' ' || c == '\t' || c == '\r' || c == '\n' || c == ',' || c == '&'

def skipWhitespace (s : Text) : Text := s.dropWhile isWhitespace

def skipEntity (s : Text) : Text := (s.dropWhile (· != ';')).tail

/-- The loop of `getUintValue`: what it copies, and the pointer where it met the end of the
number. It stays null when there is no room left before. -/
def copyNumber : Nat → Text → Text × Option Text
  | 0, _ => ([], none)
  | _ + 1, [] => ([], some [])
  | n + 1, c :: s =>
      if isWhitespace c then ([], some (c :: s))
      else
        let copied := copyNumber n s
        (c.toLower :: copied.1, copied.2)

def maxNum : Nat := 32

def getUintValue (str next : Option Text) : Nat × Option Text :=
  match str with
  | none | some [] => (0, next)
  | some (c :: s) =>
      let str := skipWhitespace (c :: s)
      let str := if str.head? = some '&' then skipWhitespace (skipEntity str) else str
      let copied := copyNumber (maxNum - 1) str
      ((atoi copied.1 % 2 ^ 32).toNat, copied.2)

/-- What `getUint3` returns and leaves in its arguments. -/
structure Uint3 where
  ret : Bool := false
  next : Option Text
  i1 : Nat := 0
  i2 : Nat := 0
  i3 : Nat := 0
  deriving DecidableEq, Repr

/-- There is no result when a null pointer is read. -/
def getUint3 (str next : Option Text) : Option Uint3 :=
  match skipNonDigits str with
  | none => some { next := next }
  | some str =>
      if str.head?.any isDigit then
        let first := getUintValue (some str) none
        first.2.bind fun mynext =>
          if mynext = [] then some { next := some [], i1 := first.1 }
          else
            let second := getUintValue (some mynext) (some mynext)
            match second.2 with
            | none => some { next := none, i1 := first.1, i2 := second.1 }
            | some mynext =>
                let third := getUintValue (some mynext) (some mynext)
                some { ret := true, next := third.2, i1 := first.1, i2 := second.1, i3 := third.1 }
      else some { next := next }

def getUint32Value (str : Option Text) : Nat × Option Text :=
  match skipNonDigits str with
  | none => (0, none)
  | some str =>
      let next :=
        match skipDigits str with
        | none => none
        | some str => skipNonDigits (some str)
      ((atoi str % 2 ^ 32).toNat, next)

section Skips

theorem skipEntities_suffix (inside : Bool) (s : Text) : skipEntities inside s <:+ s := by
  fun_induction skipEntities inside s with
  | case1 => exact List.suffix_rfl
  | case2 c s ih => exact ih.trans (List.suffix_cons c s)
  | case3 s ih => exact ih.trans (List.suffix_cons _ s)
  | case4 => exact List.suffix_rfl

theorem skipEntities_of_head {s : Text} (h : s.head? ≠ some '&') : skipEntities false s = s := by
  cases s with
  | nil => rfl
  | cons c s =>
      rw [skipEntities, if_neg]
      rintro rfl
      exact h rfl

theorem skipNonDigits_eq_some {s t : Text} (h : skipNonDigits (some s) = some t) :
    t <:+ s ∧ ∃ c u, t = c :: u ∧ isDigit c = true := by
  rw [skipNonDigits] at h
  split_ifs at h with hne
  obtain rfl := Option.some.inj h
  refine ⟨(List.dropWhile_suffix _).trans (skipEntities_suffix false s), ?_⟩
  have hnot := List.head?_dropWhile_not (fun c => !isDigit c) (skipEntities false s)
  obtain ⟨c, u, hc⟩ := List.exists_cons_of_ne_nil hne
  refine ⟨c, u, hc, ?_⟩
  rw [hc] at hnot
  simpa using hnot

end Skips

section Fields

def field (s : Text) : Text := (skipWhitespace s).takeWhile fun c => !isWhitespace c

def behind (s : Text) : Text := (skipWhitespace s).dropWhile fun c => !isWhitespace c

def value (s : Text) : Nat := (atoi (lower ((field s).take 31)) % 2 ^ 32).toNat

theorem copyNumber_eq (n : Nat) (s : Text) : copyNumber n s =
    (lower ((s.takeWhile fun c => !isWhitespace c).take n),
      if (s.takeWhile fun c => !isWhitespace c).length < n then some (s.dropWhile fun c => !isWhitespace c)
      else none) := by
  induction s generalizing n with
  | nil => cases n <;> rfl
  | cons c s ih =>
      cases n with
      | zero => simp [copyNumber, lower]
      | succ n =>
          rw [copyNumber]
          cases hc : isWhitespace c with
          | true => simp [hc, lower]
          | false => simp [hc, ih, lower]

theorem head?_skipWhitespace (s : Text) : (skipWhitespace s).head? ≠ some '&' := by
  intro h
  have hnot := List.head?_dropWhile_not isWhitespace s
  rw [skipWhitespace] at h
  simp [h, isWhitespace] at hnot

theorem getUintValue_eq {s : Text} {next : Option Text} (hnext : s = [] → next = some []) :
    getUintValue (some s) next = (value s, if (field s).length < 31 then some (behind s) else none) := by
  cases s with
  | nil =>
      rw [hnext rfl]
      rfl
  | cons c s =>
      have hentity := head?_skipWhitespace (c :: s)
      rw [getUintValue]
      simp only [if_neg hentity, copyNumber_eq]
      rfl

theorem getUint3_eq {s t : Text} {next : Option Text} (h : skipNonDigits (some s) = some t) :
    getUint3 (some s) next =
      if 30 < (field t).length then none
      else if behind t = [] then some { next := some [], i1 := value t }
      else if 30 < (field (behind t)).length then
        some { next := none, i1 := value t, i2 := value (behind t) }
      else
        some { ret := true, next := if (field (behind (behind t))).length < 31 then
                some (behind (behind (behind t))) else none,
               i1 := value t, i2 := value (behind t), i3 := value (behind (behind t)) } := by
  have ht : t ≠ [] ∧ t.head?.any isDigit = true := by
    obtain ⟨_, c, u, rfl, hc⟩ := skipNonDigits_eq_some h
    exact ⟨List.cons_ne_nil _ _, hc⟩
  rw [getUint3, h]
  simp only [ht.2, if_true]
  rw [getUintValue_eq fun hnil => absurd hnil ht.1]
  by_cases hfirst : 30 < (field t).length
  · rw [if_pos hfirst]
    simp [show ¬ (field t).length < 31 by omega]
  · rw [if_neg hfirst]
    simp only [show (field t).length < 31 by omega, if_true, Option.bind_some]
    by_cases hend : behind t = []
    · simp only [hend, if_true]
    · simp only [hend, if_false]
      rw [getUintValue_eq fun hnil => absurd hnil hend]
      by_cases hsecond : 30 < (field (behind t)).length
      · simp only [hsecond, show ¬ (field (behind t)).length < 31 by omega, if_true, if_false]
      · simp only [hsecond, show (field (behind t)).length < 31 by omega, if_true, if_false]
        rw [getUintValue_eq fun hnil => congrArg some hnil]

theorem decimal_semicolon (p x : Text) : decimal (p ++ ';' :: x) = decimal p := by
  have hdrop : (p ++ ';' :: x).dropWhile isSpace = p.dropWhile isSpace ++ ';' :: x := by
    rw [List.dropWhile_append]
    split_ifs with hp
    · rw [List.isEmpty_iff.mp hp]
      rfl
    · rfl
  have htake : ∀ q : Text, (q ++ ';' :: x).takeWhile Char.isDigit = q.takeWhile Char.isDigit := by
    intro q
    rw [List.takeWhile_append]
    split_ifs with hq
    · rw [List.takeWhile_cons_of_neg (by decide), List.append_nil,
        (List.takeWhile_prefix _).eq_of_length hq]
    · rfl
  rw [decimal, hdrop, decimal]
  cases p.dropWhile isSpace with
  | nil => rfl
  | cons c q =>
      rw [List.cons_append]
      split
      · next heq =>
          obtain ⟨rfl, rfl⟩ := List.cons.inj heq
          rw [htake]
          rfl
      · next heq =>
          obtain ⟨rfl, rfl⟩ := List.cons.inj heq
          rw [htake]
          rfl
      · next hminus hplus =>
          split
          · next heq => exact absurd (congrArg (· ++ ';' :: x) heq) (hminus _)
          · next heq => exact absurd (congrArg (· ++ ';' :: x) heq) (hplus _)
          · rw [← List.cons_append, htake]

theorem value_semicolon (p x : Text) : value (p ++ ';' :: x) = value p := by
  have hskip : skipWhitespace (p ++ ';' :: x) = skipWhitespace p ++ ';' :: x := by
    rw [skipWhitespace, List.dropWhile_append]
    split_ifs with hp
    · rw [skipWhitespace, List.isEmpty_iff.mp hp]
      rfl
    · rfl
  obtain ⟨y, hfield⟩ : ∃ y, field (p ++ ';' :: x) = field p ∨ field (p ++ ';' :: x) = field p ++ ';' :: y := by
    refine ⟨x.takeWhile fun c => !isWhitespace c, ?_⟩
    rw [field, hskip, List.takeWhile_append]
    split_ifs with hp
    · right
      rw [field, (List.takeWhile_prefix _).eq_of_length hp]
      rfl
    · exact .inl rfl
  rcases hfield with h | h
  · rw [value, h, value]
  · rw [value, h, value, List.take_append]
    cases 31 - (field p).length with
    | zero => rw [List.take_zero, List.append_nil]
    | succ n =>
        have hlower : lower ((field p).take 31 ++ ';' :: y.take n) =
            lower ((field p).take 31) ++ ';' :: lower (y.take n) := by
          rw [lower, List.map_append, List.map_cons]
          rfl
        rw [List.take_succ_cons, hlower, atoi, atoi, decimal_semicolon]

end Fields

end SchemaCodeGen.StringHelper
