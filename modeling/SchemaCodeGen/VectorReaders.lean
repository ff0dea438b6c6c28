import SchemaCodeGen.HexReaders
import SchemaCodeGen.StringHelper

/-! `getVec3`, `getVec4`, `getUint3` and `getUint1` with the pointers they follow. There is no
result when a null pointer is followed. -/

namespace SchemaCodeGen.VectorReaders

open CString CNumber Floats HexReaders StringHelper

section Floats

def floatOfBits (iv : UInt32) : Reading :=
  let exponent : Nat := iv.toNat / 2 ^ 23 % 2 ^ 8
  let fraction : Nat := iv.toNat % 2 ^ 23
  { negative := 2 ^ 31 ≤ iv.toNat
    magnitude :=
      if exponent = 255 then (if fraction = 0 then .inf false else .nan)
      else if exponent = 0 then .fin ((fraction : ℚ) * 2 ^ (-149 : Int))
      else .fin ((2 ^ 23 + fraction : ℚ) * 2 ^ ((exponent : Int) - 150)) }

def atof (dest : Text) : Reading :=
  let r := strto binary64 dest
  { r with magnitude := binary32.narrow r.magnitude }

/-- The loop of `getFloatValue`: `dest`, `next` and `hex`. -/
def copyFloat : Nat → Text → Option Text → Text × Option Text × Option Text
  | 0, _, hex => ([], none, hex)
  | _ + 1, [], hex => ([], some [], hex)
  | n + 1, c :: s, hex =>
      if isWhitespace c then ([], some (c :: s), hex)
      else
        let copied := copyFloat n s (if c = '$' then some s else hex)
        (toLower c :: copied.1, copied.2)

def floatOfText (dest : Text) (hex : Option Text) : Reading :=
  match hex with
  | some hex => floatOfBits (getHEX hex).1
  | none =>
      if dest.head? = some 'f' then
        if dest = "fltmax".toList ∨ dest = "fmax".toList then { magnitude := .fin fltMax }
        else if dest = "fltmin".toList ∨ dest = "fmin".toList then { magnitude := .fin fltMin }
        else {}
      else if dest.head? = some 't' then { magnitude := .fin 1 }
      else atof dest

def getFloatValue (str next : Option Text) : Reading × Option Text :=
  match str with
  | none | some [] => ({}, next)
  | some (c :: s) =>
      let str := skipWhitespace (c :: s)
      let str := if str.head? = some '&' then skipWhitespace (skipEntity str) else str
      let copied := copyFloat (maxNum - 1) str none
      (floatOfText copied.1 copied.2.2, copied.2.1)

end Floats

section Pointers

def deref (p : Option Text) : Option (Option Char) := p.map List.head?

def atDigit : Option Text → Option Bool
  | none => some false
  | some str => (deref (some str)).map fun c => c.any isDigit

def atCharacter : Option Text → Option Bool
  | none => some false
  | some p => (deref (some p)).map Option.isSome

def put (next : Option (Option Text)) (p : Option Text) : Option (Option Text) := next.map fun _ => p

/-- What a reader returns, what is in the place `next` points to, and its numbers. -/
structure Values (α : Type) where
  ret : Bool := false
  next : Option (Option Text)
  numbers : List α

end Pointers

section Readers

variable {α : Type}

def three (read : Option Text → Option Text → α × Option Text) (zero : α) (str : Option Text)
    (next : Option (Option Text)) : Option (Values α) := do
  let str := skipNonDigits str
  if !(← atDigit str) then return { next := next, numbers := [zero, zero, zero] }
  let (x, mynext) := read str none
  if (← deref mynext).isNone then return { next := put next mynext, numbers := [x, zero, zero] }
  let (y, mynext) := read mynext mynext
  if mynext.isNone then return { next := put next mynext, numbers := [x, y, zero] }
  let (z, mynext) := read mynext mynext
  return { ret := true, next := put next mynext, numbers := [x, y, z] }

def getVec3 (str : Option Text) (next : Option (Option Text)) : Option (Values Reading) :=
  three getFloatValue {} str next

def getUint3 (str : Option Text) (next : Option (Option Text)) : Option (Values Nat) :=
  three getUintValue 0 str next

def getUint1 (str : Option Text) (next : Option (Option Text)) : Option (Values Nat) := do
  let str := skipNonDigits str
  if !(← atDigit str) then return { next := next, numbers := [0] }
  let (i1, mynext) := getUintValue str none
  return { ret := true, next := put next mynext, numbers := [i1] }

def getVec4 (str : Option Text) (next : Option (Option Text)) : Option (Values Reading) := do
  let str := skipNonDigits str
  if !(← atDigit str) then return { next := next, numbers := [{}, {}, {}, {}] }
  let (x, mynext) := getFloatValue str none
  if !(← atCharacter mynext) then return { next := put next mynext, numbers := [x, {}, {}, {}] }
  let (y, mynext) := getFloatValue mynext mynext
  if mynext.isNone then return { next := put next mynext, numbers := [x, y, {}, {}] }
  let (z, mynext) := getFloatValue mynext mynext
  if mynext.isNone then return { next := put next mynext, numbers := [x, y, z, {}] }
  let (w, mynext) := getFloatValue mynext mynext
  return { ret := true, next := put next mynext, numbers := [x, y, z, w] }

end Readers

section Pointers

theorem copyFloat_eq (n : Nat) (s : Text) (hex : Option Text) :
    ((copyFloat n s hex).1, (copyFloat n s hex).2.1) = copyNumber n s := by
  induction s generalizing n hex with
  | nil => cases n <;> rfl
  | cons c s ih =>
      cases n with
      | zero => rfl
      | succ n =>
          rw [copyFloat, copyNumber]
          by_cases hc : isWhitespace c = true
          · rw [if_pos hc, if_pos hc]
          · rw [if_neg hc, if_neg hc, ← ih n (if c = '$' then some s else hex), toLower_eq]

/-- A reader of one number leaves no pointer exactly behind a field that fills its buffer. -/
def EndsField {α : Type} (read : Option Text → Option Text → α × Option Text) : Prop :=
  ∀ s ≠ [], ∀ next, (read (some s) next).2 = if (field s).length < 31 then some (behind s) else none

theorem getUintValue_endsField : EndsField getUintValue := by
  intro s hs next
  rw [getUintValue_eq fun h => absurd h hs]

theorem getFloatValue_endsField : EndsField getFloatValue := by
  intro s hs next
  obtain ⟨c, s, rfl⟩ := List.exists_cons_of_ne_nil hs
  have hcopied := copyFloat_eq (maxNum - 1) (skipWhitespace (c :: s)) none
  rw [getFloatValue]
  simp only [if_neg (head?_skipWhitespace (c :: s))]
  rw [copyNumber_eq] at hcopied
  exact congrArg Prod.snd hcopied

def FirstEnds (s : Text) : Prop := ∀ t, skipNonDigits (some s) = some t → (field t).length ≤ 30

variable {s : Text} {next : Option (Option Text)}

theorem atDigit_skipNonDigits (str : Option Text) :
    atDigit (skipNonDigits str) = some (skipNonDigits str).isSome := by
  cases str with
  | none => rfl
  | some s =>
      cases h : skipNonDigits (some s) with
      | none => rfl
      | some t =>
          obtain ⟨_, c, u, rfl, hc⟩ := skipNonDigits_eq_some h
          simp [atDigit, deref, hc]

theorem three_isSome_iff {α : Type} {read : Option Text → Option Text → α × Option Text}
    (hread : EndsField read) (zero : α) :
    (three read zero (some s) next).isSome ↔ FirstEnds s := by
  rw [three, FirstEnds]
  simp only [atDigit_skipNonDigits]
  cases h : skipNonDigits (some s) with
  | none => simp
  | some t =>
      obtain ⟨_, c, u, rfl, hc⟩ := skipNonDigits_eq_some h
      have hend := hread (c :: u) (List.cons_ne_nil c u) none
      generalize read (some (c :: u)) none = first at hend ⊢
      obtain ⟨x, mynext⟩ := first
      by_cases hshort : (field (c :: u)).length < 31
      · obtain rfl : mynext = some (behind (c :: u)) := hend.trans (if_pos hshort)
        have hle : (field (c :: u)).length ≤ 30 := Nat.le_of_lt_succ hshort
        simp only [Option.isSome_some, Bool.not_eq_eq_eq_not, Bool.not_true, Option.pure_def, deref,
          Option.map_some, Option.isNone_iff_eq_none, Option.bind_eq_bind, Option.bind_some,
          Bool.true_eq_false, if_false, Option.some.injEq, forall_eq', hle, iff_true]
        split_ifs <;> rfl
      · obtain rfl : mynext = none := hend.trans (if_neg hshort)
        have hlong : ¬ (field (c :: u)).length ≤ 30 := fun hle => hshort (Nat.lt_succ_of_le hle)
        simp only [Option.isSome_some, Bool.not_eq_eq_eq_not, Bool.not_true, Option.pure_def, deref,
          Option.map_none, Option.isNone_iff_eq_none, Option.bind_eq_bind, Option.bind_none,
          Option.bind_some, Bool.true_eq_false, if_false, Option.isSome_none, Bool.false_eq_true,
          Option.some.injEq, forall_eq', hlong]

theorem getUint1_isSome (s : Text) (next : Option (Option Text)) : (getUint1 (some s) next).isSome := by
  rw [getUint1]
  simp only [atDigit_skipNonDigits, Option.bind_eq_bind, Option.bind_some, Option.pure_def]
  split_ifs <;> rfl

theorem atCharacter_eq (p : Option Text) : atCharacter p = some (p.elim false fun s => s.head?.isSome) := by
  cases p <;> rfl

theorem getVec4_isSome (s : Text) (next : Option (Option Text)) : (getVec4 (some s) next).isSome := by
  rw [getVec4]
  simp only [atDigit_skipNonDigits, atCharacter_eq, Option.bind_eq_bind, Option.bind_some, Option.pure_def]
  split_ifs <;> rfl

end Pointers

section Refinement

theorem getUint3_refines (str next : Option Text) :
    getUint3 str (some next) = (StringHelper.getUint3 str next).map fun r =>
      { ret := r.ret, next := some r.next, numbers := [r.i1, r.i2, r.i3] } := by
  rw [getUint3, three, StringHelper.getUint3]
  simp only [atDigit_skipNonDigits]
  cases h : skipNonDigits str with
  | none => rfl
  | some t =>
      have hdigit : t.head?.any isDigit = true := by
        have hat := atDigit_skipNonDigits str
        rw [h] at hat
        exact Option.some.inj hat
      simp only [hdigit, if_true]
      generalize getUintValue (some t) none = first
      obtain ⟨i1, mynext⟩ := first
      cases mynext with
      | none => rfl
      | some p =>
          cases p with
          | nil => rfl
          | cons c p =>
              dsimp only [Option.bind_some]
              generalize getUintValue (some (c :: p)) (some (c :: p)) = second
              obtain ⟨i2, mynext⟩ := second
              cases mynext <;> rfl

end Refinement

section Safe

/-- None of the readers follows a null pointer. -/
def Safe (s : Text) (next : Option (Option Text)) : Prop :=
  (getVec3 (some s) next).isSome ∧ (getVec4 (some s) next).isSome ∧
    (getUint3 (some s) next).isSome ∧ (getUint1 (some s) next).isSome

/-- `getVec3` and `getUint3` follow the pointer behind the first number unguarded. -/
theorem safe_iff (s : Text) (next : Option (Option Text)) : Safe s next ↔ FirstEnds s := by
  have hvec3 : (getVec3 (some s) next).isSome ↔ FirstEnds s := three_isSome_iff getFloatValue_endsField {}
  have huint3 : (getUint3 (some s) next).isSome ↔ FirstEnds s := three_isSome_iff getUintValue_endsField 0
  constructor
  · exact fun h => hvec3.mp h.1
  · exact fun h => ⟨hvec3.mpr h, getVec4_isSome s next, huint3.mpr h, getUint1_isSome s next⟩

/-- 31 digits fill the buffer. -/
theorem not_safe_ones :
    (getVec3 (some (List.replicate 31 '1')) (some none)).isSome = false ∧
      (getUint3 (some (List.replicate 31 '1')) (some none)).isSome = false ∧
      ¬ Safe (List.replicate 31 '1') (some none) := by
  have hends : ¬ FirstEnds (List.replicate 31 '1') := by
    intro h
    exact absurd (h (List.replicate 31 '1') (by decide)) (by decide)
  have hvec3 : ¬ (getVec3 (some (List.replicate 31 '1')) (some none)).isSome := fun h =>
    hends ((three_isSome_iff getFloatValue_endsField {}).mp h)
  have huint3 : ¬ (getUint3 (some (List.replicate 31 '1')) (some none)).isSome := fun h =>
    hends ((three_isSome_iff getUintValue_endsField 0).mp h)
  exact ⟨eq_false_of_ne_true hvec3, eq_false_of_ne_true huint3, fun h => hvec3 h.1⟩

end Safe

end SchemaCodeGen.VectorReaders
