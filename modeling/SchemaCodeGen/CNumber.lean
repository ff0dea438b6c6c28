import SchemaCodeGen.CString
import SchemaCodeGen.Floats

namespace SchemaCodeGen.CNumber

open CString Floats

def digitValue (c : Char) : Nat :=
  if c.isDigit then c.toNat - '0'.toNat
  else if c.isLower then c.toNat - 'a'.toNat + 10
  else if c.isUpper then c.toNat - 'A'.toNat + 10
  else 36

def isDigitOf (base : Nat) (c : Char) : Bool := digitValue c < base

def natOf (base : Nat) (s : Text) : Nat := s.foldl (fun n c => base * n + digitValue c) 0

def takeSign : Text → Bool × Text
  | '-' :: s => (true, s)
  | '+' :: s => (false, s)
  | s => (false, s)

def isMark (mark c : Char) : Bool := c.toLower == mark

def autoBase : Text → Nat × Text
  | '0' :: x :: c :: s =>
      if isMark 'x' x ∧ isDigitOf 16 c then (16, c :: s) else (8, '0' :: x :: c :: s)
  | '0' :: s => (8, '0' :: s)
  | s => (10, s)

/-- Sign and magnitude of the integer a text begins with. -/
def integer (s : Text) : Bool × Nat :=
  let signed := takeSign (s.dropWhile isSpace)
  let based := autoBase signed.2
  (signed.1, natOf based.1 (based.2.takeWhile (isDigitOf based.1)))

def strtoll (s : Text) : Int :=
  let n := integer s
  if n.1 then max (-2 ^ 63) (-(n.2 : Int)) else min (2 ^ 63 - 1) (n.2 : Int)

def strtoull (s : Text) : Nat :=
  let n := integer s
  if 2 ^ 64 ≤ n.2 then 2 ^ 64 - 1 else if n.1 then (2 ^ 64 - n.2) % 2 ^ 64 else n.2

/-- A number as read: its sign, and the rest without sign. -/
structure Reading where
  negative : Bool := false
  magnitude : Ieee := .fin 0

/-- The digits around a point: their value, how many stand behind the point, and the rest. -/
def significand (base : Nat) (s : Text) : Option (Nat × Nat × Text) :=
  let whole := s.takeWhile (isDigitOf base)
  let rest := s.dropWhile (isDigitOf base)
  let fraction := if rest.head? = some '.' then rest.tail.takeWhile (isDigitOf base) else []
  let rest := if rest.head? = some '.' then rest.tail.dropWhile (isDigitOf base) else rest
  if whole = [] ∧ fraction = [] then none
  else some (natOf base (whole ++ fraction), fraction.length, rest)

/-- The exponent behind its mark, or 0 without a mark. There is none when the mark is there
and the digits are missing. -/
def exponent (mark : Char) : Text → Option (Int × Text)
  | [] => some (0, [])
  | c :: s =>
      if isMark mark c then
        let signed := takeSign s
        let digits := signed.2.takeWhile Char.isDigit
        if digits = [] then none
        else
          let n : Int := natOf 10 digits
          some (if signed.1 then -n else n, signed.2.dropWhile Char.isDigit)
      else some (0, c :: s)

/-- Digits, point and exponent in base 10, or in base 16 with a binary exponent. -/
def finite (strict : Bool) (f : Format) (base radix : Nat) (mark : Char) (s : Text) :
    Option (Ieee × Text) :=
  (significand base s).bind fun (m, places, rest) =>
    let scaled (e : Int) : Ieee := f.round (m * (radix : ℚ) ^ e / (base : ℚ) ^ places)
    match exponent mark rest with
    | some (e, rest) => some (scaled e, rest)
    | none => if strict then none else some (scaled 0, rest)

/-- `nan`, with the characters in parentheses that may follow. -/
def nanRest (strict : Bool) (s : Text) : Option Text :=
  if s.head? = some '(' then
    let rest := s.tail.dropWhile fun c => c.isAlphanum || c == '_'
    if rest.head? = some ')' then some rest.tail else if strict then none else some s
  else some s

/-- The number without sign that a text begins with. A strict reader fails on a number that
is cut off, where the other one takes what came before. -/
def magnitude (strict : Bool) (f : Format) (s : Text) : Option (Ieee × Text) :=
  if lower (s.take 8) = "infinity".toList then some (.inf false, s.drop 8)
  else if lower (s.take 3) = "inf".toList then
    if strict ∧ lower ((s.drop 3).take 1) = "i".toList then none else some (.inf false, s.drop 3)
  else if lower (s.take 3) = "nan".toList then
    (nanRest strict (s.drop 3)).map fun rest => (.nan, rest)
  else if lower (s.take 2) = "0x".toList then
    match finite strict f 16 2 'p' (s.drop 2) with
    | some r => some r
    | none => if strict then none else some (.fin 0, s.drop 1)
  else finite strict f 10 10 'e' s

def number (strict : Bool) (f : Format) (s : Text) : Option (Reading × Text) :=
  let signed := takeSign (s.dropWhile isSpace)
  (magnitude strict f signed.2).map fun r => (⟨signed.1, r.1⟩, r.2)

def strto (f : Format) (s : Text) : Reading := ((number false f s).map Prod.fst).getD {}

/-- `sscanf` with one `%f` for each number and commas between them. Numbers that are not
reached keep their value. -/
def sscanf : List Reading → Text → List Reading
  | [], _ => []
  | d :: ds, s =>
      match number true binary32 s with
      | none => d :: ds
      | some (r, ',' :: rest) => r :: sscanf ds rest
      | some (r, _) => r :: ds

def pointed (digits : Text) (decimals : Nat) : Text :=
  let padded := digits.leftpad (decimals + 1) '0'
  padded.take (padded.length - decimals) ++ '.' :: padded.drop (padded.length - decimals)

def decimalText (n : Nat) : Text := Nat.toDigits 10 n

def general (q : ℚ) : Text :=
  if q = 0 then pointed ['0'] 5
  else
    let e := Int.log 10 q
    let n := (Format.roundEven (q / (10 : ℚ) ^ (e - 5))).toNat
    let carried := n = 1000000
    let digits := decimalText (if carried then 100000 else n)
    let e := if carried then e + 1 else e
    if -4 ≤ e ∧ e < 6 then pointed digits (5 - e).toNat
    else
      pointed digits 5 ++ 'e' :: (if e < 0 then '-' else '+') ::
        (decimalText e.natAbs).leftpad 2 '0'

/-- How a stream with `std::showpoint` writes a number. -/
def showpoint (r : Reading) : Text :=
  (if r.negative then ['-'] else []) ++
    match r.magnitude with
    | .nan => "nan".toList
    | .inf _ => "inf".toList
    | .negZero => general 0
    | .fin q => general q

def fltMax : ℚ := binary32.maxFinite

def fltMin : ℚ := (2 : ℚ) ^ (-126 : Int)

end SchemaCodeGen.CNumber
