import SchemaCodeGen.Decimal
import SchemaCodeGen.JsonStreams

namespace SchemaCodeGen.JsonNumbers

open CString Decimal Floats Json Fallible Sax JsonStreams

section Arithmetic

def int32 (n : Int) : Step Int := if -2 ^ 31 ≤ n ∧ n < 2 ^ 31 then .ok n else .error .overflow

/-- A double after an operation with a finite operand that leaves infinity as it is. -/
def lift (op : ℚ → ℚ) : Ieee → Ieee
  | .fin q => Format.narrow binary64 (.fin (op q))
  | .negZero => Format.narrow binary64 (.fin (op 0))
  | x => x

def negate : Ieee → Ieee
  | .fin q => if q = 0 then .negZero else .fin (-q)
  | .negZero => .fin 0
  | .inf negative => .inf !negative
  | .nan => .nan

def ofNat (n : Nat) : Ieee := Format.narrow binary64 (.fin n)

def tenTo (n : Nat) : ℚ :=
  match Format.narrow binary64 (.fin (10 ^ n)) with
  | .fin q => q
  | _ => 0

def pow10 (n : Int) : Step ℚ := if 0 ≤ n ∧ n ≤ 308 then .ok (tenTo n.toNat) else .error .assertion

def fastPath (significand : Ieee) (exp : Int) : Step Ieee :=
  if exp < -308 then .ok (.fin 0)
  else if exp ≥ 0 then do
    let p ← pow10 exp
    .ok (lift (· * p) significand)
  else do
    let p ← pow10 (-exp)
    .ok (lift (· / p) significand)

def strtodNormalPrecision (d : Ieee) (p : Int) : Step Ieee :=
  if p < -308 then do
    let d ← fastPath d (-308)
    fastPath d (p + 308)
  else fastPath d p

end Arithmetic

section Loops

def digitOf (c : Char) : Nat := c.toNat - '0'.toNat

/-- The digits of an integer below `modulus`, up to the one that would take it past `limit`
with the digit `last`: the integer, the digits counted, and whether such a digit is there. -/
def countDigits (modulus limit : Nat) (last : Char) : Nat → Nat → Text → Nat × Nat × Bool × Text
  | i, significandDigit, [] => (i, significandDigit, false, [])
  | i, significandDigit, c :: is =>
      if c.isDigit then
        if i ≥ limit ∧ (i ≠ limit ∨ c > last) then (i, significandDigit, true, c :: is)
        else
          countDigits modulus limit last ((i * 10 + digitOf c) % modulus) (significandDigit + 1) is
      else (i, significandDigit, false, c :: is)

def appendDigit (d : Ieee) (c : Char) : Ieee := lift (· + digitOf c) (lift (· * 10) d)

def bigDigits : Ieee → Text → Ieee × Text
  | d, [] => (d, [])
  | d, c :: is => if c.isDigit then bigDigits (appendDigit d c) is else (d, c :: is)

/-- The first digits of a fraction, as long as the significand is below 2^53. -/
def fractionInt : Nat → Int → Nat → Text → Step (Nat × Int × Nat × Text)
  | i64, expFrac, significandDigit, [] => .ok (i64, expFrac, significandDigit, [])
  | i64, expFrac, significandDigit, c :: is =>
      if c.isDigit then
        if i64 > 0x1FFFFFFFFFFFFF then .ok (i64, expFrac, significandDigit, c :: is)
        else do
          let i64 := (i64 * 10 + digitOf c) % 2 ^ 64
          let expFrac ← int32 (expFrac - 1)
          fractionInt i64 expFrac (if i64 ≠ 0 then significandDigit + 1 else significandDigit) is
      else .ok (i64, expFrac, significandDigit, c :: is)

def isPositive : Ieee → Bool
  | .fin q => decide (0 < q)
  | .inf negative => !negative
  | _ => false

/-- The rest of the fraction. Digits behind the first 17 do not count. -/
def fractionReal : Ieee → Int → Nat → Text → Step (Ieee × Int × Text)
  | d, expFrac, _, [] => .ok (d, expFrac, [])
  | d, expFrac, significandDigit, c :: is =>
      if c.isDigit then
        if significandDigit < 17 then do
          let d := appendDigit d c
          let expFrac ← int32 (expFrac - 1)
          fractionReal d expFrac (if isPositive d then significandDigit + 1 else significandDigit) is
        else fractionReal d expFrac significandDigit is
      else .ok (d, expFrac, c :: is)

def negativeExponent (maxExp : Int) : Int → Text → Step (Int × Text)
  | exp, [] => .ok (exp, [])
  | exp, c :: is =>
      if c.isDigit then do
        let exp ← int32 (exp * 10 + digitOf c)
        if exp > maxExp then .ok (exp, is.dropWhile Char.isDigit) else negativeExponent maxExp exp is
      else .ok (exp, c :: is)

def positiveExponent (startOffset : Text) (maxExp : Int) : Int → Text → Step (Int × Text)
  | exp, [] => .ok (exp, [])
  | exp, c :: is =>
      if c.isDigit then do
        let exp ← int32 (exp * 10 + digitOf c)
        if exp > maxExp then .error (.error .numberTooBig startOffset)
        else positiveExponent startOffset maxExp exp is
      else .ok (exp, c :: is)

end Loops

structure Reading where
  i : Nat := 0
  i64 : Nat := 0
  use64bit : Bool := false
  significandDigit : Nat := 0
  d : Ieee := .fin 0
  useDouble : Bool := false
  expFrac : Int := 0
  exp : Int := 0

def parseWhole (minus : Bool) (is : Text) : Step (Reading × Text) :=
  if peek is = '0' then do
    let (_, is) ← take is
    .ok ({}, is)
  else if (peek is).isDigit then do
    let (c, is) ← take is
    match countDigits (2 ^ 32) (if minus then 214748364 else 429496729) (if minus then '8' else '5')
      (digitOf c) 0 is with
    | (i, significandDigit, false, is) => .ok ({ i, significandDigit }, is)
    | (i, significandDigit, true, is) =>
        match countDigits (2 ^ 64) (if minus then 0x0CCCCCCCCCCCCCCC else 0x1999999999999999)
          (if minus then '8' else '5') i significandDigit is with
        | (i64, significandDigit, false, is) => .ok ({ i, i64, use64bit := true, significandDigit }, is)
        | (i64, significandDigit, true, is) =>
            let (d, is) := bigDigits (ofNat i64) is
            .ok ({ i, i64, use64bit := true, significandDigit, d, useDouble := true }, is)
  else .error (.error .valueInvalid is)

def Reading.significand (r : Reading) : Nat := if r.use64bit then r.i64 else r.i

def parseFraction (r : Reading) (is : Text) : Step (Reading × Text) := do
  let (found, is) ← consume '.' is
  if found then
    if (peek is).isDigit then
      if r.useDouble then
        let (d, expFrac, is) ← fractionReal r.d 0 r.significandDigit is
        .ok ({ r with d, expFrac }, is)
      else
        let (i64, expFrac, significandDigit, is) ←
          fractionInt r.significand 0 r.significandDigit is
        let (d, expFrac, is) ← fractionReal (ofNat i64) expFrac significandDigit is
        .ok ({ r with d, expFrac, useDouble := true }, is)
    else .error (.error .numberMissFraction is)
  else .ok (r, is)

/-- The sign and the digits behind the mark of an exponent. -/
def parseExponentDigits (startOffset : Text) (expFrac : Int) (is : Text) : Step (Int × Text) := do
  let (plus, is) ← consume '+' is
  let (expMinus, is) ← if plus then .ok (false, is) else consume '-' is
  if (peek is).isDigit then
    let (c, is) ← take is
    if expMinus then
      if expFrac > 0 then .error .assertion
      else
        let (exp, is) ← negativeExponent ((expFrac + 2147483639).tdiv 10) (digitOf c) is
        .ok (-exp, is)
    else
      let maxExp ← int32 (308 - expFrac)
      positiveExponent startOffset maxExp (digitOf c) is
  else .error (.error .numberMissExponent is)

def parseExponent (startOffset : Text) (r : Reading) (is : Text) : Step (Reading × Text) := do
  let (lower, is) ← consume 'e' is
  let (found, is) ← if lower then .ok (true, is) else consume 'E' is
  if found then
    let (exp, is) ← parseExponentDigits startOffset r.expFrac is
    .ok ({ r with d := if r.useDouble then r.d else ofNat r.significand, useDouble := true, exp }, is)
  else .ok (r, is)

/-- The signed number of `bits` bits with the pattern of `~n + 1`. -/
def complement (bits n : Nat) : Int :=
  let m := (2 ^ bits - 1 - n + 1) % 2 ^ bits
  if m < 2 ^ (bits - 1) then m else m - 2 ^ bits

def finishNumber (startOffset : Text) (minus : Bool) (r : Reading) : Step Event :=
  if r.useDouble then do
    let p ← int32 (r.exp + r.expFrac)
    let d ← strtodNormalPrecision r.d p
    if d = .inf false then .error (.error .numberTooBig startOffset)
    else .ok (.double (if minus then negate d else d))
  else if r.use64bit then .ok (if minus then .int64 (complement 64 r.i64) else .uint64 r.i64)
  else .ok (if minus then .int (complement 32 r.i) else .uint r.i)

def parseNumber (is : Text) : Step (Event × Text) := do
  let startOffset := is
  let (minus, is) ← consume '-' is
  let (r, is) ← parseWhole minus is
  let (r, is) ← parseFraction r is
  let (r, is) ← parseExponent startOffset r is
  let e ← finishNumber startOffset minus r
  .ok (e, is)

section Digits

def AllDigits (ds : Text) : Prop := ∀ c ∈ ds, c.isDigit = true

def NoDigit (rest : Text) : Prop := (peek rest).isDigit = false

def valueFrom (n : Nat) (ds : Text) : Nat := ds.foldl (fun n c => 10 * n + digitOf c) n

theorem digitOf_range {c : Char} (h : c.isDigit = true) :
    c.toNat = 48 + digitOf c ∧ digitOf c ≤ 9 := by
  have hc : 48 ≤ c.toNat ∧ c.toNat ≤ 57 := by simpa [Char.isDigit, UInt32.le_iff_toNat_le] using h
  have h0 : '0'.toNat = 48 := rfl
  rw [digitOf, h0]
  omega

theorem le_valueFrom (n : Nat) (ds : Text) : n ≤ valueFrom n ds := by
  induction ds generalizing n with
  | nil => exact Nat.le_refl n
  | cons c ds ih => exact le_trans (by omega) (ih (10 * n + digitOf c))

theorem valueFrom_append (n : Nat) (ds ds' : Text) :
    valueFrom n (ds ++ ds') = valueFrom (valueFrom n ds) ds' := List.foldl_append

theorem countDigits_end (modulus limit : Nat) (last : Char) (n k : Nat) {rest : Text}
    (h : NoDigit rest) : countDigits modulus limit last n k rest = (n, k, false, rest) := by
  cases rest with
  | nil => rfl
  | cons c rest =>
      have hc : c.isDigit = false := h
      simp [countDigits, hc]

variable {modulus limit : Nat} {last : Char}

def most (limit : Nat) (last : Char) : Nat := limit * 10 + digitOf last

theorem stops_iff {n : Nat} {c : Char} (hlast : last.isDigit = true) (hc : c.isDigit = true) :
    n ≥ limit ∧ (n ≠ limit ∨ c > last) ↔ most limit last < 10 * n + digitOf c := by
  obtain ⟨hcn, hc9⟩ := digitOf_range hc
  obtain ⟨hln, hl9⟩ := digitOf_range hlast
  have hgt : c > last ↔ last.toNat < c.toNat := UInt32.lt_iff_toNat_lt
  rw [hgt, most]
  omega

theorem countDigits_small (hlast : last.isDigit = true) (hmod : most limit last < modulus)
    {ds : Text} (hds : AllDigits ds) {n : Nat} (hle : valueFrom n ds ≤ most limit last) (k : Nat)
    {rest : Text} (hrest : NoDigit rest) :
    countDigits modulus limit last n k (ds ++ rest) = (valueFrom n ds, k + ds.length, false, rest) := by
  induction ds generalizing n k with
  | nil => exact countDigits_end modulus limit last n k hrest
  | cons c ds ih =>
      rw [AllDigits, List.forall_mem_cons] at hds
      have hnext : 10 * n + digitOf c ≤ most limit last := le_trans (le_valueFrom _ ds) hle
      have hstop : ¬ (n ≥ limit ∧ (n ≠ limit ∨ c > last)) := by
        rw [stops_iff hlast hds.1]
        omega
      have hvalue : (n * 10 + digitOf c) % modulus = 10 * n + digitOf c := by
        rw [mul_comm, Nat.mod_eq_of_lt (by omega)]
      have hrun := ih hds.2 hle (k + 1)
      rw [List.cons_append, countDigits, if_pos hds.1, if_neg hstop, hvalue, hrun, List.length_cons]
      have hlen : k + 1 + ds.length = k + (ds.length + 1) := by omega
      rw [hlen]
      rfl

theorem countDigits_big (hlast : last.isDigit = true) (hmod : most limit last < modulus)
    {ds : Text} (hds : AllDigits ds) {n : Nat} (hn : n ≤ most limit last)
    (hgt : most limit last < valueFrom n ds) (k : Nat) :
    ∃ taken ds' k', ds = taken ++ ds' ∧ valueFrom n taken ≤ most limit last ∧
      ∀ rest, countDigits modulus limit last n k (ds ++ rest) =
        (valueFrom n taken, k', true, ds' ++ rest) := by
  induction ds generalizing n k with
  | nil => exact absurd hgt (Nat.not_lt.mpr hn)
  | cons c ds ih =>
      rw [AllDigits, List.forall_mem_cons] at hds
      by_cases hstop : n ≥ limit ∧ (n ≠ limit ∨ c > last)
      · refine ⟨[], c :: ds, k, rfl, hn, fun rest => ?_⟩
        rw [List.cons_append, countDigits, if_pos hds.1, if_pos hstop]
        rfl
      · have hnext : 10 * n + digitOf c ≤ most limit last := by
          rw [stops_iff hlast hds.1] at hstop
          omega
        have hvalue : (n * 10 + digitOf c) % modulus = 10 * n + digitOf c := by
          rw [mul_comm, Nat.mod_eq_of_lt (by omega)]
        obtain ⟨taken, ds', k', rfl, hle, hrun⟩ := ih hds.2 hnext hgt (k + 1)
        refine ⟨c :: taken, ds', k', rfl, hle, fun rest => ?_⟩
        rw [List.cons_append, countDigits, if_pos hds.1, if_neg hstop, hvalue, hrun]
        rfl

theorem bigDigits_append {ds : Text} (hds : AllDigits ds) (d : Ieee) :
    ∃ d', ∀ rest, NoDigit rest → bigDigits d (ds ++ rest) = (d', rest) := by
  induction ds generalizing d with
  | nil =>
      refine ⟨d, fun rest hrest => ?_⟩
      cases rest with
      | nil => rfl
      | cons c rest =>
          have hc : c.isDigit = false := hrest
          simp [bigDigits, hc]
  | cons c ds ih =>
      rw [AllDigits, List.forall_mem_cons] at hds
      obtain ⟨d', hrun⟩ := ih hds.2 (appendDigit d c)
      refine ⟨d', fun rest hrest => ?_⟩
      rw [List.cons_append, bigDigits, if_pos hds.1, hrun rest hrest]

end Digits

section Whole

def WholeText (whole : Text) : Prop :=
  whole = ['0'] ∨ ∃ c ds, whole = c :: ds ∧ c ≠ '0' ∧ AllDigits (c :: ds)

def WholeEnds (whole rest : Text) : Prop := whole = ['0'] ∨ NoDigit rest

def WholeReads (minus : Bool) (whole : Text) (r : Reading) : Prop :=
  ∀ rest, WholeEnds whole rest → parseWhole minus (whole ++ rest) = .ok (r, rest)

def most32 (minus : Bool) : Nat := if minus then 2 ^ 31 else 2 ^ 32 - 1

def most64 (minus : Bool) : Nat := if minus then 2 ^ 63 else 2 ^ 64 - 1

theorem last_isDigit (minus : Bool) : (if minus then '8' else '5').isDigit = true := by
  cases minus <;> rfl

theorem most32_eq (minus : Bool) :
    most (if minus then 214748364 else 429496729) (if minus then '8' else '5') = most32 minus := by
  cases minus <;> rfl

theorem most64_eq (minus : Bool) :
    most (if minus then 0x0CCCCCCCCCCCCCCC else 0x1999999999999999) (if minus then '8' else '5') =
      most64 minus := by
  cases minus <;> rfl

theorem most32_lt (minus : Bool) : most32 minus < 2 ^ 32 := by
  cases minus <;> decide

theorem most64_lt (minus : Bool) : most64 minus < 2 ^ 64 := by
  cases minus <;> decide

theorem most32_le (minus : Bool) : most32 minus ≤ most64 minus := by
  cases minus <;> decide

theorem parseWhole_digit (minus : Bool) {c : Char} (hc : c.isDigit = true) (hne : c ≠ '0')
    (is : Text) :
    parseWhole minus (c :: is) =
      match countDigits (2 ^ 32) (if minus then 214748364 else 429496729)
        (if minus then '8' else '5') (digitOf c) 0 is with
      | (i, significandDigit, false, is) => .ok ({ i, significandDigit }, is)
      | (i, significandDigit, true, is) =>
          match countDigits (2 ^ 64) (if minus then 0x0CCCCCCCCCCCCCCC else 0x1999999999999999)
            (if minus then '8' else '5') i significandDigit is with
          | (i64, significandDigit, false, is) =>
              .ok ({ i, i64, use64bit := true, significandDigit }, is)
          | (i64, significandDigit, true, is) =>
              let (d, is) := bigDigits (ofNat i64) is
              .ok ({ i, i64, use64bit := true, significandDigit, d, useDouble := true }, is) := by
  simp only [parseWhole, peek_cons, if_neg hne, hc, if_true, take_cons, ok_bind]

/-- What the integer part leaves: its value where 64 bits hold it, and else a double. -/
structure WholeResult (minus : Bool) (whole : Text) (r : Reading) : Prop where
  reads : WholeReads minus whole r
  expFrac : r.expFrac = 0
  exp : r.exp = 0
  integral : valueFrom 0 whole ≤ most64 minus → r.useDouble = false ∧
    r.significand = valueFrom 0 whole ∧ (r.use64bit = false → r.i ≤ most32 minus)
  real : most64 minus < valueFrom 0 whole → r.useDouble = true

theorem whole_reads (minus : Bool) {whole : Text} (h : WholeText whole) :
    ∃ r, WholeResult minus whole r := by
  obtain rfl | ⟨c, ds, rfl, hne, hall⟩ := h
  · have hvalue : valueFrom 0 ['0'] = 0 := rfl
    exact ⟨{}, fun rest _ => rfl, rfl, rfl,
      fun _ => ⟨rfl, hvalue.symm, fun _ => Nat.zero_le _⟩,
      fun hlt => absurd hlt (by rw [hvalue]; exact Nat.not_lt_zero _)⟩
  rw [AllDigits, List.forall_mem_cons] at hall
  obtain ⟨hc, hds⟩ := hall
  have hends : ∀ {rest}, WholeEnds (c :: ds) rest → NoDigit rest := by
    rintro rest (h | h)
    · exact absurd (List.cons.inj h).1 hne
    · exact h
  have hvalue : valueFrom 0 (c :: ds) = valueFrom (digitOf c) ds := by simp [valueFrom]
  have hfirst : digitOf c ≤ most32 minus := by
    have h9 := (digitOf_range hc).2
    have : 9 ≤ most32 minus := by cases minus <;> decide
    omega
  have hlast := last_isDigit minus
  have hmost := most32_eq minus
  have hmost' := most64_eq minus
  have hlt := most32_lt minus
  have hlt' := most64_lt minus
  by_cases hsmall : valueFrom (digitOf c) ds ≤ most32 minus
  · -- The first loop reads all digits.
    refine ⟨{ i := valueFrom (digitOf c) ds, significandDigit := 0 + ds.length }, ?_, rfl, rfl,
      fun _ => ⟨rfl, hvalue.symm, fun _ => hsmall⟩, fun hgt => ?_⟩
    · intro rest hrest
      rw [List.cons_append, parseWhole_digit minus hc hne,
        countDigits_small hlast (by rw [hmost]; exact hlt) hds (by rw [hmost]; exact hsmall) 0
          (hends hrest)]
    · have := most32_le minus
      omega
  obtain ⟨taken, ds', k, rfl, hle, hrun⟩ := countDigits_big (n := digitOf c) hlast
    (by rw [hmost]; exact hlt) hds (by rw [hmost]; exact hfirst) (by rw [hmost]; exact Nat.not_le.mp hsmall) 0
  have hds' : AllDigits ds' := fun d hd => hds d (List.mem_append_right _ hd)
  have hsplit : valueFrom (valueFrom (digitOf c) taken) ds' = valueFrom 0 (c :: (taken ++ ds')) := by
    rw [hvalue, valueFrom_append]
  rw [hmost] at hle
  have hle' : valueFrom (digitOf c) taken ≤ most64 minus := le_trans hle (most32_le minus)
  by_cases hwide : valueFrom 0 (c :: (taken ++ ds')) ≤ most64 minus
  · -- The second loop reads the rest.
    refine ⟨{ i := valueFrom (digitOf c) taken, i64 := valueFrom 0 (c :: (taken ++ ds')),
              use64bit := true, significandDigit := k + ds'.length }, ?_, rfl, rfl,
      fun _ => ⟨rfl, rfl, fun h => absurd h (by simp)⟩, fun hgt => absurd hwide (by omega)⟩
    intro rest hrest
    have hcount := countDigits_small hlast (by rw [hmost']; exact hlt') hds'
      (by rw [hsplit, hmost']; exact hwide) k (hends hrest)
    rw [List.cons_append, parseWhole_digit minus hc hne, hrun]
    simp only [hcount, hsplit]
  · obtain ⟨taken', ds'', k', rfl, _, hrun'⟩ := countDigits_big
      (n := valueFrom (digitOf c) taken) hlast (by rw [hmost']; exact hlt') hds' (by rw [hmost']; exact hle')
      (by rw [hsplit, hmost']; exact Nat.not_le.mp hwide) k
    obtain ⟨d, hbig⟩ := bigDigits_append (fun x hx => hds' x (List.mem_append_right _ hx))
      (ofNat (valueFrom (valueFrom (digitOf c) taken) taken'))
    refine ⟨{ i := valueFrom (digitOf c) taken,
              i64 := valueFrom (valueFrom (digitOf c) taken) taken', use64bit := true,
              significandDigit := k', d := d, useDouble := true }, ?_, rfl, rfl,
      fun h => absurd h hwide, fun _ => rfl⟩
    intro rest hrest
    rw [List.cons_append, parseWhole_digit minus hc hne, hrun]
    simp only [hrun', hbig rest (hends hrest)]

theorem exists_digits (is : Text) : ∃ ds rest, is = ds ++ rest ∧ AllDigits ds ∧ NoDigit rest := by
  refine ⟨is.takeWhile Char.isDigit, is.dropWhile Char.isDigit,
    (List.takeWhile_append_dropWhile).symm, fun _ h => List.mem_takeWhile_imp h, ?_⟩
  induction is with
  | nil => rfl
  | cons c is ih =>
      rw [List.dropWhile_cons]
      split_ifs with h
      · exact ih
      · simpa [NoDigit] using h

theorem parseWhole_cases (minus : Bool) (is : Text) :
    (∃ whole rest, is = whole ++ rest ∧ WholeText whole ∧ WholeEnds whole rest) ∨
      parseWhole minus is = .error (.error .valueInvalid is) := by
  cases is with
  | nil => exact .inr rfl
  | cons c is =>
      by_cases hzero : c = '0'
      · subst hzero
        exact .inl ⟨['0'], is, rfl, .inl rfl, .inl rfl⟩
      · by_cases hc : c.isDigit = true
        · obtain ⟨ds, rest, rfl, hds, hrest⟩ := exists_digits is
          exact .inl ⟨c :: ds, rest, rfl,
            .inr ⟨c, ds, rfl, hzero, List.forall_mem_cons.mpr ⟨hc, hds⟩⟩, .inr hrest⟩
        · exact .inr (by simp [parseWhole, hzero, hc])

end Whole

section Fraction

def fractionText : Option Text → Text
  | none => []
  | some ds => '.' :: ds

def FractionEnds (f : Option Text) (rest : Text) : Prop :=
  match f with
  | none => peek rest ≠ '.'
  | some _ => NoDigit rest

theorem int32_of {n : Int} (hlo : -2 ^ 31 ≤ n) (hhi : n < 2 ^ 31) : int32 n = .ok n := by
  rw [int32, if_pos ⟨hlo, hhi⟩]

theorem fractionInt_append {ds : Text} (hds : AllDigits ds) (i64 : Nat) (ef : Int) (k : Nat)
    (hlo : -2 ^ 31 ≤ ef - ds.length) (hhi : ef ≤ 0) :
    ∃ i64' k' taken ds', ds = taken ++ ds' ∧ ∀ rest, NoDigit rest →
      fractionInt i64 ef k (ds ++ rest) = .ok (i64', ef - taken.length, k', ds' ++ rest) := by
  induction ds generalizing i64 ef k with
  | nil =>
      refine ⟨i64, k, [], [], rfl, fun rest hrest => ?_⟩
      have hef : ef - (([] : Text).length : Int) = ef := by simp
      rw [hef]
      cases rest with
      | nil => rfl
      | cons c rest =>
          have hc : c.isDigit = false := hrest
          simp [fractionInt, hc]
  | cons c ds ih =>
      rw [AllDigits, List.forall_mem_cons] at hds
      rw [List.length_cons] at hlo
      by_cases hstop : i64 > 0x1FFFFFFFFFFFFF
      · refine ⟨i64, k, [], c :: ds, rfl, fun rest _ => ?_⟩
        simp [fractionInt, hds.1, hstop]
      · have hint : int32 (ef - 1) = .ok (ef - 1) := int32_of (by omega) (by omega)
        obtain ⟨i64', k', taken, ds', rfl, hrun⟩ := ih hds.2 ((i64 * 10 + digitOf c) % 2 ^ 64)
          (ef - 1)
          (if (i64 * 10 + digitOf c) % 2 ^ 64 ≠ 0 then k + 1 else k) (by omega) (by omega)
        refine ⟨i64', k', c :: taken, ds', rfl, fun rest hrest => ?_⟩
        have hlen : ef - ((c :: taken).length : Int) = ef - 1 - taken.length := by
          rw [List.length_cons]
          omega
        rw [List.cons_append, fractionInt, if_pos hds.1, if_neg hstop, hlen]
        simp only [hint, ok_bind]
        exact hrun rest hrest

theorem fractionReal_append {ds : Text} (hds : AllDigits ds) (d : Ieee) (ef : Int) (k : Nat)
    (hlo : -2 ^ 31 ≤ ef - ds.length) (hhi : ef ≤ 0) :
    ∃ d' ef', ef - ds.length ≤ ef' ∧ ef' ≤ ef ∧ ∀ rest, NoDigit rest →
      fractionReal d ef k (ds ++ rest) = .ok (d', ef', rest) := by
  induction ds generalizing d ef k with
  | nil =>
      refine ⟨d, ef, by simp, le_rfl, fun rest hrest => ?_⟩
      cases rest with
      | nil => rfl
      | cons c rest =>
          have hc : c.isDigit = false := hrest
          simp [fractionReal, hc]
  | cons c ds ih =>
      rw [AllDigits, List.forall_mem_cons] at hds
      rw [List.length_cons] at hlo
      by_cases hcount : k < 17
      · have hint : int32 (ef - 1) = .ok (ef - 1) := int32_of (by omega) (by omega)
        obtain ⟨d', ef', hge, hle, hrun⟩ := ih hds.2 (appendDigit d c) (ef - 1)
          (if isPositive (appendDigit d c) then k + 1 else k) (by omega) (by omega)
        refine ⟨d', ef', by rw [List.length_cons]; omega, by omega, fun rest hrest => ?_⟩
        rw [List.cons_append, fractionReal, if_pos hds.1, if_pos hcount]
        simp only [hint, ok_bind]
        exact hrun rest hrest
      · obtain ⟨d', ef', hge, hle, hrun⟩ := ih hds.2 d ef k (by omega) hhi
        refine ⟨d', ef', by rw [List.length_cons]; omega, hle, fun rest hrest => ?_⟩
        rw [List.cons_append, fractionReal, if_pos hds.1, if_neg hcount]
        exact hrun rest hrest

structure FractionResult (r : Reading) (f : Option Text) (r' : Reading) : Prop where
  reads : ∀ rest, FractionEnds f rest → parseFraction r (fractionText f ++ rest) = .ok (r', rest)
  exp : r'.exp = r.exp
  lower : -((fractionText f).length : Int) ≤ r'.expFrac
  upper : r'.expFrac ≤ 0

theorem fraction_none {r : Reading} (hef : r.expFrac = 0) : FractionResult r none r := by
  refine ⟨fun rest hrest => ?_, rfl, by simp [fractionText, hef], by omega⟩
  rw [fractionText, List.nil_append, parseFraction, consume_of_ne hrest]
  rfl

theorem parseFraction_digit (r : Reading) {c : Char} (hc : c.isDigit = true) (is : Text) :
    parseFraction r ('.' :: c :: is) =
      if r.useDouble then
        fractionReal r.d 0 r.significandDigit (c :: is) >>= fun p =>
          .ok ({ r with d := p.1, expFrac := p.2.1 }, p.2.2)
      else
        fractionInt r.significand 0 r.significandDigit (c :: is) >>= fun p =>
          fractionReal (ofNat p.1) p.2.1 p.2.2.1 p.2.2.2 >>= fun q =>
            .ok ({ r with d := q.1, expFrac := q.2.1, useDouble := true }, q.2.2) := by
  rw [parseFraction, consume_cons]
  simp [hc]

theorem fraction_some {r : Reading} {ds : Text} (hne : ds ≠ [])
    (hds : AllDigits ds) (hlen : ds.length < 2 ^ 31) :
    ∃ r', FractionResult r (some ds) r' ∧ r'.useDouble = true := by
  obtain ⟨c, ds, rfl⟩ := List.exists_cons_of_ne_nil hne
  have hc := hds c List.mem_cons_self
  have hparse := fun rest => parseFraction_digit r hc (ds ++ rest)
  cases hdouble : r.useDouble with
  | true =>
      obtain ⟨d, ef, hge, hle, hrun⟩ :=
        fractionReal_append hds r.d 0 r.significandDigit (by omega) le_rfl
      refine ⟨{ r with d := d, expFrac := ef }, ⟨fun rest hrest => ?_, rfl, ?_, hle⟩, hdouble⟩
      · have hrun := hrun rest hrest
        rw [List.cons_append] at hrun
        rw [fractionText, List.cons_append, List.cons_append, hparse, hdouble, if_pos rfl, hrun]
        rfl
      · rw [fractionText, List.length_cons]
        show -_ ≤ ef
        omega
  | false =>
      obtain ⟨i64, k, taken, ds', hsplit, hrun⟩ :=
        fractionInt_append hds r.significand 0 r.significandDigit (by omega) le_rfl
      have hlen' : (c :: ds).length = taken.length + ds'.length := by
        rw [hsplit, List.length_append]
      have hds' : AllDigits ds' := fun x hx => hds x (hsplit ▸ List.mem_append_right _ hx)
      obtain ⟨d, ef, hge, hle, hrun'⟩ := fractionReal_append hds' (ofNat i64)
        (0 - taken.length) k (by omega) (by omega)
      refine ⟨{ r with d := d, expFrac := ef, useDouble := true },
        ⟨fun rest hrest => ?_, rfl, ?_, by show ef ≤ 0; omega⟩, rfl⟩
      · have hrun := hrun rest hrest
        rw [List.cons_append] at hrun
        rw [fractionText, List.cons_append, List.cons_append, hparse, hdouble, if_neg (by simp), hrun]
        simp only [ok_bind, hrun' rest hrest]
      · rw [fractionText, List.length_cons]
        show -_ ≤ ef
        omega

theorem fraction_reads {r : Reading} {f : Option Text} (hef : r.expFrac = 0)
    (hf : ∀ ds ∈ f, ds ≠ [] ∧ AllDigits ds) (hlen : (fractionText f).length < 2 ^ 27) :
    ∃ r', FractionResult r f r' ∧ (f = none → r' = r) ∧ (f ≠ none → r'.useDouble = true) := by
  cases f with
  | none => exact ⟨r, fraction_none hef, fun _ => rfl, fun h => absurd rfl h⟩
  | some ds =>
      obtain ⟨hne, hds⟩ := hf ds rfl
      rw [fractionText, List.length_cons] at hlen
      obtain ⟨r', hr', hd⟩ := fraction_some (r := r) hne hds (by omega)
      exact ⟨r', hr', fun h => absurd h (by simp), fun _ => hd⟩

theorem parseFraction_cases (is : Text) :
    (∃ f rest, is = fractionText f ++ rest ∧ (∀ ds ∈ f, ds ≠ [] ∧ AllDigits ds) ∧
        FractionEnds f rest) ∨
      ∃ rest, rest <:+ is ∧ ∀ r, parseFraction r is = .error (.error .numberMissFraction rest) := by
  obtain ⟨is, rfl, hpoint⟩ | ⟨hne, _⟩ := consume_cases (c := '.') (by decide) is
  · by_cases hc : (peek is).isDigit = true
    · obtain ⟨ds, rest, rfl, hds, hrest⟩ := exists_digits is
      refine .inl ⟨some ds, rest, rfl, fun ds' h => ?_, hrest⟩
      obtain rfl := Option.some.inj h
      refine ⟨?_, hds⟩
      rintro rfl
      exact absurd hc (by rw [List.nil_append, hrest]; simp)
    · refine .inr ⟨is, List.suffix_cons _ _, fun r => ?_⟩
      simp [parseFraction, hpoint, hc]
  · exact .inl ⟨none, is, rfl, fun _ h => absurd h (by simp), hne⟩

end Fraction

section Exponent

def exponentText : Option (Char × Text × Text) → Text
  | none => []
  | some (mark, sign, ds) => mark :: (sign ++ ds)

def ExponentEnds (x : Option (Char × Text × Text)) (rest : Text) : Prop :=
  match x with
  | none => peek rest ≠ 'e' ∧ peek rest ≠ 'E'
  | some _ => NoDigit rest

def ExponentText (x : Option (Char × Text × Text)) : Prop :=
  ∀ e ∈ x, (e.1 = 'e' ∨ e.1 = 'E') ∧ (e.2.1 = [] ∨ e.2.1 = ['+'] ∨ e.2.1 = ['-']) ∧
    e.2.2 ≠ [] ∧ AllDigits e.2.2

theorem dropWhile_digits {ds rest : Text} (hds : AllDigits ds) (hrest : NoDigit rest) :
    (ds ++ rest).dropWhile Char.isDigit = rest := by
  refine dropWhile_before hds fun c hc => ?_
  cases rest with
  | nil => exact absurd hc (by simp)
  | cons d rest =>
      obtain rfl := Option.some.inj hc
      exact hrest

theorem negativeExponent_append {ds : Text} (hds : AllDigits ds) (maxExp exp : Int) (h0 : 0 ≤ exp)
    (hle : exp ≤ maxExp) (hmax : maxExp * 10 + 9 < 2 ^ 31) :
    ∃ exp', 0 ≤ exp' ∧ exp' ≤ maxExp * 10 + 9 ∧ ∀ rest, NoDigit rest →
      negativeExponent maxExp exp (ds ++ rest) = .ok (exp', rest) := by
  induction ds generalizing exp with
  | nil =>
      refine ⟨exp, h0, by omega, fun rest hrest => ?_⟩
      cases rest with
      | nil => rfl
      | cons c rest =>
          have hc : c.isDigit = false := hrest
          simp [negativeExponent, hc]
  | cons c ds ih =>
      rw [AllDigits, List.forall_mem_cons] at hds
      have h9 := (digitOf_range hds.1).2
      have hint : int32 (exp * 10 + digitOf c) = .ok (exp * 10 + digitOf c) :=
        int32_of (by omega) (by omega)
      by_cases hgt : exp * 10 + digitOf c > maxExp
      · refine ⟨exp * 10 + digitOf c, by omega, by omega, fun rest hrest => ?_⟩
        rw [List.cons_append, negativeExponent, if_pos hds.1, hint, ok_bind, if_pos hgt,
          dropWhile_digits hds.2 hrest]
      · obtain ⟨exp', h0', hle', hrun⟩ := ih hds.2 (exp * 10 + digitOf c) (by omega) (by omega)
        refine ⟨exp', h0', hle', fun rest hrest => ?_⟩
        rw [List.cons_append, negativeExponent, if_pos hds.1, hint, ok_bind, if_neg hgt,
          hrun rest hrest]

theorem positiveExponent_append {ds : Text} (hds : AllDigits ds) (maxExp exp : Int) (h0 : 0 ≤ exp)
    (hle : exp ≤ maxExp) (hmax : maxExp * 10 + 9 < 2 ^ 31) :
    (∃ exp', 0 ≤ exp' ∧ exp' ≤ maxExp ∧ ∀ start rest, NoDigit rest →
        positiveExponent start maxExp exp (ds ++ rest) = .ok (exp', rest)) ∨
      ∀ start rest,
        positiveExponent start maxExp exp (ds ++ rest) = .error (.error .numberTooBig start) := by
  induction ds generalizing exp with
  | nil =>
      refine .inl ⟨exp, h0, hle, fun start rest hrest => ?_⟩
      cases rest with
      | nil => rfl
      | cons c rest =>
          have hc : c.isDigit = false := hrest
          simp [positiveExponent, hc]
  | cons c ds ih =>
      rw [AllDigits, List.forall_mem_cons] at hds
      have h9 := (digitOf_range hds.1).2
      have hint : int32 (exp * 10 + digitOf c) = .ok (exp * 10 + digitOf c) :=
        int32_of (by omega) (by omega)
      by_cases hgt : exp * 10 + digitOf c > maxExp
      · refine .inr fun start rest => ?_
        rw [List.cons_append, positiveExponent, if_pos hds.1, hint, ok_bind, if_pos hgt]
      · have hstep : ∀ start rest, positiveExponent start maxExp exp (c :: ds ++ rest) =
            positiveExponent start maxExp (exp * 10 + digitOf c) (ds ++ rest) := by
          intro start rest
          rw [List.cons_append, positiveExponent, if_pos hds.1, hint, ok_bind, if_neg hgt]
        obtain ⟨exp', h0', hle', hrun⟩ | herr :=
          ih hds.2 (exp * 10 + digitOf c) (by omega) (by omega)
        · exact .inl ⟨exp', h0', hle', fun start rest hrest => by rw [hstep, hrun start rest hrest]⟩
        · exact .inr fun start rest => by rw [hstep, herr]

theorem digit_ne {c : Char} (hc : c.isDigit = true) : c ≠ '+' ∧ c ≠ '-' := by
  constructor <;> rintro rfl <;> exact absurd hc (by decide)

theorem parseExponentDigits_minus (start : Text) {ef : Int} (hef : ef ≤ 0) {c : Char}
    (hc : c.isDigit = true) (is : Text) :
    parseExponentDigits start ef ('-' :: c :: is) =
      negativeExponent ((ef + 2147483639).tdiv 10) (digitOf c) is >>= fun p => .ok (-p.1, p.2) := by
  have hplus : consume '+' ('-' :: c :: is) = .ok (false, '-' :: c :: is) :=
    consume_of_ne (show peek ('-' :: c :: is) ≠ '+' by simp)
  have hpos : ¬ ef > 0 := by omega
  simp [parseExponentDigits, hplus, consume_cons, hc, hpos]

theorem parseExponentDigits_plus (start : Text) (ef : Int) {sign : Text}
    (hsign : sign = [] ∨ sign = ['+']) {c : Char} (hc : c.isDigit = true) (is : Text) :
    parseExponentDigits start ef (sign ++ c :: is) =
      int32 (308 - ef) >>= fun maxExp => positiveExponent start maxExp (digitOf c) is := by
  obtain ⟨hp, hm⟩ := digit_ne hc
  obtain rfl | rfl := hsign
  · have hplus : consume '+' (c :: is) = .ok (false, c :: is) := consume_of_ne (by simpa using hp)
    have hminus : consume '-' (c :: is) = .ok (false, c :: is) := consume_of_ne (by simpa using hm)
    simp [parseExponentDigits, hplus, hminus, hc]
  · simp [parseExponentDigits, consume_cons, hc]

theorem parseExponentDigits_append {sign ds : Text} {ef : Int}
    (hsign : sign = [] ∨ sign = ['+'] ∨ sign = ['-']) (hne : ds ≠ []) (hds : AllDigits ds)
    (hlo : -2 ^ 27 ≤ ef) (hhi : ef ≤ 0) :
    (∃ x, -2 ^ 31 ≤ x + ef ∧ x + ef ≤ 308 ∧ ∀ start rest, NoDigit rest →
        parseExponentDigits start ef (sign ++ ds ++ rest) = .ok (x, rest)) ∨
      ∀ start rest,
        parseExponentDigits start ef (sign ++ ds ++ rest) = .error (.error .numberTooBig start) := by
  obtain ⟨c, ds, rfl⟩ := List.exists_cons_of_ne_nil hne
  rw [AllDigits, List.forall_mem_cons] at hds
  have h9 := (digitOf_range hds.1).2
  by_cases hminus : sign = ['-']
  · have hdiv : (ef + 2147483639).tdiv 10 = (ef + 2147483639) / 10 :=
      Int.tdiv_eq_ediv_of_nonneg (by omega)
    obtain ⟨x, h0, hle, hrun⟩ := negativeExponent_append hds.2
      ((ef + 2147483639) / 10) (digitOf c) (by omega) (by omega) (by omega)
    refine .inl ⟨-x, by omega, by omega, fun start rest hrest => ?_⟩
    rw [hminus, List.append_assoc, List.singleton_append, List.cons_append,
      parseExponentDigits_minus start hhi hds.1, hdiv, hrun rest hrest, ok_bind]
  · have hsign : sign = [] ∨ sign = ['+'] := by tauto
    have hint : int32 (308 - ef) = .ok (308 - ef) := int32_of (by omega) (by omega)
    have hstep : ∀ start rest, parseExponentDigits start ef (sign ++ c :: ds ++ rest) =
        positiveExponent start (308 - ef) (digitOf c) (ds ++ rest) := by
      intro start rest
      rw [List.append_assoc, List.cons_append, parseExponentDigits_plus start ef hsign hds.1, hint,
        ok_bind]
    obtain ⟨x, h0, hle, hrun⟩ | herr := positiveExponent_append hds.2
      (308 - ef) (digitOf c) (by omega) (by omega) (by omega)
    · exact .inl ⟨x, by omega, by omega, fun start rest hrest => by rw [hstep, hrun start rest hrest]⟩
    · exact .inr fun start rest => by rw [hstep, herr]

structure ExponentResult (r : Reading) (x : Option (Char × Text × Text)) (r' : Reading) : Prop where
  reads : ∀ start rest, ExponentEnds x rest →
    parseExponent start r (exponentText x ++ rest) = .ok (r', rest)
  lower : -2 ^ 31 ≤ r'.exp + r'.expFrac
  upper : r'.exp + r'.expFrac ≤ 308

theorem exponent_none {r : Reading} (hexp : r.exp = 0) (hlo : -2 ^ 27 ≤ r.expFrac)
    (hhi : r.expFrac ≤ 0) : ExponentResult r none r := by
  refine ⟨fun start rest hrest => ?_, by omega, by omega⟩
  rw [exponentText, List.nil_append, parseExponent, consume_of_ne hrest.1, ok_bind]
  simp [consume_of_ne hrest.2]

theorem parseExponent_mark (start : Text) (r : Reading) {mark : Char} (hmark : mark = 'e' ∨ mark = 'E')
    (is : Text) :
    parseExponent start r (mark :: is) = parseExponentDigits start r.expFrac is >>= fun p =>
      .ok ({ r with d := if r.useDouble then r.d else ofNat r.significand, useDouble := true,
                    exp := p.1 }, p.2) := by
  obtain rfl | rfl := hmark
  · simp [parseExponent, consume_cons]
  · have hlower : consume 'e' ('E' :: is) = .ok (false, 'E' :: is) :=
      consume_of_ne (show peek ('E' :: is) ≠ 'e' by simp)
    simp [parseExponent, hlower, consume_cons]

theorem exponent_some {r : Reading} {x : Char × Text × Text} (hx : ExponentText (some x))
    (hlo : -2 ^ 27 ≤ r.expFrac) (hhi : r.expFrac ≤ 0) :
    (∃ r', ExponentResult r (some x) r' ∧ r'.useDouble = true) ∨
      ∀ start rest, parseExponent start r (exponentText (some x) ++ rest) =
        .error (.error .numberTooBig start) := by
  obtain ⟨mark, sign, ds⟩ := x
  obtain ⟨hmark, hsign, hne, hds⟩ := hx _ rfl
  obtain ⟨x, hl, hu, hrun⟩ | herr := parseExponentDigits_append hsign hne hds hlo hhi
  · refine .inl ⟨{ r with d := if r.useDouble then r.d else ofNat r.significand,
                          useDouble := true, exp := x },
      ⟨fun start rest hrest => ?_, hl, hu⟩, rfl⟩
    rw [exponentText, List.cons_append, parseExponent_mark start r hmark, hrun start rest hrest,
      ok_bind]
  · refine .inr fun start rest => ?_
    rw [exponentText, List.cons_append, parseExponent_mark start r hmark, herr, error_bind]

theorem parseExponent_cases (is : Text) :
    (∃ x rest, is = exponentText x ++ rest ∧ ExponentText x ∧ ExponentEnds x rest) ∨
      ∃ rest, rest <:+ is ∧ ∀ start r,
        parseExponent start r is = .error (.error .numberMissExponent rest) := by
  by_cases hmark : peek is = 'e' ∨ peek is = 'E'
  · obtain ⟨mark, is, rfl⟩ : ∃ mark rest, is = mark :: rest := by
      cases is with
      | nil => exact absurd hmark (by decide)
      | cons mark is => exact ⟨mark, is, rfl⟩
    rw [peek_cons] at hmark
    -- The sign, if there is one.
    obtain ⟨sign, is, rfl, hsign, hnone⟩ : ∃ sign rest, is = sign ++ rest ∧
        (sign = [] ∨ sign = ['+'] ∨ sign = ['-']) ∧ (sign = [] → peek rest ≠ '+' ∧ peek rest ≠ '-') := by
      by_cases hp : peek is = '+'
      · obtain ⟨rest, rfl⟩ := eq_cons_of_peek hp (by decide)
        exact ⟨['+'], rest, rfl, .inr (.inl rfl), fun h => absurd h (by simp)⟩
      · by_cases hm : peek is = '-'
        · obtain ⟨rest, rfl⟩ := eq_cons_of_peek hm (by decide)
          exact ⟨['-'], rest, rfl, .inr (.inr rfl), fun h => absurd h (by simp)⟩
        · exact ⟨[], is, rfl, .inl rfl, fun _ => ⟨hp, hm⟩⟩
    by_cases hc : (peek is).isDigit = true
    · obtain ⟨ds, rest, rfl, hds, hrest⟩ := exists_digits is
      refine .inl ⟨some (mark, sign, ds), rest, by simp [exponentText], fun x h => ?_, hrest⟩
      obtain rfl := Option.some.inj h
      refine ⟨hmark, hsign, ?_, hds⟩
      rintro rfl
      exact absurd hc (by rw [List.nil_append, hrest]; simp)
    · refine .inr ⟨is, (List.suffix_append sign is).trans (List.suffix_cons _ _), fun start r => ?_⟩
      rw [parseExponent_mark start r hmark]
      have herr : parseExponentDigits start r.expFrac (sign ++ is) =
          .error (.error .numberMissExponent is) := by
        obtain rfl | rfl | rfl := hsign
        · obtain ⟨hp, hm⟩ := hnone rfl
          simp [parseExponentDigits, consume_of_ne hp, consume_of_ne hm, hc]
        · simp [parseExponentDigits, consume_cons, hc]
        · have hplus : consume '+' ('-' :: is) = .ok (false, '-' :: is) :=
            consume_of_ne (show peek ('-' :: is) ≠ '+' by simp)
          simp [parseExponentDigits, hplus, consume_cons, hc]
      rw [herr, error_bind]
  · exact .inl ⟨none, is, rfl, fun _ h => absurd h (by simp), not_or.mp hmark⟩

end Exponent

section Finish

theorem fastPath_ok (d : Ieee) (exp : Int) (h : exp ≤ 308) : ∃ d', fastPath d exp = .ok d' := by
  rw [fastPath]
  split_ifs with hlow hpos
  · exact ⟨_, rfl⟩
  · rw [pow10, if_pos ⟨hpos, h⟩]
    exact ⟨_, rfl⟩
  · rw [pow10, if_pos ⟨by omega, by omega⟩]
    exact ⟨_, rfl⟩

theorem strtodNormalPrecision_ok (d : Ieee) {p : Int} (h : p ≤ 308) :
    ∃ d', strtodNormalPrecision d p = .ok d' := by
  rw [strtodNormalPrecision]
  split_ifs with hlow
  · obtain ⟨d', hd⟩ := fastPath_ok d (-308) (by omega)
    rw [hd]
    exact fastPath_ok d' _ (by omega)
  · exact fastPath_ok d p h

theorem finishNumber_double {r : Reading} (hd : r.useDouble = true)
    (hlo : -2 ^ 31 ≤ r.exp + r.expFrac) (hhi : r.exp + r.expFrac ≤ 308) (minus : Bool) :
    (∃ x, ∀ start, finishNumber start minus r = .ok (.double x)) ∨
      ∀ start, finishNumber start minus r = .error (.error .numberTooBig start) := by
  obtain ⟨d, hstrtod⟩ := strtodNormalPrecision_ok r.d hhi
  have hint : int32 (r.exp + r.expFrac) = .ok (r.exp + r.expFrac) := int32_of hlo (by omega)
  have hrun : ∀ start, finishNumber start minus r =
      if d = .inf false then .error (.error .numberTooBig start)
      else .ok (.double (if minus then negate d else d)) := by
    intro start
    simp only [finishNumber, hd, if_true, hint, ok_bind, hstrtod]
  by_cases hinf : d = .inf false
  · exact .inr fun start => by rw [hrun, if_pos hinf]
  · exact .inl ⟨_, fun start => by rw [hrun, if_neg hinf]⟩

def announced : Event → Option Number
  | .int n | .uint n | .int64 n | .uint64 n => some (.int n)
  | .double x => some (.double x)
  | _ => none

theorem complement32 {n : Nat} (h : n ≤ 2 ^ 31) : complement 32 n = -n := by
  rw [complement]
  split_ifs <;> omega

theorem complement64 {n : Nat} (h : n ≤ 2 ^ 63) : complement 64 n = -n := by
  rw [complement]
  split_ifs <;> omega

theorem finishNumber_integral {r : Reading} {v : Nat} {minus : Bool} (hd : r.useDouble = false)
    (hv : r.significand = v) (hle : v ≤ most64 minus)
    (hi : r.use64bit = false → r.i ≤ most32 minus) (start : Text) :
    ∃ e, finishNumber start minus r = .ok e ∧ announced e = some (.int (if minus then -v else v)) := by
  rw [Reading.significand] at hv
  rw [finishNumber, if_neg (by simp [hd])]
  cases hwide : r.use64bit with
  | true =>
      rw [hwide, if_pos rfl] at hv
      subst hv
      refine ⟨_, rfl, ?_⟩
      cases minus with
      | true => simp [announced, complement64 hle]
      | false => simp [announced]
  | false =>
      rw [hwide, if_neg (by simp)] at hv
      subst hv
      refine ⟨_, rfl, ?_⟩
      cases minus with
      | true => simp [announced, complement32 (hi hwide)]
      | false => simp [announced]

end Finish

section Numbers

structure NumberText where
  minus : Bool
  whole : Text
  fraction : Option Text
  exponent : Option (Char × Text × Text)

def NumberText.text (t : NumberText) : Text :=
  (if t.minus then ['-'] else []) ++ (t.whole ++ (fractionText t.fraction ++ exponentText t.exponent))

structure NumberText.Valid (t : NumberText) : Prop where
  whole : WholeText t.whole
  fraction : ∀ ds ∈ t.fraction, ds ≠ [] ∧ AllDigits ds
  exponent : ExponentText t.exponent

/-- The number does not go on in what follows. -/
structure NumberText.Ends (t : NumberText) (rest : Text) : Prop where
  whole : WholeEnds t.whole (fractionText t.fraction ++ (exponentText t.exponent ++ rest))
  fraction : FractionEnds t.fraction (exponentText t.exponent ++ rest)
  exponent : ExponentEnds t.exponent rest

def NumberText.value (t : NumberText) : Int :=
  if t.minus then -(valueFrom 0 t.whole : Int) else valueFrom 0 t.whole

def NumberText.Integral (t : NumberText) : Prop :=
  t.fraction = none ∧ t.exponent = none ∧ valueFrom 0 t.whole ≤ most64 t.minus

theorem WholeText.head {whole : Text} (h : WholeText whole) :
    ∃ c ds, whole = c :: ds ∧ c.isDigit = true := by
  obtain rfl | ⟨c, ds, rfl, _, hall⟩ := h
  · exact ⟨'0', [], rfl, rfl⟩
  · exact ⟨c, ds, rfl, hall c List.mem_cons_self⟩

def parseUnsigned (startOffset : Text) (minus : Bool) (is : Text) : Step (Event × Text) := do
  let (r, is) ← parseWhole minus is
  let (r, is) ← parseFraction r is
  let (r, is) ← parseExponent startOffset r is
  let e ← finishNumber startOffset minus r
  .ok (e, is)

theorem parseNumber_minus (is : Text) :
    parseNumber ('-' :: is) = parseUnsigned ('-' :: is) true is := by
  rw [parseNumber, consume_cons, ok_bind]
  rfl

theorem parseNumber_plus {is : Text} (h : peek is ≠ '-') :
    parseNumber is = parseUnsigned is false is := by
  rw [parseNumber, consume_of_ne h, ok_bind]
  rfl

theorem parseNumber_text_append {t : NumberText} (ht : WholeText t.whole) (rest : Text) :
    parseNumber (t.text ++ rest) = parseUnsigned (t.text ++ rest) t.minus
      (t.whole ++ (fractionText t.fraction ++ (exponentText t.exponent ++ rest))) := by
  have htext : t.text ++ rest = (if t.minus then ['-'] else []) ++
      (t.whole ++ (fractionText t.fraction ++ (exponentText t.exponent ++ rest))) := by
    simp [NumberText.text]
  rw [htext]
  cases t.minus with
  | true => exact parseNumber_minus _
  | false =>
      obtain ⟨c, ds, hwhole, hc⟩ := ht.head
      refine parseNumber_plus ?_
      rw [hwhole]
      exact (digit_ne hc).2

/-- What the parser does with a number does not depend on what follows. -/
theorem parseNumber_text {t : NumberText} (ht : t.Valid) (hlen : t.text.length < 2 ^ 27) :
    (∃ e n, announced e = some n ∧ (t.Integral → n = .int t.value) ∧
        (¬ t.Integral → ∃ x, n = .double x) ∧
        ∀ rest, t.Ends rest → parseNumber (t.text ++ rest) = .ok (e, rest)) ∨
      (¬ t.Integral ∧ ∀ rest, t.Ends rest →
        parseNumber (t.text ++ rest) = .error (.error .numberTooBig (t.text ++ rest))) := by
  have hlens : (fractionText t.fraction).length < 2 ^ 27 := by
    rw [NumberText.text, List.length_append, List.length_append, List.length_append] at hlen
    omega
  obtain ⟨r, hr⟩ := whole_reads t.minus ht.whole
  obtain ⟨r', hr', hfraction⟩ := fraction_reads hr.expFrac ht.fraction hlens
  have hlo : -2 ^ 27 ≤ r'.expFrac := by
    have := hr'.lower
    omega
  -- The run up to the exponent.
  have hrun : ∀ rest, t.Ends rest → parseNumber (t.text ++ rest) =
      parseExponent (t.text ++ rest) r' (exponentText t.exponent ++ rest) >>= fun p =>
        finishNumber (t.text ++ rest) t.minus p.1 >>= fun e => .ok (e, p.2) := by
    intro rest hrest
    simp only [parseNumber_text_append ht.whole, parseUnsigned, hr.reads _ hrest.whole, ok_bind,
      hr'.reads _ hrest.fraction]
  have hexponent : (∃ r'', ExponentResult r' t.exponent r'' ∧ (t.exponent = none → r'' = r') ∧
      (t.exponent ≠ none → r''.useDouble = true)) ∨ (t.exponent ≠ none ∧ ∀ start rest,
        parseExponent start r' (exponentText t.exponent ++ rest) =
          .error (.error .numberTooBig start)) := by
    have hx := ht.exponent
    cases he : t.exponent with
    | none =>
        exact .inl ⟨r', exponent_none (hr'.exp.trans hr.exp) hlo hr'.upper, fun _ => rfl,
          fun h => absurd rfl h⟩
    | some x =>
        rw [he] at hx
        obtain ⟨r'', hr'', hd⟩ | herr := exponent_some hx hlo hr'.upper
        · exact .inl ⟨r'', hr'', fun h => absurd h (by simp), fun _ => hd⟩
        · exact .inr ⟨by simp, herr⟩
  obtain ⟨r'', hr'', hsame, hdouble⟩ | ⟨hsome, herr⟩ := hexponent
  · by_cases hint : t.Integral
    · obtain ⟨hf, hx, hfits⟩ := hint
      obtain ⟨hd, hsig, hi⟩ := hr.integral hfits
      obtain rfl := hfraction.1 hf
      obtain rfl := hsame hx
      obtain ⟨e, hfinish, hann⟩ := finishNumber_integral hd hsig hfits hi []
      refine .inl ⟨e, _, hann, fun _ => rfl, fun h => absurd ⟨hf, hx, hfits⟩ h, fun rest hrest => ?_⟩
      have hstart : finishNumber (t.text ++ rest) t.minus r'' = finishNumber [] t.minus r'' := by
        simp only [finishNumber, hd, Bool.false_eq_true, if_false]
      rw [hrun rest hrest, hr''.reads _ rest hrest.exponent, ok_bind, hstart, hfinish, ok_bind]
    · have hd : r''.useDouble = true := by
        by_cases hx : t.exponent = none
        · rw [hsame hx]
          by_cases hf : t.fraction = none
          · rw [hfraction.1 hf]
            refine hr.real (Nat.not_le.mp fun hle => hint ⟨hf, hx, hle⟩)
          · exact hfraction.2 hf
        · exact hdouble hx
      obtain ⟨x, hfinish⟩ | herr := finishNumber_double hd hr''.lower hr''.upper t.minus
      · refine .inl ⟨.double x, .double x, rfl, fun h => absurd h hint, fun _ => ⟨x, rfl⟩,
          fun rest hrest => ?_⟩
        rw [hrun rest hrest, hr''.reads _ rest hrest.exponent, ok_bind, hfinish, ok_bind]
      · refine .inr ⟨hint, fun rest hrest => ?_⟩
        rw [hrun rest hrest, hr''.reads _ rest hrest.exponent, ok_bind, herr, error_bind]
  · refine .inr ⟨fun h => hsome h.2.1, fun rest hrest => ?_⟩
    rw [hrun rest hrest, herr, error_bind]

theorem number_or_refused {is : Text} (hlen : is.length < 2 ^ 27) :
    (∃ t rest, NumberText.Valid t ∧ t.Ends rest ∧ is = t.text ++ rest) ∨
      ∃ e, parseNumber is = .error e ∧ Refused is e := by
  obtain ⟨minus, is', hsplit, hparse⟩ : ∃ minus is', is = (if minus then ['-'] else []) ++ is' ∧
      parseNumber is = parseUnsigned is minus is' := by
    by_cases h : peek is = '-'
    · obtain ⟨rest, rfl⟩ := eq_cons_of_peek h (by decide)
      exact ⟨true, rest, rfl, parseNumber_minus rest⟩
    · exact ⟨false, is, rfl, parseNumber_plus h⟩
  have hsuffix : is' <:+ is := hsplit ▸ List.suffix_append _ _
  obtain ⟨whole, is₁, rfl, hwhole, hends⟩ | herr := parseWhole_cases minus is'
  · obtain ⟨r, hr⟩ := whole_reads minus hwhole
    obtain ⟨f, is₂, rfl, hf, hfends⟩ | ⟨rest, hs, herr⟩ := parseFraction_cases is₁
    · obtain ⟨x, rest, rfl, hx, hxends⟩ | ⟨rest, hs, herr⟩ := parseExponent_cases is₂
      · refine .inl ⟨⟨minus, whole, f, x⟩, rest, ⟨hwhole, hf, hx⟩, ⟨hends, hfends, hxends⟩, ?_⟩
        rw [hsplit]
        simp [NumberText.text]
      · have hlens : (fractionText f).length < 2 ^ 27 := by
          rw [hsplit, List.length_append, List.length_append, List.length_append] at hlen
          omega
        obtain ⟨r', hr', _⟩ := fraction_reads hr.expFrac hf hlens
        refine .inr ⟨_, ?_, .numberMissExponent, rest, rfl,
          ((hs.trans (List.suffix_append _ _)).trans (List.suffix_append _ _)).trans hsuffix⟩
        simp only [hparse, parseUnsigned, hr.reads _ hends, ok_bind, hr'.reads _ hfends, herr,
          error_bind]
    · refine .inr ⟨_, ?_, .numberMissFraction, rest, rfl,
        (hs.trans (List.suffix_append _ _)).trans hsuffix⟩
      simp only [hparse, parseUnsigned, hr.reads _ hends, ok_bind, herr, error_bind]
  · refine .inr ⟨_, ?_, .valueInvalid, is', rfl, hsuffix⟩
    rw [hparse, parseUnsigned, herr, error_bind]

/-- A number as it is written, and the number it stands for. Where no integer type holds it,
this is what the parser computes in double arithmetic. -/
inductive NumberValue : NumberText → Number → Prop
  | int {t : NumberText} (valid : t.Valid) (integral : t.Integral) : NumberValue t (.int t.value)
  | double {t : NumberText} {x : Ieee} (valid : t.Valid) (fractional : ¬ t.Integral)
      (computed : parseNumber t.text = .ok (.double x, [])) : NumberValue t (.double x)

def NoContinuation (rest : Text) : Prop :=
  NoDigit rest ∧ peek rest ≠ '.' ∧ peek rest ≠ 'e' ∧ peek rest ≠ 'E'

theorem NumberText.ends {t : NumberText} (ht : t.Valid) {rest : Text} (h : NoContinuation rest) :
    t.Ends rest := by
  obtain ⟨hdigit, hpoint, hlower, hupper⟩ := h
  have hexponent : ExponentEnds t.exponent rest := by
    cases t.exponent with
    | none => exact ⟨hlower, hupper⟩
    | some x => exact hdigit
  have hafter : NoDigit (exponentText t.exponent ++ rest) ∧
      peek (exponentText t.exponent ++ rest) ≠ '.' := by
    cases hx : t.exponent with
    | none => exact ⟨hdigit, hpoint⟩
    | some x =>
        obtain ⟨hmark, _⟩ := ht.exponent x hx
        obtain ⟨mark, sign, ds⟩ := x
        obtain rfl | rfl := hmark <;> exact ⟨rfl, by simp [exponentText]⟩
  have hfraction : FractionEnds t.fraction (exponentText t.exponent ++ rest) := by
    cases t.fraction with
    | none => exact hafter.2
    | some ds => exact hafter.1
  refine ⟨.inr ?_, hfraction, hexponent⟩
  cases t.fraction with
  | none => exact hafter.1
  | some ds => rfl

theorem noContinuation_nil : NoContinuation [] := ⟨rfl, by decide, by decide, by decide⟩

theorem parseNumber_of_value {t : NumberText} {n : Number} (h : NumberValue t n)
    (hlen : t.text.length < 2 ^ 27) {rest : Text} (hrest : NoContinuation rest) :
    ∃ e, announced e = some n ∧ parseNumber (t.text ++ rest) = .ok (e, rest) := by
  cases h with
  | int valid integral =>
      obtain ⟨e, n, hann, hint, _, hrun⟩ | ⟨hnot, _⟩ := parseNumber_text valid hlen
      · obtain rfl := hint integral
        exact ⟨e, hann, hrun rest (NumberText.ends valid hrest)⟩
      · exact absurd integral hnot
  | double valid fractional computed =>
      have hself := NumberText.ends valid noContinuation_nil
      obtain ⟨e, n, hann, _, hreal, hrun⟩ | ⟨_, herr⟩ := parseNumber_text valid hlen
      · have hown := hrun [] hself
        rw [List.append_nil, computed] at hown
        obtain rfl := (Prod.ext_iff.mp (Except.ok.inj hown)).1
        exact ⟨_, rfl, hrun rest (NumberText.ends valid hrest)⟩
      · have hown := herr [] hself
        rw [List.append_nil, computed] at hown
        exact absurd hown (by simp)

theorem parseNumber_cases {is : Text} (hlen : is.length < 2 ^ 27) :
    (∃ t n e rest, is = t.text ++ rest ∧ NumberValue t n ∧ announced e = some n ∧
        parseNumber is = .ok (e, rest)) ∨
      ∃ e, parseNumber is = .error e ∧ Refused is e := by
  obtain ⟨t, rest, ht, hends, rfl⟩ | herr := number_or_refused hlen
  · have hlen' : t.text.length < 2 ^ 27 := by
      rw [List.length_append] at hlen
      omega
    obtain ⟨e, n, hann, hint, hreal, hrun⟩ | ⟨_, herr⟩ := parseNumber_text ht hlen'
    · refine .inl ⟨t, n, e, rest, rfl, ?_, hann, hrun rest hends⟩
      by_cases h : t.Integral
      · rw [hint h]
        exact .int ht h
      · obtain ⟨x, rfl⟩ := hreal h
        have hown := hrun [] (NumberText.ends ht noContinuation_nil)
        rw [List.append_nil] at hown
        refine .double ht h ?_
        cases e with
        | double y =>
            obtain rfl : y = x := by simpa [announced] using hann
            exact hown
        | _ => exact absurd hann (by simp [announced])
    · exact .inr ⟨_, herr rest hends, refused_here _ _⟩
  · exact .inr herr

def NumberText.power (t : NumberText) : Int :=
  match t.exponent with
  | none => 0
  | some (_, sign, ds) => if sign = ['-'] then -(valueFrom 0 ds : Int) else valueFrom 0 ds

def NumberText.places (t : NumberText) : Text := t.fraction.getD []

/-- The exact number without its sign. -/
def NumberText.magnitude (t : NumberText) : ℚ :=
  valueFrom 0 (t.whole ++ t.places) * (10 : ℚ) ^ (t.power - t.places.length)

def NumberText.rounded (t : NumberText) : Ieee :=
  if t.minus then negate (binary64.round t.magnitude) else binary64.round t.magnitude

theorem digitChar_ne_zero : ∀ n < 10, 0 < n → Nat.digitChar n ≠ '0' := by decide

theorem head_toDigits {n : Nat} (h : 0 < n) :
    ∃ c ds, Nat.toDigits 10 n = c :: ds ∧ c ≠ '0' := by
  induction n using Nat.strong_induction_on with
  | h n ih =>
      by_cases hlt : n < 10
      · exact ⟨Nat.digitChar n, [], Nat.toDigits_of_lt_base hlt, digitChar_ne_zero n hlt h⟩
      · obtain ⟨c, ds, hds, hc⟩ := ih (n / 10) (by omega) (by omega)
        refine ⟨c, ds ++ [Nat.digitChar (n % 10)], ?_, hc⟩
        rw [Nat.toDigits_of_base_le (by omega) (by omega), hds, List.cons_append]

theorem wholeText_toDigits (n : Nat) : WholeText (Nat.toDigits 10 n) := by
  by_cases h : n = 0
  · exact .inl (by rw [h]; rfl)
  · obtain ⟨c, ds, hds, hc⟩ := head_toDigits (Nat.pos_of_ne_zero h)
    exact .inr ⟨c, ds, hds, hc, fun d hd => isDigit_of_mem (hds ▸ hd)⟩

end Numbers

end SchemaCodeGen.JsonNumbers
