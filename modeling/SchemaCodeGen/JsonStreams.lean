import SchemaCodeGen.Sax
import Mathlib.Data.Nat.Bitwise

namespace SchemaCodeGen.JsonStreams

open CString Json Fallible Sax

section Stream

def peek (is : Text) : Char := is.headD nul

def take : Text → Step (Char × Text)
  | [] => .error .overrun
  | c :: is => .ok (c, is)

@[simp] theorem peek_cons (c : Char) (is : Text) : peek (c :: is) = c := rfl

@[simp] theorem peek_nil : peek [] = nul := rfl

@[simp] theorem take_cons (c : Char) (is : Text) : take (c :: is) = .ok (c, is) := rfl

theorem eq_cons_of_peek {is : Text} {c : Char} (h : peek is = c) (hc : c ≠ nul) :
    ∃ rest, is = c :: rest := by
  cases is with
  | nil => exact absurd h.symm hc
  | cons d rest => exact ⟨rest, by rw [← h, peek_cons]⟩

def consume (expect : Char) (is : Text) : Step (Bool × Text) :=
  if peek is = expect then do
    let (_, is) ← take is
    .ok (true, is)
  else .ok (false, is)

theorem consume_cons (c : Char) (is : Text) : consume c (c :: is) = .ok (true, is) := by
  simp [consume]

theorem consume_of_ne {c : Char} {is : Text} (h : peek is ≠ c) : consume c is = .ok (false, is) := by
  rw [consume, if_neg h]

theorem consume_cases {c : Char} (hc : c ≠ nul) (is : Text) :
    (∃ rest, is = c :: rest ∧ consume c is = .ok (true, rest)) ∨
      (peek is ≠ c ∧ consume c is = .ok (false, is)) := by
  by_cases h : peek is = c
  · obtain ⟨rest, rfl⟩ := eq_cons_of_peek h hc
    exact .inl ⟨rest, rfl, consume_cons c rest⟩
  · exact .inr ⟨h, consume_of_ne h⟩

def Refused (is : Text) (e : Stop) : Prop := ∃ code rest, e = .error code rest ∧ rest <:+ is

theorem refused_here (code : ParseErrorCode) (is : Text) : Refused is (.error code is) :=
  ⟨code, is, rfl, List.suffix_rfl⟩

theorem Refused.of_suffix {is is' : Text} {e : Stop} (h : Refused is e) (hs : is <:+ is') :
    Refused is' e := by
  obtain ⟨code, rest, he, hr⟩ := h
  exact ⟨code, rest, he, hr.trans hs⟩

end Stream

section Space

def isBlank (c : Char) : Bool := c == ' ' || c == '\n' || c == '\r' || c == '\t'

def skipWhitespace (is : Text) : Text := is.dropWhile isBlank

def Blank (ws : Text) : Prop := ∀ c ∈ ws, isBlank c = true

theorem blank_nil : Blank [] := fun _ h => absurd h List.not_mem_nil

theorem skipWhitespace_append {ws rest : Text} (hws : Blank ws) (hrest : isBlank (peek rest) = false) :
    skipWhitespace (ws ++ rest) = rest := by
  refine dropWhile_before hws fun c hc => ?_
  cases rest with
  | nil => exact absurd hc (by simp)
  | cons d rest =>
      obtain rfl := Option.some.inj hc
      exact hrest

theorem skipWhitespace_split (is : Text) : ∃ ws, Blank ws ∧ is = ws ++ skipWhitespace is :=
  ⟨is.takeWhile isBlank, fun _ h => List.mem_takeWhile_imp h, (List.takeWhile_append_dropWhile).symm⟩

theorem peek_skipWhitespace (is : Text) : isBlank (peek (skipWhitespace is)) = false := by
  induction is with
  | nil => decide
  | cons c is ih =>
      rw [skipWhitespace, List.dropWhile_cons]
      split_ifs with h
      · exact ih
      · simpa using h

theorem suffix_skipWhitespace (is : Text) : skipWhitespace is <:+ is := List.dropWhile_suffix _

end Space

section Word

/-- `Consume` of one character after the other, as far as they are there. -/
def consumeAll : Text → Text → Step (Bool × Text)
  | [], is => .ok (true, is)
  | c :: word, is => do
      let (found, is) ← consume c is
      if found then consumeAll word is else .ok (false, is)

theorem consumeAll_append (word rest : Text) : consumeAll word (word ++ rest) = .ok (true, rest) := by
  induction word with
  | nil => rfl
  | cons c word ih =>
      rw [List.cons_append, consumeAll, consume_cons]
      exact ih

theorem consumeAll_cases {word : Text} (hword : NulFree word) (is : Text) :
    (∃ rest, is = word ++ rest ∧ consumeAll word is = .ok (true, rest)) ∨
      ∃ rest, rest <:+ is ∧ consumeAll word is = .ok (false, rest) := by
  induction word generalizing is with
  | nil => exact .inl ⟨is, rfl, rfl⟩
  | cons c word ih =>
      have hc : c ≠ nul := fun h => hword (h ▸ List.mem_cons_self)
      obtain ⟨rest, rfl, hcons⟩ | ⟨_, hcons⟩ := consume_cases hc is
      · obtain ⟨rest', rfl, hall⟩ | ⟨rest', hs, hall⟩ :=
          ih (fun h => hword (List.mem_cons_of_mem _ h)) rest
        · exact .inl ⟨rest', rfl, by simp [consumeAll, hcons, hall]⟩
        · exact .inr ⟨rest', hs.trans (List.suffix_cons c rest), by simp [consumeAll, hcons, hall]⟩
      · exact .inr ⟨is, List.suffix_rfl, by simp [consumeAll, hcons]⟩

end Word

section Strings

def escape (e : Char) : Char :=
  if e = '"' then '"'
  else if e = '/' then '/'
  else if e = '\\' then '\\'
  else if e = 'b' then Char.ofNat 8
  else if e = 'f' then Char.ofNat 12
  else if e = 'n' then '\n'
  else if e = 'r' then '\r'
  else if e = 't' then '\t'
  else nul

def byte (n : Nat) : Char := Char.ofNat (n &&& 0xFF)

def utf8 (codepoint : Nat) : Text :=
  if codepoint ≤ 0x7F then [byte codepoint]
  else if codepoint ≤ 0x7FF then
    [byte (0xC0 ||| ((codepoint >>> 6) &&& 0xFF)), byte (0x80 ||| (codepoint &&& 0x3F))]
  else if codepoint ≤ 0xFFFF then
    [byte (0xE0 ||| ((codepoint >>> 12) &&& 0xFF)), byte (0x80 ||| ((codepoint >>> 6) &&& 0x3F)),
      byte (0x80 ||| (codepoint &&& 0x3F))]
  else
    [byte (0xF0 ||| ((codepoint >>> 18) &&& 0xFF)), byte (0x80 ||| ((codepoint >>> 12) &&& 0x3F)),
      byte (0x80 ||| ((codepoint >>> 6) &&& 0x3F)), byte (0x80 ||| (codepoint &&& 0x3F))]

/-- `UTF8<>::Encode`, which asserts that there is such a code point. -/
def encode (codepoint : Nat) : Step Text :=
  if codepoint ≤ 0x10FFFF then .ok (utf8 codepoint) else .error .assertion

def hexDigit (c : Char) : Option Nat :=
  if '0'.toNat ≤ c.toNat ∧ c.toNat ≤ '9'.toNat then some (c.toNat - '0'.toNat)
  else if 'A'.toNat ≤ c.toNat ∧ c.toNat ≤ 'F'.toNat then some (c.toNat - ('A'.toNat - 10))
  else if 'a'.toNat ≤ c.toNat ∧ c.toNat ≤ 'f'.toNat then some (c.toNat - ('a'.toNat - 10))
  else none

def parseHex4 (escapeOffset : Text) : Nat → Nat → Text → Step (Nat × Text)
  | 0, codepoint, is => .ok (codepoint, is)
  | k + 1, codepoint, is =>
      match hexDigit (peek is) with
      | some d => do
          let (_, is) ← take is
          parseHex4 escapeOffset k ((codepoint <<< 4) + d) is
      | none => .error (.error .stringUnicodeEscapeInvalidHex escapeOffset)

def IsHighSurrogate (codepoint : Nat) : Prop := 0xD800 ≤ codepoint ∧ codepoint ≤ 0xDBFF

instance (codepoint : Nat) : Decidable (IsHighSurrogate codepoint) :=
  inferInstanceAs (Decidable (_ ∧ _))

/-- The code point behind a backslash and a `u`. -/
def parseUnicode (escapeOffset : Text) (is : Text) : Step (Text × Text) := do
  let (codepoint, is) ← parseHex4 escapeOffset 4 0 is
  if IsHighSurrogate codepoint then
    let (found, is) ← consumeAll ['\\', 'u'] is
    if found then
      let (codepoint2, is) ← parseHex4 escapeOffset 4 0 is
      if codepoint2 < 0xDC00 ∨ codepoint2 > 0xDFFF then
        .error (.error .stringUnicodeSurrogateInvalid escapeOffset)
      else
        let os ← encode ((((codepoint - 0xD800) <<< 10) ||| (codepoint2 - 0xDC00)) + 0x10000)
        .ok (os, is)
    else .error (.error .stringUnicodeSurrogateInvalid escapeOffset)
  else
    let os ← encode codepoint
    .ok (os, is)

/-- One round of the loop: what is put, or nothing when the string ends. -/
def parsePiece (is : Text) : Step (Option Text × Text) :=
  let c := peek is
  if c = '\\' then do
    let escapeOffset := is
    let (_, is) ← take is
    let e := peek is
    if escape e ≠ nul then
      let (_, is) ← take is
      .ok (some [escape e], is)
    else if e = 'u' then
      let (_, is) ← take is
      let (os, is) ← parseUnicode escapeOffset is
      .ok (some os, is)
    else .error (.error .stringEscapeInvalid escapeOffset)
  else if c = '"' then do
    let (_, is) ← take is
    .ok (none, is)
  else if c.toNat < 0x20 then
    if c = nul then .error (.error .stringMissQuotationMark is)
    else .error (.error .stringInvalidEncoding is)
  else do
    let (c, is) ← take is
    .ok (some [c], is)

def parseStringToStream : Nat → Text → Text → Step (Text × Text)
  | 0, _, _ => .error .fuel
  | fuel + 1, is, os => do
      match ← parsePiece is with
      | (none, is) => .ok (os, is)
      | (some p, is) => parseStringToStream fuel is (os ++ p)

end Strings

section StringGrammar

def hexFold (n : Nat) (ds : Text) : Option Nat :=
  ds.foldlM (fun n c => (hexDigit c).map (16 * n + ·)) n

def Hex4 (ds : Text) (n : Nat) : Prop := ds.length = 4 ∧ hexFold 0 ds = some n

/-- A character or an escape as it is written, and what it stands for. -/
inductive Piece : Text → Text → Prop
  | plain {c : Char} (quote : c ≠ '"') (backslash : c ≠ '\\') (printable : 0x20 ≤ c.toNat) :
      Piece [c] [c]
  | escaped {e : Char} (known : escape e ≠ nul) : Piece ['\\', e] [escape e]
  | unicode {ds : Text} {n : Nat} (digits : Hex4 ds n) (single : ¬ IsHighSurrogate n) :
      Piece ('\\' :: 'u' :: ds) (utf8 n)
  | surrogates {ds ds' : Text} {high low : Nat} (digits : Hex4 ds high) (first : IsHighSurrogate high)
      (digits' : Hex4 ds' low) (lower : 0xDC00 ≤ low) (upper : low ≤ 0xDFFF) :
      Piece ('\\' :: 'u' :: (ds ++ '\\' :: 'u' :: ds'))
        (utf8 (0x10000 + (high - 0xD800) * 0x400 + (low - 0xDC00)))

inductive StringText : Text → Text → Prop
  | nil : StringText [] []
  | cons {p s t u : Text} (head : Piece p s) (tail : StringText t u) : StringText (p ++ t) (s ++ u)

theorem hexFold_cons (n : Nat) (c : Char) (ds : Text) :
    hexFold n (c :: ds) = (hexDigit c).bind fun d => hexFold (16 * n + d) ds := by
  cases h : hexDigit c <;> simp [hexFold, h]

theorem hexDigit_lt {c : Char} {d : Nat} (h : hexDigit c = some d) : d < 16 := by
  have h0 : '0'.toNat = 48 := rfl
  have h9 : '9'.toNat = 57 := rfl
  have hA : 'A'.toNat = 65 := rfl
  have hF : 'F'.toNat = 70 := rfl
  have ha : 'a'.toNat = 97 := rfl
  have hf : 'f'.toNat = 102 := rfl
  rw [hexDigit] at h
  split_ifs at h <;> cases h <;> omega

theorem hexFold_lt {n m : Nat} {ds : Text} (h : hexFold n ds = some m) :
    m < (n + 1) * 16 ^ ds.length := by
  induction ds generalizing n with
  | nil =>
      obtain rfl : n = m := Option.some.inj h
      simp
  | cons c ds ih =>
      rw [hexFold_cons] at h
      obtain ⟨d, hd, h⟩ := Option.bind_eq_some_iff.mp h
      have hlt := hexDigit_lt hd
      calc m < (16 * n + d + 1) * 16 ^ ds.length := ih h
        _ ≤ (16 * (n + 1)) * 16 ^ ds.length := Nat.mul_le_mul_right _ (by omega)
        _ = (n + 1) * 16 ^ (c :: ds).length := by rw [List.length_cons, Nat.pow_succ]; ring

theorem Hex4.lt {ds : Text} {n : Nat} (h : Hex4 ds n) : n < 0x10000 := by
  have hlt := hexFold_lt h.2
  rw [h.1] at hlt
  exact hlt

theorem hexDigit_nul : hexDigit nul = none := by decide

variable {escapeOffset : Text}

theorem parseHex4_append {k n m : Nat} {ds : Text} (hk : ds.length = k) (h : hexFold n ds = some m)
    (rest : Text) : parseHex4 escapeOffset k n (ds ++ rest) = .ok (m, rest) := by
  induction ds generalizing k n with
  | nil =>
      obtain rfl : n = m := Option.some.inj h
      subst hk
      rfl
  | cons c ds ih =>
      subst hk
      rw [hexFold_cons] at h
      obtain ⟨d, hd, h⟩ := Option.bind_eq_some_iff.mp h
      have hshift : (n <<< 4) + d = 16 * n + d := by rw [Nat.shiftLeft_eq]; ring
      simp only [List.length_cons, List.cons_append, parseHex4, peek_cons, hd, take_cons, ok_bind,
        hshift]
      exact ih rfl h

theorem parseHex4_cases (escapeOffset : Text) (k n : Nat) (is : Text) :
    (∃ ds m rest, is = ds ++ rest ∧ ds.length = k ∧ hexFold n ds = some m ∧
        parseHex4 escapeOffset k n is = .ok (m, rest)) ∨
      parseHex4 escapeOffset k n is = .error (.error .stringUnicodeEscapeInvalidHex escapeOffset) := by
  induction k generalizing n is with
  | zero => exact .inl ⟨[], n, is, rfl, rfl, rfl, rfl⟩
  | succ k ih =>
      cases hd : hexDigit (peek is) with
      | none => exact .inr (by simp only [parseHex4, hd])
      | some d =>
          obtain ⟨c, is, rfl⟩ : ∃ c rest, is = c :: rest := by
            cases is with
            | nil => exact absurd hd (by rw [peek_nil, hexDigit_nul]; simp)
            | cons c is => exact ⟨c, is, rfl⟩
          have hshift : (n <<< 4) + d = 16 * n + d := by rw [Nat.shiftLeft_eq]; ring
          have hstep : parseHex4 escapeOffset (k + 1) n (c :: is) =
              parseHex4 escapeOffset k (16 * n + d) is := by
            simp only [parseHex4, hd, take_cons, ok_bind, hshift]
          rw [hstep]
          obtain ⟨ds, m, rest, rfl, hk, hfold, hrun⟩ | herr := ih (16 * n + d) is
          · refine .inl ⟨c :: ds, m, rest, rfl, by rw [List.length_cons, hk], ?_, hrun⟩
            rw [hexFold_cons, show hexDigit c = some d from hd]
            exact hfold
          · exact .inr herr

theorem encode_of_le {n : Nat} (h : n ≤ 0x10FFFF) : encode n = .ok (utf8 n) := by rw [encode, if_pos h]

theorem surrogate_codepoint (high : Nat) {low : Nat} (hlow : low < 0x400) :
    ((high <<< 10) ||| low) + 0x10000 = 0x10000 + high * 0x400 + low := by
  have hor : (high <<< 10) ||| low = high <<< 10 + low :=
    (Nat.shiftLeft_add_eq_or_of_lt (i := 10) hlow high).symm
  rw [hor, Nat.shiftLeft_eq]
  omega

theorem parseUnicode_single {ds rest : Text} {n : Nat} (h : Hex4 ds n) (hn : ¬ IsHighSurrogate n) :
    parseUnicode escapeOffset (ds ++ rest) = .ok (utf8 n, rest) := by
  have hlt := h.lt
  simp only [parseUnicode, parseHex4_append h.1 h.2, ok_bind, if_neg hn,
    encode_of_le (show n ≤ 0x10FFFF by omega)]

theorem parseUnicode_pair {ds ds' rest : Text} {high low : Nat} (h : Hex4 ds high)
    (hhigh : IsHighSurrogate high) (h' : Hex4 ds' low) (hlo : 0xDC00 ≤ low) (hhi : low ≤ 0xDFFF) :
    parseUnicode escapeOffset (ds ++ '\\' :: 'u' :: (ds' ++ rest)) =
      .ok (utf8 (0x10000 + (high - 0xD800) * 0x400 + (low - 0xDC00)), rest) := by
  have hword : consumeAll ['\\', 'u'] ('\\' :: 'u' :: (ds' ++ rest)) = .ok (true, ds' ++ rest) :=
    consumeAll_append ['\\', 'u'] _
  have hrange : ¬ (low < 0xDC00 ∨ low > 0xDFFF) := by omega
  have hmax : 0x10000 + (high - 0xD800) * 0x400 + (low - 0xDC00) ≤ 0x10FFFF := by
    have := hhigh.2
    omega
  have hcode := surrogate_codepoint (high - 0xD800) (show low - 0xDC00 < 0x400 by omega)
  simp only [parseUnicode, parseHex4_append h.1 h.2, ok_bind, if_pos hhigh, hword, if_true,
    parseHex4_append h'.1 h'.2, if_neg hrange, hcode, encode_of_le hmax]

theorem parseUnicode_cases (escapeOffset is : Text) :
    (∃ t s rest, is = t ++ rest ∧ Piece ('\\' :: 'u' :: t) s ∧
        parseUnicode escapeOffset is = .ok (s, rest)) ∨
      ∃ code, parseUnicode escapeOffset is = .error (.error code escapeOffset) := by
  obtain ⟨ds, n, is, rfl, hlen, hfold, hrun⟩ | herr := parseHex4_cases escapeOffset 4 0 is
  · have hex : Hex4 ds n := ⟨hlen, hfold⟩
    by_cases hn : IsHighSurrogate n
    · have hnul : NulFree ['\\', 'u'] := by decide
      obtain ⟨is, rfl, hword⟩ | ⟨rest, _, hword⟩ := consumeAll_cases hnul is
      · obtain ⟨ds', m, rest, rfl, hlen', hfold', hrun'⟩ | herr' :=
          parseHex4_cases escapeOffset 4 0 is
        · by_cases hrange : m < 0xDC00 ∨ m > 0xDFFF
          · refine .inr ⟨.stringUnicodeSurrogateInvalid, ?_⟩
            simp only [parseUnicode, hrun, ok_bind, if_pos hn, hword, if_true, hrun', if_pos hrange]
          · have hex' : Hex4 ds' m := ⟨hlen', hfold'⟩
            refine .inl ⟨ds ++ '\\' :: 'u' :: ds', _, rest, by simp,
              .surrogates hex hn hex' (by omega) (by omega), ?_⟩
            exact parseUnicode_pair hex hn hex' (by omega) (by omega)
        · refine .inr ⟨.stringUnicodeEscapeInvalidHex, ?_⟩
          simp only [parseUnicode, hrun, ok_bind, if_pos hn, hword, if_true, herr', error_bind]
      · refine .inr ⟨.stringUnicodeSurrogateInvalid, ?_⟩
        simp only [parseUnicode, hrun, ok_bind, if_pos hn, hword, Bool.false_eq_true, if_false]
    · exact .inl ⟨ds, utf8 n, is, rfl, .unicode hex hn, parseUnicode_single hex hn⟩
  · exact .inr ⟨.stringUnicodeEscapeInvalidHex, by simp only [parseUnicode, herr, error_bind]⟩

theorem parsePiece_quote (rest : Text) : parsePiece ('"' :: rest) = .ok (none, rest) := rfl

theorem parsePiece_escape (is : Text) (e : Char) (h : escape e ≠ nul) :
    parsePiece ('\\' :: e :: is) = .ok (some [escape e], is) := by
  simp [parsePiece, h]

theorem parsePiece_unicode (is : Text) :
    parsePiece ('\\' :: 'u' :: is) =
      parseUnicode ('\\' :: 'u' :: is) is >>= fun p => .ok (some p.1, p.2) := by
  have hu : escape 'u' = nul := rfl
  simp [parsePiece, hu]

theorem parsePiece_plain {c : Char} (hquote : c ≠ '"') (hslash : c ≠ '\\') (hc : 0x20 ≤ c.toNat)
    (is : Text) : parsePiece (c :: is) = .ok (some [c], is) := by
  have hlt : ¬ c.toNat < 0x20 := by omega
  simp [parsePiece, hquote, hslash, hlt]

theorem parsePiece_cases (is : Text) :
    (∃ p s rest, is = p ++ rest ∧ Piece p s ∧ parsePiece is = .ok (some s, rest)) ∨
      (∃ rest, is = '"' :: rest ∧ parsePiece is = .ok (none, rest)) ∨
      ∃ e, parsePiece is = .error e ∧ Refused is e := by
  cases is with
  | nil => exact .inr (.inr ⟨_, rfl, refused_here _ _⟩)
  | cons c is =>
      by_cases hslash : c = '\\'
      · subst hslash
        by_cases hknown : escape (peek is) = nul
        · by_cases hu : peek is = 'u'
          · obtain ⟨is, rfl⟩ := eq_cons_of_peek hu (by decide)
            obtain ⟨t, s, rest, rfl, hpiece, hrun⟩ | ⟨code, herr⟩ :=
              parseUnicode_cases ('\\' :: 'u' :: is) is
            · exact .inl ⟨_, s, rest, rfl, hpiece, by rw [parsePiece_unicode, hrun, ok_bind]⟩
            · refine .inr (.inr ⟨_, by rw [parsePiece_unicode, herr, error_bind], refused_here _ _⟩)
          · refine .inr (.inr ⟨_, ?_, refused_here .stringEscapeInvalid _⟩)
            simp [parsePiece, hknown, hu]
        · cases is with
          | nil => exact absurd rfl hknown
          | cons e is =>
              exact .inl ⟨['\\', e], _, is, rfl, .escaped hknown, parsePiece_escape is e hknown⟩
      · by_cases hquote : c = '"'
        · subst hquote
          exact .inr (.inl ⟨is, rfl, parsePiece_quote is⟩)
        · by_cases hlt : c.toNat < 0x20
          · refine .inr (.inr ?_)
            by_cases hnul : c = nul
            · exact ⟨.error .stringMissQuotationMark (c :: is), by rw [hnul]; rfl, refused_here _ _⟩
            · exact ⟨.error .stringInvalidEncoding (c :: is),
                by simp [parsePiece, hslash, hquote, hlt, hnul], refused_here _ _⟩
          · exact .inl ⟨[c], [c], is, rfl, .plain hquote hslash (by omega),
              parsePiece_plain hquote hslash (by omega) is⟩

theorem parsePiece_of_piece {p s : Text} (h : Piece p s) (rest : Text) :
    parsePiece (p ++ rest) = .ok (some s, rest) := by
  cases h with
  | plain hquote hslash hc => exact parsePiece_plain hquote hslash hc rest
  | escaped hknown => exact parsePiece_escape rest _ hknown
  | unicode hex hn =>
      rw [List.cons_append, List.cons_append, parsePiece_unicode, parseUnicode_single hex hn, ok_bind]
  | surrogates hex hn hex' hlo hhi =>
      rw [List.cons_append, List.cons_append, parsePiece_unicode, List.append_assoc,
        List.cons_append, List.cons_append, parseUnicode_pair hex hn hex' hlo hhi, ok_bind]

theorem Piece.length_pos {p s : Text} (h : Piece p s) : 0 < p.length := by
  cases h <;> simp

theorem parseStringToStream_of_text {t s : Text} (h : StringText t s) (fuel : Nat)
    (hf : t.length < fuel) (os rest : Text) :
    parseStringToStream fuel (t ++ '"' :: rest) os = .ok (os ++ s, rest) := by
  induction h generalizing fuel os with
  | nil =>
      obtain ⟨fuel, rfl⟩ := Nat.exists_eq_add_of_lt hf
      rw [parseStringToStream, List.nil_append, parsePiece_quote, ok_bind, List.append_nil]
  | cons head tail ih =>
      obtain ⟨fuel, rfl⟩ := Nat.exists_eq_succ_of_ne_zero (Nat.ne_zero_of_lt hf)
      have hpos := head.length_pos
      rw [List.length_append] at hf
      rw [parseStringToStream, List.append_assoc, parsePiece_of_piece head, ok_bind,
        ← List.append_assoc os]
      exact ih fuel (by omega) _

theorem parseStringToStream_cases {fuel : Nat} {is : Text} (hf : is.length < fuel) (os : Text) :
    (∃ t s rest, is = t ++ '"' :: rest ∧ StringText t s ∧
        parseStringToStream fuel is os = .ok (os ++ s, rest)) ∨
      ∃ e, parseStringToStream fuel is os = .error e ∧ Refused is e := by
  induction fuel generalizing is os with
  | zero => exact absurd hf (Nat.not_lt_zero _)
  | succ fuel ih =>
      rw [parseStringToStream]
      obtain ⟨p, s, rest, rfl, hpiece, hrun⟩ | ⟨rest, rfl, hrun⟩ | ⟨e, hrun, he⟩ :=
        parsePiece_cases is
      · have hpos := hpiece.length_pos
        rw [List.length_append] at hf
        simp only [hrun, ok_bind]
        have hlt : rest.length < fuel := by omega
        obtain ⟨t, u, rest', rfl, htext, hrun'⟩ | ⟨e, hrun', he⟩ := ih hlt (os ++ s)
        · refine .inl ⟨p ++ t, s ++ u, rest', by simp, .cons hpiece htext, ?_⟩
          rw [hrun', List.append_assoc]
        · exact .inr ⟨e, hrun', he.of_suffix (List.suffix_append _ _)⟩
      · refine .inl ⟨[], [], rest, rfl, .nil, ?_⟩
        rw [hrun, ok_bind, List.append_nil]
      · exact .inr ⟨e, by rw [hrun, error_bind], he⟩

end StringGrammar

end SchemaCodeGen.JsonStreams
