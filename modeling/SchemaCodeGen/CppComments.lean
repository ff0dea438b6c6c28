import SchemaCodeGen.CString
import SchemaCodeGen.Transducers

/-! The first translation phases of C++: lines are spliced, comments become blanks, and
what the later phases read of the blanks between two tokens is one blank or one line end. -/

namespace SchemaCodeGen.CppComments

open CString Transducers

/-- What the compilers read differently: whether a carriage return alone ends a line, whether
blanks between a backslash and the line end go with them, and whether there are trigraphs. -/
structure Dialect where
  carriage : Bool
  blanks : Bool
  trigraphs : Bool

/-- What stands for a third character behind two question marks. -/
def trigraph : Char → Option Char
  | '=' => some '#'
  | '/' => some '\\'
  | '\'' => some '^'
  | '(' => some '['
  | ')' => some ']'
  | '!' => some '|'
  | '<' => some '\x7b'
  | '>' => some '\x7d'
  | '-' => some '~'
  | _ => none

/-- The state counts the question marks that were read and not yet written. -/
def replaced (trigraphs : Bool) : Transducer Nat Char Char where
  start := 0
  step k c :=
    if c = '?' && trigraphs then if k < 2 then (k + 1, []) else (2, [c])
    else match trigraph c, k with
      | some d, 2 => (0, [d])
      | _, k => (0, List.replicate k '?' ++ [c])
  finish k := List.replicate k '?'

/-- A line end of any kind becomes a line feed. The state is a carriage return just read. -/
def lineEnds (carriage : Bool) : Transducer Bool Char Char where
  start := false
  step
    | held, '\r' => (true, if carriage then ['\n'] else if held then ['\r'] else [])
    | held, '\n' => (false, if held && carriage then [] else ['\n'])
    | held, c => (false, if held && !carriage then ['\r', c] else [c])
  finish held := if held && !carriage then ['\r'] else []

/-- Blanks between a backslash and a line end are left out. The state is those behind a backslash
that were read and not yet written. -/
def trailing (blanks : Bool) : Transducer (Option Text) Char Char where
  start := none
  step
    | none, c => (if c = '\\' then some [] else none, [c])
    | some held, c =>
        if c = '\n' then (none, [c])
        else if blanks && isSpace c then (some (held ++ [c]), [])
        else (if c = '\\' then some [] else none, held ++ [c])
  finish held := held.getD []

/-- A backslash before a line end takes the line end away. The state is a backslash that
was read and not yet written. -/
def splice : Transducer Bool Char Char where
  start := false
  step
    | false, '\\' => (true, [])
    | false, c => (false, [c])
    | true, '\\' => (true, ['\\'])
    | true, '\n' => (false, [])
    | true, c => (false, ['\\', c])
  finish
    | false => []
    | true => ['\\']

/-- Where in a token or a comment the reader stands. A word carries its characters, the
last one first, for the prefix of a raw string literal. -/
inductive Mode
  | code
  | word (letters : Text)
  | number
  | separator
  | slash
  | line
  | block
  | star
  | string
  | stringEscape
  | char
  | charEscape
  | delimiter (letters : Text)
  | raw (close seen : Text)
  deriving DecidableEq, Repr

/-- A character of a token, or white space outside of the tokens. -/
inductive Piece
  | char (c : Char)
  | blank (c : Char)
  deriving DecidableEq, Repr

def isWordChar (c : Char) : Bool := c.isAlphanum || c == '_'

def rawPrefixes : List Text :=
  ["R".toList, "R8u".toList, "Ru".toList, "RU".toList, "RL".toList]

def codeStep (c : Char) : Mode × List Piece :=
  if c = '/' then (.slash, [])
  else if c = '"' then (.string, [.char c])
  else if c = '\'' then (.char, [.char c])
  else if c.isDigit then (.number, [.char c])
  else if isWordChar c then (.word [c], [.char c])
  else if isSpace c then (.code, [.blank c])
  else (.code, [.char c])

def charStep (c : Char) : Mode × List Piece :=
  if c = '\\' then (.charEscape, [.char c])
  else if c = '\'' then (.code, [.char c])
  else if c = '\n' then (.code, [.blank c])
  else (.char, [.char c])

def lexStep : Mode → Char → Mode × List Piece
  | .code, c => codeStep c
  | .word w, c =>
      if isWordChar c then (.word (c :: w), [.char c])
      else if c = '"' ∧ w ∈ rawPrefixes then (.delimiter [], [.char c])
      else codeStep c
  | .number, c =>
      if isWordChar c ∨ c = '.' then (.number, [.char c])
      else if c = '\'' then (.separator, [.char c])
      else codeStep c
  | .separator, c => if isWordChar c then (.number, [.char c]) else charStep c
  | .slash, c =>
      if c = '/' then (.line, [])
      else if c = '*' then (.block, [])
      else ((codeStep c).1, .char '/' :: (codeStep c).2)
  | .line, c => if c = '\n' then (.code, [.blank ' ', .blank c]) else (.line, [])
  | .block, c => if c = '*' then (.star, []) else (.block, [])
  | .star, c =>
      if c = '/' then (.code, [.blank ' ']) else if c = '*' then (.star, []) else (.block, [])
  | .string, c =>
      if c = '\\' then (.stringEscape, [.char c])
      else if c = '"' then (.code, [.char c])
      -- A literal that is not closed ends with its line.
      else if c = '\n' then (.code, [.blank c])
      else (.string, [.char c])
  | .stringEscape, c => if c = '\n' then (.code, [.blank c]) else (.string, [.char c])
  | .char, c => charStep c
  | .charEscape, c => if c = '\n' then (.code, [.blank c]) else (.char, [.char c])
  | .delimiter d, c =>
      if c = '(' then (.raw ('"' :: (d ++ [')'])) [], [.char c])
      else if c = '\n' then (.code, [.blank c])
      else (.delimiter (c :: d), [.char c])
  | .raw close seen, c =>
      if (c :: seen).take close.length = close then (.code, [.char c])
      else (.raw close ((c :: seen).take close.length), [.char c])

def lex : Transducer Mode Char Piece where
  start := .code
  step := lexStep
  finish
    | .slash => [.char '/']
    | .line => [.blank ' ']
    | _ => []

/-- The white space read since the last token. -/
inductive Gap
  | none
  | blank
  | newline
  deriving DecidableEq, Repr

def Gap.text : Gap → Text
  | .none => []
  | .blank => [' ']
  | .newline => ['\n']

/-- White space with a line end in it is written as one line end, other white space as
one blank. -/
def squeeze : Transducer Gap Piece Char where
  start := .none
  step
    | g, .char c => (.none, g.text ++ [c])
    | g, .blank c => (if c = '\n' ∨ g = .newline then .newline else .blank, [])
  finish _ := []

def uncommented : Transducer (Bool × Mode) Char Piece := splice.comp lex

def squeezed : Transducer ((Bool × Mode) × Gap) Char Char := uncommented.comp squeeze

/-- The lines as they are before they are spliced. -/
def physical (dialect : Dialect) : Transducer (Nat × (Bool × Option Text)) Char Char :=
  (replaced dialect.trigraphs).comp
    ((lineEnds dialect.carriage).comp (trailing dialect.blanks))

/-- The state of a reader: question marks, a carriage return, blanks behind a backslash, and what
`squeezed` knows. -/
abbrev State := (Nat × (Bool × Option Text)) × ((Bool × Mode) × Gap)

def reader (dialect : Dialect) : Transducer State Char Char := (physical dialect).comp squeezed

/-- The text without its comments, read up to the amount of white space between tokens:
what the compiler sees of it. -/
def codeOf (dialect : Dialect) (s : Text) : Text := (reader dialect).output s

def endsInBackslash (before : Bool) (s : Text) : Bool := s.foldl (fun _ c => c == '\\') before

section Trigraphs

variable (trigraphs : Bool)

theorem trigraph_ne {c d : Char} (h : trigraph c = some d) : d ≠ '\n' ∧ d ≠ '\r' := by
  rw [trigraph.eq_def] at h
  split at h <;> cases h <;> decide

theorem replaced_step {c : Char} (hc : c ≠ '?') (h : trigraph c = none) (k : Nat) :
    (replaced trigraphs).step k c = (0, List.replicate k '?' ++ [c]) := by
  simp [replaced, hc, h]

theorem replaced_open {c : Char} (hc : c ≠ '?') (s : Text) :
    (replaced trigraphs).output (c :: s) = c :: (replaced trigraphs).output s := by
  have hstep : (replaced trigraphs).step 0 c = (0, [c]) := by
    simp only [replaced, hc, decide_false, Bool.false_and, Bool.false_eq_true, if_false]
    split
    next h => cases h
    next => rfl
  rw [Transducer.output, Transducer.run_cons, show (replaced trigraphs).start = 0 from rfl, hstep]
  rfl

theorem replaced_closed {c : Char} (hc : c ≠ '?') (h : trigraph c = none) (s : Text) :
    (replaced trigraphs).run 0 (s ++ [c]) = (0, (replaced trigraphs).output s ++ [c]) := by
  rw [Transducer.run_append, Transducer.run_cons, Transducer.run_nil, replaced_step trigraphs hc h,
    List.append_nil, Transducer.output, List.append_assoc]
  rfl

theorem replaced_step_cases (c : Char) {k : Nat} (hk : k ≤ 2) :
    ∃ j out, (replaced trigraphs).step k c = (j, out) ∧ j ≤ 2 ∧
      (out ++ List.replicate j '?' = List.replicate k '?' ++ [c] ∨ out.length + j < k + 1) := by
  by_cases hmark : (c = '?' && trigraphs) = true
  · by_cases hlt : k < 2
    · refine ⟨k + 1, [], by simp only [replaced, if_pos hmark, if_pos hlt], hlt, .inl ?_⟩
      rw [of_decide_eq_true (Bool.and_eq_true_iff.mp hmark).1, ← List.replicate_succ']
      rfl
    · obtain rfl : k = 2 := by omega
      refine ⟨2, [c], by simp only [replaced, if_pos hmark, if_neg hlt], hk, .inl ?_⟩
      rw [of_decide_eq_true (Bool.and_eq_true_iff.mp hmark).1]
      rfl
  · simp only [replaced, if_neg hmark]
    split
    next d _ => exact ⟨0, [d], rfl, Nat.zero_le 2, .inr (by simp)⟩
    next => exact ⟨0, _, rfl, Nat.zero_le 2, .inl (by simp)⟩

theorem replaced_run_cases (s : Text) {k : Nat} (hk : k ≤ 2) :
    ∃ j out, (replaced trigraphs).run k s = (j, out) ∧
      (out ++ List.replicate j '?' = List.replicate k '?' ++ s ∨
        out.length + j < k + s.length) := by
  induction s generalizing k with
  | nil => exact ⟨k, [], rfl, .inl (by simp)⟩
  | cons c s ih =>
      obtain ⟨j, out, hstep, hj, hhead⟩ := replaced_step_cases trigraphs c hk
      obtain ⟨m, rest, hrun, htail⟩ := ih hj
      refine ⟨m, out ++ rest, by rw [Transducer.run_cons, hstep, hrun], ?_⟩
      rw [List.length_append, List.length_cons, List.append_assoc]
      obtain htail | htail := htail
      · rw [htail]
        have hlength := congrArg List.length htail
        rw [List.length_append, List.length_append, List.length_replicate, List.length_replicate]
          at hlength
        obtain hhead | hhead := hhead
        · exact .inl (by rw [← List.append_assoc, hhead, List.append_assoc]; rfl)
        · exact .inr (by omega)
      · obtain hhead | hhead := hhead
        · have hlength := congrArg List.length hhead
          rw [List.length_append, List.length_append, List.length_replicate, List.length_replicate,
            List.length_singleton] at hlength
          exact .inr (by omega)
        · exact .inr (by omega)

/-- A text with a trigraph gets shorter. -/
theorem replaced_cases (s : Text) : (replaced trigraphs).output s = s ∨
    ((replaced trigraphs).output s).length < s.length := by
  obtain ⟨j, out, hrun, h⟩ := replaced_run_cases trigraphs s (Nat.zero_le 2)
  have houtput : (replaced trigraphs).output s = out ++ List.replicate j '?' := by
    rw [Transducer.output, show (replaced trigraphs).start = 0 from rfl, hrun]
    rfl
  rw [houtput]
  refine h.imp id fun h => ?_
  rw [List.length_append, List.length_replicate]
  omega

end Trigraphs

theorem uncommented_line {s : Text} (h : '\n' ∉ s) (b : Bool) :
    uncommented.run (b, .line) s = ((endsInBackslash b s, .line), []) := by
  induction s generalizing b with
  | nil => rfl
  | cons c s ih =>
      obtain ⟨hc, hs⟩ := not_or.mp (mt List.mem_cons.mpr h)
      have hc : ¬ c = '\n' := fun he => hc he.symm
      have hstep : uncommented.step (b, .line) c = ((c == '\\', .line), []) := by
        cases b <;> by_cases hb : c = '\\' <;>
          simp [uncommented, Transducer.comp, Transducer.run, splice, lex, lexStep, hb, hc]
      rw [Transducer.run_cons, hstep, ih hs]
      rfl

theorem squeezed_run (u : Bool × Mode) (g : Gap) (s : Text) :
    squeezed.run (u, g) s =
      (((uncommented.run u s).1, (squeeze.run g (uncommented.run u s).2).1),
        (squeeze.run g (uncommented.run u s).2).2) := Transducer.run_comp ..

end SchemaCodeGen.CppComments
