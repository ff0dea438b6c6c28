import SchemaCodeGen.CString

/-! A reader of comma separated text. It scans the text once with one pointer,
overwriting delimiters by terminators, and hands each finished row to a client. -/

namespace SchemaCodeGen.CsvReader

open CString

variable {σ : Type}

abbrev Row := List Text

def lf : Char := Char.ofNat 10
def cr : Char := Char.ofNat 13
def quote : Char := Char.ofNat 34

def isLineEnd (c : Char) : Bool := c == lf || c == cr
def isDelimiter (c : Char) : Bool := c == ',' || isLineEnd c

/-- The loop the scan pointer stands in, with the text of the open cell. -/
inductive Mode
  | rowStart
  | cellStart
  | quoted (cell : Text)
  | afterQuote (cell : Text)
  | unquoted (cell : Text)
  deriving DecidableEq, Repr

structure Reader (σ : Type) where
  mode : Mode
  argv : Row
  client : σ
  deriving DecidableEq, Repr

/-- What a client does with a row, and when it wants no further one. -/
structure Client (σ : Type) where
  capacity : Nat
  handle : σ → Row → Option σ
  stopped : σ → Bool

def endCell (k : Client σ) (r : Reader σ) (cell : Text) (c : Char) : Option (Reader σ) :=
  if isLineEnd c then
    (k.handle r.client (r.argv ++ [cell])).map (fun s => ⟨.rowStart, [], s⟩)
  else
    some ⟨.cellStart, r.argv ++ [cell], r.client⟩

def unquotedStep (k : Client σ) (r : Reader σ) (cell : Text) (c : Char) : Option (Reader σ) :=
  if isDelimiter c then endCell k r cell c
  else some { r with mode := .unquoted (cell ++ [c]) }

/-- A cell begins: its start is stored at index `argv.length`, which has to lie
inside the row buffer. -/
def cellStep (k : Client σ) (r : Reader σ) (c : Char) : Option (Reader σ) :=
  if r.argv.length < k.capacity then
    if c == quote then some { r with mode := .quoted [] } else unquotedStep k r [] c
  else none

def step (k : Client σ) (r : Reader σ) (c : Char) : Option (Reader σ) :=
  match r.mode with
  | .rowStart =>
      if k.stopped r.client then some r
      else if isLineEnd c then some r
      else cellStep k r c
  | .cellStart => cellStep k r c
  | .quoted cell =>
      if c == quote then some { r with mode := .afterQuote cell }
      else some { r with mode := .quoted (cell ++ [c]) }
  | .afterQuote cell => if isDelimiter c then endCell k r cell c else some r
  | .unquoted cell => unquotedStep k r cell c

def start (s : σ) : Reader σ := ⟨.rowStart, [], s⟩

def scan (k : Client σ) (r : Reader σ) (s : Text) : Option (Reader σ) := s.foldlM (step k) r

/-- The scan stands on the terminator. A row that no line end has closed is
dropped; a cell that begins here is still stored in the row buffer. -/
def finish (k : Client σ) (r : Reader σ) : Option (Reader σ) :=
  match r.mode with
  | .cellStart => if r.argv.length < k.capacity then some r else none
  | _ => some r

def readText (k : Client σ) (s : Text) (init : σ) : Option (Reader σ) :=
  (scan k (start init) (cstr s)).bind (finish k)

def read (k : Client σ) (s : Text) (init : σ) : Option σ := (readText k s init).map Reader.client

@[simp] theorem scan_nil (k : Client σ) (r : Reader σ) : scan k r [] = some r := rfl

theorem scan_cons (k : Client σ) (r : Reader σ) (c : Char) (s : Text) :
    scan k r (c :: s) = (step k r c).bind (scan k · s) := rfl

theorem scan_append (k : Client σ) (r : Reader σ) (s t : Text) :
    scan k r (s ++ t) = (scan k r s).bind (scan k · t) := by
  simp only [scan, List.foldlM_append]
  rfl

theorem scan_stopped (k : Client σ) (r : Reader σ) (hm : r.mode = .rowStart)
    (hs : k.stopped r.client = true) (s : Text) : scan k r s = some r := by
  induction s with
  | nil => rfl
  | cons c s ih => simpa [scan_cons, step, hm, hs] using ih

def openRow (r : Reader σ) : Option Row :=
  match r.mode with
  | .rowStart | .quoted _ => none
  | .cellStart => some (r.argv ++ [[]])
  | .afterQuote cell | .unquoted cell => some (r.argv ++ [cell])

theorem finish_step_lf (k : Client σ) (r : Reader σ) :
    (step k r lf).bind (finish k) =
      match openRow r with
      | some row => (finish k r).bind fun r => (k.handle r.client row).map (fun s => ⟨.rowStart, [], s⟩)
      | none => (finish k r).map fun r =>
          match r.mode with
          | .quoted cell => { r with mode := .quoted (cell ++ [lf]) }
          | _ => r := by
  have hl : isLineEnd lf = true := rfl
  have hd : isDelimiter lf = true := rfl
  have hq : (lf == quote) = false := rfl
  obtain ⟨mode, argv, client⟩ := r
  cases mode with
  | rowStart => cases hs : k.stopped client <;> simp [step, hs, hl, openRow, finish]
  | cellStart =>
      by_cases hc : argv.length < k.capacity
      · cases hh : k.handle client (argv ++ [[]]) <;>
          simp [step, cellStep, unquotedStep, endCell, hc, hq, hl, hd, openRow, finish, hh]
      · simp [step, cellStep, hc, openRow, finish]
  | quoted cell => simp [step, hq, openRow, finish]
  | afterQuote cell =>
      cases hh : k.handle client (argv ++ [cell]) <;>
        simp [step, endCell, hl, hd, openRow, finish, hh]
  | unquoted cell =>
      cases hh : k.handle client (argv ++ [cell]) <;>
        simp [step, unquotedStep, endCell, hl, hd, openRow, finish, hh]

end SchemaCodeGen.CsvReader
