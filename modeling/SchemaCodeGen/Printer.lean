import SchemaCodeGen.CString

namespace SchemaCodeGen.Printer

open CString

structure CodePrinter where
  mOutput : Text := []
  mLastLineFeed : Nat := 0
  deriving DecidableEq, Repr

/-- Each `%s` of a format stands for the next argument. -/
def stringFormat : Text → List Text → Text
  | '%' :: 's' :: format, a :: args => a ++ stringFormat format args
  | c :: format, args => c :: stringFormat format args
  | [], _ => []

def bufferRoom : Nat := 4095

def doTell (cp : CodePrinter) : Nat := cp.mOutput.length

def doPrintf (cp : CodePrinter) (s : Text) : CodePrinter := { cp with mOutput := cp.mOutput ++ s }

def padding (indent currentPos : Nat) : Nat :=
  if indent = 0 then 0
  else if currentPos < indent * 4 then
    let nextTab := currentPos % 4
    if currentPos + nextTab < indent * 4 then
      nextTab + (indent * 4 - (currentPos + nextTab)) / 4 * 4
    else nextTab
  else 1

def currentPos (cp : CodePrinter) : Nat := doTell cp - cp.mLastLineFeed

/-- Print a formatted text. The column counts from the end of the last text that had a
line feed in it. -/
def printCode (cp : CodePrinter) (indent : Nat) (text : Text) : CodePrinter :=
  let buffer := text.take bufferRoom
  let cp := doPrintf cp (List.replicate (padding indent (currentPos cp)) ' ')
  let cp := doPrintf cp buffer
  if '\n' ∈ buffer then { cp with mLastLineFeed := doTell cp } else cp

/-- A call of the printer. Those that print a description stand apart: a remark is printed
unless the description is empty, a note in any case. -/
inductive Call
  | code (indent : Nat) (text : Text)
  | remark (description : Text)
  | note (indent : Nat) (description : Text)
  deriving DecidableEq, Repr

def code (indent : Nat) (format : String) (args : List Text := []) : Call :=
  .code indent (stringFormat format.toList args)

def linefeed : Call := code 0 "\n"

def comment (description : Text) : Text := stringFormat "// %s\n".toList [description]

def Call.print (cp : CodePrinter) : Call → CodePrinter
  | .code indent text => printCode cp indent text
  | .remark d => if d = [] then cp else printCode cp 0 (comment d)
  | .note indent d => printCode cp indent (comment d)

def printAll (calls : List Call) : Text := (calls.foldl Call.print {}).mOutput

/-- The calls for every element in turn. There are none when an assertion fails at one. -/
def collect {α : Type} (f : α → Option (List Call)) : List α → Option (List Call)
  | [] => some []
  | a :: as => (f a).bind fun calls => (collect f as).map fun rest => calls ++ rest

def indented (column indent : Nat) (text : Text) : Text :=
  List.replicate (padding indent column) ' ' ++ text.take bufferRoom

def advance (column indent : Nat) (text : Text) : Nat :=
  if '\n' ∈ text.take bufferRoom then 0 else column + (indented column indent text).length

def Call.text (column : Nat) : Call → Text
  | .code indent text => indented column indent text
  | .remark d => if d = [] then [] else indented column 0 (comment d)
  | .note indent d => indented column indent (comment d)

def Call.column (column : Nat) : Call → Nat
  | .code indent text => advance column indent text
  | .remark d => if d = [] then column else advance column 0 (comment d)
  | .note indent d => advance column indent (comment d)

def written : Nat → List Call → Text
  | _, [] => []
  | column, c :: calls => c.text column ++ written (c.column column) calls

theorem printCode_mOutput (cp : CodePrinter) (indent : Nat) (text : Text) :
    (printCode cp indent text).mOutput = cp.mOutput ++ indented (currentPos cp) indent text := by
  simp only [printCode, doPrintf, indented]
  split_ifs <;> simp

def WellPlaced (cp : CodePrinter) : Prop := cp.mLastLineFeed ≤ doTell cp

theorem printCode_wellPlaced {cp : CodePrinter} (h : WellPlaced cp) (indent : Nat) (text : Text) :
    WellPlaced (printCode cp indent text) := by
  simp only [printCode, WellPlaced, doPrintf, doTell] at h ⊢
  split_ifs
  · exact le_rfl
  · simp only [List.length_append]
    omega

theorem printCode_currentPos {cp : CodePrinter} (h : WellPlaced cp) (indent : Nat) (text : Text) :
    currentPos (printCode cp indent text) = advance (currentPos cp) indent text := by
  simp only [WellPlaced, doTell] at h
  simp only [printCode, advance, indented, doPrintf, currentPos, doTell]
  split_ifs
  · simp
  · simp only [List.length_append]
    omega

theorem print_spec {cp : CodePrinter} (h : WellPlaced cp) (c : Call) :
    (Call.print cp c).mOutput = cp.mOutput ++ c.text (currentPos cp) ∧
      currentPos (Call.print cp c) = c.column (currentPos cp) ∧ WellPlaced (Call.print cp c) := by
  have hprint (indent : Nat) (text : Text) :=
    And.intro (printCode_mOutput cp indent text)
      (And.intro (printCode_currentPos h indent text) (printCode_wellPlaced h indent text))
  cases c with
  | code indent text => exact hprint indent text
  | note indent d => exact hprint indent (comment d)
  | remark d =>
      by_cases hd : d = []
      · simpa [Call.print, Call.text, Call.column, hd] using h
      · simpa [Call.print, Call.text, Call.column, hd] using hprint 0 (comment d)

theorem foldl_print {cp : CodePrinter} (h : WellPlaced cp) (calls : List Call) :
    (calls.foldl Call.print cp).mOutput = cp.mOutput ++ written (currentPos cp) calls := by
  induction calls generalizing cp with
  | nil => simp [written]
  | cons c calls ih =>
      obtain ⟨hout, hcol, hplaced⟩ := print_spec h c
      rw [List.foldl_cons, ih hplaced, hout, hcol, written, List.append_assoc]

theorem printAll_eq_written (calls : List Call) : printAll calls = written 0 calls := by
  have h := @foldl_print {} (Nat.le_refl 0) calls
  simpa [printAll, currentPos, doTell] using h

end SchemaCodeGen.Printer
