import SchemaCodeGen.CsvExport
import SchemaCodeGen.FinalRow

namespace SchemaCodeGen.CsvText

open CString CsvReader CsvTrace CsvWriter CsvExport Schema ParseCSV FinalRow

/-- The calls of `processArgs` made so far, and the parser behind them: there is none once
a call has not returned. -/
structure Session where
  rows : List Row
  parser : Option CreateDOMDef

/-- `parseCSV` with a record of its calls. Nothing is read behind a call that aborts. -/
def recorder : Client Session where
  capacity := maxArgv
  handle s row := some ⟨s.rows ++ [row], s.parser.bind fun st => processArgs st row⟩
  stopped s := s.parser.all CreateDOMDef.mEndOfFile

def session (st : CreateDOMDef) (s : Text) : Option Session :=
  read recorder s ⟨[], some { st with mEndOfFile := false }⟩

/-- The calls of `processArgs` that `parseCSV` makes, in order. -/
def processCalls (st : CreateDOMDef) (s : Text) : Option (List Row) := (session st s).map Session.rows

/-- The row that ends the file, or one that `processArgs` aborts on. -/
def lastCall (row : Row) : Bool := isEofRow row || !decide (Acceptable row)

theorem recorder_stopsAt : StopsAt recorder lastCall := by
  rintro ⟨rows, parser⟩ row s' hrun h
  obtain rfl := Option.some.inj h
  cases parser with
  | none => exact absurd hrun (by simp [recorder])
  | some st =>
      have hrun : st.mEndOfFile = false := by simpa [recorder] using hrun
      have hsome := processArgs_isSome hrun row
      cases hp : processArgs st row with
      | none =>
          have hacc : ¬ Acceptable row := by simpa [hp] using hsome
          simp [recorder, hp, lastCall, hacc]
      | some st' =>
          have hacc : Acceptable row := by simpa [hp] using hsome
          simp [recorder, hp, lastCall, hacc, processArgs_mEndOfFile hrun hp]

theorem foldlM_recorder (done rows : List Row) (parser : Option CreateDOMDef) :
    rows.foldlM recorder.handle ⟨done, parser⟩ =
      some ⟨done ++ rows, parser.bind fun st => rows.foldlM processArgs st⟩ := by
  induction rows generalizing done parser with
  | nil => cases parser <;> simp
  | cons row rows ih =>
      have hrow : recorder.handle ⟨done, parser⟩ row =
          some ⟨done ++ [row], parser.bind fun st => processArgs st row⟩ := rfl
      rw [List.foldlM_cons, hrow, Option.bind_eq_bind, Option.bind_some, ih, Option.bind_assoc]
      simp only [List.append_assoc, List.singleton_append, List.foldlM_cons]
      rfl

theorem session_eq (st : CreateDOMDef) (s : Text) :
    session st s = (trace maxArgv lastCall s).map fun r =>
      ⟨r.client, r.client.foldlM processArgs { st with mEndOfFile := false }⟩ := by
  have h := readText_eq_replay recorder lastCall recorder_stopsAt
    ⟨[], some { st with mEndOfFile := false }⟩ rfl s
  have hcap : recorder.capacity = maxArgv := rfl
  rw [session, CsvReader.read, h, hcap]
  cases trace maxArgv lastCall s with
  | none => rfl
  | some r => simp [replay, foldlM_recorder]

theorem processCalls_eq (st : CreateDOMDef) (s : Text) :
    processCalls st s = (trace maxArgv lastCall s).map Reader.client := by
  rw [processCalls, session_eq, Option.map_map]
  rfl

/-- Rows that were written with quotes around delimiters come in as they were, one
`processArgs` call a row, up to the row that ends the file or that `processArgs` aborts on. -/
theorem parseCSV_writeLines (st : CreateDOMDef) (ls : List (Line maxArgv)) :
    processCalls st (writeLines ls) = some (takeThrough lastCall (ls.map Line.row)) ∧
      parseCSV st (writeLines ls) =
        ((takeThrough isEofRow (ls.map Line.row)).foldlM processArgs
          (openFile st (writeLines ls))).map closeFile := by
  refine ⟨?_, ?_⟩
  · rw [processCalls_eq, trace_writeLines]
    rfl
  · have hcalls : calls (writeLines ls) = some (takeThrough isEofRow (ls.map Line.row)) := by
      rw [calls, trace_writeLines]
      rfl
    rw [parseCSV_eq_calls, hcalls, Option.bind_some]

def mapLine : Line maxArgv where
  cells := [⟨false, [], by decide, by decide, fun _ => List.forall_mem_nil _⟩,
    ⟨false, "[x]".toList, by decide, by decide, fun _ => List.forall_mem_cons.mpr
      ⟨rfl, List.forall_mem_cons.mpr ⟨rfl, List.forall_mem_singleton.mpr rfl⟩⟩⟩]
  ending := [lf]
  cells_ne := by decide
  fits := by decide
  notBlank := by simp
  ending_ne := by decide
  ending_ends := List.forall_mem_singleton.mpr rfl

def nameLine : Line maxArgv where
  cells := [⟨false, "A".toList, by decide, by decide, fun _ => List.forall_mem_singleton.mpr rfl⟩]
  ending := [lf]
  cells_ne := by decide
  fits := by decide
  notBlank := by simp
  ending_ne := by decide
  ending_ends := List.forall_mem_singleton.mpr rfl

/-- A member row in the map form without a key type is the last call. -/
theorem processCalls_mapLine :
    processCalls {} (writeLines [mapLine, nameLine]) = some [[[], "[x]".toList]] ∧
      processCalls {} (writeLines [mapLine, nameLine]) ≠
        some (takeThrough isEofRow ([mapLine, nameLine].map Line.row)) := by
  have h : processCalls {} (writeLines [mapLine, nameLine]) = some [[[], "[x]".toList]] := by decide
  refine ⟨h, ?_⟩
  rw [h]
  decide

/-- The rows of a spreadsheet export come in as they were exactly when no row up to the
end row is blank or has a cell with a quote, and `processArgs` returns on all but the last. -/
theorem calls_exportText (st : CreateDOMDef) (ls : List (ExportLine maxArgv)) :
    processCalls st (exportText ls) = some (takeThrough isEofRow (ls.map ExportLine.row)) ↔
      (∀ row ∈ takeThrough isEofRow (ls.map ExportLine.row), Plain row) ∧
        ∀ row ∈ (takeThrough isEofRow (ls.map ExportLine.row)).dropLast, Acceptable row := by
  have himp : ∀ row, isEofRow row = true → lastCall row = true := fun row h => by simp [lastCall, h]
  have hexport := trace_exportText (by decide : lastCall [[]] = false) ls
  rw [processCalls_eq]
  constructor
  · intro h
    obtain ⟨r, hr, hclient⟩ := Option.map_eq_some_iff.mp h
    have hlast := trace_dropLast hr
    rw [hclient] at hlast
    rw [takeThrough_congr hlast himp] at hexport
    refine ⟨hexport.mp h, fun row hrow => ?_⟩
    have hcall := hlast row hrow
    simp only [lastCall, Bool.or_eq_false_iff, Bool.not_eq_false', decide_eq_true_eq] at hcall
    exact hcall.2
  · rintro ⟨hplain, hacc⟩
    have hlast : ∀ row ∈ (takeThrough isEofRow (ls.map ExportLine.row)).dropLast,
        lastCall row = false := by
      intro row hrow
      simp [lastCall, hacc row hrow, takeThrough_dropLast hrow]
    rw [takeThrough_congr hlast himp] at hexport
    exact hexport.mpr hplain

def quotedLine : ExportLine maxArgv where
  row := ["a\"b".toList]
  ending := [lf]
  fits := by decide
  ending_ne := by decide
  ending_ends := by simp [isLineEnd]

theorem calls_quotedLine :
    processCalls {} (exportText [quotedLine]) = some [["a".toList]] ∧
      processCalls {} (exportText [quotedLine]) ≠
        some (takeThrough isEofRow ([quotedLine].map ExportLine.row)) := by
  have h : processCalls {} (exportText [quotedLine]) = some [["a".toList]] := by decide
  refine ⟨h, ?_⟩
  rw [h]
  decide

end SchemaCodeGen.CsvText
