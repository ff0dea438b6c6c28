import SchemaCodeGen.Rows

namespace SchemaCodeGen.RowRuns

open CString CsvReader Schema ParseCSV FinalRow Rows

/-- What a fresh parser makes of the rows of a file. -/
def parseRows (rows : List Row) : Option CreateDOMDef := (rows.foldlM processArgs {}).map closeFile

theorem parseCSV_eq_parseRows {s : Text} {rows : List Row} (h : calls s = some rows) :
    parseCSV {} s = parseRows rows := by
  have hopen : openFile {} s = {} := by
    rw [openFile]
    split_ifs <;> rfl
  rw [parseCSV_eq_calls, h, Option.bind_some, hopen]
  rfl

theorem beforeEof_cons (row : Row) (rows : List Row) :
    beforeEof (row :: rows) = if isEofRow row then [] else row :: beforeEof rows := by
  rw [beforeEof, List.takeWhile_cons]
  cases isEofRow row <;> rfl

theorem mem_beforeEof {rows : List Row} {row : Row} (h : row ∈ beforeEof rows) : isEofRow row = false := by
  simpa using List.mem_takeWhile_imp h

theorem foldlM_split {st : CreateDOMDef} (hrun : st.mEndOfFile = false) (rows : List Row) :
    rows.foldlM processArgs st =
      ((beforeEof rows).foldlM processArgs st).map fun cur =>
        { cur with mEndOfFile := rows.any isEofRow } := by
  induction rows generalizing st with
  | nil =>
      obtain ⟨e, h, c, d⟩ := st
      obtain rfl : e = false := hrun
      rfl
  | cons row rows ih =>
      rw [beforeEof_cons, List.foldlM_cons]
      cases heof : isEofRow row with
      | true =>
          have hp : processArgs st row = some { st with mEndOfFile := true } := by
            rw [processArgs, if_neg (by simp [hrun])]
            simp only [rowKind_eq_endOfFile.mpr heof]
          rw [hp, Option.bind_eq_bind, Option.bind_some, foldlM_stopped rfl, List.any_cons, heof]
          rfl
      | false =>
          rw [if_neg Bool.false_ne_true, List.foldlM_cons, List.any_cons, heof, Bool.false_or]
          cases hp : processArgs st row with
          | none => rfl
          | some st' => exact ih ((processArgs_mEndOfFile hrun hp).trans heof)

theorem foldlM_isSome {st : CreateDOMDef} (hrun : st.mEndOfFile = false) (rows : List Row) :
    (rows.foldlM processArgs st).isSome ↔ ∀ row ∈ beforeEof rows, Acceptable row := by
  rw [foldlM_split hrun, Option.isSome_map]
  apply foldlM_processArgs_isSome hrun
  intro row hrow
  exact mem_beforeEof ((List.dropLast_sublist _).subset hrow)

theorem closeFile_mDOM (st : CreateDOMDef) (e : Bool) :
    (closeFile { st with mEndOfFile := e }).mDOM = (closeFile st).mDOM := by
  simp only [closeFile, pushObject]
  split_ifs <;> rfl

theorem parseRows_mDOM (rows : List Row) :
    (parseRows rows).map CreateDOMDef.mDOM = (parseRows (beforeEof rows)).map CreateDOMDef.mDOM := by
  rw [parseRows, foldlM_split rfl, parseRows, Option.map_map, Option.map_map, Option.map_map]
  congr 1
  funext cur
  exact closeFile_mDOM cur _

end SchemaCodeGen.RowRuns
