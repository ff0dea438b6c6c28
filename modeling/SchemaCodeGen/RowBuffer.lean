import SchemaCodeGen.CsvWriter
import SchemaCodeGen.FinalRow
import SchemaCodeGen.InPlace

namespace SchemaCodeGen.RowBuffer

open CString CsvReader CsvWriter CellGrammar CBuffer InPlace Schema ParseCSV FinalRow

/-- Where `processArgs` writes a terminator into the name of a member. -/
def markAt (name : Text) : Option Nat :=
  if '[' ∈ name.drop 1 then some (1 + (name.drop 1).idxOf '[')
  else if '*' ∈ name then some (name.idxOf '*')
  else none

theorem markAt_lt {name : Text} {o : Nat} (h : markAt name = some o) : o < name.length := by
  rw [markAt] at h
  split_ifs at h with harray hpointer
  · obtain rfl := Option.some.inj h
    have hlt := List.idxOf_lt_length_of_mem harray
    rw [List.length_drop] at hlt
    omega
  · obtain rfl := Option.some.inj h
    exact List.idxOf_lt_length_of_mem hpointer

theorem cutAt_eq_take (c : Char) (s : Text) : cutAt c s = s.take (s.idxOf c) := by
  induction s with
  | nil => rfl
  | cons d s ih =>
      rw [cutAt] at ih ⊢
      by_cases hd : d = c
      · rw [hd, List.idxOf_cons_self]
        simp
      · rw [List.takeWhile_cons_of_pos (by simpa using hd), ih, List.idxOf_cons_ne s hd, List.take_succ_cons]

theorem truncateName_eq_take (name : Text) :
    truncateName name = match markAt name with
      | none => name
      | some o => name.take o := by
  rw [truncateName, markAt]
  split_ifs with harray hpointer
  · dsimp only
    rw [cutAt_eq_take, List.take_add]
  · exact cutAt_eq_take '*' name
  · rfl

/-- `processArgs` as a client that edits the bytes of its arguments. -/
def editor : Editor CreateDOMDef where
  toClient := client
  edit st row :=
    if st.mEndOfFile = false ∧ rowKind row = .member then (markAt (arg row 1)).map (1, ·) else none
  inside := by
    intro st row i o h
    split_ifs at h with hmember
    obtain ⟨o, ho, he⟩ := Option.map_eq_some_iff.mp h
    obtain ⟨rfl, rfl⟩ := Prod.mk.inj he
    have hlt := markAt_lt ho
    cases hcell : row[1]? with
    | none => simp [arg, hcell] at hlt
    | some cell => exact ⟨cell, rfl, by simpa [arg, hcell] using hlt⟩

/-- The bytes of `parseCSV` for a file, with what the array of pointers holds before. -/
def openBuffer (st : CreateDOMDef) (content : Text) (argv : Nat → Nat) : State CreateDOMDef :=
  start content argv { st with mEndOfFile := false }

def isLastRead (row : Row) : Bool := isEofRow row || !decide (Acceptable row)

/-- The rows that are read before the end of the file is marked or the parser fails. -/
def readRows (content : Text) : List Row := takeThrough isLastRead (rows (cstr content))

section Results

variable {st : CreateDOMDef} {content : Text} {argv : Nat → Nat}

theorem stringAt_edit {data : Text} {row : Row} {b i o : Nat} (h : Cells data argv row b)
    (hedit : editor.edit st row = some (i, o)) :
    i = 1 ∧ stringAt (data.set (argv i + o) nul) (argv i) = truncateName (arg row 1) := by
  obtain ⟨cell, hcell, ho⟩ := editor.inside hedit
  have hrow : (row.set i (cell.take o))[i]? = some (cell.take o) :=
    List.getElem?_set_self (List.getElem?_eq_some_iff.mp hcell).1
  have hstring := ((h.cut hcell ho).holds i _ hrow).stringAt
  simp only [editor] at hedit
  split_ifs at hedit
  obtain ⟨o, hmark, he⟩ := Option.map_eq_some_iff.mp hedit
  obtain ⟨rfl, rfl⟩ := Prod.mk.inj he
  have harg : arg row 1 = cell := by simp [arg, hcell]
  rw [hstring, truncateName_eq_take, hmark, harg]
  exact ⟨rfl, rfl⟩

theorem begun_eq (hrun : st.mEndOfFile = false) (l : List Row) :
    begun editor st l = takeThrough isLastRead l := by
  induction l generalizing st with
  | nil => rfl
  | cons row l ih =>
      have hstop : editor.stopped st = false := hrun
      have hhandle : editor.handle st row = processArgs st row := rfl
      rw [begun, hstop, if_neg Bool.false_ne_true, hhandle, takeThrough, isLastRead]
      cases hp : processArgs st row with
      | none =>
          have hacc : ¬ Acceptable row := by
            rw [← processArgs_isSome hrun, hp]
            exact Bool.false_ne_true
          simp [hacc]
      | some st' =>
          have hacc : Acceptable row := by
            rw [← processArgs_isSome hrun, hp]
            rfl
          have hend := processArgs_mEndOfFile hrun hp
          cases heof : isEofRow row with
          | true =>
              have hnone : begun editor st' l = [] := by
                cases l with
                | nil => rfl
                | cons r l => rw [begun, if_pos (show editor.stopped st' = true from hend.trans heof)]
              simp [hnone]
          | false => simp [hacc, ih (hend.trans heof)]

theorem begun_openBuffer (st : CreateDOMDef) (content : Text) :
    begun editor { st with mEndOfFile := false } (rows (cstr content)) = readRows content :=
  begun_eq rfl _

theorem takeThrough_subset (isLast : Row → Bool) (l : List Row) : takeThrough isLast l ⊆ l := by
  induction l with
  | nil => exact List.Subset.refl []
  | cons row l ih =>
      rw [takeThrough]
      split_ifs
      · exact List.cons_subset_cons row (List.nil_subset l)
      · exact List.cons_subset_cons row ih

theorem parseCSV_scan (st : CreateDOMDef) (content : Text) (argv : Nat → Nat) (hcontent : content ≠ []) :
    ∃ f, Reaches editor (openBuffer st content argv) f ∧ step editor f = none ∧
      parseCSV st content = if f.place = .done then some (closeFile f.client) else none := by
  obtain ⟨f, hf, hstuck, hread⟩ := run_read editor content argv { st with mEndOfFile := false }
  refine ⟨f, hf, hstuck, ?_⟩
  have hclient : editor.toClient = client := rfl
  rw [parseCSV, if_neg hcontent, ← hclient, hread]
  split_ifs <;> rfl

end Results

/-- Pointers are stored inside `argv` exactly when no row that is read has more cells than
`argv` has places. -/
theorem argv_stores_iff (st : CreateDOMDef) (content : Text) (argv : Nat → Nat) :
    (∀ s, Reaches editor (openBuffer st content argv) s → s.place = .cell → s.argc < maxArgv) ↔
      ∀ row ∈ readRows content, row.length ≤ maxArgv := by
  rw [← begun_openBuffer st]
  exact stores_iff content argv _

theorem cutRow_commas (n : Nat) :
    cutRow (List.replicate n ',' ++ [lf]) = (List.replicate (n + 1) [], [lf]) := by
  induction n with
  | zero => exact cutRow_last (by decide)
  | succ n ih =>
      have hcut : cutCell (List.replicate (n + 1) ',' ++ [lf]) =
          ([], ',' :: (List.replicate n ',' ++ [lf])) := rfl
      rw [cutRow_comma (by rw [hcut]), hcut, ih]
      rfl

theorem rows_commas (n : Nat) : rows (List.replicate (n + 1) ',' ++ [lf]) = [List.replicate (n + 2) []] := by
  rw [List.replicate_succ, List.cons_append, rows_cell rfl, ← List.cons_append, ← List.replicate_succ,
    cutRow_commas, List.drop_one, List.tail_cons, rows_nil]

theorem openBuffer_commas : ¬ ∀ s, Reaches editor (openBuffer {} (List.replicate 128 ',' ++ [lf]) fun _ => 0) s →
    s.place = .cell → s.argc < maxArgv := by
  intro h
  have hplain : NulFree (List.replicate 128 ',' ++ [lf]) := by
    rw [NulFree, List.mem_append, List.mem_replicate, List.mem_singleton]
    decide
  have hfits := (stores_iff _ _ _).mp h
  rw [cstr_of_nulFree hplain, rows_commas, begun_eq rfl] at hfits
  have hlast := hfits (List.replicate 129 []) (by
    rw [takeThrough]
    split_ifs <;> exact List.mem_cons_self)
  rw [List.length_replicate] at hlast
  exact absurd hlast (by decide)

/-- In a file without longer rows the scan stays in front of the terminator and inside `argv`, and
`processArgs` is handed disjoint strings of the file, which it leaves disjoint. -/
theorem scan_splits (st : CreateDOMDef) (content : Text) (argv : Nat → Nat)
    (hrows : ∀ row ∈ rows (cstr content), row.length ≤ maxArgv) :
    ∀ s, Reaches editor (openBuffer st content argv) s →
      Within content.length s ∧ (s.place = .cell → s.argc < maxArgv) ∧
      (s.place = .call → Split s.data s.argc s.argv ∧
        ∀ s', step editor s = some s' → Split s'.data s'.argc s'.argv) := by
  intro s hs
  obtain ⟨hwithin, hcall⟩ := reaches_within hs
  refine ⟨hwithin, (stores_iff content argv _).mpr ?_ s hs, hcall⟩
  intro row hrow
  rw [begun_openBuffer] at hrow
  exact hrows row (takeThrough_subset _ _ hrow)

def unclosed : Text := "A\n,x[],u32\n,\"y".toList

/-- The second row is handed over as three strings, and its name is cut. -/
theorem scan_splits_unclosed :
    ∃ s, Reaches editor (openBuffer {} unclosed fun _ => 0) s ∧ s.place = .call ∧ s.argc = 3 ∧
      Within unclosed.length s ∧ Split s.data s.argc s.argv := by
  obtain ⟨s, hafter, hplace, hargc⟩ : ∃ s, Walks.after (step editor) 20
      (openBuffer {} unclosed fun _ => 0) = some s ∧ s.place = .call ∧ s.argc = 3 := ⟨_, rfl, rfl, rfl⟩
  have hs : Reaches editor (openBuffer {} unclosed fun _ => 0) s :=
    Walks.reflTransGen_iff.mpr ⟨20, hafter⟩
  obtain ⟨hwithin, _, hcall⟩ := scan_splits {} unclosed (fun _ => 0) (by decide +kernel) s hs
  exact ⟨s, hs, hplace, hargc, hwithin, (hcall hplace).1⟩

end SchemaCodeGen.RowBuffer
