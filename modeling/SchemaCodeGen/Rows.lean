import SchemaCodeGen.FinalRow

namespace SchemaCodeGen.Rows

open CString CsvReader Schema Complete ParseCSV FinalRow

def isObjectRow (row : Row) : Bool := rowKind row == .object

def itemOf (row : Row) : Option MemberVariable :=
  if rowKind row = .member then memberOf row else none

/-- The object an object row describes, its members aside. -/
def objectOf (row : Row) : Object where
  mName := arg row 0
  mType := arg row 2
  mInheritsFrom := arg row 3
  mEngineSpecific := arg row 4
  mClone := stricmp (arg row 5) "CLONE".toList
  mAssignment := stricmp (arg row 5) "ASSIGNMENT".toList
  mAlias := arg row 8
  mShortDescription := arg row 9
  mLongDescription := arg row 10

def itemsOf (rows : List Row) : List MemberVariable :=
  (rows.takeWhile fun row => !isObjectRow row).filterMap itemOf

/-- The objects described by a list of rows. -/
def describe : List Row → List Object
  | [] => []
  | row :: rows =>
      if isObjectRow row then { objectOf row with mItems := itemsOf rows } :: describe rows
      else describe rows

def beforeEof (rows : List Row) : List Row := rows.takeWhile fun row => !isEofRow row

/-- An object without the fields that are computed from all objects together. -/
def parsed (o : Object) : Object :=
  { o with
    mChildren := []
    mMultipleInherticance := []
    mNeedsReflection := false
    mIsEnum := false
    mIsClass := false
    mItems := o.mItems.map fun i => { i with mNeedsReflection := false } }

theorem arg_eq_nil {row : Row} {k : Nat} (h : row.length ≤ k) : arg row k = [] := by
  simp [arg, h]

theorem rowKind_member {row : Row} (hfirst : arg row 0 = []) (hname : arg row 1 ≠ []) :
    rowKind row = .member := by
  have hlen : 2 ≤ row.length := by
    by_contra hlen
    exact hname (arg_eq_nil (by omega))
  have hfind : keywords.find? (fun k => stricmp (arg row 0) k.1) = none := by
    rw [hfirst]
    rfl
  rw [rowKind, hfind]
  simp [hfirst, hname, hlen]

theorem stricmp_arg_le {row : Row} {k : Nat} {word : Text} (hword : stricmp [] word = false)
    (h : stricmp (arg row k) word = true) : k + 1 ≤ row.length := by
  by_contra hk
  rw [arg_eq_nil (by omega), hword] at h
  exact absurd h (by decide)

theorem objectFields_empty (row : Row) : objectFields row {} = objectOf row := by
  have hcell : ∀ k, (if k + 1 ≤ row.length then arg row k else []) = arg row k := by
    intro k
    split_ifs with h
    · rfl
    · exact (arg_eq_nil (by omega)).symm
  have hboth : stricmp (arg row 5) "CLONE".toList = true →
      stricmp (arg row 5) "ASSIGNMENT".toList = false := by
    intro hs
    rw [stricmp, beq_iff_eq] at hs
    rw [stricmp, hs]
    decide
  simp only [objectFields, objectOf, Object.mk.injEq, true_and, and_true]
  refine ⟨hcell 2, hcell 3, hcell 4, hcell 8, hcell 9, hcell 10, ?_, ?_⟩
  · split_ifs with h
    · exact h.2.symm
    · refine (Bool.eq_false_iff.mpr fun hs => h ⟨?_, hs⟩).symm
      exact stricmp_arg_le (by decide) hs
  · split_ifs with h
    · exact h.2.2.symm
    · refine (Bool.eq_false_iff.mpr fun hs => h ⟨?_, fun hc => ?_, hs⟩).symm
      · exact stricmp_arg_le (by decide) hs
      · rw [hboth hc] at hs
        exact absurd hs (by decide)

theorem itemsOf_nil : itemsOf [] = [] := rfl

theorem itemsOf_object {row : Row} (h : isObjectRow row = true) (rows : List Row) :
    itemsOf (row :: rows) = [] := by
  simp [itemsOf, h]

theorem itemsOf_cons {row : Row} (h : isObjectRow row = false) (rows : List Row) :
    itemsOf (row :: rows) = (itemOf row).toList ++ itemsOf rows := by
  cases hi : itemOf row <;> simp [itemsOf, h, hi]

theorem parsed_registerChild (b n : Text) (o : Object) : parsed (registerChild b n o) = parsed o := by
  rw [registerChild]
  split_ifs <;> rfl

theorem parsed_completed (objects : List Object) (o : Object) : parsed (completed objects o) = parsed o := by
  simp only [parsed, completed, List.map_map]
  rfl

theorem parsed_importComplete (d : DOM) :
    d.importComplete.mObjects.map parsed = d.mObjects.map parsed := by
  rw [importComplete_mObjects, List.map_map]
  apply List.map_congr_left
  intro o _
  exact parsed_completed _ o

def built (st : CreateDOMDef) : List Object :=
  (pushObject st).mDOM.mObjects.map parsed

theorem built_eq (st : CreateDOMDef) : built st =
    st.mDOM.mObjects.map parsed ++ if st.mHaveObject then [parsed st.mCurrentObject] else [] := by
  by_cases h : st.mHaveObject <;> simp [built, pushObject, h]

theorem closeFile_built (st : CreateDOMDef) : (closeFile st).mDOM.mObjects.map parsed = built st := by
  rw [closeFile, parsed_importComplete]
  rfl

def Cleared (st : CreateDOMDef) : Prop := st.mHaveObject = false → st.mCurrentObject = {}

theorem pushObject_mCurrentObject {st : CreateDOMDef} (h : Cleared st) :
    (pushObject st).mCurrentObject = {} := by
  rw [pushObject]
  split_ifs with hh
  · rfl
  · exact h (by simpa using hh)

theorem openObject_eq {st : CreateDOMDef} (h : Cleared st) (row : Row) :
    (openObject st row).mHaveObject = true ∧
      (openObject st row).mCurrentObject = objectOf row ∧
      (openObject st row).mDOM.mObjects.map parsed = built st := by
  refine ⟨rfl, ?_, ?_⟩
  · simp only [openObject, pushObject_mCurrentObject h, objectFields_empty]
  · simp only [openObject, built]
    split_ifs
    · simp [Function.comp_def, parsed_registerChild]
    · rfl

theorem processArgs_other {st st' : CreateDOMDef} {row : Row} (hrun : st.mEndOfFile = false)
    (hobj : isObjectRow row = false) (hi : rowKind row ≠ .member)
    (h : processArgs st row = some st') :
    st'.mHaveObject = st.mHaveObject ∧ st'.mCurrentObject = st.mCurrentObject ∧
      st'.mDOM.mObjects = st.mDOM.mObjects := by
  rw [processArgs, if_neg (by simp [hrun])] at h
  cases hk : rowKind row with
  | object => simp [isObjectRow, hk] at hobj
  | member => exact absurd hk hi
  | endOfFile | header | blank =>
      simp only [hk] at h
      obtain rfl := Option.some.inj h
      exact ⟨rfl, rfl, rfl⟩
  | filename | nameSpace | pod | exportXML | url =>
      simp only [hk] at h
      obtain rfl := Option.some.inj h
      refine ⟨rfl, rfl, ?_⟩
      simp only [setting]
      split_ifs <;> rfl

theorem processArgs_object {st : CreateDOMDef} {row : Row} (hrun : st.mEndOfFile = false)
    (hobj : isObjectRow row = true) : processArgs st row = some (openObject st row) := by
  have hk : rowKind row = .object := by simpa [isObjectRow] using hobj
  rw [processArgs, if_neg (by simp [hrun])]
  simp only [hk]

theorem processArgs_member {st : CreateDOMDef} {row : Row} (hrun : st.mEndOfFile = false)
    (hk : rowKind row = .member) : processArgs st row = (itemOf row).map (addMember st) := by
  rw [processArgs, if_neg (by simp [hrun])]
  simp only [itemOf, hk, if_true]

/-- With an object open, the following rows complete it and append what they describe. -/
theorem foldlM_open {st : CreateDOMDef} {rows : List Row} (hrun : st.mEndOfFile = false)
    (hopen : st.mHaveObject = true) (hacc : ∀ row ∈ rows, Acceptable row)
    (heof : ∀ row ∈ rows, isEofRow row = false) :
    ∃ cur, rows.foldlM processArgs st = some cur ∧ cur.mEndOfFile = false ∧
      built cur = st.mDOM.mObjects.map parsed ++
        ({ st.mCurrentObject with mItems := st.mCurrentObject.mItems ++ itemsOf rows } ::
          describe rows).map parsed := by
  induction rows generalizing st with
  | nil => exact ⟨st, rfl, hrun, by simp [built_eq, hopen, itemsOf_nil, describe]⟩
  | cons row rows ih =>
      rw [List.forall_mem_cons] at hacc heof
      obtain ⟨st', hp⟩ := Option.isSome_iff_exists.mp ((processArgs_isSome hrun row).mpr hacc.1)
      have hrun' := (processArgs_mEndOfFile hrun hp).trans heof.1
      rw [List.foldlM_cons, hp, Option.bind_eq_bind, Option.bind_some]
      cases hobj : isObjectRow row with
      | true =>
          obtain rfl := Option.some.inj ((processArgs_object hrun hobj).symm.trans hp)
          obtain ⟨hh, hc, hd⟩ := openObject_eq (fun h => absurd (hopen.symm.trans h) (by decide)) row
          obtain ⟨cur, hcur, hend, hb⟩ := ih hrun' hh hacc.2 heof.2
          refine ⟨cur, hcur, hend, ?_⟩
          rw [hb, hd, hc, built_eq, itemsOf_object hobj]
          simp [hopen, describe, hobj, objectOf]
      | false =>
          rw [itemsOf_cons hobj]
          by_cases hk : rowKind row = .member
          · rw [processArgs_member hrun hk] at hp
            obtain ⟨di, hdi, rfl⟩ := Option.map_eq_some_iff.mp hp
            obtain ⟨cur, hcur, hend, hb⟩ := ih hrun' hopen hacc.2 heof.2
            refine ⟨cur, hcur, hend, ?_⟩
            rw [hb]
            simp [addMember, hdi, describe, hobj]
          · obtain ⟨hh, hc, hd⟩ := processArgs_other hrun hobj hk hp
            obtain ⟨cur, hcur, hend, hb⟩ := ih hrun' (hh.trans hopen) hacc.2 heof.2
            refine ⟨cur, hcur, hend, ?_⟩
            rw [hb, hc, hd]
            simp [itemOf, hk, describe, hobj]

def Stray (rows : List Row) : Prop :=
  ∃ row ∈ rows.takeWhile (fun row => !isObjectRow row), rowKind row = .member

instance (rows : List Row) : Decidable (Stray rows) :=
  inferInstanceAs (Decidable (∃ row ∈ rows.takeWhile _, _))

theorem foldlM_idle (st : CreateDOMDef) {rows : List Row} (hrun : st.mEndOfFile = false)
    (hidle : st.mHaveObject = false) (hclear : st.mCurrentObject = {}) (hstray : ¬ Stray rows)
    (hacc : ∀ row ∈ rows, Acceptable row) (heof : ∀ row ∈ rows, isEofRow row = false) :
    ∃ cur, rows.foldlM processArgs st = some cur ∧ cur.mEndOfFile = false ∧
      built cur = st.mDOM.mObjects.map parsed ++ (describe rows).map parsed := by
  induction rows generalizing st with
  | nil => exact ⟨st, rfl, hrun, by simp [built_eq, hidle, describe]⟩
  | cons row rows ih =>
      rw [List.forall_mem_cons] at hacc heof
      obtain ⟨st', hp⟩ := Option.isSome_iff_exists.mp ((processArgs_isSome hrun row).mpr hacc.1)
      have hrun' := (processArgs_mEndOfFile hrun hp).trans heof.1
      cases hobj : isObjectRow row with
      | true =>
          rw [List.foldlM_cons, hp, Option.bind_eq_bind, Option.bind_some]
          obtain rfl := Option.some.inj ((processArgs_object hrun hobj).symm.trans hp)
          obtain ⟨hh, hc, hd⟩ := openObject_eq (fun _ => hclear) row
          obtain ⟨cur, hcur, hend, hb⟩ := foldlM_open hrun' hh hacc.2 heof.2
          refine ⟨cur, hcur, hend, ?_⟩
          rw [hb, hd, hc, built_eq]
          simp [hidle, describe, hobj, objectOf]
      | false =>
          have hk : rowKind row ≠ .member := fun hk => hstray ⟨row, by simp [hobj], hk⟩
          have hstray' : ¬ Stray rows := fun ⟨r, hr, hkr⟩ => hstray ⟨r, by simp [hobj, hr], hkr⟩
          obtain ⟨hh, hc, hd⟩ := processArgs_other hrun hobj hk hp
          obtain ⟨cur, hcur, hend, hb⟩ :=
            ih st' hrun' (hh.trans hidle) (hc.trans hclear) hstray' hacc.2 heof.2
          refine ⟨cur, ?_, hend, ?_⟩
          · rw [List.foldlM_cons, hp]
            exact hcur
          · simp [hb, hd, describe, hobj]

theorem foldlM_stopped {st : CreateDOMDef} (hstop : st.mEndOfFile = true) (rows : List Row) :
    rows.foldlM processArgs st = some st := by
  induction rows with
  | nil => rfl
  | cons row rows ih =>
      rw [List.foldlM_cons, processArgs, if_pos hstop]
      exact ih

theorem foldlM_beforeEof {st cur : CreateDOMDef} {rows : List Row}
    (h : (beforeEof rows).foldlM processArgs st = some cur) (hrun : cur.mEndOfFile = false) :
    ∃ fin, rows.foldlM processArgs st = some fin ∧ built fin = built cur := by
  have hsplit : rows = beforeEof rows ++ rows.dropWhile fun row => !isEofRow row :=
    List.takeWhile_append_dropWhile.symm
  rw [hsplit, List.foldlM_append, h, Option.bind_eq_bind, Option.bind_some]
  cases hd : rows.dropWhile fun row => !isEofRow row with
  | nil => exact ⟨cur, rfl, rfl⟩
  | cons row rest =>
      have heof : isEofRow row = true := by
        have := List.head?_dropWhile_not (fun row => !isEofRow row) rows
        simpa [hd] using this
      have hp : processArgs cur row = some { cur with mEndOfFile := true } := by
        rw [processArgs, if_neg (by simp [hrun])]
        simp only [rowKind_eq_endOfFile.mpr heof]
      refine ⟨{ cur with mEndOfFile := true }, ?_, ?_⟩
      · rw [List.foldlM_cons, hp]
        exact foldlM_stopped rfl rest
      · simp [built_eq]

/-- Rows without a stray member make the objects they describe, in order, when every member
row before the end row is acceptable. -/
theorem parseCSV_describe (rows : List Row) (hstray : ¬ Stray (beforeEof rows))
    (hacc : ∀ row ∈ beforeEof rows, Acceptable row) :
    ∃ d, (rows.foldlM processArgs {}).map closeFile = some d ∧
      (∀ s, calls s = some rows → parseCSV {} s = some d) ∧
      d.mDOM.mObjects.map parsed = (describe (beforeEof rows)).map parsed := by
  have heof : ∀ row ∈ beforeEof rows, isEofRow row = false := by
    intro row h
    simpa using List.mem_takeWhile_imp h
  obtain ⟨cur, hcur, hend, hb⟩ := foldlM_idle {} rfl rfl rfl hstray hacc heof
  obtain ⟨fin, hfin, hbuilt⟩ := foldlM_beforeEof hcur hend
  refine ⟨closeFile fin, by rw [hfin]; rfl, fun s hs => ?_, ?_⟩
  · have hopen : openFile {} s = {} := by
      rw [openFile]
      split_ifs <;> rfl
    rw [parseCSV_eq_calls, hs, Option.bind_some, hopen, hfin]
    rfl
  · rw [closeFile_built, hbuilt, hb]
    simp

def twoClasses : List Row :=
  [["A".toList, [], "Class".toList], [[], "x?".toList, "u32".toList, [], [], "5".toList],
    [[], "ys[]".toList, "A".toList], ["B".toList, [], "Class".toList, "A".toList, [], "CLONE".toList],
    ["EOF".toList], [[], "z".toList]]

theorem parseCSV_twoClasses :
    ∃ d, (twoClasses.foldlM processArgs {}).map closeFile = some d ∧
      (∀ s, calls s = some twoClasses → parseCSV {} s = some d) ∧
      d.mDOM.mObjects.map parsed = (describe (beforeEof twoClasses)).map parsed :=
  parseCSV_describe twoClasses (by decide) (by decide)

def mapWithoutKey : List Row := [["A".toList], [[], "[x]".toList]]

theorem parseCSV_mapWithoutKey :
    calls ("A".toList ++ [lf] ++ ",[x]".toList ++ [lf]) = some mapWithoutKey ∧
      ¬ Stray (beforeEof mapWithoutKey) ∧ (∀ row ∈ mapWithoutKey, 1 ≤ row.length ∧ row.length ≤ 128) ∧
      parseCSV {} ("A".toList ++ [lf] ++ ",[x]".toList ++ [lf]) = none := by
  decide

end SchemaCodeGen.Rows
