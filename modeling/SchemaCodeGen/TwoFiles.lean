import SchemaCodeGen.Complete
import SchemaCodeGen.RowRuns
import Mathlib.Data.List.Induction

namespace SchemaCodeGen.TwoFiles

open CString CsvReader CsvTrace Schema ParseCSV Rows RowRuns Complete

/-- A text of rows that are all closed by line ends, none of which ends the file. -/
structure RowText where
  text : Text
  rows : List Row
  nulFree : NulFree text
  closed : trace maxArgv isEofRow text = some ⟨.rowStart, [], rows⟩
  noEof : ∀ row ∈ rows, isEofRow row = false

def nameTable (names : List Text) (m : List (Text × Nat)) : List (Text × Nat) :=
  names.zipIdx.foldl (fun m e => assignKey m e.1 e.2) m

theorem foldl_assignKey (es m : List (Text × Nat)) :
    es.foldl (fun m e => assignKey m e.1 e.2) m =
      es.foldl (fun m e => assignKey m e.1 e.2) [] ++
        m.filter fun e => !(es.map Prod.fst).contains e.1 := by
  induction es generalizing m with
  | nil => exact (List.filter_eq_self.mpr fun _ _ => rfl).symm
  | cons e es ih =>
      rw [List.foldl_cons, List.foldl_cons, ih (assignKey m e.1 e.2), ih (assignKey [] e.1 e.2),
        List.append_assoc]
      congr 1
      have hrest : (m.filter fun d => d.1 != e.1).filter (fun d => !(es.map Prod.fst).contains d.1) =
          m.filter fun d => !((e :: es).map Prod.fst).contains d.1 := by
        rw [List.filter_filter]
        apply List.filter_congr
        intro d _
        rw [List.map_cons, List.contains_cons, Bool.not_or, Bool.and_comm]
        rfl
      simp only [assignKey, List.filter_nil]
      rw [← hrest, List.filter_cons, List.filter_cons]
      split_ifs <;> rfl

theorem map_fst_zipIdx (names : List Text) : names.zipIdx.map Prod.fst = names := by simp

theorem nameTable_nameTable (names more : List Text) (m : List (Text × Nat)) :
    nameTable (names ++ more) (nameTable names m) = nameTable (names ++ more) m := by
  have hkeys : ∀ es : List (Text × Nat), ∀ e ∈ es.foldl (fun m e => assignKey m e.1 e.2) [],
      e.1 ∈ es.map Prod.fst := by
    intro es
    induction es using List.reverseRecOn with
    | nil => simp
    | append_singleton es d ih =>
        intro e he
        rw [List.foldl_append, List.foldl_cons, List.foldl_nil, assignKey, List.mem_cons] at he
        rcases he with rfl | he
        · simp
        · have := ih e (List.mem_filter.mp he).1
          simp only [List.map_append, List.mem_append]
          exact .inl this
  rw [nameTable, foldl_assignKey, nameTable, foldl_assignKey names.zipIdx, List.filter_append,
    nameTable, foldl_assignKey (names ++ more).zipIdx m]
  simp only [map_fst_zipIdx]
  have hnew : (names.zipIdx.foldl (fun m e => assignKey m e.1 e.2) []).filter
      (fun e => !(names ++ more).contains e.1) = [] := by
    rw [List.filter_eq_nil_iff]
    intro e he
    have hmem := hkeys names.zipIdx e he
    rw [map_fst_zipIdx] at hmem
    simp [hmem]
  have hold : (m.filter fun e => !names.contains e.1).filter (fun e => !(names ++ more).contains e.1) =
      m.filter fun e => !(names ++ more).contains e.1 := by
    rw [List.filter_filter]
    apply List.filter_congr
    intro e _
    by_cases h : e.1 ∈ names <;> simp [h]
  rw [hnew, hold, List.nil_append]

theorem importComplete_eq (d : DOM) : d.importComplete =
    { d with
      mObjects := d.mObjects.map (completed d.mObjects)
      mObjectMap := nameTable (d.mObjects.map Object.mName) d.mObjectMap } := by
  have hmap : d.importComplete.mObjectMap =
      nameTable (d.importComplete.mObjects.map Object.mName) d.mObjectMap := by
    rw [nameTable, List.zipIdx_map, List.foldl_map]
    rfl
  have hnames : d.importComplete.mObjects.map Object.mName = d.mObjects.map Object.mName := by
    rw [importComplete_mObjects, List.map_map]
    rfl
  have hself : d.importComplete = { d with
      mObjects := d.importComplete.mObjects, mObjectMap := d.importComplete.mObjectMap } := rfl
  rw [hself, hmap, hnames, importComplete_mObjects]

/-- A change of an object that leaves everything alone that completing looks at or sets. -/
structure Outward (g : Object → Object) : Prop where
  outline_eq : ∀ o, outline (g o) = outline o
  completed_eq : ∀ l o, completed l (g o) = g (completed l o)

/-- Completing the first objects early changes nothing in the end. -/
theorem importComplete_absorb {g : Object → Object} (hg : Outward g) (d e : DOM) (more : List Object) :
    DOM.importComplete { e with
        mObjects := (d.importComplete.mObjects ++ more).map g
        mObjectMap := d.importComplete.mObjectMap } =
      DOM.importComplete { e with
        mObjects := (d.mObjects ++ more).map g
        mObjectMap := d.mObjectMap } := by
  have hmapg : ∀ l : List Object, (l.map g).map outline = l.map outline := by
    intro l
    rw [List.map_map]
    apply List.map_congr_left
    intro o _
    exact hg.outline_eq o
  have hearly : (d.importComplete.mObjects ++ more).map outline = (d.mObjects ++ more).map outline := by
    rw [importComplete_mObjects, List.map_append, List.map_append, List.map_map]
    congr 1
    apply List.map_congr_left
    intro o _
    exact outline_completed _ o
  have hname : ∀ l l' : List Object, l.map outline = l'.map outline →
      l.map Object.mName = l'.map Object.mName := by
    intro l l' h
    have := congrArg (List.map Prod.fst) h
    rwa [List.map_map, List.map_map] at this
  have hcompleted : ∀ l, completed ((d.mObjects ++ l).map g) = completed (d.mObjects ++ l) :=
    fun l => completed_congr (hmapg _)
  have hfirst : completed ((d.importComplete.mObjects ++ more).map g) = completed (d.mObjects ++ more) :=
    completed_congr ((hmapg _).trans hearly)
  have hobjects : ((d.importComplete.mObjects ++ more).map g).map
      (completed ((d.importComplete.mObjects ++ more).map g)) =
        ((d.mObjects ++ more).map g).map (completed ((d.mObjects ++ more).map g)) := by
    rw [hfirst, hcompleted, importComplete_mObjects]
    simp only [List.map_append, List.map_map]
    congr 1
    apply List.map_congr_left
    intro o _
    simp only [Function.comp_apply]
    rw [hg.completed_eq, hg.completed_eq, completed_completed]
  have hmap : nameTable (((d.importComplete.mObjects ++ more).map g).map Object.mName)
      d.importComplete.mObjectMap =
        nameTable (((d.mObjects ++ more).map g).map Object.mName) d.mObjectMap := by
    have hall : ((d.mObjects ++ more).map g).map Object.mName =
        d.mObjects.map Object.mName ++ more.map Object.mName := by
      rw [hname _ _ (hmapg _), List.map_append]
    rw [hname _ _ ((hmapg _).trans (hearly.trans (hmapg _).symm)), hall, importComplete_eq]
    exact nameTable_nameTable _ _ _
  rw [importComplete_eq, importComplete_eq { e with
    mObjects := (d.mObjects ++ more).map g, mObjectMap := d.mObjectMap }]
  simp only [hobjects, hmap]

theorem outward_id : Outward id := ⟨fun _ => rfl, fun _ _ => rfl⟩

theorem outward_registerChild (base name : Text) : Outward (registerChild base name) := by
  constructor
  · intro o
    rw [registerChild]
    split_ifs <;> rfl
  · intro l o
    by_cases h : o.mName = base
    · have hc : (completed l o).mName = base := h
      rw [registerChild, if_pos h, registerChild, if_pos hc]
      rfl
    · have hc : ¬ (completed l o).mName = base := h
      rw [registerChild, if_neg h, registerChild, if_neg hc]

/-- The parser with the schema completed as after a file. -/
def settle (st : CreateDOMDef) : CreateDOMDef := { st with mDOM := st.mDOM.importComplete }

theorem importComplete_setting (d e : DOM) :
    DOM.importComplete { e with
        mObjects := d.importComplete.mObjects, mObjectMap := d.importComplete.mObjectMap } =
      DOM.importComplete { e with mObjects := d.mObjects, mObjectMap := d.mObjectMap } := by
  simpa using importComplete_absorb outward_id d e []

theorem closeFile_settle (st : CreateDOMDef) : closeFile (settle st) = closeFile st := by
  have hpush := importComplete_absorb outward_id st.mDOM st.mDOM [st.mCurrentObject]
  have hkeep := importComplete_setting st.mDOM st.mDOM
  rw [List.map_id, List.map_id] at hpush
  cases hopen : st.mHaveObject with
  | true =>
      simp only [closeFile, pushObject, settle, hopen, if_true]
      exact congrArg (fun d => (⟨st.mEndOfFile, false, {}, d⟩ : CreateDOMDef)) hpush
  | false =>
      simp only [closeFile, pushObject, settle, hopen, Bool.false_eq_true, if_false]
      exact congrArg (fun d => (⟨st.mEndOfFile, false, st.mCurrentObject, d⟩ : CreateDOMDef)) hkeep

theorem settle_settle (st : CreateDOMDef) : settle (settle st) = settle st :=
  congrArg (fun d => { st with mDOM := d }) (importComplete_setting st.mDOM st.mDOM)

theorem openObject_mDOM (st : CreateDOMDef) (row : Row) :
    ∃ g more cur, Outward g ∧ ∀ d : DOM, openObject { st with mDOM := d } row =
      ⟨st.mEndOfFile, true, cur, { d with mObjects := (d.mObjects ++ more).map g }⟩ := by
  have hreg := outward_registerChild (arg row 3) (arg row 0)
  by_cases hopen : st.mHaveObject = true
  · by_cases h4 : 4 ≤ row.length
    · refine ⟨_, [st.mCurrentObject], objectFields row {}, hreg, fun d => ?_⟩
      simp [openObject, pushObject, hopen, h4]
    · refine ⟨id, [st.mCurrentObject], objectFields row {}, outward_id, fun d => ?_⟩
      simp [openObject, pushObject, hopen, h4]
  · by_cases h4 : 4 ≤ row.length
    · refine ⟨_, [], objectFields row st.mCurrentObject, hreg, fun d => ?_⟩
      simp [openObject, pushObject, hopen, h4]
    · refine ⟨id, [], objectFields row st.mCurrentObject, outward_id, fun d => ?_⟩
      simp [openObject, pushObject, hopen, h4]

theorem openObject_settle (st : CreateDOMDef) (row : Row) :
    settle (openObject (settle st) row) = settle (openObject st row) := by
  obtain ⟨g, more, cur, hg, hopen⟩ := openObject_mDOM st row
  calc settle (openObject (settle st) row)
      = settle ⟨st.mEndOfFile, true, cur, { st.mDOM.importComplete with
          mObjects := (st.mDOM.importComplete.mObjects ++ more).map g }⟩ :=
        congrArg settle (hopen st.mDOM.importComplete)
    _ = settle ⟨st.mEndOfFile, true, cur, { st.mDOM with mObjects := (st.mDOM.mObjects ++ more).map g }⟩ :=
        congrArg (fun d => (⟨st.mEndOfFile, true, cur, d⟩ : CreateDOMDef))
          (importComplete_absorb hg st.mDOM st.mDOM more)
    _ = settle (openObject st row) := (congrArg settle (hopen st.mDOM)).symm

theorem settle_setting (st : CreateDOMDef) (row : Row) (set : DOM → Text → DOM)
    (hset : ∀ d v, (set d.importComplete v).importComplete = (set d v).importComplete) :
    settle { settle st with mDOM := setting row (settle st).mDOM (set (settle st).mDOM) } =
      settle { st with mDOM := setting row st.mDOM (set st.mDOM) } := by
  rw [setting, setting]
  split_ifs
  · exact congrArg (fun d => { st with mDOM := d }) (hset st.mDOM _)
  · exact settle_settle st

theorem processArgs_settle (st : CreateDOMDef) (row : Row) :
    (processArgs (settle st) row).map settle = (processArgs st row).map settle := by
  have hend : (settle st).mEndOfFile = st.mEndOfFile := rfl
  rw [processArgs, processArgs, hend]
  by_cases hrun : st.mEndOfFile = true
  · rw [if_pos hrun, if_pos hrun]
    exact congrArg some (settle_settle st)
  · rw [if_neg hrun, if_neg hrun]
    cases rowKind row with
    | endOfFile =>
        exact congrArg (fun d => some { st with mEndOfFile := true, mDOM := d })
          (importComplete_setting st.mDOM st.mDOM)
    | header | blank => exact congrArg some (settle_settle st)
    | object => exact congrArg some (openObject_settle st row)
    | member =>
        rw [Option.map_map, Option.map_map]
        congr 1
        funext di
        exact congrArg (fun d => addMember { st with mDOM := d } di)
          (importComplete_setting st.mDOM st.mDOM)
    | filename =>
        exact congrArg some (settle_setting st row (fun d v => { d with mFilename := v })
          fun d v => importComplete_setting d { d with mFilename := v })
    | nameSpace =>
        exact congrArg some (settle_setting st row (fun d v => { d with mNamespace := v })
          fun d v => importComplete_setting d { d with mNamespace := v })
    | pod =>
        exact congrArg some (settle_setting st row (fun d v => { d with mPlainOldData := getBool v })
          fun d v => importComplete_setting d { d with mPlainOldData := getBool v })
    | exportXML =>
        exact congrArg some (settle_setting st row (fun d v => { d with mExportXML := v })
          fun d v => importComplete_setting d { d with mExportXML := v })
    | url =>
        exact congrArg some (settle_setting st row (fun d v => { d with mURL := v })
          fun d v => importComplete_setting d { d with mURL := v })

theorem foldlM_settle (st : CreateDOMDef) (rows : List Row) :
    (rows.foldlM processArgs (settle st)).map settle = (rows.foldlM processArgs st).map settle := by
  induction rows generalizing st with
  | nil => exact congrArg some (settle_settle st)
  | cons row rows ih =>
      have hrow := processArgs_settle st row
      rw [List.foldlM_cons, List.foldlM_cons]
      cases hp : processArgs st row with
      | none =>
          rw [hp, Option.map_none, Option.map_eq_none_iff] at hrow
          rw [hrow]
      | some st₁ =>
          rw [hp, Option.map_some, Option.map_eq_some_iff] at hrow
          obtain ⟨st₂, hp₂, hsettle⟩ := hrow
          rw [hp₂]
          calc (rows.foldlM processArgs st₂).map settle
              = (rows.foldlM processArgs (settle st₂)).map settle := (ih st₂).symm
            _ = (rows.foldlM processArgs (settle st₁)).map settle := by rw [hsettle]
            _ = (rows.foldlM processArgs st₁).map settle := ih st₁

theorem foldlM_closeFile_settle (st : CreateDOMDef) (rows : List Row) :
    (rows.foldlM processArgs (settle st)).map closeFile = (rows.foldlM processArgs st).map closeFile := by
  have hclose : closeFile ∘ settle = closeFile := funext closeFile_settle
  rw [← hclose, ← Option.map_map, foldlM_settle, Option.map_map]

theorem foldlM_tracer (rows more : List Row) :
    more.foldlM (tracer maxArgv isEofRow).handle rows = some (rows ++ more) := by
  induction more generalizing rows with
  | nil => rw [List.append_nil]; rfl
  | cons row more ih =>
      rw [List.foldlM_cons]
      exact (ih (rows ++ [row])).trans (by rw [List.append_assoc]; rfl)

theorem calls_append (a : RowText) (b : Text) : calls (a.text ++ b) = (calls b).map (a.rows ++ ·) := by
  have hstop : (tracer maxArgv isEofRow).stopped a.rows = false := by
    change a.rows.getLast?.any isEofRow = false
    cases hlast : a.rows.getLast? with
    | none => rfl
    | some row => exact a.noEof row (List.mem_of_getLast? hlast)
  have hscan : scan (tracer maxArgv isEofRow) (start []) a.text = some (start a.rows) := by
    obtain ⟨q, hq, hfin⟩ := Option.bind_eq_some_iff.mp a.closed
    rw [cstr_of_nulFree a.nulFree] at hq
    rw [hq, ← finish_eq_some hfin]
    rfl
  have hcstr : cstr (a.text ++ b) = a.text ++ cstr b := by
    rw [cstr, List.takeWhile_append_of_pos]
    · rfl
    · intro c hc
      simpa using fun he : c = nul => a.nulFree (he ▸ hc)
  have hread := readText_eq_replay (tracer maxArgv isEofRow) isEofRow (tracer_stopsAt maxArgv isEofRow)
    a.rows hstop b
  rw [calls, trace, readText, hcstr, scan_append, hscan, Option.bind_some]
  rw [readText] at hread
  rw [hread, calls]
  have hcap : (tracer maxArgv isEofRow).capacity = maxArgv := rfl
  rw [hcap]
  cases trace maxArgv isEofRow b with
  | none => rfl
  | some r => simp [replay, foldlM_tracer]

theorem openFile_of_ne (st : CreateDOMDef) {s : Text} (hs : s ≠ []) :
    openFile st s = { st with mEndOfFile := false } := by
  rw [openFile, if_neg hs]

theorem openObject_pushed (st : CreateDOMDef) (row : Row) (e : Bool) :
    openObject { pushObject st with mHaveObject := false, mEndOfFile := e } row =
      openObject { st with mEndOfFile := e } row := by
  by_cases hopen : st.mHaveObject = true <;> simp [openObject, pushObject, hopen]

theorem foldlM_mEndOfFile {st cur : CreateDOMDef} {rows : List Row} (hrun : st.mEndOfFile = false)
    (heof : ∀ row ∈ rows, isEofRow row = false) (h : rows.foldlM processArgs st = some cur) :
    cur.mEndOfFile = false := by
  induction rows generalizing st with
  | nil => exact Option.some.inj h ▸ hrun
  | cons row rows ih =>
      rw [List.forall_mem_cons] at heof
      rw [List.foldlM_cons] at h
      obtain ⟨st', hp, h⟩ := Option.bind_eq_some_iff.mp h
      exact ih ((processArgs_mEndOfFile hrun hp).trans heof.1) heof.2 h

theorem foldlM_second (cur : CreateDOMDef) {row : Row} (hobj : isObjectRow row = true) (rows : List Row) :
    ((row :: rows).foldlM processArgs { closeFile cur with mEndOfFile := false }).map closeFile =
      ((row :: rows).foldlM processArgs { cur with mEndOfFile := false }).map closeFile := by
  have hflushed : ({ closeFile cur with mEndOfFile := false } : CreateDOMDef) =
      settle { pushObject cur with mHaveObject := false, mEndOfFile := false } := rfl
  rw [hflushed, foldlM_closeFile_settle, List.foldlM_cons, List.foldlM_cons,
    processArgs_object rfl hobj, processArgs_object rfl hobj, openObject_pushed]

/-- Parsing two files in turn is parsing them joined. -/
theorem parseCSV_append (st : CreateDOMDef) (a : RowText) {b : Text} {row : Row} {rows : List Row}
    (hb : calls b = some (row :: rows)) (hobj : isObjectRow row = true) :
    (parseCSV st a.text).bind (parseCSV · b) = parseCSV st (a.text ++ b) := by
  have hne : b ≠ [] := by
    rintro rfl
    have hempty : calls [] = some [] := rfl
    exact absurd (hempty.symm.trans hb) (by simp)
  have ha : calls a.text = some a.rows := by
    rw [calls, a.closed]
    rfl
  have hab : a.text ++ b ≠ [] := fun h => hne (List.append_eq_nil_iff.mp h).2
  have hfirst : a.rows.foldlM processArgs { st with mEndOfFile := false } =
      (a.rows.foldlM processArgs (openFile st a.text)).map fun cur => { cur with mEndOfFile := false } := by
    by_cases hs : a.text = []
    · have hrows : a.rows = [] := by
        rw [hs] at ha
        exact (Option.some.inj ha).symm
      rw [hrows, hs]
      rfl
    · rw [openFile_of_ne st hs]
      cases hf : a.rows.foldlM processArgs { st with mEndOfFile := false } with
      | none => rfl
      | some cur =>
          have hend := foldlM_mEndOfFile rfl a.noEof hf
          exact congrArg (fun e => some { cur with mEndOfFile := e }) hend
  rw [parseCSV_eq_calls st a.text, ha, Option.bind_some, parseCSV_eq_calls st (a.text ++ b), calls_append,
    hb, Option.map_some, Option.bind_some, openFile_of_ne st hab, List.foldlM_append, hfirst]
  cases a.rows.foldlM processArgs (openFile st a.text) with
  | none => rfl
  | some cur =>
      rw [Option.map_some, Option.bind_some, parseCSV_eq_calls, hb, Option.bind_some,
        openFile_of_ne _ hne]
      exact foldlM_second cur hobj rows

def firstFile : RowText where
  text := "A,,Class".toList ++ lf :: ",s,string".toList ++ [lf]
  rows := [["A".toList, [], "Class".toList], [[], "s".toList, "string".toList]]
  nulFree := by decide
  closed := rfl
  noEof := by decide

def secondFile : Text := "B,,Class,A".toList ++ lf :: ",a,A".toList ++ [lf]

/-- The second file inherits from a class of the first one and has a member of it. -/
theorem parseCSV_secondFile :
    (parseCSV {} firstFile.text).bind (parseCSV · secondFile) =
      parseCSV {} (firstFile.text ++ secondFile) :=
  have hrows : calls secondFile =
      some [["B".toList, [], "Class".toList, "A".toList], [[], "a".toList, "A".toList]] := rfl
  parseCSV_append {} firstFile hrows rfl

end SchemaCodeGen.TwoFiles
