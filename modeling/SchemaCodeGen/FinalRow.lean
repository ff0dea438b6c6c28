import SchemaCodeGen.Complete
import SchemaCodeGen.ParseCSV

namespace SchemaCodeGen.FinalRow

open CString CsvReader CsvTrace Schema Complete ParseCSV

/-- A member row that trips no assertion and fits the type buffer. -/
def Acceptable (row : Row) : Prop :=
  rowKind row = .member →
    ((copyName 510 (truncateName (arg row 1)) .required).1.head? = some '[' →
      (mapForm (copyName 510 (truncateName (arg row 1)) .required).1).isSome) ∧
    (3 ≤ row.length → (arg row 2).length < 512)

instance (row : Row) : Decidable (Acceptable row) :=
  inferInstanceAs (Decidable (rowKind row = .member → _))

theorem memberOf_isSome {row : Row} (hk : rowKind row = .member) :
    (memberOf row).isSome ↔ Acceptable row := by
  have htype : ∀ di : MemberVariable, (memberType row di).isSome ↔
      (3 ≤ row.length → (arg row 2).length < 512) := by
    intro di
    rw [memberType]
    split_ifs with h3 h512 <;> simp [*]
  simp only [Acceptable, hk, forall_const, memberOf, Option.isSome_map, memberName]
  split_ifs with hb
  · cases hm : mapForm (copyName 510 (truncateName (arg row 1)) .required).1 with
    | none => simp [hb]
    | some m => simp [hb, htype]
  · simp [hb, htype]

theorem processArgs_isSome {st : CreateDOMDef} (hrun : st.mEndOfFile = false) (row : Row) :
    (processArgs st row).isSome ↔ Acceptable row := by
  simp only [processArgs, hrun, Bool.false_eq_true, if_false]
  cases hk : rowKind row with
  | member => simpa using memberOf_isSome hk
  | endOfFile | filename | nameSpace | pod | exportXML | url | header | object | blank =>
      simp [Acceptable, hk]

/-- Rows that leave the parsed schema as it is in the state `st`. -/
def Inert (st : CreateDOMDef) (row : Row) : Prop :=
  match rowKind row with
  | .endOfFile | .header | .blank => True
  | .filename => 2 ≤ row.length → arg row 1 = st.mDOM.mFilename
  | .nameSpace => 2 ≤ row.length → arg row 1 = st.mDOM.mNamespace
  | .pod => 2 ≤ row.length → getBool (arg row 1) = st.mDOM.mPlainOldData
  | .exportXML => 2 ≤ row.length → arg row 1 = st.mDOM.mExportXML
  | .url => 2 ≤ row.length → arg row 1 = st.mDOM.mURL
  | .object => False
  | .member => st.mHaveObject = false ∧ Acceptable row

def itemCounts (d : DOM) : List Nat := d.mObjects.map fun o => o.mItems.length

theorem itemCounts_importComplete (d : DOM) : itemCounts d.importComplete = itemCounts d := by
  rw [itemCounts, importComplete_mObjects, List.map_map]
  apply List.map_congr_left
  intro o _
  exact List.length_map _

theorem itemCounts_closeFile (st : CreateDOMDef) :
    itemCounts (closeFile st).mDOM =
      itemCounts st.mDOM ++ (if st.mHaveObject then [st.mCurrentObject.mItems.length] else []) := by
  rw [closeFile, itemCounts_importComplete]
  by_cases h : st.mHaveObject <;> simp [pushObject, h, itemCounts]

theorem itemCounts_registerChild (objects : List Object) (b n : Text) :
    (objects.map (registerChild b n)).map (fun o => o.mItems.length) =
      objects.map fun o => o.mItems.length := by
  rw [List.map_map]
  apply List.map_congr_left
  intro o _
  simp only [Function.comp_def, registerChild]
  split_ifs <;> rfl

theorem itemCounts_openObject (st : CreateDOMDef) (row : Row) :
    itemCounts (closeFile (openObject st row)).mDOM ≠ itemCounts (closeFile st).mDOM := by
  have hcount : itemCounts (openObject st row).mDOM = itemCounts (pushObject st).mDOM := by
    simp only [openObject, itemCounts]
    split_ifs
    · exact itemCounts_registerChild _ _ _
    · rfl
  have hpush : itemCounts (pushObject st).mDOM = itemCounts (closeFile st).mDOM := by
    rw [itemCounts_closeFile]
    by_cases h : st.mHaveObject <;> simp [pushObject, h, itemCounts]
  rw [itemCounts_closeFile, hcount, hpush]
  simp [openObject]

theorem itemCounts_addMember (st : CreateDOMDef) (hopen : st.mHaveObject = true)
    (di : MemberVariable) :
    itemCounts (closeFile (addMember st di)).mDOM ≠ itemCounts (closeFile st).mDOM := by
  simp [itemCounts_closeFile, addMember, hopen]

theorem closeFile_setting (st : CreateDOMDef) (d : DOM) :
    (closeFile { st with mDOM := d }).mDOM.mFilename = d.mFilename ∧
      (closeFile { st with mDOM := d }).mDOM.mNamespace = d.mNamespace ∧
      (closeFile { st with mDOM := d }).mDOM.mPlainOldData = d.mPlainOldData ∧
      (closeFile { st with mDOM := d }).mDOM.mExportXML = d.mExportXML ∧
      (closeFile { st with mDOM := d }).mDOM.mURL = d.mURL := by
  simp only [closeFile, pushObject, DOM.importComplete]
  split_ifs <;> simp

theorem setting_inert (st : CreateDOMDef) (row : Row) (set : Text → DOM) (P : Prop)
    (hset : (closeFile { st with mDOM := set (arg row 1) }).mDOM = (closeFile st).mDOM ↔ P) :
    (closeFile { st with mDOM := setting row st.mDOM set }).mDOM = (closeFile st).mDOM ↔
      (2 ≤ row.length → P) := by
  by_cases h : 2 ≤ row.length
  · simpa [setting, h] using hset
  · simp [setting, h]

/-- A row leaves the flushed schema as it is exactly when it is inert. -/
theorem processArgs_inert {st : CreateDOMDef} (hrun : st.mEndOfFile = false) (row : Row) :
    (processArgs st row).map (fun s => (closeFile s).mDOM) = some (closeFile st).mDOM ↔
      Inert st row := by
  have hset := closeFile_setting st
  have hself := hset st.mDOM
  rw [processArgs, if_neg (by simp [hrun])]
  cases hk : rowKind row with
  | endOfFile =>
      simp only [Inert, hk, Option.map_some, iff_true]
      congr 1
      simp only [closeFile, pushObject]
      split_ifs <;> rfl
  | header | blank => simp [Inert, hk]
  | filename =>
      simp only [Inert, hk, Option.map_some, Option.some.injEq]
      refine setting_inert st row (fun v => { st.mDOM with mFilename := v }) _ ⟨fun h => ?_, fun h => ?_⟩
      · have := congrArg DOM.mFilename h
        rwa [(hset _).1, hself.1] at this
      · simp [h]
  | nameSpace =>
      simp only [Inert, hk, Option.map_some, Option.some.injEq]
      refine setting_inert st row (fun v => { st.mDOM with mNamespace := v }) _ ⟨fun h => ?_, fun h => ?_⟩
      · have := congrArg DOM.mNamespace h
        rwa [(hset _).2.1, hself.2.1] at this
      · simp [h]
  | pod =>
      simp only [Inert, hk, Option.map_some, Option.some.injEq]
      refine setting_inert st row (fun v => { st.mDOM with mPlainOldData := getBool v }) _
        ⟨fun h => ?_, fun h => ?_⟩
      · have := congrArg DOM.mPlainOldData h
        rwa [(hset _).2.2.1, hself.2.2.1] at this
      · simp [h]
  | exportXML =>
      simp only [Inert, hk, Option.map_some, Option.some.injEq]
      refine setting_inert st row (fun v => { st.mDOM with mExportXML := v }) _ ⟨fun h => ?_, fun h => ?_⟩
      · have := congrArg DOM.mExportXML h
        rwa [(hset _).2.2.2.1, hself.2.2.2.1] at this
      · simp [h]
  | url =>
      simp only [Inert, hk, Option.map_some, Option.some.injEq]
      refine setting_inert st row (fun v => { st.mDOM with mURL := v }) _ ⟨fun h => ?_, fun h => ?_⟩
      · have := congrArg DOM.mURL h
        rwa [(hset _).2.2.2.2, hself.2.2.2.2] at this
      · simp [h]
  | object =>
      simp only [Inert, hk, Option.map_some, Option.some.injEq, iff_false]
      exact fun h => itemCounts_openObject st row (congrArg itemCounts h)
  | member =>
      simp only [Inert, hk, Option.map_map, Function.comp_def, ← memberOf_isSome hk]
      cases hm : memberOf row with
      | none => simp
      | some di =>
          simp only [Option.map_some, Option.some.injEq, Option.isSome_some, and_true]
          cases ho : st.mHaveObject with
          | true =>
              simp only [Bool.true_eq_false, iff_false]
              exact fun h => itemCounts_addMember st ho di (congrArg itemCounts h)
          | false => simp [closeFile, pushObject, addMember, ho]

/-- Both texts are parsed and leave the same schema behind. -/
def SameDOM (st : CreateDOMDef) (s t : Text) : Prop :=
  ∃ d e, parseCSV st s = some d ∧ parseCSV st t = some e ∧ d.mDOM = e.mDOM

theorem foldlM_processArgs_isSome {st : CreateDOMDef} {rows : List Row}
    (hrun : st.mEndOfFile = false) (hlast : ∀ row ∈ rows.dropLast, isEofRow row = false) :
    (rows.foldlM processArgs st).isSome ↔ ∀ row ∈ rows, Acceptable row := by
  induction rows generalizing st with
  | nil => simp
  | cons row rows ih =>
      rw [List.foldlM_cons, List.forall_mem_cons, ← processArgs_isSome hrun row]
      cases hp : processArgs st row with
      | none => simp
      | some st' =>
          simp only [Option.bind_eq_bind, Option.bind_some, Option.isSome_some, true_and]
          by_cases hnil : rows = []
          · simp [hnil]
          · rw [List.dropLast_cons_of_ne_nil hnil, List.forall_mem_cons] at hlast
            exact ih ((processArgs_mEndOfFile hrun hp).trans hlast.1) hlast.2

/-- What the rows set a header field to that `kind` rows assign. -/
def settingAfter {α : Type} (kind : RowKind) (read : Text → α) (v : α) (rows : List Row) : α :=
  rows.foldl (fun v row => if rowKind row = kind ∧ 2 ≤ row.length then read (arg row 1) else v) v

def objectAfter (haveObject : Bool) (rows : List Row) : Bool :=
  haveObject || rows.any fun row => rowKind row = .object

/-- The row changes nothing in the schema that `rows` make out of `st`. -/
def InertAfter (st : CreateDOMDef) (rows : List Row) (row : Row) : Prop :=
  match rowKind row with
  | .endOfFile | .header | .blank => True
  | .filename => 2 ≤ row.length → arg row 1 = settingAfter .filename id st.mDOM.mFilename rows
  | .nameSpace => 2 ≤ row.length → arg row 1 = settingAfter .nameSpace id st.mDOM.mNamespace rows
  | .pod =>
      2 ≤ row.length → getBool (arg row 1) = settingAfter .pod getBool st.mDOM.mPlainOldData rows
  | .exportXML => 2 ≤ row.length → arg row 1 = settingAfter .exportXML id st.mDOM.mExportXML rows
  | .url => 2 ≤ row.length → arg row 1 = settingAfter .url id st.mDOM.mURL rows
  | .object => False
  | .member => objectAfter st.mHaveObject rows = false ∧ Acceptable row

/-- The header fields and the open object of a state. -/
structure Header where
  filename : Text
  nameSpace : Text
  pod : Bool
  exportXML : Text
  url : Text
  haveObject : Bool
  deriving DecidableEq

def header (st : CreateDOMDef) : Header :=
  ⟨st.mDOM.mFilename, st.mDOM.mNamespace, st.mDOM.mPlainOldData, st.mDOM.mExportXML, st.mDOM.mURL,
    st.mHaveObject⟩

def headerAfter (h : Header) (rows : List Row) : Header :=
  ⟨settingAfter .filename id h.filename rows, settingAfter .nameSpace id h.nameSpace rows,
    settingAfter .pod getBool h.pod rows, settingAfter .exportXML id h.exportXML rows,
    settingAfter .url id h.url rows, objectAfter h.haveObject rows⟩

theorem headerAfter_cons (h : Header) (row : Row) (rows : List Row) :
    headerAfter h (row :: rows) = headerAfter (headerAfter h [row]) rows := by
  simp [headerAfter, settingAfter, objectAfter, Bool.or_assoc]

theorem processArgs_header {st st' : CreateDOMDef} {row : Row} (hrun : st.mEndOfFile = false)
    (h : processArgs st row = some st') : header st' = headerAfter (header st) [row] := by
  rw [processArgs, if_neg (by simp [hrun])] at h
  cases hk : rowKind row with
  | member =>
      simp only [hk] at h
      obtain ⟨di, _, rfl⟩ := Option.map_eq_some_iff.mp h
      simp [header, headerAfter, settingAfter, objectAfter, hk, addMember]
  | object =>
      simp only [hk] at h
      obtain rfl := Option.some.inj h
      simp only [header, headerAfter, settingAfter, objectAfter, openObject, pushObject]
      split_ifs <;> simp [hk]
  | endOfFile | filename | nameSpace | pod | exportXML | url | header | blank =>
      simp only [hk] at h
      obtain rfl := Option.some.inj h
      by_cases h2 : 2 ≤ row.length <;>
        simp [header, headerAfter, settingAfter, objectAfter, hk, setting, h2]

theorem foldlM_header {st cur : CreateDOMDef} {rows : List Row} (hrun : st.mEndOfFile = false)
    (hlast : ∀ row ∈ rows.dropLast, isEofRow row = false)
    (h : rows.foldlM processArgs st = some cur) : header cur = headerAfter (header st) rows := by
  induction rows generalizing st with
  | nil =>
      obtain rfl := Option.some.inj h
      simp [header, headerAfter, settingAfter, objectAfter]
  | cons row rows ih =>
      rw [List.foldlM_cons] at h
      obtain ⟨st', hp, h⟩ := Option.bind_eq_some_iff.mp h
      rw [headerAfter_cons, ← processArgs_header hrun hp]
      by_cases hnil : rows = []
      · subst hnil
        obtain rfl := Option.some.inj h
        simp [header, headerAfter, settingAfter, objectAfter]
      · rw [List.dropLast_cons_of_ne_nil hnil, List.forall_mem_cons] at hlast
        exact ih ((processArgs_mEndOfFile hrun hp).trans hlast.1) hlast.2 h

theorem inert_of_header (st : CreateDOMDef) {cur : CreateDOMDef} {rows : List Row}
    (h : header cur = headerAfter (header st) rows) (row : Row) :
    Inert cur row ↔ InertAfter st rows row := by
  simp only [header, headerAfter, Header.mk.injEq] at h
  obtain ⟨hf, hn, hp, hx, hu, ho⟩ := h
  simp only [Inert, InertAfter, hf, hn, hp, hx, hu, ho]

/-- A text and the same text with a line end behind it leave the same schema exactly when
its rows are acceptable and the row that no line end closes is inert. -/
theorem sameDOM_append_lf (st : CreateDOMDef) (s : Text) :
    SameDOM st s (s ++ [lf]) ↔
      ∃ rows, calls s = some rows ∧ (∀ row ∈ rows, Acceptable row) ∧
        ∀ row, unfinished maxArgv isEofRow s = some row → InertAfter st rows row := by
  by_cases hs : s = []
  · subst hs
    refine ⟨fun _ => ⟨[], rfl, by simp, fun row h => absurd h (by decide +revert)⟩, fun _ => ?_⟩
    refine ⟨closeFile st, closeFile { st with mEndOfFile := false }, rfl, rfl, ?_⟩
    simp only [closeFile, pushObject]
    split_ifs <;> rfl
  have hopen : openFile st (s ++ [lf]) = openFile st s := by simp [openFile, hs]
  have hrun : (openFile st s).mEndOfFile = false := by simp [openFile, hs]
  have hheader : header (openFile st s) = header st := by simp [openFile, hs, header]
  have hcalls : calls (s ++ [lf]) = (trace maxArgv isEofRow s).map fun r =>
      r.client ++ (unfinished maxArgv isEofRow s).toList := trace_append_lf maxArgv isEofRow s
  rw [SameDOM, parseCSV_eq_calls, parseCSV_eq_calls, hopen, hcalls, calls]
  cases ht : trace maxArgv isEofRow s with
  | none => simp
  | some r =>
      have hlast := trace_dropLast ht
      have hsome := foldlM_processArgs_isSome hrun hlast
      simp only [Option.map_some, Option.bind_some, Option.some.injEq, exists_eq_left',
        List.foldlM_append]
      cases hf : r.client.foldlM processArgs (openFile st s) with
      | none =>
          rw [hf] at hsome
          simp only [Option.map_none, reduceCtorEq, false_and, exists_false, false_iff, not_and]
          exact fun hall => absurd (hsome.mpr hall) (by simp)
      | some cur =>
          have hall := hsome.mp (by rw [hf]; rfl)
          have hinert := inert_of_header st
            ((foldlM_header hrun hlast hf).trans (by rw [hheader]))
          simp only [Option.map_some, Option.some.injEq, and_iff_right hall]
          cases hu : unfinished maxArgv isEofRow s with
          | none => simp
          | some row =>
              -- A row is open, so the reader is not parked behind the end row.
              have hcur : cur.mEndOfFile = false := by
                have hin := trace_inStep (k := client) client_stopsAt hrun ht
                have hag := hin.agree cur hf
                apply hag.trans
                by_contra hstop
                have hm := hin.parked (by simpa using hstop)
                rw [unfinished] at hu
                split_ifs at hu
                simp [ht, openRow, hm] at hu
              have hiff := processArgs_inert hcur row
              rw [hinert row] at hiff
              simp only [Option.some.injEq, forall_eq', ← hiff]
              cases hp : processArgs cur row with
              | none => simp [hp]
              | some cur' => simp [hp, eq_comm]

/-- A settings row at the end of a file without line end is lost. -/
theorem namespace_without_lf :
    ¬ SameDOM {} "Namespace,x".toList ("Namespace,x".toList ++ [lf]) := by
  rintro ⟨d, e, hd, he, h⟩
  have hd' : (parseCSV {} "Namespace,x".toList).map (fun d => d.mDOM.mNamespace) = some [] := by
    decide
  have he' : (parseCSV {} ("Namespace,x".toList ++ [lf])).map (fun d => d.mDOM.mNamespace) =
      some ['x'] := by decide
  rw [hd, Option.map_some] at hd'
  rw [he, Option.map_some, ← h, hd'] at he'
  exact absurd he' (by decide)

end SchemaCodeGen.FinalRow
