import SchemaCodeGen.CsvTrace
import SchemaCodeGen.Schema

namespace SchemaCodeGen.ParseCSV

open CString CsvReader CsvTrace Schema

def maxArgv : Nat := 128

structure CreateDOMDef where
  mEndOfFile : Bool := false
  mHaveObject : Bool := false
  mCurrentObject : Object := {}
  mDOM : DOM := {}
  deriving DecidableEq, Repr

/-- `argv[k]`, or the empty default of a field that a short row does not reach. -/
def arg (row : Row) (k : Nat) : Text := row.getD k []

def getBool (str : Text) : Bool := decimal str != 0 || stricmp str "true".toList

inductive RowKind
  | endOfFile
  | filename
  | nameSpace
  | pod
  | exportXML
  | url
  | header
  | object
  | member
  | blank
  deriving DecidableEq, Repr

def keywords : List (Text × RowKind) :=
  [("EOF".toList, .endOfFile), ("Filename".toList, .filename), ("Namespace".toList, .nameSpace),
    ("POD".toList, .pod), ("ExportXML".toList, .exportXML), ("URL".toList, .url),
    ("ObjectName".toList, .header)]

def rowKind (row : Row) : RowKind :=
  match keywords.find? (fun k => stricmp (arg row 0) k.1) with
  | some k => k.2
  | none =>
      if arg row 0 ≠ [] then .object
      else if 2 ≤ row.length ∧ arg row 1 ≠ [] then .member
      else .blank

/-- The loop that copies a member name and takes its `?` and `!` marks out. The
number is the room left in `tempValue`. -/
def copyName : Nat → Text → OptionalType → Text × OptionalType
  | 0, _, o => ([], o)
  | _ + 1, [], o => ([], o)
  | n + 1, c :: s, o =>
      if c = '?' then copyName (n + 1) s .optional
      else if c = '!' then copyName (n + 1) s .optionalDeserialize
      else (c :: (copyName n s o).1, (copyName n s o).2)

/-- The name cell after a terminator was written over its array or pointer mark. -/
def truncateName (name : Text) : Text :=
  if '[' ∈ name.drop 1 then name.take 1 ++ cutAt '[' (name.drop 1)
  else if '*' ∈ name then cutAt '*' name
  else name

/-- Name and key type of the map form. The code asserts the colon and the bracket. -/
def mapForm (tempValue : Text) : Option (Text × Text) :=
  match afterFirst ':' tempValue with
  | none => none
  | some key => if ']' ∈ key then some (cutAt ':' (tempValue.drop 1), cutAt ']' key) else none

def memberName (name : Text) : Option MemberVariable :=
  let copied := copyName 510 (truncateName name) .required
  let di : MemberVariable :=
    { mIsOptional := copied.2, mIsArray := '[' ∈ name.drop 1, mIsPointer := '*' ∈ name }
  if copied.1.head? = some '[' then
    (mapForm copied.1).map fun m => { di with mIsMap := true, mMember := m.1, mMapType := m.2 }
  else some { di with mMember := copied.1 }

/-- `strncpy` leaves a type of 512 characters or more without terminator, and
the search for the mark runs out of the buffer. -/
def memberType (row : Row) (di : MemberVariable) : Option MemberVariable :=
  if 3 ≤ row.length then
    if (arg row 2).length < 512 then
      let type := cutAt '!' (arg row 2)
      some { di with
        mSerializeEnumAsInteger := '!' ∈ arg row 2
        mType := type
        mIsString := type = "string".toList }
    else none
  else some di

def memberFields (row : Row) (di : MemberVariable) : MemberVariable :=
  { di with
    mProtoType := if "PROTO:".toList.isPrefixOf (arg row 3) then (arg row 3).drop 6 else []
    mInheritsFrom := if "PROTO:".toList.isPrefixOf (arg row 3) then [] else arg row 3
    mEngineSpecific := arg row 4
    mDefaultValue := arg row 5
    mMinValue := arg row 6
    mMaxValue := arg row 7
    mAlias := arg row 8
    mShortDescription := arg row 9
    mLongDescription := arg row 10 }.init

/-- The member a row describes, unless its name trips an assertion or its type
does not fit its buffer. -/
def memberOf (row : Row) : Option MemberVariable :=
  ((memberName (arg row 1)).bind (memberType row)).map (memberFields row)

/-- The object row's fields, over the current object they are stored into. -/
def objectFields (row : Row) (cur : Object) : Object :=
  { cur with
    mName := arg row 0
    mType := if 3 ≤ row.length then arg row 2 else cur.mType
    mInheritsFrom := if 4 ≤ row.length then arg row 3 else cur.mInheritsFrom
    mEngineSpecific := if 5 ≤ row.length then arg row 4 else cur.mEngineSpecific
    mClone := if 6 ≤ row.length ∧ stricmp (arg row 5) "CLONE".toList then true else cur.mClone
    mAssignment :=
      if 6 ≤ row.length ∧ ¬ stricmp (arg row 5) "CLONE".toList ∧
          stricmp (arg row 5) "ASSIGNMENT".toList then true
      else cur.mAssignment
    mAlias := if 9 ≤ row.length then arg row 8 else cur.mAlias
    mShortDescription := if 10 ≤ row.length then arg row 9 else cur.mShortDescription
    mLongDescription := if 11 ≤ row.length then arg row 10 else cur.mLongDescription }

def registerChild (inheritsFrom name : Text) (j : Object) : Object :=
  if j.mName = inheritsFrom then { j with mChildren := j.mChildren ++ [name] } else j

def pushObject (st : CreateDOMDef) : CreateDOMDef :=
  if st.mHaveObject then
    { st with
      mDOM := { st.mDOM with mObjects := st.mDOM.mObjects ++ [st.mCurrentObject] }
      mCurrentObject := {} }
  else st

def openObject (st : CreateDOMDef) (row : Row) : CreateDOMDef :=
  let st := pushObject st
  let objects :=
    if 4 ≤ row.length then st.mDOM.mObjects.map (registerChild (arg row 3) (arg row 0))
    else st.mDOM.mObjects
  { st with
    mHaveObject := true
    mCurrentObject := objectFields row st.mCurrentObject
    mDOM := { st.mDOM with mObjects := objects } }

def addMember (st : CreateDOMDef) (di : MemberVariable) : CreateDOMDef :=
  { st with mCurrentObject := { st.mCurrentObject with mItems := st.mCurrentObject.mItems ++ [di] } }

def setting (row : Row) (dom : DOM) (set : Text → DOM) : DOM :=
  if 2 ≤ row.length then set (arg row 1) else dom

def processArgs (st : CreateDOMDef) (row : Row) : Option CreateDOMDef :=
  if st.mEndOfFile then some st
  else match rowKind row with
    | .endOfFile => some { st with mEndOfFile := true }
    | .filename =>
        some { st with mDOM := setting row st.mDOM fun v => { st.mDOM with mFilename := v } }
    | .nameSpace =>
        some { st with mDOM := setting row st.mDOM fun v => { st.mDOM with mNamespace := v } }
    | .pod =>
        some { st with mDOM := setting row st.mDOM fun v => { st.mDOM with mPlainOldData := getBool v } }
    | .exportXML =>
        some { st with mDOM := setting row st.mDOM fun v => { st.mDOM with mExportXML := v } }
    | .url => some { st with mDOM := setting row st.mDOM fun v => { st.mDOM with mURL := v } }
    | .header => some st
    | .object => some (openObject st row)
    | .member => (memberOf row).map (addMember st)
    | .blank => some st

def client : Client CreateDOMDef where
  capacity := maxArgv
  handle := processArgs
  stopped := CreateDOMDef.mEndOfFile

def closeFile (st : CreateDOMDef) : CreateDOMDef :=
  let st := { pushObject st with mHaveObject := false }
  { st with mDOM := st.mDOM.importComplete }

/-- `parseCSV` on a file with the content `s`. There is no result when an assertion
fails or a fixed buffer is left. -/
def parseCSV (st : CreateDOMDef) (s : Text) : Option CreateDOMDef :=
  (if s = [] then some st else read client s { st with mEndOfFile := false }).map closeFile

def isEofRow (row : Row) : Bool := stricmp (arg row 0) "EOF".toList

/-- The rows that come in, in order, when `processArgs` returns on each of them. -/
def calls (s : Text) : Option (List Row) := (trace maxArgv isEofRow s).map Reader.client

theorem rowKind_eq_endOfFile {row : Row} : rowKind row = .endOfFile ↔ isEofRow row = true := by
  by_cases h : isEofRow row = true
  · have hf : keywords.find? (fun k => stricmp (arg row 0) k.1) = some ("EOF".toList, .endOfFile) :=
      List.find?_cons_of_pos h
    simp [rowKind, hf, h]
  · simp only [h, Bool.false_eq_true, iff_false]
    have hf : keywords.find? (fun k => stricmp (arg row 0) k.1) =
        keywords.tail.find? (fun k => stricmp (arg row 0) k.1) := List.find?_cons_of_neg h
    rw [rowKind, hf]
    cases hk : keywords.tail.find? (fun k => stricmp (arg row 0) k.1) with
    | some k =>
        have hall : ∀ k ∈ keywords.tail, k.2 ≠ RowKind.endOfFile := by decide
        exact hall k (List.mem_of_find?_eq_some hk)
    | none =>
        simp only
        split_ifs <;> simp

theorem pushObject_mEndOfFile (st : CreateDOMDef) : (pushObject st).mEndOfFile = st.mEndOfFile := by
  simp only [pushObject]
  split_ifs <;> rfl

theorem processArgs_mEndOfFile {st st' : CreateDOMDef} {row : Row} (hrun : st.mEndOfFile = false)
    (h : processArgs st row = some st') : st'.mEndOfFile = isEofRow row := by
  simp only [processArgs, hrun, Bool.false_eq_true, if_false] at h
  cases hk : rowKind row with
  | endOfFile =>
      simp only [hk] at h
      obtain rfl := Option.some.inj h
      exact (rowKind_eq_endOfFile.mp hk).symm
  | member =>
      simp only [hk] at h
      obtain ⟨di, _, rfl⟩ := Option.map_eq_some_iff.mp h
      have hne : ¬ isEofRow row = true := fun he => by simp [rowKind_eq_endOfFile.mpr he] at hk
      rw [Bool.eq_false_iff.mpr hne]
      exact hrun
  | object =>
      simp only [hk] at h
      obtain rfl := Option.some.inj h
      have hne : ¬ isEofRow row = true := fun he => by simp [rowKind_eq_endOfFile.mpr he] at hk
      rw [Bool.eq_false_iff.mpr hne]
      exact (pushObject_mEndOfFile st).trans hrun
  | filename | nameSpace | pod | exportXML | url | header | blank =>
      simp only [hk] at h
      obtain rfl := Option.some.inj h
      have hne : ¬ isEofRow row = true := fun he => by simp [rowKind_eq_endOfFile.mpr he] at hk
      simp [Bool.eq_false_iff.mpr hne, hrun]

theorem client_stopsAt : StopsAt client isEofRow :=
  fun _ _ _ hrun h => processArgs_mEndOfFile hrun h

/-- The parser when the rows of `s` begin to come in. An empty file is not read. -/
def openFile (st : CreateDOMDef) (s : Text) : CreateDOMDef :=
  if s = [] then st else { st with mEndOfFile := false }

theorem parseCSV_eq_calls (st : CreateDOMDef) (s : Text) :
    parseCSV st s = ((calls s).bind
      (fun rows => rows.foldlM processArgs (openFile st s))).map closeFile := by
  by_cases hs : s = []
  · subst hs
    rfl
  · have h := readText_eq_replay client isEofRow client_stopsAt { st with mEndOfFile := false } rfl s
    have hcap : client.capacity = maxArgv := rfl
    simp only [parseCSV, openFile, hs, if_false, CsvReader.read, h, calls, hcap]
    congr 1
    cases trace maxArgv isEofRow s with
    | none => rfl
    | some r =>
        simp only [Option.bind_some, Option.map_some, replay, Option.map_map, Function.comp_def]
        exact Option.map_id'

end SchemaCodeGen.ParseCSV
