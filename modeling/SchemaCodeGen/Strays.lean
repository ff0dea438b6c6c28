import SchemaCodeGen.RowRuns

namespace SchemaCodeGen.Strays

open CString CsvReader Schema ParseCSV FinalRow Rows RowRuns

def IsMemberRow (row : Row) : Prop := arg row 0 = [] ∧ arg row 1 ≠ []

/-- The second list has member rows that the first one does not have, all before the first
object row. -/
inductive Inserted : List Row → List Row → Prop
  | done (rows : List Row) : Inserted rows rows
  | stray {row : Row} {rows rows' : List Row} (hrow : IsMemberRow row) (h : Inserted rows rows') :
      Inserted rows (row :: rows')
  | keep {row : Row} {rows rows' : List Row} (hrow : isObjectRow row = false)
      (h : Inserted rows rows') : Inserted (row :: rows) (row :: rows')

def parsedObjects (rows : List Row) : Option (List Object) :=
  (parseRows rows).map fun st => st.mDOM.mObjects

/-- The file stops the parser anyway, no inserted row comes before the end row, or no object
takes the members of the inserted rows up. -/
def Harmless (rows rows' : List Row) : Prop :=
  (∃ row ∈ beforeEof rows, ¬ Acceptable row) ∨ beforeEof rows' = beforeEof rows ∨
    ((∀ row ∈ beforeEof rows', Acceptable row) ∧ ∀ row ∈ beforeEof rows, isObjectRow row = false)

def isMember (row : Row) : Bool := rowKind row == .member

theorem isMember_of_isMemberRow {row : Row} (h : IsMemberRow row) : isMember row = true := by
  rw [isMember, rowKind_member h.1 h.2]
  rfl

theorem isObjectRow_of_isMember {row : Row} (h : isMember row = true) : isObjectRow row = false := by
  rw [isMember, beq_iff_eq] at h
  rw [isObjectRow, h]
  rfl

theorem isEofRow_of_isMember {row : Row} (h : isMember row = true) : isEofRow row = false := by
  rw [isMember, beq_iff_eq] at h
  apply Bool.eq_false_iff.mpr
  intro he
  rw [rowKind_eq_endOfFile.mpr he] at h
  exact absurd h (by decide)

theorem Inserted.beforeEof {rows rows' : List Row} (h : Inserted rows rows') :
    Inserted (beforeEof rows) (beforeEof rows') := by
  induction h with
  | done rows => exact .done _
  | @stray row _ _ hrow _ ih =>
      rw [beforeEof_cons row, isEofRow_of_isMember (isMember_of_isMemberRow hrow)]
      exact .stray hrow ih
  | @keep row _ _ hrow _ ih =>
      rw [beforeEof_cons, beforeEof_cons]
      split_ifs
      · exact .done []
      · exact .keep hrow ih

theorem Inserted.sublist {rows rows' : List Row} (h : Inserted rows rows') : rows.Sublist rows' := by
  induction h with
  | done rows => exact .refl rows
  | stray _ _ ih => exact ih.cons _
  | keep _ _ ih => exact ih.cons_cons _

theorem Inserted.filter {rows rows' : List Row} (h : Inserted rows rows') :
    rows'.filter (fun row => !isMember row) = rows.filter fun row => !isMember row := by
  induction h with
  | done rows => rfl
  | stray hrow _ ih => simp [isMember_of_isMemberRow hrow, ih]
  | keep hrow _ ih => simp only [List.filter_cons, ih]

theorem Inserted.objects {rows rows' : List Row} (h : Inserted rows rows') :
    rows'.any isObjectRow = rows.any isObjectRow := by
  induction h with
  | done rows => rfl
  | stray hrow _ ih =>
      rw [List.any_cons, isObjectRow_of_isMember (isMember_of_isMemberRow hrow), Bool.false_or, ih]
  | keep hrow _ ih => rw [List.any_cons, List.any_cons, ih]

theorem Inserted.eq_of_countP {rows rows' : List Row} (h : Inserted rows rows')
    (hcount : rows'.countP isMember = rows.countP isMember) : rows' = rows := by
  have hrest : rows'.countP (fun row => !isMember row) = rows.countP fun row => !isMember row := by
    simpa only [List.countP_eq_length_filter] using congrArg List.length h.filter
  have hsplit : ∀ l : List Row, l.length = l.countP isMember + l.countP fun row => !isMember row := by
    intro l
    simpa using List.length_eq_countP_add_countP isMember (l := l)
  have hlength : rows'.length = rows.length := by rw [hsplit, hsplit rows, hcount, hrest]
  exact (h.sublist.eq_of_length hlength.symm).symm

def total : List Nat → Nat
  | [] => 0
  | n :: l => n + total l

theorem total_append (l l' : List Nat) : total (l ++ l') = total l + total l' := by
  induction l with
  | nil => exact (Nat.zero_add _).symm
  | cons n l ih => rw [List.cons_append, total, total, ih, Nat.add_assoc]

/-- The members recorded so far, those of the current object included. -/
def itemTotal (st : CreateDOMDef) : Nat := total (itemCounts st.mDOM) + st.mCurrentObject.mItems.length

theorem itemCounts_openObject_mDOM (st : CreateDOMDef) (row : Row) :
    itemCounts (openObject st row).mDOM = itemCounts (pushObject st).mDOM := by
  simp only [openObject, itemCounts]
  split_ifs
  · exact itemCounts_registerChild _ _ _
  · rfl

theorem itemTotal_openObject (st : CreateDOMDef) (row : Row) :
    itemTotal (openObject st row) = itemTotal st := by
  have hitems : (openObject st row).mCurrentObject.mItems = (pushObject st).mCurrentObject.mItems := rfl
  rw [itemTotal, itemCounts_openObject_mDOM, hitems, pushObject, itemTotal]
  split_ifs
  · simp [itemCounts, total_append, total]
  · rfl

theorem processArgs_itemTotal {st st' : CreateDOMDef} (hrun : st.mEndOfFile = false) {row : Row}
    (h : processArgs st row = some st') :
    itemTotal st' = itemTotal st + if isMember row then 1 else 0 := by
  cases hobj : isObjectRow row with
  | true =>
      obtain rfl := Option.some.inj ((processArgs_object hrun hobj).symm.trans h)
      have hno : isMember row = false := by
        apply Bool.eq_false_iff.mpr
        intro hm
        rw [isObjectRow_of_isMember hm] at hobj
        exact absurd hobj Bool.false_ne_true
      simp [itemTotal_openObject, hno]
  | false =>
      by_cases hk : rowKind row = .member
      · rw [processArgs_member hrun hk] at h
        obtain ⟨di, _, rfl⟩ := Option.map_eq_some_iff.mp h
        simp [itemTotal, addMember, isMember, hk, Nat.add_assoc]
      · obtain ⟨_, hcur, hobjects⟩ := processArgs_other hrun hobj hk h
        simp [itemTotal, itemCounts, hcur, hobjects, isMember, hk]

theorem foldlM_itemTotal {st cur : CreateDOMDef} {rows : List Row} (hrun : st.mEndOfFile = false)
    (heof : ∀ row ∈ rows, isEofRow row = false) (h : rows.foldlM processArgs st = some cur) :
    itemTotal cur = itemTotal st + rows.countP isMember := by
  induction rows generalizing st with
  | nil =>
      obtain rfl := Option.some.inj h
      rfl
  | cons row rows ih =>
      rw [List.forall_mem_cons] at heof
      rw [List.foldlM_cons] at h
      obtain ⟨st', hp, h⟩ := Option.bind_eq_some_iff.mp h
      rw [ih ((processArgs_mEndOfFile hrun hp).trans heof.1) heof.2 h, processArgs_itemTotal hrun hp,
        List.countP_cons, Nat.add_assoc, Nat.add_comm (List.countP _ _)]

theorem closeFile_itemTotal {st : CreateDOMDef} (h : st.mHaveObject = true) :
    total (itemCounts (closeFile st).mDOM) = itemTotal st := by
  rw [itemCounts_closeFile, if_pos h, total_append, itemTotal]
  rfl

theorem foldlM_mHaveObject {st cur : CreateDOMDef} {rows : List Row} (hrun : st.mEndOfFile = false)
    (heof : ∀ row ∈ rows, isEofRow row = false) (h : rows.foldlM processArgs st = some cur) :
    cur.mHaveObject = (st.mHaveObject || rows.any isObjectRow) := by
  have hlast : ∀ row ∈ rows.dropLast, isEofRow row = false := fun row hrow =>
    heof row ((List.dropLast_sublist _).subset hrow)
  exact congrArg Header.haveObject (foldlM_header hrun hlast h)

theorem foldlM_mObjects {st cur : CreateDOMDef} {rows : List Row} (hrun : st.mEndOfFile = false)
    (heof : ∀ row ∈ rows, isEofRow row = false) (hobj : ∀ row ∈ rows, isObjectRow row = false)
    (h : rows.foldlM processArgs st = some cur) : cur.mDOM.mObjects = st.mDOM.mObjects := by
  induction rows generalizing st with
  | nil =>
      obtain rfl := Option.some.inj h
      rfl
  | cons row rows ih =>
      rw [List.forall_mem_cons] at heof hobj
      rw [List.foldlM_cons] at h
      obtain ⟨st', hp, h⟩ := Option.bind_eq_some_iff.mp h
      rw [ih ((processArgs_mEndOfFile hrun hp).trans heof.1) heof.2 hobj.2 h]
      by_cases hk : rowKind row = .member
      · rw [processArgs_member hrun hk] at hp
        obtain ⟨di, _, rfl⟩ := Option.map_eq_some_iff.mp hp
        rfl
      · exact (processArgs_other hrun hobj.1 hk hp).2.2

theorem parsedObjects_beforeEof (rows : List Row) :
    parsedObjects rows = parsedObjects (beforeEof rows) := by
  have h := congrArg (Option.map DOM.mObjects) (parseRows_mDOM rows)
  rw [Option.map_map, Option.map_map] at h
  exact h

theorem parsedObjects_isSome (rows : List Row) :
    (parsedObjects rows).isSome ↔ ∀ row ∈ beforeEof rows, Acceptable row := by
  rw [parsedObjects, Option.isSome_map, parseRows, Option.isSome_map]
  exact foldlM_isSome rfl rows

theorem parsedObjects_eq_some {rows : List Row} {objects : List Object}
    (h : parsedObjects rows = some objects) :
    ∃ cur, (beforeEof rows).foldlM processArgs {} = some cur ∧
      objects = (closeFile cur).mDOM.mObjects := by
  rw [parsedObjects_beforeEof, parsedObjects, parseRows, Option.map_map] at h
  obtain ⟨cur, hcur, hobjects⟩ := Option.map_eq_some_iff.mp h
  exact ⟨cur, hcur, hobjects.symm⟩

theorem parsedObjects_nil {rows : List Row} (hobj : ∀ row ∈ beforeEof rows, isObjectRow row = false)
    {objects : List Object} (h : parsedObjects rows = some objects) : objects = [] := by
  obtain ⟨cur, hcur, rfl⟩ := parsedObjects_eq_some h
  have heof : ∀ row ∈ beforeEof rows, isEofRow row = false := fun row => mem_beforeEof
  have hobjects := foldlM_mObjects rfl heof hobj hcur
  have hopen := foldlM_mHaveObject rfl heof hcur
  rw [List.any_eq_false.mpr (by simpa using hobj)] at hopen
  have hsizes := itemCounts_closeFile cur
  rw [hopen, itemCounts, itemCounts, hobjects] at hsizes
  exact List.map_eq_nil_iff.mp hsizes

theorem parsedObjects_total {rows : List Row} (hobj : (beforeEof rows).any isObjectRow = true)
    {objects : List Object} (h : parsedObjects rows = some objects) :
    total (objects.map fun o => o.mItems.length) = (beforeEof rows).countP isMember := by
  obtain ⟨cur, hcur, rfl⟩ := parsedObjects_eq_some h
  have heof : ∀ row ∈ beforeEof rows, isEofRow row = false := fun row => mem_beforeEof
  have hopen := foldlM_mHaveObject rfl heof hcur
  rw [hobj, Bool.or_true] at hopen
  have htotal := foldlM_itemTotal rfl heof hcur
  rw [← closeFile_itemTotal hopen] at htotal
  simpa [itemTotal, itemCounts, total] using htotal

/-- Member rows before the first object row change the objects unless they are harmless. -/
theorem parsedObjects_inserted_iff {rows rows' : List Row} (h : Inserted rows rows') :
    parsedObjects rows' = parsedObjects rows ↔ Harmless rows rows' := by
  have hsub := h.beforeEof.sublist.subset
  have hsome := parsedObjects_isSome rows
  have hsome' := parsedObjects_isSome rows'
  by_cases hacc : ∀ row ∈ beforeEof rows, Acceptable row
  · have hstop : ¬ ∃ row ∈ beforeEof rows, ¬ Acceptable row := fun ⟨row, hrow, hno⟩ => hno (hacc row hrow)
    rw [Harmless, or_iff_right hstop]
    obtain ⟨objects, hobjects⟩ := Option.isSome_iff_exists.mp (hsome.mpr hacc)
    constructor
    · intro heq
      have hobjects' := heq.trans hobjects
      have hacc' := hsome'.mp (by rw [hobjects']; rfl)
      cases hobj : (beforeEof rows).any isObjectRow with
      | false => exact .inr ⟨hacc', by simpa using hobj⟩
      | true =>
          left
          apply h.beforeEof.eq_of_countP
          rw [← parsedObjects_total (h.beforeEof.objects.trans hobj) hobjects',
            parsedObjects_total hobj hobjects]
    · rintro (hsame | ⟨hacc', hobj⟩)
      · rw [parsedObjects_beforeEof, hsame, ← parsedObjects_beforeEof]
      · obtain ⟨objects', hobjects'⟩ := Option.isSome_iff_exists.mp (hsome'.mpr hacc')
        have hobj' : ∀ row ∈ beforeEof rows', isObjectRow row = false := by
          have hany := h.beforeEof.objects.trans (List.any_eq_false.mpr (by simpa using hobj))
          simpa using hany
        rw [hobjects, hobjects', parsedObjects_nil hobj hobjects, parsedObjects_nil hobj' hobjects']
  · -- A row that stops the parser is still there.
    have hacc' : ¬ ∀ row ∈ beforeEof rows', Acceptable row := fun hall =>
      hacc fun row hrow => hall row (hsub hrow)
    have hnone : parsedObjects rows = none := by
      rw [← Option.not_isSome_iff_eq_none, hsome]
      exact hacc
    have hnone' : parsedObjects rows' = none := by
      rw [← Option.not_isSome_iff_eq_none, hsome']
      exact hacc'
    refine iff_of_true (hnone'.trans hnone.symm) (.inl ?_)
    simpa using hacc

def strayRow : Row := [[], "x".toList, "u32".toList]

def namespaceRow : Row := ["Namespace".toList, "n".toList]

def classRow : Row := ["A".toList, [], "Class".toList]

theorem parsedObjects_namespaceRow :
    parsedObjects [strayRow, namespaceRow] = parsedObjects [namespaceRow] :=
  (parsedObjects_inserted_iff (.stray ⟨rfl, by simp [strayRow, arg]⟩ (.done [namespaceRow]))).mpr
    (.inr (.inr ⟨by decide, by decide⟩))

def memberNames (st : CreateDOMDef) : List (List Text) :=
  st.mDOM.mObjects.map fun o => o.mItems.map MemberVariable.mMember

/-- The stray member becomes a member of the class that comes later. -/
theorem parsedObjects_classRow :
    Inserted [classRow] [strayRow, classRow] ∧
      parsedObjects [strayRow, classRow] ≠ parsedObjects [classRow] ∧
      (parseCSV {} ("A,,Class".toList ++ [lf])).map memberNames = some [[]] ∧
      (parseCSV {} (",x,u32".toList ++ lf :: "A,,Class".toList ++ [lf])).map memberNames =
        some [["x".toList]] := by
  refine ⟨.stray ⟨rfl, by simp [strayRow, arg]⟩ (.done _), fun h => ?_, rfl, rfl⟩
  have hcount := congrArg (Option.map fun objects => objects.map fun o => o.mItems.length) h
  have hone : (parsedObjects [strayRow, classRow]).map
      (fun objects => objects.map fun o => o.mItems.length) = some [1] := rfl
  have hnone : (parsedObjects [classRow]).map
      (fun objects => objects.map fun o => o.mItems.length) = some [0] := rfl
  rw [hone, hnone] at hcount
  exact absurd hcount (by decide)

end SchemaCodeGen.Strays
