import SchemaCodeGen.Complete
import SchemaCodeGen.RowRuns

namespace SchemaCodeGen.Children

open CString CsvReader Schema ParseCSV FinalRow Rows RowRuns Complete

/-- The fields of an object that inheritance is recorded in. -/
structure Link where
  name : Text
  base : Text
  children : List Text
  deriving DecidableEq, Repr

def linkOf (o : Object) : Link := ⟨o.mName, o.mInheritsFrom, o.mChildren⟩

/-- Each object has the names of the objects that inherit from it, in their order and once. -/
def ChildrenComplete (links : List Link) : Prop :=
  ∀ k ∈ links, k.children = (links.filter fun i => i.base = k.name).map Link.name ∧ k.children.Nodup

def objectRows (rows : List Row) : List Row := (beforeEof rows).filter isObjectRow

def BasesFirst (rows : List Row) : Prop :=
  (∀ row ∈ rows, arg row 3 ≠ arg row 0) ∧ rows.Pairwise fun row later => arg row 3 ≠ arg later 0

instance (rows : List Row) : Decidable (BasesFirst rows) :=
  inferInstanceAs (Decidable (_ ∧ rows.Pairwise _))

def register (base name : Text) (k : Link) : Link :=
  if k.name = base then { k with children := k.children ++ [name] } else k

def openLink (links : List Link) (row : Row) : List Link :=
  links.map (register (arg row 3) (arg row 0)) ++ [⟨arg row 0, arg row 3, []⟩]

def childrenIn (rows : List Row) (name : Text) : List Text :=
  (rows.filter fun row => arg row 3 = name).map (arg · 0)

def linked : List Row → List Link
  | [] => []
  | row :: rows => ⟨arg row 0, arg row 3, childrenIn rows (arg row 0)⟩ :: linked rows

theorem childrenIn_cons (row : Row) (rows : List Row) (name : Text) :
    childrenIn (row :: rows) name =
      (if arg row 3 = name then [arg row 0] else []) ++ childrenIn rows name := by
  by_cases h : arg row 3 = name <;> simp [childrenIn, h]

theorem foldl_openLink (links : List Link) (rows : List Row) :
    rows.foldl openLink links =
      links.map (fun k => { k with children := k.children ++ childrenIn rows k.name }) ++ linked rows := by
  induction rows generalizing links with
  | nil => simp [childrenIn, linked]
  | cons row rows ih =>
      rw [List.foldl_cons, ih, openLink, List.map_append, List.append_assoc, List.map_map]
      congr 1
      apply List.map_congr_left
      intro k _
      by_cases h : arg row 3 = k.name
      · simp [register, childrenIn_cons, h]
      · simp [register, childrenIn_cons, h, Ne.symm h]

theorem mem_linked {rows : List Row} {k : Link} : k ∈ linked rows ↔
    ∃ earlier row later, rows = earlier ++ row :: later ∧
      k = ⟨arg row 0, arg row 3, childrenIn later (arg row 0)⟩ := by
  induction rows with
  | nil => simp [linked]
  | cons row rows ih =>
      rw [linked, List.mem_cons, ih]
      constructor
      · rintro (rfl | ⟨earlier, r, later, rfl, rfl⟩)
        · exact ⟨[], row, rows, rfl, rfl⟩
        · exact ⟨row :: earlier, r, later, rfl, rfl⟩
      · rintro ⟨earlier, r, later, hsplit, rfl⟩
        cases earlier with
        | nil =>
            obtain ⟨rfl, rfl⟩ := List.cons.inj hsplit
            exact .inl rfl
        | cons e earlier =>
            obtain ⟨rfl, rfl⟩ := List.cons.inj hsplit
            exact .inr ⟨earlier, r, later, rfl, rfl⟩

theorem linked_childrenIn (rows : List Row) (name : Text) :
    ((linked rows).filter fun i => i.base = name).map Link.name = childrenIn rows name := by
  induction rows with
  | nil => rfl
  | cons row rows ih =>
      rw [childrenIn_cons, linked, ← ih]
      by_cases h : arg row 3 = name <;> simp [h]

theorem childrenIn_append (rows later : List Row) (name : Text) :
    childrenIn (rows ++ later) name = childrenIn rows name ++ childrenIn later name := by
  simp [childrenIn]

theorem childrenIn_eq_nil {rows : List Row} {name : Text} :
    childrenIn rows name = [] ↔ ∀ row ∈ rows, arg row 3 ≠ name := by
  simp [childrenIn]

theorem basesFirst_iff {rows : List Row} : BasesFirst rows ↔
    ∀ earlier row later, rows = earlier ++ row :: later →
      ∀ child ∈ earlier ++ [row], arg child 3 ≠ arg row 0 := by
  induction rows with
  | nil => simp [BasesFirst]
  | cons first rows ih =>
      have hcons : BasesFirst (first :: rows) ↔ arg first 3 ≠ arg first 0 ∧
          (∀ later ∈ rows, arg first 3 ≠ arg later 0) ∧ BasesFirst rows := by
        rw [BasesFirst, BasesFirst, List.forall_mem_cons, List.pairwise_cons]
        exact ⟨fun ⟨⟨a, b⟩, c, d⟩ => ⟨a, c, b, d⟩, fun ⟨a, c, b, d⟩ => ⟨⟨a, b⟩, c, d⟩⟩
      rw [hcons, ih]
      constructor
      · rintro ⟨hself, hlater, hrest⟩ earlier row later hsplit child hchild
        cases earlier with
        | nil =>
            obtain ⟨rfl, rfl⟩ := List.cons.inj hsplit
            obtain rfl := List.mem_singleton.mp hchild
            exact hself
        | cons e earlier =>
            obtain ⟨rfl, rfl⟩ := List.cons.inj hsplit
            rcases List.mem_cons.mp hchild with rfl | hchild
            · exact hlater row (by simp)
            · exact hrest earlier row later rfl child hchild
      · intro h
        refine ⟨h [] first rows rfl first (by simp), fun later hlater => ?_, fun earlier row later hsplit => ?_⟩
        · obtain ⟨before, behind, rfl⟩ := List.append_of_mem hlater
          exact h (first :: before) later behind rfl first (by simp)
        · intro child hchild
          exact h (first :: earlier) row later (by rw [hsplit]; rfl) child (List.mem_cons_of_mem _ hchild)

theorem linked_complete_iff {rows : List Row} (hdistinct : (rows.map (arg · 0)).Nodup) :
    ChildrenComplete (linked rows) ↔ BasesFirst rows := by
  rw [basesFirst_iff, ChildrenComplete]
  simp only [linked_childrenIn, mem_linked]
  have hnodup : ∀ later name, later.Sublist rows → (childrenIn later name).Nodup := by
    intro later name hsub
    exact hdistinct.sublist ((List.filter_sublist.trans hsub).map _)
  have hcut : ∀ earlier row later, rows = earlier ++ row :: later →
      (childrenIn later (arg row 0) = childrenIn rows (arg row 0) ↔
        ∀ child ∈ earlier ++ [row], arg child 3 ≠ arg row 0) := by
    intro earlier row later hsplit
    rw [← childrenIn_eq_nil, hsplit, List.append_cons earlier row later, childrenIn_append]
    exact List.self_eq_append_left
  constructor
  · intro h earlier row later hsplit
    exact (hcut earlier row later hsplit).mp (h _ ⟨earlier, row, later, hsplit, rfl⟩).1
  · rintro h k ⟨earlier, row, later, hsplit, rfl⟩
    refine ⟨(hcut earlier row later hsplit).mpr (h earlier row later hsplit), ?_⟩
    apply hnodup
    rw [hsplit]
    exact (List.sublist_cons_self row later).trans (List.sublist_append_right _ _)

def links (st : CreateDOMDef) : List Link := (pushObject st).mDOM.mObjects.map linkOf

/-- The current object has no children yet and no base unless it is open, and no object is
without a name. -/
structure Tidy (st : CreateDOMDef) : Prop where
  children : st.mCurrentObject.mChildren = []
  base : st.mHaveObject = false → st.mCurrentObject.mInheritsFrom = []
  named : ∀ k ∈ links st, k.name ≠ []

theorem links_eq (st : CreateDOMDef) : links st =
    st.mDOM.mObjects.map linkOf ++ if st.mHaveObject then [linkOf st.mCurrentObject] else [] := by
  by_cases h : st.mHaveObject <;> simp [links, pushObject, h]

theorem linkOf_registerChild (base name : Text) (o : Object) :
    linkOf (registerChild base name o) = register base name (linkOf o) := by
  by_cases h : o.mName = base <;> simp [registerChild, register, linkOf, h]

theorem register_nil {l : List Link} (hnamed : ∀ k ∈ l, k.name ≠ []) (name : Text) :
    l.map (register [] name) = l := by
  calc l.map (register [] name) = l.map id := by
        apply List.map_congr_left
        intro k hk
        rw [register, if_neg (hnamed k hk)]
        rfl
    _ = l := List.map_id l

theorem pushObject_current {st : CreateDOMDef} (h : Tidy st) :
    (pushObject st).mCurrentObject.mInheritsFrom = [] ∧ (pushObject st).mCurrentObject.mChildren = [] := by
  rw [pushObject]
  split_ifs with hopen
  · exact ⟨rfl, rfl⟩
  · exact ⟨h.base (by simpa using hopen), h.children⟩

theorem openObject_links {st : CreateDOMDef} (h : Tidy st) {row : Row} (hname : arg row 0 ≠ []) :
    links (openObject st row) = openLink (links st) row ∧ Tidy (openObject st row) := by
  obtain ⟨hbase, hchildren⟩ := pushObject_current h
  have hcur : linkOf (objectFields row (pushObject st).mCurrentObject) = ⟨arg row 0, arg row 3, []⟩ := by
    simp only [linkOf, objectFields, hbase, hchildren, Link.mk.injEq, and_true, true_and]
    split_ifs with h4
    · rfl
    · exact (arg_eq_nil (by omega)).symm
  have hlinks : links (openObject st row) = openLink (links st) row := by
    rw [links_eq]
    simp only [openObject, if_true, hcur, openLink]
    congr 1
    split_ifs with h4
    · rw [links, List.map_map, List.map_map]
      apply List.map_congr_left
      intro o _
      exact linkOf_registerChild _ _ o
    · rw [arg_eq_nil (by omega), register_nil h.named]
      rfl
  refine ⟨hlinks, ?_, by simp [openObject], ?_⟩
  · exact hchildren
  · rw [hlinks]
    intro k hk
    rw [openLink, List.mem_append, List.mem_map, List.mem_singleton] at hk
    rcases hk with ⟨k₀, hk₀, rfl⟩ | rfl
    · simp only [register]
      split_ifs <;> exact h.named k₀ hk₀
    · exact hname

theorem rowName_ne {row : Row} (h : isObjectRow row = true) : arg row 0 ≠ [] := by
  rw [isObjectRow, beq_iff_eq, rowKind] at h
  cases hf : keywords.find? (fun k => stricmp (arg row 0) k.1) with
  | some k =>
      rw [hf] at h
      have hall : ∀ k ∈ keywords, k.2 ≠ RowKind.object := by decide
      exact absurd h (hall k (List.mem_of_find?_eq_some hf))
  | none =>
      rw [hf] at h
      simp only at h
      split_ifs at h with hne
      exact hne

theorem processArgs_links {st st' : CreateDOMDef} (hrun : st.mEndOfFile = false) (htidy : Tidy st)
    {row : Row} (h : processArgs st row = some st') :
    links st' = (if isObjectRow row then openLink (links st) row else links st) ∧ Tidy st' := by
  cases hobj : isObjectRow row with
  | true =>
      obtain rfl := Option.some.inj ((processArgs_object hrun hobj).symm.trans h)
      exact openObject_links htidy (rowName_ne hobj)
  | false =>
      have hsame : links st' = links st ∧ st'.mHaveObject = st.mHaveObject ∧
          linkOf st'.mCurrentObject = linkOf st.mCurrentObject := by
        by_cases hk : rowKind row = .member
        · rw [processArgs_member hrun hk] at h
          obtain ⟨di, _, rfl⟩ := Option.map_eq_some_iff.mp h
          rw [links_eq, links_eq]
          exact ⟨rfl, rfl, rfl⟩
        · obtain ⟨hhave, hcur, hobjects⟩ := processArgs_other hrun hobj hk h
          rw [links_eq, links_eq, hhave, hcur, hobjects]
          exact ⟨rfl, rfl, rfl⟩
      obtain ⟨hlinks, hhave, hcur⟩ := hsame
      simp only [linkOf, Link.mk.injEq] at hcur
      refine ⟨hlinks, hcur.2.2.trans htidy.children, fun hidle => ?_, hlinks ▸ htidy.named⟩
      exact hcur.2.1.trans (htidy.base (hhave.symm.trans hidle))

theorem foldlM_links {st cur : CreateDOMDef} {rows : List Row} (hrun : st.mEndOfFile = false)
    (heof : ∀ row ∈ rows, isEofRow row = false) (htidy : Tidy st)
    (h : rows.foldlM processArgs st = some cur) :
    links cur = (rows.filter isObjectRow).foldl openLink (links st) := by
  induction rows generalizing st with
  | nil =>
      obtain rfl := Option.some.inj h
      rfl
  | cons row rows ih =>
      rw [List.forall_mem_cons] at heof
      rw [List.foldlM_cons] at h
      obtain ⟨st', hp, h⟩ := Option.bind_eq_some_iff.mp h
      obtain ⟨hlinks, htidy'⟩ := processArgs_links hrun htidy hp
      rw [ih ((processArgs_mEndOfFile hrun hp).trans heof.1) heof.2 htidy' h, hlinks, List.filter_cons]
      split_ifs <;> rfl

theorem tidy_fresh : Tidy {} := ⟨rfl, fun _ => rfl, by simp [links, pushObject]⟩

theorem parseRows_links {rows : List Row} {st : CreateDOMDef} (h : parseRows rows = some st) :
    st.mDOM.mObjects.map linkOf = linked (objectRows rows) := by
  have hdom := parseRows_mDOM rows
  rw [h, parseRows, Option.map_map] at hdom
  obtain ⟨cur, hcur, hst⟩ := Option.map_eq_some_iff.mp hdom.symm
  have hst : (closeFile cur).mDOM = st.mDOM := hst
  have hlinks := foldlM_links rfl (fun row => mem_beforeEof) tidy_fresh hcur
  rw [← hst, closeFile, importComplete_mObjects, List.map_map]
  rw [foldl_openLink] at hlinks
  exact hlinks

/-- The children of all objects are complete exactly when the bases come first. -/
theorem parseRows_childrenComplete_iff {rows : List Row} {st : CreateDOMDef}
    (h : parseRows rows = some st) (hdistinct : ((objectRows rows).map (arg · 0)).Nodup) :
    ChildrenComplete (st.mDOM.mObjects.map linkOf) ↔ BasesFirst (objectRows rows) := by
  rw [parseRows_links h]
  exact linked_complete_iff hdistinct

def classRow (name base : String) : Row := [name.toList, [], "Class".toList, base.toList]

def parentFirst : List Row := [classRow "A" "", classRow "B" "A", classRow "C" "A", classRow "D" "B"]

theorem childrenComplete_parentFirst :
    ∃ st, parseRows parentFirst = some st ∧ ChildrenComplete (st.mDOM.mObjects.map linkOf) := by
  have hsome : (parseRows parentFirst).isSome = true := rfl
  obtain ⟨st, hst⟩ := Option.isSome_iff_exists.mp hsome
  exact ⟨st, hst, (parseRows_childrenComplete_iff hst (by decide)).mpr (by decide)⟩

def childFirst : List Row := [classRow "B" "A", classRow "A" ""]

/-- A child that comes before its parent is not recorded. -/
theorem not_childrenComplete_childFirst :
    calls ("B,,Class,A".toList ++ lf :: "A,,Class,".toList ++ [lf]) = some childFirst ∧
      (parseRows childFirst).map (fun st => st.mDOM.mObjects.map linkOf) =
        some [⟨"B".toList, "A".toList, []⟩, ⟨"A".toList, [], []⟩] ∧
      ¬ ChildrenComplete [⟨"B".toList, "A".toList, []⟩, ⟨"A".toList, [], []⟩] := by
  refine ⟨rfl, rfl, fun h => ?_⟩
  have hparent := (h ⟨"A".toList, [], []⟩ (by simp)).1
  exact absurd hparent (by decide)

end SchemaCodeGen.Children
