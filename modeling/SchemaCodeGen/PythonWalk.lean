import SchemaCodeGen.ParseCSV
import SchemaCodeGen.Printer
import SchemaCodeGen.Walks

namespace SchemaCodeGen.PythonWalk

open CString Schema ParseCSV Printer Relation

def typeInfo (d : DOM) (typeName : Text) : Option Object := d.findObject typeName

/-- The loop that pushes the parents of `t`, with the number of rounds it may take. The error
is the base name that was not found. -/
def parents (d : DOM) : Nat → Object → List Object → Option (Except Text (List Object))
  | 0, _, _ => none
  | rounds + 1, t, pushed =>
      if t.mInheritsFrom = [] then some (.ok pushed)
      else match typeInfo d t.mInheritsFrom with
        | none => some (.error t.mInheritsFrom)
        | some p => parents d rounds p (p :: pushed)

def lowerFirst : Text → Text
  | [] => []
  | c :: s => c.toLower :: s

def slices (baseSlice : Text) : List Object → List Call × Text
  | [] => ([], baseSlice)
  | p :: ps =>
      let nextSlice := lowerFirst p.mName
      let rest := slices nextSlice ps
      (code 2 "%s_data = %s_data['%s']\n" [nextSlice, baseSlice, nextSlice] :: rest.1, rest.2)

/-- The end of `as_data` for the parents of `o`, the root first. -/
def baseSlices (o : Object) : List Object → List Call
  | [] => []
  | p :: ps =>
      let rootSlice := lowerFirst p.mName
      let inner := slices rootSlice ps
      code 2 "%s_data = super().as_data()\n" [rootSlice] ::
        (inner.1 ++ [code 2 "%s_data['%s'] = data\n" [inner.2, lowerFirst o.mName],
          code 2 "return %s_data\n" [rootSlice]])

/-- What `savePython` prints of `as_data` behind the data of the members. Enums have no class. -/
def savePythonBase (d : DOM) (rounds : Nat) (o : Object) : Option (Except Text (List Call)) :=
  if stricmp o.mType "Enum".toList then some (.ok [])
  else match typeInfo d o.mName with
    | none => some (.error o.mName)
    | some type =>
        if type.mInheritsFrom = [] then some (.ok [code 2 "return data\n"])
        else (parents d rounds type []).map (Except.map (baseSlices o))

/-- Some number of rounds is enough for the walk. -/
def WalkEnds (d : DOM) (o : Object) : Prop := ∃ rounds, (savePythonBase d rounds o).isSome

def nextBase (d : DOM) (t : Object) : Option Object :=
  if t.mInheritsFrom = [] then none else typeInfo d t.mInheritsFrom

def IsBase (d : DOM) (t p : Object) : Prop := t.mInheritsFrom ≠ [] ∧ typeInfo d t.mInheritsFrom = some p

theorem step_nextBase (d : DOM) : Walks.Step (nextBase d) = IsBase d := by
  funext t p
  apply propext
  rw [Walks.Step, nextBase, IsBase]
  split_ifs with h
  · exact iff_of_false (by simp) fun hb => hb.1 h
  · exact (and_iff_right h).symm

theorem nextBase_finite (d : DOM) : {p | ∃ t, nextBase d t = some p}.Finite := by
  apply d.mObjects.finite_toSet.subset
  rintro p ⟨t, ht⟩
  have hbase : IsBase d t p := step_nextBase d ▸ ht
  obtain ⟨i, _, hi⟩ := Option.bind_eq_some_iff.mp hbase.2
  exact List.mem_of_getElem? hi

theorem parents_isSome (d : DOM) (rounds : Nat) (t : Object) (pushed : List Object) :
    (parents d rounds t pushed).isSome ↔ Walks.after (nextBase d) rounds t = none := by
  induction rounds generalizing t pushed with
  | zero => simp [parents, Walks.after]
  | succ rounds ih =>
      rw [parents, Walks.after, nextBase]
      split_ifs with h
      · simp
      · cases hp : typeInfo d t.mInheritsFrom with
        | none => simp
        | some p => exact ih p (p :: pushed)

theorem walkEnds_of_class {d : DOM} {o t : Object} (hclass : stricmp o.mType "Enum".toList = false)
    (ht : typeInfo d o.mName = some t) : WalkEnds d o ↔ Walks.Ends (nextBase d) t := by
  have hrounds : ∀ rounds, (savePythonBase d rounds o).isSome ↔
      t.mInheritsFrom = [] ∨ Walks.after (nextBase d) rounds t = none := by
    intro rounds
    rw [savePythonBase, hclass, if_neg Bool.false_ne_true, ht]
    simp only
    split_ifs with hroot
    · simp [hroot]
    · rw [Option.isSome_map, parents_isSome, or_iff_right hroot]
  simp only [WalkEnds, hrounds, Walks.Ends]
  constructor
  · rintro ⟨rounds, hroot | hend⟩
    · exact ⟨1, by simp [Walks.after, nextBase, hroot]⟩
    · exact ⟨rounds, hend⟩
  · rintro ⟨rounds, hend⟩
    exact ⟨rounds, .inr hend⟩

/-- The walk over the bases of a class ends exactly when nothing on it is its own ancestor. -/
theorem walkEnds_iff (d : DOM) (o : Object) :
    WalkEnds d o ↔ (stricmp o.mType "Enum".toList = false → ∀ t, typeInfo d o.mName = some t →
      ∀ p, ReflTransGen (IsBase d) t p → ¬ TransGen (IsBase d) p p) := by
  cases hclass : stricmp o.mType "Enum".toList with
  | true =>
      have hends : WalkEnds d o := ⟨0, by rw [savePythonBase, hclass]; rfl⟩
      simp [hends]
  | false =>
      cases ht : typeInfo d o.mName with
      | none =>
          have hends : WalkEnds d o := ⟨0, by rw [savePythonBase, hclass, ht]; rfl⟩
          simp [hends]
      | some t =>
          rw [walkEnds_of_class hclass ht, Walks.ends_iff (nextBase_finite d), Walks.Acyclic,
            step_nextBase]
          simp

def ownBase : Object where
  mName := "A".toList
  mType := "Class".toList
  mInheritsFrom := "A".toList
  mMultipleInherticance := "A".toList
  mIsClass := true

def ownBaseDOM : DOM where
  mObjects := [ownBase]
  mObjectMap := [("A".toList, 0)]

theorem parents_ownBase (rounds : Nat) (pushed : List Object) :
    parents ownBaseDOM rounds ownBase pushed = none := by
  induction rounds generalizing pushed with
  | zero => rfl
  | succ rounds ih => exact ih (ownBase :: pushed)

theorem parseCSV_ownBase :
    (parseCSV {} ("A,,Class,A".toList ++ [CsvReader.lf])).map CreateDOMDef.mDOM = some ownBaseDOM ∧
      ownBase ∈ ownBaseDOM.mObjects ∧ ¬ WalkEnds ownBaseDOM ownBase := by
  refine ⟨rfl, List.mem_singleton_self _, ?_⟩
  rintro ⟨rounds, h⟩
  have hnone : savePythonBase ownBaseDOM rounds ownBase = none :=
    congrArg (Option.map _) (parents_ownBase rounds [])
  rw [hnone] at h
  exact absurd h (by decide)

end SchemaCodeGen.PythonWalk
