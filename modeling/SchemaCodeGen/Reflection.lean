import SchemaCodeGen.Complete
import SchemaCodeGen.ParseCSV

namespace SchemaCodeGen.Reflection

open CString Schema ParseCSV Complete

/-- An array, a pointer or a string is somewhere inside the object. -/
inductive NeedsReflection (objects : List Object) : Object → Prop
  | direct {o : Object} {i : MemberVariable} (hi : i ∈ o.mItems) (h : i.needsReflection = true) :
      NeedsReflection objects o
  | nested {o j : Object} {i : MemberVariable} (hi : i ∈ o.mItems) (hj : j ∈ objects)
      (hname : j.mName = i.mType) (h : NeedsReflection objects j) : NeedsReflection objects o

def IsMarkedType (objects : List Object) (type : Text) : Prop :=
  ∃ j ∈ objects, j.mName = type ∧ j.mNeedsReflection = true

/-- Objects are marked when they need reflection, and members by the marks of their types. -/
structure Transitive (objects : List Object) : Prop where
  object : ∀ o ∈ objects, o.mNeedsReflection = true ↔ NeedsReflection objects o
  member : ∀ o ∈ objects, ∀ i ∈ o.mItems, i.mIsPointer = false → i.mIsString = false →
    (i.mNeedsReflection = true ↔ IsMarkedType objects i.mType)

/-- A member that holds an object with an array, pointer or string member has such a
member beside it. -/
def OneLevel (objects : List Object) : Prop :=
  ∀ o ∈ objects, ∀ i ∈ o.mItems, ∀ j ∈ objects, j.mName = i.mType → hasReflection j = true →
    hasReflection o = true

theorem Transitive.equation {objects : List Object} (h : Transitive objects) {o : Object}
    (ho : o ∈ objects) : o.mNeedsReflection = true ↔
      ∃ i ∈ o.mItems, i.needsReflection = true ∨ IsMarkedType objects i.mType := by
  rw [h.object o ho]
  constructor
  · intro hneeds
    cases hneeds with
    | direct hi hr => exact ⟨_, hi, .inl hr⟩
    | nested hi hj hname hneeds => exact ⟨_, hi, .inr ⟨_, hj, hname, (h.object _ hj).mpr hneeds⟩⟩
  · rintro ⟨i, hi, hr | ⟨j, hj, hname, hmark⟩⟩
    · exact .direct hi hr
    · exact .nested hi hj hname ((h.object j hj).mp hmark)

theorem hasReflection_iff {o : Object} :
    hasReflection o = true ↔ ∃ i ∈ o.mItems, i.needsReflection = true := by
  rw [hasReflection, List.any_eq_true]

theorem hasReflection_completed (objects : List Object) (o : Object) :
    hasReflection (completed objects o) = hasReflection o := by
  simp only [hasReflection, completed, List.any_map]
  rfl

theorem mem_reflectedNames {objects : List Object} {name : Text} :
    name ∈ reflectedNames objects ↔ ∃ j ∈ objects, j.mName = name ∧ hasReflection j = true := by
  simp only [reflectedNames, List.mem_map, List.mem_filter]
  exact ⟨fun ⟨j, ⟨hj, hr⟩, hn⟩ => ⟨j, hj, hn, hr⟩, fun ⟨j, hj, hn, hr⟩ => ⟨j, ⟨hj, hr⟩, hn⟩⟩

theorem isMarkedType_completed (objects : List Object) (type : Text) :
    IsMarkedType (objects.map (completed objects)) type ↔ type ∈ reflectedNames objects := by
  rw [mem_reflectedNames, IsMarkedType]
  simp only [List.mem_map, exists_exists_and_eq_and]
  rfl

theorem member_completed (objects : List Object) {o : Object}
    (ho : o ∈ objects.map (completed objects)) {i : MemberVariable} (hi : i ∈ o.mItems)
    (hp : i.mIsPointer = false) (hs : i.mIsString = false) :
    i.mNeedsReflection = true ↔ IsMarkedType (objects.map (completed objects)) i.mType := by
  obtain ⟨o₀, _, rfl⟩ := List.mem_map.mp ho
  obtain ⟨i₀, _, rfl⟩ := List.mem_map.mp hi
  rw [isMarkedType_completed]
  have hplain : (i₀.mIsPointer || i₀.mIsString) = false := by
    rw [Bool.or_eq_false_iff]
    exact ⟨hp, hs⟩
  simp only [MemberVariable.memberNeedsReflection, hplain, Bool.false_eq_true, if_false]
  exact List.contains_iff_mem

theorem marked_of_needsReflection {objects : List Object} (hone : OneLevel objects) {o : Object}
    (h : NeedsReflection (objects.map (completed objects)) o)
    (ho : o ∈ objects.map (completed objects)) : hasReflection o = true := by
  induction h with
  | direct hi hr => exact hasReflection_iff.mpr ⟨_, hi, hr⟩
  | nested hi hj hname _ ih =>
      have hmark := ih hj
      obtain ⟨o₀, ho₀, rfl⟩ := List.mem_map.mp ho
      obtain ⟨j₀, hj₀, rfl⟩ := List.mem_map.mp hj
      obtain ⟨i₀, hi₀, rfl⟩ := List.mem_map.mp hi
      rw [hasReflection_completed] at hmark ⊢
      exact hone o₀ ho₀ i₀ hi₀ j₀ hj₀ hname hmark

/-- The marks are transitive exactly when no object needs its members' types looked into. -/
theorem importComplete_transitive_iff (d : DOM) :
    Transitive d.importComplete.mObjects ↔ OneLevel d.mObjects := by
  rw [importComplete_mObjects]
  have hmark : ∀ o ∈ d.mObjects.map (completed d.mObjects), o.mNeedsReflection = hasReflection o := by
    intro o ho
    obtain ⟨o₀, _, rfl⟩ := List.mem_map.mp ho
    exact (hasReflection_completed _ _).symm
  constructor
  · intro h o ho i hi j hj hname hr
    have hneeds : NeedsReflection (d.mObjects.map (completed d.mObjects)) (completed d.mObjects o) := by
      obtain ⟨k, hk, hkr⟩ := hasReflection_iff.mp ((hasReflection_completed d.mObjects j).trans hr)
      apply NeedsReflection.nested (List.mem_map_of_mem hi) (List.mem_map_of_mem hj) hname
      exact .direct hk hkr
    exact (h.object _ (List.mem_map_of_mem ho)).mpr hneeds
  · intro hone
    refine ⟨fun o ho => ?_, fun o ho i hi hp hs => member_completed _ ho hi hp hs⟩
    rw [hmark o ho]
    constructor
    · intro hr
      obtain ⟨i, hi, hir⟩ := hasReflection_iff.mp hr
      exact .direct hi hir
    · exact fun hneeds => marked_of_needsReflection hone hneeds ho

def holder : Object where
  mName := "A".toList
  mType := "Class".toList
  mIsClass := true
  mNeedsReflection := true
  mItems :=
    [{ mMember := "s".toList, mType := "string".toList, mIsString := true, mNeedsReflection := true }]

def user : Object where
  mName := "B".toList
  mType := "Class".toList
  mIsClass := true
  mItems := [{ mMember := "a".toList, mType := "A".toList, mNeedsReflection := true }]

def nestedText : Text :=
  "A,,Class".toList ++ CsvReader.lf :: ",s,string".toList ++ CsvReader.lf ::
    "B,,Class".toList ++ CsvReader.lf :: ",a,A".toList ++ [CsvReader.lf]

theorem needsReflection_user : NeedsReflection [holder, user] user := by
  apply NeedsReflection.nested (j := holder) (List.mem_singleton_self _) List.mem_cons_self rfl
  exact .direct (List.mem_singleton_self _) rfl

/-- The member of type `A` is marked, but the object that has it is not. -/
theorem parseCSV_nested :
    (parseCSV {} nestedText).map (fun st => st.mDOM.mObjects) = some [holder, user] ∧
      user.mNeedsReflection = false ∧ ¬ Transitive [holder, user] := by
  refine ⟨rfl, rfl, fun h => ?_⟩
  have hmark := (h.object user (List.mem_cons_of_mem _ (List.mem_singleton_self _))).mpr
    needsReflection_user
  exact absurd hmark Bool.false_ne_true

end SchemaCodeGen.Reflection
