import SchemaCodeGen.Schema

namespace SchemaCodeGen.Complete

open CString Schema

def hasReflection (o : Object) : Bool := o.mItems.any MemberVariable.needsReflection

def reflectedNames (objects : List Object) : List Text :=
  (objects.filter hasReflection).map Object.mName

def multipleInheritance (objects : List Object) (o : Object) : Text :=
  if o.mInheritsFrom = [] then o.mMultipleInherticance
  else
    objects.foldl (fun m j =>
      if o.mInheritsFrom = j.mName ∧ j.mInheritsFrom ≠ [] then j.mInheritsFrom else m)
      o.mMultipleInherticance

def completed (objects : List Object) (o : Object) : Object :=
  { o with
    mNeedsReflection := hasReflection o
    mItems := o.mItems.map (MemberVariable.memberNeedsReflection (reflectedNames objects))
    mMultipleInherticance := multipleInheritance objects o
    mIsEnum := if stricmp o.mType "Enum".toList then true else o.mIsEnum
    mIsClass := if stricmp o.mType "Class".toList then true else o.mIsClass }

theorem multipleInheritance_map {f : Object → Object} (hname : ∀ o, (f o).mName = o.mName)
    (hbase : ∀ o, (f o).mInheritsFrom = o.mInheritsFrom) (objects : List Object) (o : Object) :
    multipleInheritance (objects.map f) o = multipleInheritance objects o := by
  simp only [multipleInheritance, List.foldl_map, hname, hbase]

theorem importComplete_mObjects (d : DOM) :
    d.importComplete.mObjects = d.mObjects.map (completed d.mObjects) := by
  have hnames : ((d.mObjects.map Object.computeNeedsReflection).filter Object.mNeedsReflection).map
      Object.mName = reflectedNames d.mObjects := by
    rw [List.filter_map, List.map_map]
    rfl
  have hmulti : ∀ objects, ∀ o : Object, (o.computeMultipleInheritance objects) =
      { o with mMultipleInherticance := multipleInheritance objects o } := by
    intro objects o
    simp only [multipleInheritance, Object.computeMultipleInheritance]
    split_ifs <;> rfl
  have hmarked : ∀ o : Object, multipleInheritance ((d.mObjects.map Object.computeNeedsReflection).map
      (Object.computeReflectionMembers (reflectedNames d.mObjects)))
      (Object.computeReflectionMembers (reflectedNames d.mObjects) o.computeNeedsReflection) =
        multipleInheritance d.mObjects o := by
    intro o
    rw [multipleInheritance_map (f := Object.computeReflectionMembers _) (fun _ => rfl) (fun _ => rfl),
      multipleInheritance_map (f := Object.computeNeedsReflection) (fun _ => rfl) (fun _ => rfl)]
    rfl
  simp only [DOM.importComplete, hnames]
  rw [List.map_map, List.map_map, List.map_map]
  apply List.map_congr_left
  intro o _
  simp only [Function.comp_apply]
  rw [hmulti, hmarked]
  rfl

def outline (o : Object) : Text × Text × Bool := (o.mName, o.mInheritsFrom, hasReflection o)

theorem multipleInheritance_congr {l l' : List Object} (h : l.map outline = l'.map outline) (o : Object) :
    multipleInheritance l o = multipleInheritance l' o := by
  have hfold : ∀ l : List Object, ∀ m : Text,
      l.foldl (fun m j =>
        if o.mInheritsFrom = j.mName ∧ j.mInheritsFrom ≠ [] then j.mInheritsFrom else m) m =
      (l.map outline).foldl (fun m e => if o.mInheritsFrom = e.1 ∧ e.2.1 ≠ [] then e.2.1 else m) m := by
    intro l m
    rw [List.foldl_map]
    rfl
  rw [multipleInheritance, multipleInheritance, hfold, hfold, h]

theorem reflectedNames_congr {l l' : List Object} (h : l.map outline = l'.map outline) :
    reflectedNames l = reflectedNames l' := by
  have hnames : ∀ l : List Object,
      reflectedNames l = ((l.map outline).filter fun e => e.2.2).map Prod.fst := by
    intro l
    rw [List.filter_map, List.map_map]
    rfl
  rw [hnames, hnames, h]

theorem completed_congr {l l' : List Object} (h : l.map outline = l'.map outline) :
    completed l = completed l' := by
  funext o
  rw [completed, completed, reflectedNames_congr h, multipleInheritance_congr h]

theorem outline_completed (l : List Object) (o : Object) : outline (completed l o) = outline o := by
  simp only [outline, hasReflection, completed, List.any_map]
  rfl

theorem foldl_last {α β : Type} (p : α → Prop) [DecidablePred p] (f : α → β) (l : List α) (m : β) :
    l.foldl (fun m a => if p a then f a else m) m =
      (((l.filter fun a => p a).map f).getLast?).getD m := by
  induction l generalizing m with
  | nil => rfl
  | cons a l ih =>
      rw [List.foldl_cons, ih]
      by_cases h : p a
      · rw [if_pos h, List.filter_cons_of_pos (by simpa using h), List.map_cons, List.getLast?_cons]
        rfl
      · rw [if_neg h, List.filter_cons_of_neg (by simpa using h)]

theorem completed_completed (l l' : List Object) (o : Object) :
    completed (l ++ l') (completed l o) = completed (l ++ l') o := by
  have hreflection : hasReflection (completed l o) = hasReflection o := by
    simp only [hasReflection, completed, List.any_map]
    rfl
  have hitems : ((completed l o).mItems.map
      (MemberVariable.memberNeedsReflection (reflectedNames (l ++ l')))) =
        o.mItems.map (MemberVariable.memberNeedsReflection (reflectedNames (l ++ l'))) := by
    simp only [completed, List.map_map]
    rfl
  have hmulti : multipleInheritance (l ++ l') (completed l o) = multipleInheritance (l ++ l') o := by
    have hstart : multipleInheritance (l ++ l') (completed l o) =
        if o.mInheritsFrom = [] then multipleInheritance l o
        else (l ++ l').foldl (fun m j =>
          if o.mInheritsFrom = j.mName ∧ j.mInheritsFrom ≠ [] then j.mInheritsFrom else m)
          (multipleInheritance l o) := rfl
    rw [hstart, multipleInheritance, multipleInheritance]
    split_ifs with hbase
    · rfl
    · have hlast := foldl_last (fun j => o.mInheritsFrom = j.mName ∧ j.mInheritsFrom ≠ [])
        Object.mInheritsFrom
      rw [hlast, hlast, hlast, List.filter_append, List.map_append, List.getLast?_append]
      generalize (List.map Object.mInheritsFrom (l'.filter _)).getLast? = last'
      generalize (List.map Object.mInheritsFrom (l.filter _)).getLast? = last
      cases last' <;> cases last <;> rfl
  rw [completed, hreflection, hitems, hmulti]
  simp only [completed, Object.mk.injEq, true_and, and_true]
  constructor <;> split_ifs <;> rfl

end SchemaCodeGen.Complete
