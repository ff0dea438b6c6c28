import SchemaCodeGen.Complete
import SchemaCodeGen.ParseCSV
import SchemaCodeGen.Printer
import Mathlib.Data.List.Chain

namespace SchemaCodeGen.PodGets

open CString Schema ParseCSV Complete Printer

/-- A method of an implementation class that returns its DOM as one of type `base`. The
format is that of its first line. -/
structure GetMethod where
  base : Text
  format : String
  deriving DecidableEq, Repr

def GetMethod.write (m : GetMethod) : List Call :=
  [code 0 "\n", code 1 m.format [m.base, m.base], code 1 "\x7b\n",
    code 2 "return &mDOM; // return the address of the DOM.\n", code 1 "\x7d\n", code 0 "\n"]

def rootGet (o : Object) : GetMethod where
  base := o.mName
  format := "virtual %s * get%s(void) // Declare virtual method to return DOM version of base class.\n"

def parentGet (o : Object) : GetMethod where
  base := o.mInheritsFrom
  format :=
    "virtual %s * get%s(void) override // Declare virtual method to return DOM version of base class.\n"

def ownGet (o : Object) : GetMethod where
  base := o.mName
  format := "virtual %s * get%s(void) // Declare virtual method to return the DOM version\n"

def multipleGet (o : Object) : GetMethod where
  base := o.mMultipleInherticance
  format := "virtual %s * get%s(void) override // Declare virtual method to return the DOM version " ++
    "based on multiple inheritance\n"

/-- Whether the object gets an implementation class beside the plain one. -/
def needsDef (o : Object) : Bool :=
  o.mItems.any MemberVariable.mIsArray || !o.mInheritsFrom.isEmpty ||
    o.mItems.any MemberVariable.mIsPointer || o.mItems.any (fun i => i.mType == "string".toList) ||
    o.mClone || o.mNeedsReflection

def needsDeepCopy (o : Object) : Bool :=
  !o.mInheritsFrom.isEmpty || o.mClone || o.mNeedsReflection || o.mItems.any MemberVariable.mIsPointer

def IsPrintedClass (o : Object) : Prop := o.mAlias = [] ∧ stricmp o.mType "Enum".toList = false

instance (o : Object) : Decidable (IsPrintedClass o) :=
  inferInstanceAs (Decidable (o.mAlias = [] ∧ stricmp o.mType "Enum".toList = false))

def getMethods (o : Object) : List GetMethod :=
  if IsPrintedClass o ∧ needsDef o = true ∧ needsDeepCopy o = true then
    if o.mInheritsFrom = [] then [rootGet o]
    else [parentGet o, ownGet o] ++ if o.mMultipleInherticance ≠ [] then [multipleGet o] else []
  else []

def saveGets (o : Object) : List Call := (getMethods o).flatMap GetMethod.write

def declares (o : Object) (a : Text) : Bool := (getMethods o).any fun m => m.base == a

/-- The class whose `get` method runs, and whose DOM it returns, when it is called on an object
of the first class of a chain. The most derived declaration overrides the others. -/
def dispatch (chain : List Object) (a : Text) : Option Object := chain.find? fun o => declares o a

/-- The implementation classes from a class to its root. No name of them repeats. -/
structure DefChain (d : DOM) (chain : List Object) : Prop where
  mem : ∀ o ∈ chain, o ∈ d.importComplete.mObjects
  printed : ∀ o ∈ chain, IsPrintedClass o
  linked : chain.IsChain fun o p => o.mInheritsFrom = p.mName
  root : ∀ o ∈ chain.getLast?, o.mInheritsFrom = []
  named : ∀ o ∈ chain, o.mName ≠ []
  nodup : (chain.map Object.mName).Nodup
  single : ∀ o ∈ chain, ∀ j ∈ d.importComplete.mObjects, j.mName = o.mName → j = o

@[simp] theorem parentGet_base (o : Object) : (parentGet o).base = o.mInheritsFrom := rfl
@[simp] theorem ownGet_base (o : Object) : (ownGet o).base = o.mName := rfl
@[simp] theorem multipleGet_base (o : Object) : (multipleGet o).base = o.mMultipleInherticance := rfl

theorem declares_derived {o : Object} (hp : IsPrintedClass o) (hb : o.mInheritsFrom ≠ []) (a : Text) :
    declares o a = true ↔
      o.mInheritsFrom = a ∨ o.mName = a ∨ (o.mMultipleInherticance ≠ [] ∧ o.mMultipleInherticance = a) := by
  have hdef : needsDef o = true := by simp [needsDef, hb]
  have hdeep : needsDeepCopy o = true := by simp [needsDeepCopy, hb]
  rw [declares, getMethods, if_pos ⟨hp, hdef, hdeep⟩, if_neg hb]
  by_cases hm : o.mMultipleInherticance = []
  · rw [if_neg (not_not_intro hm), List.append_nil, List.any_cons, List.any_cons, List.any_nil]
    simp [hm]
  · rw [if_pos hm, List.cons_append, List.cons_append, List.nil_append, List.any_cons, List.any_cons,
      List.any_cons, List.any_nil]
    simp [hm]

theorem mMultipleInherticance_eq {d : DOM} {o p : Object} (ho : o ∈ d.importComplete.mObjects)
    (hp : p ∈ d.importComplete.mObjects) (hlink : o.mInheritsFrom = p.mName) (hname : p.mName ≠ [])
    (hbase : p.mInheritsFrom ≠ [])
    (hsingle : ∀ j ∈ d.importComplete.mObjects, j.mName = p.mName → j = p) :
    o.mMultipleInherticance = p.mInheritsFrom := by
  rw [importComplete_mObjects] at ho hp hsingle
  obtain ⟨o₀, _, rfl⟩ := List.mem_map.mp ho
  obtain ⟨p₀, hp₀, rfl⟩ := List.mem_map.mp hp
  have hlink : o₀.mInheritsFrom = p₀.mName := hlink
  have hlast := foldl_last (fun j => o₀.mInheritsFrom = j.mName ∧ j.mInheritsFrom ≠ [])
    Object.mInheritsFrom d.mObjects o₀.mMultipleInherticance
  have hmem : p₀ ∈ d.mObjects.filter fun j => o₀.mInheritsFrom = j.mName ∧ j.mInheritsFrom ≠ [] :=
    List.mem_filter.mpr ⟨hp₀, by simpa using ⟨hlink, hbase⟩⟩
  have hmulti : multipleInheritance d.mObjects o₀ = p₀.mInheritsFrom := by
    rw [multipleInheritance, if_neg (hlink ▸ hname), hlast]
    cases hend : ((d.mObjects.filter fun j => o₀.mInheritsFrom = j.mName ∧ j.mInheritsFrom ≠ []).map
        Object.mInheritsFrom).getLast? with
    | none =>
        rw [List.getLast?_eq_none_iff, List.map_eq_nil_iff] at hend
        rw [hend] at hmem
        exact absurd hmem List.not_mem_nil
    | some b =>
        obtain ⟨j, hj, rfl⟩ := List.mem_map.mp (List.mem_of_getLast? hend)
        obtain ⟨hj, hjp⟩ := List.mem_filter.mp hj
        have hjname : j.mName = p₀.mName := by
          rw [← hlink]
          exact (of_decide_eq_true hjp).1.symm
        have heq : completed d.mObjects j = completed d.mObjects p₀ :=
          hsingle (completed d.mObjects j) (List.mem_map_of_mem hj) hjname
        have hbases := congrArg Object.mInheritsFrom heq
        exact hbases
  exact hmulti

section Chain

variable {d : DOM} {chain : List Object} {o p q : Object}

theorem DefChain.base_ne (h : DefChain d (o :: p :: chain)) : o.mInheritsFrom ≠ [] := by
  rw [(List.isChain_cons_cons.mp h.linked).1]
  exact h.named p (by simp)

theorem DefChain.declares_parent (h : DefChain d (o :: p :: chain)) : declares o p.mName = true := by
  rw [declares_derived (h.printed o (by simp)) h.base_ne]
  exact .inl (List.isChain_cons_cons.mp h.linked).1

theorem DefChain.declares_iff (h : DefChain d (o :: p :: q :: chain)) (a : Text) :
    declares o a = true ↔ o.mName = a ∨ p.mName = a ∨ q.mName = a := by
  have hlinks := List.isChain_cons_cons.mp h.linked
  have hbase : p.mInheritsFrom = q.mName := (List.isChain_cons_cons.mp hlinks.2).1
  have hq : q.mName ≠ [] := h.named q (by simp)
  have hmulti : o.mMultipleInherticance = q.mName := by
    rw [← hbase]
    exact mMultipleInherticance_eq (h.mem o (by simp)) (h.mem p (by simp)) hlinks.1
      (h.named p (by simp)) (hbase ▸ hq) (h.single p (by simp))
  rw [declares_derived (h.printed o (by simp)) h.base_ne, hlinks.1, hmulti, and_iff_right hq,
    or_left_comm]

theorem dispatch_cons_of_declares {a : Text} (h : declares o a = true) :
    dispatch (o :: chain) a = some o := List.find?_cons_of_pos h

theorem DefChain.dispatch_ne (h : DefChain d (o :: chain)) {a : Text} (hno : declares o a = false) :
    dispatch (o :: chain) a ≠ some o := by
  rw [dispatch, List.find?_cons_of_neg (by simp [hno])]
  intro hfind
  have hmem := List.mem_of_find?_eq_some hfind
  exact (List.nodup_cons.mp h.nodup).1 (List.mem_map_of_mem hmem)

/-- A call for an ancestor is answered by the class of the object itself exactly when the
ancestor is at most two steps up. -/
theorem dispatch_own_iff (h : DefChain d (o :: chain)) {k : Nat} {a : Object}
    (ha : (o :: chain)[k]? = some a) (hdecl : declares a a.mName = true) :
    dispatch (o :: chain) a.mName = some o ↔ k ≤ 2 := by
  match k, chain with
  | 0, chain =>
      obtain rfl : o = a := Option.some.inj ha
      exact iff_of_true (dispatch_cons_of_declares hdecl) (by omega)
  | 1, p :: chain =>
      obtain rfl : p = a := Option.some.inj ha
      exact iff_of_true (dispatch_cons_of_declares h.declares_parent) (by omega)
  | 2, p :: q :: chain =>
      obtain rfl : q = a := Option.some.inj ha
      have hq : declares o q.mName = true := (h.declares_iff q.mName).mpr (.inr (.inr rfl))
      exact iff_of_true (dispatch_cons_of_declares hq) (by omega)
  | k + 3, p :: q :: chain =>
      have hmem : a.mName ∈ chain.map Object.mName := List.mem_map_of_mem (List.mem_of_getElem? ha)
      have hnodup := h.nodup
      simp only [List.map_cons, List.nodup_cons, List.mem_cons, not_or] at hnodup
      obtain ⟨⟨_, _, ho⟩, ⟨_, hp⟩, hq, _⟩ := hnodup
      have hno : declares o a.mName = false := by
        rw [← Bool.not_eq_true, h.declares_iff]
        rintro (he | he | he)
        · exact ho (he ▸ hmem)
        · exact hp (he ▸ hmem)
        · exact hq (he ▸ hmem)
      exact iff_of_false (h.dispatch_ne hno) (by omega)
  | 1, [] | k + 2, [] => simp at ha
  | k + 2, [p] => simp at ha

end Chain

def classA : Object where
  mName := "A".toList
  mType := "Class".toList
  mChildren := ["B".toList]
  mClone := true
  mIsClass := true

def classB : Object where
  mName := "B".toList
  mType := "Class".toList
  mInheritsFrom := "A".toList
  mChildren := ["C".toList]
  mIsClass := true

def classC : Object where
  mName := "C".toList
  mType := "Class".toList
  mInheritsFrom := "B".toList
  mMultipleInherticance := "A".toList
  mChildren := ["D".toList]
  mIsClass := true

def classD : Object where
  mName := "D".toList
  mType := "Class".toList
  mInheritsFrom := "C".toList
  mMultipleInherticance := "B".toList
  mIsClass := true

def fourClasses : DOM where
  mObjects := [classA, classB, classC, classD]

theorem fourClasses_importComplete : fourClasses.importComplete.mObjects = fourClasses.mObjects := rfl

theorem fourChain : DefChain fourClasses [classD, classC, classB, classA] where
  mem := by
    rw [fourClasses_importComplete]
    simp [fourClasses]
  printed := by decide
  linked := by decide
  root := by simp [classA]
  named := by decide
  nodup := by decide
  single := by
    rw [fourClasses_importComplete]
    decide

theorem dispatch_grandparent :
    dispatch [classD, classC, classB, classA] "B".toList = some classD :=
  (dispatch_own_iff fourChain (k := 2) (a := classB) rfl rfl).mpr (by omega)

def fourText : Text :=
  "A,,Class,,,CLONE".toList ++ CsvReader.lf :: "B,,Class,A".toList ++ CsvReader.lf ::
    "C,,Class,B".toList ++ CsvReader.lf :: "D,,Class,C".toList ++ [CsvReader.lf]

/-- The great-grandparent declares the method, and the parent of the class answers. -/
theorem dispatch_greatGrandparent :
    (parseCSV {} fourText).map (fun st => st.mDOM.mObjects) = some fourClasses.mObjects ∧
      DefChain fourClasses [classD, classC, classB, classA] ∧ declares classA "A".toList = true ∧
      dispatch [classD, classC, classB, classA] "A".toList = some classC ∧ classC ≠ classD := by
  refine ⟨rfl, fourChain, rfl, rfl, ?_⟩
  intro h
  have hname : "C".toList = "D".toList := congrArg Object.mName h
  exact absurd hname (by decide)

end SchemaCodeGen.PodGets
