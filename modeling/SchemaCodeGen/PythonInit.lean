import SchemaCodeGen.Initializers
import SchemaCodeGen.PythonData
import SchemaCodeGen.PythonWalk

namespace SchemaCodeGen.PythonInit

open CString Schema Emit Header CNumber Printer ParseCSV PythonData PythonWalk EnumBackends Initializers Relation

/-- Numbers as keyword arguments, read over the values they have from the start. -/
def keywordNumbers (names : List String) (initial : List Reading) (value : Text) : Text :=
  let read := if value = [] then initial else sscanf initial value
  ",".toList.intercalate ((names.zip read).map fun p => p.1.toList ++ '=' :: showpoint p.2)

/-- The text of the default that `getPythonArgDef` writes for a member. -/
def pythonDefault (dom : DOM) (var : MemberVariable) : Text :=
  let value := var.mDefaultValue
  if var.mIsArray then "[]".toList
  else if var.mType = "string".toList then '\'' :: (value ++ ['\''])
  else if isSigned var.mType then
    (toString (if value = [] then 0 else strtoll value)).toList
  else if isUnsigned var.mType then
    (toString (if value = [] then 0 else strtoull value)).toList
  else if var.mType = "float".toList ∨ var.mType = "double".toList then doubleDefault value
  else if var.mType = "bool".toList then
    (if stricmp value "true".toList then "True".toList else "False".toList)
  else if var.mType = "Vec3".toList then
    "Vec3(".toList ++ keywordNumbers ["x", "y", "z"] [{}, {}, {}] value ++ [')']
  else if var.mType = "Quat".toList then
    "Quat(".toList ++
      keywordNumbers ["x", "y", "z", "w"] [{}, {}, {}, ⟨false, .fin 1⟩] value ++ [')']
  else
    match dom.findObject var.mType with
    | none => "None".toList
    | some obj =>
        if obj.mIsEnum then (if value = [] then "0".toList else value)
        else var.mType ++ "()".toList

def getPythonArgDef (dom : DOM) (var : MemberVariable) : Text :=
  var.mMember ++ '=' :: pythonDefault dom var

def params (o : Object) : List MemberVariable := restatedItems o ++ ownItems o

def initArgs (dom : DOM) (o : Object) : Text :=
  ", ".toList.intercalate ((params o).map (getPythonArgDef dom))

def superInitArgs (o : Object) : Text :=
  ", ".toList.intercalate ((restatedItems o).map fun i => i.mMember ++ '=' :: i.mMember)

def saveInit (dom : DOM) (o : Object) : List Call :=
  if initArgs dom o = [] then [code 1 "def __init__(self):\n", code 2 "pass\n"]
  else
    code 1 "def __init__(self, %s):\n" [initArgs dom o] ::
      ((if superInitArgs o = [] then [] else [code 2 "super().__init__(%s)\n" [superInitArgs o]]) ++
      (ownItems o).map (fun i =>
        code 2 "%s\n" ["self.".toList ++ i.mMember ++ " = ".toList ++ i.mMember]) ++
      if superInitArgs o = [] ∧ ownItems o = [] then [code 2 "pass\n"] else [])

/-- What Python makes of texts: whether the names, the docstring and the lines of a class, which the
printer cuts to its buffer, are read as they are meant, and the values of defaults where a class
is defined. -/
structure Python (V : Type) where
  accepts : Object → Bool
  eval : Object → Text → Option V

section Classes

variable {V : Type} (py : Python V) (dom : DOM)

def EnumArray (i : MemberVariable) : Prop :=
  i.mIsArray = true ∧ isClassType dom i.mType = false ∧ isEnumType dom i.mType = true

instance (i : MemberVariable) : Decidable (EnumArray dom i) := inferInstanceAs (Decidable (_ ∧ _))

/-- The statement of a class. Parameters, with `self` in front, must differ from each other. -/
def define (o : Object) : Option (Initializer Text V) :=
  if py.accepts o ∧ (typeInfo dom o.mName).isSome ∧
      ("self".toList :: (params o).map MemberVariable.mMember).Nodup ∧
      ∀ i ∈ ownItems o, ¬ EnumArray dom i then
    ((params o).mapM fun i => (py.eval o (pythonDefault dom i)).map (i.mMember, ·)).map fun ps =>
      { params := ps
        passed := (restatedItems o).map MemberVariable.mMember
        assigned := (ownItems o).map MemberVariable.mMember }
  else none

/-- The object binds a name in the module: a class its own, an enum those of its items and its
table. -/
def binds (name : Text) (o : Object) : Bool :=
  if stricmp o.mType "Enum".toList then
    o.mItems.any (fun i => i.mMember = name) || tableName o.mName = name
  else o.mName = name

/-- The base that a name stands for after some objects, the last one first, and the bases of that. -/
def lineageOf : List Object → Text → Option (List Object)
  | [], _ => none
  | p :: before, base =>
      if binds base p then
        if stricmp p.mType "Enum".toList then none
        else if p.mInheritsFrom = [] then some [p]
        else (lineageOf before p.mInheritsFrom).map (p :: ·)
      else lineageOf before base

/-- A class with its bases, when it is defined after other objects. -/
def lineage (before : List Object) (o : Object) : Option (List Object) :=
  if stricmp o.mType "Enum".toList then none
  else if o.mInheritsFrom = [] then some [o]
  else (lineageOf before.reverse o.mInheritsFrom).map (o :: ·)

def construct (chain : List Object) : Option (List (Text × V)) :=
  (chain.mapM (define py dom)).bind fun chain => run chain []

def CallsSuper (o : Object) : Prop :=
  ∃ rounds slice rest, savePythonBase dom rounds o =
    some (.ok (code 2 "%s_data = super().as_data()\n" [slice] :: rest))

def Reads : List Object → Text → Prop
  | [], _ => False
  | o :: bases, m =>
      (∃ i ∈ ownItems o, (asDataMember dom i).isSome ∧ i.mMember = m) ∨ (CallsSuper dom o ∧ Reads bases m)

/-- An object of the class that is printed after other objects is complete after construction. -/
def Complete (before : List Object) (o : Object) : Prop :=
  ∃ chain, lineage before o = some chain ∧
    ∃ attrs, construct py dom chain = some attrs ∧ ∀ m, Reads dom chain m → m ∈ attrs.map Prod.fst

structure Loads (o : Object) : Prop where
  accepted : py.accepts o = true
  known : (typeInfo dom o.mName).isSome
  names : ("self".toList :: (params o).map MemberVariable.mMember).Nodup
  lines : ∀ i ∈ ownItems o, ¬ EnumArray dom i
  defaults : ∀ i ∈ params o, (py.eval o (pythonDefault dom i)).isSome

def Rooted (o : Object) : Prop :=
  stricmp o.mType "Enum".toList = false ∧ ∃ t, typeInfo dom o.mName = some t ∧ t.mInheritsFrom ≠ [] ∧
    ∃ root, ReflTransGen (IsBase dom) t root ∧ root.mInheritsFrom = []

def Collected : List Object → MemberVariable → Prop
  | [], _ => False
  | o :: bases, i =>
      (i ∈ ownItems o ∧ (asDataMember dom i).isSome) ∨
        (Rooted dom o ∧ Collected bases i)

/-- Each class that states a default for an inherited member names one of the parameters of its
base, and so on up to the first class that states none. -/
def Passes : List Object → Prop
  | [] => True
  | o :: bases => restatedItems o = [] ∨
      ((∃ p ∈ bases.head?, ∀ i ∈ restatedItems o, i.mMember ∈ (params p).map MemberVariable.mMember) ∧
        Passes bases)

/-- The classes up to the first one that states no default for an inherited member. -/
def initialised : List Object → List Object
  | [] => []
  | o :: bases => o :: if restatedItems o = [] then [] else initialised bases

end Classes

section Printed

variable {dom : DOM} {o : Object}

theorem intercalate_eq_nil {sep : Text} {l : List Text} (hl : ∀ s ∈ l, s ≠ []) :
    sep.intercalate l = [] ↔ l = [] := by
  cases l with
  | nil => exact iff_of_true rfl rfl
  | cons s l =>
      have hs : s ≠ [] := hl s List.mem_cons_self
      cases l <;> simp [List.intercalate, List.intersperse, hs]

theorem initArgs_eq_nil : initArgs dom o = [] ↔ params o = [] := by
  rw [initArgs, intercalate_eq_nil, List.map_eq_nil_iff]
  intro s hs
  obtain ⟨i, _, rfl⟩ := List.mem_map.mp hs
  simp [getPythonArgDef]

theorem superInitArgs_eq_nil : superInitArgs o = [] ↔ restatedItems o = [] := by
  rw [superInitArgs, intercalate_eq_nil, List.map_eq_nil_iff]
  intro s hs
  obtain ⟨i, _, rfl⟩ := List.mem_map.mp hs
  simp

theorem saveInit_eq : saveInit dom o =
    if params o = [] then [code 1 "def __init__(self):\n", code 2 "pass\n"]
    else
      code 1 "def __init__(self, %s):\n" [initArgs dom o] ::
        ((if restatedItems o = [] then []
          else [code 2 "super().__init__(%s)\n" [superInitArgs o]]) ++
        (ownItems o).map fun i =>
          code 2 "%s\n" ["self.".toList ++ i.mMember ++ " = ".toList ++ i.mMember]) := by
  simp only [saveInit, initArgs_eq_nil, superInitArgs_eq_nil]
  split_ifs with hparams hrestated hempty
  · rfl
  · exact absurd (by rw [params, hempty.1, hempty.2]; rfl) hparams
  · rw [List.append_nil]
  · exact absurd ‹_ ∧ _›.1 hrestated
  · rw [List.append_nil]

end Printed

theorem lex_enumArray {dom : DOM} {i : MemberVariable} (h : EnumArray dom i) (hm : Identifier i.mMember)
    (htype : Identifier i.mType) : ∃ line, asDataMember dom i = some (.code 2 line) ∧ lex .between line = none := by
  obtain ⟨harray, hclass, henum⟩ := h
  refine ⟨_, ?_, lex_array hm htype⟩
  rw [asDataMember, if_pos harray, hclass, if_neg Bool.false_ne_true, if_pos henum]
  rfl

section Walk

variable {dom : DOM} {o t : Object} {pushed : List Object}

theorem parents_ok_iff (pushed : List Object) : (∃ rounds ps, parents dom rounds t pushed = some (.ok ps)) ↔
    ∃ root, ReflTransGen (IsBase dom) t root ∧ root.mInheritsFrom = [] := by
  constructor
  · rintro ⟨rounds, ps, h⟩
    induction rounds generalizing t pushed with
    | zero => exact absurd h (by simp [parents])
    | succ rounds ih =>
        rw [parents] at h
        split_ifs at h with hroot
        · exact ⟨t, .refl, hroot⟩
        · cases hp : typeInfo dom t.mInheritsFrom with
          | none => simp [hp] at h
          | some p =>
              rw [hp] at h
              obtain ⟨root, hwalk, hend⟩ := ih _ h
              exact ⟨root, .head ⟨hroot, hp⟩ hwalk, hend⟩
  · rintro ⟨root, hwalk, hroot⟩
    induction hwalk using ReflTransGen.head_induction_on generalizing pushed with
    | refl => exact ⟨1, pushed, by rw [parents, if_pos hroot]⟩
    | @head t p hbase _ ih =>
        obtain ⟨rounds, ps, h⟩ := ih (p :: pushed)
        exact ⟨rounds + 1, ps, by rw [parents, if_neg hbase.1, hbase.2]; exact h⟩

theorem parents_suffix {rounds : Nat} {ps : List Object} (h : parents dom rounds t pushed = some (.ok ps)) :
    pushed <:+ ps := by
  induction rounds generalizing t pushed with
  | zero => exact absurd h (by simp [parents])
  | succ rounds ih =>
      rw [parents] at h
      split_ifs at h with hroot
      · obtain rfl : pushed = ps := by simpa using h
        exact List.suffix_rfl
      · cases hp : typeInfo dom t.mInheritsFrom with
        | none => simp [hp] at h
        | some p =>
            rw [hp] at h
            exact (List.suffix_cons p pushed).trans (ih h)

theorem parents_ne_nil {rounds : Nat} {ps : List Object} (hbase : t.mInheritsFrom ≠ [])
    (h : parents dom rounds t pushed = some (.ok ps)) : ps ≠ [] := by
  cases rounds with
  | zero => exact absurd h (by simp [parents])
  | succ rounds =>
      rw [parents, if_neg hbase] at h
      cases hp : typeInfo dom t.mInheritsFrom with
      | none => simp [hp] at h
      | some p =>
          rw [hp] at h
          exact List.ne_nil_of_mem ((parents_suffix h).subset List.mem_cons_self)

theorem callsSuper_iff : CallsSuper dom o ↔ Rooted dom o := by
  constructor
  · rintro ⟨rounds, slice, rest, h⟩
    rw [savePythonBase] at h
    cases henum : stricmp o.mType "Enum".toList with
    | true =>
        rw [henum, if_pos rfl] at h
        exact absurd h (by simp)
    | false =>
        rw [henum, if_neg Bool.false_ne_true] at h
        cases ht : typeInfo dom o.mName with
        | none => simp [ht] at h
        | some t =>
            rw [ht] at h
            dsimp only at h
            split_ifs at h with hroot
            · have hlines : [code 2 "return data\n"] =
                  code 2 "%s_data = super().as_data()\n" [slice] :: rest := by simpa using h
              have htext : "return data\n".toList = slice ++ "_data = super().as_data()\n".toList :=
                (Call.code.inj (List.cons.inj hlines).1).2
              exact absurd (congrArg List.length htext) (by simp)
            · obtain ⟨walked, hwalked, hmap⟩ := Option.map_eq_some_iff.mp h
              cases walked with
              | error e => exact absurd hmap (by simp [Except.map])
              | ok ps => exact ⟨henum, t, ht, hroot, (parents_ok_iff []).mp ⟨rounds, ps, hwalked⟩⟩
  · rintro ⟨henum, t, ht, hbase, hroot⟩
    obtain ⟨rounds, ps, h⟩ := (parents_ok_iff []).mpr hroot
    have hne : ps ≠ [] := parents_ne_nil hbase h
    obtain ⟨p, ps, rfl⟩ := List.exists_cons_of_ne_nil hne
    exact ⟨rounds, lowerFirst p.mName, _, by
      rw [savePythonBase, henum, if_neg Bool.false_ne_true, ht]
      simp only [if_neg hbase, h]
      rfl⟩

end Walk

section Main

variable {V : Type} {py : Python V} {dom : DOM} {before : List Object} {o : Object} {chain : List Object}

structure InitializerOf (o : Object) (c : Initializer Text V) : Prop where
  names : c.names = (params o).map MemberVariable.mMember
  passed : c.passed = (restatedItems o).map MemberVariable.mMember
  assigned : c.assigned = (ownItems o).map MemberVariable.mMember

theorem InitializerOf.closed {c : Initializer Text V} (h : InitializerOf o c) : c.Closed where
  passed m hm := by
    rw [h.passed] at hm
    rw [h.names, params, List.map_append]
    exact List.mem_append_left _ hm
  assigned m hm := by
    rw [h.assigned] at hm
    rw [h.names, params, List.map_append]
    exact List.mem_append_right _ hm

theorem InitializerOf.passed_eq_nil {c : Initializer Text V} (h : InitializerOf o c) :
    c.passed = [] ↔ restatedItems o = [] := by
  rw [h.passed, List.map_eq_nil_iff]

theorem define_isSome : (define py dom o).isSome ↔ Loads py dom o := by
  rw [define]
  split_ifs with h
  · obtain ⟨haccepted, hknown, hnames, hlines⟩ := h
    rw [Option.isSome_map, mapM_isSome]
    simp only [Option.isSome_map]
    exact ⟨fun hdefaults => ⟨haccepted, hknown, hnames, hlines, hdefaults⟩, Loads.defaults⟩
  · exact iff_of_false (by simp) fun hl => h ⟨hl.accepted, hl.known, hl.names, hl.lines⟩

theorem define_initializerOf {c : Initializer Text V} (h : define py dom o = some c) :
    InitializerOf o c := by
  rw [define] at h
  split_ifs at h
  obtain ⟨ps, hps, rfl⟩ := Option.map_eq_some_iff.mp h
  refine ⟨?_, rfl, rfl⟩
  rw [Initializer.names, ← List.forall₂_eq_eq_eq, List.forall₂_map_left_iff, List.forall₂_map_right_iff]
  refine (mapM_eq_some.mp hps).flip.imp fun p i hp => ?_
  obtain ⟨v, _, rfl⟩ := Option.map_eq_some_iff.mp hp
  rfl

theorem closed_of_initializers {cs : List (Initializer Text V)}
    (h : List.Forall₂ InitializerOf chain cs) : ∀ c ∈ cs, c.Closed := by
  induction h with
  | nil => simp
  | cons hc _ ih => exact List.forall_mem_cons.mpr ⟨hc.closed, ih⟩

theorem passes_iff {c : Initializer Text V} {cs : List (Initializer Text V)} {bases : List Object}
    (hc : InitializerOf o c) (h : List.Forall₂ InitializerOf bases cs) :
    (c.passed = [] ∨ Accepts cs c.passed) ↔ Passes (o :: bases) := by
  induction h generalizing o c with
  | nil => simp [Accepts, Passes, hc.passed_eq_nil]
  | @cons p b bases cs hb _ ih =>
      have hhead : (∃ q ∈ (p :: bases).head?, ∀ i ∈ restatedItems o,
          i.mMember ∈ (params q).map MemberVariable.mMember) ↔
          ∀ m ∈ (restatedItems o).map MemberVariable.mMember,
            m ∈ (params p).map MemberVariable.mMember := by simp
      rw [Accepts, ih hb, hc.passed_eq_nil, hb.names, hc.passed, ← hhead]
      rfl

theorem reached_iff {cs : List (Initializer Text V)} (h : List.Forall₂ InitializerOf chain cs) (m : Text) :
    (∃ c ∈ reached cs, m ∈ c.assigned) ↔
      ∃ c ∈ initialised chain, m ∈ (ownItems c).map MemberVariable.mMember := by
  induction h with
  | nil => simp [reached, initialised]
  | @cons o c bases cs hc _ ih =>
      rw [reached, initialised, List.exists_mem_cons_iff, List.exists_mem_cons_iff, hc.assigned]
      refine or_congr_right ?_
      by_cases hlast : restatedItems o = []
      · simp [if_pos hlast, if_pos (hc.passed_eq_nil.mpr hlast)]
      · rw [if_neg hlast, if_neg (mt hc.passed_eq_nil.mp hlast), ih]

theorem reads_iff {m : Text} : Reads dom chain m ↔ ∃ i, Collected dom chain i ∧ i.mMember = m := by
  induction chain with
  | nil => simp [Reads, Collected]
  | cons o bases ih =>
      rw [Reads, callsSuper_iff, ih]
      constructor
      · rintro (⟨i, hi, hline, hm⟩ | ⟨hrooted, i, hi, hm⟩)
        · exact ⟨i, .inl ⟨hi, hline⟩, hm⟩
        · exact ⟨i, .inr ⟨hrooted, hi⟩, hm⟩
      · rintro ⟨i, ⟨hi, hline⟩ | ⟨hrooted, hi⟩, hm⟩
        · exact .inl ⟨i, hi, hline, hm⟩
        · exact .inr ⟨hrooted, i, hi, hm⟩

/-- Construction sets every attribute that `as_data` reads exactly when Python takes the classes,
each takes what the one below it passes on, and every member that is data belongs to a class
below the first one that states no default for an inherited member, or to that class. -/
theorem construct_complete_iff (py : Python V) (dom : DOM) (before : List Object) (o : Object) :
    Complete py dom before o ↔ ∃ chain, lineage before o = some chain ∧
      (∀ c ∈ chain, Loads py dom c) ∧ Passes chain ∧
      ∀ i, Collected dom chain i →
        ∃ c ∈ initialised chain, i.mMember ∈ (ownItems c).map MemberVariable.mMember := by
  rw [Complete]
  refine exists_congr fun chain => and_congr_right fun hchain => ?_
  obtain ⟨bases, rfl⟩ : ∃ bases, chain = o :: bases := by
    rw [lineage] at hchain
    split_ifs at hchain
    · exact ⟨[], (Option.some.inj hchain).symm⟩
    · obtain ⟨bases, _, rfl⟩ := Option.map_eq_some_iff.mp hchain
      exact ⟨bases, rfl⟩
  have hloads : ((o :: bases).mapM (define py dom)).isSome ↔ ∀ c ∈ o :: bases, Loads py dom c := by
    simp only [mapM_isSome, define_isSome]
  rw [← hloads, construct]
  cases hcs : (o :: bases).mapM (define py dom) with
  | none => simp
  | some cs =>
      have hof : List.Forall₂ InitializerOf (o :: bases) cs :=
        (mapM_eq_some.mp hcs).imp fun _ _ => define_initializerOf
      cases hof with
      | @cons _ c _ cs hc hbases =>
          have hclosed : ∀ b ∈ c :: cs, b.Closed := closed_of_initializers (.cons hc hbases)
          have hpasses : Accepts (c :: cs) [] ↔ Passes (o :: bases) := by
            rw [← passes_iff hc hbases, Accepts]
            simp
          rw [Option.bind_some, run_sets_iff hclosed, List.map_nil, hpasses, Option.isSome_some,
            and_iff_right rfl]
          refine and_congr_right fun _ => ?_
          simp only [reached_iff (.cons hc hbases), reads_iff]
          constructor
          · exact fun h i hi => h i.mMember ⟨i, hi, rfl⟩
          · rintro h _ ⟨i, hi, rfl⟩
            exact h i hi

end Main

section Examples

/-- A Python that takes every class and has each text for its value. -/
def verbatim : Python Text where
  accepts := fun _ => true
  eval := fun _ text => some text

def numbered : Object where
  mName := "A".toList
  mType := "Class".toList
  mChildren := ["B".toList]
  mIsClass := true
  mItems := [{ mMember := "x".toList, mType := "u32".toList }]

def derived : Object where
  mName := "B".toList
  mType := "Class".toList
  mInheritsFrom := "A".toList
  mIsClass := true

def derivedDOM : DOM where
  mObjects := [numbered, derived]
  mObjectMap := [("B".toList, 1), ("A".toList, 0)]

/-- `B` prints an `__init__` that does nothing, while its `as_data` reads what `A` has. -/
theorem parseCSV_derived :
    (parseCSV {} ("A,,Class".toList ++ CsvReader.lf :: ",x,u32".toList ++ CsvReader.lf ::
      "B,,Class,A".toList ++ [CsvReader.lf])).map CreateDOMDef.mDOM = some derivedDOM ∧
    parents derivedDOM 2 derived [] = some (.ok [numbered]) ∧
    (∀ i ∈ ownItems numbered, (asDataMember derivedDOM i).isSome) ∧
    saveInit derivedDOM derived = [code 1 "def __init__(self):\n", code 2 "pass\n"] ∧
    lineage [numbered] derived = some [derived, numbered] ∧
    construct verbatim derivedDOM [derived, numbered] = some [] ∧
    Reads derivedDOM [derived, numbered] "x".toList ∧
    ¬ Complete verbatim derivedDOM [numbered] derived := by
  have hlineage : lineage [numbered] derived = some [derived, numbered] := rfl
  have hconstruct : construct verbatim derivedDOM [derived, numbered] = some [] := rfl
  have hreads : Reads derivedDOM [derived, numbered] "x".toList :=
    .inr ⟨⟨2, "a".toList, _, rfl⟩, .inl ⟨_, List.mem_singleton_self _, rfl, rfl⟩⟩
  refine ⟨rfl, rfl, by decide, rfl, hlineage, hconstruct, hreads, ?_⟩
  rintro ⟨chain, hchain, attrs, hattrs, hset⟩
  obtain rfl := Option.some.inj (hlineage.symm.trans hchain)
  obtain rfl := Option.some.inj (hconstruct.symm.trans hattrs)
  exact List.not_mem_nil (hset _ hreads)

end Examples

end SchemaCodeGen.PythonInit
