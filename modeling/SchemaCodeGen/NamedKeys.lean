import SchemaCodeGen.Generated
import SchemaCodeGen.Implementation

namespace SchemaCodeGen.NamedKeys

open CString Schema Emit Printer Header Implementation Generated

/-- The lines in the body of an emitted `isMember`. -/
inductive Line
  | declare (base : Option Text)
  | discard
  | test (first : Bool) (name : Text) (last : Bool)
  | openBlock
  | setTrue
  | closeBlock
  | return
  deriving DecidableEq, Repr

def Line.call : Line → Call
  | .declare none => code 2 "bool ret = false;\n"
  | .declare (some base) => code 2 "bool ret = %s::isMember(name);\n" [base]
  | .discard => code 2 "(name);\n"
  | .test true name true => code 2 "if ( strcmp(name,\"%s\") == 0 )\n" [name]
  | .test true name false => code 2 "if ( strcmp(name,\"%s\") == 0 ||\n" [name]
  | .test false name true => code 3 "strcmp(name,\"%s\") == 0 )\n" [name]
  | .test false name false => code 3 "strcmp(name,\"%s\") == 0 ||\n" [name]
  | .openBlock => code 2 "\x7b\n"
  | .setTrue => code 3 "ret = true;\n"
  | .closeBlock => code 2 "\x7d\n"
  | .return => code 2 "return ret;\n"

/-- Where a run of the lines stands: before the declaration, between statements, behind `||`,
behind the condition of an `if`, in its block, or at the end. -/
inductive Place
  | start
  | statement (ret : Bool)
  | condition (ret value : Bool)
  | guarded (ret value : Bool)
  | block (ret value : Bool)
  | returned (ret : Bool)
  deriving DecidableEq, Repr

def tested (ret value last : Bool) : Place := if last then .guarded ret value else .condition ret value

/-- A line at a place where C++ has no meaning for it does not run. -/
def Line.exec (base : Text → Option Bool) (s : Text) : Place → Line → Option Place
  | .start, .declare none => some (.statement false)
  | .start, .declare (some c) => (base c).map .statement
  | .statement ret, .discard => some (.statement ret)
  | .statement ret, .test true name last => some (tested ret (cstr s == name) last)
  | .condition ret value, .test false name last => some (tested ret (value || cstr s == name) last)
  | .guarded ret value, .openBlock => some (.block ret value)
  | .block ret value, .setTrue => some (.block (ret || value) value)
  | .block ret _, .closeBlock => some (.statement ret)
  | .statement ret, .return => some (.returned ret)
  | _, _ => none

def nameLines : List Text → List Line
  | [] => []
  | name :: names => .test false name names.isEmpty :: nameLines names

def testLines : List Text → List Line
  | [] => []
  | name :: names =>
      .test true name names.isEmpty :: (nameLines names ++ [.openBlock, .setTrue, .closeBlock])

def isMemberLines (o : Object) : List Line :=
  .declare (if o.mInheritsFrom = [] then none else some o.mInheritsFrom) :: .discard ::
    (testLines (memberNames o) ++ [.return])

theorem nameTests_eq (names : List Text) : nameTests names = (nameLines names).map Line.call := by
  induction names with
  | nil => rfl
  | cons name names ih =>
      cases names with
      | nil => rfl
      | cons n names => exact congrArg (Line.call (.test false name false) :: ·) ih

theorem isMemberTest_eq (names : List Text) : isMemberTest names = (testLines names).map Line.call := by
  cases names with
  | nil => rfl
  | cons name names =>
      cases names with
      | nil => rfl
      | cons n names =>
          rw [testLines, List.map_cons, List.map_append, ← nameTests_eq]
          rfl

theorem isMemberMethod_eq (o : Object) : isMemberMethod o =
    [linefeed,
      code 1 "// Defines a method which returns 'true' if 'name' corresponds to a member variable of this class or base class.\n",
      code 1 "bool isMember(const char *name) const\n",
      code 1 "\x7b\n"] ++
    (isMemberLines o).map Line.call ++ [code 1 "\x7d\n", linefeed] := by
  rw [isMemberMethod, isMemberTest_eq, isMemberLines]
  by_cases h : o.mInheritsFrom = [] <;> simp [h, Line.call]

variable (b : Build)

/-- A call of `isMember` of the class. -/
def callIsMember : Nat → Text → Text → Option Bool
  | 0, _, _ => none
  | n + 1, c, s =>
      (b.classType c).bind fun o =>
        ((isMemberLines o).foldlM (Line.exec (fun base => callIsMember n base s) s) .start).bind
          fun
          | .returned ret => some ret
          | _ => none

def findMemberLine (s : Text) : Call := code 2 "auto found = d.FindMember(\"%s\");\n" [s]

/-- `deserializeFrom` of the class, or of a base it calls, looks the name up for a member that
is no map. -/
inductive LooksUp : Text → Text → Prop
  | own {c s : Text} {o : Object} {i : MemberVariable} {calls : List Call}
      (cls : b.classType c = some o) (item : i ∈ ownItems o) (named : i.mIsMap = false)
      (emitted : deserializeMember b.dom o i = some calls) (found : findMemberLine s ∈ calls) :
      LooksUp c s
  | base {c s : Text} {o : Object} (cls : b.classType c = some o) (inherits : o.mInheritsFrom ≠ [])
      (call : LooksUp o.mInheritsFrom s) : LooksUp c s

/-- Every row marked as inherited is of a member that a class further down declares. -/
def InheritedDeclared : List Object → Prop
  | [] => True
  | o :: bases =>
      (∀ i ∈ o.mItems, i.mInheritsFrom ≠ [] → ∃ base ∈ bases, ∃ j ∈ ownItems base,
        j.mMember = i.mMember ∧ j.mIsMap = i.mIsMap) ∧ InheritedDeclared bases

def TypesKnown (chain : List Object) : Prop :=
  ∀ o ∈ chain, ∀ i ∈ o.mItems,
    getStandardType i.mType ≠ .none ∨ (classEnumMap b.dom i.mType).isSome = true

variable {b}

section Lines

variable {base : Text → Option Bool} {s : Text}

theorem exec_nameLines {names : List Text} (hnames : names ≠ []) {ret value : Bool} :
    (nameLines names).foldlM (Line.exec base s) (.condition ret value) =
      some (.guarded ret (value || names.contains (cstr s))) := by
  induction names generalizing value with
  | nil => exact absurd rfl hnames
  | cons name names ih =>
      rw [nameLines, List.foldlM_cons, List.contains_cons, ← Bool.or_assoc]
      cases names with
      | nil => simp only [Line.exec, tested, nameLines, List.isEmpty_nil, if_true,
          Option.bind_eq_bind, Option.bind_some, List.foldlM_nil, Option.pure_def,
          List.contains_nil, Bool.or_false]
      | cons n names =>
          have hstep : Line.exec base s (.condition ret value) (.test false name false) =
              some (.condition ret (value || cstr s == name)) := rfl
          rw [List.isEmpty_cons, hstep, Option.bind_eq_bind, Option.bind_some, ih (by simp)]

theorem exec_testLines (names : List Text) {ret : Bool} :
    (testLines names).foldlM (Line.exec base s) (.statement ret) =
      some (.statement (ret || names.contains (cstr s))) := by
  have hblock : ∀ value, [Line.openBlock, .setTrue, .closeBlock].foldlM (Line.exec base s)
      (.guarded ret value) = some (.statement (ret || value)) := fun _ => rfl
  cases names with
  | nil => simp [testLines]
  | cons name names =>
      rw [testLines, List.foldlM_cons, List.contains_cons]
      cases names with
      | nil =>
          have hstep : Line.exec base s (.statement ret) (.test true name true) =
              some (.guarded ret (cstr s == name)) := rfl
          rw [List.isEmpty_nil, hstep, Option.bind_eq_bind, Option.bind_some, nameLines,
            List.nil_append, hblock, List.contains_nil, Bool.or_false]
      | cons n names =>
          have hstep : Line.exec base s (.statement ret) (.test true name false) =
              some (.condition ret (cstr s == name)) := rfl
          rw [List.isEmpty_cons, hstep, Option.bind_eq_bind, Option.bind_some, List.foldlM_append,
            exec_nameLines (by simp), Option.bind_eq_bind, Option.bind_some, hblock]

theorem exec_isMemberLines (o : Object) {ret : Bool}
    (hbase : if o.mInheritsFrom = [] then ret = false else base o.mInheritsFrom = some ret) :
    (isMemberLines o).foldlM (Line.exec base s) .start =
      some (.returned (ret || (memberNames o).contains (cstr s))) := by
  have hdeclare : Line.exec base s .start
      (.declare (if o.mInheritsFrom = [] then none else some o.mInheritsFrom)) =
        some (.statement ret) := by
    split_ifs at hbase ⊢
    · rw [hbase]
      rfl
    · simp [Line.exec, hbase]
  have hdiscard : Line.exec base s (.statement ret) .discard = some (.statement ret) := rfl
  rw [isMemberLines, List.foldlM_cons, hdeclare, Option.bind_eq_bind, Option.bind_some,
    List.foldlM_cons, hdiscard, Option.bind_eq_bind, Option.bind_some, List.foldlM_append,
    exec_testLines, Option.bind_eq_bind, Option.bind_some]
  rfl

end Lines

section Chain

variable {n k : Nat} {c s : Text} {chain : List Object}

theorem chainFrom_cases (h : b.chainFrom n c = some chain) :
    ∃ o bases, chain = o :: bases ∧ b.classType c = some o ∧
      (if o.mInheritsFrom = [] then bases = []
        else ∃ m < n, b.chainFrom m o.mInheritsFrom = some bases) := by
  cases n with
  | zero => exact absurd h (by simp [Build.chainFrom])
  | succ n =>
      obtain ⟨o, ho, h⟩ := Option.bind_eq_some_iff.mp h
      split_ifs at h with hbase
      · obtain rfl := Option.some.inj h
        exact ⟨o, [], rfl, ho, by rw [if_pos hbase]⟩
      · obtain ⟨bases, hbases, rfl⟩ := Option.map_eq_some_iff.mp h
        exact ⟨o, bases, rfl, ho, by rw [if_neg hbase]; exact ⟨n, Nat.lt_succ_self n, hbases⟩⟩

theorem callIsMember_eq (h : b.chainFrom n c = some chain) (hk : chain.length ≤ k) :
    callIsMember b k c s = some (isMember chain (cstr s)) := by
  induction n using Nat.strong_induction_on generalizing c chain k with
  | _ n ih =>
      obtain ⟨o, bases, rfl, ho, hbases⟩ := chainFrom_cases h
      obtain ⟨k, rfl⟩ := Nat.exists_eq_add_of_le' (Nat.lt_of_lt_of_le (Nat.zero_lt_succ _) hk)
      have hk' : bases.length ≤ k := Nat.le_of_succ_le_succ hk
      have hrun := @exec_isMemberLines (fun base => callIsMember b k base s) s o
        (isMember bases (cstr s)) (by
          split_ifs at hbases ⊢
          · rw [hbases]
            rfl
          · obtain ⟨m, hm, hbases⟩ := hbases
            exact ih m hm hbases hk')
      rw [callIsMember, ho, Option.bind_some, hrun, Option.bind_some, Bool.or_comm]
      rfl

end Chain

section Lookups

variable {i : MemberVariable} {s : Text}

def isLookup : Call → Bool
  | .code k text => k == 2 && text.head? == some 'a'
  | _ => false

theorem not_lookup_of_indent {k : Nat} {format : String} {args : List Text} (h : k ≠ 2) :
    isLookup (code k format args) = false := by
  simp [isLookup, code, h]

theorem not_lookup_of_text {k : Nat} {a : Char} {format : List Char} {args : List Text}
    (ha : a ≠ '%' ∧ a ≠ 'a') : isLookup (code k (String.ofList (a :: format)) args) = false := by
  have htext : stringFormat (a :: format) args = a :: stringFormat format args :=
    stringFormat.eq_2 args a format fun _ _ _ _ h _ => absurd h ha.1
  simp [isLookup, code, htext, ha.2]

theorem findMemberLine_inj {t : Text} (h : findMemberLine s = findMemberLine t) : s = t := by
  have htext : ∀ s, findMemberLine s =
      .code 2 ("auto found = d.FindMember(\"".toList ++ (s ++ "\");\n".toList)) := fun _ => rfl
  rw [htext, htext, Call.code.injEq, List.append_cancel_left_eq, List.append_cancel_right_eq] at h
  exact h.2

def Plain (calls : List Call) : Prop := ∀ c ∈ calls, isLookup c = false

theorem plain_nil : Plain [] := List.forall_mem_nil _

theorem plain_cons {c : Call} {calls : List Call} (hc : isLookup c = false) (h : Plain calls) :
    Plain (c :: calls) := List.forall_mem_cons.mpr ⟨hc, h⟩

theorem plain_append {calls calls' : List Call} (h : Plain calls) (h' : Plain calls') :
    Plain (calls ++ calls') := List.forall_mem_append.mpr ⟨h, h'⟩

def Finds (name : Text) (calls : List Call) : Prop :=
  ∃ before after, calls = before ++ findMemberLine name :: after ∧ Plain before ∧ Plain after

theorem finds_here {calls : List Call} (h : Plain calls) : Finds s (findMemberLine s :: calls) :=
  ⟨[], calls, rfl, plain_nil, h⟩

theorem finds_cons {c : Call} {calls : List Call} (hc : isLookup c = false) (h : Finds s calls) :
    Finds s (c :: calls) := by
  obtain ⟨before, after, rfl, hbefore, hafter⟩ := h
  exact ⟨c :: before, after, rfl, plain_cons hc hbefore, hafter⟩

theorem finds_append {calls calls' : List Call} (h : Finds s calls) (h' : Plain calls') :
    Finds s (calls ++ calls') := by
  obtain ⟨before, after, rfl, hbefore, hafter⟩ := h
  exact ⟨before, after ++ calls', by simp, hbefore, plain_append hafter h'⟩

theorem Finds.mem_iff {t : Text} {calls : List Call} (h : Finds t calls) :
    findMemberLine s ∈ calls ↔ s = t := by
  have hlookup : isLookup (findMemberLine s) = true := rfl
  obtain ⟨before, after, rfl, hbefore, hafter⟩ := h
  rw [List.mem_append, List.mem_cons]
  constructor
  · rintro (hmem | heq | hmem)
    · exact absurd (hlookup.symm.trans (hbefore _ hmem)) (by decide)
    · exact findMemberLine_inj heq
    · exact absurd (hlookup.symm.trans (hafter _ hmem)) (by decide)
  · rintro rfl
    exact Or.inr (Or.inl rfl)

theorem plain_missingMember (required : Bool) : Plain (missingMember required) := by
  rw [missingMember]
  split_ifs
  all_goals repeat' first
    | refine plain_cons ?_ ?_
    | exact not_lookup_of_indent (by decide)
    | exact not_lookup_of_text (by decide)
    | exact plain_nil

theorem plain_checkedBlock {type : StandardType} {value : List Call} (hvalue : Plain value) :
    Plain (checkedBlock i type value) := by
  rw [checkedBlock]
  refine plain_append (plain_append (plain_append (plain_append ?_ hvalue) ?_) ?_) ?_
  case' refine_3 => split_ifs
  all_goals repeat' first
    | refine plain_cons (not_lookup_of_indent (by decide)) ?_
    | exact plain_nil

def looksUp : DeserializeStmt → Bool
  | .numericMap .. | .stringMap .. | .enumListMap .. | .todo => false
  | _ => true

theorem finds_deserializeText {stmt : DeserializeStmt} (h : looksUp stmt = true) :
    Finds i.mMember (deserializeText i stmt) := by
  have hlookup : ∀ {calls : List Call}, Plain calls →
      Finds i.mMember (code 2 "auto found = d.FindMember(\"%s\");\n" [i.mMember] :: calls) :=
    finds_here
  cases stmt
  case numericMap | stringMap | enumListMap | todo => exact absurd h Bool.false_ne_true
  case' integer | integerArray =>
    refine finds_append (finds_append (finds_append (hlookup ?_) ?_) ?_) (plain_missingMember _)
  case' checked | checkedArray =>
    refine finds_append (finds_append (finds_append (hlookup ?_) (plain_checkedBlock ?_)) ?_)
      (plain_missingMember _)
  case' enum => refine finds_append (finds_append (hlookup ?_) ?_) ?_
  case' enumArray | objectArray =>
    refine finds_append (finds_append (finds_cons ?_ (hlookup ?_)) ?_) (plain_missingMember _)
  case' object => refine finds_append (finds_cons ?_ (hlookup ?_)) (plain_missingMember _)
  -- What is left are the lines around the lookups.
  all_goals repeat' first
    | refine plain_cons ?_ ?_
    | exact not_lookup_of_indent (by decide)
    | exact not_lookup_of_text (by decide)
    | split_ifs
    | exact plain_nil

theorem deserializeStmt_named {classEnum : Text → Option Bool} {names : List Text}
    (hm : i.mIsMap = false)
    (htype : getStandardType i.mType ≠ .none ∨ (classEnum i.mType).isSome = true) :
    ∃ stmt, deserializeStmt classEnum names i = some stmt ∧ looksUp stmt = true := by
  by_cases hstd : getStandardType i.mType = .none
  · obtain ⟨isEnum, hclass⟩ := Option.isSome_iff_exists.mp (htype.resolve_left fun h => h hstd)
    simp only [deserializeStmt, ne_eq, hstd, not_true_eq_false, if_false, hclass, hm]
    cases i.mIsArray <;> cases isEnum <;> exact ⟨_, rfl, rfl⟩
  · simp only [deserializeStmt, ne_eq, hstd, not_false_eq_true, if_true, hm]
    cases i.mIsArray <;> cases isNumeric (getStandardType i.mType) <;> exact ⟨_, rfl, rfl⟩

theorem deserializeMember_named {d : DOM} (o : Object) (hm : i.mIsMap = false)
    (htype : getStandardType i.mType ≠ .none ∨ (classEnumMap d i.mType).isSome = true) :
    ∃ calls, deserializeMember d o i = some calls ∧ Finds i.mMember calls := by
  obtain ⟨stmt, hstmt, hlooks⟩ := @deserializeStmt_named i _ (nonMapItems o) hm htype
  refine ⟨_, by rw [deserializeMember, hstmt, Option.map_some], ?_⟩
  have hindent : ∀ {format : String} {args : List Text}, isLookup (code 1 format args) = false :=
    not_lookup_of_indent (by decide)
  exact finds_append (finds_cons hindent (finds_cons hindent (finds_deserializeText hlooks)))
    (plain_cons hindent plain_nil)

end Lookups

section Agreement

variable {n k : Nat} {c s : Text} {chain : List Object}

theorem looksUp_iff (h : b.chainFrom n c = some chain) (htypes : TypesKnown b chain) :
    LooksUp b c s ↔ ∃ o ∈ chain, s ∈ nonMapItems o := by
  induction n using Nat.strong_induction_on generalizing c chain with
  | _ n ih =>
      obtain ⟨o, bases, rfl, ho, hbases⟩ := chainFrom_cases h
      have htype : ∀ i ∈ ownItems o, getStandardType i.mType ≠ .none ∨
          (classEnumMap b.dom i.mType).isSome = true := fun i hi =>
        htypes o List.mem_cons_self i (List.mem_of_mem_filter hi)
      have hown : s ∈ nonMapItems o ↔ ∃ i ∈ ownItems o, i.mIsMap = false ∧ i.mMember = s := by
        simp [nonMapItems, and_assoc]
      have hbase : (o.mInheritsFrom ≠ [] ∧ LooksUp b o.mInheritsFrom s) ↔
          ∃ base ∈ bases, s ∈ nonMapItems base := by
        split_ifs at hbases with hroot
        · simp [hroot, hbases]
        · obtain ⟨m, hm, hbases⟩ := hbases
          rw [and_iff_right hroot]
          exact ih m hm hbases fun o ho => htypes o (List.mem_cons_of_mem _ ho)
      rw [List.exists_mem_cons_iff, hown, ← hbase]
      constructor
      · intro hlooks
        cases hlooks with
        | own cls item named emitted found =>
            obtain rfl := Option.some.inj (ho.symm.trans cls)
            obtain ⟨calls, hcalls, hfinds⟩ := deserializeMember_named o named (htype _ item)
            obtain rfl := Option.some.inj (hcalls.symm.trans emitted)
            exact Or.inl ⟨_, item, named, (hfinds.mem_iff.mp found).symm⟩
        | base cls inherits call =>
            obtain rfl := Option.some.inj (ho.symm.trans cls)
            exact Or.inr ⟨inherits, call⟩
      · rintro (⟨i, item, named, rfl⟩ | ⟨inherits, call⟩)
        · obtain ⟨calls, hcalls, hfinds⟩ := deserializeMember_named o named (htype i item)
          exact .own ho item named hcalls (hfinds.mem_iff.mpr rfl)
        · exact .base ho inherits call

theorem exists_memberNames (h : InheritedDeclared chain) :
    (∃ o ∈ chain, s ∈ memberNames o) ↔ ∃ o ∈ chain, s ∈ nonMapItems o := by
  induction chain with
  | nil => simp
  | cons o bases ih =>
      have hrow : ∀ i ∈ o.mItems, i.mIsMap = false → i.mMember = s →
          i.mInheritsFrom = [] ∨ ∃ base ∈ bases, s ∈ nonMapItems base := by
        intro i hi hm hname
        by_cases hinherits : i.mInheritsFrom = []
        · exact Or.inl hinherits
        · obtain ⟨base, hbase, j, hj, hmember, hmap⟩ := h.1 i hi hinherits
          refine Or.inr ⟨base, hbase, ?_⟩
          rw [nonMapItems, List.mem_map]
          exact ⟨j, List.mem_filter.mpr ⟨hj, by simp [hmap, hm]⟩, hmember.trans hname⟩
      rw [List.exists_mem_cons_iff, List.exists_mem_cons_iff, ih h.2]
      constructor
      · rintro (hname | hbase)
        · obtain ⟨i, hi, rfl⟩ := List.mem_map.mp hname
          obtain ⟨hi, hm⟩ := List.mem_filter.mp hi
          obtain hown | hbase := hrow i hi (by simpa using hm) rfl
          · refine Or.inl (List.mem_map.mpr ⟨i, List.mem_filter.mpr ⟨?_, hm⟩, rfl⟩)
            exact List.mem_filter.mpr ⟨hi, by simpa using hown⟩
          · exact Or.inr hbase
        · exact Or.inr hbase
      · rintro (hname | hbase)
        · obtain ⟨i, hi, rfl⟩ := List.mem_map.mp hname
          obtain ⟨hi, hm⟩ := List.mem_filter.mp hi
          exact Or.inl (List.mem_map.mpr
            ⟨i, List.mem_filter.mpr ⟨List.mem_of_mem_filter hi, hm⟩, rfl⟩)
        · exact Or.inr hbase

/-- The emitted `isMember` returns true exactly for the strings that the emitted deserializer
looks up for a named member. -/
theorem isMember_iff_looksUp (hchain : b.chain c = some chain) (hk : chain.length ≤ k)
    (hinherited : InheritedDeclared chain) (htypes : TypesKnown b chain) (s : Text) :
    ∃ ret, callIsMember b k c s = some ret ∧ (ret = true ↔ LooksUp b c (cstr s)) := by
  refine ⟨_, callIsMember_eq hchain hk, ?_⟩
  rw [looksUp_iff hchain htypes, ← exists_memberNames hinherited, isMember, List.any_eq_true]
  simp only [List.contains_iff_mem]

end Agreement

section Examples

def nameItem : MemberVariable where
  mMember := "name".toList
  mType := "string".toList

def tagsItem : MemberVariable where
  mMember := "tags".toList
  mType := "string".toList
  mIsMap := true
  mIsArray := true

def device : Object where
  mName := "Device".toList
  mType := "Class".toList
  mIsClass := true
  mItems := [nameItem, tagsItem]

def restatedName : MemberVariable :=
  { nameItem with mInheritsFrom := "Device".toList, mDefaultValue := "probe".toList }

def unitItem : MemberVariable where
  mMember := "unit".toList
  mType := "string".toList

def rangeItem : MemberVariable where
  mMember := "range".toList
  mType := "u32".toList
  mIsArray := true

def sensor : Object where
  mName := "Sensor".toList
  mType := "Class".toList
  mIsClass := true
  mInheritsFrom := "Device".toList
  mItems := [restatedName, unitItem, rangeItem]

def sensors : Build where
  dom := { mObjects := [device, sensor] }
  constant := fun _ _ => 0
  initial := fun _ => .empty

/-- The map is no key, and the name is one by the call of the base. -/
example : ["name", "unit", "range", "tags", "_tags"].map
    (fun s => callIsMember sensors 2 "Sensor".toList s.toList) =
      [some true, some true, some true, some false, some false] := by decide

theorem isMember_iff_looksUp_sensor :
    ∃ ret, callIsMember sensors 2 "Sensor".toList "name".toList = some ret ∧
      (ret = true ↔ LooksUp sensors "Sensor".toList (cstr "name".toList)) := by
  have hchain : sensors.chain "Sensor".toList = some [sensor, device] := by decide
  exact isMember_iff_looksUp hchain (by decide) ⟨by decide, by decide, trivial⟩
    (by unfold TypesKnown; decide) _

end Examples

end SchemaCodeGen.NamedKeys
