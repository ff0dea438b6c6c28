import SchemaCodeGen.EnumTable
import SchemaCodeGen.Header

namespace SchemaCodeGen.EnumBackends

open CString Schema Printer Header EnumTable

/-- An enumerator as it is printed, with the value it states. -/
structure Enumerator where
  name : Text
  value : Option Text
  note : Text
  deriving DecidableEq, Repr

def Enumerator.calls (e : Enumerator) : List Call :=
  [match e.value with
    | none => code 1 "%s," [e.name]
    | some value => code 1 "%s=%s," [e.name, value],
   .note 10 e.note]

def enumText (o : Object) (title : Call) (es : List Enumerator) (close : String) : List Call :=
  [code 0 "\n", .remark o.mShortDescription, .remark o.mLongDescription, title, code 0 "\x7b\n"] ++
  es.flatMap Enumerator.calls ++ [code 0 close, code 0 "\n"]

def cppEnumerators (o : Object) : List Enumerator :=
  o.mItems.map fun i => ⟨i.mMember, if i.mDefaultValue = [] then none else some i.mDefaultValue,
    i.mShortDescription⟩

def podEnumerators (o : Object) : List Enumerator :=
  o.mItems.map fun i => ⟨i.mMember, none, i.mShortDescription⟩

def savePodEnum (o : Object) : List Call :=
  enumText o (code 0 "enum class %s : uint32_t\n" [o.mName]) (podEnumerators o) "\x7d;\n"

/-- Those of the `enum` that `saveTypeScript` prints. -/
def typeScriptEnumerators (o : Object) : List Enumerator :=
  o.mItems.map fun i => ⟨i.mMember, none, i.mShortDescription⟩

structure Assignment where
  name : Text
  value : Int
  note : Text
  deriving DecidableEq, Repr

/-- An unsigned counter of 32 bits, as `%d` prints it. -/
def printed (id : Nat) : Int := Int.bmod id (2 ^ 32)

def pythonConstants (id : Nat) : List MemberVariable → List Assignment
  | [] => []
  | i :: items =>
      ⟨i.mMember, printed id, i.mShortDescription⟩ :: pythonConstants ((id + 1) % 2 ^ 32) items

def pythonStrings (o : Object) : List Text := o.mItems.map MemberVariable.mMember

/-- Without a value of its own an enumerator has the one after the last. -/
def assign (integer : Text → Nat) (next : Nat) : List Enumerator → List Nat
  | [] => []
  | e :: es =>
      let value := (e.value.map integer).getD next
      value :: assign integer (value + 1) es

def subscript {α : Type} (l : List α) (k : Int) : Option α :=
  if 0 ≤ k then l[k.toNat]? else if 0 ≤ l.length + k then l[(l.length + k).toNat]? else none

variable (integer : Text → Nat) (o : Object)

/-- The items have the same integers in all four outputs, and Python finds their names in its
table under them. -/
structure NumberedAlike : Prop where
  pod : assign integer 0 (podEnumerators o) = assign integer 0 (cppEnumerators o)
  typeScript : assign integer 0 (typeScriptEnumerators o) = assign integer 0 (cppEnumerators o)
  python : (pythonConstants 0 o.mItems).map Assignment.value =
    (assign integer 0 (cppEnumerators o)).map Nat.cast
  table : (pythonConstants 0 o.mItems).map (fun a => subscript (pythonStrings o) a.value) =
    o.mItems.map fun i => some i.mMember

/-- A value that an item states is the number of items above it. -/
def AtPosition : Prop :=
  ∀ k i, o.mItems[k]? = some i → i.mDefaultValue ≠ [] → integer i.mDefaultValue = k

variable {integer o}

theorem saveEnum_eq : saveEnum o =
    enumText o (code 0 "enum class %s : uint64_t\n" [o.mName]) (cppEnumerators o) "\x7d;\n" := by
  rw [saveEnum, enumText, cppEnumerators, List.flatMap_map]
  congr 2
  apply List.flatMap_congr
  intro i _
  rw [enumItem, Enumerator.calls]
  split_ifs <;> rfl

theorem numbered_eq_assign : (numbered (fun _ => integer) [] 0 o.mItems).map Prod.snd =
    assign integer 0 (cppEnumerators o) := by
  have hitems : ∀ (items : List MemberVariable) known next,
      (numbered (fun _ => integer) known next items).map Prod.snd =
        assign integer next (cppEnumerators { o with mItems := items }) := by
    intro items
    induction items with
    | nil => exact fun _ _ => rfl
    | cons i items ih =>
        intro known next
        have hvalue : (if i.mDefaultValue = [] then next else integer i.mDefaultValue) =
            (Option.map integer (if i.mDefaultValue = [] then none
              else some i.mDefaultValue)).getD next := by
          split_ifs <;> rfl
        simp only [numbered, List.map_cons, ih, cppEnumerators, assign, hvalue]
  exact hitems o.mItems [] 0

theorem assign_eq_range {next : Nat} {es : List Enumerator} :
    assign integer next es = List.range' next es.length ↔
      ∀ k e, es[k]? = some e → ∀ value, e.value = some value → integer value = next + k := by
  induction es generalizing next with
  | nil => simp [assign]
  | cons e es ih =>
      rw [assign, List.length_cons, List.range'_succ]
      constructor
      · intro h k e' he value hvalue
        obtain ⟨hnext, hrest⟩ := List.cons.inj h
        cases k with
        | zero =>
            obtain rfl : e = e' := by simpa using he
            simpa [hvalue] using hnext
        | succ k =>
            rw [hnext] at hrest
            have hk := ih.mp hrest k e' (by simpa using he) value hvalue
            omega
      · intro h
        have hnext : (e.value.map integer).getD next = next := by
          cases hvalue : e.value with
          | none => rfl
          | some value => exact h 0 e rfl value hvalue
        rw [hnext, ih.mpr fun k e' he value hvalue => ?_]
        have hk := h (k + 1) e' (by simpa using he) value hvalue
        omega

theorem assign_plain : assign integer 0 (podEnumerators o) = List.range o.mItems.length := by
  have h := (@assign_eq_range integer 0 (podEnumerators o)).mpr (by
    intro k e he value hvalue
    obtain ⟨i, _, rfl⟩ := List.mem_map.mp (List.mem_of_getElem? he)
    exact absurd hvalue (by simp))
  rwa [podEnumerators, List.length_map, ← List.range_eq_range'] at h

theorem assign_cpp :
    assign integer 0 (cppEnumerators o) = List.range o.mItems.length ↔ AtPosition integer o := by
  have h := @assign_eq_range integer 0 (cppEnumerators o)
  rw [cppEnumerators, List.length_map, ← List.range_eq_range', ← cppEnumerators] at h
  rw [h, AtPosition]
  constructor
  · intro h k i hi hvalue
    have hk := h k _ (by rw [cppEnumerators, List.getElem?_map, hi, Option.map_some]) i.mDefaultValue
      (by simp [hvalue])
    omega
  · intro h k e he value hvalue
    rw [cppEnumerators, List.getElem?_map, Option.map_eq_some_iff] at he
    obtain ⟨i, hi, rfl⟩ := he
    split_ifs at hvalue with hnone
    · rw [← Option.some.inj hvalue, h k i hi hnone]
      omega

theorem bmod_mod_add (id k n : Nat) :
    Int.bmod ((id % n + k : Nat) : Int) n = Int.bmod ((id + k : Nat) : Int) n := by
  rw [Int.natCast_add, Int.natCast_add, Int.natCast_emod, Int.emod_add_bmod]

theorem printed_mod_add (id k : Nat) : printed (id % 2 ^ 32 + k) = printed (id + k) :=
  bmod_mod_add id k (2 ^ 32)

theorem printed_of_lt {k : Nat} (h : k < 2 ^ 31) : printed k = k := by
  unfold printed
  exact Int.bmod_eq_of_le (by omega) (by omega)

theorem getElem?_pythonConstants (id k : Nat) (items : List MemberVariable) :
    (pythonConstants id items)[k]? =
      items[k]?.map fun i => ⟨i.mMember, printed (id + k), i.mShortDescription⟩ := by
  induction items generalizing id k with
  | nil => rfl
  | cons i items ih =>
      cases k with
      | zero => rfl
      | succ k =>
          have hnext : printed ((id + 1) % 2 ^ 32 + k) = printed (id + (k + 1)) := by
            rw [printed_mod_add, Nat.add_assoc, Nat.add_comm 1]
          simp only [pythonConstants, List.getElem?_cons_succ, ih, hnext]

theorem pythonConstants_values (items : List MemberVariable) :
    (pythonConstants 0 items).map Assignment.value = (List.range items.length).map printed := by
  refine List.ext_getElem? fun k => ?_
  rw [List.getElem?_map, getElem?_pythonConstants, List.getElem?_map, Nat.zero_add]
  by_cases hk : k < items.length
  · rw [List.getElem?_eq_getElem hk, List.getElem?_range hk, Option.map_some, Option.map_some,
      Option.map_some]
  · rw [List.getElem?_eq_none (by omega), List.getElem?_eq_none (by simpa using hk), Option.map_none,
      Option.map_none, Option.map_none]

theorem constants_eq_range : (pythonConstants 0 o.mItems).map Assignment.value =
    (List.range o.mItems.length).map Nat.cast ↔ o.mItems.length ≤ 2 ^ 31 := by
  rw [pythonConstants_values, List.map_inj_left]
  constructor
  · intro h
    by_contra hlen
    have hwrap := h (2 ^ 31) (List.mem_range.mpr (by omega))
    exact absurd hwrap (by decide)
  · intro hlen k hk
    exact printed_of_lt (by rw [List.mem_range] at hk; omega)

theorem subscript_natCast {α : Type} (l : List α) (k : Nat) : subscript l k = l[k]? := by
  rw [subscript, if_pos (Int.natCast_nonneg k), Int.toNat_natCast]

/-- All outputs number the items of an enum alike exactly when every value that an item states
is its position, and the positions fit the counter of Python. -/
theorem numberedAlike_iff (integer : Text → Nat) (o : Object) :
    NumberedAlike integer o ↔ AtPosition integer o ∧ o.mItems.length ≤ 2 ^ 31 := by
  constructor
  · intro h
    have hcpp : assign integer 0 (cppEnumerators o) = List.range o.mItems.length :=
      h.pod.symm.trans assign_plain
    exact ⟨assign_cpp.mp hcpp, constants_eq_range.mp (hcpp ▸ h.python)⟩
  · rintro ⟨hposition, hlen⟩
    have hcpp := assign_cpp.mpr hposition
    have hpython := constants_eq_range.mpr hlen
    refine ⟨assign_plain.trans hcpp.symm, assign_plain.trans hcpp.symm, ?_, ?_⟩
    · rw [hpython, hcpp]
    · have hcomp : (fun a : Assignment => subscript (pythonStrings o) a.value) =
          subscript (pythonStrings o) ∘ Assignment.value := rfl
      rw [hcomp, ← List.map_map, hpython, List.map_map]
      refine List.ext_getElem? fun k => ?_
      by_cases hk : k < o.mItems.length
      · simp [hk, subscript_natCast, pythonStrings]
      · simp [hk]

section Examples

def decimal (text : Text) : Nat := text.foldl (fun n c => 10 * n + (c.toNat - '0'.toNat)) 0

def statedItem (name value : String) : MemberVariable where
  mMember := name.toList
  mDefaultValue := value.toList

def port : Object where
  mName := "Port".toList
  mType := "Enum".toList
  mIsEnum := true
  mItems := [statedItem "CLOSED" "", statedItem "HTTP" "80", statedItem "NEXT" ""]

/-- The items are 0, 80 and 81 in the header, and 0, 1 and 2 in the other outputs. -/
theorem port_numbered : ¬ NumberedAlike decimal port ∧
    assign decimal 0 (cppEnumerators port) = [0, 80, 81] ∧
    assign decimal 0 (podEnumerators port) = [0, 1, 2] ∧
    assign decimal 0 (typeScriptEnumerators port) = [0, 1, 2] ∧
    (pythonConstants 0 port.mItems).map Assignment.value = [0, 1, 2] :=
  ⟨fun h => absurd h.pod (by decide), by decide, by decide, by decide, by decide⟩

end Examples

end SchemaCodeGen.EnumBackends
