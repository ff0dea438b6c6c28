import SchemaCodeGen.CString
import SchemaCodeGen.Floats

namespace SchemaCodeGen.Json

open CString Floats

/-- An integral number carries an integer flag for each type its value fits. -/
inductive Number
  | int (n : Int)
  | double (x : Ieee)
  deriving DecidableEq

inductive Value
  | null
  | bool (b : Bool)
  | number (n : Number)
  | string (s : Text)
  | array (items : List Value)
  | object (members : List (Text × Value))

abbrev Members := List (Text × Value)

namespace Value

mutual

def depth : Value → Nat
  | .array items => depthItems items + 1
  | .object members => depthMembers members + 1
  | .null | .bool _ | .number _ | .string _ => 0

def depthItems : List Value → Nat
  | [] => 0
  | j :: items => max (depth j) (depthItems items)

def depthMembers : List (Text × Value) → Nat
  | [] => 0
  | (_, j) :: members => max (depth j) (depthMembers members)

end

theorem depth_le_depthItems {j : Value} {items : List Value} (h : j ∈ items) :
    j.depth ≤ depthItems items := by
  induction items with
  | nil => simp at h
  | cons i items ih =>
      simp only [depthItems]
      obtain rfl | h := List.mem_cons.mp h
      · exact le_max_left _ _
      · exact le_trans (ih h) (le_max_right _ _)

theorem depth_le_depthMembers {e : Text × Value} {members : Members} (h : e ∈ members) :
    e.2.depth ≤ depthMembers members := by
  induction members with
  | nil => simp at h
  | cons e' members ih =>
      simp only [depthMembers]
      obtain rfl | h := List.mem_cons.mp h
      · exact le_max_left _ _
      · exact le_trans (ih h) (le_max_right _ _)

def isString : Value → Bool
  | .string _ => true
  | _ => false

/-- `MemberBegin` to `MemberEnd`, which assert an object. -/
def memberList : Value → Option Members
  | .object members => some members
  | _ => none

/-- `FindMember`, which asserts an object and finds the first member of the name. -/
def findMember (j : Value) (name : Text) : Option (Option Value) :=
  j.memberList.map fun members => members.lookup name

def getUint : Value → Option Int
  | .number (.int n) => if 0 ≤ n ∧ n < 2 ^ 32 then some n else none
  | _ => none

def getUint64 : Value → Option Int
  | .number (.int n) => if 0 ≤ n ∧ n < 2 ^ 64 then some n else none
  | _ => none

def getInt64 : Value → Option Int
  | .number (.int n) => if -2 ^ 63 ≤ n ∧ n < 2 ^ 63 then some n else none
  | _ => none

theorem depth_lookup {members : Members} {name : Text} {j : Value}
    (h : members.lookup name = some j) : j.depth < (Value.object members).depth := by
  have hmem : (name, j) ∈ members := by
    induction members with
    | nil => simp at h
    | cons e members ih =>
        rw [List.lookup_cons] at h
        split at h
        next heq =>
          obtain rfl := Option.some.inj h
          obtain rfl : name = e.1 := by simpa using heq
          exact List.mem_cons_self
        next => exact List.mem_cons_of_mem _ (ih h)
  exact Nat.lt_succ_of_le (depth_le_depthMembers hmem)

theorem depth_item {items : List Value} {j : Value} (h : j ∈ items) :
    j.depth < (Value.array items).depth :=
  Nat.lt_succ_of_le (depth_le_depthItems h)

end Value

end SchemaCodeGen.Json
