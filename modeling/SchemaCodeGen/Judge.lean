import SchemaCodeGen.Fresh

namespace SchemaCodeGen.Judge

open CString Floats Json Schema Emit EnumTable Generated Slots

/-- A pointer has no form in a document. In an array the code ignores the mark. -/
def HasForm (i : MemberVariable) : Prop := i.mIsPointer = true → i.mIsArray = true

instance (i : MemberVariable) : Decidable (HasForm i) :=
  inferInstanceAs (Decidable (i.mIsPointer = true → i.mIsArray = true))

theorem noPointer_of_form {i : MemberVariable} (h : HasForm i) (ha : i.mIsArray = false) :
    i.mIsPointer = false := by
  rw [← Bool.not_eq_true]
  exact fun hp => absurd (h hp) (by simp [ha])

theorem form_of_noPointer {i : MemberVariable} (h : i.mIsPointer = false) : HasForm i :=
  fun hp => absurd hp (by simp [h])

/-- A document is accepted, is rejected, or leads to an accessor on a value of a kind the
accessor asserts against. -/
inductive Verdict
  | accept
  | reject
  | misuse
  deriving DecidableEq, Repr

def first : List Verdict → Verdict
  | [] => .accept
  | .accept :: l => first l
  | v :: _ => v

def acceptOr (v : Verdict) (p : Prop) [Decidable p] : Verdict := if p then .accept else v

def Flagged (type : StandardType) (n : Int) : Prop :=
  match type with
  | .u64 => 0 ≤ n ∧ n < 2 ^ 64
  | .u32 => 0 ≤ n ∧ n < 2 ^ 32
  | .i64 => -2 ^ 63 ≤ n ∧ n < 2 ^ 63
  | _ => False

instance (type : StandardType) (n : Int) : Decidable (Flagged type n) := by
  cases type <;> simp only [Flagged] <;> infer_instance

def number (type : StandardType) : Value → Verdict
  | .number (.int n) => acceptOr .misuse (Flagged type n)
  | .number (.double _) => .misuse
  | _ => .reject

def integer (type : StandardType) : Value → Verdict
  | .string _ => .accept
  | v => number type v

def checked (type : StandardType) (v : Value) : Verdict :=
  match type, v with
  | .boolType, .bool _ => .accept
  | .stringType, .string _ => .accept
  | .doubleType, .number (.double _) => .accept
  | .floatType, .number (.double x) => acceptOr .misuse (x.between (-floatLimit) floatLimit = true)
  | .doubleType, v | .floatType, v => number .u64 v
  | _, _ => .reject

variable (b : Build)

def enumName (type : Text) : Value → Verdict
  | .string s =>
      acceptOr .reject (((b.enumType type).bind fun e => unstringifyEnum b.constant e (cstr s)).isSome)
  | _ => .reject

def enum (type : Text) (asInteger : Bool) (v : Value) : Verdict :=
  match asInteger, v with
  | true, .number _ => number .u64 v
  | _, v => enumName b type v

def array (element : Value → Verdict) : Value → Verdict
  | .array l => first (l.map element)
  | _ => .reject

def everyMember (d : Value) (p : Value → Verdict) : Verdict :=
  match d with
  | .object ms => first (ms.map fun e => p e.2)
  | _ => .misuse

/-- The member of the name is judged, and only a required one may not be absent. -/
def member (d : Value) (name : Text) (required : Bool) (p : Value → Verdict) : Verdict :=
  match d with
  | .object ms =>
      match ms.lookup name with
      | some v => p v
      | none => if required then .reject else .accept
  | _ => .misuse

def statement (call : Text → Value → Verdict) (d : Value) : DeserializeStmt → Verdict
  | .numericMap _ _ => everyMember d fun
      | .string _ => .accept
      | .number n => number .u64 (.number n)
      | _ => .accept
  | .stringMap _ _ _ => everyMember d fun _ => .accept
  | .integer m type required => member d m required (integer type)
  | .integerArray m type required => member d m required (array (integer type))
  | .checked m type required => member d m required (checked type)
  -- A value that is a string is no array.
  | .checkedArray m _ required => member d m required fun _ => .reject
  | .enum m type asInteger => member d m false (enum b type asInteger)
  | .enumArray m type required => member d m required (array (enumName b type))
  | .enumListMap _ type => everyMember d (array (enumName b type))
  | .object m type required => member d m required (call type)
  | .objectArray m type required => member d m required (array (call type))
  | .todo => .accept

def statementOf (s : Slot) : Option DeserializeStmt :=
  deserializeStmt b.classEnum ((s.1.head?.map nonMapItems).getD []) s.2

def slot (call : Text → Value → Verdict) (d : Value) (s : Slot) : Verdict :=
  ((statementOf b s).map (statement b call d)).getD .accept

/-- The members are judged in order, those of the root class first. -/
def cls : Nat → Text → Value → Verdict
  | 0, _, _ => .accept
  | n + 1, name, d => first (((b.chain name).getD [] |> slots).map (slot b (cls n) d))

/-- The judgement of a document as an object of a class. -/
def verdict (name : Text) (d : Value) : Verdict := cls b (d.depth + 1) name d

end SchemaCodeGen.Judge
