import SchemaCodeGen.Emit
import SchemaCodeGen.Entries
import SchemaCodeGen.EnumTable
import SchemaCodeGen.Fallible
import SchemaCodeGen.Json

namespace SchemaCodeGen.Generated

open CString Floats Json Schema Emit EnumTable

/-- A value of a generated type. An object keeps its members by the number of base classes
below the declaring class and by name; an optional without value is `empty`. -/
inductive Datum
  | int (n : Int)
  | real (x : Ieee)
  | bool (b : Bool)
  | str (s : Text)
  | enum (n : Nat)
  | empty
  | vec (items : List Datum)
  | map (entries : List (Text × Datum))
  | object (fields : Nat → Text → Datum)

abbrev Fields := Nat → Text → Datum

def Fields.set (f : Fields) (level : Nat) (name : Text) (d : Datum) : Fields :=
  fun l m => if l = level ∧ m = name then d else f l m

theorem Fields.set_same (f : Fields) (l : Nat) (m : Text) (d : Datum) : f.set l m d l m = d := by
  simp [Fields.set]

theorem Fields.set_of_ne (f : Fields) {l l' : Nat} {m m' : Text} (d : Datum)
    (h : (l', m') ≠ (l, m)) : f.set l m d l' m' = f l' m' := by
  have h : ¬ (l' = l ∧ m' = m) := fun ⟨hl, hm⟩ => h (by rw [hl, hm])
  simp [Fields.set, h]

theorem Fields.set_self (f : Fields) (l : Nat) (m : Text) : f.set l m (f l m) = f := by
  funext l' m'
  by_cases h : l' = l ∧ m' = m
  · simp [Fields.set, h]
  · simp [Fields.set, h]

theorem Fields.set_set (f : Fields) (l : Nat) (m : Text) (d d' : Datum) :
    (f.set l m d).set l m d' = f.set l m d' := by
  funext l' m'
  by_cases h : l' = l ∧ m' = m <;> simp [Fields.set, h]

/-- Why a run of generated code does not go on: it returns false, violates the precondition
of a document accessor, fails an assertion of its own, was never compiled, or is cut off
by the recursion bound of the model. -/
inductive Halt
  | returnFalse
  | misuse
  | assertion
  | illFormed
  | fuel
  deriving DecidableEq, Repr

abbrev Run := Except Halt

def orHalt {α : Type} (h : Halt) : Option α → Run α
  | some a => .ok a
  | none => .error h

@[simp] theorem orHalt_some {α : Type} (h : Halt) (a : α) : orHalt h (some a) = .ok a := rfl

@[simp] theorem orHalt_none {α : Type} (h : Halt) : (orHalt h none : Run α) = .error h := rfl

theorem orHalt_eq_ok {α : Type} {h : Halt} {o : Option α} {a : α} :
    orHalt h o = .ok a ↔ o = some a := by
  cases o <;> simp [orHalt]

/-- A DOM the code is generated from, with the values C++ gives to the default texts copied
into the code. -/
structure Build where
  dom : DOM
  constant : Constant
  initial : MemberVariable → Datum

variable (b : Build)

def Build.object (name : Text) : Option Object := b.dom.mObjects.reverse.find? fun o => o.mName = name

def Build.classEnum (type : Text) : Option Bool := (b.object type).map Object.mIsEnum

def Build.enumType (name : Text) : Option Object := (b.object name).filter Object.mIsEnum

def Build.classType (name : Text) : Option Object := (b.object name).filter fun o => !o.mIsEnum

/-- The type of a member is a class of the schema, and no name of a standard type. -/
def Build.isClass (type : Text) : Bool :=
  getStandardType type == .none && b.classEnum type == some false

def Build.chainFrom : Nat → Text → Option (List Object)
  | 0, _ => none
  | n + 1, name =>
      (b.classType name).bind fun o =>
        if o.mInheritsFrom = [] then some [o] else (chainFrom n o.mInheritsFrom).map (o :: ·)

/-- A class and its bases, the class first. There is none when a base is missing or the
bases run in a circle. -/
def Build.chain (name : Text) : Option (List Object) := b.chainFrom b.dom.mObjects.length name

def level (chain : List Object) : Nat := chain.length - 1

/-- Member lookup of C++: the first class from here down that declares the name. -/
def findField (name : Text) : List Object → Option (Nat × MemberVariable)
  | [] => none
  | o :: bases =>
      match (ownItems o).find? fun i => memberName i = name with
      | some i => some (bases.length, i)
      | none => findField name bases

def isMember (chain : List Object) (name : Text) : Bool :=
  chain.any fun o => (memberNames o).contains name

section Serialize

def rawValue : Datum → Run Value
  | .int n => .ok (.number (.int n))
  | .real x => .ok (.number (.double x))
  | .bool b => .ok (.bool b)
  | _ => .error .illFormed

def stringValue : Datum → Run Value
  | .str s => .ok (.string (cstr s))
  | _ => .error .illFormed

def enumName (type : Text) : Datum → Run Value
  | .enum n => do
      let e ← orHalt .illFormed (b.enumType type)
      let s ← orHalt .assertion (stringifyEnum b.constant e n)
      .ok (.string s)
  | _ => .error .illFormed

def enumInteger : Datum → Run Value
  | .enum n => .ok (.number (.int n))
  | _ => .error .illFormed

def items : Datum → Run (List Datum)
  | .vec l => .ok l
  | _ => .error .illFormed

def entries : Datum → Run (List (Text × Datum))
  | .map l => .ok l
  | _ => .error .illFormed

/-- `AddMember`, behind a test of `has_value` when the member is optional. -/
def addMember (member : Text) (optional : Bool) (d : Datum) (value : Datum → Run Value) :
    Run Members :=
  match optional, d with
  | true, .empty => .ok []
  | _, d => do .ok [(member, ← value d)]

def addArray (member : Text) (d : Datum) (value : Datum → Run Value) : Run Members := do
  .ok [(member, .array (← (← items d).mapM value))]

def addEntries (d : Datum) (value : Datum → Run Value) : Run Members := do
  (← entries d).mapM fun e => do .ok (cstr e.1, ← value e.2)

variable (call : Text → Datum → Run Members) (own : Text → Datum)

def objectValue (type : Text) (d : Datum) : Run Value := do .ok (.object (← call type d))

def runSerialize : SerializeStmt → Run Members
  | .raw m optional => addMember m optional (own m) rawValue
  -- The elements of a `std::vector<bool>` do not bind to the loop's reference.
  | .rawArray m type =>
      if type = .boolType then .error .illFormed else addArray m (own m) rawValue
  | .rawMap m => addEntries (own ('_' :: m)) rawValue
  | .string m optional => addMember m optional (own m) stringValue
  -- A container has no `has_value`.
  | .stringArray m optional =>
      if optional then .error .illFormed else addArray m (own m) stringValue
  | .stringMap m optional =>
      if optional then .error .illFormed else addEntries (own ('_' :: m)) stringValue
  | .enum m type optional asInteger =>
      addMember m optional (own m) (if asInteger then enumInteger else enumName b type)
  | .enumArray m type => addArray m (own m) (enumName b type)
  | .enumListMap m type => addEntries (own ('_' :: m)) fun d => do
      .ok (.array (← (← items d).mapM (enumName b type)))
  | .object m type optional => addMember m optional (own m) (objectValue call type)
  | .objectArray m type => addArray m (own m) (objectValue call type)

end Serialize

def serializeItem (call : Text → Datum → Run Members) (own : Text → Datum) (i : MemberVariable) :
    Run Members := do
  runSerialize b call own (← orHalt .illFormed (serializeStmt b.classEnum i))

def serializeChain (call : Text → Datum → Run Members) (f : Fields) : List Object → Run Members
  | [] => .ok []
  | o :: bases => do
      let inherited ← serializeChain call f bases
      let own ← (ownItems o).mapM (serializeItem b call (f bases.length))
      .ok (inherited ++ own.flatten)

/-- The emitted `serializeTo` of a class, on an object without members. -/
def serializeTo : Nat → Text → Datum → Run Members
  | 0, _, _ => .error .fuel
  | n + 1, name, d =>
      match b.chain name, d with
      | some chain, .object f => serializeChain b (serializeTo n) f chain
      | _, _ => .error .illFormed

section Deserialize

def clamp (lo hi n : Int) : Int := max lo (min hi n)

def atoi (s : Text) : Int := clamp (-2 ^ 31) (2 ^ 31 - 1) (decimal s)

def atoi64 (s : Text) : Int := clamp (-2 ^ 63) (2 ^ 63 - 1) (decimal s)

def convert (type : StandardType) (n : Int) : Int :=
  match type with
  | .u64 => n % 2 ^ 64
  | .u32 => n % 2 ^ 32
  | .u16 => n % 2 ^ 16
  | .u8 => n % 2 ^ 8
  | .i64 => Int.bmod n (2 ^ 64)
  | .i32 => Int.bmod n (2 ^ 32)
  | .i16 => Int.bmod n (2 ^ 16)
  | .i8 => Int.bmod n (2 ^ 8)
  | .none | .floatType | .doubleType | .boolType | .stringType => n

def stringToInt (type : StandardType) (s : Text) : Int :=
  convert type (if type = .u64 ∨ type = .i64 then atoi64 s else atoi s)

/-- Call of an integer accessor, which asserts the matching flag. -/
def integerAccessor (type : StandardType) (v : Value) : Run Int :=
  match (deserializeTypeName type).1 with
  | some name =>
      if name = "GetUint64".toList then orHalt .misuse v.getUint64
      else if name = "GetUint".toList then orHalt .misuse v.getUint
      else if name = "GetInt64".toList then orHalt .misuse v.getInt64
      else .error .illFormed
  | none => .error .illFormed

def readInteger (type : StandardType) (v : Value) : Run Int :=
  match v with
  | .string s => .ok (stringToInt type (cstr s))
  | .number _ => integerAccessor type v
  | _ => .error .returnFalse

/-- The double nearest to the literal 3.4028234e38 in `IsFloat`. -/
def floatLimit : ℚ :=
  match binary64.round (34028234 * 10 ^ 31) with
  | .fin q => q
  | _ => 0

/-- `IsBool`, `IsFloat`, `IsDouble` or `IsString`. -/
def checkName (type : StandardType) (v : Value) : Bool :=
  match type, v with
  | .boolType, .bool _ => true
  | .floatType, .number (.double x) => x.between (-floatLimit) floatLimit
  | .doubleType, .number (.double _) => true
  | .stringType, .string _ => true
  | _, _ => false

/-- `GetBool`, `GetFloat`, `GetDouble` or `GetString`, behind the check. -/
def getName (type : StandardType) (v : Value) : Run Datum :=
  match type, v with
  | .boolType, .bool b => .ok (.bool b)
  | .floatType, .number (.double x) => .ok (.real (binary32.narrow x))
  | .doubleType, .number (.double x) => .ok (.real x)
  | .stringType, .string s => .ok (.str (cstr s))
  | _, _ => .error .illFormed

def readOtherNumber (type : StandardType) (v : Value) : Run Datum := do
  match type, v with
  | .floatType, .number _ => .ok (.real (binary32.round (← orHalt .misuse v.getUint64)))
  | .doubleType, .number _ => .ok (.real (binary64.round (← orHalt .misuse v.getUint64)))
  | _, _ => .error .returnFalse

def readChecked (type : StandardType) (v : Value) : Run Datum :=
  if checkName type v then getName type v else readOtherNumber type v

def readEnumName (type : Text) (v : Value) : Run Datum :=
  match v with
  | .string s => do
      let e ← orHalt .illFormed (b.enumType type)
      .ok (.enum (← orHalt .returnFalse (unstringifyEnum b.constant e (cstr s))))
  | _ => .error .returnFalse

def readEnum (type : Text) (asInteger : Bool) (v : Value) : Run Datum :=
  match asInteger, v with
  | true, .number _ => do .ok (.enum (← orHalt .misuse v.getUint64).toNat)
  | _, _ => readEnumName b type v

/-- The `FindMember` block with its `else` branch, which only required members have. -/
def withMember (d : Value) (member : Text) (required : Bool) (f : Fields)
    (found : Value → Run Fields) : Run Fields := do
  match ← orHalt .misuse (d.findMember member) with
  | some v => found v
  | none => if required then .error .returnFalse else .ok f

def arrayItems : Value → Run (List Value)
  | .array l => .ok l
  | _ => .error .returnFalse

/-- The locals of the integer array block, which a vector of their name would hide. -/
def arrayLocals : List Text :=
  ["v".toList, "i".toList, "r".toList, "entry".toList, "ivalue".toList, "stringToInt".toList]

def Fields.assign (f : Fields) (l : Nat) (member key : Text) (d : Datum) : Run Fields := do
  .ok (f.set l member (.map (Entries.assign key d (← entries (f l member)))))

def Fields.pushBack (f : Fields) (l : Nat) (member : Text) (d : Datum) : Run Fields := do
  .ok (f.set l member (.vec ((← items (f l member)) ++ [d])))

variable (call : Text → Value → Fields → Run Fields) (fresh : Text → Option Fields)
  (chain : List Object) (d : Value)

def readObject (type : Text) (v : Value) : Run Datum := do
  let h ← orHalt .illFormed (fresh type)
  .ok (.object (← call type v h))

/-- A block on `d`, in the function of the class that heads the chain. -/
def runDeserialize (f : Fields) : DeserializeStmt → Run Fields
  | .numericMap m type => do
      (← orHalt .misuse d.memberList).foldlM (fun f e =>
        match e.2 with
        | .string s => f.assign (level chain) ('_' :: m) (cstr e.1)
            (.int (convert type (stringToInt .u64 (cstr s))))
        | .number _ => do
            let n ← orHalt .misuse e.2.getUint64
            f.assign (level chain) ('_' :: m) (cstr e.1) (.int (convert type n))
        | _ => .ok f) f
  | .stringMap m type skipMembers => do
      if type ≠ .stringType then .error .illFormed else
      (← orHalt .misuse d.memberList).foldlM (fun f e =>
        match e.2 with
        | .string s =>
            if skipMembers && isMember chain (cstr e.1) then .ok f
            else f.assign (level chain) ('_' :: m) (cstr e.1) (.str (cstr s))
        | _ => .ok f) f
  | .integer m type required => withMember d m required f fun v => do
      .ok (f.set (level chain) m (.int (← readInteger type v)))
  | .integerArray m type required =>
      if arrayLocals.contains m then .error .illFormed else
      withMember d m required f fun v => do
        .ok (f.set (level chain) m (.vec ((← (← arrayItems v).mapM (readInteger type)).map .int)))
  | .checked m type required => withMember d m required f fun v => do
      .ok (f.set (level chain) m (← readChecked type v))
  | .checkedArray m type required =>
      -- Only the elements of a string array convert to `std::string`.
      if type ≠ .stringType then .error .illFormed else
      withMember d m required f fun v =>
        if checkName type v then do
          (← arrayItems v).foldlM (fun f item => do
            if checkName type item then f.pushBack (level chain) m (← getName type item)
            else .error .returnFalse) f
        else .error .returnFalse
  | .enum m type asInteger => withMember d m false f fun v => do
      .ok (f.set (level chain) m (← readEnum b type asInteger v))
  | .enumArray m type required =>
      -- The elements go to the member `acl`, whatever the name of the array.
      match findField "acl".toList chain with
      | some (l, i) =>
          if i.mIsArray ∧ i.mType = type then
            withMember d m required f fun v => do
              (← arrayItems v).foldlM (fun f item => do
                f.pushBack l "acl".toList (← readEnumName b type item)) f
          else .error .illFormed
      | none => .error .illFormed
  | .enumListMap m type => do
      (← orHalt .misuse d.memberList).foldlM (fun f e => do
        let l ← (← arrayItems e.2).mapM (readEnumName b type)
        f.assign (level chain) ('_' :: m) (cstr e.1) (.vec l)) f
  | .object m type required => withMember d m required f fun v => do
      .ok (f.set (level chain) m (← readObject call fresh type v))
  | .objectArray m type required => withMember d m required f fun v => do
      (← arrayItems v).foldlM (fun f item => do
        f.pushBack (level chain) m (← readObject call fresh type item)) f
  | .todo => .ok f

end Deserialize

section Construct

def zero : StandardType → Datum
  | .floatType | .doubleType => .real (.fin 0)
  | .boolType => .bool false
  | .stringType => .str []
  | .none | .u64 | .u32 | .u16 | .u8 | .i64 | .i32 | .i16 | .i8 => .int 0

def isVector (type : Text) : Bool := type = "Vec3".toList || type = "Quat".toList

variable (call : Text → Option Fields)

/-- The initializer in the declaration of a member. -/
def initialValue (i : MemberVariable) : Option Datum :=
  let optional := i.mIsOptional = .optional
  if i.mIsArray then some (if i.mIsMap then .map [] else .vec [])
  else if i.mIsPointer then some .empty
  else if getStandardType i.mType ≠ .none then
    if i.mDefaultValue ≠ [] then some (b.initial i)
    else some (if optional then .empty else zero (getStandardType i.mType))
  else if isVector i.mType ∧ i.mDefaultValue ≠ [] then some (b.initial i)
  else
    match b.classEnum i.mType with
    | none => none
    | some true =>
        if i.mDefaultValue ≠ [] then some (b.initial i)
        else some (if optional then .empty else .enum 0)
    | some false => if optional then some .empty else (call i.mType).map .object

/-- The right hand side of an assignment in the constructor. There is none for an array,
to which the code would assign a null pointer. -/
def assignedValue (i : MemberVariable) : Option Datum :=
  if i.mIsArray then none
  else if getStandardType i.mType ≠ .none ∨ isVector i.mType then some (b.initial i)
  else
    match b.classEnum i.mType with
    | none => none
    | some true => some (b.initial i)
    | some false => (call i.mType).map .object

/-- An assignment of the constructor, to a member qualified with a base class. -/
def assignRestated (chain : List Object) (f : Fields) (i : MemberVariable) : Option Fields := do
  let (l, target) ← findField (memberName i) (chain.dropWhile fun o => o.mName ≠ i.mInheritsFrom)
  if target.mIsArray then none else
  some (f.set l (memberName i) (← assignedValue b call i))

def constructChain : List Object → Option Fields
  | [] => some fun _ _ => .empty
  | o :: bases => do
      let f ← constructChain bases
      let f ← (ownItems o).foldlM (fun f i => do
        some (f.set bases.length (memberName i) (← initialValue b call i))) f
      -- A class with an assignment constructor has an empty default constructor.
      if o.mAssignment then some f else (restatedItems o).foldlM (assignRestated b call (o :: bases)) f

def construct : Nat → Text → Option Fields
  | 0, _ => none
  | n + 1, name => (b.chain name).bind (constructChain b (construct n))

/-- A default constructed object. There is none when objects would have to contain
themselves. -/
def Build.fresh (name : Text) : Option Fields := construct b b.dom.mObjects.length name

end Construct

def deserializeItem (call : Text → Value → Fields → Run Fields) (chain : List Object) (d : Value)
    (f : Fields) (i : MemberVariable) : Run Fields := do
  let names := (chain.head?.map nonMapItems).getD []
  runDeserialize b call b.fresh chain d f
    (← orHalt .illFormed (deserializeStmt b.classEnum names i))

def deserializeChain (call : Text → Value → Fields → Run Fields) (d : Value) (f : Fields) :
    List Object → Run Fields
  | [] => .ok f
  | o :: bases => do
      let f ← deserializeChain call d f bases
      (ownItems o).foldlM (deserializeItem b call (o :: bases) d) f

/-- The emitted `deserializeFrom` of a class. -/
def deserializeFrom : Nat → Text → Value → Fields → Run Fields
  | 0, _, _, _ => .error .fuel
  | n + 1, name, d, f =>
      match b.chain name with
      | some chain => deserializeChain b (deserializeFrom n) d f chain
      | none => .error .illFormed

/-- The emitted `deserialize`, behind the parser. -/
def deserialize (n : Nat) (name : Text) (d : Value) : Run Datum :=
  readObject (deserializeFrom b n) b.fresh name d

section Equality

def compareLeaf : Datum → Datum → Run Bool
  | .int m, .int n => .ok (m == n)
  | .real x, .real y => .ok (x.eq y)
  | .bool p, .bool q => .ok (p == q)
  | .str s, .str t => .ok (s == t)
  | .enum m, .enum n => .ok (m == n)
  | _, _ => .error .illFormed

def compareList (compare : Datum → Datum → Run Bool) : List Datum → List Datum → Run Bool
  | [], [] => .ok true
  | x :: l, y :: l' => do
      if ← compare x y then compareList compare l l' else .ok false
  | _, _ => .ok false

variable (call : Text → Datum → Datum → Run Bool)

def compareElement (i : MemberVariable) (x y : Datum) : Run Bool :=
  if b.isClass i.mType then call i.mType x y else compareLeaf x y

/-- The comparison of maps entry by entry, whatever the order they are kept in. -/
def compareMap (compare : Datum → Datum → Run Bool) (l l' : List (Text × Datum)) : Run Bool :=
  if l.length ≠ l'.length then .ok false
  else
    l.foldlM (fun equal e =>
      match l'.lookup e.1 with
      | some y => do .ok (equal && (← compare e.2 y))
      | none => .ok false) true

def compareMember (i : MemberVariable) (x y : Datum) : Run Bool :=
  match x, y with
  | .empty, .empty => .ok true
  | .empty, _ | _, .empty => .ok false
  | .vec l, .vec l' => do
      if l.length = l'.length then compareList (compareElement b call i) l l' else .ok false
  | .map l, .map l' =>
      if getStandardType i.mType = .none then
        compareMap (fun x y => do
          compareList (compareElement b call i) (← items x) (← items y)) l l'
      else compareMap compareLeaf l l'
  | x, y => compareElement b call i x y

/-- `equal` compared with a member, when a member of that name is hidden by the local. -/
def compareLocal (equal : Bool) : Datum → Run Bool
  | .int n => .ok (n == if equal then 1 else 0)
  | .real x => .ok (x.eq (.fin (if equal then 1 else 0)))
  | .bool p => .ok (p == equal)
  | .empty => .ok false
  | _ => .error .illFormed

/-- `equal &= m == other.m`. Inside the operator the names `equal` and `other` do not mean
the members. -/
def equalItem (f g : Text → Datum) (equal : Bool) (i : MemberVariable) : Run Bool := do
  let name := memberName i
  if name = "other".toList then .error .illFormed
  else if name = "equal".toList then .ok (equal && (← compareLocal equal (g name)))
  else .ok (equal && (← compareMember b call i (f name) (g name)))

def equalChain (f g : Fields) : List Object → Run Bool
  | [] => .ok true
  | o :: bases => do
      let equal ← equalChain f g bases
      (ownItems o).foldlM (equalItem b call (f bases.length) (g bases.length)) equal

end Equality

/-- The emitted `operator==` of a class. -/
def equalTo : Nat → Text → Datum → Datum → Run Bool
  | 0, _, _, _ => .error .fuel
  | n + 1, name, x, y =>
      match b.chain name, x, y with
      | some chain, .object f, .object g => equalChain b (equalTo n) f g chain
      | _, _, _ => .error .illFormed

def notEqualTo (n : Nat) (name : Text) (x y : Datum) : Run Bool := do
  .ok (!(← equalTo b n name x y))

end SchemaCodeGen.Generated
