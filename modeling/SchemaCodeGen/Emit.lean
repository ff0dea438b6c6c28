import SchemaCodeGen.Schema

namespace SchemaCodeGen.Emit

open CString Schema

/-- The accessor of a type, and whether the type counts as numeric. -/
def deserializeTypeName : StandardType → Option Text × Bool
  | .none => (none, true)
  | .u64 => (some "GetUint64".toList, true)
  | .u32 => (some "GetUint".toList, true)
  | .u16 => (some "GetUint16".toList, true)
  | .u8 => (some "GetUint8".toList, true)
  | .i64 => (some "GetInt64".toList, true)
  | .i32 => (some "GetInt32".toList, true)
  | .i16 => (some "GetInt16".toList, true)
  | .i8 => (some "GetInt8".toList, true)
  | .floatType => (some "GetFloat".toList, false)
  | .doubleType => (some "GetDouble".toList, false)
  | .boolType => (some "GetBool".toList, false)
  | .stringType => (some "GetString".toList, false)

def isNumeric (t : StandardType) : Bool := (deserializeTypeName t).2

def isStandardType (type : Text) : Bool :=
  getStandardType type != .none && getStandardType type != .stringType

/-- The block of the serializer emitted for one member. -/
inductive SerializeStmt
  | raw (member : Text) (optional : Bool)
  | rawArray (member : Text) (type : StandardType)
  | rawMap (member : Text)
  | string (member : Text) (optional : Bool)
  | stringArray (member : Text) (optional : Bool)
  | stringMap (member : Text) (optional : Bool)
  | enum (member type : Text) (optional asInteger : Bool)
  | enumArray (member type : Text)
  | enumListMap (member type : Text)
  | object (member type : Text) (optional : Bool)
  | objectArray (member type : Text)
  deriving DecidableEq, Repr

/-- The block of the deserializer emitted for one member. -/
inductive DeserializeStmt
  | numericMap (member : Text) (type : StandardType)
  | stringMap (member : Text) (type : StandardType) (skipMembers : Bool)
  | integer (member : Text) (type : StandardType) (required : Bool)
  | integerArray (member : Text) (type : StandardType) (required : Bool)
  | checked (member : Text) (type : StandardType) (required : Bool)
  | checkedArray (member : Text) (type : StandardType) (required : Bool)
  | enum (member type : Text) (asInteger : Bool)
  | enumArray (member type : Text) (required : Bool)
  | enumListMap (member type : Text)
  | object (member type : Text) (required : Bool)
  | objectArray (member type : Text) (required : Bool)
  | todo
  deriving DecidableEq, Repr

variable (classEnum : Text → Option Bool)

/-- One round of the member loop of `saveSerialize`. An unknown type trips an assertion. -/
def serializeStmt (i : MemberVariable) : Option SerializeStmt :=
  let optional : Bool := i.mIsOptional = .optional
  if isStandardType i.mType then
    if i.mIsArray then
      if i.mIsMap then some (.rawMap i.mMember)
      else some (.rawArray i.mMember (getStandardType i.mType))
    else some (.raw i.mMember optional)
  else if i.mType = "string".toList then
    if i.mIsArray then
      if i.mIsMap then some (.stringMap i.mMember optional)
      else some (.stringArray i.mMember optional)
    else some (.string i.mMember optional)
  else
    match classEnum i.mType with
    | none => none
    | some isEnum =>
        if i.mIsArray then
          if i.mIsMap then some (.enumListMap i.mMember i.mType)
          else if isEnum then some (.enumArray i.mMember i.mType)
          else some (.objectArray i.mMember i.mType)
        else if isEnum then some (.enum i.mMember i.mType optional i.mSerializeEnumAsInteger)
        else some (.object i.mMember i.mType optional)

/-- One round of the member loop of `saveDeserialize`. A numeric map beside other members
trips an assertion. -/
def deserializeStmt (nonMapItems : List Text) (i : MemberVariable) : Option DeserializeStmt :=
  let required : Bool := i.mIsOptional = .required
  let type := getStandardType i.mType
  if type ≠ .none then
    if i.mIsMap then
      if isNumeric type then
        if nonMapItems = [] then some (.numericMap i.mMember type) else none
      else some (.stringMap i.mMember type (nonMapItems ≠ []))
    else if isNumeric type then
      if i.mIsArray then some (.integerArray i.mMember type required)
      else some (.integer i.mMember type required)
    else if i.mIsArray then some (.checkedArray i.mMember type required)
    else some (.checked i.mMember type required)
  else
    match classEnum i.mType with
    | none => some .todo
    | some isEnum =>
        if i.mIsArray then
          if i.mIsMap then some (.enumListMap i.mMember i.mType)
          else if isEnum then some (.enumArray i.mMember i.mType required)
          else some (.objectArray i.mMember i.mType required)
        else if isEnum then some (.enum i.mMember i.mType i.mSerializeEnumAsInteger)
        else some (.object i.mMember i.mType required)

def ownItems (o : Object) : List MemberVariable := o.mItems.filter fun i => i.mInheritsFrom = []

/-- The own named members, as `saveDeserialize` lists them. -/
def nonMapItems (o : Object) : List Text :=
  ((ownItems o).filter fun i => !i.mIsMap).map MemberVariable.mMember

/-- The names the emitted `isMember` of the class tests by itself. -/
def memberNames (o : Object) : List Text :=
  (o.mItems.filter fun i => !i.mIsMap).map MemberVariable.mMember

def memberName (i : MemberVariable) : Text := if i.mIsMap then '_' :: i.mMember else i.mMember

theorem memberName_of_noMap {i : MemberVariable} (h : i.mIsMap = false) :
    memberName i = i.mMember := by
  simp [memberName, h]

theorem memberName_of_map {i : MemberVariable} (h : i.mIsMap = true) :
    memberName i = '_' :: i.mMember := by
  simp [memberName, h]

def restatedItems (o : Object) : List MemberVariable :=
  o.mItems.filter fun i => i.mInheritsFrom ≠ [] ∧ i.mDefaultValue ≠ []

end SchemaCodeGen.Emit
