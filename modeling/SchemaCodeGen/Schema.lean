import SchemaCodeGen.CString

namespace SchemaCodeGen.Schema

open CString

inductive OptionalType
  | required
  | optional
  | optionalDeserialize
  deriving DecidableEq, Repr

inductive StandardType
  | none
  | u64
  | u32
  | u16
  | u8
  | i64
  | i32
  | i16
  | i8
  | floatType
  | doubleType
  | boolType
  | stringType
  deriving DecidableEq, Repr

def getStandardType (type : Text) : StandardType :=
  if type = "u64".toList then .u64
  else if type = "u32".toList then .u32
  else if type = "u16".toList then .u16
  else if type = "u8".toList then .u8
  else if type = "i64".toList then .i64
  else if type = "i32".toList then .i32
  else if type = "i16".toList then .i16
  else if type = "i8".toList then .i8
  else if type = "float".toList then .floatType
  else if type = "double".toList then .doubleType
  else if type = "bool".toList then .boolType
  else if type = "string".toList then .stringType
  else .none

structure MemberVariable where
  mIsArray : Bool := false
  mIsPointer : Bool := false
  mIsString : Bool := false
  mNeedsReflection : Bool := false
  mIsOptional : OptionalType := .required
  mIsMap : Bool := false
  mSerializeEnumAsInteger : Bool := false
  mMapType : Text := []
  mMember : Text := []
  mAlias : Text := []
  mType : Text := []
  mInheritsFrom : Text := []
  mProtoType : Text := []
  mEngineSpecific : Text := []
  mDefaultValue : Text := []
  mMinValue : Text := []
  mMaxValue : Text := []
  mShortDescription : Text := []
  mLongDescription : Text := []
  mQualifiedDefaultValue : Text := []
  deriving DecidableEq, Repr

def MemberVariable.needsReflection (i : MemberVariable) : Bool :=
  i.mIsArray || i.mIsPointer || i.mIsString

def MemberVariable.memberNeedsReflection (needsReflectionClasses : List Text)
    (i : MemberVariable) : MemberVariable :=
  { i with mNeedsReflection :=
      if i.mIsPointer || i.mIsString then true else needsReflectionClasses.contains i.mType }

def MemberVariable.init (i : MemberVariable) : MemberVariable :=
  if i.mDefaultValue = [] then i
  else { i with mQualifiedDefaultValue := (i.mType ++ "::".toList ++ i.mDefaultValue).take 511 }

structure Object where
  mName : Text := []
  mType : Text := []
  mInheritsFrom : Text := []
  mMultipleInherticance : Text := []
  mEngineSpecific : Text := []
  mAlias : Text := []
  mShortDescription : Text := []
  mLongDescription : Text := []
  mChildren : List Text := []
  mClone : Bool := false
  mAssignment : Bool := false
  mNeedsReflection : Bool := false
  mIsEnum : Bool := false
  mIsClass : Bool := false
  mItems : List MemberVariable := []
  deriving DecidableEq, Repr

def Object.computeNeedsReflection (o : Object) : Object :=
  { o with mNeedsReflection := o.mItems.any MemberVariable.needsReflection }

def Object.computeReflectionMembers (needsReflection : List Text) (o : Object) : Object :=
  { o with mItems := o.mItems.map (MemberVariable.memberNeedsReflection needsReflection) }

structure DOM where
  mPlainOldData : Bool := false
  mNamespace : Text := []
  mFilename : Text := []
  mURL : Text := []
  mExportXML : Text := []
  mObjects : List Object := []
  mObjectMap : List (Text × Nat) := []
  deriving DecidableEq, Repr

/-- The last object that is the base of `i` and has a base itself decides. -/
def Object.computeMultipleInheritance (objects : List Object) (i : Object) : Object :=
  if i.mInheritsFrom = [] then i
  else
    { i with
      mMultipleInherticance :=
        objects.foldl (fun m j =>
          if i.mInheritsFrom = j.mName ∧ j.mInheritsFrom ≠ [] then j.mInheritsFrom else m)
          i.mMultipleInherticance }

def Object.computeKind (o : Object) : Object :=
  { o with
    mIsEnum := if stricmp o.mType "Enum".toList then true else o.mIsEnum
    mIsClass := if stricmp o.mType "Class".toList then true else o.mIsClass }

def assignKey (m : List (Text × Nat)) (name : Text) (i : Nat) : List (Text × Nat) :=
  (name, i) :: m.filter (fun e => e.1 != name)

def DOM.importComplete (d : DOM) : DOM :=
  let marked := d.mObjects.map Object.computeNeedsReflection
  let needsReflection := (marked.filter Object.mNeedsReflection).map Object.mName
  let objects := marked.map (Object.computeReflectionMembers needsReflection)
  let objects := objects.map (Object.computeMultipleInheritance objects)
  let objects := objects.map Object.computeKind
  { d with
    mObjects := objects
    mObjectMap := objects.zipIdx.foldl (fun m e => assignKey m e.1.mName e.2) d.mObjectMap }

def DOM.findObject (d : DOM) (name : Text) : Option Object :=
  (d.mObjectMap.lookup name).bind (d.mObjects[·]?)

end SchemaCodeGen.Schema
