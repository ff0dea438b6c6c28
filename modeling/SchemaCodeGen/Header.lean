import SchemaCodeGen.CNumber
import SchemaCodeGen.Emit
import SchemaCodeGen.Printer

namespace SchemaCodeGen.Header

open CString CNumber Schema Emit Printer

def nameRoom : Nat := 511

def upcase (c : Char) : Char := if c.isLower then c.toUpper else c

def upcaseFirst : Text → Text
  | [] => []
  | c :: s => upcase c :: s

def getCppTypeString (type : Text) (isDef : Bool) : Text :=
  if type = "string".toList then (if isDef then "std::string".toList else "const char *".toList)
  else if type = "u8".toList then "uint8_t".toList
  else if type = "u16".toList then "uint16_t".toList
  else if type = "u32".toList then "uint32_t".toList
  else if type = "u64".toList then "uint64_t".toList
  else if type = "i8".toList then "int8_t".toList
  else if type = "i16".toList then "int16_t".toList
  else if type = "i32".toList then "int32_t".toList
  else if type = "i64".toList then "int64_t".toList
  else type

def getMemberName (i : MemberVariable) : Text :=
  if i.mIsMap then (stringFormat "_%s".toList [i.mMember]).take nameRoom else i.mMember

def isSigned (type : Text) : Bool :=
  ["i8".toList, "i16".toList, "i32".toList, "i64".toList].contains type

def isUnsigned (type : Text) : Bool :=
  ["u8".toList, "u16".toList, "u32".toList, "u64".toList].contains type

def floatDefault (value : Text) : Text :=
  if value = [] then showpoint {} ++ ['f']
  else if value = "FLT_MAX".toList then value
  else if value = "FLT_MIN".toList then value
  else showpoint (strto Floats.binary32 value) ++ ['f']

def doubleDefault (value : Text) : Text :=
  showpoint (
    if value = [] then {}
    else if value = "FLT_MAX".toList then ⟨false, .fin fltMax⟩
    else if value = "FLT_MIN".toList then ⟨false, .fin fltMin⟩
    else strto Floats.binary64 value)

/-- Numbers with a comma between them, read over the values they have from the start. -/
def vectorDefault (initial : List Reading) (value : Text) : Text :=
  let read := if value = [] then initial else sscanf initial value
  ", ".toList.intercalate (read.map fun r => showpoint r ++ ['f'])

def getCppValueInitializer (var : MemberVariable) (dom : DOM) : Text :=
  let value := var.mDefaultValue
  if var.mIsArray then []
  else if var.mType = "string".toList then '"' :: (value ++ ['"'])
  else if isSigned var.mType then
    (toString (if value = [] then 0 else strtoll value)).toList
  else if isUnsigned var.mType then
    (toString (if value = [] then 0 else strtoull value)).toList
  else if var.mType = "float".toList then floatDefault value
  else if var.mType = "double".toList then doubleDefault value
  else if var.mType = "bool".toList then
    (if stricmp value "true".toList then "true".toList else "false".toList)
  else if var.mType = "Vec3".toList then vectorDefault [{}, {}, {}] value
  else if var.mType = "Quat".toList then vectorDefault [{}, {}, {}, ⟨false, .fin 1⟩] value
  else
    match dom.findObject var.mType with
    | none => []
    | some obj => if obj.mIsEnum ∧ value ≠ [] then var.mQualifiedDefaultValue else []

def isPrimitive (type : Text) : Bool := getStandardType type != .none

def getCppRValue (var : MemberVariable) (dom : DOM) : Text :=
  if var.mIsArray then "nullptr".toList
  else if isPrimitive var.mType then getCppValueInitializer var dom
  else
    match dom.findObject var.mType with
    | none => "void".toList
    | some obj =>
        if obj.mIsEnum then
          (if var.mDefaultValue ≠ [] then var.mQualifiedDefaultValue else var.mType ++ "()".toList)
        else var.mType ++ '(' :: (getCppValueInitializer var dom ++ [')'])

def enumItem (i : MemberVariable) : List Call :=
  [if i.mDefaultValue = [] then code 1 "%s," [i.mMember]
    else code 1 "%s=%s," [i.mMember, i.mDefaultValue],
   .note 10 i.mShortDescription]

def saveEnum (o : Object) : List Call :=
  [code 0 "\n", .remark o.mShortDescription, .remark o.mLongDescription,
    code 0 "enum class %s : uint64_t\n" [o.mName], code 0 "\x7b\n"] ++
  o.mItems.flatMap enumItem ++ [code 0 "\x7d;\n", code 0 "\n"]

def classDefinition (o : Object) : List Call :=
  [code 0 "\n", .remark o.mShortDescription, .remark o.mLongDescription,
    code 0 "class %s" [o.mName]] ++
  (if o.mInheritsFrom = [] then [] else [code 0 " : public %s" [o.mInheritsFrom]]) ++
  [code 0 "\n", code 0 "\x7b\n", code 0 "public:\n"]

def nameTests : List Text → List Call
  | [] => []
  | [name] => [code 3 "strcmp(name,\"%s\") == 0 )\n" [name]]
  | name :: names => code 3 "strcmp(name,\"%s\") == 0 ||\n" [name] :: nameTests names

def retTrue : List Call := [code 2 "\x7b\n", code 3 "ret = true;\n", code 2 "\x7d\n"]

def isMemberTest : List Text → List Call
  | [] => []
  | [name] => code 2 "if ( strcmp(name,\"%s\") == 0 )\n" [name] :: retTrue
  | name :: names =>
      code 2 "if ( strcmp(name,\"%s\") == 0 ||\n" [name] :: (nameTests names ++ retTrue)

def isMemberMethod (o : Object) : List Call :=
  [linefeed,
    code 1 "// Defines a method which returns 'true' if 'name' corresponds to a member variable of this class or base class.\n",
    code 1 "bool isMember(const char *name) const\n",
    code 1 "\x7b\n",
    if o.mInheritsFrom = [] then code 2 "bool ret = false;\n"
    else code 2 "bool ret = %s::isMember(name);\n" [o.mInheritsFrom],
    code 2 "(name);\n"] ++
  isMemberTest (memberNames o) ++
  [code 2 "return ret;\n", code 1 "\x7d\n", linefeed]

def equalityOperators (o : Object) : List Call :=
  [code 1 "//Defines the equality operator for this class and any sub-class.\n",
    code 1 "bool operator==(const %s& other) const\n" [o.mName],
    code 1 "\x7b\n",
    if o.mInheritsFrom = [] then code 2 "bool equal = true;\n"
    else code 2 "bool equal = %s(*this) == %s(other);\n" [o.mInheritsFrom, o.mInheritsFrom]] ++
  (ownItems o).map (fun i => code 2 "equal &= %s == other.%s;\n" [memberName i, memberName i]) ++
  [code 2 "return equal;\n",
    code 1 "\x7d\n",
    linefeed,
    code 1 "//Defines the not equal operator for this class and any sub-class.\n",
    code 1 "bool operator!=(const %s& other) const\n" [o.mName],
    code 1 "\x7b\n",
    code 2 "return !((*this) == other);\n",
    code 1 "\x7d\n",
    linefeed]

def parameter (i : MemberVariable) : Call :=
  code 0 "const %s &_%s" [getCppTypeString i.mType false, getMemberName i]

def parameters : List MemberVariable → List Call
  | [] => []
  | i :: items => parameter i :: items.flatMap fun i => [code 0 ",", parameter i]

def assignmentConstructors (o : Object) : List Call :=
  if o.mAssignment then
    [code 1 "// Declare the constructor.\n",
      code 1 "%s() \x7b \x7d\n" [o.mName],
      code 0 "\n",
      code 1 "// Declare the assignment constructor.\n",
      code 1 "%s(" [o.mName]] ++
    parameters o.mItems ++
    [code 0 ")\n", code 1 "\x7b\n"] ++
    o.mItems.map (fun i => code 2 "%s = _%s;\n" [getMemberName i, getMemberName i]) ++
    [code 1 "\x7d\n", code 0 "\n"]
  else []

def defaultConstructor (dom : DOM) (o : Object) : List Call :=
  if restatedItems o ≠ [] ∧ ¬ o.mAssignment then
    [code 1 "// Declare the constructor.\n",
      code 1 "%s()\n" [o.mName],
      code 1 "\x7b\n"] ++
    (restatedItems o).map (fun i =>
      code 2 "%s%s::%s = %s;\n" [i.mInheritsFrom, [], getMemberName i, getCppRValue i dom]) ++
    [code 1 "\x7d\n", code 0 "\n"]
  else []

def mapType (i : MemberVariable) : Text :=
  if i.mMapType = "string".toList then "std::string".toList else i.mMapType

def vectorName (i : MemberVariable) : Text :=
  let type := getCppTypeString i.mType false
  let name :=
    if i.mIsMap then
      if getStandardType i.mType ≠ .none then
        stringFormat "std::unordered_map<%s, %s>".toList [mapType i, type]
      else stringFormat "std::unordered_map<%s, std::vector< %s>>".toList [mapType i, type]
    else stringFormat "std::vector< %s>".toList [type]
  name.take nameRoom

def declaredType (i : MemberVariable) : Option Call :=
  if i.mIsArray then
    some (
      if i.mIsString then
        (if i.mIsMap then code 1 "std::unordered_map< std::string, std::string >"
          else code 1 "std::vector< std::string >")
      else code 1 "%s" [vectorName i])
  else if i.mIsMap then none
  else if i.mIsOptional = .optional then
    some (code 1 "codegen::optional< %s >" [getCppTypeString i.mType true])
  else some (code 1 "%s" [getCppTypeString i.mType true])

def arrayOperator (i : MemberVariable) : List Call :=
  if i.mIsArray ∧ ¬ i.mIsString ∧ i.mIsMap then
    [linefeed,
      code 1 "// Defines the array operator to access this map\n",
      if getStandardType i.mType = .none then
        code 1 "std::vector< %s>& operator[](const %s& x)\n" [upcaseFirst i.mType, mapType i]
      else code 1 "%s operator[](const %s& x)\n" [getCppTypeString i.mType false, mapType i],
      code 1 "\x7b\n",
      code 2 "return _%s[x];\n" [i.mMember],
      code 1 "\x7d\n",
      linefeed]
  else []

def memberDeclaration (dom : DOM) (i : MemberVariable) : Option (List Call) :=
  (declaredType i).map fun type =>
    [type,
      if i.mIsPointer ∧ ¬ i.mIsArray then code 4 "*%s" [getMemberName i]
      else code 4 "%s" [getMemberName i],
      if i.mDefaultValue = [] then code 0 "\x7b \x7d"
      else code 0 "\x7b %s \x7d" [getCppValueInitializer i dom],
      code 0 ";",
      .note 16 i.mShortDescription] ++
    arrayOperator i

def classBody (dom : DOM) (o : Object) : Option (List Call) :=
  (collect (memberDeclaration dom) (ownItems o)).map fun members =>
    isMemberMethod o ++ equalityOperators o ++ assignmentConstructors o ++
      defaultConstructor dom o ++ members

def saveCPPObject (dom : DOM) (o : Object) : Option (List Call) :=
  if o.mAlias ≠ [] then
    some (if o.mAlias ≠ o.mName then [code 0 "using %s = %s;\n" [o.mName, o.mAlias]] else [])
  else if stricmp o.mType "Enum".toList then some (saveEnum o)
  else
    (classBody dom o).map fun body =>
      classDefinition o ++ body ++ [code 0 "\x7d;\n", code 0 "\n"]

def preamble (d : DOM) : List Call :=
  [
    code 0 "#pragma once\n",
    code 0 "\n",
    code 0 "// clang-format off\n",
    code 0 "// CreateDOM: Schema Generation tool written by John W. Ratcliff, 2017\n",
    code 0 "// Warning:This source file was auto-generated by the CreateDOM tool. Do not try to edit this source file manually!\n",
    code 0 "// The Google DOCs Schema Spreadsheet for this source came from: %s\n" [d.mURL],
    code 0 "\n",
    code 0 "#ifdef _MSC_VER\n",
    code 0 "#pragma warning(push)\n",
    code 0 "#pragma warning(disable:4244)\n",
    code 0 "#endif\n",
    code 0 "#include <vector>\n",
    code 0 "#include <unordered_map>\n",
    code 0 "#include <string>\n",
    code 0 "#include <stdint.h>\n",
    code 0 "#include <string.h>\n",
    code 0 "\n",
    code 0 "#define USE_OPTIONAL 1\n",
    code 0 "\n",
    code 0 "#if __has_include(<optional>) && USE_OPTIONAL == 1\n",
    code 0 "#include <optional>\n",
    code 0 "#else\n",
    code 0 "#define NO_OPTIONAL\n",
    code 0 "#endif\n",
    code 0 "\n",
    code 0 "namespace codegen\n",
    code 0 "\x7b\n",
    code 0 "template<typename T>\n",
    code 0 "#ifdef NO_OPTIONAL\n",
    code 0 "using optional = T;\n",
    code 0 "#else\n",
    code 0 "using optional = std::optional<T>;\n",
    code 0 "#endif\n",
    code 0 "\x7d\n",
    code 0 "namespace rapidjson\n",
    code 0 "\x7b\n",
    code 0 "    class RapidJSONDocument;\n",
    code 0 "\x7d\n",
    code 0 "\n",
    code 0 "namespace %s\n" [d.mNamespace],
    code 0 "\x7b\n",
    code 0 "\n",
    code 0 "\n",
    code 0 "// Forward declare the two types of string vector containers.\n",
    code 0 "\n"]

def saveCPP (d : DOM) : Option (List Call) :=
  (collect (saveCPPObject d) d.mObjects).map fun objects => preamble d ++ objects

def enumDeclarations (o : Object) : List Call :=
  if stricmp o.mType "Enum".toList then
    [linefeed,
      code 0 "const char *stringifyEnum(%s x);\n" [o.mName],
      code 0 "std::string stringifyEnumStdString(%s x);\n" [o.mName],
      linefeed]
  else []

def saveTypeScript (d : DOM) : List Call :=
  [linefeed,
    code 0 "template<typename T>\n",
    code 0 "T unstringifyEnum(const std::string& str, bool& ok);\n",
    linefeed] ++
  d.mObjects.flatMap enumDeclarations

def saveSerialize (d : DOM) : List Call :=
  d.mObjects.flatMap fun o =>
    if o.mIsEnum then []
    else [linefeed, code 0 "std::string serialize(const %s& type);\n" [o.mName]]

def saveDeserialize (d : DOM) : List Call :=
  [
    linefeed,
    code 0 "/*\n",
    code 0 " * Deserialization\n",
    code 0 " */\n",
    linefeed,
    code 0 "namespace details\n",
    code 0 "\x7b\n",
    code 0 "\n",
    code 0 "    template<typename T>\n",
    code 0 "    struct Deserialize\n",
    code 0 "    \x7b\n",
    code 0 "        static T deserialize(const char* in, bool& deserializedOk);\n",
    code 0 "        static T deserialize(const rapidjson::RapidJSONDocument &d, bool& deserializedOk);\n",
    code 0 "    \x7d;\n",
    code 0 "\x7d\n",
    code 0 "\n",
    code 0 "template<typename T>\n",
    code 0 "T deserialize(const char* in, bool& deserializedOk)\n",
    code 0 "\x7b\n",
    code 0 "    return details::Deserialize<T>::deserialize(in, deserializedOk);\n",
    code 0 "\x7d\n",
    code 0 "\n",
    code 0 "template<typename T>\n",
    code 0 "T deserialize(const std::string& in, bool& deserializedOk)\n",
    code 0 "\x7b\n",
    code 0 "    return details::Deserialize<T>::deserialize(in.c_str(), deserializedOk);\n",
    code 0 "\x7d\n",
    code 0 "template<typename T>\n",
    code 0 "T deserialize(const rapidjson::RapidJSONDocument &in, bool& deserializedOk)\n",
    code 0 "\x7b\n",
    code 0 "    return details::Deserialize<T>::deserialize(in, deserializedOk);\n",
    code 0 "\x7d\n",
    linefeed] ++
  d.mObjects.flatMap fun o => if o.mIsEnum then [] else [linefeed]

def closing (d : DOM) : List Call :=
  [code 0 "\x7d // End of namespace:%s\n" [d.mNamespace],
    code 0 "#ifdef _MSC_VER\n",
    code 0 "#pragma warning(pop)\n",
    code 0 "#endif\n"]

def header (d : DOM) : Option (List Call) :=
  (saveCPP d).map fun classes =>
    classes ++ saveTypeScript d ++ saveSerialize d ++ saveDeserialize d ++ closing d

end SchemaCodeGen.Header
