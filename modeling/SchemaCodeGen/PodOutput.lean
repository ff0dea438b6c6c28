import SchemaCodeGen.EnumBackends
import SchemaCodeGen.LocalArrays
import SchemaCodeGen.PodGets

/-! The two files of a schema of plain old data: the structures, and the classes that
implement them. The program that writes them formats names in local arrays. -/

namespace SchemaCodeGen.PodOutput

open CString Schema Emit Printer FixedBuffer LocalArrays
open Header (nameRoom upcaseFirst getCppTypeString getCppValueInitializer)
open EnumBackends (savePodEnum)
open PodGets (needsDef needsDeepCopy saveGets)

def nameSize : Nat := 512

def getClassNameString (name : Text) (isDef : Bool) : Text :=
  if isDef then (stringFormat "%sDef".toList [name]).take nameRoom else name

def getMemberName (i : MemberVariable) (isDef : Bool) : Program Text :=
  if isDef then do
    let temp ← declare nameSize
    let name ← string (upcaseFirst (strncpy temp i.mMember))
    return (stringFormat "m%s".toList [name]).take nameRoom
  else return Header.getMemberName i

/-- The type of the array of a member, formatted into one local array from another. -/
def vectorName (type : Text) : Program Text := do
  let temp ← declare nameSize
  let vectorName ← declare nameSize
  let type ← string (upcaseFirst (strncpy temp type))
  string (snprintf vectorName (stringFormat "std::vector<%s>".toList [type]))

def getCppRValue (var : MemberVariable) (dom : DOM) (isDef : Bool) : Text :=
  if var.mIsArray ∧ isDef = true then "std::vector<".toList ++ getCppTypeString var.mType isDef ++ ">()".toList
  else Header.getCppRValue var dom

def each {α : Type} (l : List α) (f : α → Program (List Call)) : Program (List Call) := do
  return (← l.mapM f).flatten

def only (c : Bool) (p : Program (List Call)) : Program (List Call) := if c then p else return []

/-- Whether the class is one that `CloneObject` is a base of, and not by its own base. -/
def doCloneObject (o : Object) (isDef : Bool) (cloneObjects : List Text) : Bool :=
  (o.mClone || o.mNeedsReflection) && isDef &&
    !(!o.mInheritsFrom.isEmpty && cloneObjects.contains o.mInheritsFrom)

def classDefinition (o : Object) (isDef : Bool) (cloneObjects : List Text) : List Call :=
  [code 0 "\n", .remark o.mShortDescription, .remark o.mLongDescription,
    code 0 "class %s" [getClassNameString o.mName isDef]] ++
  (if o.mInheritsFrom = [] then [] else [code 0 " : public %s" [getClassNameString o.mInheritsFrom isDef]]) ++
  (if doCloneObject o isDef cloneObjects then
    [code 0 "%s public CloneObject" [if o.mInheritsFrom = [] then [':'] else [',']]] else []) ++
  [code 0 "\n", code 0 "\x7b\n", code 0 "public:\n"]

section Body

variable (dom : DOM) (needsReflection : List Text) (o : Object) (isDef : Bool)

def className : Text := getClassNameString o.mName isDef

def parameter (i : MemberVariable) : Program Call := do
  return code 0 "const %s &_%s" [getCppTypeString i.mType isDef, ← getMemberName i isDef]

def assignmentConstructors : Program (List Call) :=
  only o.mAssignment do
    let parameters ← o.mItems.mapM (parameter isDef)
    let assignments ← each o.mItems fun i => do
      return [code 2 "%s = _%s;\n" [← getMemberName i isDef, ← getMemberName i isDef]]
    return [code 1 "// Declare the constructor.\n", code 1 "%s() \x7b \x7d\n" [className o isDef], code 0 "\n",
        code 1 "// Declare the assignment constructor.\n", code 1 "%s(" [className o isDef]] ++
      parameters.intersperse (code 0 ",") ++ [code 0 ")\n", code 1 "\x7b\n"] ++ assignments ++
      [code 1 "\x7d\n", code 0 "\n"]

def hasInheritedDefaults : Bool := !(restatedItems o).isEmpty

def defaultConstructor : Program (List Call) :=
  only (hasInheritedDefaults o && !o.mAssignment) do
    let values ← each (restatedItems o) fun i => do
      return [code 2 "%s%s::%s = %s;\n" [i.mInheritsFrom, if isDef then "Def".toList else [],
        ← getMemberName i isDef, getCppRValue i dom isDef]]
    return [code 1 "// Declare the constructor.\n", code 1 "%s()\n" [className o isDef], code 1 "\x7b\n"] ++
      values ++ [code 1 "\x7d\n", code 0 "\n"]

def emptyConstructor : List Call :=
  if !o.mAssignment && !hasInheritedDefaults o && isDef then
    [code 0 "\n", code 1 "// Declare the constructor.\n", code 1 "%s() \x7b \x7d\n" [className o isDef],
      code 0 "\n"]
  else []

def deletePointer (i : MemberVariable) : Program (List Call) :=
  if i.mIsArray && i.mIsPointer then do
    return [code 2 "for (auto &i:%s) delete i; // Delete all of the object pointers in this array\n"
      [← getMemberName i isDef]]
  else if i.mIsPointer then do
    return [code 2 "delete %s; // Delete this object\n" [← getMemberName i isDef]]
  else return []

def destructor : Program (List Call) :=
  if o.mItems.any MemberVariable.mIsPointer then
    only (needsDeepCopy o && isDef) do
      let deletions ← each o.mItems (deletePointer isDef)
      return [code 0 "\n",
          code 1 "// Declare the virtual destructor; cleanup any pointers or arrays of pointers\n",
          code 1 "virtual ~%s() override\n" [className o isDef], code 1 "\x7b\n"] ++ deletions ++
        [code 1 "\x7d\n", code 0 "\n"]
  else
    only isDef do
      return [code 0 "\n", code 1 "// Declare the virtual destructor.\n",
        code 1 "virtual ~%s() override\n" [className o isDef], code 1 "\x7b\n", code 1 "\x7d\n", code 0 "\n"]

def copyMember (i : MemberVariable) : Program (List Call) :=
  if i.mIsArray && i.mIsPointer then do
    return [
      code 3 "for (auto &i:%s) delete i; // Delete all of the object pointers in this array\n"
        [← getMemberName i isDef],
      code 3 "%s.clear(); // Clear the current array\n" [← getMemberName i isDef],
      code 3 "%s.reserve(other.%s.size()); // Reserve number of items for the new array\n"
        [← getMemberName i isDef, ← getMemberName i isDef],
      code 3 ("for (auto &i:other.%s) %s.push_back( static_cast< %sDef *>(i->clone())); " ++
        "// Deep copy object pointers into the array\n")
        [← getMemberName i isDef, ← getMemberName i isDef, i.mType]]
  else if i.mIsPointer then do
    return [code 3 "delete %s; // delete any previous pointer.\n" [← getMemberName i isDef],
      code 3 "%s = nullptr; // set the pointer to null.\n" [← getMemberName i isDef],
      code 3 "if ( other.%s )\n" [← getMemberName i isDef],
      code 3 "\x7b\n",
      code 4 ("%s = static_cast<%sDef *>(other.%s->clone()); " ++
        "// perform the deep copy and assignment here\n")
        [← getMemberName i isDef, i.mType, ← getMemberName i isDef],
      code 3 "\x7d\n"]
  else only i.mInheritsFrom.isEmpty do
    return [code 3 "%s = other.%s;\n" [← getMemberName i isDef, ← getMemberName i isDef]]

/-- The copy constructor, the methods that return the structure, and the copies. -/
def deepCopy : Program (List Call) :=
  only (needsDeepCopy o && isDef) do
    let copies ← each o.mItems (copyMember isDef)
    return [code 0 "\n",
        code 1 "// Declare the deep copy constructor; handles copying pointers and pointer arrays\n",
        code 1 "%s(const %s &other)\n" [className o isDef, className o isDef], code 1 "\x7b\n",
        code 2 "*this = other;\n", code 1 "\x7d\n", code 0 "\n"] ++ saveGets o ++
      [code 0 "\n", code 1 "// Declare the virtual clone method using a deep copy\n",
        code 1 "virtual CloneObject* clone() const override\n", code 1 "\x7b\n",
        code 2 "return new %s(*this);\n" [className o isDef], code 1 "\x7d\n", code 0 "\n",
        code 1 "// Declare and implement the deep copy assignment operator\n",
        code 1 "%s& operator=(const %s& other)\n" [className o isDef, className o isDef], code 1 "\x7b\n",
        code 2 "if (this != &other )\n", code 2 "\x7b\n"] ++
      (if o.mInheritsFrom = [] then [] else [code 3 "%sDef::operator=(other);\n" [o.mInheritsFrom]]) ++
      copies ++ [code 2 "\x7d\n", code 2 "return *this;\n", code 1 "\x7d\n", code 0 "\n"]

def initBase : List Call :=
  if o.mInheritsFrom = [] then []
  else
    [code 2 "// Initialize the DOM for the base class.\n",
      code 2 "%sDef::initDOM();\n" [o.mInheritsFrom],
      code 2 "// Copy the elements from the base class DOM to our reflection DOM\n",
      code 2 "\x7b\n",
      code 3 "%s *dom = static_cast< %s *>(&mDOM); // Get the DOM base class.\n"
        [o.mInheritsFrom, o.mInheritsFrom],
      code 3 "*dom = *(%sDef::get%s()); // Assign the base class DOM components.\n"
        [o.mInheritsFrom, o.mInheritsFrom],
      code 2 "\x7d\n"]

/-- The number of items and the pointer to them, from the array with a suffix. -/
def assignArray (i : MemberVariable) (counted assigned : String) (arrayPostFix : Text) :
    Program (List Call) := do
  return [
    code 2 counted [← getMemberName i false, ← getMemberName i true, arrayPostFix],
    code 2 assigned
      [← getMemberName i false, ← getMemberName i false, ← getMemberName i true, arrayPostFix]]

def countItems : String := "mDOM.%sCount = uint32_t(%s%s.size()); // assign the number of items in the array.\n"

def assignPointer : String :=
  "mDOM.%s = mDOM.%sCount ? &%s%s[0] : nullptr; // Assign the pointer array\n"

def arrayPostFix (i : MemberVariable) : Text := if i.mNeedsReflection then "DOM".toList else []

def initStrings (i : MemberVariable) : Program (List Call) := do
  let filled := [
    code 2 "// Initialize the const char * array from the array of std::strings vector %s\n"
      [← getMemberName i true],
    code 2 "%sDef.clear(); // Clear previous array definition.\n" [← getMemberName i true],
    code 2 "%sDef.reserve(%s.size()); // Reserve room for string pointers.\n"
      [← getMemberName i true, ← getMemberName i true],
    code 2 "for (auto &i: %s) // For each std::string\n" [← getMemberName i true],
    code 3 "%sDef.push_back( i.c_str() ); // Add the const char * for the string.\n" [← getMemberName i true]]
  return filled ++ (← assignArray i
    "mDOM.%sCount = uint32_t(%s%s.size()); // Assign the number of strings\n"
    "mDOM.%s = mDOM.%sCount ? &%s%s[0] : nullptr; // Assign the pointer array.\n" "Def".toList)

/-- The structures of the items are collected, with the calls for each of them. -/
def collectItems (i : MemberVariable) (initItem pushItem : String) : Program (List Call) := do
  return [code 2 "%sDOM.clear();\n" [← getMemberName i true],
    code 2 "%sDOM.reserve( %s.size() );\n" [← getMemberName i true, ← getMemberName i true],
    code 2 "for (auto &i:%s)\n" [← getMemberName i true],
    code 2 "\x7b\n",
    code 3 initItem,
    code 3 pushItem [← getMemberName i true, i.mType],
    code 2 "\x7d\n"]

def initMember (i : MemberVariable) : Program (List Call) :=
  if !i.needsReflection && needsReflection.contains i.mType then do
    return [code 2 "\x7b\n",
      code 3 "%sDef *impl = static_cast< %sDef *>(&%s); // static cast to the implementation class.\n"
        [i.mType, i.mType, ← getMemberName i true],
      code 3 "impl->initDOM(); // Initialize DOM components of member variable.\n",
      code 3 "mDOM.%s = *impl->get%s(); // Copy the DOM struct values.\n" [i.mMember, i.mType],
      code 2 "\x7d\n"]
  else if i.mIsString then
    if i.mIsArray then initStrings i
    else do
      return [code 2 "mDOM.%s = %s.c_str(); // Assign the current string pointer.\n"
        [← getMemberName i false, ← getMemberName i true]]
  else if i.mIsArray && i.mIsPointer then do
    return (← collectItems i "i->initDOM();\n" "%sDOM.push_back( i->get%s() );\n") ++
      (← assignArray i countItems assignPointer (arrayPostFix i))
  else if i.mIsArray then do
    return (← only i.mNeedsReflection
        (collectItems i "i.initDOM();\n" "%sDOM.push_back( *(i.get%s()) );\n")) ++
      (← assignArray i countItems assignPointer (arrayPostFix i))
  else if i.mIsPointer then do
    return [code 2 "if ( %s )\n" [← getMemberName i true],
      code 2 "\x7b\n",
      code 3 "%s->initDOM(); // Initialize any DOM components of this object.\n" [← getMemberName i true],
      code 3 "mDOM.%s = %s->get%s(); // assign the DOM reflection pointer.\n"
        [← getMemberName i false, ← getMemberName i true, i.mType],
      code 2 "\x7d\n"]
  else do
    return [code 2 "mDOM.%s = %s; // Simple member variable assignment to the DOM reflection: %s\n"
      [← getMemberName i false, ← getMemberName i true, ← getMemberName i false]]

def initDOM : Program (List Call) := do
  let members ← each o.mItems (initMember needsReflection)
  return [code 1 "// Declare and implement the initDOM method\n",
      code 1 "virtual void initDOM(void) override\n", code 1 "\x7b\n"] ++ initBase o ++ members ++
    [code 1 "\x7d\n", code 0 "\n"]

def moveMember (i : MemberVariable) : Program (List Call) :=
  if i.mIsArray && i.mIsPointer then do
    return [code 3 "%s = other.%s;\n" [← getMemberName i isDef, ← getMemberName i isDef],
      code 3 "other.%s.clear(); // Clear the 'other' array now that we have moved it\n"
        [← getMemberName i isDef]]
  else if i.mIsPointer then do
    return [code 3 "%s = other.%s;\n" [← getMemberName i isDef, ← getMemberName i isDef],
      code 3 "other.%s = nullptr; // Set 'other' pointer to null since we have moved it\n"
        [← getMemberName i isDef]]
  else only i.mInheritsFrom.isEmpty do
    return [code 3 "%s = other.%s;\n" [← getMemberName i isDef, ← getMemberName i isDef]]

def move : Program (List Call) := do
  let members ← each o.mItems (moveMember isDef)
  return [code 0 "\n",
      code 1 "// Declare the move constructor; handles copying pointers and pointer arrays\n",
      code 1 "%s(%s &&other)\n" [className o isDef, className o isDef], code 1 "\x7b\n",
      code 2 "*this = std::move(other);\n", code 1 "\x7d\n", code 0 "\n",
      code 1 "// Declare and implement the move assignment operator\n",
      code 1 "%s& operator=(%s&& other)\n" [className o isDef, className o isDef], code 1 "\x7b\n",
      code 2 "if (this != &other )\n", code 2 "\x7b\n"] ++
    (if o.mInheritsFrom = [] then [] else [code 3 "%sDef::operator=(std::move(other));\n" [o.mInheritsFrom]]) ++
    members ++ [code 2 "\x7d\n", code 2 "return *this;\n", code 1 "\x7d\n", code 0 "\n"]

def declaredType (i : MemberVariable) : Program (List Call) :=
  if i.mIsArray then
    if isDef then
      if i.mIsString then return [code 1 "std::vector< std::string >"]
      else do return [code 1 "%s" [← vectorName i.mType]]
    else do
      return [code 1 "uint32_t", code 4 "%sCount \x7b 0 \x7d;\n" [← getMemberName i isDef],
        if !i.mIsString && i.mIsPointer then code 1 "%s**" [getCppTypeString i.mType isDef]
        else code 1 "%s*" [getCppTypeString i.mType isDef]]
  else if isDef && i.mIsPointer then
    return [code 1 "%s%s" [getCppTypeString i.mType isDef, "Def".toList]]
  else if i.mNeedsReflection && !i.mIsString && isDef then
    return [code 1 "%sDef" [getCppTypeString i.mType isDef]]
  else return [code 1 "%s" [getCppTypeString i.mType isDef]]

def needsNull (i : MemberVariable) : Bool :=
  if i.mIsArray then !isDef else i.mIsPointer || i.mIsString && !isDef

def memberDeclaration (i : MemberVariable) : Program (List Call) := do
  let type ← declaredType isDef i
  let name ← getMemberName i isDef
  return type ++
    [if i.mIsPointer && !i.mIsArray then code 4 "*%s" [name] else code 4 "%s" [name]] ++
    (if i.mDefaultValue = [] then (if needsNull isDef i then [code 0 "\x7b nullptr \x7d"] else [])
      else [code 0 "\x7b %s \x7d" [getCppValueInitializer i dom]]) ++
    [code 0 ";", .note 16 i.mShortDescription]

def scratchArray (i : MemberVariable) : Program (List Call) :=
  only (i.needsReflection && i.mIsArray && isDef) (
    if i.mIsString then do
      return [code 1 "ConstCharVector",
        code 4 "%sDef; // Scratch array for const char pointers.\n" [← getMemberName i true]]
    else only i.mNeedsReflection do
      return [code 1 "%s" [← vectorName i.mType],
        code 4 "%sDOM; // Scratch array for const char pointers.\n" [← getMemberName i true]])

def members : Program (List Call) := do
  let declarations ← each (ownItems o) (memberDeclaration dom isDef)
  let scratch ← only (isDef && (ownItems o).any MemberVariable.mIsArray) do
    return code 0 "// Declare private temporary array(s) to hold flat DOM version of arrays.\n" ::
      (← each (ownItems o) (scratchArray isDef))
  return declarations ++
    (if isDef then [code 0 "private:\n", code 1 "%s" [getClassNameString o.mName false],
      code 4 "mDOM; // Declare the DOM version.\n"] else []) ++ scratch

def classBody : Program (List Call) := do
  let constructors ← assignmentConstructors o isDef
  let defaults ← defaultConstructor dom o isDef
  let destruction ← destructor o isDef
  let copies ← deepCopy o isDef
  let initialization ← only isDef (initDOM needsReflection o)
  let moves ← only isDef (move o isDef)
  return constructors ++ defaults ++ emptyConstructor o isDef ++ destruction ++ copies ++
    initialization ++ moves ++ (← members dom o isDef)

end Body

/-- What has been printed to the two files, and the classes that `CloneObject` is a base of. -/
structure Output where
  impl : List Call := []
  dom : List Call := []
  cloneObjects : List Text := []
  deriving DecidableEq, Repr

def endClass : List Call := [code 0 "\x7d;\n", code 0 "\n"]

/-- The list of the array types that were seen is left out, which nothing is printed from. -/
def saveCPPObject (d : DOM) (needsReflection : List Text) (out : Output) (o : Object) : Program Output :=
  if o.mAlias ≠ [] then
    return { out with dom := out.dom ++
      if o.mAlias ≠ o.mName then [code 0 "using %s = %s;\n" [getClassNameString o.mName false, o.mAlias]]
      else [] }
  else if stricmp o.mType "Enum".toList then return { out with dom := out.dom ++ savePodEnum o }
  else do
    let implBody ← only (needsDef o) (classBody d needsReflection o true)
    let domBody ← classBody d needsReflection o false
    return {
      impl := out.impl ++
        if needsDef o then classDefinition o true out.cloneObjects ++ implBody ++ endClass else []
      dom := out.dom ++ classDefinition o false out.cloneObjects ++ domBody ++ endClass
      cloneObjects := out.cloneObjects ++
        if needsDef o && doCloneObject o true out.cloneObjects then [o.mName] else [] }

def cloneObjectClass : List Call :=
  [code 0 "\n",
    code 0 "// Forward declare the two types of string vector containers.\n",
    code 0 "\n",
    code 0 "// Declare the clone-object class for deep copies\n",
    code 0 "// of objects by the implementation classes\n",
    code 0 "// Not to be used with the base DOM classes;\n",
    code 0 "// they do not support deep copies\n",
    code 0 "// Also declares the virtual method to init the DOM contents.\n",
    code 0 "class CloneObject\n",
    code 0 "\x7b\n",
    code 0 "public:\n",
    code 1 "virtual ~CloneObject() \x7b  \x7d;\n",
    code 1 ("// Declare the default virtual clone method; not implemented for DOM objects; " ++
      "only used for the implementation versions.\n"),
    code 1 "virtual CloneObject *clone(void) const \x7b return nullptr; \x7d;\n",
    code 1 ("// Declare the default initDOM method; " ++
      "which is only needed for some implementation objects.\n"),
    code 1 "virtual void initDOM(void) \x7b  \x7d;\n",
    code 0 "\x7d;\n"]

def headerBegin (d : DOM) (isDef : Bool) : Program (List Call) := do
  let temp ← declare nameSize
  let temp ← strupr (snprintf temp
    (stringFormat "%s%s_H".toList [d.mFilename, if isDef then "_IMPL".toList else []]))
  let guarded ← string temp
  let includes ← only isDef do
    return [code 0 "#include \"%s\"\n"
        [← string (snprintf temp (stringFormat "%s.h".toList [d.mFilename]))],
      code 0 "#include <string>\n", code 0 "#include <string.h>\n", code 0 "#include <vector>\n",
      code 0 "#include <unordered_map>\n"]
  return [code 0 "#ifndef %s\n" [guarded], code 0 "#define %s\n" [guarded], code 0 "\n",
      code 0 "// clang-format off\n",
      code 0 "// CreateDOM: Schema Generation tool written by John W. Ratcliff, 2017\n",
      code 0 ("// Warning:This source file was auto-generated by the CreateDOM tool. " ++
        "Do not try to edit this source file manually!\n"),
      code 0 "// The Google DOCs Schema Spreadsheet for this source came from: %s\n" [d.mURL],
      code 0 "\n"] ++ includes ++
    [code 0 "#include <stdint.h>\n", code 0 "\n", code 0 "\n", code 0 "namespace %s\n" [d.mNamespace],
      code 0 "\x7b\n", code 0 "\n"] ++
    if isDef then cloneObjectClass else []

def namespaceEnd (d : DOM) : List Call :=
  [code 0 "\n", code 0 "\n", code 0 "\x7d // End of %s namespace\n" [d.mNamespace], code 0 "\n"]

def headerEnd (d : DOM) : Program (List Call) := do
  let temp ← declare nameSize
  return namespaceEnd d ++ [code 0 "#endif // End of %s\n" [← string temp]]

def saveObjects (d : DOM) : Program Output := do
  let needsReflection := (d.mObjects.filter Object.mNeedsReflection).map Object.mName
  let impl ← headerBegin d true
  let dom ← headerBegin d false
  d.mObjects.foldlM (saveCPPObject d needsReflection) { impl := impl, dom := dom }

def saveCPP (d : DOM) : Program (Text × Text) := do
  let out ← saveObjects d
  let implEnd ← headerEnd d
  let domEnd ← headerEnd d
  return (printAll (out.impl ++ implEnd), printAll (out.dom ++ domEnd))

end SchemaCodeGen.PodOutput
