import SchemaCodeGen.Header

namespace SchemaCodeGen.Implementation

open CString Schema Emit Printer Header

/-- The last object of a name decides whether the name is one of an enum. -/
def classEnumMap (d : DOM) (type : Text) : Option Bool :=
  (d.mObjects.reverse.find? fun o => o.mName = type).map Object.mIsEnum

def cppType (i : MemberVariable) : Text := getCppTypeString i.mType false

def accessor (type : StandardType) : Text := (deserializeTypeName type).1.getD []

def checkName : StandardType → Text
  | .boolType => "IsBool".toList
  | .floatType => "IsFloat".toList
  | .doubleType => "IsDouble".toList
  | .stringType => "IsString".toList
  | _ => []

def getName : StandardType → Text
  | .boolType => "GetBool".toList
  | .floatType => "GetFloat".toList
  | .doubleType => "GetDouble".toList
  | .stringType => "GetString".toList
  | _ => []

def enumTables (o : Object) : List Call :=
    [code 0 "struct %sKey\n" [o.mName],
      code 0 "\x7b\n",
      code 1 "%s key;\n" [o.mName],
      code 1 "const char *value;\n",
      code 0 "\x7d;\n",
      code 0 "static %sKey %sList[]\n" [o.mName, o.mName],
      code 0 "\x7b\n"] ++
    o.mItems.map (fun i =>
      code 1 "\x7b %s::%s, \"%s\" \x7d,\n" [o.mName, i.mMember, if i.mAlias = [] then i.mMember else i.mAlias]) ++
    [code 0 "\x7d;\n",
      code 0 "const char* stringifyEnum(%s in)\n" [o.mName],
      code 0 "\x7b\n",
      code 1 "const char *ret = nullptr;\n",
      code 1 "static std::unordered_map<%s, const char *> enumToStringMap;\n" [o.mName],
      code 1 "static std::once_flag first;\n",
      code 1 "std::call_once(first, []()\n",
      code 1 "\x7b\n",
      code 2 "for (auto e : %sList)\n" [o.mName],
      code 2 "\x7b\n",
      code 3 "enumToStringMap[e.key] = e.value;\n",
      code 2 "\x7d\n",
      code 1 "\x7d);\n",
      code 1 "\x7b\n",
      code 2 "const auto &found = enumToStringMap.find(in);\n",
      code 2 "if (found != enumToStringMap.end())\n",
      code 2 "\x7b\n",
      code 3 "ret = (*found).second;\n",
      code 2 "\x7d\n",
      code 2 "else\n",
      code 2 "\x7b\n",
      code 3 "assert(0); // This should never happen unless the enum passed was corrupted\n",
      code 2 "\x7d\n",
      code 1 "\x7d\n",
      code 1 "return ret;\n",
      code 0 "\x7d\n",
      code 0 "\n",
      linefeed,
      code 0 "std::string stringifyEnumStdString(%s in)\n" [o.mName],
      code 0 "\x7b\n",
      code 1 "return std::string(stringifyEnum(in));\n",
      code 0 "\x7d\n",
      linefeed,
      code 0 "template<> %s unstringifyEnum(const std::string &in, bool& isValid)\n" [o.mName],
      code 0 "\x7b\n"] ++
    (match o.mItems with
      | i :: _ => [code 0 "    %s ret = %s::%s;\n" [o.mName, o.mName, i.mMember]]
      | [] => [code 0 "    %s ret;\n" [o.mName]]) ++
    [code 0 "    isValid = false;\n",
      code 0 "    static std::unordered_map<std::string, %s> stringToEnumMap;\n" [o.mName],
      code 0 "    static std::once_flag first;\n",
      code 0 "    std::call_once(first, []()\n",
      code 0 "    \x7b\n",
      code 0 "        for (auto e : %sList)\n" [o.mName],
      code 0 "        \x7b\n",
      code 0 "            stringToEnumMap[std::string(e.value)] = e.key;\n",
      code 0 "        \x7d\n",
      code 0 "    \x7d);\n",
      code 0 "    const auto &found = stringToEnumMap.find(in);\n",
      code 0 "    if (found != stringToEnumMap.end())\n",
      code 0 "    \x7b\n",
      code 0 "        ret = (*found).second;\n",
      code 0 "        isValid = true;\n",
      code 0 "    \x7d\n",
      code 0 "    return ret;\n",
      code 0 "\x7d\n",
      linefeed]

def saveTypeScript (d : DOM) : List Call :=
  [code 0 "// clang-format off\n",
    code 0 "// CreateDOM: Schema Generation tool written by John W. Ratcliff, 2019\n",
    code 0 "// C++ binding code for enumeration lookups and initialization to default values.\n",
    code 0 "// The Google DOCs Schema Spreadsheet for this source came from: %s\n" [d.mURL],
    code 0 "#include \"%s.h\"\n" [d.mFilename],
    code 0 "#include <assert.h>\n",
    code 0 "#include <unordered_map>\n",
    code 0 "#include <mutex>\n",
    code 0 "#include <string>\n",
    code 0 "#include <string.h>\n",
    code 0 "#ifdef _MSC_VER\n",
    code 0 "#pragma warning(disable:4996 4100)\n",
    code 0 "#endif\n",
    linefeed,
    code 0 "#include \"RapidJSONDocument.h\"\n",
    linefeed,
    code 0 "namespace %s \x7b\n" [d.mNamespace]] ++
  d.mObjects.flatMap fun o => if stricmp o.mType "Enum".toList then enumTables o else []

def hasValue (i : MemberVariable) (optional : Bool) : List Call :=
  if optional then [code 1 "if ( type.%s.has_value() )\n" [i.mMember]] else []

/-- The text of a block of the serializer. -/
def serializeText (i : MemberVariable) : SerializeStmt → List Call
  | .rawMap _ =>
      [code 1 "// Serialize this map type: %s : %s\n" [i.mMember, i.mType],
        code 1 "for (auto &i : type._%s)\n" [i.mMember],
        code 1 "\x7b\n",
        code 1 "    d.AddMember(rapidjson::StringRef(i.first.c_str()), i.second, alloc);\n",
        code 1 "\x7d\n"]
  | .rawArray _ _ =>
      [code 1 "\x7b\n",
        code 1 "    rapidjson::Value varray(rapidjson::kArrayType);\n",
        code 1 "    for (auto &i : type.%s)\n" [i.mMember],
        code 1 "    \x7b\n",
        code 1 "        rapidjson::Value v(i);\n",
        code 1 "        varray.PushBack(v, alloc);\n",
        code 1 "    \x7d\n",
        code 1 "    d.AddMember(\"%s\", varray, alloc);\n" [i.mMember],
        code 1 "\x7d\n"]
  | .raw _ true =>
      [code 1 "if ( type.%s.has_value() )\n" [i.mMember],
        code 1 "\x7b\n",
        code 2 "d.AddMember(\"%s\",type.%s.value(),alloc);\n" [i.mMember, i.mMember],
        code 1 "\x7d\n"]
  | .raw _ false =>
      [code 1 "d.AddMember(\"%s\",type.%s,alloc);\n" [i.mMember, i.mMember]]
  | .stringArray _ optional =>
      hasValue i optional ++
      [code 1 "\x7b\n",
        code 1 "    rapidjson::Value v(rapidjson::kArrayType);\n"] ++
      [code 1 "    for (auto &i : type.%s)\n" [i.mMember],
        code 1 "    \x7b\n"] ++
      [code 1 "        rapidjson::Value item(rapidjson::StringRef(i.c_str()));\n",
        code 1 "        v.PushBack(item, alloc);\n",
        code 1 "    \x7d\n",
        code 1 "    d.AddMember(\"%s\", v, alloc);\n" [i.mMember],
        code 1 "\x7d\n"]
  | .stringMap _ optional =>
      hasValue i optional ++
      [code 1 "\x7b\n",
        code 1 "    rapidjson::Value v(rapidjson::kArrayType);\n",
        code 1 "    for (auto &i : type._%s)\n" [i.mMember]] ++
      [code 1 "    \x7b\n",
        code 1 "        d.AddMember(rapidjson::StringRef(i.first.c_str()), rapidjson::StringRef(i.second.c_str()), alloc);\n"] ++
      [code 1 "    \x7d\n"] ++
      [code 1 "\x7d\n"]
  | .string _ true =>
      [code 1 "if ( type.%s.has_value() )\n" [i.mMember],
        code 1 "\x7b\n",
        code 2 "d.AddMember(\"%s\",rapidjson::StringRef(type.%s.value().c_str()),alloc);\n" [i.mMember, i.mMember],
        code 1 "\x7d\n"]
  | .string _ false =>
      [code 1 "d.AddMember(\"%s\",rapidjson::StringRef(type.%s.c_str()),alloc);\n" [i.mMember, i.mMember]]
  | .enumListMap _ _ =>
      [code 1 "\x7b\n",
        code 2 "for (auto &i : type._%s)\n" [i.mMember],
        code 2 "\x7b\n",
        code 3 "rapidjson::Value v(rapidjson::kArrayType);\n",
        code 3 "for (auto &j : i.second)\n",
        code 3 "\x7b\n",
        code 4 "const char *name = stringifyEnum(j);\n",
        code 4 "rapidjson::Value item(rapidjson::StringRef(name));\n",
        code 4 "v.PushBack(item, alloc);\n",
        code 3 "\x7d\n",
        code 3 "d.AddMember(rapidjson::StringRef(i.first.c_str()), v, alloc);\n",
        code 2 "\x7d\n"] ++ [code 1 "\x7d\n"]
  | .enumArray _ _ =>
      [code 1 "\x7b\n"] ++
      [code 2 "rapidjson::Value array(rapidjson::kArrayType);\n",
        code 2 "for (auto &i : type.%s)\n" [i.mMember],
        code 2 "\x7b\n",
        code 3 "rapidjson::Value v(rapidjson::StringRef(stringifyEnum(i)));\n"] ++
      [code 3 "array.PushBack(v, alloc);\n",
        code 2 "\x7d\n",
        code 2 "d.AddMember(\"%s\", array, alloc);\n" [i.mMember],
        code 1 "\x7d\n"]
  | .objectArray _ _ =>
      [code 1 "\x7b\n"] ++
      [code 2 "rapidjson::Value array(rapidjson::kArrayType);\n",
        code 2 "for (auto &i : type.%s)\n" [i.mMember],
        code 2 "\x7b\n"] ++
      [code 3 "rapidjson::Value v(rapidjson::kObjectType);\n",
        code 3 "serializeTo(i, v, alloc);\n",
        code 3 "array.PushBack(v, alloc);\n",
        code 2 "\x7d\n",
        code 2 "d.AddMember(\"%s\", array, alloc);\n" [i.mMember],
        code 1 "\x7d\n"]
  | .enum _ _ true asInteger =>
      [code 1 "if ( type.%s.has_value() )\n" [i.mMember],
        code 1 "\x7b\n"] ++
      [if asInteger then code 2 "d.AddMember(\"%s\",uint64_t(type.%s.value()),alloc);\n" [i.mMember, i.mMember]
        else code 2 "d.AddMember(\"%s\",rapidjson::StringRef(stringifyEnum(type.%s.value())),alloc);\n" [i.mMember, i.mMember]] ++
      [code 1 "\x7d\n"]
  | .enum _ _ false asInteger =>
      [if asInteger then code 1 "d.AddMember(\"%s\",uint64_t(type.%s),alloc);\n" [i.mMember, i.mMember]
        else code 1 "d.AddMember(\"%s\",rapidjson::StringRef(stringifyEnum(type.%s)),alloc);\n" [i.mMember, i.mMember]]
  | .object _ _ optional =>
      hasValue i optional ++
      [code 1 "\x7b\n",
        code 2 "rapidjson::Value v(rapidjson::kObjectType);\n"] ++
      [if optional then code 2 "serializeTo(type.%s.value(),v,alloc);\n" [i.mMember]
        else code 2 "serializeTo(type.%s,v,alloc);\n" [i.mMember]] ++
      [code 2 "d.AddMember(\"%s\",v,alloc);\n" [i.mMember],
        code 1 "\x7d\n"]

def serializeMember (d : DOM) (i : MemberVariable) : Option (List Call) :=
  (serializeStmt (classEnumMap d) i).map (serializeText i)

def saveSerializeObject (d : DOM) (o : Object) : Option (List Call) :=
  if o.mIsEnum then some []
  else
    (collect (serializeMember d) (ownItems o)).map fun members =>
      [linefeed,
        code 0 "template<typename DocumentOrObject, typename Alloc>\n",
        code 0 "DocumentOrObject& serializeTo(const %s& type, DocumentOrObject& d, Alloc& alloc)\n" [o.mName],
        code 0 "\x7b\n"] ++
      (if o.mInheritsFrom = [] then []
        else [code 1 "serializeTo(static_cast<const %s&>(type), d, alloc);\n" [o.mInheritsFrom]]) ++
      members ++
      [code 0 "    return d;\n",
        code 0 "\x7d\n",
        linefeed,
        code 0 "std::string serialize(const %s& type)\n" [o.mName],
        code 0 "\x7b\n",
        code 0 "    rapidjson::Document d;\n",
        code 0 "    d.SetObject();\n",
        code 0 "    serializeTo(type, d, d.GetAllocator());\n",
        code 0 "    return serializeDocument(d);\n",
        code 0 "\x7d\n",
        linefeed]

def saveSerialize (d : DOM) : Option (List Call) :=
  (collect (saveSerializeObject d) d.mObjects).map fun objects =>
    [linefeed,
      linefeed,
      code 0 "template<typename T, typename DocumentOrObject, typename Alloc>\n",
      code 0 "rapidjson::Document& serializeTo(const T& type, DocumentOrObject& d, Alloc& alloc);\n",
      linefeed,
      code 0 "std::string serializeDocument(const rapidjson::Document& d)\n",
      code 0 "\x7b\n",
      code 0 "    rapidjson::StringBuffer strbuf;\n",
      code 0 "    rapidjson::Writer<rapidjson::StringBuffer> writer(strbuf);\n",
      code 0 "    d.Accept(writer);\n",
      code 0 "    return strbuf.GetString();\n",
      code 0 "\x7d\n",
      linefeed] ++
    objects

def missingMember (required : Bool) : List Call :=
  if required then
    [code 2 "else\n",
      code 2 "\x7b\n",
      code 3 "return false;\n",
      code 2 "\x7d\n"]
  else []

def findMember (i : MemberVariable) : List Call :=
  [code 2 "auto found = d.FindMember(\"%s\");\n" [i.mMember],
    code 2 "if ( found != d.MemberEnd() )\n",
    code 2 "\x7b\n",
    code 3 "const rapidjson::Value &v = found->value;\n"]

def mapLoop (i : MemberVariable) : List Call :=
  [code 2 "// Deserialize map: '_%s' of type 'string'\n" [i.mMember],
    code 2 "\x7b\n",
    code 3 "for (rapidjson::Value::ConstMemberIterator iter = d.MemberBegin(); iter != d.MemberEnd(); ++iter)\n",
    code 3 "\x7b\n",
    code 4 "const char* key = iter->name.GetString();\n",
    code 4 "const rapidjson::Value &item = iter->value;\n"]

def checkedBlock (i : MemberVariable) (type : StandardType) (value : List Call) : List Call :=
  [code 3 "if ( v.%s() )\n" [checkName type],
    code 3 "\x7b\n"] ++
  value ++
  [code 3 "\x7d\n"] ++
  (if type = .floatType then
    [code 3 "else if ( v.IsNumber() )\n",
      code 3 "\x7b\n",
      code 4 "r.%s = float(v.GetUint64());\n" [i.mMember],
      code 3 "\x7d\n"]
  else if type = .doubleType then
    [code 3 "else if ( v.IsNumber() )\n",
      code 3 "\x7b\n",
      code 4 "r.%s = double(v.GetUint64());\n" [i.mMember],
      code 3 "\x7d\n"]
  else []) ++
  [code 3 "else\n",
    code 3 "\x7b\n",
    code 4 "return false;\n",
    code 3 "\x7d\n"]

/-- The text of a block of the deserializer. -/
def deserializeText (i : MemberVariable) : DeserializeStmt → List Call
  | .numericMap _ _ =>
      mapLoop i ++
      [code 4 "\x7b\n",
        code 4 "    if (item.IsString())\n",
        code 4 "    \x7b\n",
        code 4 "        uint64_t ivalue = 0;\n",
        code 4 "        stringToInt(item.GetString(), ivalue);\n",
        code 4 "        r._%s[std::string(key)] = ivalue;\n" [i.mMember],
        code 4 "    \x7d\n",
        code 4 "    else if (item.IsNumber())\n",
        code 4 "    \x7b\n",
        code 4 "        r._%s[std::string(key)] = item.GetUint64();\n" [i.mMember],
        code 4 "    \x7d\n",
        code 4 "\x7d\n"] ++
      [code 3 "\x7d\n",
        code 2 "\x7d\n"]
  | .stringMap _ _ skipMembers =>
      mapLoop i ++
      [code 4 "if (item.IsString())\n",
        code 4 "\x7b\n",
        code 5 "const char *value = item.GetString();\n"] ++
      (if skipMembers then
        [code 5 "// Skip keys which we already deserialize explicitly by name.\n",
          code 5 "if ( r.isMember(key) )\n",
          code 5 "\x7b\n",
          code 5 "\x7d\n",
          code 5 "else\n"]
      else []) ++
      [code 5 "\x7b\n",
        code 6 "r._%s[std::string(key)] = std::string(value);\n" [i.mMember],
        code 5 "\x7d\n",
        code 4 "\x7d\n",
        code 3 "\x7d\n",
        code 2 "\x7d\n"]
  | .integerArray _ type required =>
      findMember i ++
      [code 3 "if (v.IsArray())\n",
        code 3 "\x7b\n",
        code 3 "    std::vector< %s > %s;\n" [cppType i, i.mMember],
        code 3 "    for (rapidjson::SizeType i = 0; i < v.Size(); i++)\n",
        code 3 "    \x7b\n",
        code 3 "        const rapidjson::Value& entry = v[i];\n",
        code 3 "        %s ivalue;\n" [cppType i],
        code 3 "        if (entry.IsString())\n",
        code 3 "        \x7b\n",
        code 3 "            stringToInt(entry.GetString(), ivalue);\n",
        code 3 "        \x7d\n",
        code 3 "        else if (entry.IsNumber())\n",
        code 3 "        \x7b\n",
        code 3 "            ivalue = entry.%s();\n" [accessor type],
        code 3 "        \x7d\n",
        code 3 "        else\n",
        code 3 "        \x7b\n",
        code 3 "            return false;\n",
        code 3 "        \x7d\n",
        code 3 "        %s.push_back(ivalue);\n" [i.mMember],
        code 3 "    \x7d\n",
        code 3 "    r.%s = %s;\n" [i.mMember, i.mMember],
        code 3 "\x7d\n",
        code 3 "else\n",
        code 3 "\x7b\n",
        code 3 "    return false;\n",
        code 3 "\x7d\n"] ++
      [code 2 "\x7d\n"] ++ missingMember required
  | .integer _ type required =>
      findMember i ++
      [code 3 "if ( v.IsString() )\n",
        code 3 "\x7b\n",
        code 4 "%s ivalue;\n" [cppType i],
        code 4 "stringToInt(v.GetString(),ivalue);\n",
        code 4 "r.%s = ivalue;\n" [i.mMember],
        code 3 "\x7d\n",
        code 3 "else if ( v.IsNumber() )\n",
        code 3 "\x7b\n",
        code 4 "r.%s = v.%s();\n" [i.mMember, accessor type],
        code 3 "\x7d\n",
        code 3 "else\n",
        code 3 "\x7b\n",
        code 4 "return false;\n",
        code 3 "\x7d\n"] ++
      [code 2 "\x7d\n"] ++ missingMember required
  | .checkedArray _ type required =>
      findMember i ++
      checkedBlock i type
        [code 4 "if (v.IsArray())\n",
          code 4 "\x7b\n",
          code 4 "    for (rapidjson::SizeType i = 0; i < v.Size(); i++)\n",
          code 4 "    \x7b\n",
          code 4 "        const rapidjson::Value& item = v[i];\n",
          code 4 "        if (item.%s())\n" [checkName type],
          code 4 "        \x7b\n",
          code 4 "            r.%s.push_back(std::string(item.%s()));\n" [i.mMember, getName type],
          code 4 "        \x7d\n",
          code 4 "        else\n",
          code 4 "        \x7b\n",
          code 4 "            return false;\n",
          code 4 "        \x7d\n",
          code 4 "    \x7d\n",
          code 4 "\x7d\n",
          code 4 "else\n",
          code 4 "\x7b\n",
          code 4 "    return false;\n",
          code 4 "\x7d\n"] ++
      [code 2 "\x7d\n"] ++ missingMember required
  | .checked _ type required =>
      findMember i ++
      checkedBlock i type [code 4 "r.%s = v.%s();\n" [i.mMember, accessor type]] ++
      [code 2 "\x7d\n"] ++ missingMember required
  | .enumListMap _ _ =>
      [code 2 "//Deserialize this array of enums as a map.\n",
        code 2 "for (rapidjson::Value::ConstMemberIterator iter = d.MemberBegin(); iter != d.MemberEnd(); ++iter)\n",
        code 2 "\x7b\n",
        code 2 "    const char* key = iter->name.GetString();\n",
        code 2 "    const rapidjson::Value &item = iter->value;\n",
        code 2 "    if (item.IsArray())\n",
        code 2 "    \x7b\n",
        code 2 "        std::vector< %s > items;\n" [i.mType],
        code 2 "        for (rapidjson::SizeType i = 0; i < item.Size(); i++)\n",
        code 2 "        \x7b\n",
        code 2 "            const rapidjson::Value& entry = item[i];\n",
        code 2 "            if (entry.IsString())\n",
        code 2 "            \x7b\n",
        code 2 "                bool isOk;\n",
        code 2 "                %s p = unstringifyEnum<%s>(entry.GetString(), isOk);\n" [i.mType, i.mType],
        code 2 "                if (isOk)\n",
        code 2 "                \x7b\n",
        code 2 "                    items.push_back(p);\n",
        code 2 "                \x7d\n",
        code 2 "                else\n",
        code 2 "                \x7b\n",
        code 2 "                    return false;\n",
        code 2 "                \x7d\n",
        code 2 "            \x7d\n",
        code 2 "            else\n",
        code 2 "            \x7b\n",
        code 2 "                return false;\n",
        code 2 "            \x7d\n",
        code 2 "        \x7d\n",
        code 2 "        r._%s[std::string(key)] = items;\n" [i.mMember],
        code 2 "    \x7d\n",
        code 2 "    else\n",
        code 2 "    \x7b\n",
        code 2 "        return false;\n",
        code 2 "    \x7d\n",
        code 2 "\x7d\n"]
  | .enumArray _ _ required =>
      [code 2 "//Deserialize an array of objects of type '%s' to array '%s'.\n" [i.mType, i.mMember],
        code 2 "auto found = d.FindMember(\"%s\");\n" [i.mMember],
        code 2 "if (found != d.MemberEnd())\n",
        code 2 "\x7b\n",
        code 3 "const rapidjson::Value &v = found->value;\n",
        code 3 "if (v.IsArray())\n",
        code 3 "\x7b\n",
        code 4 "for (rapidjson::SizeType i = 0; i < v.Size(); i++)\n",
        code 4 "\x7b\n",
        code 5 "const rapidjson::Value& item = v[i];\n",
        code 5 "if (item.IsString())\n",
        code 5 "\x7b\n",
        code 6 "bool isOk;\n",
        code 6 "%s h = unstringifyEnum<%s>(item.GetString(), isOk);\n" [i.mType, i.mType],
        code 6 "if (isOk)\n",
        code 6 "\x7b\n",
        code 7 "r.acl.push_back(h);\n",
        code 6 "\x7d\n",
        code 6 "else\n",
        code 6 "\x7b\n",
        code 7 "return false;\n",
        code 6 "\x7d\n",
        code 5 "\x7d\n",
        code 5 "else\n",
        code 5 "\x7b\n",
        code 6 "return false;\n",
        code 5 "\x7d\n"] ++
      [code 2 "        \x7d\n",
        code 2 "    \x7d\n",
        code 2 "    else\n",
        code 2 "    \x7b\n",
        code 2 "        return false;\n",
        code 2 "    \x7d\n",
        code 2 "\x7d\n"] ++
      missingMember required
  | .objectArray _ _ required =>
      [code 2 "//Deserialize an array of objects of type '%s' to array '%s'.\n" [i.mType, i.mMember],
        code 2 "auto found = d.FindMember(\"%s\");\n" [i.mMember],
        code 2 "if (found != d.MemberEnd())\n",
        code 2 "\x7b\n",
        code 3 "const rapidjson::Value &v = found->value;\n",
        code 3 "if (v.IsArray())\n",
        code 3 "\x7b\n",
        code 4 "for (rapidjson::SizeType i = 0; i < v.Size(); i++)\n",
        code 4 "\x7b\n",
        code 5 "const rapidjson::Value& item = v[i];\n"] ++
      [code 2 "            %s h;\n" [i.mType],
        code 2 "            if (deserializeFrom(item, h))\n",
        code 2 "            \x7b\n",
        code 2 "                r.%s.push_back(h);\n" [i.mMember],
        code 2 "            \x7d\n",
        code 2 "            else\n",
        code 2 "            \x7b\n",
        code 2 "                return false;\n",
        code 2 "            \x7d\n",
        code 2 "        \x7d\n",
        code 2 "    \x7d\n",
        code 2 "    else\n",
        code 2 "    \x7b\n",
        code 2 "        return false;\n",
        code 2 "    \x7d\n",
        code 2 "\x7d\n"] ++
      missingMember required
  | .enum _ _ asInteger =>
      [code 2 "auto found = d.FindMember(\"%s\");\n" [i.mMember],
        code 2 "if ( found != d.MemberEnd() )\n",
        code 2 "\x7b\n",
        code 3 "const rapidjson::Value &v = found->value;\n",
        code 3 "if ( v.IsString() )\n",
        code 3 "\x7b\n",
        code 4 "bool isOk;\n",
        code 4 "r.%s = unstringifyEnum<%s>(v.GetString(),isOk);\n" [i.mMember, i.mType],
        code 4 "if ( !isOk )\n",
        code 4 "\x7b\n",
        code 5 "return false;\n",
        code 4 "\x7d\n",
        code 3 "\x7d\n",
        code 3 "else\n",
        code 3 "\x7b\n"] ++
      (if asInteger then
        [code 4 "if ( v.IsNumber() )\n",
          code 4 "\x7b\n",
          code 5 "uint64_t evalue = v.GetUint64();\n",
          code 5 "r.%s = %s(evalue);\n" [i.mMember, i.mType],
          code 4 "\x7d\n",
          code 4 "else\n",
          code 4 "\x7b\n",
          code 5 "return false;\n",
          code 4 "\x7d\n"]
      else [code 4 "return false;\n"]) ++
      [code 3 "\x7d\n",
        code 2 "\x7d\n"]
  | .object _ _ required =>
      [code 2 "// Deserialize object type '%s' into member variable '%s'\n" [i.mType, i.mMember],
        code 2 "auto found = d.FindMember(\"%s\");\n" [i.mMember],
        code 2 "if (found != d.MemberEnd())\n",
        code 2 "\x7b\n",
        code 3 "%s h;\n" [i.mType],
        code 3 "if ( deserializeFrom(found->value, h) )\n",
        code 3 "\x7b\n",
        code 4 "r.%s = h;\n" [i.mMember],
        code 3 "\x7d\n",
        code 3 "else\n",
        code 3 "\x7b\n",
        code 4 "return false;\n",
        code 3 "\x7d\n",
        code 2 "\x7d\n"] ++
      missingMember required
  | .todo => [code 2 "// TODO: Need to deserialize this type.\n"]

def deserializeMember (d : DOM) (o : Object) (i : MemberVariable) : Option (List Call) :=
  (deserializeStmt (classEnumMap d) (nonMapItems o) i).map fun stmt =>
    [code 1 "// Deserialize member: '%s' of type '%s'\n" [i.mMember, i.mType],
      code 1 "\x7b\n"] ++
    deserializeText i stmt ++ [code 1 "\x7d\n"]

def saveDeserializeObject (d : DOM) (o : Object) : Option (List Call) :=
  if o.mIsEnum then some []
  else
    (collect (deserializeMember d o) (ownItems o)).map fun members =>
      [linefeed,
        code 0 "// Deserialize object %s\n" [o.mName],
        code 0 "template<typename DocumentOrObject>\n",
        code 0 "bool deserializeFrom(const DocumentOrObject& d, %s& r)\n" [o.mName],
        code 0 "\x7b\n"] ++
      (if o.mInheritsFrom = [] then []
        else
          [code 1 "//Deserialize the base class (%s) first.\n" [o.mInheritsFrom],
            code 1 "if ( !deserializeFrom(d,static_cast<%s&>(r)))\n" [o.mInheritsFrom],
            code 1 "\x7b\n",
            code 2 "return false;\n",
            code 1 "\x7d\n"]) ++
      members ++
      [code 0 "    return true;\n",
        code 0 "\x7d\n",
        linefeed,
        linefeed,
        code 0 "template struct details::Deserialize<%s>;\n" [o.mName],
        linefeed]

def saveDeserialize (d : DOM) : Option (List Call) :=
  (collect (saveDeserializeObject d) d.mObjects).map fun objects =>
    [linefeed,
      code 0 "/*\n",
      code 0 "* Deserialization implementation\n",
      code 0 "*/\n",
      code 0 "int64_t atoi64(const char* str)\n",
      code 0 "\x7b\n",
      code 0 "    int64_t ret = 0;\n",
      code 0 "\n",
      code 0 "    if (str)\n",
      code 0 "    \x7b\n",
      code 0 "#ifdef _MSC_VER\n",
      code 0 "        ret = _atoi64(str);\n",
      code 0 "#else\n",
      code 0 "    ret = strtoul(str, nullptr, 10);\n",
      code 0 "#endif\n",
      code 0 "    \x7d\n",
      code 0 "    return ret;\n",
      code 0 "\x7d\n",
      code 0 "// Helper method to convert a string to an integer of this type\n",
      code 0 "void stringToInt(const char *str, uint64_t &v)\n",
      code 0 "\x7b\n",
      code 0 "    v = uint64_t(atoi64(str));\n",
      code 0 "\x7d\n",
      code 0 "\n",
      code 0 "\n",
      code 0 "// Helper method to convert a string to an integer of this type\n",
      code 0 "void stringToInt(const char *str, uint32_t &v)\n",
      code 0 "\x7b\n",
      code 0 "    v = uint32_t(atoi(str));\n",
      code 0 "\x7d\n",
      code 0 "\n",
      code 0 "\n",
      code 0 "// Helper method to convert a string to an integer of this type\n",
      code 0 "void stringToInt(const char *str, uint16_t &v)\n",
      code 0 "\x7b\n",
      code 0 "    v = uint16_t(atoi(str));\n",
      code 0 "\x7d\n",
      code 0 "\n",
      code 0 "\n",
      code 0 "// Helper method to convert a string to an integer of this type\n",
      code 0 "void stringToInt(const char *str, uint8_t &v)\n",
      code 0 "\x7b\n",
      code 0 "    v = uint8_t(atoi(str));\n",
      code 0 "\x7d\n",
      code 0 "\n",
      code 0 "\n",
      code 0 "// Helper method to convert a string to an integer of this type\n",
      code 0 "void stringToInt(const char *str, int64_t &v)\n",
      code 0 "\x7b\n",
      code 0 "    v = int64_t(atoi64(str));\n",
      code 0 "\x7d\n",
      code 0 "\n",
      code 0 "\n",
      code 0 "// Helper method to convert a string to an integer of this type\n",
      code 0 "void stringToInt(const char *str, int32_t &v)\n",
      code 0 "\x7b\n",
      code 0 "    v = int32_t(atoi(str));\n",
      code 0 "\x7d\n",
      code 0 "\n",
      code 0 "\n",
      code 0 "// Helper method to convert a string to an integer of this type\n",
      code 0 "void stringToInt(const char *str, int16_t &v)\n",
      code 0 "\x7b\n",
      code 0 "    v = int16_t(atoi(str));\n",
      code 0 "\x7d\n",
      code 0 "\n",
      code 0 "\n",
      code 0 "// Helper method to convert a string to an integer of this type\n",
      code 0 "void stringToInt(const char *str, int8_t &v)\n",
      code 0 "\x7b\n",
      code 0 "    v = int8_t(atoi(str));\n",
      code 0 "\x7d\n",
      linefeed,
      code 0 "template<typename DocumentOrObject, typename T>\n",
      code 0 "bool deserializeFrom(const DocumentOrObject&, T&);\n",
      linefeed,
      code 0 "rapidjson::Document deserializeDocument(const char* in)\n",
      code 0 "\x7b\n",
      code 1 "rapidjson::Document d;\n",
      code 1 "d.Parse(in);\n",
      code 1 "return d;\n",
      code 0 "\x7d\n",
      linefeed,
      code 0 "namespace details\n",
      code 0 "\x7b\n",
      code 0 "    template<typename T>\n",
      code 0 "    T Deserialize<T>::deserialize(const char* in, bool& deserializedOk)\n",
      code 0 "    \x7b\n",
      code 0 "        const auto d = deserializeDocument(in);\n",
      code 0 "        T result;\n",
      code 0 "        deserializedOk = deserializeFrom(d, result);\n",
      code 0 "        return result;\n",
      code 0 "    \x7d\n",
      code 0 "    template<typename T>\n",
      code 0 "    T Deserialize<T>::deserialize(const rapidjson::RapidJSONDocument &d, bool& deserializedOk)\n",
      code 0 "    \x7b\n",
      code 0 "        T result;\n",
      code 0 "        deserializedOk = deserializeFrom(d, result);\n",
      code 0 "        return result;\n",
      code 0 "    \x7d\n",
      code 0 "\x7d\n",
      linefeed] ++
    objects

def implementation (d : DOM) : Option (List Call) :=
  (saveSerialize d).bind fun serializers => (saveDeserialize d).map fun deserializers =>
    saveTypeScript d ++ serializers ++ deserializers ++
      [code 0 "\x7d // End of namespace:%s\n" [d.mNamespace]]

/-- The texts of the header and of the implementation, when the schema has a namespace and a
file name and is not plain old data, and no assertion fails. -/
def saveCPP (d : DOM) : Option (Text × Text) :=
  if d.mNamespace = [] ∨ d.mFilename = [] ∨ d.mPlainOldData then none
  else (header d).bind fun h => (implementation d).map fun i => (printAll h, printAll i)

end SchemaCodeGen.Implementation
