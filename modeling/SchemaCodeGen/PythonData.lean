import SchemaCodeGen.EnumBackends
import SchemaCodeGen.EnumCodec
import SchemaCodeGen.Generated

namespace SchemaCodeGen.PythonData

open CString Schema Emit Printer EnumTable EnumCodec EnumBackends Generated

def isClassType (d : DOM) (type : Text) : Bool := (d.findObject type).any Object.mIsClass

def isEnumType (d : DOM) (type : Text) : Bool := (d.findObject type).any Object.mIsEnum

def plainTypes : List Text :=
  ["i8", "i16", "i32", "i64", "u8", "u16", "u32", "u64", "float", "double", "bool", "string"].map
    String.toList

/-- The line of `as_data` for a member. There is none for an unknown type. -/
def asDataMember (d : DOM) (m : MemberVariable) : Option Call :=
  if m.mIsArray then
    if isClassType d m.mType then
      some (code 2 "data['%s'] = [e.as_data() for e in self.%s]\n" [m.mMember, m.mMember])
    else if isEnumType d m.mType then
      some (code 2 "data['%s'] = '%s_strings[self.%s]\n" [m.mMember, m.mType, m.mMember])
    else if plainTypes.contains m.mType then
      some (code 2 "data['%s'] = [e for e in self.%s]\n" [m.mMember, m.mMember])
    else none
  else if isClassType d m.mType then
    some (code 2 "data['%s'] = self.%s.as_data()\n" [m.mMember, m.mMember])
  else if isEnumType d m.mType then
    some (code 2 "data['%s'] = %s_strings[self.%s]\n" [m.mMember, m.mType, m.mMember])
  else if plainTypes.contains m.mType then
    some (code 2 "data['%s'] = self.%s\n" [m.mMember, m.mMember])
  else none

section Python

def keywords : List Text :=
  ["False", "None", "True", "and", "as", "assert", "async", "await", "break", "class", "continue",
    "def", "del", "elif", "else", "except", "finally", "for", "from", "global", "if", "import", "in",
    "is", "lambda", "nonlocal", "not", "or", "pass", "raise", "return", "try", "while", "with",
    "yield"].map String.toList

inductive Token
  | name (s : Text)
  | text (s : Text)
  | sign (c : Char)
  deriving DecidableEq, Repr

inductive Mode
  | between
  | inName (s : Text)
  | inText (s : Text)
  deriving DecidableEq, Repr

def isNameChar (c : Char) : Bool := c.isAlphanum || c == '_'

/-- The tokens of a line. A text has to end on the line it starts on. Escapes and prefixes of
texts do not occur in what is emitted. -/
def lex : Mode → Text → Option (List Token)
  | .between, [] => some []
  | .inName s, [] => some [.name s]
  | .inText _, [] => none
  | .between, c :: t =>
      if isNameChar c then lex (.inName [c]) t
      else if c = '\'' then lex (.inText []) t
      else if c = ' ' ∨ c = '\n' then lex .between t
      else (lex .between t).map (.sign c :: ·)
  | .inName s, c :: t =>
      if isNameChar c then lex (.inName (s ++ [c])) t
      else if c = '\'' then none
      else if c = ' ' ∨ c = '\n' then (lex .between t).map (.name s :: ·)
      else (lex .between t).map fun l => .name s :: .sign c :: l
  | .inText s, c :: t =>
      if c = '\'' then (lex .between t).map (.text s :: ·)
      else if c = '\n' ∨ c = '\\' then none
      else lex (.inText (s ++ [c])) t

inductive PyValue
  | int (n : Int)
  | str (s : Text)
  | list (l : List PyValue)

/-- The key and the value that a line stores in the data of an object, which has the
attributes of `self` and finds tables of strings in its module. -/
def runLine (tables : Text → Option (List Text)) (self : Text → Option PyValue) (line : Text) :
    Option (Text × PyValue) :=
  match lex .between line with
  | some [.name data, .sign '[', .text key, .sign ']', .sign '=', .name table, .sign '[',
      .name object, .sign '.', .name member, .sign ']'] =>
      if data = "data".toList ∧ object = "self".toList ∧ table ∉ keywords ∧ member ∉ keywords then
        match tables table, self member with
        | some l, some (.int k) => (subscript l k).map fun s => (key, .str s)
        | _, _ => none
      else none
  | _ => none

end Python

def tableName (e : Text) : Text := e ++ "_strings".toList

inductive Global
  | constant (n : Int)
  | table (l : List Text)
  | cls
  deriving DecidableEq

/-- The names that an object binds where it is printed: those of the items of an enum and then its
table, or that of a class. -/
def bindings (o : Object) : List (Text × Global) :=
  if stricmp o.mType "Enum".toList then
    (pythonConstants 0 o.mItems).map (fun a => (a.name, .constant a.value)) ++
      [(tableName o.mName, .table (pythonStrings o))]
  else [(o.mName, .cls)]

/-- All objects are printed into one module, where the last binding of a name stays. -/
def moduleGlobals (d : DOM) (name : Text) : Option Global :=
  (d.mObjects.flatMap bindings).reverse.lookup name

def moduleTables (d : DOM) (table : Text) : Option (List Text) :=
  match moduleGlobals d table with
  | some (.table l) => some l
  | _ => none

def moduleConstants (d : DOM) (name : Text) : Option Int :=
  match moduleGlobals d name with
  | some (.constant n) => some n
  | _ => none

/-- The constant of an item, by its name. A keyword cannot be assigned. -/
def itemConstant (d : DOM) (e : Object) (k : Nat) : Option Int :=
  e.mItems[k]?.bind fun i => if i.mMember ∈ keywords then none else moduleConstants d i.mMember

/-- The line of a member stores the value when the member has the given one. -/
def Stores (d : DOM) (i : MemberVariable) (held stored : PyValue) : Prop :=
  ∃ k line, asDataMember d i = some (.code k line) ∧
    runLine (moduleTables d) (fun m => if m = i.mMember then some held else none) line =
      some (i.mMember, stored)

/-- A member with the constants of items is stored as strings that C++ decodes to the items. -/
def StoresItems (constant : Constant) (d : DOM) (i : MemberVariable) (e : Object) (ks : List Nat) :
    Prop :=
  ∃ ns ss, ks.mapM (itemConstant d e) = some ns ∧
    ss.map (unstringifyEnum constant e) = ks.map ((values constant e)[·]?) ∧
    if i.mIsArray then Stores d i (.list (ns.map .int)) (.list (ss.map .str))
    else ∃ n s, ns = [n] ∧ ss = [s] ∧ Stores d i (.int n) (.str s)

/-- The item is stored in the member so that C++ decodes it: by itself, or in every array. -/
def Decodes (constant : Constant) (d : DOM) (i : MemberVariable) (e : Object) (k : Nat) : Prop :=
  if i.mIsArray then
    ∀ ks, (∀ j ∈ ks, j < e.mItems.length) → k ∈ ks → StoresItems constant d i e ks
  else StoresItems constant d i e [k]

def Identifier (s : Text) : Prop := s ≠ [] ∧ ∀ c ∈ s, isNameChar c = true

instance (s : Text) : Decidable (Identifier s) := inferInstanceAs (Decidable (_ ∧ ∀ c ∈ s, _))

structure OfEnum (d : DOM) (i : MemberVariable) (e : Object) : Prop where
  found : d.findObject i.mType = some e
  enum : e.mIsEnum = true
  noClass : e.mIsClass = false
  member : Identifier i.mMember
  name : Identifier i.mType

structure DistinctItems (constant : Constant) (e : Object) : Prop where
  values : (values constant e).Nodup
  strings : (strings e).Nodup

section Lex

variable {s t acc : Text}

theorem lex_inName (hs : ∀ c ∈ s, isNameChar c = true) :
    lex (.inName acc) (s ++ t) = lex (.inName (acc ++ s)) t := by
  induction s generalizing acc with
  | nil => simp
  | cons c s ih =>
      rw [List.forall_mem_cons] at hs
      rw [List.cons_append, lex, if_pos hs.1, ih hs.2, List.append_assoc, List.singleton_append]

theorem lex_identifier (hs : Identifier s) : lex .between (s ++ t) = lex (.inName s) t := by
  obtain ⟨hne, hs⟩ := hs
  cases s with
  | nil => exact absurd rfl hne
  | cons c s =>
      rw [List.forall_mem_cons] at hs
      rw [List.cons_append, lex, if_pos hs.1, lex_inName hs.2, List.singleton_append]

theorem ordinary_of_nameChar {c : Char} (h : isNameChar c = true) : c ≠ '\'' ∧ c ≠ '\n' ∧ c ≠ '\\' := by
  refine ⟨?_, ?_, ?_⟩ <;> rintro rfl <;> exact absurd h (by decide)

theorem lex_inText (hs : ∀ c ∈ s, c ≠ '\'' ∧ c ≠ '\n' ∧ c ≠ '\\') :
    lex (.inText acc) (s ++ t) = lex (.inText (acc ++ s)) t := by
  induction s generalizing acc with
  | nil => simp
  | cons c s ih =>
      rw [List.forall_mem_cons] at hs
      obtain ⟨hquote, hline, hescape⟩ := hs.1
      rw [List.cons_append, lex, if_neg hquote, if_neg (by simp [hline, hescape]), ih hs.2,
        List.append_assoc, List.singleton_append]

theorem lex_single {m type : Text} (hm : Identifier m) (htype : Identifier type) :
    lex .between (stringFormat "data['%s'] = %s_strings[self.%s]\n".toList [m, type, m]) =
      some [.name "data".toList, .sign '[', .text m, .sign ']', .sign '=', .name (tableName type),
        .sign '[', .name "self".toList, .sign '.', .name m, .sign ']'] := by
  have htext : stringFormat "data['%s'] = %s_strings[self.%s]\n".toList [m, type, m] =
      "data['".toList ++ (m ++ ("'] = ".toList ++ (type ++ ("_strings".toList ++ ("[self.".toList ++
        (m ++ "]\n".toList)))))) := rfl
  have hopen : ∀ t, lex .between ("data['".toList ++ t) =
      (lex (.inText []) t).map fun l => .name "data".toList :: .sign '[' :: l := fun _ => rfl
  have hkey : ∀ t, lex (.inText m) ("'] = ".toList ++ t) =
      (((lex .between t).map (.sign '=' :: ·)).map (.sign ']' :: ·)).map (.text m :: ·) :=
    fun _ => rfl
  have htable : ∀ s t, lex (.inName s) ("[self.".toList ++ t) =
      ((lex .between t).map fun l => .name "self".toList :: .sign '.' :: l).map fun l =>
        .name s :: .sign '[' :: l := fun _ _ => rfl
  have hend : lex (.inName m) "]\n".toList = some [.name m, .sign ']'] := rfl
  have hstrings : ∀ c ∈ "_strings".toList, isNameChar c = true := List.all_eq_true.mp rfl
  rw [htext, hopen, lex_inText fun c hc => ordinary_of_nameChar (hm.2 c hc), List.nil_append, hkey,
    lex_identifier htype, lex_inName hstrings, htable, lex_identifier hm, hend]
  rfl

theorem lex_array {m type : Text} (hm : Identifier m) (htype : Identifier type) :
    lex .between (stringFormat "data['%s'] = '%s_strings[self.%s]\n".toList [m, type, m]) = none := by
  have htext : stringFormat "data['%s'] = '%s_strings[self.%s]\n".toList [m, type, m] =
      "data['".toList ++ (m ++ ("'] = '".toList ++ (type ++ ("_strings[self.".toList ++
        (m ++ "]\n".toList))))) := rfl
  have hopen : ∀ t, lex .between ("data['".toList ++ t) =
      (lex (.inText []) t).map fun l => .name "data".toList :: .sign '[' :: l := fun _ => rfl
  have hkey : ∀ t, lex (.inText m) ("'] = '".toList ++ t) =
      (((lex (.inText []) t).map (.sign '=' :: ·)).map (.sign ']' :: ·)).map (.text m :: ·) :=
    fun _ => rfl
  have hend : ∀ s, lex (.inText s) "]\n".toList = none := fun _ => rfl
  have hstrings : ∀ c ∈ "_strings[self.".toList, c ≠ '\'' ∧ c ≠ '\n' ∧ c ≠ '\\' := by simp
  rw [htext, hopen, lex_inText fun c hc => ordinary_of_nameChar (hm.2 c hc), List.nil_append, hkey,
    lex_inText fun c hc => ordinary_of_nameChar (htype.2 c hc), lex_inText hstrings,
    lex_inText fun c hc => ordinary_of_nameChar (hm.2 c hc), hend]
  rfl

end Lex

section Run

variable {constant : Constant} {d : DOM} {i : MemberVariable} {e : Object} {k : Nat}

theorem tableName_not_keyword (type : Text) : tableName type ∉ keywords := by
  have hsuffix : ∀ s ∈ keywords, ¬ "_strings".toList <:+ s := by decide
  exact fun h => hsuffix _ h (List.suffix_append _ _)

theorem asDataMember_ofEnum (h : OfEnum d i e) : asDataMember d i =
    some (if i.mIsArray then code 2 "data['%s'] = '%s_strings[self.%s]\n" [i.mMember, i.mType, i.mMember]
      else code 2 "data['%s'] = %s_strings[self.%s]\n" [i.mMember, i.mType, i.mMember]) := by
  have hclass : isClassType d i.mType = false := by simp [isClassType, h.found, h.noClass]
  have henum : isEnumType d i.mType = true := by simp [isEnumType, h.found, h.enum]
  rw [asDataMember, hclass, henum]
  cases i.mIsArray <;> rfl

theorem not_stores_array (h : OfEnum d i e) (ha : i.mIsArray = true) (held stored : PyValue) :
    ¬ Stores d i held stored := by
  rintro ⟨k, line, hline, hrun⟩
  rw [asDataMember_ofEnum h, if_pos ha] at hline
  obtain ⟨rfl, rfl⟩ := Call.code.inj (Option.some.inj hline)
  rw [runLine, lex_array h.member h.name] at hrun
  exact absurd hrun (by simp)

theorem stores_single (h : OfEnum d i e) (ha : i.mIsArray = false) {n : Int} {s : Text} :
    Stores d i (.int n) (.str s) ↔ i.mMember ∉ keywords ∧
      ∃ l, moduleTables d (tableName i.mType) = some l ∧ subscript l n = some s := by
  have hrun : runLine (moduleTables d) (fun m => if m = i.mMember then some (.int n) else none)
      (stringFormat "data['%s'] = %s_strings[self.%s]\n".toList [i.mMember, i.mType, i.mMember]) =
      if i.mMember ∉ keywords then
        (moduleTables d (tableName i.mType)).bind fun l =>
          (subscript l n).map fun s => (i.mMember, .str s)
      else none := by
    rw [runLine, lex_single h.member h.name]
    cases htable : moduleTables d (tableName i.mType) <;> simp [tableName_not_keyword, htable]
  constructor
  · rintro ⟨k, line, hline, hstored⟩
    rw [asDataMember_ofEnum h, if_neg (by simp [ha])] at hline
    obtain ⟨rfl, rfl⟩ := Call.code.inj (Option.some.inj hline)
    rw [hrun] at hstored
    split_ifs at hstored with hkeyword
    obtain ⟨l, hl, hstored⟩ := Option.bind_eq_some_iff.mp hstored
    obtain ⟨t, ht, heq⟩ := Option.map_eq_some_iff.mp hstored
    obtain rfl : t = s := by simpa using heq
    exact ⟨hkeyword, l, hl, ht⟩
  · rintro ⟨hkeyword, l, hl, hentry⟩
    refine ⟨2, _, by rw [asDataMember_ofEnum h, if_neg (by simp [ha])]; rfl, ?_⟩
    rw [hrun, if_pos hkeyword, hl, Option.bind_some, hentry, Option.map_some]

end Run

section Items

variable {constant : Constant} {d : DOM} {i item : MemberVariable} {e : Object} {k : Nat}

theorem itemConstant_eq (hitem : e.mItems[k]? = some item) :
    itemConstant d e k =
      if item.mMember ∈ keywords then none else moduleConstants d item.mMember := by
  rw [itemConstant, hitem, Option.bind_some]

theorem unstringifyEnum_item (hd : DistinctItems constant e) (hitem : e.mItems[k]? = some item)
    {s : Text} :
    unstringifyEnum constant e s = (values constant e)[k]? ↔ s = stringName item := by
  have hstring : (strings e)[k]? = some (stringName item) := by
    rw [strings, List.getElem?_map, hitem, Option.map_some]
  obtain ⟨v, hv⟩ : ∃ v, (values constant e)[k]? = some v := by
    rw [← Option.isSome_iff_exists, isSome_getElem?, values, List.length_map, length_numbered]
    exact (List.getElem?_eq_some_iff.mp hitem).1
  have hentry : (v, stringName item) ∈ keyList constant e :=
    List.mem_of_getElem? (List.getElem?_zip_eq_some.mpr ⟨hv, hstring⟩)
  rw [hv]
  constructor
  · intro h
    have hfst : ((keyList constant e).map Prod.fst).Nodup := map_fst_keyList ▸ hd.values
    have heq := List.inj_on_of_nodup_map hfst (mem_of_unstringifyEnum h) hentry rfl
    exact congrArg Prod.snd heq
  · rintro rfl
    obtain ⟨x, hx⟩ := Option.isSome_iff_exists.mp (unstringifyEnum_isSome hentry)
    have hsnd : ((keyList constant e).map Prod.snd).Nodup := map_snd_keyList ▸ hd.strings
    have heq := List.inj_on_of_nodup_map hsnd (mem_of_unstringifyEnum hx) hentry rfl
    rw [hx, (Prod.mk.inj heq).1]

/-- An item in a member of its enum reaches C++ exactly when the member is no array, neither name
is a keyword, and the table of the module has the string of C++ under the constant of the module. -/
theorem asData_decodes_iff (h : OfEnum d i e) (hd : DistinctItems constant e)
    (hitem : e.mItems[k]? = some item) :
    Decodes constant d i e k ↔ i.mIsArray = false ∧ i.mMember ∉ keywords ∧ item.mMember ∉ keywords ∧
      ∃ n l, moduleConstants d item.mMember = some n ∧ moduleTables d (tableName i.mType) = some l ∧
        subscript l n = some (stringName item) := by
  cases ha : i.mIsArray with
  | true =>
      refine iff_of_false (fun hdecodes => ?_) (by simp)
      rw [Decodes, if_pos ha] at hdecodes
      have hk : k < e.mItems.length := (List.getElem?_eq_some_iff.mp hitem).1
      obtain ⟨ns, ss, _, _, hstores⟩ := hdecodes [k] (by simpa using hk) (List.mem_singleton_self k)
      rw [if_pos ha] at hstores
      exact not_stores_array h ha _ _ hstores
  | false =>
      rw [Decodes, if_neg (by simp [ha]), and_iff_right rfl]
      constructor
      · rintro ⟨ns, ss, hconstants, hdecoded, hstores⟩
        rw [if_neg (by simp [ha])] at hstores
        obtain ⟨n, s, rfl, rfl, hstores⟩ := hstores
        obtain ⟨hkeyword, l, hl, hentry⟩ := (stores_single h ha).mp hstores
        have hconstant : itemConstant d e k = some n := by
          cases hn : itemConstant d e k with
          | none => simp [hn] at hconstants
          | some m => simpa [hn] using hconstants
        rw [itemConstant_eq hitem] at hconstant
        split_ifs at hconstant with hname
        have hstring := (unstringifyEnum_item hd hitem).mp (List.cons.inj hdecoded).1
        exact ⟨hkeyword, hname, n, l, hconstant, hl, hstring ▸ hentry⟩
      · rintro ⟨hkeyword, hname, n, l, hn, hl, hentry⟩
        refine ⟨[n], [stringName item], ?_, ?_, ?_⟩
        · rw [List.mapM_cons, itemConstant_eq hitem, if_neg hname, hn]
          rfl
        · rw [List.map_singleton, List.map_singleton, (unstringifyEnum_item hd hitem).mpr rfl]
        · rw [if_neg (by simp [ha])]
          exact ⟨_, _, rfl, rfl, (stores_single h ha).mpr ⟨hkeyword, l, hl, hentry⟩⟩

theorem moduleGlobals_of_nodup (hnames : ((d.mObjects.flatMap bindings).map Prod.fst).Nodup)
    {name : Text} {g : Global} (h : (name, g) ∈ d.mObjects.flatMap bindings) :
    moduleGlobals d name = some g := by
  have hnames : ((d.mObjects.flatMap bindings).reverse.map Prod.fst).Nodup := by
    rwa [List.map_reverse, List.nodup_reverse]
  exact Entries.lookup_of_mem hnames (List.mem_reverse.mpr h)

theorem subscript_of_nodup (hnames : ((d.mObjects.flatMap bindings).map Prod.fst).Nodup)
    (he : e ∈ d.mObjects) (htype : stricmp e.mType "Enum".toList = true)
    (hitem : e.mItems[k]? = some item) (hk : k < 2 ^ 31) :
    ∃ n l, moduleConstants d item.mMember = some n ∧ moduleTables d (tableName e.mName) = some l ∧
      subscript l n = some item.mMember := by
  have hbound : ∀ g ∈ bindings e, moduleGlobals d g.1 = some g.2 := fun g hg =>
    moduleGlobals_of_nodup hnames (List.mem_flatMap.mpr ⟨e, he, hg⟩)
  have hconstant : (item.mMember, Global.constant k) ∈ bindings e := by
    have hprinted := getElem?_pythonConstants 0 k e.mItems
    rw [hitem, Option.map_some, Nat.zero_add, printed_of_lt hk] at hprinted
    rw [bindings, if_pos htype]
    exact List.mem_append_left _ (List.mem_map.mpr ⟨_, List.mem_of_getElem? hprinted, rfl⟩)
  have htable : (tableName e.mName, Global.table (pythonStrings e)) ∈ bindings e := by
    rw [bindings, if_pos htype]
    exact List.mem_append_right _ (List.mem_singleton_self _)
  refine ⟨k, pythonStrings e, by rw [moduleConstants, hbound _ hconstant],
    by rw [moduleTables, hbound _ htable], ?_⟩
  rw [subscript_natCast, pythonStrings, List.getElem?_map, hitem, Option.map_some]

end Items

section Examples

def toneItem (name string : String) : MemberVariable where
  mMember := name.toList
  mAlias := string.toList

def tone : Object where
  mName := "Tone".toList
  mType := "Enum".toList
  mIsEnum := true
  mItems := [toneItem "RED" "", toneItem "BLUE" "azure"]

def shade : Object where
  mName := "Shade".toList
  mType := "Enum".toList
  mIsEnum := true
  mItems := [toneItem "DARK" "", toneItem "RED" ""]

def toneMember (array : Bool) : MemberVariable where
  mMember := "tone".toList
  mType := "Tone".toList
  mIsArray := array

def picture : DOM where
  mObjects := [tone]
  mObjectMap := [("Tone".toList, 0)]

def counted : Constant := fun _ _ => 0

theorem tone_ofEnum (array : Bool) : OfEnum picture (toneMember array) tone where
  found := rfl
  enum := rfl
  noClass := rfl
  member := ⟨List.cons_ne_nil _ _, List.all_eq_true.mp rfl⟩
  name := ⟨List.cons_ne_nil _ _, List.all_eq_true.mp rfl⟩

theorem tone_distinct : DistinctItems counted tone := ⟨by decide, by decide⟩

theorem asData_decodes_red : Decodes counted picture (toneMember false) tone 0 ↔
    (toneMember false).mIsArray = false ∧ (toneMember false).mMember ∉ keywords ∧
      (toneItem "RED" "").mMember ∉ keywords ∧
      ∃ n l, moduleConstants picture (toneItem "RED" "").mMember = some n ∧
        moduleTables picture (tableName (toneMember false).mType) = some l ∧
        subscript l n = some (stringName (toneItem "RED" "")) :=
  asData_decodes_iff (tone_ofEnum false) tone_distinct rfl

/-- The item with an alias is stored under its name, which C++ does not know, and no array of
items is stored. -/
theorem asData_blue :
    (∀ array, OfEnum picture (toneMember array) tone) ∧ DistinctItems counted tone ∧
    itemConstant picture tone 1 = some 1 ∧ Stores picture (toneMember false) (.int 1) (.str "BLUE".toList) ∧
    unstringifyEnum counted tone "BLUE".toList = none ∧
    ∀ held stored, ¬ Stores picture (toneMember true) held stored :=
  ⟨tone_ofEnum, tone_distinct, by decide,
    (stores_single (tone_ofEnum false) rfl).mpr ⟨by decide, _, rfl, by decide⟩, by decide,
    fun held stored => not_stores_array (tone_ofEnum true) rfl held stored⟩

/-- A later enum binds the name again. -/
example : itemConstant { picture with mObjects := [tone, shade] } tone 0 = some 1 := by decide

end Examples

end SchemaCodeGen.PythonData
