import SchemaCodeGen.HeaderBrackets

namespace SchemaCodeGen.ImplementationBrackets

open CString Schema Emit Printer Header Implementation Brackets OutputBrackets HeaderBrackets

variable {i : MemberVariable} {o : Object} {d : DOM} {calls : List Call}

theorem nested_enumTables (h : PlainObject o) : Nested cpp (source (enumTables o)) := by
  have hitems : Nested cpp (source (o.mItems.map fun i => code 1 "\x7b %s::%s, \"%s\" \x7d,\n"
      [o.mName, i.mMember, if i.mAlias = [] then i.mMember else i.mAlias])) := by
    refine nested_map fun i hi => nested_code ?_ (by decide)
    have hi := h.items i hi
    have hvalue := (plain_ite (p := i.mAlias = []) hi.member hi.aka).nested
    simp only [nestedArgs_cons, nestedArgs_nil, and_self, h.name.nested, hi.member.nested, hvalue]
  rw [nested_iff, enumTables]
  cases hcons : o.mItems with
  | nil =>
      rw [hcons] at hitems
      simp only [source_append, scan_append, hitems.scan, scan_linefeed, scan_code, nestedArgs_cons,
        nestedArgs_nil, and_self, h.name.nested, scan_nil]
      repeat rw [String.toList_ofList]
      rfl
  | cons i items =>
      have hfirst := (h.items i (hcons ▸ List.mem_cons_self)).member.nested
      rw [hcons] at hitems
      simp only [source_append, scan_append, hitems.scan, scan_linefeed, scan_code, nestedArgs_cons,
        nestedArgs_nil, and_self, h.name.nested, hfirst, scan_nil]
      repeat rw [String.toList_ofList]
      rfl

theorem scan_saveTypeScript (h : PlainSchema d) :
    scan cpp [] (source (Implementation.saveTypeScript d)) = some ['\x7b'] := by
  have hobjects : Nested cpp (source (d.mObjects.flatMap fun o =>
      if stricmp o.mType "Enum".toList then enumTables o else [])) := by
    refine nested_flatMap fun o ho => ?_
    split_ifs
    · exact nested_enumTables (h.objects o ho)
    · exact .nil
  rw [Implementation.saveTypeScript]
  simp only [source_append, scan_append, hobjects.scan, scan_linefeed, scan_code,
    nestedArgs_cons, nestedArgs_nil, and_self, h.url, h.nspace, h.filename, scan_nil]
  repeat rw [String.toList_ofList]
  rfl

theorem nested_hasValue (h : PlainMember i) (optional : Bool) : Nested cpp (source (hasValue i optional)) := by
  cases optional with
  | true =>
      refine nested_code ?_ (by decide)
      simp only [nestedArgs_cons, nestedArgs_nil, and_self, h.member.nested]
  | false => exact .nil

theorem nested_serializeText (h : PlainMember i) (stmt : SerializeStmt) :
    Nested cpp (source (serializeText i stmt)) := by
  have hmember := h.member.nested
  have hvalue := fun optional => (nested_hasValue h optional).scan
  rw [nested_iff]
  cases stmt with
  | raw _ optional | string _ optional =>
      cases optional
      all_goals
        simp only [serializeText, scan_code, nestedArgs_cons, nestedArgs_nil, and_self, hmember, scan_nil]
        repeat rw [String.toList_ofList]
        rfl
  | rawMap _ =>
      simp only [serializeText, scan_code, nestedArgs_cons, nestedArgs_nil, and_self, hmember,
        h.type.nested, scan_nil]
      repeat rw [String.toList_ofList]
      rfl
  | rawArray _ _ | enumListMap _ _ | enumArray _ _ | objectArray _ _ =>
      simp only [serializeText, source_append, scan_append, scan_code, nestedArgs_cons, nestedArgs_nil,
        and_self, hmember, scan_nil]
      repeat rw [String.toList_ofList]
      rfl
  | stringArray _ optional | stringMap _ optional =>
      simp only [serializeText, source_append, scan_append, hvalue, scan_code, nestedArgs_cons,
        nestedArgs_nil, and_self, hmember, scan_nil]
      repeat rw [String.toList_ofList]
      rfl
  | enum _ _ optional asInteger =>
      cases optional <;> cases asInteger
      all_goals
        simp only [serializeText, if_true, if_false, Bool.false_eq_true, source_append, scan_append, scan_code,
          nestedArgs_cons, nestedArgs_nil, and_self, hmember, scan_nil]
        repeat rw [String.toList_ofList]
        rfl
  | object _ _ optional =>
      cases optional
      all_goals
        simp only [serializeText, if_true, if_false, Bool.false_eq_true, source_append, scan_append, hvalue,
          scan_code, nestedArgs_cons, nestedArgs_nil, and_self, hmember, scan_nil]
        repeat rw [String.toList_ofList]
        rfl

theorem nested_saveSerialize (h : PlainSchema d) (hcalls : Implementation.saveSerialize d = some calls) :
    Nested cpp (source calls) := by
  obtain ⟨objects, hobjects, rfl⟩ := Option.map_eq_some_iff.mp hcalls
  have hmembers : ∀ o ∈ d.mObjects, ∀ calls, saveSerializeObject d o = some calls →
      Nested cpp (source calls) := by
    intro o ho calls hcalls
    have ho := h.objects o ho
    rw [saveSerializeObject] at hcalls
    split_ifs at hcalls
    · obtain rfl := Option.some.inj hcalls
      exact .nil
    all_goals
      obtain ⟨members, hmembers, rfl⟩ := Option.map_eq_some_iff.mp hcalls
      have hnested : Nested cpp (source members) := by
        refine nested_collect (fun i hi calls hcalls => ?_) hmembers
        obtain ⟨stmt, _, rfl⟩ := Option.map_eq_some_iff.mp hcalls
        exact nested_serializeText (ho.items i (mem_ownItems hi)) stmt
      rw [nested_iff]
      simp only [source_append, scan_append, hnested.scan, scan_linefeed, scan_code, nestedArgs_cons,
        nestedArgs_nil, and_self, ho.name.nested, ho.inheritsFrom.nested, scan_nil]
      repeat rw [String.toList_ofList]
      rfl
  have hnested := nested_collect hmembers hobjects
  rw [nested_iff]
  simp only [source_append, scan_append, hnested.scan, scan_linefeed, scan_code, nestedArgs_nil, scan_nil]
  repeat rw [String.toList_ofList]
  rfl

theorem nested_missingMember (required : Bool) : Nested cpp (source (missingMember required)) := by
  cases required <;> exact nested_iff.mpr rfl

theorem scan_findMember (h : PlainMember i) (opened : List Char) :
    scan cpp opened (source (findMember i)) = some ('\x7b' :: opened) := by
  have hfound : scan cpp [] (source (findMember i)) = some ['\x7b'] := by
    rw [findMember]
    simp only [scan_code, nestedArgs_cons, nestedArgs_nil, and_self, h.member.nested, scan_nil]
    repeat rw [String.toList_ofList]
    rfl
  exact scan_frame hfound opened

theorem scan_mapLoop (h : PlainMember i) (opened : List Char) :
    scan cpp opened (source (mapLoop i)) = some ('\x7b' :: '\x7b' :: opened) := by
  have hloop : scan cpp [] (source (mapLoop i)) = some ['\x7b', '\x7b'] := by
    rw [mapLoop]
    simp only [scan_code, nestedArgs_cons, nestedArgs_nil, and_self, h.member.nested, scan_nil]
    repeat rw [String.toList_ofList]
    rfl
  exact scan_frame hloop opened

theorem plain_names (type : StandardType) : Plain cpp (checkName type) ∧ Plain cpp (getName type) ∧
    Plain cpp (accessor type) := by
  cases type <;> exact ⟨plain_word (by decide), plain_word (by decide), plain_word (by decide)⟩

theorem nested_checkedBlock (h : PlainMember i) (type : StandardType) {value : List Call}
    (hvalue : Nested cpp (source value)) : Nested cpp (source (checkedBlock i type value)) := by
  have hcheck := (plain_names type).1.nested
  rw [nested_iff, checkedBlock]
  split_ifs
  all_goals
    simp only [source_append, scan_append, hvalue.scan, scan_code, nestedArgs_cons, nestedArgs_nil, and_self,
      hcheck, h.member.nested, scan_nil]
    repeat rw [String.toList_ofList]
    rfl

theorem scan_behind {front : List Call} {opened : List Char}
    (h : scan cpp [] (source front) = some opened) (rest : List Call) :
    scan cpp [] (source (front ++ rest)) = scan cpp opened (source rest) := by
  rw [source_append, scan_append, h, Option.bind_some]

theorem nested_deserializeText (h : PlainMember i) (stmt : DeserializeStmt) :
    Nested cpp (source (deserializeText i stmt)) := by
  have hmember := h.member.nested
  have htype := h.type.nested
  have hcpp : Nested cpp (cppType i) := (plain_getCppTypeString h.type false).nested
  have hmissing := fun required => (nested_missingMember required).scan
  rw [nested_iff]
  cases stmt with
  | numericMap _ _ =>
      rw [deserializeText, List.append_assoc, scan_behind (scan_mapLoop h [])]
      simp only [source_append, scan_append, scan_code, nestedArgs_cons, nestedArgs_nil, and_self, hmember,
        scan_nil]
      repeat rw [String.toList_ofList]
      rfl
  | stringMap _ _ skipMembers =>
      rw [deserializeText, List.append_assoc, List.append_assoc, scan_behind (scan_mapLoop h [])]
      cases skipMembers
      all_goals
        simp only [if_true, if_false, Bool.false_eq_true, source_append, scan_append, scan_code,
          nestedArgs_cons, nestedArgs_nil, and_self, hmember, scan_nil]
        repeat rw [String.toList_ofList]
        rfl
  | integer _ type _ | integerArray _ type _ =>
      have haccess := (plain_names type).2.2.nested
      rw [deserializeText, List.append_assoc, List.append_assoc, scan_behind (scan_findMember h [])]
      simp only [source_append, scan_append, hmissing, scan_code, nestedArgs_cons, nestedArgs_nil, and_self,
        hmember, hcpp, haccess, scan_nil]
      repeat rw [String.toList_ofList]
      rfl
  | checked _ type _ =>
      have hvalue : Nested cpp (source [code 4 "r.%s = v.%s();\n" [i.mMember, accessor type]]) := by
        refine nested_code ?_ (by decide)
        simp only [nestedArgs_cons, nestedArgs_nil, and_self, hmember, (plain_names type).2.2.nested]
      rw [deserializeText, List.append_assoc, List.append_assoc, scan_behind (scan_findMember h [])]
      simp only [source_append, scan_append, hmissing, (nested_checkedBlock h type hvalue).scan,
        Option.bind_some, scan_code, nestedArgs_nil, scan_nil]
      repeat rw [String.toList_ofList]
      rfl
  | checkedArray _ type _ =>
      obtain ⟨hcheck, hget, _⟩ := plain_names type
      rw [deserializeText, List.append_assoc, List.append_assoc, scan_behind (scan_findMember h []), source_append,
        scan_append, (nested_checkedBlock h type ?_).scan]
      · simp only [source_append, scan_append, hmissing, Option.bind_some, scan_code, nestedArgs_nil, scan_nil]
        repeat rw [String.toList_ofList]
        rfl
      · rw [nested_iff]
        simp only [scan_code, nestedArgs_cons, nestedArgs_nil, and_self, hmember, hcheck.nested, hget.nested,
          scan_nil]
        repeat rw [String.toList_ofList]
        rfl
  | enumListMap _ _ | enumArray _ _ _ | objectArray _ _ _ | object _ _ _ =>
      simp only [deserializeText, source_append, scan_append, hmissing, scan_code, nestedArgs_cons,
        nestedArgs_nil, and_self, hmember, htype, scan_nil]
      repeat rw [String.toList_ofList]
      rfl
  | enum _ _ asInteger =>
      cases asInteger
      all_goals
        simp only [deserializeText, if_true, if_false, Bool.false_eq_true, source_append, scan_append,
          scan_code, nestedArgs_cons, nestedArgs_nil, and_self, hmember, htype, scan_nil]
        repeat rw [String.toList_ofList]
        rfl
  | todo => rfl

theorem nested_deserializeMember (h : PlainMember i) (hcalls : deserializeMember d o i = some calls) :
    Nested cpp (source calls) := by
  obtain ⟨stmt, _, rfl⟩ := Option.map_eq_some_iff.mp hcalls
  rw [nested_iff]
  simp only [source_append, scan_append, (nested_deserializeText h stmt).scan, scan_code, nestedArgs_cons,
    nestedArgs_nil, and_self, h.member.nested, h.type.nested, scan_nil]
  repeat rw [String.toList_ofList]
  rfl

theorem nested_saveDeserializeObject (h : PlainObject o) (hcalls : saveDeserializeObject d o = some calls) :
    Nested cpp (source calls) := by
  rw [saveDeserializeObject] at hcalls
  split_ifs at hcalls
  · obtain rfl := Option.some.inj hcalls
    exact .nil
  all_goals
    obtain ⟨members, hmembers, rfl⟩ := Option.map_eq_some_iff.mp hcalls
    have hnested := nested_collect (fun i hi calls hcalls =>
      nested_deserializeMember (h.items i (mem_ownItems hi)) hcalls) hmembers
    rw [nested_iff]
    simp only [source_append, scan_append, hnested.scan, scan_linefeed, scan_code, nestedArgs_cons,
      nestedArgs_nil, and_self, h.name.nested, h.inheritsFrom.nested, scan_nil]
    repeat rw [String.toList_ofList]
    rfl

theorem nested_saveDeserialize (h : PlainSchema d) (hcalls : Implementation.saveDeserialize d = some calls) :
    Nested cpp (source calls) := by
  obtain ⟨objects, hobjects, rfl⟩ := Option.map_eq_some_iff.mp hcalls
  have hnested := nested_collect (fun o ho calls hcalls =>
    nested_saveDeserializeObject (h.objects o ho) hcalls) hobjects
  rw [nested_iff]
  simp only [source_append, scan_append, hnested.scan, scan_linefeed, scan_code, nestedArgs_nil, scan_nil]
  repeat rw [String.toList_ofList]
  rfl

theorem nested_implementation (h : PlainSchema d) (hcalls : implementation d = some calls) :
    Nested cpp (source calls) := by
  obtain ⟨serializers, hserializers, hcalls⟩ := Option.bind_eq_some_iff.mp hcalls
  obtain ⟨deserializers, hdeserializers, rfl⟩ := Option.map_eq_some_iff.mp hcalls
  rw [nested_iff]
  simp only [source_append, scan_append, scan_saveTypeScript h, Option.bind_some,
    (nested_saveSerialize h hserializers).scan, (nested_saveDeserialize h hdeserializers).scan, scan_code,
    nestedArgs_cons, nestedArgs_nil, and_self, h.nspace, scan_nil]
  repeat rw [String.toList_ofList]
  rfl

/-- The two files of a schema whose brackets are in order have theirs in order. -/
theorem saveCPP_nested {t t' : Text} (h : PlainSchema d) (hheader : ∀ calls ∈ header d, Fits calls)
    (himplementation : ∀ calls ∈ implementation d, Fits calls)
    (hsave : Implementation.saveCPP d = some (t, t')) : Nested cpp t ∧ Nested cpp t' := by
  rw [Implementation.saveCPP] at hsave
  split_ifs at hsave
  obtain ⟨calls, hcalls, hsave⟩ := Option.bind_eq_some_iff.mp hsave
  obtain ⟨calls', hcalls', htexts⟩ := Option.map_eq_some_iff.mp hsave
  obtain ⟨rfl, rfl⟩ := Prod.mk.inj htexts
  exact ⟨nested_printAll (hheader calls hcalls) (nested_header h hcalls),
    nested_printAll (himplementation calls' hcalls') (nested_implementation h hcalls')⟩

section Lamps

def redItem : MemberVariable where
  mMember := "red".toList
  mDefaultValue := "(1 << 4)".toList
  mShortDescription := "Red [warm]".toList

def color : Object where
  mName := "Color".toList
  mType := "Enum".toList
  mIsEnum := true
  mShortDescription := "Colors (of a lamp)".toList
  mItems := [redItem]

def levelItem : MemberVariable where
  mMember := "level".toList
  mType := "u32".toList
  mShortDescription := "Level [percent]".toList

def lamp : Object where
  mName := "Lamp".toList
  mType := "Class".toList
  mShortDescription := "A lamp (small)".toList
  mItems := [levelItem]

def lamps : DOM where
  mNamespace := "app".toList
  mFilename := "Lamps".toList
  mObjects := [color, lamp]

theorem plainSchema_lamps : PlainSchema lamps := by
  have hred : PlainMember redItem :=
    ⟨plain_word (by decide), plain_word rfl, plain_word rfl, plain_word rfl, plain_word rfl,
      nested_iff.mpr (by rfl), nested_iff.mpr rfl, nested_iff.mpr (by rfl)⟩
  have hlevel : PlainMember levelItem :=
    ⟨plain_word (by decide), plain_word (by decide), plain_word rfl, plain_word rfl, plain_word rfl,
      nested_iff.mpr rfl, nested_iff.mpr rfl, nested_iff.mpr (by rfl)⟩
  have hcolor : PlainObject color :=
    ⟨plain_word (by decide), plain_word rfl, plain_word rfl, nested_iff.mpr (by rfl), nested_iff.mpr rfl,
      List.forall_mem_singleton.mpr hred⟩
  have hlamp : PlainObject lamp :=
    ⟨plain_word (by decide), plain_word rfl, plain_word rfl, nested_iff.mpr (by rfl), nested_iff.mpr rfl,
      List.forall_mem_singleton.mpr hlevel⟩
  exact ⟨nested_iff.mpr rfl, nested_iff.mpr (by rfl), nested_iff.mpr (by rfl),
    List.forall_mem_cons.mpr ⟨hcolor, List.forall_mem_singleton.mpr hlamp⟩⟩

theorem fits_color : Fits (saveEnum color) := by
  rw [saveEnum, fits_append, fits_append]
  refine ⟨⟨?_, ?_⟩, ?_⟩
  · refine fits_code (Nat.le_of_ble_eq_true rfl) (fits_remark (by decide) (fits_remark (by decide) ?_))
    repeat refine fits_code (Nat.le_of_ble_eq_true rfl) ?_
    exact fits_nil
  · exact fits_code (Nat.le_of_ble_eq_true rfl) (fits_note (by decide) fits_nil)
  · repeat refine fits_code (Nat.le_of_ble_eq_true rfl) ?_
    exact fits_nil

theorem fits_lamp : ∀ calls ∈ saveCPPObject lamps lamp, Fits calls := by
  intro calls hcalls
  have hclass : saveCPPObject lamps lamp = (classBody lamps lamp).map fun body =>
      classDefinition lamp ++ body ++ [code 0 "\x7d;\n", code 0 "\n"] := rfl
  rw [hclass] at hcalls
  obtain ⟨body, hbody, rfl⟩ := Option.map_eq_some_iff.mp hcalls
  obtain ⟨members, hmembers, rfl⟩ := Option.map_eq_some_iff.mp hbody
  obtain rfl := Option.some.inj hmembers
  rw [fits_append, fits_append, fits_append, fits_append, fits_append, fits_append]
  refine ⟨⟨?_, ⟨⟨⟨?_, ?_⟩, fits_nil⟩, fits_nil⟩, ?_⟩, ?_⟩
  · rw [classDefinition, fits_append, fits_append]
    refine ⟨⟨?_, fits_nil⟩, ?_⟩
    · refine fits_code (Nat.le_of_ble_eq_true rfl) (fits_remark (by decide) (fits_remark (by decide) ?_))
      exact fits_code (Nat.le_of_ble_eq_true rfl) fits_nil
    · repeat refine fits_code (Nat.le_of_ble_eq_true rfl) ?_
      exact fits_nil
  · rw [isMemberMethod, fits_append, fits_append]
    refine ⟨⟨?_, ?_⟩, ?_⟩
    all_goals
      repeat refine fits_code (Nat.le_of_ble_eq_true rfl) ?_
      exact fits_nil
  · rw [equalityOperators, fits_append, fits_append]
    refine ⟨⟨?_, ?_⟩, ?_⟩
    all_goals
      repeat refine fits_code (Nat.le_of_ble_eq_true rfl) ?_
      exact fits_nil
  · rw [fits_append, fits_append]
    refine ⟨⟨?_, fits_nil⟩, fits_nil⟩
    repeat refine fits_code (Nat.le_of_ble_eq_true rfl) ?_
    exact fits_note (by decide) fits_nil
  · repeat refine fits_code (Nat.le_of_ble_eq_true rfl) ?_
    exact fits_nil

theorem fits_header_lamps : ∀ calls ∈ header lamps, Fits calls := by
  intro calls hcalls
  obtain ⟨classes, hclasses, rfl⟩ := Option.map_eq_some_iff.mp hcalls
  obtain ⟨objects, hobjects, rfl⟩ := Option.map_eq_some_iff.mp hclasses
  have hfits : Fits objects := by
    refine fits_collect (List.forall_mem_cons.mpr ⟨fun calls hcalls => ?_,
      List.forall_mem_singleton.mpr fits_lamp⟩) hobjects
    obtain rfl : saveEnum color = calls := Option.some.inj hcalls
    exact fits_color
  rw [fits_append, fits_append, fits_append, fits_append, fits_append]
  refine ⟨⟨⟨⟨⟨?_, hfits⟩, ?_⟩, ?_⟩, ?_⟩, ?_⟩
  all_goals
    repeat refine fits_code (Nat.le_of_ble_eq_true rfl) ?_
    exact fits_nil

theorem fits_saveSerialize_lamps : ∀ calls ∈ Implementation.saveSerialize lamps, Fits calls := by
  intro calls hcalls
  obtain ⟨objects, hobjects, rfl⟩ := Option.map_eq_some_iff.mp hcalls
  have hfits : Fits objects := by
    refine fits_collect (List.forall_mem_cons.mpr ⟨fun calls hcalls => ?_,
      List.forall_mem_singleton.mpr fun calls hcalls => ?_⟩) hobjects
    · obtain rfl : [] = calls := Option.some.inj hcalls
      exact fits_nil
    · rw [saveSerializeObject, if_neg (by decide)] at hcalls
      obtain ⟨members, hmembers, rfl⟩ := Option.map_eq_some_iff.mp hcalls
      obtain rfl := Option.some.inj hmembers
      rw [fits_append, fits_append, fits_append, fits_append]
      refine ⟨⟨⟨?_, fits_nil⟩, ?_, fits_nil⟩, ?_⟩
      all_goals
        repeat refine fits_code (Nat.le_of_ble_eq_true rfl) ?_
        exact fits_nil
  rw [fits_append]
  refine ⟨?_, hfits⟩
  repeat refine fits_code (Nat.le_of_ble_eq_true rfl) ?_
  exact fits_nil

theorem fits_saveDeserialize_lamps : ∀ calls ∈ Implementation.saveDeserialize lamps, Fits calls := by
  intro calls hcalls
  obtain ⟨objects, hobjects, rfl⟩ := Option.map_eq_some_iff.mp hcalls
  have hfits : Fits objects := by
    refine fits_collect (List.forall_mem_cons.mpr ⟨fun calls hcalls => ?_,
      List.forall_mem_singleton.mpr fun calls hcalls => ?_⟩) hobjects
    · obtain rfl : [] = calls := Option.some.inj hcalls
      exact fits_nil
    · rw [saveDeserializeObject, if_neg (by decide)] at hcalls
      obtain ⟨members, hmembers, rfl⟩ := Option.map_eq_some_iff.mp hcalls
      obtain rfl := Option.some.inj hmembers
      rw [fits_append, fits_append, fits_append, fits_append, fits_append, fits_append, deserializeText,
        fits_append, fits_append, fits_append]
      refine ⟨⟨⟨?_, fits_nil⟩, ⟨⟨?_, ⟨⟨?_, ?_⟩, ?_⟩, ?_⟩, ?_⟩, fits_nil⟩, ?_⟩
      all_goals
        repeat refine fits_code (Nat.le_of_ble_eq_true rfl) ?_
        exact fits_nil
  rw [fits_append]
  refine ⟨?_, hfits⟩
  repeat refine fits_code (Nat.le_of_ble_eq_true rfl) ?_
  exact fits_nil

theorem fits_saveTypeScript_lamps : Fits (Implementation.saveTypeScript lamps) := by
  change Fits (_ ++ (enumTables color ++ []))
  rw [List.append_nil, fits_append, enumTables, fits_append, fits_append, fits_append, fits_append]
  refine ⟨?_, ⟨⟨⟨⟨?_, ?_⟩, ?_⟩, ?_⟩, ?_⟩⟩
  all_goals
    repeat refine fits_code (Nat.le_of_ble_eq_true rfl) ?_
    exact fits_nil

theorem fits_implementation_lamps : ∀ calls ∈ implementation lamps, Fits calls := by
  intro calls hcalls
  obtain ⟨serializers, hserializers, hcalls⟩ := Option.bind_eq_some_iff.mp hcalls
  obtain ⟨deserializers, hdeserializers, rfl⟩ := Option.map_eq_some_iff.mp hcalls
  rw [fits_append, fits_append, fits_append]
  exact ⟨⟨⟨fits_saveTypeScript_lamps, fits_saveSerialize_lamps _ hserializers⟩,
    fits_saveDeserialize_lamps _ hdeserializers⟩, fits_code (Nat.le_of_ble_eq_true rfl) fits_nil⟩

/-- The names have no brackets, the default and the descriptions have. -/
theorem saveCPP_nested_lamps : ∃ t t', Implementation.saveCPP lamps = some (t, t') ∧
    Nested cpp t ∧ Nested cpp t' := by
  have hsome : (Implementation.saveCPP lamps).isSome = true := rfl
  obtain ⟨⟨t, t'⟩, hsave⟩ := Option.isSome_iff_exists.mp hsome
  exact ⟨t, t', hsave, saveCPP_nested plainSchema_lamps fits_header_lamps fits_implementation_lamps hsave⟩

end Lamps

end SchemaCodeGen.ImplementationBrackets
