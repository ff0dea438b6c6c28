import SchemaCodeGen.Implementation
import SchemaCodeGen.ParseCSV
import Mathlib.Tactic.Simps.Basic

namespace SchemaCodeGen.Erasure

open CString CsvReader Schema Emit ParseCSV Printer Header Implementation

@[simps] def eraseMember (i : MemberVariable) : MemberVariable :=
  { i with mShortDescription := [], mLongDescription := [] }

@[simps] def eraseObject (o : Object) : Object :=
  { o with mShortDescription := [], mLongDescription := [], mItems := o.mItems.map eraseMember }

@[simps] def eraseDOM (d : DOM) : DOM := { d with mObjects := d.mObjects.map eraseObject }

def eraseState (st : CreateDOMDef) : CreateDOMDef :=
  { st with mCurrentObject := eraseObject st.mCurrentObject, mDOM := eraseDOM st.mDOM }

def eraseRow (row : Row) : Row := row.take 9

section Parsing

theorem arg_eraseRow (row : Row) {k : Nat} (h : k < 9) : arg (eraseRow row) k = arg row k := by
  simp [arg, eraseRow, List.getD_eq_getElem?_getD, h]

theorem arg_eraseRow_of_le (row : Row) {k : Nat} (h : 9 ≤ k) : arg (eraseRow row) k = [] := by
  have hk : ¬ k < 9 := by omega
  simp [arg, eraseRow, List.getD_eq_getElem?_getD, hk]

theorem le_length_eraseRow (row : Row) {k : Nat} (h : k ≤ 9) :
    k ≤ (eraseRow row).length ↔ k ≤ row.length := by
  rw [eraseRow, List.length_take]
  omega

theorem rowKind_eraseRow (row : Row) : rowKind (eraseRow row) = rowKind row := by
  simp only [rowKind, arg_eraseRow row (by omega : 0 < 9), arg_eraseRow row (by omega : 1 < 9),
    le_length_eraseRow row (by omega : 2 ≤ 9)]

theorem init_erase (i : MemberVariable) : eraseMember i.init = (eraseMember i).init := by
  by_cases h : i.mDefaultValue = [] <;> simp [MemberVariable.init, eraseMember, h]

theorem memberOf_eraseRow (row : Row) :
    memberOf (eraseRow row) = (memberOf row).map eraseMember := by
  have hargs : ∀ k < 9, arg (eraseRow row) k = arg row k := fun k h => arg_eraseRow row h
  have hfields (di : MemberVariable) :
      memberFields (eraseRow row) di = eraseMember (memberFields row di) := by
    rw [memberFields, memberFields, init_erase, hargs 3 (by omega), hargs 4 (by omega),
      hargs 5 (by omega), hargs 6 (by omega), hargs 7 (by omega), hargs 8 (by omega),
      arg_eraseRow_of_le row (by omega : 9 ≤ 9), arg_eraseRow_of_le row (by omega : 9 ≤ 10)]
    rfl
  have htype (di : MemberVariable) : memberType (eraseRow row) di = memberType row di := by
    simp only [memberType, hargs 2 (by omega), le_length_eraseRow row (by omega : 3 ≤ 9)]
  have hf : memberFields (eraseRow row) = fun di => eraseMember (memberFields row di) :=
    funext hfields
  rw [memberOf, memberOf, hargs 1 (by omega), funext htype, hf, Option.map_map]
  rfl

theorem objectFields_eraseRow (row : Row) (cur : Object) :
    objectFields (eraseRow row) (eraseObject cur) = eraseObject (objectFields row cur) := by
  have hargs : ∀ k < 9, arg (eraseRow row) k = arg row k := fun k h => arg_eraseRow row h
  have hlen : ∀ k ≤ 9, k ≤ (eraseRow row).length ↔ k ≤ row.length :=
    fun k h => le_length_eraseRow row h
  have hshort : (eraseRow row).length ≤ 9 := List.length_take_le ..
  have h10 : ¬ 10 ≤ (eraseRow row).length := by omega
  have h11 : ¬ 11 ≤ (eraseRow row).length := by omega
  simp only [objectFields, eraseObject, hargs 0 (by omega), hargs 2 (by omega),
    hargs 3 (by omega), hargs 4 (by omega), hargs 5 (by omega), hargs 8 (by omega),
    hlen 3 (by omega), hlen 4 (by omega), hlen 5 (by omega), hlen 6 (by omega),
    hlen 9 (by omega), h10, h11, if_false]

theorem pushObject_erase (st : CreateDOMDef) :
    pushObject (eraseState st) = eraseState (pushObject st) := by
  by_cases h : st.mHaveObject = true
  · simp [pushObject, eraseState, eraseDOM, eraseObject, h]
  · simp [pushObject, eraseState, h]

theorem registerChild_erase (inheritsFrom name : Text) (j : Object) :
    registerChild inheritsFrom name (eraseObject j) =
      eraseObject (registerChild inheritsFrom name j) := by
  by_cases h : j.mName = inheritsFrom <;> simp [registerChild, eraseObject, h]

theorem openObject_erase (st : CreateDOMDef) (row : Row) :
    openObject (eraseState st) (eraseRow row) = eraseState (openObject st row) := by
  have hmap (objects : List Object) :
      (objects.map eraseObject).map (registerChild (arg row 3) (arg row 0)) =
        (objects.map (registerChild (arg row 3) (arg row 0))).map eraseObject := by
    simp only [List.map_map]
    exact List.map_congr_left fun j _ => registerChild_erase (arg row 3) (arg row 0) j
  have hfields := objectFields_eraseRow row (pushObject st).mCurrentObject
  simp only [openObject, pushObject_erase, arg_eraseRow row (by omega : 3 < 9),
    arg_eraseRow row (by omega : 0 < 9), le_length_eraseRow row (by omega : 4 ≤ 9)]
  simp only [eraseState, eraseDOM, hfields, hmap]
  split_ifs <;> rfl

theorem addMember_erase (st : CreateDOMDef) (di : MemberVariable) :
    addMember (eraseState st) (eraseMember di) = eraseState (addMember st di) := by
  simp [addMember, eraseState, eraseObject]

theorem setting_erase (st : CreateDOMDef) (row : Row) (set set' : Text → DOM)
    (h : ∀ v, set' v = eraseDOM (set v)) :
    setting (eraseRow row) (eraseDOM st.mDOM) set' = eraseDOM (setting row st.mDOM set) := by
  simp only [setting, le_length_eraseRow row (by omega : 2 ≤ 9),
    arg_eraseRow row (by omega : 1 < 9)]
  split_ifs
  · exact h _
  · rfl

theorem processArgs_erase (st : CreateDOMDef) (row : Row) :
    processArgs (eraseState st) (eraseRow row) = (processArgs st row).map eraseState := by
  have hset (set : DOM → Text → DOM) (h : ∀ v, set (eraseDOM st.mDOM) v = eraseDOM (set st.mDOM v)) :
      { eraseState st with
          mDOM := setting (eraseRow row) (eraseState st).mDOM (set (eraseDOM st.mDOM)) } =
        eraseState { st with mDOM := setting row st.mDOM (set st.mDOM) } := by
    simp only [eraseState, setting_erase st row (set st.mDOM) (set (eraseDOM st.mDOM)) h]
  rw [processArgs, processArgs, rowKind_eraseRow]
  by_cases heof : st.mEndOfFile = true
  · simp [eraseState, heof]
  · have heof' : ¬ (eraseState st).mEndOfFile = true := heof
    rw [if_neg heof, if_neg heof']
    cases rowKind row with
    | endOfFile | header | blank => rfl
    | filename => exact congrArg some (hset (fun d v => { d with mFilename := v }) fun _ => rfl)
    | nameSpace => exact congrArg some (hset (fun d v => { d with mNamespace := v }) fun _ => rfl)
    | pod =>
        exact congrArg some (hset (fun d v => { d with mPlainOldData := getBool v }) fun _ => rfl)
    | exportXML => exact congrArg some (hset (fun d v => { d with mExportXML := v }) fun _ => rfl)
    | url => exact congrArg some (hset (fun d v => { d with mURL := v }) fun _ => rfl)
    | object => exact congrArg some (openObject_erase st row)
    | member =>
        simp only [memberOf_eraseRow, Option.map_map]
        congr 1
        funext di
        exact addMember_erase st di

theorem foldlM_processArgs_erase (st : CreateDOMDef) (rows : List Row) :
    (rows.map eraseRow).foldlM processArgs (eraseState st) =
      (rows.foldlM processArgs st).map eraseState := by
  induction rows generalizing st with
  | nil => rfl
  | cons row rows ih =>
      rw [List.map_cons, List.foldlM_cons, List.foldlM_cons, processArgs_erase]
      cases processArgs st row with
      | none => rfl
      | some next => exact ih next

theorem computeNeedsReflection_erase (o : Object) :
    (eraseObject o).computeNeedsReflection = eraseObject o.computeNeedsReflection := by
  simp only [Object.computeNeedsReflection, eraseObject, List.any_map]
  rfl

theorem computeReflectionMembers_erase (names : List Text) (o : Object) :
    (eraseObject o).computeReflectionMembers names =
      eraseObject (o.computeReflectionMembers names) := by
  simp only [Object.computeReflectionMembers, eraseObject, List.map_map]
  rfl

theorem computeMultipleInheritance_erase (objects : List Object) (o : Object) :
    (eraseObject o).computeMultipleInheritance (objects.map eraseObject) =
      eraseObject (o.computeMultipleInheritance objects) := by
  simp only [Object.computeMultipleInheritance, List.foldl_map]
  split_ifs with h h' h'
  · rfl
  · exact absurd h h'
  · exact absurd h' h
  · rfl

theorem computeKind_erase (o : Object) :
    (eraseObject o).computeKind = eraseObject o.computeKind := rfl

theorem map_erase {f g : Object → Object} (h : ∀ o, f (eraseObject o) = eraseObject (g o))
    (objects : List Object) :
    (objects.map eraseObject).map f = (objects.map g).map eraseObject := by
  rw [List.map_map, List.map_map]
  exact List.map_congr_left fun o _ => h o

theorem importComplete_erase (d : DOM) :
    (eraseDOM d).importComplete = eraseDOM d.importComplete := by
  have hmarked := map_erase computeNeedsReflection_erase d.mObjects
  have hneeds (objects : List Object) :
      ((objects.map eraseObject).filter Object.mNeedsReflection).map Object.mName =
        (objects.filter Object.mNeedsReflection).map Object.mName := by
    rw [List.filter_map, List.map_map]
    rfl
  have hmultiple (objects : List Object) :=
    map_erase (fun o => computeMultipleInheritance_erase objects o) objects
  have htable (objects : List Object) (m : List (Text × Nat)) :
      ((objects.map eraseObject).zipIdx).foldl (fun m e => assignKey m e.1.mName e.2) m =
        objects.zipIdx.foldl (fun m e => assignKey m e.1.mName e.2) m := by
    rw [List.zipIdx_map, List.foldl_map]
    rfl
  simp only [DOM.importComplete, eraseDOM]
  rw [hmarked, hneeds, map_erase (computeReflectionMembers_erase _), hmultiple,
    map_erase computeKind_erase, htable]

theorem closeFile_erase (st : CreateDOMDef) :
    closeFile (eraseState st) = eraseState (closeFile st) := by
  simp only [closeFile, pushObject_erase]
  simp only [eraseState, importComplete_erase]

end Parsing

def eraseCall : Call → Call
  | .code indent text => .code indent text
  | .remark _ => .remark []
  | .note indent _ => .note indent []

section Generating

@[simp] theorem eraseCall_code (indent : Nat) (format : String) (args : List Text) :
    eraseCall (code indent format args) = code indent format args := rfl

@[simp] theorem eraseCall_linefeed : eraseCall linefeed = linefeed := rfl

@[simp] theorem eraseCall_remark (d : Text) : eraseCall (.remark d) = .remark [] := rfl

@[simp] theorem eraseCall_note (indent : Nat) (d : Text) :
    eraseCall (.note indent d) = .note indent [] := rfl

@[simp] theorem eraseCall_ite (p : Prop) [Decidable p] (c c' : Call) :
    eraseCall (if p then c else c') = if p then eraseCall c else eraseCall c' := apply_ite ..

theorem map_eraseCall_ite (p : Prop) [Decidable p] (l l' : List Call) :
    (if p then l else l').map eraseCall = if p then l.map eraseCall else l'.map eraseCall :=
  apply_ite ..

theorem collect_map {α β : Type} {f : β → Option (List Call)} {g : α → Option (List Call)}
    {e : α → β} (h : ∀ a, f (e a) = (g a).map (List.map eraseCall)) (as : List α) :
    collect f (as.map e) = (collect g as).map (List.map eraseCall) := by
  induction as with
  | nil => rfl
  | cons a as ih =>
      simp only [List.map_cons, collect, h, ih]
      cases g a with
      | none => rfl
      | some calls => cases collect g as <;> simp

theorem ownItems_erase (o : Object) : ownItems (eraseObject o) = (ownItems o).map eraseMember := by
  simp only [ownItems, eraseObject, List.filter_map]
  rfl

theorem memberNames_erase (o : Object) : memberNames (eraseObject o) = memberNames o := by
  simp only [memberNames, eraseObject, List.filter_map, List.map_map]
  rfl

theorem nonMapItems_erase (o : Object) : nonMapItems (eraseObject o) = nonMapItems o := by
  simp only [nonMapItems, ownItems_erase, List.filter_map, List.map_map]
  rfl

theorem restatedItems_erase (o : Object) :
    restatedItems (eraseObject o) = (restatedItems o).map eraseMember := by
  simp only [restatedItems, eraseObject, List.filter_map]
  rfl

theorem findObject_erase (d : DOM) (name : Text) :
    (eraseDOM d).findObject name = (d.findObject name).map eraseObject := by
  simp only [DOM.findObject, eraseDOM]
  cases d.mObjectMap.lookup name with
  | none => rfl
  | some k => simp

theorem getCppValueInitializer_erase (i : MemberVariable) (d : DOM) :
    getCppValueInitializer (eraseMember i) (eraseDOM d) = getCppValueInitializer i d := by
  simp only [getCppValueInitializer, findObject_erase, eraseMember]
  cases d.findObject i.mType <;> rfl

theorem getCppRValue_erase (i : MemberVariable) (d : DOM) :
    getCppRValue (eraseMember i) (eraseDOM d) = getCppRValue i d := by
  simp only [getCppRValue, getCppValueInitializer_erase]
  simp only [findObject_erase, eraseMember]
  cases d.findObject i.mType <;> rfl

theorem enumItem_erase (i : MemberVariable) :
    enumItem (eraseMember i) = (enumItem i).map eraseCall := by
  by_cases h : i.mDefaultValue = [] <;> simp [enumItem, h]

theorem saveEnum_erase (o : Object) : saveEnum (eraseObject o) = (saveEnum o).map eraseCall := by
  simp [saveEnum, List.flatMap_map, List.map_flatMap, enumItem_erase]

theorem classDefinition_erase (o : Object) :
    classDefinition (eraseObject o) = (classDefinition o).map eraseCall := by
  by_cases h : o.mInheritsFrom = [] <;> simp [classDefinition, h]

theorem nameTests_eraseCall (names : List Text) :
    (nameTests names).map eraseCall = nameTests names := by
  fun_induction nameTests names with
  | case1 | case2 => rfl
  | case3 name names _ ih => rw [List.map_cons, ih, eraseCall_code]

theorem isMemberTest_eraseCall (names : List Text) :
    (isMemberTest names).map eraseCall = isMemberTest names := by
  fun_cases isMemberTest names with
  | case1 | case2 => rfl
  | case3 => simp [nameTests_eraseCall, retTrue]

theorem isMemberMethod_erase (o : Object) :
    isMemberMethod (eraseObject o) = (isMemberMethod o).map eraseCall := by
  by_cases h : o.mInheritsFrom = [] <;>
    simp [isMemberMethod, memberNames_erase, isMemberTest_eraseCall, h]

theorem memberName_erase (i : MemberVariable) :
    Emit.memberName (eraseMember i) = Emit.memberName i := rfl

theorem getMemberName_erase (i : MemberVariable) :
    getMemberName (eraseMember i) = getMemberName i := rfl

theorem equalityOperators_erase (o : Object) :
    equalityOperators (eraseObject o) = (equalityOperators o).map eraseCall := by
  by_cases h : o.mInheritsFrom = [] <;>
    simp [equalityOperators, ownItems_erase, memberName_erase, h]

theorem parameters_erase (items : List MemberVariable) :
    parameters (items.map eraseMember) = (parameters items).map eraseCall := by
  have hparameter (i : MemberVariable) : eraseCall (parameter i) = parameter i := rfl
  have hmember (i : MemberVariable) : parameter (eraseMember i) = parameter i := rfl
  cases items with
  | nil => rfl
  | cons i items =>
      simp [parameters, hparameter, hmember, List.flatMap_map, List.map_flatMap]

theorem assignmentConstructors_erase (o : Object) :
    assignmentConstructors (eraseObject o) = (assignmentConstructors o).map eraseCall := by
  by_cases h : o.mAssignment = true
  · simp [assignmentConstructors, parameters_erase, getMemberName_erase, h]
  · simp [assignmentConstructors, h]

theorem defaultConstructor_erase (d : DOM) (o : Object) :
    defaultConstructor (eraseDOM d) (eraseObject o) = (defaultConstructor d o).map eraseCall := by
  by_cases hr : restatedItems o = []
  · simp [defaultConstructor, restatedItems_erase, hr]
  by_cases ha : o.mAssignment = true
  · simp [defaultConstructor, ha]
  · simp [defaultConstructor, restatedItems_erase, getCppRValue_erase, getMemberName_erase, hr, ha]

theorem declaredType_erase (i : MemberVariable) :
    declaredType (eraseMember i) = (declaredType i).map eraseCall := by
  have hvector : vectorName (eraseMember i) = vectorName i := rfl
  by_cases harray : i.mIsArray = true
  · by_cases hstring : i.mIsString = true <;> by_cases hmap : i.mIsMap = true <;>
      simp [declaredType, hvector, harray, hstring, hmap]
  by_cases hmap : i.mIsMap = true
  · simp [declaredType, harray, hmap]
  by_cases hopt : i.mIsOptional = .optional <;> simp [declaredType, harray, hmap, hopt]

theorem arrayOperator_erase (i : MemberVariable) :
    arrayOperator (eraseMember i) = (arrayOperator i).map eraseCall := by
  have htype : mapType (eraseMember i) = mapType i := rfl
  by_cases h : i.mIsArray = true ∧ ¬ i.mIsString = true ∧ i.mIsMap = true
  · by_cases hs : getStandardType i.mType = .none <;> simp [arrayOperator, htype, h, hs]
  · simp only [arrayOperator, eraseMember, h, if_false]
    rfl

theorem memberDeclaration_erase (d : DOM) (i : MemberVariable) :
    memberDeclaration (eraseDOM d) (eraseMember i) =
      (memberDeclaration d i).map (List.map eraseCall) := by
  have hinit (value : Text) :
      eraseCall (if i.mDefaultValue = [] then code 0 "\x7b \x7d" else code 0 "\x7b %s \x7d" [value]) =
        if i.mDefaultValue = [] then code 0 "\x7b \x7d" else code 0 "\x7b %s \x7d" [value] := by
    split_ifs <;> rfl
  have hname (name : Text) :
      eraseCall (if i.mIsPointer ∧ ¬ i.mIsArray then code 4 "*%s" [name] else code 4 "%s" [name]) =
        if i.mIsPointer ∧ ¬ i.mIsArray then code 4 "*%s" [name] else code 4 "%s" [name] := by
    split_ifs <;> rfl
  rw [memberDeclaration, memberDeclaration, declaredType_erase, Option.map_map, Option.map_map]
  congr 1
  funext type
  simp only [Function.comp_apply, List.map_append, List.map_cons, List.map_nil, hinit, hname,
    arrayOperator_erase, getCppValueInitializer_erase, getMemberName_erase, eraseCall_code,
    eraseCall_note]
  rfl

theorem classBody_erase (d : DOM) (o : Object) :
    classBody (eraseDOM d) (eraseObject o) = (classBody d o).map (List.map eraseCall) := by
  rw [classBody, classBody, ownItems_erase, collect_map (memberDeclaration_erase d), Option.map_map,
    Option.map_map, isMemberMethod_erase, equalityOperators_erase, assignmentConstructors_erase,
    defaultConstructor_erase]
  congr 1
  funext members
  simp only [Function.comp_apply, List.map_append]

theorem saveCPPObject_erase (d : DOM) (o : Object) :
    saveCPPObject (eraseDOM d) (eraseObject o) = (saveCPPObject d o).map (List.map eraseCall) := by
  by_cases halias : o.mAlias = []
  · by_cases henum : stricmp o.mType "Enum".toList = true
    · have he := saveEnum_erase o
      simp only [saveCPPObject, eraseObject_mAlias, eraseObject_mType, halias, henum, he]
      rfl
    · simp only [saveCPPObject, eraseObject_mAlias, eraseObject_mType, halias, henum, ne_eq,
        not_true_eq_false, if_false, classBody_erase, classDefinition_erase, Option.map_map,
        Bool.false_eq_true]
      congr 1
      funext body
      simp only [Function.comp_apply, List.map_append, List.map_cons, List.map_nil, eraseCall_code]
  · have halias' : ¬ (eraseObject o).mAlias = [] := halias
    rw [saveCPPObject, saveCPPObject, if_pos halias, if_pos halias', eraseObject_mAlias,
      eraseObject_mName, Option.map_some, map_eraseCall_ite]
    rfl

theorem header_saveCPP_erase (d : DOM) :
    Header.saveCPP (eraseDOM d) = (Header.saveCPP d).map (List.map eraseCall) := by
  have hpreamble : preamble (eraseDOM d) = (preamble d).map eraseCall := rfl
  rw [Header.saveCPP, Header.saveCPP, hpreamble, eraseDOM_mObjects,
    collect_map (saveCPPObject_erase d), Option.map_map, Option.map_map]
  congr 1

theorem header_erase (d : DOM) : header (eraseDOM d) = (header d).map (List.map eraseCall) := by
  have henum (o : Object) :
      enumDeclarations (eraseObject o) = (enumDeclarations o).map eraseCall := by
    simp only [enumDeclarations, eraseObject_mType, eraseObject_mName, map_eraseCall_ite]
    rfl
  have htypescript : Header.saveTypeScript (eraseDOM d) =
      (Header.saveTypeScript d).map eraseCall := by
    simp [Header.saveTypeScript, List.flatMap_map, List.map_flatMap, henum]
  have hserialize : Header.saveSerialize (eraseDOM d) =
      (Header.saveSerialize d).map eraseCall := by
    simp [Header.saveSerialize, List.flatMap_map, List.map_flatMap, map_eraseCall_ite]
  have hdeserialize : Header.saveDeserialize (eraseDOM d) =
      (Header.saveDeserialize d).map eraseCall := by
    simp [Header.saveDeserialize, List.flatMap_map, List.map_flatMap, map_eraseCall_ite]
  have hclosing : closing (eraseDOM d) = (closing d).map eraseCall := rfl
  rw [header, header, header_saveCPP_erase, htypescript, hserialize, hdeserialize, hclosing,
    Option.map_map, Option.map_map]
  congr 1
  funext classes
  simp only [Function.comp_apply, List.map_append]

theorem collect_map_of_eq {α β : Type} {f : β → Option (List Call)} {g : α → Option (List Call)}
    {e : α → β} (h : ∀ a, f (e a) = g a) (as : List α) : collect f (as.map e) = collect g as := by
  induction as with
  | nil => rfl
  | cons a as ih => simp only [List.map_cons, collect, h, ih]

theorem classEnumMap_erase (d : DOM) : classEnumMap (eraseDOM d) = classEnumMap d := by
  funext type
  rw [classEnumMap, classEnumMap, eraseDOM_mObjects, ← List.map_reverse, List.find?_map,
    Option.map_map]
  rfl

theorem serializeMember_erase (d : DOM) (i : MemberVariable) :
    serializeMember (eraseDOM d) (eraseMember i) = serializeMember d i := by
  have htext (stmt : SerializeStmt) : serializeText (eraseMember i) stmt = serializeText i stmt := by
    cases stmt <;> rfl
  have hstmt (classEnum : Text → Option Bool) :
      serializeStmt classEnum (eraseMember i) = serializeStmt classEnum i := rfl
  rw [serializeMember, serializeMember, classEnumMap_erase, hstmt, funext htext]

theorem saveSerializeObject_erase (d : DOM) (o : Object) :
    saveSerializeObject (eraseDOM d) (eraseObject o) = saveSerializeObject d o := by
  rw [saveSerializeObject, saveSerializeObject, ownItems_erase,
    collect_map_of_eq (serializeMember_erase d)]
  rfl

theorem deserializeMember_erase (d : DOM) (o : Object) (i : MemberVariable) :
    deserializeMember (eraseDOM d) (eraseObject o) (eraseMember i) = deserializeMember d o i := by
  have htext (stmt : DeserializeStmt) :
      deserializeText (eraseMember i) stmt = deserializeText i stmt := by
    cases stmt <;> rfl
  have hstmt (classEnum : Text → Option Bool) (names : List Text) :
      deserializeStmt classEnum names (eraseMember i) = deserializeStmt classEnum names i := rfl
  rw [deserializeMember, deserializeMember, classEnumMap_erase, nonMapItems_erase, hstmt]
  simp only [htext]
  rfl

theorem saveDeserializeObject_erase (d : DOM) (o : Object) :
    saveDeserializeObject (eraseDOM d) (eraseObject o) = saveDeserializeObject d o := by
  rw [saveDeserializeObject, saveDeserializeObject, ownItems_erase,
    collect_map_of_eq (deserializeMember_erase d o)]
  rfl

theorem enumTables_erase (o : Object) : enumTables (eraseObject o) = enumTables o := by
  simp only [enumTables, eraseObject_mItems, eraseObject_mName, List.map_map]
  cases o.mItems <;> rfl

theorem implementation_erase (d : DOM) : implementation (eraseDOM d) = implementation d := by
  have htypescript : Implementation.saveTypeScript (eraseDOM d) = Implementation.saveTypeScript d := by
    simp only [Implementation.saveTypeScript, eraseDOM_mObjects, List.flatMap_map, enumTables_erase]
    rfl
  rw [implementation, implementation, htypescript, Implementation.saveSerialize,
    Implementation.saveSerialize, Implementation.saveDeserialize, Implementation.saveDeserialize,
    eraseDOM_mObjects, collect_map_of_eq (saveSerializeObject_erase d),
    collect_map_of_eq (saveDeserializeObject_erase d)]
  rfl

end Generating

end SchemaCodeGen.Erasure
