import SchemaCodeGen.OutputBrackets

namespace SchemaCodeGen.HeaderBrackets

open CString Schema Emit Printer Header Brackets OutputBrackets

variable {i : MemberVariable} {o : Object} {d : DOM} {calls : List Call}

theorem nested_enumItem (h : PlainMember i) : Nested cpp (source (enumItem i)) := by
  rw [nested_iff, enumItem]
  split_ifs
  all_goals
    simp only [scan_code, scan_note h.description, nestedArgs_cons, nestedArgs_nil, and_self,
      h.member.nested, h.default, scan_nil]
    repeat rw [String.toList_ofList]
    rfl

theorem nested_saveEnum (h : PlainObject o) : Nested cpp (source (saveEnum o)) := by
  have hitems : Nested cpp (source (o.mItems.flatMap enumItem)) :=
    nested_flatMap fun i hi => nested_enumItem (h.items i hi)
  rw [nested_iff, saveEnum]
  simp only [source_append, scan_append, hitems.scan, scan_code, scan_remark h.short, scan_remark h.long,
    nestedArgs_cons, nestedArgs_nil, and_self, h.name.nested, scan_nil]
  repeat rw [String.toList_ofList]
  rfl

theorem scan_nameTests {names : List Text} (hne : names ≠ []) (h : ∀ name ∈ names, Nested cpp name)
    (opened : List Char) : scan cpp ('(' :: opened) (source (nameTests names)) = some opened := by
  induction names with
  | nil => exact absurd rfl hne
  | cons name names ih =>
      rw [List.forall_mem_cons] at h
      have hname : NestedArgs [name] := nestedArgs_cons.mpr ⟨h.1, nestedArgs_nil⟩
      cases names with
      | nil =>
          rw [nameTests, scan_code hname]
          rfl
      | cons name' names =>
          rw [nameTests, scan_code hname]
          · exact ih (List.cons_ne_nil _ _) h.2
          · exact List.cons_ne_nil _ _

theorem nested_isMemberTest {names : List Text} (h : ∀ name ∈ names, Nested cpp name) :
    Nested cpp (source (isMemberTest names)) := by
  have hret : Nested cpp (source retTrue) := nested_iff.mpr rfl
  match names with
  | [] => exact .nil
  | [name] =>
      rw [nested_iff, isMemberTest, scan_code h]
      simp only [hret.scan]
      rfl
  | name :: name' :: names =>
      rw [List.forall_mem_cons] at h
      rw [nested_iff, isMemberTest, scan_code (List.forall_mem_singleton.mpr h.1)]
      · simp only [source_append, scan_append, hret.scan]
        have htests := @scan_nameTests (name' :: names) (List.cons_ne_nil _ _) h.2 []
        have hfirst : scan cpp [] "if ( strcmp(name,\"%s\") == 0 ||\n".toList = some ['('] := by
          rfl
        rw [hfirst, Option.bind_some, htests]
        rfl
      · exact List.cons_ne_nil _ _

theorem mem_ownItems (h : i ∈ ownItems o) : i ∈ o.mItems := List.mem_of_mem_filter h

theorem nested_isMemberMethod (h : PlainObject o) : Nested cpp (source (isMemberMethod o)) := by
  have htest : Nested cpp (source (isMemberTest (memberNames o))) := by
    refine nested_isMemberTest ?_
    rw [memberNames, List.forall_mem_map]
    exact fun i hi => (h.items i (List.mem_of_mem_filter hi)).member.nested
  rw [nested_iff, isMemberMethod]
  split_ifs
  all_goals
    simp only [source_append, scan_append, htest.scan, scan_linefeed, scan_code, nestedArgs_cons,
      nestedArgs_nil, and_self, h.inheritsFrom.nested, scan_nil]
    repeat rw [String.toList_ofList]
    rfl

theorem nested_equalityOperators (h : PlainObject o) : Nested cpp (source (equalityOperators o)) := by
  have hitems : Nested cpp (source ((ownItems o).map fun i =>
      code 2 "equal &= %s == other.%s;\n" [memberName i, memberName i])) := by
    refine nested_map fun i hi => nested_code ?_ (by decide)
    have hname := (plain_memberName (h.items i (mem_ownItems hi)).member).nested
    simp only [nestedArgs_cons, nestedArgs_nil, and_self, hname]
  rw [nested_iff, equalityOperators]
  split_ifs
  all_goals
    simp only [source_append, scan_append, hitems.scan, scan_linefeed, scan_code, nestedArgs_cons,
      nestedArgs_nil, and_self, h.name.nested, h.inheritsFrom.nested, scan_nil]
    repeat rw [String.toList_ofList]
    rfl

theorem nested_parameter (h : PlainMember i) : Nested cpp (source [parameter i]) := by
  refine nested_code ?_ (by decide)
  simp only [nestedArgs_cons, nestedArgs_nil, and_self, (plain_getCppTypeString h.type false).nested,
    (plain_getMemberName h.member).nested]

theorem nested_parameters {items : List MemberVariable} (h : ∀ i ∈ items, PlainMember i) :
    Nested cpp (source (parameters items)) := by
  cases items with
  | nil => exact .nil
  | cons i items =>
      rw [List.forall_mem_cons] at h
      have hcomma : Nested cpp (source [code 0 ","]) := nested_code nestedArgs_nil (by decide)
      rw [parameters, ← List.singleton_append, source_append]
      refine (nested_parameter h.1).append (nested_flatMap fun i hi => ?_)
      exact hcomma.append (nested_parameter (h.2 i hi))

theorem nested_assignmentConstructors (h : PlainObject o) :
    Nested cpp (source (assignmentConstructors o)) := by
  have hparameters := nested_parameters h.items
  have hitems : Nested cpp (source (o.mItems.map fun i =>
      code 2 "%s = _%s;\n" [getMemberName i, getMemberName i])) := by
    refine nested_map fun i hi => nested_code ?_ (by decide)
    simp only [nestedArgs_cons, nestedArgs_nil, and_self, (plain_getMemberName (h.items i hi).member).nested]
  rw [assignmentConstructors]
  split_ifs
  · rw [nested_iff]
    simp only [source_append, scan_append, hparameters.scan, hitems.scan, scan_code, nestedArgs_cons,
      nestedArgs_nil, and_self, h.name.nested, scan_nil]
    repeat rw [String.toList_ofList]
    rfl
  · exact .nil

theorem nested_defaultConstructor (h : PlainObject o) (dom : DOM) :
    Nested cpp (source (defaultConstructor dom o)) := by
  have hitems : Nested cpp (source ((restatedItems o).map fun i =>
      code 2 "%s%s::%s = %s;\n" [i.mInheritsFrom, [], getMemberName i, getCppRValue i dom])) := by
    refine nested_map fun i hi => nested_code ?_ (by decide)
    have hi := h.items i (List.mem_of_mem_filter hi)
    simp only [nestedArgs_cons, nestedArgs_nil, and_self, hi.inheritsFrom.nested, Nested.nil,
      (plain_getMemberName hi.member).nested, nested_getCppRValue hi dom]
  rw [defaultConstructor]
  split_ifs
  · rw [nested_iff]
    simp only [source_append, scan_append, hitems.scan, scan_code, nestedArgs_cons,
      nestedArgs_nil, and_self, h.name.nested, scan_nil]
    repeat rw [String.toList_ofList]
    rfl
  · exact .nil

theorem plain_stringFormat {format : Text} {args : List Text} (hformat : Plain cpp format)
    (h : ∀ a ∈ args, Plain cpp a) : Plain cpp (stringFormat format args) := by
  induction format, args using stringFormat.induct with
  | case1 format a args ih =>
      rw [List.forall_mem_cons] at h
      rw [Plain, List.forall_mem_cons, List.forall_mem_cons] at hformat
      exact h.1.append (ih hformat.2.2 h.2)
  | case2 c format args hother ih =>
      rw [Plain, List.forall_mem_cons] at hformat
      rw [stringFormat.eq_2 _ _ _ hother, Plain, List.forall_mem_cons]
      exact ⟨hformat.1, ih hformat.2 h⟩
  | case3 => exact hformat

theorem plain_vectorName (h : PlainMember i) : Plain cpp (vectorName i) := by
  have htype := plain_getCppTypeString h.type false
  have hboth : ∀ a ∈ [mapType i, getCppTypeString i.mType false], Plain cpp a :=
    List.forall_mem_cons.mpr ⟨plain_mapType h, List.forall_mem_singleton.mpr htype⟩
  rw [vectorName]
  refine Plain.take (plain_ite (plain_ite ?_ ?_) ?_) _
  · exact plain_stringFormat (plain_word (by decide)) hboth
  · exact plain_stringFormat (plain_word (by decide)) hboth
  · exact plain_stringFormat (plain_word (by decide)) (List.forall_mem_singleton.mpr htype)

theorem nested_declaredType (h : PlainMember i) {c : Call} (hc : declaredType i = some c) :
    Nested cpp (source [c]) := by
  have hdef := (plain_getCppTypeString h.type true).nested
  rw [declaredType] at hc
  split_ifs at hc
  all_goals
    obtain rfl := Option.some.inj hc
    refine nested_code ?_ (by decide)
    simp only [nestedArgs_cons, nestedArgs_nil, and_self, hdef, (plain_vectorName h).nested]

theorem plain_upcaseFirst {t : Text} (h : Plain cpp t) : Plain cpp (upcaseFirst t) := by
  cases t with
  | nil => exact h
  | cons c t =>
      rw [Plain, List.forall_mem_cons] at h
      rw [upcaseFirst, Plain, List.forall_mem_cons]
      refine ⟨?_, h.2⟩
      rw [upcase]
      split_ifs with hlower
      · -- A capital letter.
        have hall : ∀ n < 123, (Char.ofNat n).isLower = true → cpp.opens (Char.ofNat n).toUpper = false ∧
            cpp.partner (Char.ofNat n).toUpper = none := by decide
        have hlt : c.toNat < 123 := by
          unfold Char.isLower at hlower
          rw [Bool.and_eq_true, decide_eq_true_eq, decide_eq_true_eq] at hlower
          exact Nat.lt_succ_of_le (UInt32.le_iff_toNat_le.mp hlower.2)
        have hupper := hall c.toNat hlt
        rw [Char.ofNat_toNat] at hupper
        exact hupper hlower
      · exact h.1

theorem nested_arrayOperator (h : PlainMember i) : Nested cpp (source (arrayOperator i)) := by
  have hup := (plain_upcaseFirst h.type).nested
  have htype := (plain_getCppTypeString h.type false).nested
  have hmap := (plain_mapType h).nested
  rw [arrayOperator]
  split_ifs
  · rw [nested_iff]
    simp only [scan_linefeed, scan_code, nestedArgs_cons, nestedArgs_nil, and_self, hup, hmap, h.member.nested,
      scan_nil]
    repeat rw [String.toList_ofList]
    rfl
  · rw [nested_iff]
    simp only [scan_linefeed, scan_code, nestedArgs_cons, nestedArgs_nil, and_self, htype, hmap,
      h.member.nested, scan_nil]
    repeat rw [String.toList_ofList]
    rfl
  · exact .nil

theorem nested_memberDeclaration (h : PlainMember i) (dom : DOM)
    (hcalls : memberDeclaration dom i = some calls) : Nested cpp (source calls) := by
  obtain ⟨type, htype, rfl⟩ := Option.map_eq_some_iff.mp hcalls
  have hfirst := nested_declaredType h htype
  have hoperator := nested_arrayOperator h
  have hname := (plain_getMemberName h.member).nested
  have hvalue := nested_getCppValueInitializer h dom
  rw [nested_iff, List.cons_append, ← List.singleton_append, source_append, scan_append, hfirst.scan,
    Option.bind_some]
  split_ifs
  all_goals
    simp only [source_append, scan_append, hoperator.scan, scan_code, scan_note h.description,
      nestedArgs_cons, nestedArgs_nil, and_self, hname, hvalue, scan_nil]
    repeat rw [String.toList_ofList]
    rfl

theorem nested_saveCPPObject (h : PlainObject o) (dom : DOM) (hcalls : saveCPPObject dom o = some calls) :
    Nested cpp (source calls) := by
  rw [saveCPPObject] at hcalls
  split_ifs at hcalls
  · obtain rfl := Option.some.inj hcalls
    refine nested_code ?_ (by decide)
    simp only [nestedArgs_cons, nestedArgs_nil, and_self, h.name.nested, h.aka.nested]
  · obtain rfl := Option.some.inj hcalls
    exact .nil
  · obtain rfl := Option.some.inj hcalls
    exact nested_saveEnum h
  · obtain ⟨body, hbody, rfl⟩ := Option.map_eq_some_iff.mp hcalls
    obtain ⟨members, hmembers, rfl⟩ := Option.map_eq_some_iff.mp hbody
    have hdeclarations := nested_collect (fun i hi calls hcalls =>
      nested_memberDeclaration (h.items i (mem_ownItems hi)) dom hcalls) hmembers
    rw [nested_iff, classDefinition]
    split_ifs
    all_goals
      simp only [source_append, scan_append, scan_code, scan_remark h.short, scan_remark h.long,
        (nested_isMemberMethod h).scan, (nested_equalityOperators h).scan,
        (nested_assignmentConstructors h).scan, (nested_defaultConstructor h dom).scan,
        hdeclarations.scan, nestedArgs_cons, nestedArgs_nil, and_self, h.name.nested,
        h.inheritsFrom.nested, scan_nil]
      repeat rw [String.toList_ofList]
      rfl

theorem scan_preamble (h : PlainSchema d) : scan cpp [] (source (preamble d)) = some ['\x7b'] := by
  rw [preamble]
  simp only [scan_code, nestedArgs_cons, nestedArgs_nil, and_self, h.url, h.nspace, scan_nil]
  repeat rw [String.toList_ofList]
  rfl

theorem nested_saveTypeScript (h : PlainSchema d) : Nested cpp (source (saveTypeScript d)) := by
  have hobjects : Nested cpp (source (d.mObjects.flatMap enumDeclarations)) := by
    refine nested_flatMap fun o ho => ?_
    rw [enumDeclarations]
    split_ifs
    · rw [nested_iff]
      simp only [scan_linefeed, scan_code, nestedArgs_cons, nestedArgs_nil, and_self, (h.objects o ho).name.nested,
        scan_nil]
      repeat rw [String.toList_ofList]
      rfl
    · exact .nil
  rw [nested_iff, saveTypeScript]
  simp only [source_append, scan_append, hobjects.scan, scan_linefeed, scan_code, nestedArgs_nil, scan_nil]
  repeat rw [String.toList_ofList]
  rfl

theorem nested_saveSerialize (h : PlainSchema d) : Nested cpp (source (saveSerialize d)) := by
  refine nested_flatMap fun o ho => ?_
  split_ifs
  · exact .nil
  · rw [nested_iff]
    simp only [scan_linefeed, scan_code, nestedArgs_cons, nestedArgs_nil, and_self, (h.objects o ho).name.nested,
      scan_nil]
    repeat rw [String.toList_ofList]
    rfl

theorem nested_saveDeserialize (d : DOM) : Nested cpp (source (saveDeserialize d)) := by
  have hobjects : Nested cpp (source (d.mObjects.flatMap fun o => if o.mIsEnum then [] else [linefeed])) := by
    refine nested_flatMap fun o _ => ?_
    split_ifs
    · exact .nil
    · exact nested_code nestedArgs_nil rfl
  rw [nested_iff, saveDeserialize]
  simp only [source_append, scan_append, hobjects.scan, scan_linefeed, scan_code, nestedArgs_nil, scan_nil]
  repeat rw [String.toList_ofList]
  rfl

theorem scan_closing (h : PlainSchema d) : scan cpp ['\x7b'] (source (closing d)) = some [] := by
  rw [closing]
  simp only [scan_code, nestedArgs_cons, nestedArgs_nil, and_self, h.nspace, scan_nil]
  repeat rw [String.toList_ofList]
  rfl

theorem nested_header (h : PlainSchema d) (hcalls : header d = some calls) : Nested cpp (source calls) := by
  obtain ⟨classes, hclasses, rfl⟩ := Option.map_eq_some_iff.mp hcalls
  obtain ⟨objects, hobjects, rfl⟩ := Option.map_eq_some_iff.mp hclasses
  have hnested := nested_collect (fun o ho calls hcalls =>
    nested_saveCPPObject (h.objects o ho) d hcalls) hobjects
  rw [nested_iff]
  simp only [source_append, scan_append, scan_preamble h, Option.bind_some, hnested.scan,
    (nested_saveTypeScript h).scan, (nested_saveSerialize h).scan, (nested_saveDeserialize d).scan,
    scan_closing h]

end SchemaCodeGen.HeaderBrackets
