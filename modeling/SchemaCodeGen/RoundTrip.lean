import SchemaCodeGen.Compilation

namespace SchemaCodeGen.RoundTrip

open CString Floats Json Schema Emit EnumTable Fallible Generated Slots Fresh Values Compilation

/-- What is written for `x` is read back as `x`, or not at all when `P` fails. -/
def Restores (write : Datum → Run Value) (read : Value → Run Datum) (P : Prop) (x : Datum) : Prop :=
  ∃ j, write x = .ok j ∧ (P → read j = .ok x) ∧ ∀ w, read j = .ok w → P

section Elements

def asInt (type : StandardType) (v : Value) : Run Datum := do .ok (.int (← readInteger type v))

theorem integer_restores {type : StandardType} {x : Datum}
    (ht : type = .u32 ∨ type = .u64 ∨ type = .i64) (hx : LeafValue type x) :
    Restores rawValue (asInt type) True x := by
  obtain ⟨n, rfl⟩ : ∃ n, x = .int n := by
    obtain rfl | rfl | rfl := ht <;> cases x <;> simp [LeafValue] at hx ⊢
  refine ⟨.number (.int n), rfl, fun _ => ?_, fun _ _ => trivial⟩
  obtain rfl | rfl | rfl := ht
  · have hget : (Value.number (.int n)).getUint = some n := if_pos hx
    have hread : readInteger .u32 (.number (.int n)) = orHalt .misuse (Value.number (.int n)).getUint :=
      rfl
    rw [asInt, hread, hget]
    rfl
  · have hget : (Value.number (.int n)).getUint64 = some n := if_pos hx
    have hread : readInteger .u64 (.number (.int n)) =
      orHalt .misuse (Value.number (.int n)).getUint64 := rfl
    rw [asInt, hread, hget]
    rfl
  · have hget : (Value.number (.int n)).getInt64 = some n := if_pos hx
    have hread : readInteger .i64 (.number (.int n)) =
      orHalt .misuse (Value.number (.int n)).getInt64 := rfl
    rw [asInt, hread, hget]
    rfl

theorem double_restores {x : Datum} (hx : LeafValue .doubleType x) :
    Restores rawValue (readChecked .doubleType) True x := by
  cases x with
  | real x => exact ⟨.number (.double x), rfl, fun _ => rfl, fun _ _ => trivial⟩
  | _ => exact absurd hx id

theorem bool_restores {x : Datum} (hx : LeafValue .boolType x) :
    Restores rawValue (readChecked .boolType) True x := by
  cases x with
  | bool p => exact ⟨.bool p, rfl, fun _ => rfl, fun _ _ => trivial⟩
  | _ => exact absurd hx id

theorem string_restores {x : Datum} (hx : LeafValue .stringType x) :
    Restores stringValue (readChecked .stringType) True x := by
  cases x with
  | str s =>
      have hs : cstr s = s := cstr_of_nulFree hx
      refine ⟨.string s, by rw [stringValue, hs], fun _ => ?_, fun _ _ => trivial⟩
      have hread : readChecked .stringType (.string s) = .ok (.str (cstr s)) := rfl
      rw [hread, hs]
  | _ => exact absurd hx id

variable {b : Build}

theorem enumType_isSome {type : Text} (h : b.classEnum type = some true) :
    ∃ e, b.enumType type = some e := by
  obtain ⟨o, ho, henum⟩ := Option.map_eq_some_iff.mp h
  exact ⟨o, by simp [Build.enumType, ho, henum]⟩

theorem enum_restores {i : MemberVariable} {x : Datum}
    (hdistinct : ∀ e, b.enumType i.mType = some e → Distinct b.constant e)
    (hx : EnumValue b i x) :
    Restores (if i.mSerializeEnumAsInteger then enumInteger else enumName b i.mType)
      (readEnum b i.mType i.mSerializeEnumAsInteger) True x := by
  cases x with
  | enum n =>
      obtain ⟨hn, hlisted⟩ := hx
      cases hi : i.mSerializeEnumAsInteger with
      | true =>
          refine ⟨.number (.int n), rfl, fun _ => ?_, fun _ _ => trivial⟩
          have hlt : (n : Int) < 2 ^ 64 := by exact_mod_cast hn
          have hget : (Value.number (.int n)).getUint64 = some (n : Int) := by
            rw [Value.getUint64, if_pos ⟨Int.natCast_nonneg n, hlt⟩]
          simp [readEnum, hget]
      | false =>
          obtain ⟨e, he, hs⟩ := hlisted hi
          obtain ⟨s, hs⟩ := Option.isSome_iff_exists.mp hs
          have hc : cstr s = s := cstr_of_mem_keyList (mem_of_stringifyEnum hs)
          have hback := unstringifyEnum_stringifyEnum (hdistinct e he) hs
          refine ⟨.string s, by simp [enumName, he, hs], fun _ => ?_, fun _ _ => trivial⟩
          simp [readEnum, readEnumName, he, hc, hback]
  | _ => exact absurd hx id

end Elements

section Members

variable {write : Datum → Run Value} {read : Value → Run Datum}

theorem scalar_restores (m : Text) (optional : Bool) {x : Datum} {P : Prop}
    (hx : (optional = true ∧ x = .empty) ∨ (x ≠ .empty ∧ Restores write read P x)) :
    ∃ ms, addMember m optional x write = .ok ms ∧ (∀ e ∈ ms, e.1 = m) ∧
      ∀ (doc : Members) (f : Fields) (required : Bool) (l : Nat),
        doc.lookup m = ms.lookup m → (optional = true → required = false) →
        (optional = true → x = .empty → f l m = .empty) →
        ((x ≠ .empty → P) → withMember (.object doc) m required f
            (fun v => do .ok (f.set l m (← read v))) = .ok (f.set l m x)) ∧
          ∀ g, withMember (.object doc) m required f
            (fun v => do .ok (f.set l m (← read v))) = .ok g → x ≠ .empty → P := by
  obtain ⟨rfl, rfl⟩ | ⟨hne, j, hwrite, hread, hback⟩ := hx
  · refine ⟨[], rfl, by simp, fun doc f required l hdoc hreq hf => ⟨fun _ => ?_, ?_⟩⟩
    · have hself : f.set l m .empty = f := by rw [← hf rfl rfl, Fields.set_self]
      have hdoc : doc.lookup m = none := hdoc
      simp [withMember, Value.findMember, Value.memberList, hdoc, hreq rfl, hself]
    · exact fun _ _ h => absurd rfl h
  · have hadd : addMember m optional x write = .ok [(m, j)] := by
      cases optional <;> cases x <;> simp_all [addMember]
    refine ⟨[(m, j)], hadd, by simp, fun doc f required l hdoc hreq hf => ?_⟩
    have hdoc : doc.lookup m = some j := by simpa using hdoc
    simp only [withMember, Value.findMember, Value.memberList, Option.map_some, hdoc, orHalt_some,
      ok_bind]
    refine ⟨fun hP => by rw [hread (hP hne)]; rfl, fun g hg _ => ?_⟩
    obtain ⟨w, hw, _⟩ := bind_eq_ok.mp hg
    exact hback w hw

theorem mapM_restores {l : List Datum} {P : Datum → Prop}
    (h : ∀ x ∈ l, Restores write read (P x) x) :
    ∃ js, l.mapM write = .ok js ∧ ((∀ x ∈ l, P x) → js.mapM read = .ok l) ∧
      ∀ ws, js.mapM read = .ok ws → ∀ x ∈ l, P x := by
  induction l with
  | nil => exact ⟨[], rfl, fun _ => rfl, by simp⟩
  | cons x l ih =>
      rw [List.forall_mem_cons] at h
      obtain ⟨j, hwrite, hread, hback⟩ := h.1
      obtain ⟨js, hwrites, hreads, hbacks⟩ := ih h.2
      refine ⟨j :: js, by simp [hwrite, hwrites], fun hP => ?_, fun ws hws => ?_⟩
      · rw [List.forall_mem_cons] at hP
        simp [hread hP.1, hreads hP.2]
      · rw [List.mapM_cons] at hws
        obtain ⟨w, hw, hws⟩ := bind_eq_ok.mp hws
        obtain ⟨ws', hws', _⟩ := bind_eq_ok.mp hws
        exact List.forall_mem_cons.mpr ⟨hback w hw, hbacks ws' hws'⟩

theorem foldlM_pushBack {l : Nat} {m : Text} {js : List Value} {f : Fields} {acc : List Datum}
    (hf : f l m = .vec acc) :
    js.foldlM (fun f item => do f.pushBack l m (← read item)) f =
      js.mapM read >>= fun ds => .ok (f.set l m (.vec (acc ++ ds))) := by
  induction js generalizing f acc with
  | nil => simp [← hf, Fields.set_self]
  | cons j js ih =>
      rw [List.foldlM_cons, List.mapM_cons]
      cases hr : read j with
      | error e => simp
      | ok d =>
          have hpush : f.pushBack l m d = .ok (f.set l m (.vec (acc ++ [d]))) := by
            simp [Fields.pushBack, hf, items]
          simp only [ok_bind, hpush]
          rw [ih (Fields.set_same ..)]
          cases js.mapM read with
          | error e => simp
          | ok ds => simp [Fields.set_set]

theorem mapM_asInt {type : StandardType} {js : List Value} :
    (js.mapM (readInteger type) >>= fun ns => .ok (ns.map Datum.int)) = js.mapM (asInt type) := by
  induction js with
  | nil => rfl
  | cons j js ih =>
      rw [List.mapM_cons, List.mapM_cons, ← ih, asInt]
      cases readInteger type j with
      | error e => rfl
      | ok n =>
          cases js.mapM (readInteger type) with
          | error e => rfl
          | ok ns => rfl

end Members

section Statements

variable (classEnum : Text → Option Bool) {i : MemberVariable} (names : List Text)

theorem statements_integer
    (h : getStandardType i.mType = .u32 ∨ getStandardType i.mType = .u64 ∨
      getStandardType i.mType = .i64) (hmap : i.mIsMap = false) :
    serializeStmt classEnum i =
        some (if i.mIsArray then .rawArray i.mMember (getStandardType i.mType)
          else .raw i.mMember (i.mIsOptional = .optional)) ∧
      deserializeStmt classEnum names i =
        some (if i.mIsArray then
            .integerArray i.mMember (getStandardType i.mType) (i.mIsOptional = .required)
          else .integer i.mMember (getStandardType i.mType) (i.mIsOptional = .required)) := by
  obtain h | h | h := h <;> cases ha : i.mIsArray <;>
    simp [serializeStmt, deserializeStmt, isStandardType, isNumeric, deserializeTypeName, h, hmap, ha]

theorem statements_plain
    (h : getStandardType i.mType = .doubleType ∨ getStandardType i.mType = .boolType)
    (hmap : i.mIsMap = false) (harray : i.mIsArray = false) :
    serializeStmt classEnum i = some (.raw i.mMember (i.mIsOptional = .optional)) ∧
      deserializeStmt classEnum names i =
        some (.checked i.mMember (getStandardType i.mType) (i.mIsOptional = .required)) := by
  obtain h | h := h <;>
    simp [serializeStmt, deserializeStmt, isStandardType, isNumeric, deserializeTypeName, h, hmap,
      harray]

theorem statements_string (h : getStandardType i.mType = .stringType) (hmap : i.mIsMap = false)
    (harray : i.mIsArray = false) :
    serializeStmt classEnum i = some (.string i.mMember (i.mIsOptional = .optional)) ∧
      deserializeStmt classEnum names i =
        some (.checked i.mMember .stringType (i.mIsOptional = .required)) := by
  have hs := getStandardType_eq_string h
  simp only [serializeStmt, deserializeStmt, isStandardType, isNumeric, deserializeTypeName, hmap,
    harray, hs]
  exact ⟨rfl, rfl⟩

theorem not_string_of_none (h : getStandardType i.mType = .none) : i.mType ≠ "string".toList := by
  intro hs
  rw [hs] at h
  exact absurd h (by decide)

theorem statements_enum (h : getStandardType i.mType = .none) (henum : classEnum i.mType = some true)
    (harray : i.mIsArray = false) :
    serializeStmt classEnum i =
        some (.enum i.mMember i.mType (i.mIsOptional = .optional) i.mSerializeEnumAsInteger) ∧
      deserializeStmt classEnum names i =
        some (.enum i.mMember i.mType i.mSerializeEnumAsInteger) := by
  have hs := not_string_of_none h
  simp only [serializeStmt, deserializeStmt, isStandardType, h, hs, henum, harray]
  exact ⟨rfl, rfl⟩

theorem statements_object (h : getStandardType i.mType = .none)
    (hclass : classEnum i.mType = some false) (hmap : i.mIsMap = false) :
    serializeStmt classEnum i =
        some (if i.mIsArray then .objectArray i.mMember i.mType
          else .object i.mMember i.mType (i.mIsOptional = .optional)) ∧
      deserializeStmt classEnum names i =
        some (if i.mIsArray then .objectArray i.mMember i.mType (i.mIsOptional = .required)
          else .object i.mMember i.mType (i.mIsOptional = .required)) := by
  have hs := not_string_of_none h
  cases ha : i.mIsArray <;>
    simp only [serializeStmt, deserializeStmt, isStandardType, h, hs, hclass, hmap, ha] <;>
    exact ⟨rfl, rfl⟩

end Statements

/-- The member rows that are considered. -/
inductive SupportedItem (b : Build) (classes : Text → Prop) (i : MemberVariable) : Prop
  | integer (type : getStandardType i.mType = .u32 ∨ getStandardType i.mType = .u64 ∨
      getStandardType i.mType = .i64)
  | plain (type : getStandardType i.mType = .doubleType ∨ getStandardType i.mType = .boolType)
      (scalar : i.mIsArray = false)
  | string (type : getStandardType i.mType = .stringType) (scalar : i.mIsArray = false)
  | enum (type : getStandardType i.mType = .none) (enum : b.classEnum i.mType = some true)
      (distinct : ∀ e, b.enumType i.mType = some e → Distinct b.constant e)
      (scalar : i.mIsArray = false)
  | object (type : getStandardType i.mType = .none) (cls : b.classEnum i.mType = some false)
      (mem : classes i.mType)

theorem SupportedItem.mem_class {b : Build} {classes : Text → Prop} {i : MemberVariable}
    (hi : SupportedItem b classes i) (h : b.isClass i.mType = true) : classes i.mType := by
  have htype : getStandardType i.mType = .none ∧ b.classEnum i.mType = some false := by
    simpa [Build.isClass] using h
  cases hi with
  | integer type => obtain h | h | h := type <;> simp [h] at htype
  | plain type _ => obtain h | h := type <;> simp [h] at htype
  | string type _ => simp [type] at htype
  | enum _ h _ _ => simp [h] at htype
  | object _ _ mem => exact mem

/-- The emitted block of an integer array declares a vector of the member's name. -/
def ArrayNamed (i : MemberVariable) (_ : Datum) : Prop :=
  i.mIsArray = true → getStandardType i.mType ≠ .none → i.mMember ∉ arrayLocals

def Readable (b : Build) (n : Nat) (i : MemberVariable) (x : Datum) : Prop :=
  ArrayNamed i x ∧
    (b.isClass i.mType = true → ∀ y ∈ held x, Everywhere b ArrayNamed n i.mType y)

/-- What the member writes lets its own block read it back, from any document that agrees
on its name. -/
def SlotRestores (b : Build) (n k : Nat) (v fresh : Fields) (s : Slot) : Prop :=
  ∃ ms, serializeItem b (serializeTo b k) (v (level s.1)) s.2 = .ok ms ∧
    (∀ e ∈ ms, e.1 = s.2.mMember) ∧
    ∀ (doc : Members) (f : Fields), doc.lookup s.2.mMember = ms.lookup s.2.mMember →
      get f s = get fresh s →
      (Readable b n s.2 (get v s) →
        deserializeItem b (deserializeFrom b k) s.1 (.object doc) f s.2 = .ok (set f s (get v s))) ∧
      ∀ g, deserializeItem b (deserializeFrom b k) s.1 (.object doc) f s.2 = .ok g →
        Readable b n s.2 (get v s)

section Member

variable {b : Build} {classes : Text → Prop} {n k : Nat} {v fresh : Fields} {s : Slot}
  (write : Datum → Run Value) (read : Value → Run Datum) (required : Bool)

theorem slot_scalar {P : Prop} (hname : memberName s.2 = s.2.mMember)
    (hser : serializeItem b (serializeTo b k) (v (level s.1)) s.2 =
      addMember s.2.mMember (s.2.mIsOptional = .optional) (get v s) write)
    (hdes : ∀ doc f, deserializeItem b (deserializeFrom b k) s.1 (.object doc) f s.2 =
      withMember (.object doc) s.2.mMember required f
        fun v => do .ok (f.set (level s.1) s.2.mMember (← read v)))
    (hreq : s.2.mIsOptional = .optional → required = false)
    (hx : (s.2.mIsOptional = .optional ∧ get v s = .empty) ∨
      (get v s ≠ .empty ∧ Restores write read P (get v s)))
    (hfresh : s.2.mIsOptional = .optional → get fresh s = .empty)
    (hread : Readable b n s.2 (get v s) ↔ (get v s ≠ .empty → P)) :
    SlotRestores b n k v fresh s := by
  obtain ⟨ms, hms, hkeys, hdoc⟩ := scalar_restores s.2.mMember
    (s.2.mIsOptional = .optional) (by simpa using hx)
  refine ⟨ms, hser.trans hms, hkeys, fun doc f hlookup hf => ?_⟩
  have hempty : s.2.mIsOptional = .optional → f (level s.1) s.2.mMember = .empty := by
    intro h
    rw [← hname]
    exact hf.trans (hfresh h)
  have h := hdoc doc f required (level s.1) hlookup (by simpa using hreq)
    (fun h _ => hempty (by simpa using h))
  rw [hdes, hread, Slots.set, hname]
  exact h

theorem slot_array {l : List Datum} {P : Datum → Prop}
    (hname : memberName s.2 = s.2.mMember) (hv : get v s = .vec l)
    (hser : serializeItem b (serializeTo b k) (v (level s.1)) s.2 =
      addArray s.2.mMember (.vec l) write)
    (hdes : ∀ doc f, get f s = get fresh s →
      deserializeItem b (deserializeFrom b k) s.1 (.object doc) f s.2 =
        withMember (.object doc) s.2.mMember required f fun v => do
          .ok (f.set (level s.1) s.2.mMember (.vec (← (← arrayItems v).mapM read))))
    (hx : ∀ x ∈ l, Restores write read (P x) x)
    (hread : Readable b n s.2 (get v s) ↔ ∀ x ∈ l, P x) : SlotRestores b n k v fresh s := by
  obtain ⟨js, hwrites, hreads, hbacks⟩ := mapM_restores hx
  refine ⟨[(s.2.mMember, .array js)], by simp [hser, addArray, items, hwrites], by simp,
    fun doc f hlookup hf => ?_⟩
  have hlookup : doc.lookup s.2.mMember = some (.array js) := by simpa using hlookup
  have hblock : deserializeItem b (deserializeFrom b k) s.1 (.object doc) f s.2 =
      js.mapM read >>= fun ds => .ok (f.set (level s.1) s.2.mMember (.vec ds)) := by
    simp [hdes doc f hf, withMember, Value.findMember, Value.memberList, hlookup, arrayItems]
  rw [hblock, hread, hv, Slots.set, hname]
  refine ⟨fun hP => by simp [hreads hP], fun g hg => ?_⟩
  obtain ⟨ds, hds, _⟩ := bind_eq_ok.mp hg
  exact hbacks ds hds

theorem readable_object (htype : getStandardType s.2.mType = .none)
    (hclass : b.classEnum s.2.mType = some false) {x : Datum} :
    Readable b n s.2 x ↔ ∀ y ∈ held x, Everywhere b ArrayNamed n s.2.mType y := by
  simp [Readable, ArrayNamed, Build.isClass, hclass, htype]

theorem readable_scalar (hclass : b.isClass s.2.mType = false)
    (hscalar : s.2.mIsArray = false) {x : Datum} : Readable b n s.2 x := by
  simp [Readable, ArrayNamed, hclass, hscalar]

theorem isClass_of_standard {type : Text} (h : getStandardType type ≠ .none) :
    b.isClass type = false := by
  simp [Build.isClass, h]

theorem held_of_ne {x : Datum} (hne : x ≠ .empty) (hvec : ∀ l, x ≠ .vec l) : held x = [x] := by
  cases x with
  | empty => exact absurd rfl hne
  | vec l => exact absurd rfl (hvec l)
  | _ => rfl

theorem slot_standard (hnone : getStandardType s.2.mType ≠ .none) (hscalar : s.2.mIsArray = false)
    (hname : memberName s.2 = s.2.mMember)
    (hser : serializeItem b (serializeTo b k) (v (level s.1)) s.2 =
      addMember s.2.mMember (s.2.mIsOptional = .optional) (get v s) write)
    (hdes : ∀ doc f, deserializeItem b (deserializeFrom b k) s.1 (.object doc) f s.2 =
      withMember (.object doc) s.2.mMember required f
        fun v => do .ok (f.set (level s.1) s.2.mMember (← read v)))
    (hreq : s.2.mIsOptional = .optional → required = false)
    (hx : ItemValue b (ClassValue b n) s.2 (get v s))
    (hrestores : LeafValue (getStandardType s.2.mType) (get v s) →
      Restores write read True (get v s))
    (hfresh : s.2.mIsOptional = .optional → get fresh s = .empty) :
    SlotRestores b n k v fresh s := by
  rw [ItemValue, if_neg (by simp [hscalar])] at hx
  refine slot_scalar write read required (P := True) hname hser hdes hreq
    (hx.imp id fun hx => ⟨elementValue_ne_empty hx, ?_⟩) hfresh ?_
  · rw [ElementValue, if_pos hnone] at hx
    exact hrestores hx
  · simp [readable_scalar (isClass_of_standard hnone) hscalar]

theorem own_eq (hmap : s.2.mIsMap = false) : v (level s.1) s.2.mMember = get v s := by
  rw [Slots.get, memberName_of_noMap hmap]

theorem required_eq (h : s.2.mIsOptional = .optional) :
    decide (s.2.mIsOptional = .required) = false := by
  simp [h]

theorem integer_restored (type : getStandardType s.2.mType = .u32 ∨
      getStandardType s.2.mType = .u64 ∨ getStandardType s.2.mType = .i64)
    (hmap : s.2.mIsMap = false) (ha : s.2.mIsArray = false)
    (hx : ItemValue b (ClassValue b n) s.2 (get v s))
    (hempty : s.2.mIsOptional = .optional → get fresh s = .empty) :
    SlotRestores b n k v fresh s := by
  have hnone : getStandardType s.2.mType ≠ .none := by
    obtain h | h | h := type <;> simp [h]
  have hstmts := statements_integer b.classEnum ((s.1.head?.map nonMapItems).getD []) type hmap
  simp only [ha, Bool.false_eq_true, if_false] at hstmts
  refine slot_standard rawValue (asInt (getStandardType s.2.mType)) _ hnone ha
    (memberName_of_noMap hmap) ?_ (fun doc f => ?_) required_eq hx (integer_restores type) hempty
  · simp [serializeItem, hstmts.1, runSerialize, own_eq hmap]
  · simp only [deserializeItem, hstmts.2, orHalt_some, ok_bind, runDeserialize, asInt]
    congr 1
    funext j
    cases readInteger (getStandardType s.2.mType) j <;> rfl

theorem integers_restored (type : getStandardType s.2.mType = .u32 ∨
      getStandardType s.2.mType = .u64 ∨ getStandardType s.2.mType = .i64)
    (hmap : s.2.mIsMap = false) (ha : s.2.mIsArray = true)
    (hx : ItemValue b (ClassValue b n) s.2 (get v s)) : SlotRestores b n k v fresh s := by
  have hnone : getStandardType s.2.mType ≠ .none := by
    obtain h | h | h := type <;> simp [h]
  have hbool : getStandardType s.2.mType ≠ .boolType := by
    obtain h | h | h := type <;> simp [h]
  have hstmts := statements_integer b.classEnum ((s.1.head?.map nonMapItems).getD []) type hmap
  simp only [ha, if_true] at hstmts
  rw [ItemValue, if_pos ha] at hx
  obtain ⟨l, hl, hx⟩ := hx
  have hser : serializeItem b (serializeTo b k) (v (level s.1)) s.2 =
      addArray s.2.mMember (.vec l) rawValue := by
    simp [serializeItem, hstmts.1, runSerialize, own_eq hmap, hbool, hl]
  have hrestores : ∀ x ∈ l, Restores rawValue (asInt (getStandardType s.2.mType)) True x := by
    intro x hxl
    have := hx x hxl
    rw [ElementValue, if_pos hnone] at this
    exact integer_restores type this
  by_cases hlocal : s.2.mMember ∈ arrayLocals
  · -- The block does not compile.
    obtain ⟨js, hwrites, _, _⟩ := mapM_restores hrestores
    refine ⟨[(s.2.mMember, .array js)], by simp [hser, addArray, items, hwrites], by simp,
      fun doc f _ _ => ⟨fun h => absurd hlocal (h.1 ha hnone), fun g hg => ?_⟩⟩
    simp [deserializeItem, hstmts.2, runDeserialize, hlocal] at hg
  · have hcontains : arrayLocals.contains s.2.mMember = false := by simpa using hlocal
    refine slot_array rawValue (asInt (getStandardType s.2.mType))
      (decide (s.2.mIsOptional = .required)) (P := fun _ => True) (memberName_of_noMap hmap) hl hser
      (fun doc f _ => ?_) hrestores ?_
    · simp only [deserializeItem, hstmts.2, orHalt_some, ok_bind, runDeserialize, hcontains,
        Bool.false_eq_true, if_false]
      congr 1
      funext j
      cases arrayItems j with
      | error e => rfl
      | ok js =>
          simp only [ok_bind, ← mapM_asInt]
          cases js.mapM (readInteger (getStandardType s.2.mType)) <;> rfl
    · simp [Readable, ArrayNamed, hlocal, isClass_of_standard hnone (b := b)]

theorem object_restored (type : getStandardType s.2.mType = .none)
    (cls : b.classEnum s.2.mType = some false) (hmap : s.2.mIsMap = false)
    (ha : s.2.mIsArray = false) (hx : ItemValue b (ClassValue b n) s.2 (get v s))
    (hempty : s.2.mIsOptional = .optional → get fresh s = .empty)
    (ih : ∀ x, ClassValue b n s.2.mType x →
      Restores (objectValue (serializeTo b k) s.2.mType)
        (readObject (deserializeFrom b k) b.fresh s.2.mType)
        (Everywhere b ArrayNamed n s.2.mType x) x) : SlotRestores b n k v fresh s := by
  have hstmts := statements_object b.classEnum ((s.1.head?.map nonMapItems).getD []) type cls hmap
  simp only [ha, Bool.false_eq_true, if_false] at hstmts
  rw [ItemValue, if_neg (by simp [ha]), ElementValue, if_neg (by simp [type]),
    if_neg (by simp [cls])] at hx
  refine slot_scalar (objectValue (serializeTo b k) s.2.mType)
    (readObject (deserializeFrom b k) b.fresh s.2.mType) _
    (P := Everywhere b ArrayNamed n s.2.mType (get v s)) (memberName_of_noMap hmap) ?_
    (fun doc f => ?_) required_eq ?_ hempty ?_
  · simp [serializeItem, hstmts.1, runSerialize, own_eq hmap]
  · simp [deserializeItem, hstmts.2, runDeserialize]
  · refine hx.imp id fun hx => ⟨?_, ih _ hx⟩
    obtain ⟨f, hf⟩ := classValue_object hx
    simp [hf]
  · rw [readable_object type cls]
    obtain ⟨_, he⟩ | hx := hx
    · simp [he, held]
    · obtain ⟨f, hf⟩ := classValue_object hx
      simp [hf, held]

theorem objects_restored (type : getStandardType s.2.mType = .none)
    (cls : b.classEnum s.2.mType = some false) (hmap : s.2.mIsMap = false)
    (ha : s.2.mIsArray = true) (hx : ItemValue b (ClassValue b n) s.2 (get v s))
    (hvec : get fresh s = .vec [])
    (ih : ∀ x, ClassValue b n s.2.mType x →
      Restores (objectValue (serializeTo b k) s.2.mType)
        (readObject (deserializeFrom b k) b.fresh s.2.mType)
        (Everywhere b ArrayNamed n s.2.mType x) x) : SlotRestores b n k v fresh s := by
  have hname : memberName s.2 = s.2.mMember := memberName_of_noMap hmap
  have hstmts := statements_object b.classEnum ((s.1.head?.map nonMapItems).getD []) type cls hmap
  simp only [ha, if_true] at hstmts
  rw [ItemValue, if_pos ha] at hx
  obtain ⟨l, hl, hx⟩ := hx
  have hcall : ∀ x ∈ l, ClassValue b n s.2.mType x := by
    intro x hxl
    have := hx x hxl
    rwa [ElementValue, if_neg (by simp [type]), if_neg (by simp [cls])] at this
  refine slot_array (objectValue (serializeTo b k) s.2.mType)
    (readObject (deserializeFrom b k) b.fresh s.2.mType) (decide (s.2.mIsOptional = .required))
    (P := fun x => Everywhere b ArrayNamed n s.2.mType x) hname hl ?_ (fun doc f hf => ?_)
    (fun x hxl => ih x (hcall x hxl)) ?_
  · simp [serializeItem, hstmts.1, runSerialize, own_eq hmap, hl]
  · have hnil : f (level s.1) s.2.mMember = .vec [] := by
      rw [← hname]
      exact hf.trans hvec
    simp only [deserializeItem, hstmts.2, orHalt_some, ok_bind, runDeserialize]
    congr 1
    funext j
    cases arrayItems j with
    | error e => rfl
    | ok js => simp only [ok_bind, foldlM_pushBack hnil, List.nil_append]
  · rw [readable_object type cls, hl]
    rfl

/-- Every supported member restores its value when the nested objects do. -/
theorem slot_restores (hi : SupportedItem b classes s.2) (hmap : s.2.mIsMap = false)
    (hx : ItemValue b (ClassValue b n) s.2 (get v s))
    (hvec : s.2.mIsArray = true → get fresh s = .vec [])
    (hempty : s.2.mIsOptional = .optional → s.2.mIsArray = false → get fresh s = .empty)
    (ih : ∀ c x, classes c → ClassValue b n c x →
      Restores (objectValue (serializeTo b k) c) (readObject (deserializeFrom b k) b.fresh c)
        (Everywhere b ArrayNamed n c x) x) :
    SlotRestores b n k v fresh s := by
  have hname : memberName s.2 = s.2.mMember := memberName_of_noMap hmap
  cases hi with
  | integer type =>
      cases ha : s.2.mIsArray with
      | false => exact integer_restored type hmap ha hx fun h => hempty h ha
      | true => exact integers_restored type hmap ha hx
  | plain type scalar =>
      have hnone : getStandardType s.2.mType ≠ .none := by
        obtain h | h := type <;> simp [h]
      have hstmts := statements_plain b.classEnum
        ((s.1.head?.map nonMapItems).getD []) type hmap scalar
      refine slot_standard rawValue (readChecked (getStandardType s.2.mType)) _ hnone scalar hname
        ?_ (fun doc f => ?_) required_eq hx (fun hx => ?_) fun h => hempty h scalar
      · simp [serializeItem, hstmts.1, runSerialize, own_eq hmap]
      · simp [deserializeItem, hstmts.2, runDeserialize]
      · obtain h | h := type
        · rw [h] at hx ⊢
          exact double_restores hx
        · rw [h] at hx ⊢
          exact bool_restores hx
  | string type scalar =>
      have hstmts := statements_string b.classEnum
        ((s.1.head?.map nonMapItems).getD []) type hmap scalar
      refine slot_standard stringValue (readChecked .stringType) _ (by simp [type]) scalar hname
        ?_ (fun doc f => ?_) required_eq hx (fun hx => ?_) fun h => hempty h scalar
      · simp [serializeItem, hstmts.1, runSerialize, own_eq hmap]
      · simp [deserializeItem, hstmts.2, runDeserialize]
      · rw [type] at hx
        exact string_restores hx
  | enum type henum distinct scalar =>
      have hstmts := statements_enum b.classEnum ((s.1.head?.map nonMapItems).getD []) type henum scalar
      rw [ItemValue, if_neg (by simp [scalar])] at hx
      refine slot_scalar (if s.2.mSerializeEnumAsInteger then enumInteger else enumName b s.2.mType)
        (readEnum b s.2.mType s.2.mSerializeEnumAsInteger) false (P := True) hname ?_
        (fun doc f => ?_) (fun _ => rfl) ?_ (fun h => hempty h scalar) ?_
      · simp [serializeItem, hstmts.1, runSerialize, own_eq hmap]
      · simp [deserializeItem, hstmts.2, runDeserialize]
      · refine hx.imp id fun hx => ⟨elementValue_ne_empty hx, ?_⟩
        rw [ElementValue, if_neg (by simp [type]), if_pos henum] at hx
        exact enum_restores distinct hx
      · have hclass : b.isClass s.2.mType = false := by simp [Build.isClass, henum]
        simp [readable_scalar hclass scalar]
  | object type cls mem =>
      cases ha : s.2.mIsArray with
      | false => exact object_restored type cls hmap ha hx (fun h => hempty h ha) fun x => ih _ x mem
      | true => exact objects_restored type cls hmap ha hx (hvec ha) fun x => ih _ x mem

end Member

/-- A chain of classes with such members: names are distinct along it, no row is a map, and no
row of an optional member has a default. -/
structure SupportedChain (b : Build) (classes : Text → Prop) (chain : List Object) : Prop where
  names : ((slots chain).map fun s => s.2.mMember).Nodup
  noMap : ∀ s ∈ slots chain, s.2.mIsMap = false
  noPointer : ∀ s ∈ slots chain, s.2.mIsPointer = false
  items : ∀ s ∈ slots chain, SupportedItem b classes s.2
  noDefault : ∀ s ∈ slots chain, s.2.mIsOptional = .optional → s.2.mDefaultValue = [] ∧
    ∀ o ∈ chain, ∀ i ∈ restatedItems o, memberName i ≠ memberName s.2

/-- The classes and all classes of their members have such chains, and can be constructed. -/
structure Supported (b : Build) (classes : Text → Prop) : Prop where
  chain : ∀ c, classes c → ∃ chain, b.chain c = some chain ∧ SupportedChain b classes chain
  fresh : ∀ c, classes c → ∃ f, b.fresh c = some f

theorem Supported.arrayNamed {b : Build} {classes : Text → Prop} (hs : Supported b classes)
    (hcompiles : SchemaCompiles b classes) {n : Nat} {c : Text} {x : Datum} (hc : classes c) :
    Everywhere b ArrayNamed n c x := by
  refine everywhere_of_rows (fun c hc chain hchain s hslot => ?_) hc
  obtain ⟨chain', hchain', hsup⟩ := hs.chain c hc
  obtain rfl := Option.some.inj (hchain.symm.trans hchain')
  obtain ⟨o, ho, hown⟩ := mem_of_slot hslot
  exact ⟨fun _ ha => (hcompiles c hc _ hchain o ho).blocks _ hown ha (hsup.noMap s hslot),
    (hsup.items s hslot).mem_class⟩

section Chain

variable {b : Build} {classes : Text → Prop} {chain : List Object} {v fresh : Fields}

def setAll (v : Fields) (ss : List Slot) (f : Fields) : Fields :=
  ss.foldl (fun f s => Slots.set f s (Slots.get v s)) f

theorem setAll_eq {ss : List Slot} {f : Fields}
    (h : ∀ l m, (∀ s ∈ ss, (l, m) ≠ key s) → f l m = v l m) : setAll v ss f = v := by
  induction ss generalizing f with
  | nil =>
      funext l m
      exact h l m (by simp)
  | cons s ss ih =>
      apply ih
      intro l m hne
      by_cases hk : (l, m) = key s
      · obtain ⟨rfl, rfl⟩ := Prod.mk.inj hk
        exact Fields.set_same _ _ _ _
      · exact (Fields.set_of_ne f _ hk).trans (h l m (List.forall_mem_cons.mpr ⟨hk, hne⟩))

theorem lookup_flatten_alone {ss : List Slot} {entries : Slot → Members} (hnodup : ss.Nodup)
    {s : Slot} (hs : s ∈ ss) {name : Text}
    (halone : ∀ t ∈ ss, t ≠ s → ∀ e ∈ entries t, e.1 ≠ name) :
    (ss.map entries).flatten.lookup name = (entries s).lookup name := by
  have hnone : ∀ ms : Members, (∀ e ∈ ms, e.1 ≠ name) → ms.lookup name = none := by
    intro ms h
    rw [List.lookup_eq_none_iff]
    exact fun e he => bne_iff_ne.mpr (h e he).symm
  induction ss with
  | nil => simp at hs
  | cons t ss ih =>
      rw [List.nodup_cons] at hnodup
      rw [List.forall_mem_cons] at halone
      rw [List.map_cons, List.flatten_cons, List.lookup_append]
      obtain rfl | hs := List.mem_cons.mp hs
      · have hrest : (ss.map entries).flatten.lookup name = none := by
          apply hnone
          intro e he
          obtain ⟨ms, hms, he⟩ := List.mem_flatten.mp he
          obtain ⟨t, ht, rfl⟩ := List.mem_map.mp hms
          exact halone.2 t ht (fun heq => hnodup.1 (heq ▸ ht)) e he
        rw [hrest, Option.or_none]
      · have hne : t ≠ s := fun heq => hnodup.1 (heq ▸ hs)
        rw [hnone _ (halone.1 hne), Option.none_or]
        exact ih hnodup.2 hs halone.2

theorem lookup_flatten {ss : List Slot} {entries : Slot → Members}
    (hnodup : (ss.map fun s => s.2.mMember).Nodup)
    (hkeys : ∀ s ∈ ss, ∀ e ∈ entries s, e.1 = s.2.mMember) {s : Slot} (hs : s ∈ ss) :
    (ss.map entries).flatten.lookup s.2.mMember = (entries s).lookup s.2.mMember := by
  refine lookup_flatten_alone (hnodup.of_map _) hs fun t ht hne e he heq => hne ?_
  exact List.inj_on_of_nodup_map hnodup ht hs ((hkeys t ht e he).symm.trans heq)

theorem foldlM_restores {step : Fields → Slot → Run Fields} (ok : Slot → Prop) {ss : List Slot}
    (hnodup : (ss.map key).Nodup)
    (hstep : ∀ s ∈ ss, ∀ f, Slots.get f s = Slots.get fresh s →
      (ok s → step f s = .ok (Slots.set f s (Slots.get v s))) ∧ ∀ g, step f s = .ok g → ok s)
    {f : Fields} (hf : ∀ s ∈ ss, Slots.get f s = Slots.get fresh s) :
    ((∀ s ∈ ss, ok s) → ss.foldlM step f = .ok (setAll v ss f)) ∧
      ∀ g, ss.foldlM step f = .ok g → ∀ s ∈ ss, ok s := by
  induction ss generalizing f with
  | nil => exact ⟨fun _ => rfl, by simp⟩
  | cons s ss ih =>
      rw [List.map_cons, List.nodup_cons] at hnodup
      rw [List.forall_mem_cons] at hstep hf
      obtain ⟨hforth, hback⟩ := hstep.1 f hf.1
      have hf' : ∀ t ∈ ss, Slots.get (Slots.set f s (Slots.get v s)) t = Slots.get fresh t := by
        intro t ht
        rw [get_set_of_ne]
        · exact hf.2 t ht
        · exact fun heq => hnodup.1 (heq ▸ List.mem_map_of_mem ht)
      obtain ⟨hforths, hbacks⟩ := ih hnodup.2 hstep.2 hf'
      rw [List.foldlM_cons]
      refine ⟨fun hok => ?_, fun g hg => ?_⟩
      · rw [List.forall_mem_cons] at hok
        rw [hforth hok.1, ok_bind, hforths hok.2]
        rfl
      · obtain ⟨f', hf', hg⟩ := bind_eq_ok.mp hg
        have hok := hback f' hf'
        rw [hforth hok] at hf'
        obtain rfl := Except.ok.inj hf'
        exact List.forall_mem_cons.mpr ⟨hok, hbacks g hg⟩

/-- Blocks that each restore their own member write a document from which the object is
restored. -/
theorem chain_restores {n k : Nat} (hnames : ((slots chain).map fun s => s.2.mMember).Nodup)
    (hkeys : ((slots chain).map key).Nodup)
    (hslots : ∀ s ∈ slots chain, SlotRestores b n k v fresh s)
    (hundeclared : ∀ l m, (∀ s ∈ slots chain, (l, m) ≠ key s) → fresh l m = v l m) :
    ∃ doc, serializeChain b (serializeTo b k) v chain = .ok doc ∧
      ((∀ s ∈ slots chain, Readable b n s.2 (Slots.get v s)) →
        deserializeChain b (deserializeFrom b k) (.object doc) fresh chain = .ok v) ∧
      ∀ g, deserializeChain b (deserializeFrom b k) (.object doc) fresh chain = .ok g →
        ∀ s ∈ slots chain, Readable b n s.2 (Slots.get v s) := by
  have hwrites : ∀ s ∈ slots chain, ∃ ms,
      serializeItem b (serializeTo b k) (v (level s.1)) s.2 = .ok ms := by
    intro s hs
    obtain ⟨ms, hms, _⟩ := hslots s hs
    exact ⟨ms, hms⟩
  choose! entries hentries using hwrites
  have hnamed : ∀ s ∈ slots chain, ∀ e ∈ entries s, e.1 = s.2.mMember := by
    intro s hs
    obtain ⟨ms, hms, hm, _⟩ := hslots s hs
    rw [hentries s hs] at hms
    rwa [Except.ok.inj hms]
  refine ⟨((slots chain).map entries).flatten, ?_, ?_⟩
  · rw [serializeChain_eq_slots, mapM_ok hentries, ok_bind]
  · rw [deserializeChain_eq_slots]
    have hstep : ∀ s ∈ slots chain, ∀ f, Slots.get f s = Slots.get fresh s →
        (Readable b n s.2 (Slots.get v s) → deserializeItem b (deserializeFrom b k) s.1
          (.object ((slots chain).map entries).flatten) f s.2 =
            .ok (Slots.set f s (Slots.get v s))) ∧
        ∀ g, deserializeItem b (deserializeFrom b k) s.1
          (.object ((slots chain).map entries).flatten) f s.2 = .ok g →
            Readable b n s.2 (Slots.get v s) := by
      intro s hs f hf
      obtain ⟨ms, hms, _, hdoc⟩ := hslots s hs
      have hlookup := lookup_flatten hnames hnamed hs
      rw [hentries s hs] at hms
      rw [Except.ok.inj hms] at hlookup
      exact hdoc _ f hlookup hf
    have hrun := foldlM_restores (fun s => Readable b n s.2 (Slots.get v s)) hkeys hstep
      fun _ _ => rfl
    rwa [setAll_eq hundeclared] at hrun

theorem ownItems_nodup (h : ((slots chain).map fun s => memberName s.2).Nodup) :
    ∀ o ∈ chain, ((ownItems o).map memberName).Nodup := by
  induction chain with
  | nil => simp
  | cons o bases ih =>
      rw [slots, List.map_append, List.map_map, List.nodup_append] at h
      exact List.forall_mem_cons.mpr ⟨h.2.1, ih h.1⟩

theorem not_restated {s : Slot}
    (h : ∀ o ∈ chain, ∀ i ∈ restatedItems o, memberName i ≠ memberName s.2) :
    ¬ Restated chain s := by
  induction chain with
  | nil => exact id
  | cons o bases ih =>
      rw [List.forall_mem_cons] at h
      rintro (hr | ⟨_, i, hi, l, t, _, hkey⟩)
      · exact ih h.2 hr
      · exact h.1 i hi (congrArg Prod.snd hkey).symm

theorem fresh_values {call : Text → Option Fields}
    (hchain : SupportedChain b classes chain) (hfresh : constructChain b call chain = some fresh) :
    (∀ l m, (∀ s ∈ slots chain, (l, m) ≠ key s) → fresh l m = .empty) ∧
      ∀ s ∈ slots chain, (s.2.mIsArray = true → Slots.get fresh s = .vec []) ∧
        (s.2.mIsOptional = .optional → s.2.mIsArray = false → Slots.get fresh s = .empty) := by
  have hname : ∀ s ∈ slots chain, memberName s.2 = s.2.mMember := fun s hs =>
    memberName_of_noMap (hchain.noMap s hs)
  have hnames : ((slots chain).map fun s => memberName s.2).Nodup := by
    rw [List.map_congr_left hname]
    exact hchain.names
  have hnodup := ownItems_nodup hnames
  obtain ⟨hundeclared, hslots⟩ := constructChain_spec hfresh hnodup
  refine ⟨hundeclared, fun s hs => ⟨fun ha => ?_, fun hopt ha => ?_⟩⟩
  · have h := hslots s hs (not_restated_of_array hfresh hnodup hs ha)
    rw [initialValue, if_pos ha, hchain.noMap s hs] at h
    exact (Option.some.inj h).symm
  · obtain ⟨hdefault, hrestated⟩ := hchain.noDefault s hs hopt
    have h := hslots s hs (not_restated hrestated)
    have hpointer := hchain.noPointer s hs
    have hinitial : initialValue b call s.2 = some .empty := by
      cases hchain.items s hs with
      | integer type =>
          obtain ht | ht | ht := type <;> simp [initialValue, ha, hpointer, ht, hdefault, hopt]
      | plain type _ =>
          obtain ht | ht := type <;> simp [initialValue, ha, hpointer, ht, hdefault, hopt]
      | string type _ => simp [initialValue, ha, hpointer, type, hdefault, hopt]
      | enum type henum _ _ => simp [initialValue, ha, hpointer, type, henum, hdefault, hopt]
      | object type cls _ => simp [initialValue, ha, hpointer, type, cls, hdefault, hopt]
    exact Option.some.inj (h.symm.trans hinitial)

end Chain

theorem class_restores {b : Build} {classes : Text → Prop} (hs : Supported b classes) {n k : Nat}
    (hk : n ≤ k) {c : Text} {x : Datum} (hc : classes c) (hx : ClassValue b n c x) :
    Restores (objectValue (serializeTo b k) c) (readObject (deserializeFrom b k) b.fresh c)
      (Everywhere b ArrayNamed n c x) x := by
  induction n generalizing k c x with
  | zero => exact absurd hx id
  | succ n ih =>
      obtain ⟨k, rfl⟩ := Nat.exists_eq_add_of_le' (Nat.lt_of_lt_of_le (Nat.zero_lt_succ n) hk)
      obtain ⟨chain, v, hchain, rfl, hitems, hundeclared⟩ := hx
      obtain ⟨chain', hchain', hsup⟩ := hs.chain c hc
      obtain rfl := Option.some.inj (hchain.symm.trans hchain')
      obtain ⟨fresh, hfresh⟩ := hs.fresh c hc
      obtain ⟨call, hconstruct⟩ := constructChain_of_fresh hchain hfresh
      obtain ⟨hfreshEmpty, hfreshSlots⟩ := fresh_values hsup hconstruct
      have hkeys : ((slots chain).map key).Nodup := nodup_keys (ownItems_nodup (by
        have hname : ∀ s ∈ slots chain, memberName s.2 = s.2.mMember := fun s h =>
          memberName_of_noMap (hsup.noMap s h)
        rw [List.map_congr_left hname]
        exact hsup.names))
      have hslots : ∀ s ∈ slots chain, SlotRestores b n k v fresh s := fun s hs' =>
        slot_restores (hsup.items s hs') (hsup.noMap s hs') (hitems s hs')
          (hfreshSlots s hs').1 (hfreshSlots s hs').2
          fun c x hc hx => ih (by omega) hc hx
      obtain ⟨doc, hdoc, hforth, hback⟩ := chain_restores hsup.names hkeys hslots
        fun l m hne => (hfreshEmpty l m hne).trans (hundeclared l m hne).symm
      have hread : readObject (deserializeFrom b (k + 1)) b.fresh c (.object doc) =
          deserializeChain b (deserializeFrom b k) (.object doc) fresh chain >>=
            fun f => .ok (.object f) := by
        simp only [readObject, hfresh, orHalt_some, ok_bind, deserializeFrom, hchain]
      refine ⟨.object doc, ?_, fun hP => ?_, fun w hw => ?_⟩
      · simp [objectValue, serializeTo, hchain, hdoc]
      · rw [hread, hforth ((everywhere_object hchain).mp hP), ok_bind]
      · rw [hread] at hw
        obtain ⟨g, hg, _⟩ := bind_eq_ok.mp hw
        exact (everywhere_object hchain).mpr (hback g hg)

end SchemaCodeGen.RoundTrip
