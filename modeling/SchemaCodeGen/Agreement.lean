import SchemaCodeGen.Equality
import SchemaCodeGen.EnumMembers
import SchemaCodeGen.Optionals

namespace SchemaCodeGen.Agreement

open CString Json Schema Emit EnumTable Fallible Generated Slots Values RoundTrip EnumMembers

section Domain

variable (b : Build)

def LeafOf : StandardType → Datum → Prop
  | .boolType, .bool _ => True
  | .stringType, .str s => NulFree s
  | type, .int n => isNumeric type = true ∧ convert type n = n
  | _, _ => False

def ElementOf (call : Text → Datum → Prop) (i : MemberVariable) (d : Datum) : Prop :=
  if getStandardType i.mType ≠ .none then LeafOf (getStandardType i.mType) d
  else if b.classEnum i.mType = some true then ∃ n, d = .enum n ∧ Listed b i.mType n
  else call i.mType d

def MemberOf (call : Text → Datum → Prop) (i : MemberVariable) (d : Datum) : Prop :=
  if i.mIsArray then ∃ l, d = .vec l ∧ ∀ x ∈ l, ElementOf b call i x
  else (i.mIsOptional = .optional ∧ d = .empty) ∨ ElementOf b call i d

/-- The values of a class whose objects nest to a depth below `n`. -/
def ObjectOf : Nat → Text → Datum → Prop
  | 0, _, _ => False
  | n + 1, c, x =>
      ∃ chain f, b.chain c = some chain ∧ x = .object f ∧
        (∀ s ∈ slots chain, MemberOf b (ObjectOf n) s.2 (Slots.get f s)) ∧
        ∀ l m, (∀ s ∈ slots chain, (l, m) ≠ key s) → f l m = .empty

/-- The members that are compared: integers, bools, strings, enums and objects, and arrays of
integers and of objects. -/
inductive Comparable (classes : Text → Prop) (i : MemberVariable) : Prop
  | integer (type : getStandardType i.mType ≠ .none) (numeric : isNumeric (getStandardType i.mType))
  | leaf (type : getStandardType i.mType = .boolType ∨ getStandardType i.mType = .stringType)
      (noArray : i.mIsArray = false)
  | enum (type : getStandardType i.mType = .none) (enum : b.classEnum i.mType = some true)
      (distinct : ∀ e, b.enumType i.mType = some e → Distinct b.constant e)
      (noArray : i.mIsArray = false)
  | object (type : getStandardType i.mType = .none) (cls : b.classEnum i.mType = some false)
      (mem : classes i.mType)

structure ComparableChain (classes : Text → Prop) (chain : List Object) : Prop where
  names : ((slots chain).map fun s => s.2.mMember).Nodup
  noMap : ∀ s ∈ slots chain, s.2.mIsMap = false
  noPointer : ∀ s ∈ slots chain, s.2.mIsPointer = false
  items : ∀ s ∈ slots chain, Comparable b classes s.2

/-- The classes of a schema, with all classes of their members among them. -/
def ComparableSchema (classes : Text → Prop) : Prop :=
  ∀ c, classes c → ∃ chain, b.chain c = some chain ∧ ComparableChain b classes chain

/-- The generated equality is that of the documents, and an equivalence that compares every
member of the class and its bases. -/
structure EqualityAgrees (n k : Nat) (c : Text) : Prop where
  decided : ∀ x y, ObjectOf b n c x → ObjectOf b n c y →
    ∃ r, equalTo b k c x y = .ok r ∧ notEqualTo b k c x y = .ok (!r)
  written : ∀ x, ObjectOf b n c x → ∃ doc, serializeTo b k c x = .ok doc
  document : ∀ x y, ObjectOf b n c x → ObjectOf b n c y →
    (equalTo b k c x y = .ok true ↔ serializeTo b k c x = serializeTo b k c y)
  equivalence : Equivalence fun x y : { x // ObjectOf b n c x } => equalTo b k c x y = .ok true
  members : ∀ chain f g, b.chain c = some chain → ObjectOf b n c (.object f) →
    ObjectOf b n c (.object g) → (equalTo b k c (.object f) (.object g) = .ok true ↔
      ∀ s ∈ slots chain, Slots.get f s = Slots.get g s)

def Named (i : MemberVariable) (_ : Datum) : Prop :=
  memberName i ≠ "other".toList ∧ memberName i ≠ "equal".toList

end Domain

variable {b : Build} {classes : Text → Prop} {n k : Nat} {i : MemberVariable}

section Faithful

def Faithful {α β : Type} (V : α → Prop) (write : α → Run β) : Prop :=
  (∀ x, V x → ∃ j, write x = .ok j) ∧ ∀ x y, V x → V y → write x = write y → x = y

theorem Faithful.mono {α β : Type} {V V' : α → Prop} {write : α → Run β} (h : Faithful V write)
    (hV : ∀ x, V' x → V x) : Faithful V' write :=
  ⟨fun x hx => h.1 x (hV x hx), fun x y hx hy => h.2 x y (hV x hx) (hV y hy)⟩

theorem faithful_mapM {α β : Type} {V : α → Prop} {write : α → Run β} (h : Faithful V write) :
    Faithful (fun l : List α => ∀ x ∈ l, V x) fun l => l.mapM write := by
  have hwritten : ∀ l : List α, (∀ x ∈ l, V x) → ∃ js, l.mapM write = .ok js := by
    intro l hl
    induction l with
    | nil => exact ⟨[], rfl⟩
    | cons x l ih =>
        rw [List.forall_mem_cons] at hl
        obtain ⟨j, hj⟩ := h.1 x hl.1
        obtain ⟨js, hjs⟩ := ih hl.2
        exact ⟨j :: js, by simp [hj, hjs]⟩
  refine ⟨hwritten, fun l => ?_⟩
  induction l with
  | nil =>
      intro l' _ hl' heq
      cases l' with
      | nil => rfl
      | cons y l' =>
          rw [List.forall_mem_cons] at hl'
          obtain ⟨j, hj⟩ := h.1 y hl'.1
          obtain ⟨js, hjs⟩ := hwritten l' hl'.2
          simp [hj, hjs] at heq
  | cons x l ih =>
      intro l' hl hl' heq
      rw [List.forall_mem_cons] at hl
      obtain ⟨j, hj⟩ := h.1 x hl.1
      obtain ⟨js, hjs⟩ := hwritten l hl.2
      cases l' with
      | nil => simp [hj, hjs] at heq
      | cons y l' =>
          rw [List.forall_mem_cons] at hl'
          obtain ⟨j', hj'⟩ := h.1 y hl'.1
          obtain ⟨js', hjs'⟩ := hwritten l' hl'.2
          have hcons : j = j' ∧ js = js' := by simpa [hj, hjs, hj', hjs'] using heq
          obtain ⟨rfl, rfl⟩ := hcons
          rw [h.2 x y hl.1 hl'.1 (hj.trans hj'.symm), ih l' hl.2 hl'.2 (hjs.trans hjs'.symm)]

theorem rawValue_faithful : Faithful (fun d => (∃ n, d = .int n) ∨ ∃ p, d = .bool p) rawValue := by
  refine ⟨?_, ?_⟩
  · rintro x (⟨n, rfl⟩ | ⟨p, rfl⟩)
    · exact ⟨_, rfl⟩
    · exact ⟨_, rfl⟩
  · rintro x y (⟨n, rfl⟩ | ⟨p, rfl⟩) (⟨m, rfl⟩ | ⟨q, rfl⟩) h <;> simp_all [rawValue]

theorem stringValue_faithful : Faithful (fun d => ∃ s, d = .str s ∧ NulFree s) stringValue := by
  refine ⟨?_, ?_⟩
  · rintro x ⟨s, rfl, _⟩
    exact ⟨_, rfl⟩
  · rintro x y ⟨s, rfl, hs⟩ ⟨t, rfl, ht⟩ h
    simpa [stringValue, cstr_of_nulFree hs, cstr_of_nulFree ht] using h

theorem enumInteger_faithful : Faithful (fun d => ∃ n, d = .enum n) enumInteger := by
  refine ⟨?_, ?_⟩
  · rintro x ⟨n, rfl⟩
    exact ⟨_, rfl⟩
  · rintro x y ⟨n, rfl⟩ ⟨m, rfl⟩ h
    simpa [enumInteger] using h

theorem enumName_faithful {type : Text}
    (hdistinct : ∀ e, b.enumType type = some e → Distinct b.constant e) :
    Faithful (fun d => ∃ n, d = .enum n ∧ Listed b type n) (enumName b type) := by
  have hname : ∀ n, Listed b type n → ∃ e t, b.enumType type = some e ∧
      stringifyEnum b.constant e n = some t ∧ enumName b type (.enum n) = .ok (.string t) := by
    rintro n ⟨e, he, hs⟩
    obtain ⟨t, ht⟩ := Option.isSome_iff_exists.mp hs
    exact ⟨e, t, he, ht, by simp [enumName, he, ht]⟩
  refine ⟨?_, ?_⟩
  · rintro x ⟨n, rfl, hn⟩
    obtain ⟨_, t, _, _, ht⟩ := hname n hn
    exact ⟨_, ht⟩
  · rintro x y ⟨n, rfl, hn⟩ ⟨m, rfl, hm⟩ h
    obtain ⟨e, t, he, ht, hn⟩ := hname n hn
    obtain ⟨e', t', he', ht', hm⟩ := hname m hm
    obtain rfl := Option.some.inj (he.symm.trans he')
    obtain rfl : t = t' := by simpa [hn, hm] using h
    have hback := unstringifyEnum_stringifyEnum (hdistinct e he) ht
    rw [Option.some.inj (hback.symm.trans (unstringifyEnum_stringifyEnum (hdistinct e he) ht'))]

end Faithful

section Serialize

def writeElement (b : Build) (call : Text → Datum → Run Members) (i : MemberVariable) :
    Datum → Run Value :=
  if isStandardType i.mType then rawValue
  else if i.mType = "string".toList then stringValue
  else if b.classEnum i.mType = some false then objectValue call i.mType
  else if i.mSerializeEnumAsInteger then enumInteger
  else enumName b i.mType

variable {call : Text → Datum → Run Members}

theorem writeElement_raw (h : isStandardType i.mType = true) :
    writeElement b call i = rawValue := if_pos h

theorem writeElement_string (h : getStandardType i.mType = .stringType) :
    writeElement b call i = stringValue := by
  rw [writeElement, if_neg (by simp [isStandardType, h]), if_pos (getStandardType_eq_string h)]

theorem writeElement_enum (h : getStandardType i.mType = .none)
    (henum : b.classEnum i.mType = some true) :
    writeElement b call i =
      if i.mSerializeEnumAsInteger then enumInteger else enumName b i.mType := by
  rw [writeElement, if_neg (by simp [isStandardType, h]), if_neg (not_string_of_none h), henum,
    if_neg (by simp)]

theorem writeElement_object (h : getStandardType i.mType = .none)
    (hclass : b.classEnum i.mType = some false) :
    writeElement b call i = objectValue call i.mType := by
  rw [writeElement, if_neg (by simp [isStandardType, h]), if_neg (not_string_of_none h),
    if_pos hclass]

theorem standard_of_numeric (h : getStandardType i.mType ≠ .none)
    (hnum : isNumeric (getStandardType i.mType) = true) :
    isStandardType i.mType = true ∧ getStandardType i.mType ≠ .boolType := by
  have hstring : getStandardType i.mType ≠ .stringType := by
    intro hs
    rw [hs] at hnum
    exact absurd hnum (by decide)
  refine ⟨by simp [isStandardType, h, hstring], fun hb => ?_⟩
  rw [hb] at hnum
  exact absurd hnum (by decide)

theorem serializeItem_eq (hi : Comparable b classes i) (hm : i.mIsMap = false)
    (own : Text → Datum) :
    serializeItem b call own i =
      if i.mIsArray then addArray i.mMember (own i.mMember) (writeElement b call i)
      else addMember i.mMember (i.mIsOptional = .optional) (own i.mMember)
        (writeElement b call i) := by
  rw [serializeItem]
  cases hi with
  | integer type numeric =>
      obtain ⟨hstd, hbool⟩ := standard_of_numeric type numeric
      rw [writeElement_raw hstd]
      cases ha : i.mIsArray <;> simp [serializeStmt, hstd, hm, ha, hbool, runSerialize]
  | leaf type noArray =>
      obtain type | type := type
      · have hstd : isStandardType i.mType = true := by simp [isStandardType, type]
        rw [writeElement_raw hstd]
        simp [serializeStmt, hstd, noArray, runSerialize]
      · rw [(statements_string b.classEnum [] type hm noArray).1, if_neg (by simp [noArray]),
          writeElement_string type]
        rfl
  | enum type enum _ noArray =>
      rw [(statements_enum b.classEnum [] type enum noArray).1, if_neg (by simp [noArray]),
        writeElement_enum type enum]
      rfl
  | object type cls mem =>
      rw [(statements_object b.classEnum [] type cls hm).1, writeElement_object type cls]
      cases ha : i.mIsArray <;> rfl

/-- What the callee has to do: write every object, and different objects differently. -/
def CallFaithful (b : Build) (classes : Text → Prop) (n : Nat)
    (call : Text → Datum → Run Members) : Prop :=
  ∀ c, classes c → Faithful (ObjectOf b n c) (call c)

section Shapes

variable {x : Datum} {V : Text → Datum → Prop}

theorem elementOf_integer (h : getStandardType i.mType ≠ .none)
    (hnum : isNumeric (getStandardType i.mType) = true) (hx : ElementOf b V i x) :
    ∃ m, x = .int m := by
  rw [ElementOf, if_pos h] at hx
  cases x with
  | int m => exact ⟨m, rfl⟩
  | _ => cases ht : getStandardType i.mType <;> simp_all [LeafOf, isNumeric, deserializeTypeName]

theorem elementOf_bool (h : getStandardType i.mType = .boolType) (hx : ElementOf b V i x) :
    ∃ p, x = .bool p := by
  rw [ElementOf, if_pos (by simp [h]), h] at hx
  cases x with
  | bool p => exact ⟨p, rfl⟩
  | int m => exact absurd hx.1 (by decide)
  | _ => exact absurd hx id

theorem elementOf_string (h : getStandardType i.mType = .stringType) (hx : ElementOf b V i x) :
    ∃ s, x = .str s ∧ NulFree s := by
  rw [ElementOf, if_pos (by simp [h]), h] at hx
  cases x with
  | str s => exact ⟨s, rfl, hx⟩
  | int m => exact absurd hx.1 (by decide)
  | _ => exact absurd hx id

theorem elementOf_enum (h : getStandardType i.mType = .none)
    (henum : b.classEnum i.mType = some true) (hx : ElementOf b V i x) :
    ∃ m, x = .enum m ∧ Listed b i.mType m := by
  rwa [ElementOf, if_neg (by simp [h]), if_pos henum] at hx

theorem elementOf_object (h : getStandardType i.mType = .none)
    (hclass : b.classEnum i.mType = some false) : ElementOf b V i x ↔ V i.mType x := by
  rw [ElementOf, if_neg (by simp [h]), if_neg (by simp [hclass])]

theorem memberOf_array (ha : i.mIsArray = true) :
    MemberOf b V i = fun d => ∃ l, d = .vec l ∧ ∀ x ∈ l, ElementOf b V i x := by
  funext d
  rw [MemberOf, if_pos ha]

theorem memberOf_single (ha : i.mIsArray = false) :
    MemberOf b V i = fun d => (i.mIsOptional = .optional ∧ d = .empty) ∨ ElementOf b V i d := by
  funext d
  rw [MemberOf, if_neg (by simp [ha])]

theorem objectOf_object {c : Text} (h : ObjectOf b n c x) : ∃ f, x = .object f := by
  cases n with
  | zero => exact absurd h id
  | succ n =>
      obtain ⟨_, f, _, rfl, _⟩ := h
      exact ⟨f, rfl⟩

def Single : Datum → Prop
  | .empty | .vec _ | .map _ => False
  | _ => True

theorem Single.ne_empty (h : Single x) : x ≠ .empty := by
  rintro rfl
  exact h

theorem Single.held_eq (h : Single x) : held x = [x] := by
  cases x <;> first | rfl | exact absurd h id

theorem elementOf_single (hi : Comparable b classes i) (hx : ElementOf b (ObjectOf b n) i x) :
    Single x := by
  cases hi with
  | integer type numeric =>
      obtain ⟨m, rfl⟩ := elementOf_integer type numeric hx
      trivial
  | leaf type _ =>
      obtain type | type := type
      · obtain ⟨p, rfl⟩ := elementOf_bool type hx
        trivial
      · obtain ⟨s, rfl, _⟩ := elementOf_string type hx
        trivial
  | enum type enum _ _ =>
      obtain ⟨m, rfl, _⟩ := elementOf_enum type enum hx
      trivial
  | object type cls _ =>
      obtain ⟨f, rfl⟩ := objectOf_object ((elementOf_object type cls).mp hx)
      trivial

end Shapes

theorem writeElement_faithful (hi : Comparable b classes i)
    (hcall : CallFaithful b classes n call) :
    Faithful (ElementOf b (ObjectOf b n) i) (writeElement b call i) := by
  cases hi with
  | integer type numeric =>
      rw [writeElement_raw (standard_of_numeric type numeric).1]
      exact rawValue_faithful.mono fun x hx => Or.inl (elementOf_integer type numeric hx)
  | leaf type _ =>
      obtain type | type := type
      · rw [writeElement_raw (by simp [isStandardType, type])]
        exact rawValue_faithful.mono fun x hx => Or.inr (elementOf_bool type hx)
      · rw [writeElement_string type]
        exact stringValue_faithful.mono fun x hx => elementOf_string type hx
  | enum type enum distinct _ =>
      rw [writeElement_enum type enum]
      split_ifs
      · exact enumInteger_faithful.mono fun x hx =>
          (elementOf_enum type enum hx).imp fun _ h => h.1
      · exact (enumName_faithful distinct).mono fun x hx => elementOf_enum type enum hx
  | object type cls mem =>
      rw [writeElement_object type cls]
      obtain ⟨hwritten, hinj⟩ := hcall i.mType mem
      refine ⟨fun x hx => ?_, fun x y hx hy h => ?_⟩
      · obtain ⟨ms, hms⟩ := hwritten x ((elementOf_object type cls).mp hx)
        exact ⟨.object ms, by simp [objectValue, hms]⟩
      · rw [elementOf_object type cls] at hx hy
        obtain ⟨ms, hms⟩ := hwritten x hx
        obtain ⟨ms', hms'⟩ := hwritten y hy
        apply hinj x y hx hy
        simpa [objectValue, hms, hms'] using h

/-- Every value of a member is written, and different values differently. -/
theorem member_faithful (hi : Comparable b classes i) (hm : i.mIsMap = false)
    (hcall : CallFaithful b classes n call) :
    Faithful (MemberOf b (ObjectOf b n) i) fun d => serializeItem b call (fun _ => d) i := by
  have helement := writeElement_faithful hi hcall
  have hlist := faithful_mapM helement
  simp only [serializeItem_eq hi hm]
  cases ha : i.mIsArray with
  | true =>
      simp only [memberOf_array ha, if_true]
      refine ⟨?_, ?_⟩
      · rintro x ⟨l, rfl, hl⟩
        obtain ⟨js, hjs⟩ := hlist.1 l hl
        exact ⟨[(i.mMember, .array js)], by simp [addArray, items, hjs]⟩
      · rintro x y ⟨l, rfl, hl⟩ ⟨l', rfl, hl'⟩ h
        obtain ⟨js, hjs⟩ := hlist.1 l hl
        obtain ⟨js', hjs'⟩ := hlist.1 l' hl'
        rw [hlist.2 l l' hl hl']
        simpa [addArray, items, hjs, hjs'] using h
  | false =>
      simp only [memberOf_single ha, Bool.false_eq_true, if_false]
      have hadd : ∀ x, ElementOf b (ObjectOf b n) i x → ∃ j, writeElement b call i x = .ok j ∧
          addMember i.mMember (i.mIsOptional = .optional) x (writeElement b call i) =
            .ok [(i.mMember, j)] := by
        intro x hx
        obtain ⟨j, hj⟩ := helement.1 x hx
        have hne := (elementOf_single hi hx).ne_empty
        refine ⟨j, hj, ?_⟩
        cases x with
        | empty => exact absurd rfl hne
        | _ => simp [addMember, hj]
      have hnone : i.mIsOptional = .optional →
          addMember i.mMember (i.mIsOptional = .optional) .empty (writeElement b call i) = .ok [] := by
        intro hopt
        simp [addMember, hopt]
      refine ⟨?_, ?_⟩
      · rintro x (⟨hopt, rfl⟩ | hx)
        · exact ⟨[], hnone hopt⟩
        · obtain ⟨j, _, hx⟩ := hadd x hx
          exact ⟨_, hx⟩
      · intro x y hx hy h
        dsimp only at h
        rcases hx with ⟨hopt, rfl⟩ | hx <;> rcases hy with ⟨hopt', rfl⟩ | hy
        · rfl
        · obtain ⟨j, _, hj⟩ := hadd y hy
          rw [hnone hopt, hj] at h
          exact absurd h (by simp)
        · obtain ⟨j, _, hj⟩ := hadd x hx
          rw [hnone hopt', hj] at h
          exact absurd h (by simp)
        · obtain ⟨j, hw, hj⟩ := hadd x hx
          obtain ⟨j', hw', hj'⟩ := hadd y hy
          apply helement.2 x y hx hy
          rw [hj, hj'] at h
          rw [hw, hw']
          simpa using h

theorem object_eq_iff {chain : List Object} {f g : Fields}
    (hf : ∀ l m, (∀ s ∈ slots chain, (l, m) ≠ key s) → f l m = .empty)
    (hg : ∀ l m, (∀ s ∈ slots chain, (l, m) ≠ key s) → g l m = .empty) :
    Datum.object f = .object g ↔ ∀ s ∈ slots chain, Slots.get f s = Slots.get g s := by
  constructor
  · intro h
    obtain rfl := Datum.object.inj h
    exact fun _ _ => rfl
  · intro h
    congr 1
    funext l m
    by_cases hdeclared : ∃ s ∈ slots chain, (l, m) = key s
    · obtain ⟨s, hs, hkey⟩ := hdeclared
      obtain ⟨rfl, rfl⟩ := Prod.mk.inj hkey
      exact h s hs
    · push Not at hdeclared
      rw [hf l m hdeclared, hg l m hdeclared]

theorem entries_single {own : Text → Datum} {ms : Members} (hm : i.mIsMap = false)
    (h : serializeItem b call own i = .ok ms) : ms = [] ∨ ∃ j, ms = [(i.mMember, j)] := by
  have hkeys := Optionals.serializeItem_keys (by simp [hm]) h
  have hshape : ms.map Prod.fst = [] ∨ ms.map Prod.fst = [i.mMember] := by
    rw [hkeys, Optionals.writtenKeys, if_neg (by simp [hm])]
    split_ifs
    · exact Or.inr rfl
    · cases own (memberName i) with
      | empty => cases i.mIsOptional <;> simp [Optionals.scalarKeys]
      | _ => exact Or.inr rfl
  obtain hnil | hone := hshape
  · exact Or.inl (List.map_eq_nil_iff.mp hnil)
  · obtain ⟨e, rfl, he⟩ := List.map_eq_singleton_iff.mp hone
    exact Or.inr ⟨e.2, by rw [← he]⟩

theorem entries_eq_of_lookup {m : Text} {ms ms' : Members} (h : ms = [] ∨ ∃ j, ms = [(m, j)])
    (h' : ms' = [] ∨ ∃ j, ms' = [(m, j)]) (hl : ms.lookup m = ms'.lookup m) : ms = ms' := by
  obtain rfl | ⟨j, rfl⟩ := h <;> obtain rfl | ⟨j', rfl⟩ := h' <;> simp_all

theorem entries_named {own : Text → Datum} {ms : Members} (hm : i.mIsMap = false)
    (h : serializeItem b call own i = .ok ms) : ∀ e ∈ ms, e.1 = i.mMember := by
  obtain rfl | ⟨j, rfl⟩ := entries_single hm h
  · simp
  · simp

/-- In documents that are the same each member wrote the same, since what it wrote is found under
its name. -/
theorem entries_eq_of_document {c : Text} {chain : List Object} {k : Nat} {f g : Fields}
    {doc : Members} {s : Slot} (hchain : b.chain c = some chain) (hcomp : ComparableChain b classes chain)
    (hf : serializeTo b (k + 1) c (.object f) = .ok doc)
    (hg : serializeTo b (k + 1) c (.object g) = .ok doc) (hs : s ∈ slots chain) :
    serializeItem b (serializeTo b k) (f (level s.1)) s.2 =
      serializeItem b (serializeTo b k) (g (level s.1)) s.2 := by
  obtain ⟨entries, hentries, hdoc⟩ := (serializeTo_eq_ok hchain).mp hf
  obtain ⟨entries', hentries', hdoc'⟩ := (serializeTo_eq_ok hchain).mp hg
  have hlookup := lookup_flatten hcomp.names
    (fun s hs => entries_named (hcomp.noMap s hs) (hentries s hs)) hs
  have hlookup' := lookup_flatten hcomp.names
    (fun s hs => entries_named (hcomp.noMap s hs) (hentries' s hs)) hs
  rw [hdoc, ← hdoc', hlookup'] at hlookup
  rw [hentries s hs, hentries' s hs, entries_eq_of_lookup
    (entries_single (hcomp.noMap s hs) (hentries s hs))
    (entries_single (hcomp.noMap s hs) (hentries' s hs)) hlookup.symm]

/-- Objects are written member by member, and what a member wrote is found under its name. -/
theorem serializeTo_faithful (hs : ComparableSchema b classes) (hk : n ≤ k) :
    CallFaithful b classes n (serializeTo b k) := by
  induction n generalizing k with
  | zero => exact fun c _ => ⟨fun x hx => absurd hx id, fun x y hx => absurd hx id⟩
  | succ n ih =>
      intro c hc
      obtain ⟨k, rfl⟩ := Nat.exists_eq_add_of_le' (Nat.lt_of_lt_of_le (Nat.zero_lt_succ n) hk)
      obtain ⟨chain, hchain, hcomp⟩ := hs c hc
      have hitem : ∀ s ∈ slots chain, Faithful (MemberOf b (ObjectOf b n) s.2)
          fun d => serializeItem b (serializeTo b k) (fun _ => d) s.2 := fun s hs' =>
        member_faithful (hcomp.items s hs') (hcomp.noMap s hs') (ih (by omega))
      have hown : ∀ f, ∀ s ∈ slots chain, serializeItem b (serializeTo b k) (f (level s.1)) s.2 =
          serializeItem b (serializeTo b k) (fun _ => Slots.get f s) s.2 := by
        intro f s hs'
        have hname : memberName s.2 = s.2.mMember := memberName_of_noMap (hcomp.noMap s hs')
        rw [serializeItem_eq (hcomp.items s hs') (hcomp.noMap s hs'),
          serializeItem_eq (hcomp.items s hs') (hcomp.noMap s hs'), Slots.get, hname]
      have hwritten : ∀ f, (∀ s ∈ slots chain, MemberOf b (ObjectOf b n) s.2 (Slots.get f s)) →
          ∃ doc, serializeTo b (k + 1) c (.object f) = .ok doc := by
        intro f hf
        have hwrites : ∀ s ∈ slots chain, ∃ ms,
            serializeItem b (serializeTo b k) (f (level s.1)) s.2 = .ok ms := by
          intro s hs'
          rw [hown f s hs']
          exact (hitem s hs').1 _ (hf s hs')
        choose! entries hentries using hwrites
        exact ⟨_, (serializeTo_eq_ok hchain).mpr ⟨entries, hentries, rfl⟩⟩
      refine ⟨?_, ?_⟩
      · rintro x ⟨chain', f, hchain', rfl, hf, _⟩
        obtain rfl := Option.some.inj (hchain.symm.trans hchain')
        exact hwritten f hf
      · rintro x y ⟨chain', f, hchain', rfl, hf, hf'⟩ ⟨chain'', g, hchain'', rfl, hg, hg'⟩ h
        obtain rfl := Option.some.inj (hchain.symm.trans hchain')
        obtain rfl := Option.some.inj (hchain.symm.trans hchain'')
        obtain ⟨doc, hdoc⟩ := hwritten f hf
        refine (object_eq_iff hf' hg').mpr fun s hs' => (hitem s hs').2 _ _ (hf s hs') (hg s hs') ?_
        have hsame := entries_eq_of_document hchain hcomp hdoc (h.symm.trans hdoc) hs'
        rwa [hown f s hs', hown g s hs'] at hsame

end Serialize

section Compare

/-- The run returns whether `p` holds. -/
def Decides (r : Run Bool) (p : Prop) : Prop := ∃ e, r = .ok e ∧ (e = true ↔ p)

theorem Decides.congr {r : Run Bool} {p q : Prop} (h : Decides r p) (hpq : p ↔ q) : Decides r q :=
  propext hpq ▸ h

theorem Decides.true_iff {r : Run Bool} {p : Prop} (h : Decides r p) : r = .ok true ↔ p := by
  obtain ⟨e, rfl, he⟩ := h
  rw [← he]
  exact ⟨Except.ok.inj, fun h => by rw [h]⟩

theorem decides_beq {α : Type} [BEq α] [LawfulBEq α] {p : Prop} (x y : α) (h : x = y ↔ p) :
    Decides (.ok (x == y)) p :=
  ⟨x == y, rfl, by rw [beq_iff_eq, h]⟩

variable {x y : Datum}

def CallDecides (b : Build) (classes : Text → Prop) (n k : Nat) : Prop :=
  ∀ c x y, classes c → ObjectOf b n c x → ObjectOf b n c y → Everywhere b Named n c x →
    Decides (equalTo b k c x y) (x = y)

theorem compareElement_decides (hi : Comparable b classes i) (ih : CallDecides b classes n k)
    (hx : ElementOf b (ObjectOf b n) i x) (hy : ElementOf b (ObjectOf b n) i y)
    (hnamed : b.isClass i.mType = true → Everywhere b Named n i.mType x) :
    Decides (compareElement b (equalTo b k) i x y) (x = y) := by
  have hleaf : b.isClass i.mType = false →
      compareElement b (equalTo b k) i x y = compareLeaf x y := fun h => by
    simp [compareElement, h]
  cases hi with
  | integer type numeric =>
      obtain ⟨m, rfl⟩ := elementOf_integer type numeric hx
      obtain ⟨m', rfl⟩ := elementOf_integer type numeric hy
      rw [hleaf (isClass_of_standard type)]
      exact decides_beq m m' (by simp)
  | leaf type _ =>
      have hstd : getStandardType i.mType ≠ .none := by obtain h | h := type <;> simp [h]
      rw [hleaf (isClass_of_standard hstd)]
      obtain type | type := type
      · obtain ⟨p, rfl⟩ := elementOf_bool type hx
        obtain ⟨p', rfl⟩ := elementOf_bool type hy
        exact decides_beq p p' (by simp)
      · obtain ⟨s, rfl, _⟩ := elementOf_string type hx
        obtain ⟨s', rfl, _⟩ := elementOf_string type hy
        exact decides_beq s s' (by simp)
  | enum type enum _ _ =>
      obtain ⟨m, rfl, _⟩ := elementOf_enum type enum hx
      obtain ⟨m', rfl, _⟩ := elementOf_enum type enum hy
      rw [hleaf (by simp [Build.isClass, enum])]
      exact decides_beq m m' (by simp)
  | object type cls mem =>
      have hclass : b.isClass i.mType = true := by simp [Build.isClass, type, cls]
      rw [elementOf_object type cls] at hx hy
      rw [compareElement, if_pos hclass]
      exact ih i.mType x y mem hx hy (hnamed hclass)

theorem compareList_decides {compare : Datum → Datum → Run Bool} {l l' : List Datum}
    (h : ∀ x ∈ l, ∀ y ∈ l', Decides (compare x y) (x = y)) :
    Decides (compareList compare l l') (l = l') := by
  induction l generalizing l' with
  | nil =>
      cases l' with
      | nil => exact ⟨true, rfl, by simp⟩
      | cons y l' => exact ⟨false, rfl, by simp⟩
  | cons x l ih =>
      cases l' with
      | nil => exact ⟨false, rfl, by simp⟩
      | cons y l' =>
          obtain ⟨e, he, hxy⟩ := h x List.mem_cons_self y List.mem_cons_self
          have htail := ih fun x hx y hy => h x (List.mem_cons_of_mem _ hx) y
            (List.mem_cons_of_mem _ hy)
          rw [compareList, he, ok_bind]
          cases e with
          | true =>
              obtain ⟨e', he', hl⟩ := htail
              exact ⟨e', he', by rw [hl, hxy.mp rfl, List.cons_eq_cons, and_iff_right rfl]⟩
          | false =>
              have hne : x ≠ y := fun h => absurd (hxy.mpr h) (by simp)
              exact ⟨false, rfl, by simp [hne]⟩

theorem compareMember_single {call : Text → Datum → Datum → Run Bool} (hx : Single x)
    (hy : Single y) : compareMember b call i x y = compareElement b call i x y := by
  cases x <;> cases y <;> first | rfl | exact absurd hx id | exact absurd hy id

theorem compareMember_empty {call : Text → Datum → Datum → Run Bool} (hx : Single x) :
    compareMember b call i x .empty = .ok false ∧ compareMember b call i .empty x = .ok false := by
  cases x <;> first | exact ⟨rfl, rfl⟩ | exact absurd hx id

theorem compareMember_decides (hi : Comparable b classes i) (ih : CallDecides b classes n k)
    (hx : MemberOf b (ObjectOf b n) i x) (hy : MemberOf b (ObjectOf b n) i y)
    (hnamed : b.isClass i.mType = true → ∀ z ∈ held x, Everywhere b Named n i.mType z) :
    Decides (compareMember b (equalTo b k) i x y) (x = y) := by
  cases ha : i.mIsArray with
  | true =>
      rw [memberOf_array ha] at hx hy
      obtain ⟨l, rfl, hl⟩ := hx
      obtain ⟨l', rfl, hl'⟩ := hy
      rw [compareMember]
      split_ifs with hlen
      · refine (compareList_decides fun x hx y hy => ?_).congr (by simp)
        exact compareElement_decides hi ih (hl x hx) (hl' y hy) fun hc => hnamed hc x hx
      · refine ⟨false, rfl, ?_⟩
        simp only [Bool.false_eq_true, Datum.vec.injEq, false_iff]
        exact fun h => hlen (congrArg List.length h)
  | false =>
      rw [memberOf_single ha] at hx hy
      obtain ⟨_, rfl⟩ | hx := hx
      · obtain ⟨_, rfl⟩ | hy := hy
        · exact ⟨true, rfl, by simp⟩
        · have hsingle := elementOf_single hi hy
          exact ⟨false, (compareMember_empty hsingle).2, by simpa using hsingle.ne_empty.symm⟩
      · have hsingle := elementOf_single hi hx
        obtain ⟨_, rfl⟩ | hy := hy
        · exact ⟨false, (compareMember_empty hsingle).1, by simpa using hsingle.ne_empty⟩
        · rw [compareMember_single hsingle (elementOf_single hi hy)]
          exact compareElement_decides hi ih hx hy fun hc => hnamed hc x (by simp [hsingle.held_eq])

theorem equalItem_decides {f g : Text → Datum} {equal : Bool} (hi : Comparable b classes i)
    (ih : CallDecides b classes n k) (hx : MemberOf b (ObjectOf b n) i (f (memberName i)))
    (hy : MemberOf b (ObjectOf b n) i (g (memberName i)))
    (hnamed : Named i (f (memberName i)) ∧ (b.isClass i.mType = true →
      ∀ z ∈ held (f (memberName i)), Everywhere b Named n i.mType z)) :
    Decides (equalItem b (equalTo b k) f g equal i)
      (equal = true ∧ f (memberName i) = g (memberName i)) := by
  rw [equalItem, if_neg hnamed.1.1, if_neg hnamed.1.2]
  obtain ⟨e, he, heq⟩ := compareMember_decides hi ih hx hy hnamed.2
  rw [he, ok_bind]
  exact ⟨equal && e, rfl, by rw [Bool.and_eq_true, heq]⟩

theorem foldlM_decides {α : Type} {step : Bool → α → Run Bool} {P : α → Prop} {l : List α}
    (h : ∀ x ∈ l, ∀ equal, Decides (step equal x) (equal = true ∧ P x)) {equal : Bool} :
    Decides (l.foldlM step equal) (equal = true ∧ ∀ x ∈ l, P x) := by
  induction l generalizing equal with
  | nil => exact ⟨equal, rfl, by simp⟩
  | cons x l ih =>
      rw [List.forall_mem_cons] at h
      obtain ⟨e, he, hx⟩ := h.1 equal
      rw [List.foldlM_cons, he, ok_bind]
      exact (ih h.2).congr (by rw [hx, List.forall_mem_cons, and_assoc])

theorem equalTo_decides (hs : ComparableSchema b classes) (hk : n ≤ k) :
    CallDecides b classes n k := by
  induction n generalizing k with
  | zero => exact fun c x y _ hx => absurd hx id
  | succ n ih =>
      intro c x y hc hx hy hnamed
      obtain ⟨k, rfl⟩ := Nat.exists_eq_add_of_le' (Nat.lt_of_lt_of_le (Nat.zero_lt_succ n) hk)
      obtain ⟨chain, hchain, hcomp⟩ := hs c hc
      obtain ⟨chain', f, hchain', rfl, hf, hf'⟩ := hx
      obtain rfl := Option.some.inj (hchain.symm.trans hchain')
      obtain ⟨chain', g, hchain', rfl, hg, hg'⟩ := hy
      obtain rfl := Option.some.inj (hchain.symm.trans hchain')
      rw [everywhere_object hchain] at hnamed
      have hcall : CallDecides b classes n k := ih (by omega)
      have hstep : ∀ s ∈ slots chain, ∀ equal,
          Decides (equalItem b (equalTo b k) (f (level s.1)) (g (level s.1)) equal s.2)
            (equal = true ∧ Slots.get f s = Slots.get g s) := fun s hs' equal =>
        equalItem_decides (hcomp.items s hs') hcall (hf s hs') (hg s hs') (hnamed s hs')
      rw [equalTo_eq_slots hchain]
      exact (foldlM_decides hstep).congr (by simp [object_eq_iff hf' hg'])

end Compare

section Hidden

open Equality

variable {c : Text} {chain : List Object} {s : Slot} {f : Fields} {x d : Datum}

theorem equalItem_true {call : Text → Datum → Datum → Run Bool} {f g : Text → Datum} {equal : Bool} :
    equalItem b call f g equal i = .ok true ↔ equal = true ∧ equalItem b call f g true i = .ok true := by
  cases equal with
  | true => simp
  | false =>
      simp only [equalItem, Bool.false_eq_true, false_and, iff_false]
      split_ifs
      · simp
      · rw [and_eq_ok]
        simp
      · rw [and_eq_ok]
        simp

theorem equalTo_true {g : Fields} (hchain : b.chain c = some chain) :
    equalTo b (k + 1) c (.object f) (.object g) = .ok true ↔ ∀ s ∈ slots chain,
      equalItem b (equalTo b k) (f (level s.1)) (g (level s.1)) true s.2 = .ok true := by
  have hstep : ∀ s ∈ slots chain, ∀ equal,
      equalItem b (equalTo b k) (f (level s.1)) (g (level s.1)) equal s.2 = .ok true ↔
        equal = true ∧
          equalItem b (equalTo b k) (f (level s.1)) (g (level s.1)) true s.2 = .ok true :=
    fun _ _ _ => equalItem_true
  rw [equalTo_eq_slots hchain, foldlM_true hstep]
  simp

theorem objectOf_set (hcomp : ComparableChain b classes chain) (hchain : b.chain c = some chain)
    (hf : ∀ t ∈ slots chain, MemberOf b (ObjectOf b n) t.2 (Slots.get f t))
    (hundeclared : ∀ l m, (∀ t ∈ slots chain, (l, m) ≠ key t) → f l m = .empty)
    (hs : s ∈ slots chain) (hd : MemberOf b (ObjectOf b n) s.2 d) :
    ObjectOf b (n + 1) c (.object (Slots.set f s d)) := by
  have hkeys : ((slots chain).map key).Nodup := by
    refine nodup_keys (ownItems_nodup ?_)
    have hname : ∀ s ∈ slots chain, memberName s.2 = s.2.mMember := fun s h =>
      memberName_of_noMap (hcomp.noMap s h)
    rw [List.map_congr_left hname]
    exact hcomp.names
  refine ⟨chain, _, hchain, rfl, fun t ht => ?_, fun l m hne => ?_⟩
  · by_cases hk : key t = key s
    · obtain rfl := eq_of_key_eq hkeys ht hs hk
      rwa [get_set_same]
    · rw [get_set_of_ne _ _ hk]
      exact hf t ht
  · exact (Fields.set_of_ne f d (hne s hs)).trans (hundeclared l m hne)

theorem exists_not_one (hi : Comparable b classes i) (hd : MemberOf b (ObjectOf b n) i d) :
    ∃ d', MemberOf b (ObjectOf b n) i d' ∧ ¬ HoldsOne d' := by
  cases ha : i.mIsArray with
  | true =>
      rw [memberOf_array ha] at hd ⊢
      obtain ⟨l, rfl, hl⟩ := hd
      exact ⟨.vec l, ⟨l, rfl, hl⟩, id⟩
  | false =>
      rw [memberOf_single ha] at hd ⊢
      obtain ⟨hopt, rfl⟩ | hd := hd
      · exact ⟨.empty, Or.inl ⟨hopt, rfl⟩, id⟩
      cases hi with
      | integer type numeric =>
          refine ⟨.int 0, Or.inr ?_, by simp [HoldsOne]⟩
          rw [ElementOf, if_pos type]
          cases ht : getStandardType i.mType <;> simp_all [LeafOf, isNumeric, deserializeTypeName, convert]
      | leaf type _ =>
          obtain type | type := type
          · refine ⟨.bool false, Or.inr ?_, by simp [HoldsOne]⟩
            rw [ElementOf, if_pos (by simp [type]), type]
            trivial
          · obtain ⟨t, rfl, _⟩ := elementOf_string type hd
            exact ⟨.str t, Or.inr hd, id⟩
      | enum type enum _ _ =>
          obtain ⟨m, rfl, _⟩ := elementOf_enum type enum hd
          exact ⟨.enum m, Or.inr hd, id⟩
      | object type cls _ =>
          obtain ⟨g, rfl⟩ := objectOf_object ((elementOf_object type cls).mp hd)
          exact ⟨.object g, Or.inr hd, id⟩

/-- The objects in a class member are objects of the class, and any such object can stand alone
in the member. -/
theorem memberOf_object (hclass : b.isClass i.mType = true) (hi : Comparable b classes i)
    (hd : MemberOf b (ObjectOf b n) i d) :
    classes i.mType ∧ (∀ z ∈ held d, ObjectOf b n i.mType z) ∧
      ∀ z, ObjectOf b n i.mType z → ∃ d', MemberOf b (ObjectOf b n) i d' ∧
        (compareMember b (equalTo b k) i d' d' = .ok true → equalTo b k i.mType z z = .ok true) := by
  obtain ⟨htype, hkind⟩ := type_of_isClass hclass
  have hmem : classes i.mType := by
    cases hi with
    | integer type _ => exact absurd htype type
    | leaf type _ => obtain h | h := type <;> simp [h] at htype
    | enum _ enum _ _ => simp [enum] at hkind
    | object _ _ mem => exact mem
  have helement : ∀ z, ElementOf b (ObjectOf b n) i z ↔ ObjectOf b n i.mType z :=
    fun z => elementOf_object htype hkind
  have hcompare : ∀ z, compareElement b (equalTo b k) i z z = equalTo b k i.mType z z := fun z => by
    rw [compareElement, if_pos hclass]
  refine ⟨hmem, ?_⟩
  cases ha : i.mIsArray with
  | true =>
      rw [memberOf_array ha] at hd ⊢
      obtain ⟨l, rfl, hl⟩ := hd
      refine ⟨fun z hz => (helement z).mp (hl z hz), fun z hz => ⟨.vec [z], ⟨[z], rfl, ?_⟩, ?_⟩⟩
      · rwa [List.forall_mem_singleton, helement]
      · rw [compareMember, if_pos rfl, Equality.compareList_self, List.forall_mem_singleton, hcompare]
        exact id
  | false =>
      rw [memberOf_single ha] at hd ⊢
      have hsingle : ∀ z, ObjectOf b n i.mType z → Single z := fun z hz =>
        elementOf_single hi ((helement z).mpr hz)
      refine ⟨fun z hz => ?_, fun z hz => ⟨z, Or.inr ((helement z).mpr hz), ?_⟩⟩
      · obtain ⟨_, rfl⟩ | hd := hd
        · simp [held] at hz
        · rw [helement] at hd
          rw [(hsingle d hd).held_eq, List.mem_singleton] at hz
          rwa [hz]
      · rw [compareMember_single (hsingle z hz) (hsingle z hz), hcompare]
        exact id

/-- An object with a member of a name that the operator takes can be changed so that it is not
equal to itself. -/
theorem exists_unequal (hs : ComparableSchema b classes) (hk : n ≤ k) (hc : classes c)
    (hx : ObjectOf b n c x) (hnamed : ¬ Everywhere b Named n c x) :
    ∃ x', ObjectOf b n c x' ∧ equalTo b k c x' x' ≠ .ok true := by
  induction n generalizing k c x with
  | zero => exact absurd hx id
  | succ n ih =>
      obtain ⟨k, rfl⟩ := Nat.exists_eq_add_of_le' (Nat.lt_of_lt_of_le (Nat.zero_lt_succ n) hk)
      obtain ⟨chain, hchain, hcomp⟩ := hs c hc
      obtain ⟨chain', f, hchain', rfl, hf, hf'⟩ := hx
      obtain rfl := Option.some.inj (hchain.symm.trans hchain')
      -- It is enough to give one member a value that is not equal to itself there.
      have hset : ∀ s ∈ slots chain, ∀ d, MemberOf b (ObjectOf b n) s.2 d →
          (∀ g : Text → Datum, g (memberName s.2) = d →
            equalItem b (equalTo b k) g g true s.2 ≠ .ok true) →
          ∃ x', ObjectOf b (n + 1) c x' ∧ equalTo b (k + 1) c x' x' ≠ .ok true := by
        intro s hs' d hd hne
        refine ⟨_, objectOf_set hcomp hchain hf hf' hs' hd, fun heq => ?_⟩
        exact hne _ (get_set_same f s d) ((equalTo_true hchain).mp heq s hs')
      rw [everywhere_object hchain] at hnamed
      push Not at hnamed
      obtain ⟨s, hs', hnamed⟩ := hnamed
      by_cases hother : memberName s.2 = "other".toList
      · apply hset s hs' _ (hf s hs')
        intro g _
        simp [equalItem, hother]
      by_cases hequal : memberName s.2 = "equal".toList
      · obtain ⟨d, hd, hone⟩ := exists_not_one (hcomp.items s hs') (hf s hs')
        apply hset s hs' d hd
        intro g hg
        rw [ne_eq, equalItem, if_neg hother, if_pos hequal, and_eq_ok, compareLocal_true, hg]
        exact fun h => hone h.2
      · obtain ⟨hclass, z, hz, hnamed⟩ := hnamed ⟨hother, hequal⟩
        obtain ⟨hmem, hheld, halone⟩ := memberOf_object hclass (hcomp.items s hs') (hf s hs')
        obtain ⟨z', hz', hne⟩ := ih (k := k) (by omega) hmem (hheld z hz) hnamed
        obtain ⟨d, hd, hself⟩ := halone z' hz'
        apply hset s hs' d hd
        intro g hg
        rw [ne_eq, equalItem, if_neg hother, if_neg hequal, and_eq_ok, hg]
        exact fun h => hne (hself h.2)

end Hidden

/-- The generated equality agrees with the documents of all values of a class exactly when no
member that a value of the class can contain has a name that the operator takes. -/
theorem equalityAgrees_iff (hs : ComparableSchema b classes) (hk : n ≤ k) {c : Text}
    (hc : classes c) :
    EqualityAgrees b n k c ↔ ∀ x, ObjectOf b n c x → Everywhere b Named n c x := by
  constructor
  · intro h x hx
    by_contra hnamed
    obtain ⟨x', hx', hne⟩ := exists_unequal hs hk hc hx hnamed
    exact hne ((h.document x' x' hx' hx').mpr rfl)
  · intro hnamed
    have hdecides : ∀ x y, ObjectOf b n c x → ObjectOf b n c y →
        Decides (equalTo b k c x y) (x = y) := fun x y hx hy =>
      equalTo_decides hs hk c x y hc hx hy (hnamed x hx)
    obtain ⟨hwritten, hinjective⟩ := serializeTo_faithful hs hk c hc
    have hequal : ∀ x y, ObjectOf b n c x → ObjectOf b n c y →
        (equalTo b k c x y = .ok true ↔ x = y) := fun x y hx hy => (hdecides x y hx hy).true_iff
    refine ⟨fun x y hx hy => ?_, hwritten, fun x y hx hy => ?_, ⟨?_, ?_, ?_⟩, ?_⟩
    · obtain ⟨r, hr, _⟩ := hdecides x y hx hy
      exact ⟨r, hr, by rw [notEqualTo, hr, ok_bind]⟩
    · rw [hequal x y hx hy]
      exact ⟨fun h => by rw [h], hinjective x y hx hy⟩
    · exact fun x => (hequal x x x.2 x.2).mpr rfl
    · exact fun {x y} h => (hequal y x y.2 x.2).mpr ((hequal x y x.2 y.2).mp h).symm
    · exact fun {x y z} h h' => (hequal x z x.2 z.2).mpr
        (((hequal x y x.2 y.2).mp h).trans ((hequal y z y.2 z.2).mp h'))
    · intro chain f g hchain hf hg
      rw [hequal _ _ hf hg]
      cases n with
      | zero => exact absurd hf id
      | succ n =>
          obtain ⟨chain', f', hchain', hx, _, hf'⟩ := hf
          obtain rfl := Option.some.inj (hchain.symm.trans hchain')
          obtain rfl := Datum.object.inj hx
          obtain ⟨chain', g', hchain', hx, _, hg'⟩ := hg
          obtain rfl := Option.some.inj (hchain.symm.trans hchain')
          obtain rfl := Datum.object.inj hx
          exact object_eq_iff hf' hg'

section Examples

open Equality

theorem drawing_comparable : ComparableSchema drawing drawn := by
  have hx : Comparable drawing drawn xItem := .integer (by decide) (by decide)
  have hequal : Comparable drawing drawn equalItem₀ := .leaf (by decide) rfl
  have hcorners : Comparable drawing drawn cornersItem := .object (by decide) (by decide) (Or.inl rfl)
  have hcolour : Comparable drawing drawn colourItem := by
    refine .enum (by decide) (by decide) (fun e he => ?_) rfl
    obtain rfl : colour = e := Option.some.inj he
    decide
  rintro c (rfl | rfl)
  · refine ⟨_, chain_point, ?_⟩
    constructor <;> rw [slots_point]
    case items =>
      simp only [List.forall_mem_cons]
      exact ⟨hx, hequal, by simp⟩
    all_goals decide
  · refine ⟨_, chain_shape, ?_⟩
    constructor <;> rw [slots_shape]
    case items =>
      simp only [List.forall_mem_cons]
      exact ⟨hx, hequal, hcolour, hcorners, by simp⟩
    all_goals decide

theorem pointValue_objectOf (equal : Bool) :
    ObjectOf drawing 1 "Point".toList (pointValue equal) := by
  refine ⟨_, _, chain_point, rfl, ?_, fun l m h => ?_⟩
  · rw [slots_point]
    simp only [List.forall_mem_cons]
    have hx : ElementOf drawing (ObjectOf drawing 0) xItem (.int (-3)) := by
      rw [ElementOf, if_pos (by decide)]
      exact ⟨by decide, by decide⟩
    exact ⟨Or.inr hx, Or.inr trivial, List.forall_mem_nil _⟩
  · rw [slots_point] at h
    simp only [List.forall_mem_cons] at h
    rw [if_neg fun ⟨hl, hm⟩ => h.1 (by rw [hl, hm]; rfl),
      if_neg fun ⟨hl, hm⟩ => h.2.1 (by rw [hl, hm]; rfl)]

theorem equalityAgrees_shape : EqualityAgrees drawing 2 3 "Shape".toList ↔
    ∀ x, ObjectOf drawing 2 "Shape".toList x → Everywhere drawing Named 2 "Shape".toList x :=
  equalityAgrees_iff drawing_comparable (by decide) (Or.inr rfl)

/-- A false member `equal` makes a point unequal to itself, and a true one on the right makes
points of different documents equal. -/
theorem equal_points :
    (ComparableSchema drawing drawn ∧ drawn "Point".toList ∧
      ∀ equal, ObjectOf drawing 1 "Point".toList (pointValue equal)) ∧
    equalTo drawing 1 "Point".toList (pointValue false) (pointValue false) = .ok false ∧
    equalTo drawing 1 "Point".toList (pointValue false) (pointValue true) = .ok true ∧
    serializeTo drawing 1 "Point".toList (pointValue false) ≠
      serializeTo drawing 1 "Point".toList (pointValue true) := by
  refine ⟨⟨drawing_comparable, Or.inl rfl, pointValue_objectOf⟩, rfl, rfl, fun h => ?_⟩
  have hdocument : ∀ equal, serializeTo drawing 1 "Point".toList (pointValue equal) =
      .ok [("x".toList, .number (.int (-3))), ("equal".toList, .bool equal)] := fun _ => rfl
  rw [hdocument, hdocument] at h
  simp at h

end Examples

end SchemaCodeGen.Agreement
