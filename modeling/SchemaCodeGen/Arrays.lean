import SchemaCodeGen.Blocks

namespace SchemaCodeGen.Arrays

open CString Floats Json Schema Emit EnumTable Fallible Generated Slots Fresh Values RoundTrip Judge
  Readers Conformance Blocks

variable (b : Build)

structure EnumArray (i : MemberVariable) : Prop where
  type : getStandardType i.mType = .none
  enum : b.classEnum i.mType = some true
  array : i.mIsArray = true
  noMap : i.mIsMap = false

instance (i : MemberVariable) : Decidable (EnumArray b i) :=
  decidable_of_iff (getStandardType i.mType = .none ∧ b.classEnum i.mType = some true ∧
      i.mIsArray = true ∧ i.mIsMap = false)
    ⟨fun ⟨type, enum, array, noMap⟩ => ⟨type, enum, array, noMap⟩,
      fun h => ⟨h.type, h.enum, h.array, h.noMap⟩⟩

/-- An array of strings, floats, doubles, bools or enums. -/
inductive ArrayItem (i : MemberVariable) : Prop
  | standard (type : getStandardType i.mType = .stringType ∨ getStandardType i.mType = .floatType ∨
      getStandardType i.mType = .doubleType ∨ getStandardType i.mType = .boolType)
      (array : i.mIsArray = true) (noMap : i.mIsMap = false)
  | enum (enum : EnumArray b i)

/-- A finite number, a string without a NUL, a bool or a listed enum. -/
def Element (i : MemberVariable) (x : Datum) : Prop :=
  match getStandardType i.mType, x with
  | .stringType, .str s => NulFree s
  | .floatType, .real x => x.IsFinite ∧ binary32.Holds x
  | .doubleType, .real x => x.IsFinite
  | .boolType, .bool _ => True
  | .none, .enum n => ∃ e, b.enumType i.mType = some e ∧ (stringifyEnum b.constant e n).isSome
  | _, _ => False

/-- No later item of another value has the string of this one. -/
def Decodes (type : Text) (x : Datum) : Prop :=
  ∀ e n s, x = .enum n → b.enumType type = some e → stringifyEnum b.constant e n = some s →
    unstringifyEnum b.constant e s = some n

/-- What the arrays of an object hold, and what the other members write: nothing under the name
of an array, and entries that are accepted when they are read. -/
structure Beside (k : Nat) (c : Text) (chain : List Object) (f : Fields) : Prop where
  elements : ∀ t ∈ slots chain, ArrayItem b t.2 →
    ∃ l, Slots.get f t = .vec l ∧ ∀ x ∈ l, Element b t.2 x
  writes : ∀ t ∈ slots chain, ¬ ArrayItem b t.2 →
    ∃ ms, serializeItem b (serializeTo b k) (f (level t.1)) t.2 = .ok ms
  apart : ∀ t ∈ slots chain, ArrayItem b t.2 → ∀ u ∈ slots chain, u ≠ t → ∀ ms,
    serializeItem b (serializeTo b k) (f (level u.1)) u.2 = .ok ms → ∀ e ∈ ms, e.1 ≠ t.2.mMember
  accepted : ∀ doc, serializeTo b (k + 1) c (.object f) = .ok doc →
    ∀ t ∈ slots chain, ¬ ArrayItem b t.2 →
      slot b (cls b (Value.object doc).depth) (.object doc) t = .accept

/-- What is written for the object is accepted, the array is read back, and its block puts
nothing into another member. -/
def Survives (k : Nat) (c : Text) (chain : List Object) (f : Fields) (s : Slot) : Prop :=
  ∃ doc w, serializeTo b (k + 1) c (.object f) = .ok doc ∧
    deserialize b ((Value.object doc).depth + 1) c (.object doc) = .ok (.object w) ∧
    Slots.get w s = Slots.get f s ∧
    ∀ t ∈ slots chain, t ≠ s → ∀ r r', deserializeItem b (deserializeFrom b (Value.object doc).depth)
      s.1 (.object doc) r s.2 = .ok r' → Slots.get r' t = Slots.get r t

/-- The array `acl` that the name means in the class of the other array. -/
def Feeds (t s : Slot) : Prop := findField "acl".toList t.1 = some (level s.1, s.2)

instance (t s : Slot) : Decidable (Feeds t s) := inferInstanceAs (Decidable (_ = _))

/-- No array of strings stands beside the array. The array is `acl`, its elements decode, and the
other arrays of enums whose elements go to it have none, or it has none itself. -/
structure Restorable (chain : List Object) (f : Fields) (s : Slot) (l : List Datum) : Prop where
  noStrings : ∀ t ∈ slots chain, t.2.mIsArray = true → t.2.mIsMap = false →
    getStandardType t.2.mType ≠ .stringType
  elements : if s.2.mMember = "acl".toList then
      (∀ x ∈ l, Decodes b s.2.mType x) ∧
        ∀ t ∈ slots chain, t ≠ s → EnumArray b t.2 → Feeds t s → Slots.get f t = .vec []
    else l = []

variable {b} {k : Nat} {c : Text} {chain : List Object} {s t : Slot} {f g : Fields} {l : List Datum}
  {doc : Members}

theorem statements_enumArray (names : List Text) (hi : EnumArray b s.2) :
    serializeStmt b.classEnum s.2 = some (.enumArray s.2.mMember s.2.mType) ∧
      deserializeStmt b.classEnum names s.2 =
        some (.enumArray s.2.mMember s.2.mType (s.2.mIsOptional = .required)) := by
  have hs := not_string_of_none hi.type
  simp only [serializeStmt, deserializeStmt, isStandardType, hi.type, hs, hi.enum, hi.array, hi.noMap]
  exact ⟨rfl, rfl⟩

theorem statementOf_enumArray (hi : EnumArray b s.2) : statementOf b s =
    some (.enumArray s.2.mMember s.2.mType (s.2.mIsOptional = .required)) :=
  (statements_enumArray _ hi).2

theorem enumArray_of_statementOf {m type : Text} {required : Bool}
    (h : statementOf b t = some (.enumArray m type required)) : EnumArray b t.2 := by
  rw [statementOf, deserializeStmt] at h
  by_cases htype : getStandardType t.2.mType ≠ .none
  · rw [if_pos htype] at h
    split_ifs at h <;> cases h
  · rw [if_neg htype] at h
    cases hclass : b.classEnum t.2.mType with
    | none =>
        rw [hclass] at h
        cases h
    | some isEnum =>
        rw [hclass] at h
        dsimp only at h
        split_ifs at h with ha hm henum
        · cases h
        · exact ⟨not_not.mp htype, hclass.trans (congrArg some henum), ha, by simpa using hm⟩
        all_goals cases h

section Enums

variable {e : Object}

theorem mapM_enumName {type : Text} (he : b.enumType type = some e)
    (hl : ∀ x ∈ l, ∃ n t, x = .enum n ∧ stringifyEnum b.constant e n = some t) :
    ∃ js ds, l.mapM (Generated.enumName b type) = .ok js ∧
      js.mapM (readEnumName b type) = .ok ds ∧ ds.length = l.length ∧
        (ds = l ↔ ∀ x ∈ l, Decodes b type x) := by
  induction l with
  | nil => exact ⟨[], [], rfl, rfl, rfl, by simp⟩
  | cons x l ih =>
      rw [List.forall_mem_cons] at hl
      obtain ⟨n, t, rfl, ht⟩ := hl.1
      obtain ⟨js, ds, hjs, hds, hlength, hread⟩ := ih hl.2
      have hmem := mem_of_stringifyEnum ht
      have hc : cstr t = t := cstr_of_mem_keyList hmem
      obtain ⟨n', hn'⟩ := Option.isSome_iff_exists.mp (unstringifyEnum_isSome hmem)
      have hdecodes : Decodes b type (.enum n) ↔ n' = n := by
        rw [← Option.some_inj, ← hn']
        constructor
        · exact fun h => h e n t rfl he ht
        · intro h e' n' t' hn he' ht'
          obtain rfl := Datum.enum.inj hn
          obtain rfl := Option.some.inj (he.symm.trans he')
          obtain rfl := Option.some.inj (ht.symm.trans ht')
          exact h
      refine ⟨.string t :: js, .enum n' :: ds, by simp [Generated.enumName, he, ht, hjs],
        by simp [readEnumName, he, hc, hn', hds], congrArg (· + 1) hlength, ?_⟩
      rw [List.forall_mem_cons, hdecodes, ← hread, List.cons.injEq, Datum.enum.injEq]

theorem findField_own (hnodup : ∀ o ∈ chain, ((ownItems o).map memberName).Nodup)
    (hs : s ∈ slots chain) : findField (memberName s.2) s.1 = some (level s.1, s.2) := by
  induction chain with
  | nil => simp [slots] at hs
  | cons o bases ih =>
      rw [List.forall_mem_cons] at hnodup
      rw [slots, List.mem_append] at hs
      obtain hs | hs := hs
      · exact ih hnodup.2 hs
      · obtain ⟨i, hi, rfl⟩ := List.mem_map.mp hs
        have hfind : ((ownItems o).find? fun j => memberName j = memberName i) = some i := by
          cases hj : (ownItems o).find? fun j => memberName j = memberName i with
          | none =>
              rw [List.find?_eq_none] at hj
              exact absurd (hj i hi) (by simp)
          | some j =>
              have hname : memberName j = memberName i := by simpa using List.find?_some hj
              exact congrArg some
                (List.inj_on_of_nodup_map hnodup.1 (List.mem_of_find?_eq_some hj) hi hname)
        simp [findField, hfind, level]

theorem enumArray_run {js : List Value} {type m : Text}
    {call : Text → Value → Fields → Run Fields} {fresh : Text → Option Fields} {required : Bool}
    (hdoc : doc.lookup m = some (.array js)) {r g : Fields} :
    runDeserialize b call fresh s.1 (.object doc) r (.enumArray m type required) = .ok g ↔
      ∃ lv i, findField "acl".toList s.1 = some (lv, i) ∧ (i.mIsArray = true ∧ i.mType = type) ∧
        js.foldlM (fun f item => do
          f.pushBack lv "acl".toList (← readEnumName b type item)) r = .ok g := by
  rw [runDeserialize]
  cases findField "acl".toList s.1 with
  | none => simp
  | some t =>
      obtain ⟨lv, i⟩ := t
      dsimp only
      split_ifs with h
      · simp [withMember, Value.findMember, Value.memberList, hdoc, arrayItems, h]
      · simp only [false_iff, Option.some.injEq, Prod.mk.injEq, not_exists, not_and]
        rintro lv' i' ⟨_, rfl⟩ h'
        exact absurd h' h

end Enums

def decoded (b : Build) (doc : Members) (t : Slot) : List Datum :=
  match doc.lookup t.2.mMember with
  | some (.array js) => ((js.mapM (readEnumName b t.2.mType)).toOption).getD []
  | _ => []

def pushed (b : Build) (doc : Members) (s t : Slot) : List Datum :=
  if EnumArray b t.2 ∧ Feeds t s then decoded b doc t else []

/-- The entries of the arrays of enums are arrays of strings that are read as enums. -/
def Legible (b : Build) (doc : Members) (t : Slot) : Prop :=
  ∃ js ds, doc.lookup t.2.mMember = some (.array js) ∧ js.mapM (readEnumName b t.2.mType) = .ok ds

theorem decoded_eq {js : List Value} {ds : List Datum}
    (hdoc : doc.lookup t.2.mMember = some (.array js))
    (hread : js.mapM (readEnumName b t.2.mType) = .ok ds) : decoded b doc t = ds := by
  simp [decoded, hdoc, hread, Except.toOption]

section Run

variable {classes : Text → Prop} {call : Text → Value → Fields → Run Fields}

theorem key_not_mem_targets (hchain : ChainCompiles b classes chain) (hs : s ∈ slots chain)
    (ht : t ∈ slots chain) (h : ¬ Feeds t s) {m type : Text} {required : Bool} :
    key s ∉ targets t.1 (.enumArray m type required) := by
  simp only [targets, Option.mem_toList, Option.map_eq_some_iff]
  rintro ⟨⟨lv, i⟩, hfind, hkey⟩
  obtain ⟨u, hu, rfl, rfl, hname⟩ := findField_mem hfind
  have hu := slots_subset_of_suffix (suffix_of_mem ht) u hu
  obtain rfl : s = u := eq_of_key_eq (nodup_keys hchain.names) hs hu (by
    rw [← hkey, key, hname])
  exact h hfind

theorem get_block (hchain : ChainCompiles b classes chain) (hs : s ∈ slots chain)
    (hi : EnumArray b s.2) (ht : t ∈ slots chain) (hread : EnumArray b t.2 → Legible b doc t)
    (h : deserializeItem b call t.1 (.object doc) f t.2 = .ok g) (hf : Slots.get f s = .vec l) :
    Slots.get g s = .vec (l ++ pushed b doc s t) := by
  by_cases henum : EnumArray b t.2
  · have hrun := h
    rw [deserializeItem] at hrun
    simp only [(statements_enumArray _ henum).2, orHalt_some, ok_bind] at hrun
    obtain ⟨js, ds, hdoc, hds⟩ := hread henum
    obtain ⟨lv, i, hfind, _, hfold⟩ := (enumArray_run hdoc).mp hrun
    by_cases hfeeds : Feeds t s
    · obtain ⟨rfl, rfl⟩ := Prod.mk.inj (Option.some.inj (hfind.symm.trans hfeeds))
      obtain ⟨u, _, _, _, hname⟩ := findField_mem hfind
      rw [Slots.get, hname] at hf
      rw [foldlM_pushBack hf, hds, ok_bind] at hfold
      rw [pushed, if_pos ⟨henum, hfeeds⟩, decoded_eq hdoc hds, ← Except.ok.inj hfold, Slots.get,
        hname, Fields.set_same]
    · have hframe := runDeserialize_frame hrun (key_not_mem_targets hchain hs ht hfeeds)
      rw [pushed, if_neg fun hp => hfeeds hp.2, List.append_nil, ← hf]
      exact hframe
  · have hne : t ≠ s := by
      rintro rfl
      exact henum hi
    have hframe := deserializeItem_frame_acl hchain hs ht hne
      (fun m type required hstmt => absurd (enumArray_of_statementOf hstmt) henum) h
    rw [pushed, if_neg fun hp => henum hp.1, List.append_nil, ← hf, hframe]

theorem get_run (hchain : ChainCompiles b classes chain) (hs : s ∈ slots chain)
    (hi : EnumArray b s.2)
    (hread : ∀ t ∈ slots chain, EnumArray b t.2 → Legible b doc t) {ts : List Slot}
    (hts : ∀ t ∈ ts, t ∈ slots chain)
    (h : ts.foldlM (fun f t => deserializeItem b call t.1 (.object doc) f t.2) f = .ok g)
    (hf : Slots.get f s = .vec l) : Slots.get g s = .vec (l ++ ts.flatMap (pushed b doc s)) := by
  induction ts generalizing f l with
  | nil =>
      obtain rfl := Except.ok.inj h
      rw [List.flatMap_nil, List.append_nil, hf]
  | cons t ts ih =>
      rw [List.forall_mem_cons] at hts
      rw [List.foldlM_cons] at h
      obtain ⟨f', hf', h⟩ := bind_eq_ok.mp h
      rw [List.flatMap_cons, ← List.append_assoc]
      exact ih hts.2 h (get_block hchain hs hi hts.1 (hread t hts.1) hf' hf)

end Run

theorem flatMap_eq_iff {α β : Type} {p : α → List β} {xs : List α} {ys : List β}
    (hnodup : xs.Nodup) {x : α} (hx : x ∈ xs) (hlength : (p x).length = ys.length) :
    xs.flatMap p = ys ↔ p x = ys ∧ ∀ y ∈ xs, y ≠ x → p y = [] := by
  obtain ⟨before, after, rfl⟩ := List.append_of_mem hx
  rw [List.nodup_append, List.nodup_cons] at hnodup
  rw [List.flatMap_append, List.flatMap_cons]
  constructor
  · intro h
    have hsum := congrArg List.length h
    simp only [List.length_append] at hsum
    have hbefore : before.flatMap p = [] := List.eq_nil_of_length_eq_zero (by omega)
    have hafter : after.flatMap p = [] := List.eq_nil_of_length_eq_zero (by omega)
    rw [hbefore, hafter, List.nil_append, List.append_nil] at h
    refine ⟨h, fun y hy hne => ?_⟩
    rw [List.mem_append, List.mem_cons] at hy
    obtain hy | rfl | hy := hy
    · exact List.flatMap_eq_nil_iff.mp hbefore y hy
    · exact absurd rfl hne
    · exact List.flatMap_eq_nil_iff.mp hafter y hy
  · rintro ⟨hpx, hothers⟩
    have hbefore : before.flatMap p = [] := List.flatMap_eq_nil_iff.mpr fun y hy =>
      hothers y (by simp [hy]) (hnodup.2.2 y hy x List.mem_cons_self)
    have hafter : after.flatMap p = [] := List.flatMap_eq_nil_iff.mpr fun y hy =>
      hothers y (by simp [hy]) fun heq => hnodup.2.1.1 (heq ▸ hy)
    rw [hbefore, hafter, hpx, List.nil_append, List.append_nil]

section Writing

theorem addArray_ok {m : Text} {d : Datum} {write : Datum → Run Value} {ms : Members}
    (h : addArray m d write = .ok ms) : ∃ js, ms = [(m, .array js)] := by
  obtain ⟨l, _, h⟩ := bind_eq_ok.mp h
  obtain ⟨js, _, h⟩ := bind_eq_ok.mp h
  exact ⟨js, (Except.ok.inj h).symm⟩

theorem array_written (hi : ArrayItem b t.2) {call : Text → Datum → Run Members}
    {own : Text → Datum} {ms : Members} (h : serializeItem b call own t.2 = .ok ms) :
    ∃ js, ms = [(t.2.mMember, .array js)] := by
  cases hi with
  | standard type ha hm =>
      by_cases hstring : getStandardType t.2.mType = .stringType
      · have hs := getStandardType_eq_string hstring
        have hstmt : serializeStmt b.classEnum t.2 =
            some (.stringArray t.2.mMember (t.2.mIsOptional = .optional)) := by
          simp only [serializeStmt, isStandardType, hs, ha, hm]
          rfl
        rw [serializeItem, hstmt, orHalt_some, ok_bind, runSerialize] at h
        split_ifs at h
        exact addArray_ok h
      · have hstmt : serializeStmt b.classEnum t.2 =
            some (.rawArray t.2.mMember (getStandardType t.2.mType)) := by
          obtain h | h | h | h := type
          · exact absurd h hstring
          all_goals simp [serializeStmt, isStandardType, h, ha, hm]
        rw [serializeItem, hstmt, orHalt_some, ok_bind, runSerialize] at h
        split_ifs at h
        exact addArray_ok h
  | enum hi =>
      rw [serializeItem, (statements_enumArray [] hi).1, orHalt_some, ok_bind, runSerialize] at h
      exact addArray_ok h

theorem enumArray_written (hi : EnumArray b t.2) (hl : Slots.get f t = .vec l)
    (helements : ∀ x ∈ l, Element b t.2 x) (call : Text → Datum → Run Members) :
    ∃ js ds, serializeItem b call (f (level t.1)) t.2 = .ok [(t.2.mMember, .array js)] ∧
      js.mapM (readEnumName b t.2.mType) = .ok ds ∧ ds.length = l.length ∧
        (ds = l ↔ ∀ x ∈ l, Decodes b t.2.mType x) := by
  obtain ⟨e, he⟩ := enumType_isSome hi.enum
  obtain ⟨js, ds, hjs, hds, hlength, hdecodes⟩ := mapM_enumName (l := l) he fun x hx => by
    have h := helements x hx
    unfold Element at h
    rw [hi.type] at h
    cases x with
    | enum n =>
        obtain ⟨e', he', hn⟩ := h
        obtain rfl := Option.some.inj (he.symm.trans he')
        obtain ⟨t, ht⟩ := Option.isSome_iff_exists.mp hn
        exact ⟨n, t, rfl, ht⟩
    | _ => exact absurd h id
  refine ⟨js, ds, ?_, hds, hlength, hdecodes⟩
  have hown : f (level t.1) t.2.mMember = .vec l := by
    rw [← memberName_of_noMap hi.noMap]
    exact hl
  simp [serializeItem, (statements_enumArray [] hi).1, runSerialize, hown, addArray, items, hjs]

theorem lookup_array (hchain : b.chain c = some chain) (hnodup : (slots chain).Nodup)
    (hbeside : Beside b k c chain f) (hdoc : serializeTo b (k + 1) c (.object f) = .ok doc)
    (ht : t ∈ slots chain) (hi : ArrayItem b t.2) :
    ∃ js, serializeItem b (serializeTo b k) (f (level t.1)) t.2 = .ok [(t.2.mMember, .array js)] ∧
      doc.lookup t.2.mMember = some (.array js) := by
  obtain ⟨entries, hentries, rfl⟩ := (serializeTo_eq_ok hchain).mp hdoc
  obtain ⟨js, hjs⟩ := array_written hi (hentries t ht)
  refine ⟨js, by rw [hentries t ht, hjs], ?_⟩
  rw [lookup_flatten_alone hnodup ht fun u hu hne =>
    hbeside.apart t ht hi u hu hne _ (hentries u hu), hjs]
  simp

/-- What is written for an array of enums is found in the document and read as enums. -/
theorem entry_written (hchain : b.chain c = some chain) (hnodup : (slots chain).Nodup)
    (hbeside : Beside b k c chain f) (hdoc : serializeTo b (k + 1) c (.object f) = .ok doc)
    (ht : t ∈ slots chain) (hi : EnumArray b t.2) :
    ∃ l, Slots.get f t = .vec l ∧ Legible b doc t ∧ (decoded b doc t).length = l.length ∧
      (decoded b doc t = l ↔ ∀ x ∈ l, Decodes b t.2.mType x) := by
  obtain ⟨l, hl, helements⟩ := hbeside.elements t ht (.enum hi)
  obtain ⟨js, ds, hser, hds, hlength, hdecodes⟩ :=
    enumArray_written hi hl helements (serializeTo b k)
  obtain ⟨js', hser', hlookup⟩ := lookup_array hchain hnodup hbeside hdoc ht (.enum hi)
  obtain rfl : js = js' := by simpa using hser.symm.trans hser'
  rw [decoded_eq hlookup hds]
  exact ⟨l, hl, ⟨js, ds, hlookup, hds⟩, hlength, hdecodes⟩

theorem legible_written (hchain : b.chain c = some chain) (hnodup : (slots chain).Nodup)
    (hbeside : Beside b k c chain f) (hdoc : serializeTo b (k + 1) c (.object f) = .ok doc)
    (ht : t ∈ slots chain) (hi : EnumArray b t.2) : Legible b doc t := by
  obtain ⟨_, _, hread, _⟩ := entry_written hchain hnodup hbeside hdoc ht hi
  exact hread

theorem object_written (hchain : b.chain c = some chain) (hbeside : Beside b k c chain f)
    (henums : ∀ t ∈ slots chain, ArrayItem b t.2 → EnumArray b t.2) :
    ∃ doc, serializeTo b (k + 1) c (.object f) = .ok doc := by
  have hwrites : ∀ t ∈ slots chain, ∃ ms,
      serializeItem b (serializeTo b k) (f (level t.1)) t.2 = .ok ms := by
    intro t ht
    by_cases hi : ArrayItem b t.2
    · obtain ⟨l, hl, helements⟩ := hbeside.elements t ht hi
      obtain ⟨js, _, hjs, _⟩ := enumArray_written (henums t ht hi) hl helements (serializeTo b k)
      exact ⟨_, hjs⟩
    · exact hbeside.writes t ht hi
  choose! entries hentries using hwrites
  exact ⟨_, (serializeTo_eq_ok hchain).mpr ⟨entries, hentries, rfl⟩⟩

end Writing

section Accepting

variable {classes : Text → Prop}

theorem first_eq_accept {vs : List Verdict} : first vs = .accept ↔ ∀ v ∈ vs, v = .accept := by
  induction vs with
  | nil => simp [first]
  | cons v vs ih =>
      rw [List.forall_mem_cons, ← ih]
      cases v <;> simp [first]

theorem enumArray_accepted (hi : EnumArray b t.2) (hread : Legible b doc t)
    (judge : Text → Value → Verdict) : slot b judge (.object doc) t = .accept := by
  obtain ⟨js, ds, hdoc, hds⟩ := hread
  obtain ⟨e, he⟩ := enumType_isSome hi.enum
  rw [slot, statementOf_enumArray hi, Option.map_some, Option.getD_some, statement, member, hdoc]
  refine first_eq_accept.mpr fun v hv => ?_
  obtain ⟨j, hj, rfl⟩ := List.mem_map.mp hv
  obtain ⟨d, _, hd⟩ := Entries.exists_of_forall₂ (mapM_eq_ok.mp hds) hj
  exact (accept_of_meets (readEnumName_meets (by rw [he]; rfl) j) hd).1

theorem standard_rejected (hchain : ChainCompiles b classes chain) (ht : t ∈ slots chain)
    (htype : getStandardType t.2.mType = .stringType ∨ getStandardType t.2.mType = .floatType ∨
      getStandardType t.2.mType = .doubleType ∨ getStandardType t.2.mType = .boolType)
    (ha : t.2.mIsArray = true) (hm : t.2.mIsMap = false) (doc : Members) :
    getStandardType t.2.mType = .stringType ∧ ∀ js, doc.lookup t.2.mMember = some (.array js) →
      ∀ judge, slot b judge (.object doc) t = .reject := by
  obtain ⟨stmt, hstmt, hc⟩ := hchain.blocks t ht
  have hchecked : statementOf b t = some (.checkedArray t.2.mMember (getStandardType t.2.mType)
      (t.2.mIsOptional = .required)) := by
    obtain h | h | h | h := htype <;>
      simp [statementOf, deserializeStmt, isNumeric, deserializeTypeName, h, ha, hm]
  obtain rfl := Option.some.inj (hchecked.symm.trans hstmt)
  refine ⟨hc, fun js hdoc judge => ?_⟩
  rw [slot, hstmt, Option.map_some, Option.getD_some, statement, member, hdoc]

theorem enumArray_of_noStrings (hchain : ChainCompiles b classes chain)
    (h : ∀ t ∈ slots chain, t.2.mIsArray = true → t.2.mIsMap = false →
      getStandardType t.2.mType ≠ .stringType) (ht : t ∈ slots chain) (hi : ArrayItem b t.2) :
    EnumArray b t.2 := by
  cases hi with
  | standard type ha hm =>
      exact absurd (standard_rejected hchain ht type ha hm []).1 (h t ht ha hm)
  | enum hi => exact hi

theorem accepted_iff (hb : Compiles b classes) (hc : classes c) (hchain : b.chain c = some chain)
    (hbeside : Beside b k c chain f) (hdoc : serializeTo b (k + 1) c (.object f) = .ok doc)
    (hread : ∀ t ∈ slots chain, EnumArray b t.2 → Legible b doc t) :
    (∃ w, deserialize b ((Value.object doc).depth + 1) c (.object doc) = .ok w) ↔
      ∀ t ∈ slots chain, t.2.mIsArray = true → t.2.mIsMap = false →
        getStandardType t.2.mType ≠ .stringType := by
  obtain ⟨chain', hchain', hcompiles⟩ := hb.chain c hc
  obtain rfl := Option.some.inj (hchain.symm.trans hchain')
  have hnodup : (slots chain).Nodup := (nodup_keys hcompiles.names).of_map key
  have hmeets := deserialize_meets hb hc (d := .object doc) (Nat.lt_succ_self _)
  have hverdict : verdict b c (.object doc) = .accept ↔ ∀ t ∈ slots chain,
      slot b (cls b (Value.object doc).depth) (.object doc) t = .accept := by
    simp only [verdict, cls, hchain, Option.getD_some, first_eq_accept, List.forall_mem_map]
  have haccept : (∃ w, deserialize b ((Value.object doc).depth + 1) c (.object doc) = .ok w) ↔
      verdict b c (.object doc) = .accept := by
    constructor
    · rintro ⟨w, hw⟩
      exact (accept_of_meets hmeets hw).1
    · intro h
      rw [h] at hmeets
      obtain ⟨w, hw, _⟩ := hmeets
      exact ⟨w, hw⟩
  rw [haccept, hverdict]
  refine forall₂_congr fun t ht => ?_
  by_cases hi : ArrayItem b t.2
  · obtain ⟨js, _, hlookup⟩ := lookup_array hchain hnodup hbeside hdoc ht hi
    cases hi with
    | standard type ha hm =>
        obtain ⟨hstring, hslot⟩ := standard_rejected hcompiles ht type ha hm doc
        simp [hslot js hlookup, ha, hm, hstring]
    | enum hi =>
        simp [enumArray_accepted hi (hread t ht hi), hi.type]
  · simp only [hbeside.accepted doc hdoc t ht hi, true_iff]
    exact fun ha hm hstring => hi (.standard (.inl hstring) ha hm)

end Accepting

section Theorem

variable {classes : Text → Prop}

theorem fresh_array (hchain : ChainCompiles b classes chain) (hs : s ∈ slots chain)
    (hi : EnumArray b s.2) {call : Text → Option Fields}
    (hf : constructChain b call chain = some f) : Slots.get f s = .vec [] := by
  have hnot := not_restated_of_array hf hchain.names hs hi.array
  have h := (constructChain_spec hf hchain.names).2 s hs hnot
  rw [initialValue, if_pos hi.array, hi.noMap] at h
  exact (Option.some.inj h).symm

/-- The blocks put the elements of an array back into it, and nothing else, exactly when it is
`acl` and its elements decode and no other array feeds it, or it is another array and empty. -/
theorem pushed_iff (hchain : ChainCompiles b classes chain) (hs : s ∈ slots chain)
    (hi : EnumArray b s.2) (hl : Slots.get f s = .vec l)
    (hlength : ∀ t ∈ slots chain, EnumArray b t.2 →
      ∃ l, Slots.get f t = .vec l ∧ (decoded b doc t).length = l.length)
    (hdecodes : decoded b doc s = l ↔ ∀ x ∈ l, Decodes b s.2.mType x) :
    (slots chain).flatMap (pushed b doc s) = l ↔
      if s.2.mMember = "acl".toList then
        (∀ x ∈ l, Decodes b s.2.mType x) ∧
          ∀ t ∈ slots chain, t ≠ s → EnumArray b t.2 → Feeds t s → Slots.get f t = .vec []
      else l = [] := by
  have hname : memberName s.2 = s.2.mMember := memberName_of_noMap hi.noMap
  split_ifs with hacl
  · have hown : Feeds s s := by
      have hfind := findField_own hchain.names hs
      rwa [hname, hacl] at hfind
    have hpushed : pushed b doc s s = decoded b doc s := if_pos ⟨hi, hown⟩
    have hlengths : (pushed b doc s s).length = l.length := by
      obtain ⟨l', hl', hlength⟩ := hlength s hs hi
      obtain rfl := Datum.vec.inj (hl.symm.trans hl')
      rw [hpushed, hlength]
    rw [flatMap_eq_iff ((nodup_keys hchain.names).of_map key) hs hlengths, hpushed, hdecodes]
    refine and_congr_right fun _ => forall₂_congr fun t ht => forall_congr' fun _ => ?_
    by_cases hfeeds : EnumArray b t.2 ∧ Feeds t s
    · obtain ⟨l', hl', hlength⟩ := hlength t ht hfeeds.1
      rw [pushed, if_pos hfeeds, ← List.length_eq_zero_iff, hlength, List.length_eq_zero_iff, hl',
        Datum.vec.injEq]
      exact ⟨fun h _ _ => h, fun h => h hfeeds.1 hfeeds.2⟩
    · rw [pushed, if_neg hfeeds]
      exact iff_of_true rfl fun henum h => absurd ⟨henum, h⟩ hfeeds
  · have hnone : (slots chain).flatMap (pushed b doc s) = [] := by
      refine List.flatMap_eq_nil_iff.mpr fun t ht => if_neg ?_
      rintro ⟨_, hfeeds⟩
      obtain ⟨_, _, _, _, hfound⟩ := findField_mem hfeeds
      exact hacl (hname.symm.trans hfound)
    rw [hnone]
    exact eq_comm

theorem block_frame (hchain : ChainCompiles b classes chain) (hs : s ∈ slots chain)
    (hi : EnumArray b s.2) {js : List Value} (hdoc : doc.lookup s.2.mMember = some (.array js))
    (h : s.2.mMember = "acl".toList ∨ js = []) (ht : t ∈ slots chain) (hne : t ≠ s)
    {call : Text → Value → Fields → Run Fields}
    (hrun : deserializeItem b call s.1 (.object doc) f s.2 = .ok g) :
    Slots.get g t = Slots.get f t := by
  have hname : memberName s.2 = s.2.mMember := memberName_of_noMap hi.noMap
  rw [deserializeItem] at hrun
  simp only [(statements_enumArray _ hi).2, orHalt_some, ok_bind] at hrun
  obtain hacl | rfl := h
  · refine runDeserialize_frame hrun (key_not_mem_targets hchain ht hs fun hfeeds => hne ?_)
    have hown := findField_own hchain.names hs
    rw [hname, hacl] at hown
    have heq : (level t.1, t.2) = (level s.1, s.2) := Option.some.inj (hfeeds.symm.trans hown)
    obtain ⟨hlevel, hitem⟩ := Prod.mk.inj heq
    exact eq_of_key_eq (nodup_keys hchain.names) ht hs (by rw [key, key, hlevel, hitem])
  · obtain ⟨_, _, _, _, hfold⟩ := (enumArray_run hdoc).mp hrun
    rw [← Except.ok.inj hfold]

/-- A run leaves in the array what the blocks put into it. -/
theorem array_read (hb : Compiles b classes) (hc : classes c) (hchain : b.chain c = some chain)
    (hcompiles : ChainCompiles b classes chain) (hs : s ∈ slots chain) (hi : EnumArray b s.2)
    (hl : Slots.get f s = .vec l) (hbeside : Beside b k c chain f)
    (hdoc : serializeTo b (k + 1) c (.object f) = .ok doc) {n : Nat} {w : Datum}
    (hw : deserialize b (n + 1) c (.object doc) = .ok w) :
    ∃ g, w = .object g ∧ (Slots.get g s = .vec l ↔ if s.2.mMember = "acl".toList then
        (∀ x ∈ l, Decodes b s.2.mType x) ∧
          ∀ t ∈ slots chain, t ≠ s → EnumArray b t.2 → Feeds t s → Slots.get f t = .vec []
      else l = []) := by
  have hnodup : (slots chain).Nodup := (nodup_keys hcompiles.names).of_map key
  have hentry := fun t ht => entry_written (t := t) hchain hnodup hbeside hdoc ht
  obtain ⟨fresh, hfresh⟩ := hb.fresh c hc
  obtain ⟨call, hconstruct⟩ := constructChain_of_fresh hchain hfresh
  simp only [deserialize, readObject, hfresh, orHalt_some, ok_bind,
    deserializeFrom_eq_slots hchain] at hw
  obtain ⟨g, hg, hw⟩ := bind_eq_ok.mp hw
  refine ⟨g, (Except.ok.inj hw).symm, ?_⟩
  rw [get_run hcompiles hs hi (fun t ht => legible_written hchain hnodup hbeside hdoc ht)
    (fun _ ht => ht) hg (fresh_array hcompiles hs hi hconstruct), List.nil_append,
    Datum.vec.injEq]
  obtain ⟨l', hl', _, _, hdecodes⟩ := hentry s hs hi
  obtain rfl := Datum.vec.inj (hl.symm.trans hl')
  refine pushed_iff hcompiles hs hi hl (fun t ht henum => ?_) hdecodes
  obtain ⟨l', hl', _, hlength, _⟩ := hentry t ht henum
  exact ⟨l', hl', hlength⟩

/-- The array `acl` is the target of its own block, and the block of an empty array pushes
nothing. -/
theorem others_kept (hchain : b.chain c = some chain) (hcompiles : ChainCompiles b classes chain)
    (hs : s ∈ slots chain) (hi : EnumArray b s.2) (hl : Slots.get f s = .vec l)
    (hbeside : Beside b k c chain f) (hdoc : serializeTo b (k + 1) c (.object f) = .ok doc)
    (h : s.2.mMember = "acl".toList ∨ l = []) (ht : t ∈ slots chain) (hne : t ≠ s)
    {call : Text → Value → Fields → Run Fields} {r r' : Fields}
    (hrun : deserializeItem b call s.1 (.object doc) r s.2 = .ok r') :
    Slots.get r' t = Slots.get r t := by
  obtain ⟨l', hl', ⟨js, ds, hlookup, hds⟩, hlength, _⟩ := entry_written hchain
    ((nodup_keys hcompiles.names).of_map key) hbeside hdoc hs hi
  obtain rfl := Datum.vec.inj (hl.symm.trans hl')
  refine block_frame hcompiles hs hi hlookup ?_ ht hne hrun
  refine h.imp_right fun hnil => ?_
  rw [decoded_eq hlookup hds, hnil] at hlength
  have hsame := (mapM_eq_ok.mp hds).length_eq
  exact List.eq_nil_of_length_eq_zero (by rw [hsame, hlength]; rfl)

/-- An array survives exactly when it is an array of enums of classes that compile, its elements
go where they belong, and no other elements go there. -/
theorem survives_iff (hc : classes c) (hchain : b.chain c = some chain) (hs : s ∈ slots chain)
    (hi : ArrayItem b s.2) (hl : Slots.get f s = .vec l) (hbeside : Beside b k c chain f) :
    Compiles b classes ∧ Survives b k c chain f s ↔
      Compiles b classes ∧ Restorable b chain f s l := by
  refine and_congr_right fun hb => ?_
  obtain ⟨chain', hchain', hcompiles⟩ := hb.chain c hc
  obtain rfl := Option.some.inj (hchain.symm.trans hchain')
  have hnodup : (slots chain).Nodup := (nodup_keys hcompiles.names).of_map key
  have haccepted := fun doc (hdoc : serializeTo b (k + 1) c (.object f) = .ok doc) =>
    accepted_iff hb hc hchain hbeside hdoc fun t ht => legible_written hchain hnodup hbeside hdoc ht
  constructor
  · rintro ⟨doc, w, hdoc, hw, hget, _⟩
    have hnone := (haccepted doc hdoc).mp ⟨_, hw⟩
    have henum := enumArray_of_noStrings hcompiles hnone hs hi
    obtain ⟨g, hg, hiff⟩ := array_read hb hc hchain hcompiles hs henum hl hbeside hdoc hw
    obtain rfl := Datum.object.inj hg
    exact ⟨hnone, hiff.mp (hget.trans hl)⟩
  · rintro ⟨hnone, helements⟩
    have henums := fun t ht => enumArray_of_noStrings (t := t) hcompiles hnone ht
    have henum := henums s hs hi
    obtain ⟨doc, hdoc⟩ := object_written hchain hbeside henums
    obtain ⟨w, hw⟩ := (haccepted doc hdoc).mpr hnone
    obtain ⟨g, rfl, hiff⟩ := array_read hb hc hchain hcompiles hs henum hl hbeside hdoc hw
    have hempty : s.2.mMember = "acl".toList ∨ l = [] := by
      split_ifs at helements with hacl
      · exact .inl hacl
      · exact .inr helements
    exact ⟨doc, g, hdoc, hw, (hiff.mpr helements).trans hl.symm, fun t ht hne r r' hr =>
      others_kept hchain hcompiles hs henum hl hbeside hdoc hempty ht hne hr⟩

end Theorem

section Examples

def right : Object where
  mName := "Right".toList
  mType := "Enum".toList
  mIsEnum := true
  mItems := [{ mMember := "read".toList }, { mMember := "write".toList }]

def idItem : MemberVariable where
  mMember := "id".toList
  mType := "u32".toList

def aclItem : MemberVariable where
  mMember := "acl".toList
  mType := "Right".toList
  mIsArray := true

def tagsItem : MemberVariable where
  mMember := "tags".toList
  mType := "string".toList
  mIsArray := true

def grant : Object where
  mName := "Grant".toList
  mType := "Class".toList
  mIsClass := true
  mItems := [idItem, aclItem]

def note : Object where
  mName := "Note".toList
  mType := "Class".toList
  mIsClass := true
  mItems := [tagsItem]

def records : Build where
  dom := { mObjects := [right, grant, note] }
  constant := fun _ _ => 0
  initial := fun _ => .empty

def grantFields : Fields := fun _ m =>
  if m = "acl".toList then .vec [.enum 1, .enum 0]
  else if m = "id".toList then .int 7
  else .empty

def tagsFields (l : List Datum) : Fields := fun _ m => if m = "tags".toList then .vec l else .empty

theorem slots_grant : slots [grant] = [([grant], idItem), ([grant], aclItem)] := rfl

theorem acl_enumArray : EnumArray records aclItem := ⟨by decide, by decide, rfl, rfl⟩

theorem id_no_array : ¬ ArrayItem records idItem := by
  rintro (⟨_, h, _⟩ | ⟨_, _, h, _⟩) <;> cases h

theorem grant_beside : Beside records 0 "Grant".toList [grant] grantFields := by
  constructor
  · rw [slots_grant]
    simp only [List.forall_mem_cons]
    refine ⟨fun h => absurd h id_no_array, fun _ => ⟨_, rfl, ?_⟩, List.forall_mem_nil _⟩
    simp only [List.forall_mem_cons]
    exact ⟨⟨right, rfl, by decide⟩, ⟨right, rfl, by decide⟩, List.forall_mem_nil _⟩
  · rw [slots_grant]
    simp only [List.forall_mem_cons]
    exact ⟨fun _ => ⟨_, rfl⟩, fun h => absurd (.enum acl_enumArray) h, List.forall_mem_nil _⟩
  · rw [slots_grant]
    simp only [List.forall_mem_cons]
    refine ⟨fun h => absurd h id_no_array, fun _ => ⟨fun _ ms hms => ?_, fun h => absurd rfl h,
      List.forall_mem_nil _⟩, List.forall_mem_nil _⟩
    obtain rfl : [("id".toList, Value.number (.int 7))] = ms := Except.ok.inj hms
    simp only [List.forall_mem_cons]
    exact ⟨by decide, List.forall_mem_nil _⟩
  · intro doc hdoc
    obtain rfl : [("id".toList, Value.number (.int 7)), ("acl".toList,
        .array [.string "write".toList, .string "read".toList])] = doc := Except.ok.inj hdoc
    rw [slots_grant]
    simp only [List.forall_mem_cons]
    exact ⟨fun _ => rfl, fun h => absurd (.enum acl_enumArray) h, List.forall_mem_nil _⟩

theorem survives_acl_iff :
    Compiles records (· = "Grant".toList) ∧
        Survives records 0 "Grant".toList [grant] grantFields ([grant], aclItem) ↔
      Compiles records (· = "Grant".toList) ∧
        Restorable records [grant] grantFields ([grant], aclItem) [.enum 1, .enum 0] :=
  survives_iff rfl rfl (by decide) (.enum acl_enumArray) rfl grant_beside

/-- An array of strings is rejected as it was written. -/
theorem deserialize_note_tags :
    ArrayItem records tagsItem ∧ Element records tagsItem (.str "a".toList) ∧
      ∃ doc, serializeTo records 1 "Note".toList
          (.object (tagsFields [.str "a".toList])) = .ok doc ∧
        deserialize records 1 "Note".toList (.object doc) = .error .returnFalse :=
  ⟨.standard (Or.inl (by decide)) rfl rfl, (by decide : NulFree "a".toList), _, rfl, rfl⟩

end Examples

end SchemaCodeGen.Arrays
