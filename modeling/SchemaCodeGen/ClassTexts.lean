import SchemaCodeGen.Equality
import SchemaCodeGen.JsonTexts

namespace SchemaCodeGen.ClassTexts

open CString Floats Json Schema Emit EnumTable Fallible Generated Slots Fresh Values Compilation
  RoundTrip Equality Sax JsonReader JsonWriter JsonTexts

section Texts

variable (b : Build)

/-- The emitted `serialize`. It stops in the functions of the document or in the writer. -/
def serialize (n : Nat) (name : Text) (x : Datum) : Except (Halt ⊕ Stop) Text :=
  match objectValue (serializeTo b n) name x with
  | .error h => .error (.inl h)
  | .ok doc => (serializeDocument doc).mapError .inr

/-- The emitted `deserialize` of a text, which looks at no error of the parser. -/
def deserialize (n : Nat) (name : Text) (input : Text) : Except (Halt ⊕ Stop) Datum :=
  match deserializeDocument input with
  | .error e => .error (.inr e)
  | .ok d => (Generated.deserialize b n name d.value).mapError .inl

end Texts

section Numbers

variable {b : Build} {classes : Text → Prop} {n k : Nat}

def DoubleRead (_ : MemberVariable) (d : Datum) : Prop :=
  ∀ x, d = .real x → binary64.Holds x ∧ ReadsBack x

def Keeps (j : Value) : Prop := ∀ n ∈ numbers j, Printable n

/-- What is written for `x` has numbers that a text keeps. -/
def Writes (write : Datum → Run Value) (x : Datum) : Prop := ∀ j, write x = .ok j → Keeps j

theorem keeps_integer {m : Int} (h : -2 ^ 63 ≤ m ∧ m < 2 ^ 64) : Keeps (.number (.int m)) := by
  intro n hn
  rw [List.mem_singleton.mp hn]
  exact ⟨h, fun x hx => absurd hx (by simp)⟩

theorem writes_leaf {type : StandardType} {x : Datum} (hx : LeafValue type x)
    (hread : ∀ y, x = .real y → binary64.Holds y ∧ ReadsBack y) : Writes rawValue x := by
  intro j hj
  cases x with
  | int m =>
      obtain rfl := Except.ok.inj hj
      refine keeps_integer ?_
      cases type <;> simp only [LeafValue] at hx <;> omega
  | real y =>
      obtain rfl := Except.ok.inj hj
      obtain ⟨hholds, hback⟩ := hread y rfl
      have hfinite : y.IsFinite := by
        cases type <;> simp only [LeafValue] at hx
        exact hx
      intro n hn
      rw [List.mem_singleton.mp hn]
      refine ⟨⟨hfinite, hholds⟩, fun z hz => ?_⟩
      rwa [← Number.double.inj hz]
  | bool p =>
      obtain rfl := Except.ok.inj hj
      exact List.forall_mem_nil _
  | _ => exact absurd hj (by simp [rawValue])

theorem writes_string {x : Datum} : Writes stringValue x := by
  intro j hj
  cases x with
  | str s =>
      obtain rfl := Except.ok.inj hj
      exact List.forall_mem_nil _
  | _ => exact absurd hj (by simp [stringValue])

theorem writes_enum {i : MemberVariable} {x : Datum} (hx : EnumValue b i x) :
    Writes (if i.mSerializeEnumAsInteger then enumInteger else enumName b i.mType) x := by
  intro j hj
  cases x with
  | enum m =>
      have hm := hx.1
      cases hi : i.mSerializeEnumAsInteger with
      | true =>
          rw [hi, if_pos rfl] at hj
          obtain rfl := Except.ok.inj hj
          exact keeps_integer (by omega)
      | false =>
          simp only [hi, Bool.false_eq_true, if_false, enumName] at hj
          obtain ⟨e, _, hj⟩ := bind_eq_ok.mp hj
          obtain ⟨s, _, hj⟩ := bind_eq_ok.mp hj
          obtain rfl := Except.ok.inj hj
          exact List.forall_mem_nil _
  | _ => exact absurd hx id

variable {write : Datum → Run Value} {ms : Members}

theorem keeps_addMember {m : Text} {optional : Bool} {x : Datum}
    (hx : (optional = true ∧ x = .empty) ∨ Writes write x)
    (h : addMember m optional x write = .ok ms) : ∀ e ∈ ms, Keeps e.2 := by
  by_cases hempty : optional = true ∧ x = .empty
  · rw [hempty.1, hempty.2] at h
    obtain rfl := Except.ok.inj h
    exact List.forall_mem_nil _
  · have hx := hx.resolve_left hempty
    have hadd : addMember m optional x write = write x >>= fun j => .ok [(m, j)] := by
      cases optional <;> cases x <;> simp_all [addMember]
    rw [hadd] at h
    obtain ⟨j, hj, h⟩ := bind_eq_ok.mp h
    obtain rfl := Except.ok.inj h
    rw [List.forall_mem_singleton]
    exact hx j hj

theorem mem_mapM {α β : Type} {f : α → Run β} {l : List α} {l' : List β} (h : l.mapM f = .ok l')
    {y : β} (hy : y ∈ l') : ∃ x ∈ l, f x = .ok y := by
  have hall := mapM_eq_ok.mp h
  clear h
  induction hall with
  | nil => exact absurd hy List.not_mem_nil
  | cons hx _ ih =>
      rw [List.exists_mem_cons_iff]
      obtain rfl | hy := List.mem_cons.mp hy
      · exact .inl hx
      · exact .inr (ih hy)

theorem keeps_addArray {m : Text} {l : List Datum} (hx : ∀ x ∈ l, Writes write x)
    (h : addArray m (.vec l) write = .ok ms) : ∀ e ∈ ms, Keeps e.2 := by
  rw [addArray, items, ok_bind] at h
  obtain ⟨js, hjs, h⟩ := bind_eq_ok.mp h
  obtain rfl := Except.ok.inj h
  rw [List.forall_mem_singleton]
  intro n hn
  obtain ⟨j, hj, hn⟩ := mem_numbersItems.mp hn
  obtain ⟨x, hxl, hxj⟩ := mem_mapM hjs hj
  exact hx x hxl j hxj n hn

end Numbers

section Members

variable {b : Build} {classes : Text → Prop} {n k : Nat} {own : Text → Datum} {i : MemberVariable}
  {ms : Members}

theorem keeps_item (hi : SupportedItem b classes i) (hmap : i.mIsMap = false)
    (hx : ItemValue b (ClassValue b n) i (own i.mMember)) (hread : DoubleRead i (own i.mMember))
    (ih : ∀ x ∈ held (own i.mMember), b.isClass i.mType = true → classes i.mType →
      ClassValue b n i.mType x → Writes (objectValue (serializeTo b k) i.mType) x)
    (h : serializeItem b (serializeTo b k) own i = .ok ms) : ∀ e ∈ ms, Keeps e.2 := by
  have hscalar : i.mIsArray = false → (i.mIsOptional = .optional ∧ own i.mMember = .empty) ∨
      ElementValue b (ClassValue b n) i (own i.mMember) := by
    intro ha
    rwa [ItemValue, if_neg (by simp [ha])] at hx
  cases hi with
  | integer type =>
      have hnone : getStandardType i.mType ≠ .none := by
        obtain h | h | h := type <;> simp [h]
      have hbool : getStandardType i.mType ≠ .boolType := by
        obtain h | h | h := type <;> simp [h]
      have hstmts := (statements_integer b.classEnum [] type hmap).1
      rw [serializeItem, hstmts, orHalt_some, ok_bind] at h
      have hleaf : ∀ x, ElementValue b (ClassValue b n) i x → LeafValue (getStandardType i.mType) x := by
        intro x hx
        rwa [ElementValue, if_pos hnone] at hx
      cases ha : i.mIsArray with
      | false =>
          simp only [ha, Bool.false_eq_true, if_false, runSerialize] at h
          refine keeps_addMember ((hscalar ha).imp (by simp) fun hx => ?_) h
          exact writes_leaf (hleaf _ hx) hread
      | true =>
          rw [ItemValue, if_pos ha] at hx
          obtain ⟨l, hl, hx⟩ := hx
          simp only [ha, if_true, runSerialize, hbool, if_false, hl] at h
          refine keeps_addArray (fun x hxl => writes_leaf (hleaf x (hx x hxl)) fun y hy => ?_) h
          have hint := hleaf x (hx x hxl)
          rw [hy] at hint
          obtain ht | ht | ht := type <;> rw [ht] at hint <;> exact absurd hint id
  | plain type scalar =>
      have hnone : getStandardType i.mType ≠ .none := by
        obtain h | h := type <;> simp [h]
      rw [serializeItem, (statements_plain b.classEnum [] type hmap scalar).1, orHalt_some,
        ok_bind] at h
      refine keeps_addMember ((hscalar scalar).imp (by simp) fun hx => ?_) h
      rw [ElementValue, if_pos hnone] at hx
      exact writes_leaf hx hread
  | string type scalar =>
      rw [serializeItem, (statements_string b.classEnum [] type hmap scalar).1, orHalt_some,
        ok_bind] at h
      exact keeps_addMember (.inr writes_string) h
  | enum type henum distinct scalar =>
      rw [serializeItem, (statements_enum b.classEnum [] type henum scalar).1, orHalt_some,
        ok_bind] at h
      refine keeps_addMember ((hscalar scalar).imp (by simp) fun hx => ?_) h
      rw [ElementValue, if_neg (by simp [type]), if_pos henum] at hx
      exact writes_enum hx
  | object type cls mem =>
      have hclass : b.isClass i.mType = true := by simp [Build.isClass, type, cls]
      have hcall : ∀ x, ElementValue b (ClassValue b n) i x → ClassValue b n i.mType x := by
        intro x hx
        rwa [ElementValue, if_neg (by simp [type]), if_neg (by simp [cls])] at hx
      have hstmts := (statements_object b.classEnum [] type cls hmap).1
      rw [serializeItem, hstmts, orHalt_some, ok_bind] at h
      cases ha : i.mIsArray with
      | false =>
          simp only [ha, Bool.false_eq_true, if_false, runSerialize] at h
          refine keeps_addMember ((hscalar ha).imp (by simp) fun hx => ?_) h
          have hx := hcall _ hx
          obtain ⟨f, hf⟩ := classValue_object hx
          exact ih _ (by simp [hf, held]) hclass mem hx
      | true =>
          rw [ItemValue, if_pos ha] at hx
          obtain ⟨l, hl, hx⟩ := hx
          simp only [ha, if_true, runSerialize, hl] at h
          exact keeps_addArray (fun x hxl => ih x (by simpa [hl, held] using hxl) hclass mem
            (hcall x (hx x hxl))) h

theorem writes_class (hs : Supported b classes) {c : Text} {x : Datum} (hc : classes c)
    (hx : ClassValue b n c x) (hread : Everywhere b DoubleRead n c x) (k : Nat) :
    Writes (objectValue (serializeTo b k) c) x := by
  induction n generalizing k c x with
  | zero => exact absurd hx id
  | succ n ih =>
      intro j hj
      obtain ⟨members, hmembers, hj⟩ := bind_eq_ok.mp hj
      obtain rfl := Except.ok.inj hj
      obtain ⟨chain, v, hchain, rfl, hitems, _⟩ := hx
      obtain ⟨chain', hchain', hsup⟩ := hs.chain c hc
      obtain rfl := Option.some.inj (hchain.symm.trans hchain')
      have hread := (everywhere_object hchain).mp hread
      cases k with
      | zero => exact absurd hmembers (by simp [serializeTo])
      | succ k =>
          simp only [serializeTo, hchain, serializeChain_eq_slots] at hmembers
          obtain ⟨parts, hparts, hmembers⟩ := bind_eq_ok.mp hmembers
          obtain rfl := Except.ok.inj hmembers
          intro m hm
          obtain ⟨e, he, hm⟩ := mem_numbersMembers.mp hm
          obtain ⟨ms, hms, he⟩ := List.mem_flatten.mp he
          obtain ⟨s, hs', hser⟩ := mem_mapM hparts hms
          have hname : memberName s.2 = s.2.mMember := memberName_of_noMap (hsup.noMap s hs')
          have hown : v (level s.1) s.2.mMember = get v s := by rw [Slots.get, hname]
          refine keeps_item (hsup.items s hs') (hsup.noMap s hs') (by rw [hown]; exact hitems s hs')
            (by rw [hown]; exact (hread s hs').1) ?_ hser e he m hm
          rw [hown]
          exact fun y hy hclass hmem hvalue => ih hmem hvalue ((hread s hs').2 hclass y hy) k

end Members

section RoundTrips

variable {b : Build} {classes : Text → Prop} {n k : Nat} {c : Text} {x : Datum}

/-- What is written for an object of classes that compile is a JSON text from which the object is
read back, as long as the text is short. -/
theorem deserialize_serialize (hs : Supported b classes) (hcompiles : SchemaCompiles b classes)
    (hk : n ≤ k) (hc : classes c) (hx : ClassValue b n c x) (hread : Everywhere b DoubleRead n c x) :
    ∃ doc, objectValue (serializeTo b k) c x = .ok doc ∧
      ((render doc).length + 1 ≤ 2 ^ 27 →
        serialize b k c x = .ok (render doc) ∧ JsonText (render doc) doc ∧
          deserialize b k c (render doc) = .ok x) := by
  obtain ⟨doc, hdoc, hback, _⟩ := class_restores hs hk hc hx
  have hkeeps := writes_class hs hc hx hread k doc hdoc
  have hwritable : ∀ m ∈ numbers doc, Writable m := fun m hm => (hkeeps m hm).1
  have htext : JsonText (render doc) doc := jsonText_render hkeeps
  refine ⟨doc, hdoc, fun hlen => ⟨?_, htext, ?_⟩⟩
  · rw [serialize, hdoc]
    simp only [serializeDocument_render hwritable]
    rfl
  · have hcstr : cstr (render doc) = render doc := cstr_of_nulFree (nulFree_render hwritable)
    have hparse := @deserializeDocument_text (render doc) doc (by rwa [hcstr]) (by rwa [hcstr])
    rw [deserialize, hparse]
    simp only [Generated.deserialize, hback (hs.arrayNamed hcompiles hc)]
    rfl

theorem point_read : Everywhere drawing DoubleRead 1 "Point".toList (pointValue true) := by
  rw [pointValue, everywhere_object chain_point, slots_point]
  simp only [List.forall_mem_cons]
  refine ⟨⟨fun y hy => ?_, fun h => absurd h (by decide)⟩,
    ⟨fun y hy => ?_, fun h => absurd h (by decide)⟩, List.forall_mem_nil _⟩
  · have hy : Datum.int (-3) = .real y := hy
    exact Datum.noConfusion hy
  · have hy : Datum.bool true = .real y := hy
    exact Datum.noConfusion hy

theorem shape_read : Everywhere drawing DoubleRead 2 "Shape".toList shapeValue := by
  rw [shapeValue, everywhere_object chain_shape, slots_shape]
  simp only [List.forall_mem_cons]
  refine ⟨⟨fun y hy => ?_, fun h => absurd h (by decide)⟩,
    ⟨fun y hy => ?_, fun h => absurd h (by decide)⟩,
    ⟨fun y hy => ?_, fun h => absurd h (by decide)⟩,
    ⟨fun y hy => ?_, fun _ y hy => ?_⟩, List.forall_mem_nil _⟩
  · have hy : Datum.empty = .real y := hy
    exact Datum.noConfusion hy
  · have hy : Datum.bool true = .real y := hy
    exact Datum.noConfusion hy
  · have hy : Datum.enum 1 = .real y := hy
    exact Datum.noConfusion hy
  · have hy : Datum.vec [pointValue true] = .real y := hy
    exact Datum.noConfusion hy
  · have hy : y ∈ [pointValue true] := hy
    rw [List.mem_singleton.mp hy]
    exact point_read

theorem deserialize_serialize_shape : ∃ doc,
    serialize drawing 2 "Shape".toList shapeValue = .ok (render doc) ∧ JsonText (render doc) doc ∧
      deserialize drawing 2 "Shape".toList (render doc) = .ok shapeValue := by
  obtain ⟨doc, hdoc, hback⟩ := deserialize_serialize drawing_supported drawing_compiles
    (Nat.le_refl 2) (Or.inr rfl) shapeValue_value shape_read
  have hshort : ((objectValue (serializeTo drawing 2) "Shape".toList shapeValue).toOption.map
      fun doc => decide ((render doc).length + 1 ≤ 2 ^ 27)) = some true := by
    decide +kernel
  rw [hdoc] at hshort
  have hlen : decide ((render doc).length + 1 ≤ 2 ^ 27) = true := Option.some.inj hshort
  exact ⟨doc, hback (of_decide_eq_true hlen)⟩

end RoundTrips

section Refused

variable {b : Build} {classes : Text → Prop} {chain : List Object} {d : Value} {f g : Fields}
  {call : Text → Value → Fields → Run Fields}

theorem withMember_of_none (hd : d.memberList = none) (m : Text) (required : Bool)
    (found : Value → Run Fields) : withMember d m required f found = .error .misuse := by
  rw [withMember, Value.findMember, hd]
  rfl

theorem item_of_none {s : Slot} (hi : SupportedItem b classes s.2) (hmap : s.2.mIsMap = false)
    (hd : d.memberList = none) : deserializeItem b call s.1 d f s.2 ≠ .ok g := by
  have hwith := fun m required found => @withMember_of_none d f hd m required found
  rw [deserializeItem]
  cases hi with
  | integer type =>
      rw [(statements_integer b.classEnum _ type hmap).2, orHalt_some, ok_bind]
      split_ifs
      · rw [runDeserialize, hwith]
        split_ifs <;> simp
      · simp [runDeserialize, hwith]
  | plain type scalar =>
      rw [(statements_plain b.classEnum _ type hmap scalar).2, orHalt_some, ok_bind]
      simp [runDeserialize, hwith]
  | string type scalar =>
      rw [(statements_string b.classEnum _ type hmap scalar).2, orHalt_some, ok_bind]
      simp [runDeserialize, hwith]
  | enum type henum distinct scalar =>
      rw [(statements_enum b.classEnum _ type henum scalar).2, orHalt_some, ok_bind]
      simp [runDeserialize, hwith]
  | object type cls mem =>
      rw [(statements_object b.classEnum _ type cls hmap).2, orHalt_some, ok_bind]
      split_ifs <;> simp [runDeserialize, hwith]

/-- A class with a member is read from the texts of objects only; on any other text an
assertion fails. -/
theorem deserialize_reads_object (hs : Supported b classes) {c : Text} (hc : classes c)
    (hchain : b.chain c = some chain) (hslots : slots chain ≠ []) {n : Nat} {input : Text} {x : Datum}
    (hlen : (cstr input).length + 1 ≤ 2 ^ 27) (h : deserialize b n c input = .ok x) :
    ∃ members, JsonText (cstr input) (.object members) := by
  obtain ⟨chain', hchain', hsup⟩ := hs.chain c hc
  obtain rfl := Option.some.inj (hchain.symm.trans hchain')
  have hobject : ∀ doc, deserializeDocument input = .ok doc → doc.value.memberList ≠ none := by
    intro doc hdoc hd
    have hrun : Generated.deserialize b n c doc.value = .ok x := by
      rw [deserialize, hdoc] at h
      cases hr : Generated.deserialize b n c doc.value with
      | error e => exact absurd h (by simp [hr, Except.mapError])
      | ok y => simpa [hr, Except.mapError] using h
    obtain ⟨fresh, _, hrun⟩ := bind_eq_ok.mp hrun
    obtain ⟨g, hrun, _⟩ := bind_eq_ok.mp hrun
    cases n with
    | zero => exact absurd hrun (by simp [deserializeFrom])
    | succ n =>
        simp only [deserializeFrom, hchain, deserializeChain_eq_slots] at hrun
        obtain ⟨s, ss, hss⟩ := List.exists_cons_of_ne_nil hslots
        have hmem : s ∈ slots chain := hss ▸ List.mem_cons_self
        rw [hss, List.foldlM_cons] at hrun
        obtain ⟨g', hfirst, _⟩ := bind_eq_ok.mp hrun
        exact item_of_none (hsup.items s hmem) (hsup.noMap s hmem) hd hfirst
  by_cases hdocument : ∃ j, JsonText (cstr input) j
  · obtain ⟨j, hj⟩ := hdocument
    have hmembers := hobject _ (deserializeDocument_text hj hlen)
    cases j with
    | object members => exact ⟨members, hj⟩
    | null | bool _ | number _ | string _ | array _ => exact absurd rfl hmembers
  · obtain ⟨code, offset, _, hrun⟩ := deserializeDocument_error (not_exists.mp hdocument) hlen
    exact absurd rfl (hobject _ hrun)

theorem deserialize_reads_object_point :
    ∃ members, JsonText (cstr "\x7b\"equal\":true\x7d".toList) (.object members) := by
  have hread : (deserialize drawing 1 "Point".toList "\x7b\"equal\":true\x7d".toList).isOk = true := by
    decide +kernel
  cases hrun : deserialize drawing 1 "Point".toList "\x7b\"equal\":true\x7d".toList with
  | error e =>
      rw [hrun] at hread
      exact absurd hread Bool.false_ne_true
  | ok x =>
      exact deserialize_reads_object drawing_supported (Or.inl rfl) chain_point (by decide) (by decide) hrun

end Refused

end SchemaCodeGen.ClassTexts
