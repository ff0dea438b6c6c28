import SchemaCodeGen.Blocks

namespace SchemaCodeGen.Optionals

open CString Json Schema Emit Fallible Generated Slots Fresh RoundTrip Judge Readers Conformance
  Blocks

def scalarKeys (m : Text) (optional : Bool) : Datum → List Text
  | .empty => if optional then [] else [m]
  | _ => [m]

def mapKeys : Datum → List Text
  | .map l => l.map fun e => cstr e.1
  | _ => []

/-- The keys that a member writes into the document. -/
def writtenKeys (i : MemberVariable) (d : Datum) : List Text :=
  if i.mIsMap then mapKeys d
  else if i.mIsArray then [i.mMember]
  else scalarKeys i.mMember (i.mIsOptional = .optional) d

def documentKeys (chain : List Object) (f : Fields) : List Text :=
  (slots chain).flatMap fun t => writtenKeys t.2 (get f t)

section Serialize

variable {b : Build} {chain : List Object} {f : Fields} {i : MemberVariable}

theorem addMember_keys {m : Text} {optional : Bool} {d : Datum} {value : Datum → Run Value}
    {ms : Members} (h : addMember m optional d value = .ok ms) :
    ms.map Prod.fst = scalarKeys m optional d := by
  rw [addMember.eq_def] at h
  split at h
  · obtain rfl := Except.ok.inj h
    rfl
  next hne =>
    obtain ⟨j, _, h⟩ := bind_eq_ok.mp h
    obtain rfl := Except.ok.inj h
    cases d with
    | empty =>
        have hopt : optional = false := by simpa using hne
        rw [hopt]
        rfl
    | _ => rfl

theorem addArray_keys {m : Text} {d : Datum} {value : Datum → Run Value} {ms : Members}
    (h : addArray m d value = .ok ms) : ms.map Prod.fst = [m] := by
  obtain ⟨l, _, h⟩ := bind_eq_ok.mp h
  obtain ⟨js, _, h⟩ := bind_eq_ok.mp h
  rw [← Except.ok.inj h]
  rfl

theorem addEntries_keys {d : Datum} {value : Datum → Run Value} {ms : Members}
    (h : addEntries d value = .ok ms) : ms.map Prod.fst = mapKeys d := by
  obtain ⟨l, hl, h⟩ := bind_eq_ok.mp h
  have hd : d = .map l := by
    cases d <;> simp [entries] at hl
    rw [hl]
  rw [hd]
  refine map_of_mapM (fun x _ e he => ?_) h
  obtain ⟨j, _, he⟩ := bind_eq_ok.mp he
  rw [← Except.ok.inj he]

def SerializedFor (i : MemberVariable) : SerializeStmt → Prop
  | .rawMap m | .stringMap m _ | .enumListMap m _ =>
      i.mIsMap = true ∧ i.mIsArray = true ∧ m = i.mMember
  | .rawArray m _ | .stringArray m _ | .enumArray m _ | .objectArray m _ =>
      i.mIsMap = false ∧ i.mIsArray = true ∧ m = i.mMember
  | .raw m optional | .string m optional | .enum m _ optional _ | .object m _ optional =>
      i.mIsMap = false ∧ i.mIsArray = false ∧ m = i.mMember ∧
        optional = decide (i.mIsOptional = .optional)

theorem serializedFor {classEnum : Text → Option Bool} {stmt : SerializeStmt}
    (hmap : i.mIsMap = true → i.mIsArray = true) (h : serializeStmt classEnum i = some stmt) :
    SerializedFor i stmt := by
  have hscalar : i.mIsArray = false → i.mIsMap = false := fun ha => by
    cases hm : i.mIsMap with
    | false => rfl
    | true => exact absurd (hmap hm) (by simp [ha])
  rw [serializeStmt] at h
  cases ha : i.mIsArray with
  | false =>
      have hm := hscalar ha
      simp only [ha, Bool.false_eq_true, if_false] at h
      split at h
      · obtain rfl := Option.some.inj h
        simp [SerializedFor, hm, ha]
      split at h
      · obtain rfl := Option.some.inj h
        simp [SerializedFor, hm, ha]
      split at h
      · simp at h
      split_ifs at h <;> obtain rfl := Option.some.inj h <;> simp [SerializedFor, hm, ha]
  | true =>
      simp only [ha, if_true] at h
      split at h
      · split_ifs at h with hm <;> obtain rfl := Option.some.inj h <;> simp [SerializedFor, hm, ha]
      split at h
      · split_ifs at h with hm <;> obtain rfl := Option.some.inj h <;> simp [SerializedFor, hm, ha]
      split at h
      · simp at h
      split_ifs at h with hm henum <;> obtain rfl := Option.some.inj h <;>
        simp [SerializedFor, hm, ha]

theorem serializeItem_keys {call : Text → Datum → Run Members} {own : Text → Datum} {ms : Members}
    (hmap : i.mIsMap = true → i.mIsArray = true) (h : serializeItem b call own i = .ok ms) :
    ms.map Prod.fst = writtenKeys i (own (memberName i)) := by
  obtain ⟨stmt, hstmt, h⟩ := bind_eq_ok.mp h
  have hfor : SerializedFor i stmt := serializedFor hmap (orHalt_eq_ok.mp hstmt)
  clear hstmt hmap
  cases stmt with
  | raw m optional | string m optional | enum m type optional asInteger | object m type optional =>
      obtain ⟨hm, ha, rfl, rfl⟩ := hfor
      have hname : memberName i = i.mMember := memberName_of_noMap hm
      rw [addMember_keys h, hname, writtenKeys, if_neg (by simp [hm]), if_neg (by simp [ha])]
  | rawArray m type | stringArray m optional =>
      obtain ⟨hm, ha, rfl⟩ := hfor
      rw [runSerialize] at h
      split_ifs at h
      rw [addArray_keys h, writtenKeys, if_neg (by simp [hm]), if_pos ha]
  | enumArray m type | objectArray m type =>
      obtain ⟨hm, ha, rfl⟩ := hfor
      rw [addArray_keys h, writtenKeys, if_neg (by simp [hm]), if_pos ha]
  | rawMap m | enumListMap m type =>
      obtain ⟨hm, ha, rfl⟩ := hfor
      have hname : memberName i = '_' :: i.mMember := memberName_of_map hm
      rw [runSerialize] at h
      rw [addEntries_keys h, hname, writtenKeys, if_pos hm]
  | stringMap m optional =>
      obtain ⟨hm, ha, rfl⟩ := hfor
      have hname : memberName i = '_' :: i.mMember := memberName_of_map hm
      rw [runSerialize] at h
      split_ifs at h
      rw [addEntries_keys h, hname, writtenKeys, if_pos hm]

theorem flatten_keys {α : Type} {step : α → Run Members} {names : α → List Text} {xs : List α}
    {l : List Members} (hstep : ∀ x ∈ xs, ∀ ms, step x = .ok ms → ms.map Prod.fst = names x)
    (h : xs.mapM step = .ok l) : l.flatten.map Prod.fst = xs.flatMap names := by
  rw [List.map_flatten, map_of_mapM hstep h, List.flatMap_def]

theorem serializeTo_keys {n : Nat} {c : Text} {doc : Members} (hchain : b.chain c = some chain)
    (hmaps : ∀ t ∈ slots chain, t.2.mIsMap = true → t.2.mIsArray = true)
    (h : serializeTo b n c (.object f) = .ok doc) : doc.map Prod.fst = documentKeys chain f := by
  cases n with
  | zero => exact absurd h (by simp [serializeTo])
  | succ n =>
      rw [serializeTo_eq_slots hchain] at h
      obtain ⟨l, hl, h⟩ := bind_eq_ok.mp h
      rw [← Except.ok.inj h]
      exact flatten_keys (fun t ht ms hms => serializeItem_keys (hmaps t ht) hms) hl

end Serialize

section Deserialize

variable {b : Build} {classes : Text → Prop} {chain : List Object} {s : Slot} {f g : Fields}
  {call : Text → Value → Fields → Run Fields}

theorem deserializeChain_empty {doc : Members} (hchain : ChainCompiles b classes chain)
    (hs : s ∈ slots chain) (ha : s.2.mIsArray = false) (hknown : Known b s.2)
    (h : deserializeChain b call (.object doc) f chain = .ok g) :
    get g s = .empty ↔ get f s = .empty ∧ doc.lookup s.2.mMember = none := by
  have hm : s.2.mIsMap = false := by
    cases hm : s.2.mIsMap with
    | false => rfl
    | true => exact absurd (hchain.maps s hs hm) (by simp [ha])
  have hname : memberName s.2 = s.2.mMember := memberName_of_noMap hm
  obtain ⟨f', g', hbefore, hrun, hafter⟩ := deserializeChain_own hchain hs (by simp [ha]) h
  obtain ⟨required, hreq, hblock⟩ := deserializeItem_scalar hknown ha hm
  rw [hblock] at hrun
  rw [hafter, ← hbefore]
  obtain ⟨hfind, rfl⟩ | ⟨v, hfind, hv⟩ := withMember_cases hrun
  · have hlookup : doc.lookup s.2.mMember = none := Option.some.inj hfind
    simp [hlookup]
  · have hlookup : doc.lookup s.2.mMember = some v := Option.some.inj hfind
    obtain ⟨x, hx, hv⟩ := bind_eq_ok.mp hv
    obtain rfl := Except.ok.inj hv
    have hset : get (f'.set (level s.1) s.2.mMember x) s = x := by
      rw [Slots.get, hname, Fields.set_same]
    simp [hset, hlookup, readMember_ne_empty hx]

end Deserialize

section Fresh

variable {b : Build} {classes : Text → Prop} {chain : List Object} {s : Slot} {f : Fields}
  {call : Text → Option Fields}

/-- The declaration of an optional member initializes it with a value: its row states a
default, and its type is not a class. -/
def Initialized (b : Build) (i : MemberVariable) : Prop :=
  i.mDefaultValue ≠ [] ∧
    (getStandardType i.mType ≠ .none ∨ isVector i.mType = true ∨ b.classEnum i.mType = some true)

theorem initialValue_empty {i : MemberVariable} {d : Datum} (hinit : ∀ i, b.initial i ≠ .empty)
    (ha : i.mIsArray = false) (hp : i.mIsPointer = false) (hopt : i.mIsOptional = .optional)
    (h : initialValue b call i = some d) : d = .empty ↔ ¬ Initialized b i := by
  rw [initialValue, if_neg (by simp [ha]), if_neg (by simp [hp])] at h
  by_cases hdefault : i.mDefaultValue = []
  · simp only [hdefault, hopt, ne_eq, not_true_eq_false, and_false, if_false, if_true] at h
    have hd : d = .empty := by
      split at h
      · exact (Option.some.inj h).symm
      · split at h
        · simp at h
        · exact (Option.some.inj h).symm
        · exact (Option.some.inj h).symm
    simp [hd, Initialized, hdefault]
  · simp only [hdefault, hopt, ne_eq, not_false_eq_true, and_true, if_true] at h
    by_cases hstd : getStandardType i.mType = .none
    · by_cases hvec : isVector i.mType = true
      · simp only [hstd, hvec, not_true_eq_false, if_true, if_false, Option.some.injEq] at h
        simp [← h, Initialized, hvec, hdefault, hinit]
      · simp only [hstd, hvec, not_true_eq_false, if_false, Bool.false_eq_true] at h
        split at h
        · simp at h
        next hclass =>
          rw [← Option.some.inj h]
          simp [Initialized, hclass, hdefault, hinit]
        next hclass =>
          rw [← Option.some.inj h]
          simp [Initialized, hstd, hclass, hvec]
    · simp only [hstd, not_false_eq_true, if_true, Option.some.injEq] at h
      simp [← h, Initialized, hstd, hdefault, hinit]

theorem assignedValue_ne_empty {i : MemberVariable} {d : Datum} (hinit : ∀ i, b.initial i ≠ .empty)
    (h : assignedValue b call i = some d) : d ≠ .empty := by
  rw [assignedValue] at h
  split_ifs at h
  · rw [← Option.some.inj h]
    exact hinit i
  · split at h
    · simp at h
    · rw [← Option.some.inj h]
      exact hinit i
    · obtain ⟨g, _, rfl⟩ := Option.map_eq_some_iff.mp h
      exact Datum.noConfusion

theorem fresh_empty (hnodup : ∀ o ∈ chain, ((ownItems o).map memberName).Nodup)
    (hinit : ∀ i, b.initial i ≠ .empty) (hs : s ∈ slots chain) (ha : s.2.mIsArray = false)
    (hp : s.2.mIsPointer = false) (hopt : s.2.mIsOptional = .optional) (h : constructChain b call chain = some f) :
    get f s = .empty ↔ ¬ Initialized b s.2 ∧ lastAssigned chain s = none := by
  have hvalue := constructChain_value h hnodup hs
  cases hlast : lastAssigned chain s with
  | some i =>
      rw [hlast] at hvalue
      simp [assignedValue_ne_empty hinit hvalue]
  | none =>
      rw [hlast] at hvalue
      simp [initialValue_empty hinit ha hp hopt hvalue]

end Fresh

/-- Nothing gives a new object a value in the member, and nothing in `f` is written under its
key. -/
structure StaysAbsent (b : Build) (chain : List Object) (f : Fields) (s : Slot) : Prop where
  declared : ¬ Initialized b s.2
  assigned : lastAssigned chain s = none
  unwritten : s.2.mMember ∉ documentKeys chain f

theorem type_of_serializeStmt {b : Build} {i : MemberVariable} {stmt : SerializeStmt}
    (h : serializeStmt b.classEnum i = some stmt) :
    getStandardType i.mType ≠ .none ∨ (b.classEnum i.mType).isSome := by
  rw [serializeStmt] at h
  by_cases hstd : isStandardType i.mType = true
  · exact Or.inl (by simpa using (Bool.and_eq_true_iff.mp hstd).1)
  · rw [if_neg hstd] at h
    by_cases hstring : i.mType = "string".toList
    · exact Or.inl (by rw [hstring]; decide)
    · rw [if_neg hstring] at h
      cases hclass : b.classEnum i.mType with
      | none => simp [hclass] at h
      | some isEnum => exact Or.inr rfl

theorem type_of_serialized {b : Build} {chain : List Object} {s : Slot} {f : Fields} {n : Nat}
    {c : Text} {doc : Members} (hchain : b.chain c = some chain) (hs : s ∈ slots chain)
    (h : serializeTo b n c (.object f) = .ok doc) :
    getStandardType s.2.mType ≠ .none ∨ (b.classEnum s.2.mType).isSome := by
  cases n with
  | zero => exact absurd h (by simp [serializeTo])
  | succ n =>
      obtain ⟨entries, hentries, _⟩ := (serializeTo_eq_ok hchain).mp h
      obtain ⟨stmt, hstmt, _⟩ := bind_eq_ok.mp (hentries s hs)
      exact type_of_serializeStmt (orHalt_eq_ok.mp hstmt)

/-- What is written for a value without value in an optional member is read back without one,
if it is read back at all, exactly when no default gives it a value and no other member writes its
key. -/
theorem deserialize_absent {b : Build} {classes : Text → Prop} (hb : Compiles b classes)
    (hinit : ∀ i, b.initial i ≠ .empty) {c : Text} (hc : classes c) {chain : List Object}
    (hchain : b.chain c = some chain) {s : Slot} (hs : s ∈ slots chain)
    (hopt : s.2.mIsOptional = .optional) (ha : s.2.mIsArray = false) {f : Fields} {n k : Nat}
    {doc : Members} (hdoc : serializeTo b n c (.object f) = .ok doc)
    (hk : (Value.object doc).depth < k) :
    ((∃ g, deserialize b k c (.object doc) = .ok (.object g)) ↔
        verdict b c (.object doc) = .accept) ∧
      ∀ g, deserialize b k c (.object doc) = .ok (.object g) →
        (get g s = .empty ↔ StaysAbsent b chain f s) := by
  have hmeets := deserialize_meets hb hc hk
  obtain ⟨chain', hchain', hcompiles⟩ := hb.chain c hc
  obtain rfl := Option.some.inj (hchain.symm.trans hchain')
  obtain ⟨r, hr⟩ := hb.fresh c hc
  obtain ⟨make, hmake⟩ := constructChain_of_fresh hchain hr
  obtain ⟨k, rfl⟩ := Nat.exists_eq_add_of_le' (Nat.lt_of_le_of_lt (Nat.zero_le _) hk)
  have hrun : deserialize b (k + 1) c (.object doc) =
      deserializeChain b (deserializeFrom b k) (.object doc) r chain >>= fun g => .ok (.object g) := by
    simp only [deserialize, readObject, hr, orHalt_some, ok_bind, deserializeFrom, hchain]
  refine ⟨⟨?_, fun haccept => ?_⟩, fun g hg => ?_⟩
  · rintro ⟨g, hg⟩
    exact (accept_of_meets hmeets hg).1
  · rw [haccept] at hmeets
    obtain ⟨w, hw, _⟩ := hmeets
    rw [hrun] at hw ⊢
    obtain ⟨g, hg, _⟩ := bind_eq_ok.mp hw
    exact ⟨g, by rw [hg, ok_bind]⟩
  · rw [hrun] at hg
    obtain ⟨g', hg', hg⟩ := bind_eq_ok.mp hg
    obtain rfl := Datum.object.inj (Except.ok.inj hg)
    have hform := hcompiles.forms s hs
    have hknown : Known b s.2 := ⟨type_of_serialized hchain hs hdoc, hform⟩
    have hkeys := serializeTo_keys hchain hcompiles.maps hdoc
    have hlookup : doc.lookup s.2.mMember = none ↔ s.2.mMember ∉ documentKeys chain f := by
      rw [← hkeys, List.lookup_eq_none_iff]
      constructor
      · intro h hmem
        obtain ⟨e, he, heq⟩ := List.mem_map.mp hmem
        exact bne_iff_ne.mp (h e he) heq.symm
      · exact fun h e he => bne_iff_ne.mpr fun heq => h (heq ▸ List.mem_map_of_mem he)
    rw [deserializeChain_empty hcompiles hs ha hknown hg',
      fresh_empty hcompiles.names hinit hs ha (noPointer_of_form hform ha) hopt hmake, hlookup]
    exact ⟨fun h => ⟨h.1.1, h.1.2, h.2⟩, fun h => ⟨⟨h.declared, h.assigned⟩, h.unwritten⟩⟩

section Examples

def labelItem : MemberVariable where
  mMember := "label".toList
  mType := "string".toList
  mIsOptional := .optional

def levelItem : MemberVariable where
  mMember := "level".toList
  mType := "u32".toList
  mIsOptional := .optional
  mDefaultValue := "5".toList

def lamp : Object where
  mName := "Lamp".toList
  mType := "Class".toList
  mIsClass := true
  mItems := [labelItem, levelItem]

def lamps : Build where
  dom := { mObjects := [lamp] }
  constant := fun _ _ => 0
  initial := fun _ => .int 5

def isLamp (c : Text) : Prop := c = "Lamp".toList

def dark : Fields := fun _ _ => .empty

theorem chain_lamp : lamps.chain "Lamp".toList = some [lamp] := rfl

theorem slots_lamp : slots [lamp] = [([lamp], labelItem), ([lamp], levelItem)] := rfl

theorem lamps_compiles : Compiles lamps isLamp := by
  refine ⟨?_, fun c hc => ?_⟩
  · rintro c rfl
    refine ⟨_, chain_lamp, by decide, by decide, by decide, ?_⟩
    rw [slots_lamp]
    simp only [List.forall_mem_cons]
    exact ⟨⟨.checked "label".toList .stringType false, by decide, rfl⟩,
      ⟨.integer "level".toList .u32 false, by decide, Or.inl rfl⟩, List.forall_mem_nil _⟩
  · obtain rfl : c = "Lamp".toList := hc
    exact ⟨_, rfl⟩

theorem deserialize_absent_label :
    serializeTo lamps 1 "Lamp".toList (.object dark) = .ok [] ∧
      ((∃ g, deserialize lamps 2 "Lamp".toList (.object []) = .ok (.object g)) ↔
        verdict lamps "Lamp".toList (.object []) = .accept) ∧
      ∀ g, deserialize lamps 2 "Lamp".toList (.object []) = .ok (.object g) →
        (get g ([lamp], labelItem) = .empty ↔ StaysAbsent lamps [lamp] dark ([lamp], labelItem)) :=
  ⟨rfl, deserialize_absent (n := 1) lamps_compiles (fun _ => by simp [lamps]) rfl chain_lamp
    (by decide) rfl rfl rfl (by decide)⟩

/-- An absent level is read back as the default. -/
theorem deserialize_level :
    (Compiles lamps isLamp ∧ ([lamp], levelItem) ∈ slots [lamp] ∧
        get dark ([lamp], levelItem) = .empty) ∧
      ∃ g, serializeTo lamps 1 "Lamp".toList (.object dark) = .ok [] ∧
        deserialize lamps 2 "Lamp".toList (.object []) = .ok (.object g) ∧
        get g ([lamp], levelItem) = .int 5 :=
  ⟨⟨lamps_compiles, by decide, rfl⟩, _, rfl, rfl, rfl⟩

end Examples

end SchemaCodeGen.Optionals
