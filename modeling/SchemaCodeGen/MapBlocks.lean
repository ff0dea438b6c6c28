import SchemaCodeGen.Arrays
import SchemaCodeGen.Conformance

namespace SchemaCodeGen.MapBlocks

open CString Floats Json Schema Emit EnumTable Fallible Generated Slots Values RoundTrip Judge
  Readers Conformance

section Wire

variable (b : Build) (k : Nat)

/-- A single value of a standard type, of an enum or of a class. -/
structure ScalarItem (i : MemberVariable) : Prop where
  type : getStandardType i.mType ≠ .none ∨ (b.classEnum i.mType).isSome
  noArray : i.mIsArray = false
  noMap : i.mIsMap = false

/-- The values of such a member, none only of an optional. An object is one that can be written. -/
def ScalarValue (i : MemberVariable) (d : Datum) : Prop :=
  (i.mIsOptional = .optional ∧ d = .empty) ∨
  match getStandardType i.mType, d with
  | .none, .object f => b.classEnum i.mType = some false ∧
      ∃ ms, serializeTo b k i.mType (.object f) = .ok ms
  | .none, d => b.classEnum i.mType = some true ∧ EnumValue b i d
  | .floatType, .real x => x.IsFinite ∧ binary32.Holds x
  | .doubleType, .real x => x.IsFinite
  | .boolType, .bool _ => True
  | .stringType, .str _ => True
  | .floatType, _ | .doubleType, _ | .boolType, _ | .stringType, _ => False
  | type, .int n => convert type n = n
  | _, _ => False

def image (i : MemberVariable) : Datum → Option Value
  | .int n => some (.number (.int n))
  | .real x => some (.number (.double x))
  | .bool p => some (.bool p)
  | .str s => some (.string (cstr s))
  | .enum n =>
      if i.mSerializeEnumAsInteger then some (.number (.int n))
      else ((b.enumType i.mType).bind fun e => stringifyEnum b.constant e n).map .string
  | .object f => (serializeTo b k i.mType (.object f)).toOption.map .object
  | _ => none

def entry (i : MemberVariable) (d : Datum) : Members :=
  ((image b k i d).map fun j => (i.mMember, j)).toList

variable {b k} {i : MemberVariable} {d : Datum}

theorem image_none (hd : ScalarValue b k i d) (h : image b k i d = none) :
    i.mIsOptional = .optional := by
  obtain ⟨hopt, _⟩ | hd := hd
  · exact hopt
  · cases d with
    | enum n =>
        exfalso
        cases ht : getStandardType i.mType <;> rw [ht] at hd <;> try exact hd
        rw [image] at h
        split_ifs at h with hint
        obtain ⟨e, he, hs⟩ := hd.2.2 (by simpa using hint)
        obtain ⟨t, ht⟩ := Option.isSome_iff_exists.mp hs
        simp [he, ht] at h
    | object f =>
        exfalso
        cases ht : getStandardType i.mType <;> rw [ht] at hd <;> try exact hd
        obtain ⟨_, ms, hms⟩ := hd
        simp [image, hms, Except.toOption] at h
    | int n | real x | bool p | str s => simp [image] at h
    | empty | vec l | map l =>
        exfalso
        cases ht : getStandardType i.mType <;> rw [ht] at hd <;> first
          | exact hd
          | exact hd.2

theorem addMember_entry {value : Datum → Run Value}
    (h : (i.mIsOptional = .optional ∧ d = .empty) ∨ ∃ j, value d = .ok j ∧ image b k i d = some j) :
    addMember i.mMember (i.mIsOptional = .optional) d value = .ok (entry b k i d) := by
  obtain ⟨hopt, rfl⟩ | ⟨j, hj, himage⟩ := h
  · simp [addMember, hopt, entry, image]
  · have hne : d ≠ .empty := by
      rintro rfl
      simp [image] at himage
    have hadd : ∀ optional, addMember i.mMember optional d value = .ok [(i.mMember, j)] := by
      intro optional
      cases optional <;> cases d <;> simp_all [addMember]
    rw [hadd, entry, himage]
    rfl

theorem serialize_enum (hnone : getStandardType i.mType = .none)
    (henum : b.classEnum i.mType = some true) (ha : i.mIsArray = false) (hd : ScalarValue b k i d)
    {call : Text → Datum → Run Members} {own : Text → Datum} (hown : own i.mMember = d) :
    serializeItem b call own i = .ok (entry b k i d) := by
  have hstmt := (statements_enum b.classEnum [] hnone henum ha).1
  simp only [serializeItem, hstmt, orHalt_some, ok_bind, runSerialize, hown]
  refine addMember_entry (hd.imp id fun hd => ?_)
  rw [hnone] at hd
  cases d with
  | enum n =>
      cases hint : i.mSerializeEnumAsInteger with
      | true => exact ⟨_, rfl, by simp [image, hint]⟩
      | false =>
          obtain ⟨e, he, hs⟩ := hd.2.2 hint
          obtain ⟨t, ht⟩ := Option.isSome_iff_exists.mp hs
          exact ⟨.string t, by simp [Generated.enumName, he, ht], by simp [image, hint, he, ht]⟩
  | object f => exact absurd (henum.symm.trans hd.1) (by simp)
  | _ => exact absurd hd.2 id

theorem serialize_object (hnone : getStandardType i.mType = .none)
    (hclass : b.classEnum i.mType = some false) (ha : i.mIsArray = false) (hm : i.mIsMap = false)
    (hd : ScalarValue b k i d) {own : Text → Datum} (hown : own i.mMember = d) :
    serializeItem b (serializeTo b k) own i = .ok (entry b k i d) := by
  have hstmt := (statements_object b.classEnum [] hnone hclass hm).1
  rw [ha] at hstmt
  simp only [serializeItem, hstmt, orHalt_some, ok_bind, runSerialize, hown, Bool.false_eq_true,
    if_false]
  refine addMember_entry (hd.imp id fun hd => ?_)
  rw [hnone] at hd
  cases d with
  | object f =>
      obtain ⟨_, ms, hms⟩ := hd
      exact ⟨.object ms, by simp [objectValue, hms], by simp [image, hms, Except.toOption]⟩
  | _ => exact absurd (hclass.symm.trans hd.1) (by simp)

theorem serialize_scalar (hi : ScalarItem b i) (hd : ScalarValue b k i d) {own : Text → Datum}
    (hown : own i.mMember = d) :
    serializeItem b (serializeTo b k) own i = .ok (entry b k i d) := by
  by_cases hnone : getStandardType i.mType = .none
  · obtain ⟨isEnum, hclass⟩ := Option.isSome_iff_exists.mp (hi.type.resolve_left (by simp [hnone]))
    cases isEnum with
    | true => exact serialize_enum hnone hclass hi.noArray hd hown
    | false => exact serialize_object hnone hclass hi.noArray hi.noMap hd hown
  · by_cases hstring : getStandardType i.mType = .stringType
    · have hstmt := (statements_string b.classEnum [] hstring hi.noMap hi.noArray).1
      simp only [serializeItem, hstmt, orHalt_some, ok_bind, runSerialize, hown]
      refine addMember_entry (hd.imp id fun hd => ?_)
      rw [hstring] at hd
      cases d with
      | str t => exact ⟨_, rfl, rfl⟩
      | _ => exact absurd hd id
    · have hstmt : serializeStmt b.classEnum i =
          some (.raw i.mMember (i.mIsOptional = .optional)) := by
        simp [serializeStmt, isStandardType, hnone, hstring, hi.noArray]
      simp only [serializeItem, hstmt, orHalt_some, ok_bind, runSerialize, hown]
      refine addMember_entry (hd.imp id fun hd => ?_)
      cases d with
      | int n | real x | bool p => exact ⟨_, rfl, rfl⟩
      | _ =>
          exfalso
          cases ht : getStandardType i.mType <;> rw [ht] at hd <;> first
            | exact hd
            | exact hnone ht
            | exact hstring ht

end Wire

section Reading

variable {b : Build} {doc : Members} {f g : Fields} {t : Slot}

def scalar (b : Build) (judge : Text → Value → Verdict) (i : MemberVariable) (v : Value) : Verdict :=
  if getStandardType i.mType = .none then
    if b.classEnum i.mType = some true then Judge.enum b i.mType i.mSerializeEnumAsInteger v
    else judge i.mType v
  else if isNumeric (getStandardType i.mType) then integer (getStandardType i.mType) v
  else checked (getStandardType i.mType) v

/-- The block of a single member looks for its entry and sets the member, whatever the
class and the document. -/
theorem scalar_block (hi : ScalarItem b t.2) :
    ∃ (required : Bool) (read : (Text → Value → Fields → Run Fields) → Value → Run Datum),
      (t.2.mIsOptional = .optional → required = false) ∧
      (∀ judge d, slot b judge d t = member d t.2.mMember required (scalar b judge t.2)) ∧
      ∀ call d f, deserializeItem b call t.1 d f t.2 = withMember d t.2.mMember required f
        (fun v => do .ok (f.set (level t.1) t.2.mMember (← read call v))) := by
  have hblock : ∀ {stmt}, statementOf b t = some stmt → ∀ call d f,
      deserializeItem b call t.1 d f t.2 = runDeserialize b call b.fresh t.1 d f stmt := by
    intro stmt hstmt call d f
    rw [statementOf] at hstmt
    simp only [deserializeItem, hstmt, orHalt_some, ok_bind]
  by_cases hnone : getStandardType t.2.mType = .none
  · obtain ⟨isEnum, hclass⟩ := Option.isSome_iff_exists.mp (hi.type.resolve_left (by simp [hnone]))
    cases isEnum with
    | true =>
        have hstmt : statementOf b t = _ :=
          (statements_enum b.classEnum ((t.1.head?.map nonMapItems).getD []) hnone hclass hi.noArray).2
        refine ⟨false, fun _ => readEnum b t.2.mType t.2.mSerializeEnumAsInteger, fun _ => rfl,
          fun judge d => ?_, hblock hstmt⟩
        rw [slot, hstmt, Option.map_some, Option.getD_some, statement]
        congr 1
        funext v
        simp [scalar, hnone, hclass]
    | false =>
        have hstmt : statementOf b t = some (.object t.2.mMember t.2.mType
            (t.2.mIsOptional = .required)) := by
          simp [statementOf, deserializeStmt, hnone, hclass, hi.noArray]
        refine ⟨t.2.mIsOptional = .required, fun call => readObject call b.fresh t.2.mType,
          fun h => by simp [h], fun judge d => ?_, hblock hstmt⟩
        rw [slot, hstmt, Option.map_some, Option.getD_some, statement]
        congr 1
        funext v
        simp [scalar, hnone, hclass]
  · by_cases hnum : isNumeric (getStandardType t.2.mType) = true
    · have hstmt : statementOf b t = some (.integer t.2.mMember (getStandardType t.2.mType)
          (t.2.mIsOptional = .required)) := by
        simp [statementOf, deserializeStmt, hnone, hi.noMap, hi.noArray, hnum]
      refine ⟨t.2.mIsOptional = .required, fun _ => asInt (getStandardType t.2.mType),
        fun h => by simp [h], fun judge d => ?_, fun call d f => ?_⟩
      · rw [slot, hstmt, Option.map_some, Option.getD_some, statement]
        congr 1
        funext v
        simp [scalar, hnone, hnum]
      · rw [hblock hstmt, runDeserialize]
        congr 1
        funext v
        dsimp only
        rw [asInt]
        cases readInteger (getStandardType t.2.mType) v <;> rfl
    · have hstmt : statementOf b t = some (.checked t.2.mMember (getStandardType t.2.mType)
          (t.2.mIsOptional = .required)) := by
        simp [statementOf, deserializeStmt, hnone, hi.noMap, hi.noArray, hnum]
      refine ⟨t.2.mIsOptional = .required, fun _ => readChecked (getStandardType t.2.mType),
        fun h => by simp [h], fun judge d => ?_, hblock hstmt⟩
      rw [slot, hstmt, Option.map_some, Option.getD_some, statement]
      congr 1
      funext v
      simp [scalar, hnone, hnum]

theorem scalar_frame (hi : ScalarItem b t.2) {call : Text → Value → Fields → Run Fields} {d : Value}
    (h : deserializeItem b call t.1 d f t.2 = .ok g) {u : Slot} (hne : key u ≠ key t) :
    Slots.get g u = Slots.get f u := by
  obtain ⟨required, read, _, _, hblock⟩ := scalar_block hi
  have hname : memberName t.2 = t.2.mMember := memberName_of_noMap hi.noMap
  rw [hblock] at h
  refine Blocks.withMember_frame h fun v hv => Blocks.set_frame hv ?_
  rw [← hname]
  exact hne

theorem slot_scalar_iff (hi : ScalarItem b t.2) {judge : Text → Value → Verdict}
    (hpresent : doc.lookup t.2.mMember = none → t.2.mIsOptional = .optional) :
    slot b judge (.object doc) t = .accept ↔
      ∀ j, doc.lookup t.2.mMember = some j → scalar b judge t.2 j = .accept := by
  obtain ⟨required, _, hreq, hslot, _⟩ := scalar_block hi
  rw [hslot, member]
  cases hlookup : doc.lookup t.2.mMember with
  | none => simp [hreq (hpresent hlookup)]
  | some v => simp

end Reading

section Collecting

variable (b : Build)

/-- A map of numbers, of strings or of lists of enums. -/
structure MapItem (i : MemberVariable) : Prop where
  type : getStandardType i.mType = .u32 ∨ getStandardType i.mType = .u64 ∨
    getStandardType i.mType = .i64 ∨ getStandardType i.mType = .stringType ∨
    (getStandardType i.mType = .none ∧ b.classEnum i.mType = some true)
  map : i.mIsMap = true
  array : i.mIsArray = true

/-- The entries that the map of strings leaves to the other members. -/
def Skipped (s : Slot) (name : Text) : Prop :=
  (s.1.head?.map nonMapItems).getD [] ≠ [] ∧ isMember s.1 name = true

instance (s : Slot) (name : Text) : Decidable (Skipped s name) :=
  inferInstanceAs (Decidable (_ ∧ _))

/-- What the loop over the document makes of an entry: a value, nothing, or an early end. -/
def take (s : Slot) (e : Text × Value) : Run (Option Datum) :=
  match getStandardType s.2.mType, e.2 with
  | .none, v => do .ok (some (.vec (← (← arrayItems v).mapM (readEnumName b s.2.mType))))
  | .stringType, .string t => .ok (if Skipped s (cstr e.1) then none else some (.str (cstr t)))
  | .stringType, _ => .ok none
  | type, .string t => .ok (some (.int (convert type (stringToInt .u64 (cstr t)))))
  | type, .number n => do .ok (some (.int (convert type (← orHalt .misuse (Value.number n).getUint64))))
  | _, _ => .ok none

def put (s : Slot) (f : Fields) (e : Text × Value) : Run Fields := do
  match ← take b s e with
  | some d => f.assign (level s.1) ('_' :: s.2.mMember) (cstr e.1) d
  | none => .ok f

variable {b} {s : Slot} {doc : Members} {f : Fields}

theorem map_block (hi : MapItem b s.2) {call : Text → Value → Fields → Run Fields}
    {stmt : DeserializeStmt} (hstmt : statementOf b s = some stmt) :
    deserializeItem b call s.1 (.object doc) f s.2 = doc.foldlM (put b s) f := by
  have hblock : deserializeItem b call s.1 (.object doc) f s.2 =
      runDeserialize b call b.fresh s.1 (.object doc) f stmt := by
    rw [statementOf] at hstmt
    simp only [deserializeItem, hstmt, orHalt_some, ok_bind]
  rw [hblock]
  rw [statementOf, deserializeStmt] at hstmt
  by_cases hnone : getStandardType s.2.mType = .none
  · have henum : b.classEnum s.2.mType = some true := by
      have h := hi.type
      simp only [hnone, reduceCtorEq, false_or, true_and] at h
      exact h
    simp only [hnone, henum, hi.array, hi.map, ne_eq, not_true_eq_false, if_false, if_true] at hstmt
    obtain rfl := Option.some.inj hstmt
    rw [runDeserialize]
    refine congrArg (fun step => doc.foldlM step f) (funext fun f => funext fun e => ?_)
    simp only [put, take, hnone]
    cases arrayItems e.2 with
    | error h => rfl
    | ok js =>
        simp only [ok_bind]
        cases js.mapM (readEnumName b s.2.mType) <;> rfl
  · simp only [hnone, ne_eq, not_false_eq_true, if_true, hi.map] at hstmt
    by_cases hnum : isNumeric (getStandardType s.2.mType) = true
    · rw [if_pos hnum] at hstmt
      split_ifs at hstmt
      obtain rfl := Option.some.inj hstmt
      rw [runDeserialize]
      refine congrArg (fun step => doc.foldlM step f) (funext fun f => funext fun e => ?_)
      obtain ⟨k, v⟩ := e
      obtain h | h | h | h | h := hi.type
      case inr.inr.inr.inl => simp [h, isNumeric, deserializeTypeName] at hnum
      case inr.inr.inr.inr => exact absurd h.1 hnone
      all_goals
        simp only [put, take, h]
        cases v with
        | number n =>
            dsimp only
            cases (Value.number n).getUint64 <;> rfl
        | null | bool _ | string _ | array _ | object _ => rfl
    · rw [if_neg hnum] at hstmt
      obtain rfl := Option.some.inj hstmt
      have hstring : getStandardType s.2.mType = .stringType := by
        obtain h | h | h | h | h := hi.type
        case inr.inr.inr.inl => exact h
        case inr.inr.inr.inr => exact absurd h.1 hnone
        all_goals simp [h, isNumeric, deserializeTypeName] at hnum
      rw [runDeserialize, if_neg (by simp [hstring])]
      refine congrArg (fun step => doc.foldlM step f) (funext fun f => funext fun e => ?_)
      obtain ⟨k, v⟩ := e
      simp only [put, take, hstring]
      cases v with
      | string t =>
          by_cases hskip : Skipped s (cstr k)
          · have hskip' : (decide ((s.1.head?.map nonMapItems).getD [] ≠ []) &&
                isMember s.1 (cstr k)) = true := by simpa [Skipped] using hskip
            simp only [hskip, hskip', if_true]
            rfl
          · have hskip' : ¬ (decide ((s.1.head?.map nonMapItems).getD [] ≠ []) &&
                isMember s.1 (cstr k)) = true := by simpa [Skipped] using hskip
            simp only [hskip, hskip', if_false]
            rfl
      | null | bool _ | number _ | array _ | object _ => rfl

theorem foldlM_put_take {g : Fields} (h : doc.foldlM (put b s) f = .ok g) :
    ∀ e ∈ doc, ∃ r, take b s e = .ok r := by
  induction doc generalizing f with
  | nil => simp
  | cons e doc ih =>
      rw [List.foldlM_cons] at h
      obtain ⟨f', hput, h⟩ := bind_eq_ok.mp h
      obtain ⟨r, hr, _⟩ := bind_eq_ok.mp hput
      exact List.forall_mem_cons.mpr ⟨⟨r, hr⟩, ih h⟩

theorem foldlM_put (hmap : s.2.mIsMap = true) {acc : List (Text × Datum)}
    (hf : Slots.get f s = .map acc) (hdoc : ∀ e ∈ doc, ∃ r, take b s e = .ok r) :
    ∃ g es, doc.foldlM (put b s) f = .ok g ∧ Slots.get g s = .map (Entries.assignAll acc es) ∧
      ∀ p, p ∈ es ↔ ∃ e ∈ doc, take b s e = .ok (some p.2) ∧ p.1 = cstr e.1 := by
  have hname : memberName s.2 = '_' :: s.2.mMember := memberName_of_map hmap
  induction doc generalizing f acc with
  | nil => exact ⟨f, [], rfl, hf, by simp⟩
  | cons e doc ih =>
      rw [List.forall_mem_cons] at hdoc
      obtain ⟨⟨r, hr⟩, hdoc⟩ := hdoc
      rw [List.foldlM_cons]
      cases r with
      | none =>
          have hput : put b s f e = .ok f := by simp [put, hr]
          obtain ⟨g, es, hg, hget, hes⟩ := ih hf hdoc
          refine ⟨g, es, by rw [hput, ok_bind, hg], hget, fun p => ?_⟩
          rw [hes, List.exists_mem_cons_iff, hr]
          simp
      | some d =>
          have hput : put b s f e =
              .ok (Slots.set f s (.map (Entries.assign (cstr e.1) d acc))) := by
            rw [Slots.get, hname] at hf
            simp only [put, hr, ok_bind, Fields.assign, hf, entries, Slots.set, hname]
          obtain ⟨g, es, hg, hget, hes⟩ :=
            ih (get_set_same f s (.map (Entries.assign (cstr e.1) d acc))) hdoc
          refine ⟨g, (cstr e.1, d) :: es, by rw [hput, ok_bind, hg], hget, fun p => ?_⟩
          rw [List.mem_cons, hes, List.exists_mem_cons_iff, hr]
          refine or_congr ?_ Iff.rfl
          constructor
          · rintro rfl
            exact ⟨rfl, rfl⟩
          · rintro ⟨hd, hk⟩
            obtain rfl := Option.some.inj (Except.ok.inj hd)
            exact Prod.ext hk rfl

end Collecting

section Writing

variable (b : Build)

/-- The values of a map of the type: numbers of the type, strings, or lists of listed enums. -/
def MapValue (i : MemberVariable) (x : Datum) : Prop :=
  match getStandardType i.mType, x with
  | .none, .vec l => ∀ y ∈ l, Arrays.Element b i y
  | .none, _ => False
  | .stringType, .str _ => True
  | .stringType, _ => False
  | type, .int n => convert type n = n
  | _, _ => False

/-- A value that the loop gives back as it was. -/
def Intact (i : MemberVariable) : Datum → Prop
  | .int n => 0 ≤ n
  | .str t => NulFree t
  | .vec l => ∀ y ∈ l, Arrays.Decodes b i.mType y
  | _ => True

def write (i : MemberVariable) : Datum → Run Value :=
  match getStandardType i.mType with
  | .none => fun d => do .ok (.array (← (← items d).mapM (Generated.enumName b i.mType)))
  | .stringType => stringValue
  | _ => rawValue

variable {b} {s : Slot} {i : MemberVariable} {l : List (Text × Datum)} {x : Datum}

theorem take_number {n : Int} (ht : getStandardType s.2.mType = .u32 ∨
      getStandardType s.2.mType = .u64 ∨ getStandardType s.2.mType = .i64)
    (hn : convert (getStandardType s.2.mType) n = n) (k : Text) :
    take b s (k, .number (.int n)) = .ok (some (.int n)) ↔ 0 ≤ n := by
  have hlt : n < 2 ^ 64 := by
    obtain h | h | h := ht <;> rw [h] at hn
    · have := Int.emod_lt_of_pos n (show (0 : Int) < 2 ^ 32 by decide)
      simp only [convert] at hn
      omega
    · have := Int.emod_lt_of_pos n (show (0 : Int) < 2 ^ 64 by decide)
      simp only [convert] at hn
      omega
    · have := Int.bmod_lt (x := n) (show 0 < 2 ^ 64 by decide)
      simp only [convert] at hn
      omega
  have htake : take b s (k, .number (.int n)) =
      orHalt .misuse (Value.number (.int n)).getUint64 >>= fun n =>
        .ok (some (.int (convert (getStandardType s.2.mType) n))) := by
    obtain h | h | h := ht <;> simp only [take, h]
  rw [htake]
  by_cases h0 : 0 ≤ n
  · have hget : (Value.number (.int n)).getUint64 = some n := if_pos ⟨h0, hlt⟩
    simp [hget, hn, h0]
  · simp [Value.getUint64, h0]

/-- A value is read back exactly when it is intact. -/
theorem write_take (hi : MapItem b s.2) (hx : MapValue b s.2 x) :
    ∃ j, write b s.2 x = .ok j ∧
      ∀ k, ¬ Skipped s (cstr k) → (take b s (k, j) = .ok (some x) ↔ Intact b s.2 x) := by
  have hnumber : ∀ {type}, getStandardType s.2.mType = type →
      (type = .u32 ∨ type = .u64 ∨ type = .i64) → ∃ j, write b s.2 x = .ok j ∧
        ∀ k, ¬ Skipped s (cstr k) → (take b s (k, j) = .ok (some x) ↔ Intact b s.2 x) := by
    rintro type ht (rfl | rfl | rfl)
    all_goals
      simp only [MapValue, ht] at hx
      cases x with
      | int n =>
          refine ⟨.number (.int n), by simp only [write, ht]; rfl, fun k _ => ?_⟩
          exact take_number (by simp [ht]) (by rw [ht]; exact hx) k
      | _ => exact absurd hx id
  obtain h | h | h | h | ⟨h, henum⟩ := hi.type
  · exact hnumber h (Or.inl rfl)
  · exact hnumber h (Or.inr (Or.inl rfl))
  · exact hnumber h (Or.inr (Or.inr rfl))
  · simp only [MapValue, h] at hx
    cases x with
    | str t =>
        refine ⟨.string (cstr t), by simp only [write, h]; rfl, fun k hk => ?_⟩
        have htake : take b s (k, .string (cstr t)) = .ok (some (.str (cstr (cstr t)))) := by
          simp only [take, h, hk, if_false]
        rw [htake, cstr_of_nulFree (nulFree_cstr t), Intact, ← cstr_eq_self_iff]
        simp
    | _ => exact absurd hx id
  · simp only [MapValue, h] at hx
    cases x with
    | vec l =>
        obtain ⟨e, he⟩ := enumType_isSome henum
        obtain ⟨js, ds, hwrite, hds, _, hread⟩ := Arrays.mapM_enumName (l := l) he fun y hy => by
          have hy := hx y hy
          unfold Arrays.Element at hy
          rw [h] at hy
          cases y with
          | enum n =>
              obtain ⟨e', he', hn⟩ := hy
              obtain rfl := Option.some.inj (he.symm.trans he')
              obtain ⟨t, ht⟩ := Option.isSome_iff_exists.mp hn
              exact ⟨n, t, rfl, ht⟩
          | _ => exact absurd hy id
        refine ⟨.array js, by simp [write, h, items, hwrite], fun k _ => ?_⟩
        have htake : take b s (k, .array js) = .ok (some (.vec ds)) := by
          simp only [take, h, arrayItems, ok_bind, hds]
        rw [htake, Intact, ← hread]
        simp
    | _ => exact absurd hx id

theorem serialize_map (hi : MapItem b i) (call : Text → Datum → Run Members) {own : Text → Datum}
    (hown : own ('_' :: i.mMember) = .map l) : serializeItem b call own i =
      if getStandardType i.mType = .stringType ∧ i.mIsOptional = .optional then .error .illFormed
      else l.mapM (fun e => write b i e.2 >>= fun j => .ok (cstr e.1, j)) := by
  have hnumber : ∀ {type}, getStandardType i.mType = type →
      (type = .u32 ∨ type = .u64 ∨ type = .i64) → serializeItem b call own i =
        l.mapM (fun e => write b i e.2 >>= fun j => .ok (cstr e.1, j)) := by
    rintro type ht (rfl | rfl | rfl)
    all_goals
      have hstmt : serializeStmt b.classEnum i = some (.rawMap i.mMember) := by
        simp [serializeStmt, isStandardType, ht, hi.array, hi.map]
      simp only [serializeItem, hstmt, orHalt_some, ok_bind, runSerialize, hown, addEntries, entries,
        write, ht]
  obtain h | h | h | h | ⟨h, henum⟩ := hi.type
  · rw [if_neg (by simp [h])]
    exact hnumber h (Or.inl rfl)
  · rw [if_neg (by simp [h])]
    exact hnumber h (Or.inr (Or.inl rfl))
  · rw [if_neg (by simp [h])]
    exact hnumber h (Or.inr (Or.inr rfl))
  · have hstmt : serializeStmt b.classEnum i =
        some (.stringMap i.mMember (i.mIsOptional = .optional)) := by
      have hs := getStandardType_eq_string h
      simp only [serializeStmt, isStandardType, hs, hi.array, hi.map]
      rfl
    simp only [serializeItem, hstmt, orHalt_some, ok_bind, runSerialize, h, true_and, decide_eq_true_eq]
    split_ifs
    · rfl
    · simp only [hown, addEntries, entries, ok_bind, write, h]
  · rw [if_neg (by simp [h])]
    have hstmt : serializeStmt b.classEnum i = some (.enumListMap i.mMember i.mType) := by
      have hs := not_string_of_none h
      simp only [serializeStmt, isStandardType, h, hs, henum, hi.array, hi.map]
      rfl
    simp only [serializeItem, hstmt, orHalt_some, ok_bind, runSerialize, hown, addEntries, entries,
      write, h]

end Writing

end SchemaCodeGen.MapBlocks
