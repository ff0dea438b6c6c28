import SchemaCodeGen.Blocks
import SchemaCodeGen.Decimal

namespace SchemaCodeGen.NumberTexts

open CString Json Schema Emit Fallible Generated Slots Fresh Compilation RoundTrip Judge Conformance
  Blocks Decimal

/-- The integer types whose whole range is considered. -/
def wideTypes : List StandardType := [.u32, .u64, .i64]

def InRange : StandardType → Int → Prop
  | .u32, n => 0 ≤ n ∧ n < 2 ^ 32
  | .u64, n => 0 ≤ n ∧ n < 2 ^ 64
  | .i64, n => -2 ^ 63 ≤ n ∧ n < 2 ^ 63
  | _, _ => False

def textBound : StandardType → Int
  | .u32 => 2 ^ 31
  | _ => 2 ^ 63

def Spells (v : Value) (n : Int) : Prop := v = .number (.int n) ∨ v = .string (intText n)

/-- Every way to write an integer is stored as that integer. -/
def StoresInteger (b : Build) (chain : List Object) (i : MemberVariable) (n : Int) : Prop :=
  ∀ v, Spells v n → Stores b chain i v (.int n)

def StoresIntegers (b : Build) (chain : List Object) (i : MemberVariable) (ns : List Int) : Prop :=
  ∀ vs, List.Forall₂ Spells vs ns → Stores b chain i (.array vs) (.vec (ns.map .int))

section Reading

variable {type : StandardType} {n : Int}

theorem stringToInt_intText (htype : type ∈ wideTypes) (hn : InRange type n) :
    stringToInt type (cstr (intText n)) = n ↔ n < textBound type := by
  rw [cstr_of_nulFree (nulFree_intText n)]
  simp only [wideTypes, List.mem_cons, List.not_mem_nil, or_false] at htype
  rcases htype with rfl | rfl | rfl
  · simp only [InRange] at hn
    simp only [stringToInt, atoi, clamp, decimal_intText, convert, textBound, reduceCtorEq, or_self,
      if_false]
    omega
  · simp only [InRange] at hn
    simp only [stringToInt, atoi64, clamp, decimal_intText, convert, textBound, true_or, if_true]
    omega
  · simp only [InRange] at hn
    simp only [stringToInt, atoi64, clamp, decimal_intText, convert, textBound, or_true, if_true]
    have hclamp : max (-2 ^ 63) (min (2 ^ 63 - 1) n) = n := by omega
    rw [hclamp]
    refine iff_of_true ?_ hn.2
    exact Int.bmod_eq_of_le (by omega) (by omega)

theorem readInteger_number (htype : type ∈ wideTypes) (hn : InRange type n) :
    readInteger type (.number (.int n)) = .ok n := by
  simp only [wideTypes, List.mem_cons, List.not_mem_nil, or_false] at htype
  rcases htype with rfl | rfl | rfl <;> simp only [InRange] at hn
  · have hread : readInteger .u32 (.number (.int n)) =
        orHalt .misuse (if 0 ≤ n ∧ n < 2 ^ 32 then some n else none) := rfl
    rw [hread, if_pos hn, orHalt_some]
  · have hread : readInteger .u64 (.number (.int n)) =
        orHalt .misuse (if 0 ≤ n ∧ n < 2 ^ 64 then some n else none) := rfl
    rw [hread, if_pos hn, orHalt_some]
  · have hread : readInteger .i64 (.number (.int n)) =
        orHalt .misuse (if -2 ^ 63 ≤ n ∧ n < 2 ^ 63 then some n else none) := rfl
    rw [hread, if_pos hn, orHalt_some]

theorem readInteger_iff (htype : type ∈ wideTypes) (hn : InRange type n) :
    (∀ v, Spells v n → readInteger type v = .ok n) ↔ n < textBound type := by
  rw [← stringToInt_intText htype hn]
  constructor
  · intro h
    exact Except.ok.inj (h _ (.inr rfl))
  · rintro h v (rfl | rfl)
    · exact readInteger_number htype hn
    · rw [readInteger, h]

end Reading

section Members

variable {b : Build} {chain : List Object} {i : MemberVariable} {n : Int} {ns : List Int} {vs : List Value}

theorem known_of_wide (h : getStandardType i.mType ∈ wideTypes) : getStandardType i.mType ≠ .none := by
  intro hnone
  rw [hnone] at h
  exact absurd h (by decide)

theorem isNumeric_of_wide {type : StandardType} (h : type ∈ wideTypes) : isNumeric type = true := by
  simp only [wideTypes, List.mem_cons, List.not_mem_nil, or_false] at h
  rcases h with rfl | rfl | rfl <;> rfl

theorem stores_integer_iff (htype : getStandardType i.mType ∈ wideTypes) (ha : i.mIsArray = false)
    (hm : i.mIsMap = false) (hform : HasForm i) (v : Value) (n : Int) :
    Stores b chain i v (.int n) ↔ readInteger (getStandardType i.mType) v = .ok n := by
  have hread : ∀ call, readMember b call i v = asInt (getStandardType i.mType) v := fun call => by
    rw [readMember, if_pos (known_of_wide htype), if_pos (isNumeric_of_wide htype)]
  rw [stores_iff_read ⟨.inl (known_of_wide htype), hform⟩ ha hm]
  simp only [hread, forall_const, asInt]
  cases readInteger (getStandardType i.mType) v <;> simp

theorem storesInteger_iff (htype : getStandardType i.mType ∈ wideTypes) (ha : i.mIsArray = false)
    (hn : InRange (getStandardType i.mType) n) :
    StoresInteger b chain i n ↔
      i.mIsMap = false ∧ i.mIsPointer = false ∧ n < textBound (getStandardType i.mType) := by
  constructor
  · intro h
    have hm := (h _ (.inl rfl)).no_map (known_of_wide htype) Datum.noConfusion
    have hform := (h _ (.inl rfl)).form
    refine ⟨hm, noPointer_of_form hform ha, (readInteger_iff htype hn).mp fun v hv => ?_⟩
    exact (stores_integer_iff htype ha hm hform v n).mp (h v hv)
  · rintro ⟨hm, hp, hbound⟩ v hv
    exact (stores_integer_iff htype ha hm (form_of_noPointer hp) v n).mpr
      ((readInteger_iff htype hn).mpr hbound v hv)

theorem stores_integers_iff (htype : getStandardType i.mType ∈ wideTypes) (ha : i.mIsArray = true)
    (hm : i.mIsMap = false) (vs : List Value) (ns : List Int) :
    Stores b chain i (.array vs) (.vec (ns.map .int)) ↔
      i.mMember ∉ arrayLocals ∧ vs.mapM (readInteger (getStandardType i.mType)) = .ok ns := by
  have hstmt : ∀ names, deserializeStmt b.classEnum names i =
      some (.integerArray i.mMember (getStandardType i.mType) (i.mIsOptional = .required)) := by
    intro names
    simp [deserializeStmt, known_of_wide htype, hm, ha, isNumeric_of_wide htype]
  have hblock : ∀ call d f, d.findMember i.mMember = some (some (.array vs)) →
      deserializeItem b call chain d f i =
        if arrayLocals.contains i.mMember then .error .illFormed
        else vs.mapM (readInteger (getStandardType i.mType)) >>= fun ns =>
          .ok (f.set (level chain) i.mMember (.vec (ns.map .int))) := by
    intro call d f hd
    simp only [deserializeItem, hstmt, orHalt_some, ok_bind, runDeserialize, withMember, hd, arrayItems]
  constructor
  · intro h
    have halone := h.alone fun _ _ _ => .error .fuel
    rw [hblock _ _ _ (by simp [Value.findMember, Value.memberList])] at halone
    split_ifs at halone with hlocal
    obtain ⟨ms, hms, hset⟩ := bind_eq_ok.mp halone
    have heq := congrFun (congrFun (Except.ok.inj hset) (level chain)) i.mMember
    rw [Fields.set_same, Fields.set_same] at heq
    have hmap : ms.map Datum.int = ns.map Datum.int := Datum.vec.inj heq
    rw [List.map_inj_right fun _ _ => Datum.int.inj] at hmap
    exact ⟨by simpa using hlocal, hmap ▸ hms⟩
  · rintro ⟨hlocal, hread⟩
    refine ⟨fun _ => ha, fun call d f hd => ?_⟩
    rw [hblock call d f hd, if_neg (by simpa using hlocal), hread]
    rfl

theorem mapM_readInteger_iff {type : StandardType} (htype : type ∈ wideTypes)
    (hns : ∀ n ∈ ns, InRange type n) :
    (∀ vs, List.Forall₂ Spells vs ns → vs.mapM (readInteger type) = .ok ns) ↔
      ∀ n ∈ ns, n < textBound type := by
  simp only [mapM_eq_ok]
  constructor
  · intro h n hn
    have hspelled : List.Forall₂ Spells (ns.map fun n => .string (intText n)) ns := by
      rw [List.forall₂_map_left_iff, List.forall₂_same]
      exact fun _ _ => .inr rfl
    have hread := h _ hspelled
    rw [List.forall₂_map_left_iff, List.forall₂_same] at hread
    exact (stringToInt_intText htype (hns n hn)).mp (Except.ok.inj (hread n hn))
  · intro h vs hvs
    induction hvs with
    | nil => exact .nil
    | @cons v n vs ns hv _ ih =>
        rw [List.forall_mem_cons] at h hns
        exact .cons ((readInteger_iff htype hns.1).mpr h.1 v hv) (ih hns.2 h.2)

theorem storesIntegers_iff (htype : getStandardType i.mType ∈ wideTypes) (ha : i.mIsArray = true)
    (hns : ∀ n ∈ ns, InRange (getStandardType i.mType) n) :
    StoresIntegers b chain i ns ↔ i.mIsMap = false ∧ i.mMember ∉ arrayLocals ∧
      ∀ n ∈ ns, n < textBound (getStandardType i.mType) := by
  rw [← mapM_readInteger_iff htype hns]
  constructor
  · intro h
    have hspelled : List.Forall₂ Spells (ns.map fun n => .number (.int n)) ns := by
      rw [List.forall₂_map_left_iff, List.forall₂_same]
      exact fun _ _ => .inl rfl
    have hm := (h _ hspelled).no_map (known_of_wide htype) Datum.noConfusion
    have hread : ∀ vs, List.Forall₂ Spells vs ns → i.mMember ∉ arrayLocals ∧
        vs.mapM (readInteger (getStandardType i.mType)) = .ok ns :=
      fun vs hvs => (stores_integers_iff htype ha hm vs ns).mp (h vs hvs)
    exact ⟨hm, (hread _ hspelled).1, fun vs hvs => (hread vs hvs).2⟩
  · rintro ⟨hm, hlocal, hread⟩ vs hvs
    exact (stores_integers_iff htype ha hm vs ns).mpr ⟨hlocal, hread vs hvs⟩

/-- Where no array of the classes is named like a variable of its block, numbers and texts are
stored alike up to the bound of texts, in members that are no maps and no pointers. -/
theorem spelledAlike_iff (b : Build) (classes : Text → Prop) (chain : List Object)
    (i : MemberVariable) (htype : getStandardType i.mType ∈ wideTypes) :
    (i.mIsArray = false → ∀ n, InRange (getStandardType i.mType) n →
      (BlocksCompile b classes ∧ StoresInteger b chain i n ↔
        BlocksCompile b classes ∧ i.mIsMap = false ∧ i.mIsPointer = false ∧
          n < textBound (getStandardType i.mType))) ∧
    (i.mIsArray = true → ∀ ns, (∀ n ∈ ns, InRange (getStandardType i.mType) n) →
      (BlocksCompile b classes ∧ StoresIntegers b chain i ns ↔
        BlocksCompile b classes ∧ i.mIsMap = false ∧ i.mMember ∉ arrayLocals ∧
          ∀ n ∈ ns, n < textBound (getStandardType i.mType))) :=
  ⟨fun ha _ hn => and_congr_right fun _ => storesInteger_iff htype ha hn,
    fun ha _ hns => and_congr_right fun _ => storesIntegers_iff htype ha hns⟩

end Members

section Examples

def counterItem : MemberVariable where
  mMember := "count".toList
  mType := "u32".toList

def counter : Object where
  mName := "Counter".toList
  mType := "Class".toList
  mIsClass := true
  mItems := [counterItem]

def counters : Build where
  dom := { mObjects := [counter] }
  constant := fun _ _ => 0
  initial := fun _ => .int 0

theorem spelledAlike_count :
    (counterItem.mIsArray = false → ∀ n, InRange (getStandardType counterItem.mType) n →
      (BlocksCompile counters (· = "Counter".toList) ∧
          StoresInteger counters [counter] counterItem n ↔
        BlocksCompile counters (· = "Counter".toList) ∧ counterItem.mIsMap = false ∧
          counterItem.mIsPointer = false ∧ n < textBound (getStandardType counterItem.mType))) ∧
    (counterItem.mIsArray = true → ∀ ns, (∀ n ∈ ns, InRange (getStandardType counterItem.mType) n) →
      (BlocksCompile counters (· = "Counter".toList) ∧
          StoresIntegers counters [counter] counterItem ns ↔
        BlocksCompile counters (· = "Counter".toList) ∧ counterItem.mIsMap = false ∧
          counterItem.mMember ∉ arrayLocals ∧
          ∀ n ∈ ns, n < textBound (getStandardType counterItem.mType))) :=
  spelledAlike_iff counters (· = "Counter".toList) [counter] counterItem (by decide)

/-- The greatest `u32` is stored from its number, and as half of that from its text. -/
theorem deserialize_count :
    (∃ g, deserialize counters 2 "Counter".toList
        (.object [("count".toList, .number (.int 4294967295))]) = .ok (.object g) ∧
      g 0 "count".toList = .int 4294967295) ∧
    (∃ g, deserialize counters 2 "Counter".toList
        (.object [("count".toList, .string "4294967295".toList)]) = .ok (.object g) ∧
      g 0 "count".toList = .int 2147483647) ∧
    ¬ StoresInteger counters [counter] counterItem 4294967295 := by
  have hrange : InRange .u32 4294967295 := by
    simp only [InRange]
    decide
  refine ⟨⟨_, rfl, rfl⟩, ⟨_, rfl, rfl⟩, fun h => ?_⟩
  have hbound := ((storesInteger_iff (i := counterItem) (by decide) rfl hrange).mp h).2.2
  exact absurd hbound (by decide)

end Examples

end SchemaCodeGen.NumberTexts
