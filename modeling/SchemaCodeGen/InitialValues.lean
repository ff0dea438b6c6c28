import SchemaCodeGen.Decimal
import SchemaCodeGen.Generated
import SchemaCodeGen.Header
import SchemaCodeGen.Literals

namespace SchemaCodeGen.InitialValues

open CString CNumber Decimal Schema EnumTable Generated Header CppComments Literals

variable (trigraphs : Bool) (b : Build)

def isInteger (type : Text) : Prop := isSigned type = true ∨ isUnsigned type = true

instance (type : Text) : Decidable (isInteger type) :=
  inferInstanceAs (Decidable (isSigned type = true ∨ isUnsigned type = true))

/-- The value of a text that is an integer constant of C, with or without a sign. -/
def integerConstant (t : Text) : Option Int :=
  let signed := takeSign t
  let based := autoBase signed.2
  if based.2 ≠ [] ∧ based.2.all (isDigitOf based.1) = true then
    some (if signed.1 then -(natOf based.1 based.2 : Int) else natOf based.1 based.2)
  else none

def truth (t : Text) : Option Bool :=
  if stricmp t "true".toList ∨ t = ['1'] then some true
  else if stricmp t "false".toList ∨ t = ['0'] then some false
  else none

/-- The value of the enumerator that a qualified name means. -/
def enumerator (type qualified : Text) : Option Datum :=
  (b.enumType type).bind fun e =>
    ((numbered b.constant [] 0 e.mItems).find? fun k => type ++ "::".toList ++ k.1 = qualified).map
      fun k => .enum k.2

/-- The value that the schema states with the DefaultValue of a row. Real numbers are left out. -/
def stated (i : MemberVariable) : Option Datum :=
  let value := i.mDefaultValue
  if i.mType = "string".toList then some (.str value)
  else if isInteger i.mType then
    ((integerConstant value).filter fun n => convert (getStandardType i.mType) n = n).map .int
  else if i.mType = "bool".toList then (truth value).map .bool
  else if i.mType = "float".toList ∨ i.mType = "double".toList then none
  else enumerator b i.mType (i.mType ++ "::".toList ++ value)

/-- The text that is printed for a row: the initializer of a declaration, or what a constructor
assigns. -/
def printed (i : MemberVariable) : Text :=
  if i.mInheritsFrom = [] then getCppValueInitializer i b.dom else getCppRValue i b.dom

/-- The value of the printed text, where it is a literal of the type of the row or an enumerator
of it. -/
def compiled (i : MemberVariable) : Option Datum :=
  let text := printed b i
  if i.mType = "string".toList then (cppText trigraphs text).map fun s => .str (cstr s)
  else if isInteger i.mType then some (.int (convert (getStandardType i.mType) (decimal text)))
  else if i.mType = "bool".toList then some (.bool (text = "true".toList))
  else if i.mType = "float".toList ∨ i.mType = "double".toList then some (b.initial i)
  else enumerator b i.mType text

/-- The values of the default texts, with no value for a text that is no literal. -/
def read : Build := { b with initial := fun i => (compiled trigraphs b i).getD .empty }

/-- No narrowing takes place between braces, and enumerators are declared. The magnitude of the
least integer of all is a literal without sign. -/
structure InitializerCompiles (i : MemberVariable) : Prop where
  range : isInteger i.mType → i.mIsOptional ≠ .optional →
    let n := decimal (printed b i)
    convert (getStandardType i.mType) n = n ∧ -2 ^ 63 < n
  declared : getStandardType i.mType = .none → (compiled trigraphs b i).isSome

/-- The characters that do not stand for themselves between the quotes of a literal. -/
def special : List Char := ['"', '\\', '\n', '\r', nul]

/-- C++ reads from the text that is printed for a row what the schema states with it. -/
structure Kept (i : MemberVariable) : Prop where
  bool : i.mType = "bool".toList → i.mDefaultValue ≠ ['1']
  string : i.mType = "string".toList →
    (replaced trigraphs).output i.mDefaultValue = i.mDefaultValue ∧ ∀ c ∈ i.mDefaultValue, c ∉ special
  enum : getStandardType i.mType = .none →
    enumerator b i.mType (printed b i) =
      enumerator b i.mType (i.mType ++ "::".toList ++ i.mDefaultValue)

variable {trigraphs} {b} {i : MemberVariable} {t : Text} {v : Datum}

theorem chain_read (c : Text) : (read trigraphs b).chain c = b.chain c := by
  have hchain : ∀ n c, (read trigraphs b).chainFrom n c = b.chainFrom n c := by
    intro n
    induction n with
    | zero => exact fun _ => rfl
    | succ n ih =>
        intro c
        rw [Build.chainFrom, Build.chainFrom, funext ih]
        rfl
  exact hchain _ c

theorem printed_of_primitive (htype : isPrimitive i.mType = true) (ha : i.mIsArray = false) :
    printed b i = getCppValueInitializer i b.dom := by
  have harr : ¬ i.mIsArray = true := by simp [ha]
  rw [printed, getCppRValue, if_neg harr, if_pos htype, ite_self]

/-- For an enum both emitters print the qualified default. -/
theorem printed_enum (htype : isPrimitive i.mType = false) (hvector : isVector i.mType = false)
    (ha : i.mIsArray = false) (hdefault : i.mDefaultValue ≠ []) {o : Object}
    (ho : b.dom.findObject i.mType = some o) (henum : o.mIsEnum = true) :
    printed b i = i.mQualifiedDefaultValue := by
  have harr : ¬ i.mIsArray = true := by simp [ha]
  have hprim : ¬ isPrimitive i.mType = true := by simp [htype]
  have hother : ∀ types : List Text, (∀ t ∈ types, isPrimitive t = true) →
      ¬ types.contains i.mType = true := fun types htypes hmem =>
    hprim (htypes _ (List.contains_iff_mem.mp hmem))
  have hne : ∀ type : Text, isPrimitive type = true → i.mType ≠ type := by
    rintro type htype rfl
    exact hprim htype
  rw [isVector, Bool.or_eq_false_iff, decide_eq_false_iff_not, decide_eq_false_iff_not] at hvector
  have hsigned : ¬ isSigned i.mType = true := hother _ (by decide)
  have hunsigned : ¬ isUnsigned i.mType = true := hother _ (by decide)
  rw [printed, getCppRValue, if_neg harr, if_neg hprim, ho, getCppValueInitializer, if_neg harr,
    if_neg (hne _ rfl), if_neg hsigned, if_neg hunsigned, if_neg (hne _ rfl), if_neg (hne _ rfl),
    if_neg (hne _ rfl), if_neg hvector.1, if_neg hvector.2, ho]
  simp [henum, hdefault]

theorem isSpace_of_digit {base : Nat} (hbase : base ≤ 36) {c : Char} (h : isDigitOf base c = true) :
    isSpace c = false := by
  by_contra hspace
  have hc : c.toNat = 32 ∨ 9 ≤ c.toNat ∧ c.toNat ≤ 13 := by
    rw [Bool.not_eq_false, isSpace, Bool.or_eq_true, Bool.and_eq_true, decide_eq_true_eq,
      decide_eq_true_eq] at hspace
    exact hspace.imp_left fun h => congrArg Char.toNat (beq_iff_eq.mp h)
  have hdigit : ¬ c.isDigit = true := by
    simp only [Char.isDigit, Bool.and_eq_true, decide_eq_true_eq, ge_iff_le,
      UInt32.le_iff_toNat_le, not_and]
    intro (h : 48 ≤ c.toNat)
    omega
  have hlower : ¬ c.isLower = true := by
    intro (h : (decide (97 ≤ c.val) && decide (c.val ≤ 122)) = true)
    have hle : 97 ≤ c.toNat :=
      UInt32.le_iff_toNat_le.mp (of_decide_eq_true (Bool.and_eq_true_iff.mp h).1)
    omega
  have hupper : ¬ c.isUpper = true := by
    intro h
    have hle : 65 ≤ c.toNat := UInt32.le_iff_toNat_le.mp (of_decide_eq_true h).1
    omega
  rw [isDigitOf, digitValue, if_neg hdigit, if_neg hlower, if_neg hupper, decide_eq_true_eq] at h
  omega

theorem dropWhile_of_digits (h : (autoBase t).2.all (isDigitOf (autoBase t).1) = true) :
    t.dropWhile isSpace = t := by
  cases t with
  | nil => rfl
  | cons c t =>
      refine List.dropWhile_cons_of_neg ?_
      rw [Bool.not_eq_true]
      by_cases hzero : c = '0'
      · rw [hzero]
        rfl
      · have hbase : autoBase (c :: t) = (10, c :: t) := by
          rw [autoBase]
          · rintro x d s h
            exact hzero (List.cons.inj h).1
          · rintro s h
            exact hzero (List.cons.inj h).1
        rw [hbase, List.all_cons, Bool.and_eq_true] at h
        exact isSpace_of_digit (Nat.le_of_ble_eq_true rfl) h.1

theorem integer_of_constant {n : Int} (h : integerConstant t = some n) :
    (if (integer t).1 then -((integer t).2 : Int) else (integer t).2) = n := by
  rw [integerConstant, Option.ite_none_right_eq_some] at h
  obtain ⟨⟨_, hdigits⟩, h⟩ := h
  have hspace : t.dropWhile isSpace = t := by
    rw [takeSign.eq_def] at hdigits
    split at hdigits
    · rfl
    · rfl
    · exact dropWhile_of_digits hdigits
  have htake : (autoBase (takeSign t).2).2.takeWhile (isDigitOf (autoBase (takeSign t).2).1) =
      (autoBase (takeSign t).2).2 :=
    List.takeWhile_eq_self_iff.mpr (List.all_eq_true.mp hdigits)
  rw [integer, hspace, htake]
  exact Option.some.inj h

theorem strtoll_of_constant {n : Int} (h : integerConstant t = some n) (hlo : -2 ^ 63 ≤ n)
    (hhi : n < 2 ^ 63) : strtoll t = n := by
  have hn := integer_of_constant h
  rw [strtoll]
  split_ifs at hn ⊢ <;> omega

theorem strtoull_of_constant {n : Int} (h : integerConstant t = some n) (hlo : 0 ≤ n)
    (hhi : n < 2 ^ 64) : (strtoull t : Int) = n := by
  have hn := integer_of_constant h
  rw [strtoull]
  split_ifs at hn ⊢ <;> omega

theorem mem_signed (h : isSigned t = true) : getStandardType t = .i8 ∨ getStandardType t = .i16 ∨
    getStandardType t = .i32 ∨ getStandardType t = .i64 := by
  simp only [isSigned, List.contains_iff_mem, List.mem_cons, List.not_mem_nil, or_false] at h
  obtain rfl | rfl | rfl | rfl := h
  · exact .inl rfl
  · exact .inr (.inl rfl)
  · exact .inr (.inr (.inl rfl))
  · exact .inr (.inr (.inr rfl))

theorem mem_unsigned (h : isUnsigned t = true) : getStandardType t = .u8 ∨
    getStandardType t = .u16 ∨ getStandardType t = .u32 ∨ getStandardType t = .u64 := by
  simp only [isUnsigned, List.contains_iff_mem, List.mem_cons, List.not_mem_nil, or_false] at h
  obtain rfl | rfl | rfl | rfl := h
  · exact .inl rfl
  · exact .inr (.inl rfl)
  · exact .inr (.inr (.inl rfl))
  · exact .inr (.inr (.inr rfl))

theorem range_of_bmod {n : Int} {m : Nat} (hm : 0 < m) (hle : m ≤ 2 ^ 64) (h : Int.bmod n m = n) :
    -2 ^ 63 ≤ n ∧ n < 2 ^ 63 := by
  have hlo := Int.le_bmod (x := n) hm
  have hhi := Int.bmod_lt (x := n) hm
  omega

theorem range_of_signed {n : Int} (h : isSigned t = true) (hn : convert (getStandardType t) n = n) :
    -2 ^ 63 ≤ n ∧ n < 2 ^ 63 := by
  obtain h | h | h | h := mem_signed h <;> rw [h] at hn
  · exact range_of_bmod (m := 2 ^ 8) (by decide) (by decide) hn
  · exact range_of_bmod (m := 2 ^ 16) (by decide) (by decide) hn
  · exact range_of_bmod (m := 2 ^ 32) (by decide) (by decide) hn
  · exact range_of_bmod (m := 2 ^ 64) (by decide) (by decide) hn

theorem range_of_unsigned {n : Int} (h : isUnsigned t = true)
    (hn : convert (getStandardType t) n = n) : 0 ≤ n ∧ n < 2 ^ 64 := by
  obtain h | h | h | h := mem_unsigned h <;> rw [h, convert] at hn <;> omega

theorem isPrimitive_of_integer (h : isInteger t) : isPrimitive t = true := by
  obtain h | h := h
  · obtain h | h | h | h := mem_signed h <;> simp [isPrimitive, h]
  · obtain h | h | h | h := mem_unsigned h <;> simp [isPrimitive, h]

theorem not_string_of_integer (h : isInteger t) : t ≠ "string".toList := by
  rintro rfl
  exact absurd h (by decide)

theorem decimal_printed (htype : isInteger i.mType) (ha : i.mIsArray = false) {n : Int}
    (hvalue : integerConstant i.mDefaultValue = some n)
    (hn : convert (getStandardType i.mType) n = n) :
    decimal (printed b i) = n := by
  have hne : i.mDefaultValue ≠ [] := by
    intro h
    rw [h] at hvalue
    cases hvalue
  rw [printed_of_primitive (isPrimitive_of_integer htype) ha, getCppValueInitializer,
    if_neg (by simp [ha]), if_neg (not_string_of_integer htype)]
  by_cases hsigned : isSigned i.mType = true
  · obtain ⟨hlo, hhi⟩ := range_of_signed hsigned hn
    rw [if_pos hsigned, if_neg hne, strtoll_of_constant hvalue hlo hhi]
    exact decimal_intText n
  · have hunsigned := htype.resolve_left hsigned
    obtain ⟨hlo, hhi⟩ := range_of_unsigned hunsigned hn
    have htext : (toString (strtoull i.mDefaultValue)).toList = intText n := by
      rw [← strtoull_of_constant hvalue hlo hhi, intText_natCast]
      exact Nat.toList_repr
    rw [if_neg hsigned, if_pos hunsigned, if_neg hne, htext, decimal_intText]

theorem compiled_string_iff (htype : i.mType = "string".toList) (ha : i.mIsArray = false) :
    compiled trigraphs b i = some (.str i.mDefaultValue) ↔
      (replaced trigraphs).output i.mDefaultValue = i.mDefaultValue ∧
        ∀ c ∈ i.mDefaultValue, c ∉ special := by
  have hprim : isPrimitive i.mType = true := by
    rw [htype]
    rfl
  have htext : printed b i = '"' :: (i.mDefaultValue ++ ['"']) := by
    rw [printed_of_primitive hprim ha, getCppValueInitializer, if_neg (by simp [ha]), if_pos htype]
  have hspecial : (∀ c ∈ i.mDefaultValue, c ∉ special) ↔
      ('"' ∉ i.mDefaultValue ∧ '\\' ∉ i.mDefaultValue ∧ '\n' ∉ i.mDefaultValue ∧
        '\r' ∉ i.mDefaultValue) ∧ nul ∉ i.mDefaultValue := by
    rw [← List.disjoint_left, List.disjoint_comm]
    simp [special, List.disjoint_left, and_assoc]
  rw [compiled, if_pos htype, htext, hspecial, ← and_assoc, ← cppText_quoted_iff]
  constructor
  · intro h
    obtain ⟨s, hs, hv⟩ := Option.map_eq_some_iff.mp h
    rw [Datum.str.injEq] at hv
    have hlength := length_cppText_le hs
    have heq : s = i.mDefaultValue := by
      rw [← hv] at hlength ⊢
      exact ((List.takeWhile_prefix _).eq_of_length_le hlength).symm
    subst heq
    exact ⟨hs, cstr_eq_self_iff.mp hv⟩
  · rintro ⟨hs, hnul⟩
    rw [hs, Option.map_some, cstr_of_nulFree hnul]

theorem stated_ne_empty (h : stated b i = some v) : v ≠ .empty := by
  rintro rfl
  rw [stated] at h
  split_ifs at h
  · cases h
  · obtain ⟨n, _, hn⟩ := Option.map_eq_some_iff.mp h
    cases hn
  · obtain ⟨n, _, hn⟩ := Option.map_eq_some_iff.mp h
    cases hn
  · obtain ⟨e, _, h⟩ := Option.bind_eq_some_iff.mp h
    obtain ⟨k, _, hk⟩ := Option.map_eq_some_iff.mp h
    cases hk

theorem kept_string (htype : i.mType = "string".toList) :
    Kept trigraphs b i ↔ (replaced trigraphs).output i.mDefaultValue = i.mDefaultValue ∧
      ∀ c ∈ i.mDefaultValue, c ∉ special := by
  refine ⟨fun h => h.string htype, fun h => ⟨?_, fun _ => h, ?_⟩⟩
  · rw [htype]
    exact fun h => absurd h (by decide)
  · rw [htype]
    exact fun h => absurd h (by decide)

theorem kept_integer (htype : isInteger i.mType) : Kept trigraphs b i := by
  obtain h | h := htype
  · refine ⟨?_, ?_, ?_⟩
    · intro hbool
      rw [hbool] at h
      exact absurd h (by decide)
    · intro hstring
      rw [hstring] at h
      exact absurd h (by decide)
    · obtain h | h | h | h := mem_signed h <;> simp [h]
  · refine ⟨?_, ?_, ?_⟩
    · intro hbool
      rw [hbool] at h
      exact absurd h (by decide)
    · intro hstring
      rw [hstring] at h
      exact absurd h (by decide)
    · obtain h | h | h | h := mem_unsigned h <;> simp [h]

theorem kept_bool (htype : i.mType = "bool".toList) : Kept trigraphs b i ↔ i.mDefaultValue ≠ ['1'] := by
  refine ⟨fun h => h.bool htype, fun h => ⟨fun _ => h, ?_, ?_⟩⟩
  · rw [htype]
    exact fun h => absurd h (by decide)
  · rw [htype]
    exact fun h => absurd h (by decide)

theorem truth_eq_some_iff {x : Bool} (h : truth t = some x) :
    stricmp t "true".toList = x ↔ t ≠ ['1'] := by
  rw [truth] at h
  split_ifs at h with htrue hfalse
  · obtain rfl := Option.some.inj h
    obtain htrue | rfl := htrue
    · simp only [htrue, true_iff]
      rintro rfl
      exact absurd htrue (by decide)
    · decide
  · obtain rfl := Option.some.inj h
    rw [not_or, Bool.not_eq_true] at htrue
    exact ⟨fun _ => htrue.2, fun _ => htrue.1⟩

theorem getStandardType_of_other (hstring : t ≠ "string".toList) (hint : ¬ isInteger t)
    (hbool : t ≠ "bool".toList) (hreal : ¬ (t = "float".toList ∨ t = "double".toList)) :
    getStandardType t = .none := by
  rw [isInteger, isSigned, isUnsigned, List.contains_iff_mem, List.contains_iff_mem] at hint
  simp only [List.mem_cons, List.not_mem_nil, or_false, not_or] at hint hreal
  obtain ⟨⟨h8, h16, h32, h64⟩, g8, g16, g32, g64⟩ := hint
  rw [getStandardType, if_neg g64, if_neg g32, if_neg g16, if_neg g8, if_neg h64, if_neg h32,
    if_neg h16, if_neg h8, if_neg hreal.1, if_neg hreal.2, if_neg hbool, if_neg hstring]

theorem printed_bool (htype : i.mType = "bool".toList) (ha : i.mIsArray = false) :
    printed b i =
      if stricmp i.mDefaultValue "true".toList then "true".toList else "false".toList := by
  have hprim : isPrimitive i.mType = true := by
    rw [htype]
    rfl
  have hsigned : ¬ isSigned i.mType = true := by
    rw [htype]
    decide
  have hunsigned : ¬ isUnsigned i.mType = true := by
    rw [htype]
    decide
  have hne : ∀ type : Text, type ≠ "bool".toList → i.mType ≠ type := fun type h heq =>
    h (heq.symm.trans htype)
  rw [printed_of_primitive hprim ha, getCppValueInitializer, if_neg (by simp [ha]),
    if_neg (hne _ (by decide)), if_neg hsigned, if_neg hunsigned, if_neg (hne _ (by decide)),
    if_neg (hne _ (by decide)), if_pos htype]

theorem initial_read_eq_iff (ha : i.mIsArray = false) (h : stated b i = some v) :
    (read trigraphs b).initial i = v ↔ Kept trigraphs b i := by
  have hsome : (read trigraphs b).initial i = v ↔ compiled trigraphs b i = some v := by
    change (compiled trigraphs b i).getD .empty = v ↔ _
    cases hc : compiled trigraphs b i with
    | none => simpa using (stated_ne_empty h).symm
    | some c => simp
  rw [hsome]
  rw [stated] at h
  split_ifs at h with hstring hint hbool hreal
  · rw [← h, compiled_string_iff hstring ha, kept_string hstring]
  · obtain ⟨n, hn, rfl⟩ := Option.map_eq_some_iff.mp h
    obtain ⟨hvalue, hfits⟩ := Option.filter_eq_some_iff.mp hn
    rw [decide_eq_true_eq] at hfits
    rw [compiled, if_neg hstring, if_pos hint, decimal_printed hint ha hvalue hfits, hfits]
    simp [kept_integer hint]
  · obtain ⟨x, hx, rfl⟩ := Option.map_eq_some_iff.mp h
    rw [kept_bool hbool, ← truth_eq_some_iff hx, compiled, if_neg hstring, if_neg hint, if_pos hbool,
      printed_bool hbool ha]
    rw [Option.some.injEq, Datum.bool.injEq]
    cases stricmp i.mDefaultValue "true".toList <;> cases x <;> decide
  · rw [compiled, if_neg hstring, if_neg hint, if_neg hbool, if_neg hreal, ← h]
    have hnone := getStandardType_of_other hstring hint hbool hreal
    exact ⟨fun henum => ⟨fun h => absurd h hbool, fun h => absurd h hstring, fun _ => henum⟩,
      fun hkept => hkept.enum hnone⟩

end SchemaCodeGen.InitialValues
