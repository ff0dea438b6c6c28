import SchemaCodeGen.DecimalFloats
import SchemaCodeGen.PythonInit

namespace SchemaCodeGen.NumberDefaults

open CString Schema CNumber Floats Format Decimal Header PythonInit ParseCSV DecimalFloats

section Numbers

variable (dom : DOM) (var : MemberVariable) (n : Int)

/-- Both languages read the number. -/
structure Keeps : Prop where
  cpp : cppNumber (getCppValueInitializer var dom) = some (.fin n)
  python : ∃ literal, getPythonArgDef dom var = var.mMember ++ '=' :: literal ∧
    pythonNumber literal = some (.fin n)

variable {dom var n}

theorem mem_intText {c : Char} (h : c ∈ intText n) : c = '-' ∨ c.isDigit = true := by
  cases n with
  | ofNat n =>
      rw [Int.ofNat_eq_natCast, intText_natCast] at h
      exact .inr (isDigit_of_mem h)
  | negSucc n =>
      rw [intText_negSucc, List.mem_cons] at h
      exact h.imp_right isDigit_of_mem

theorem intText_ne_nil : intText n ≠ [] := by
  cases n with
  | ofNat n =>
      rw [Int.ofNat_eq_natCast, intText_natCast]
      exact Nat.toDigits_ne_nil
  | negSucc n =>
      rw [intText_negSucc]
      exact List.cons_ne_nil _ _

theorem intText_ne {t : Text} (h : t.all (fun c => c == '-' || c.isDigit) = false) : intText n ≠ t := by
  rintro rfl
  refine absurd h ?_
  rw [Bool.not_eq_false, List.all_eq_true]
  intro c hc
  simpa using mem_intText hc

theorem doubleDefault_intText (h : binary64.Representable (n.natAbs : Nat)) :
    doubleDefault (intText n) = showpoint ⟨decide (n < 0), .fin (n.natAbs : Nat)⟩ := by
  rw [doubleDefault, if_neg intText_ne_nil, if_neg (intText_ne rfl), if_neg (intText_ne rfl),
    strto_intText h]

theorem floatDefault_intText (h : binary32.Representable (n.natAbs : Nat)) :
    floatDefault (intText n) = showpoint ⟨decide (n < 0), .fin (n.natAbs : Nat)⟩ ++ ['f'] := by
  rw [floatDefault, if_neg intText_ne_nil, if_neg (intText_ne rfl), if_neg (intText_ne rfl),
    strto_intText h]

theorem floating_double (hn : n.natAbs ≤ 2 ^ 53) :
    floating binary64 [] (general n.natAbs) = some (.fin (sixDigits n.natAbs)) := by
  have hrep := representable_sixDigits (f := binary64) (by decide) (by decide) (by decide) hn
  simpa using floating_general hrep (by simp [Ends] : Ends []) rfl

theorem doubleDefault_reads (hn : n.natAbs ≤ 2 ^ 53) :
    pythonNumber (doubleDefault (intText n)) = some (.fin n) ↔ Short n.natAbs := by
  have hread : floating binary64 [] (general n.natAbs ++ []) = some (.fin (sixDigits n.natAbs)) := by
    rw [List.append_nil, floating_double hn]
  rw [doubleDefault_intText (representable_natCast (by decide) (by decide) (by decide) hn), pythonNumber,
    ← sixDigits_eq_iff]
  simpa using signed_showpoint hread

theorem cppNumber_doubleDefault (hn : n.natAbs ≤ 2 ^ 53) :
    cppNumber (doubleDefault (intText n)) = some (.fin n) ↔ Short n.natAbs := by
  have hread : (floating binary32 ['f'] (general n.natAbs ++ [])).or
      (floating binary64 [] (general n.natAbs ++ [])) = some (.fin (sixDigits n.natAbs)) := by
    rw [List.append_nil, floating_unsuffixed, Option.none_or, floating_double hn]
  rw [doubleDefault_intText (representable_natCast (by decide) (by decide) (by decide) hn), cppNumber,
    ← sixDigits_eq_iff]
  have hsigned : signed (fun s => (floating binary32 ['f'] s).or (floating binary64 [] s))
      (showpoint ⟨decide (n < 0), .fin (n.natAbs : Nat)⟩ ++ []) = some (.fin n) ↔
        sixDigits n.natAbs = (n.natAbs : Nat) := signed_showpoint hread
  simpa using hsigned

theorem cppNumber_floatDefault (hn : n.natAbs ≤ 2 ^ 24) :
    cppNumber (floatDefault (intText n)) = some (.fin n) ↔ Short n.natAbs := by
  have hrep := representable_sixDigits (f := binary32) (by decide) (by decide) (by decide) hn
  have hread : (floating binary32 ['f'] (general n.natAbs ++ ['f'])).or
      (floating binary64 [] (general n.natAbs ++ ['f'])) = some (.fin (sixDigits n.natAbs)) := by
    rw [floating_general hrep (by simp [Ends, isMark]) rfl, Option.some_or]
  rw [floatDefault_intText (representable_natCast (by decide) (by decide) (by decide) hn), cppNumber,
    ← sixDigits_eq_iff]
  exact signed_showpoint hread

/-- A default number is kept exactly when it is the default of a single member and has at most
six significant digits. -/
theorem keeps_iff (htype : var.mType = "float".toList ∧ n.natAbs ≤ 2 ^ 24 ∨
    var.mType = "double".toList ∧ n.natAbs ≤ 2 ^ 53) (hdefault : var.mDefaultValue = intText n) :
    Keeps dom var n ↔ var.mIsArray = false ∧ Short n.natAbs := by
  have hpython : (∃ literal, getPythonArgDef dom var = var.mMember ++ '=' :: literal ∧
      pythonNumber literal = some (.fin n)) ↔ pythonNumber (pythonDefault dom var) = some (.fin n) := by
    constructor
    · rintro ⟨literal, heq, hread⟩
      obtain rfl : pythonDefault dom var = literal := (List.cons.inj (List.append_cancel_left heq)).2
      exact hread
    · exact fun h => ⟨_, rfl, h⟩
  have hkeeps : Keeps dom var n ↔ cppNumber (getCppValueInitializer var dom) = some (.fin n) ∧
      pythonNumber (pythonDefault dom var) = some (.fin n) :=
    ⟨fun h => ⟨h.cpp, hpython.mp h.python⟩, fun h => ⟨h.1, hpython.mpr h.2⟩⟩
  rw [hkeeps]
  cases harray : var.mIsArray with
  | true =>
      have hcpp : getCppValueInitializer var dom = [] := by
        rw [getCppValueInitializer, if_pos harray]
      rw [hcpp]
      simp [cppNumber, signed, floating]
  | false =>
      simp only [true_and]
      rcases htype with ⟨htype, hn⟩ | ⟨htype, hn⟩
      · have hcpp : getCppValueInitializer var dom = floatDefault (intText n) := by
          simp [getCppValueInitializer, harray, htype, hdefault, isSigned, isUnsigned]
        have hdouble : pythonDefault dom var = doubleDefault (intText n) := by
          simp [pythonDefault, harray, htype, hdefault, isSigned, isUnsigned]
        rw [hcpp, hdouble, cppNumber_floatDefault hn, doubleDefault_reads (hn.trans (by decide)), and_self_iff]
      · have hcpp : getCppValueInitializer var dom = doubleDefault (intText n) := by
          simp [getCppValueInitializer, harray, htype, hdefault, isSigned, isUnsigned]
        have hdouble : pythonDefault dom var = doubleDefault (intText n) := by
          simp [pythonDefault, harray, htype, hdefault, isSigned, isUnsigned]
        rw [hcpp, hdouble, cppNumber_doubleDefault hn, doubleDefault_reads hn, and_self_iff]

end Numbers

section Examples

def limitItem : MemberVariable where
  mMember := "limit".toList
  mType := "double".toList
  mDefaultValue := "-2500000".toList

theorem keeps_limit : Keeps {} limitItem (-2500000) ↔
    limitItem.mIsArray = false ∧ Short (-2500000 : Int).natAbs :=
  keeps_iff (.inr ⟨rfl, by decide⟩) rfl

def countItem : MemberVariable where
  mMember := "count".toList
  mType := "float".toList
  mDefaultValue := "1234567".toList
  mQualifiedDefaultValue := "float::1234567".toList

/-- The seventh digit is lost. -/
theorem keeps_count :
    (parseCSV {} ("A,,Class".toList ++ CsvReader.lf :: ",count,float,,,1234567".toList ++
      [CsvReader.lf])).map (fun st => st.mDOM.mObjects.map (·.mItems)) = some [[countItem]] ∧
    getCppValueInitializer countItem {} = "1.23457e+06f".toList ∧
    cppNumber "1.23457e+06f".toList = some (.fin 1234570) ∧
    ∀ dom, ¬ Keeps dom countItem 1234567 := by
  refine ⟨rfl, by decide +kernel, by decide +kernel, fun dom h => ?_⟩
  have hinitializer : getCppValueInitializer countItem dom = floatDefault "1234567".toList := rfl
  have hliteral : floatDefault "1234567".toList = "1.23457e+06f".toList := by decide +kernel
  have hread : cppNumber "1.23457e+06f".toList = some (.fin 1234570) := by decide +kernel
  have hcpp := h.cpp
  rw [hinitializer, hliteral, hread] at hcpp
  exact absurd hcpp (by decide +kernel)

end Examples

end SchemaCodeGen.NumberDefaults
