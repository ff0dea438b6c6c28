import SchemaCodeGen.Literals
import SchemaCodeGen.PythonInit

namespace SchemaCodeGen.TextDefaults

open CString Schema Header PythonInit ParseCSV CppComments Literals

section Strings

variable (trigraphs : Bool) (named : Text → Option Char) (dom : DOM) (var : MemberVariable)

/-- Both languages read the default back as it stands in the schema. -/
structure ReadsBack : Prop where
  cpp : cppText trigraphs (getCppValueInitializer var dom) = some var.mDefaultValue
  python : ∃ literal, getPythonArgDef dom var = var.mMember ++ '=' :: literal ∧
    pythonText named literal = some var.mDefaultValue

/-- The characters that end a literal, break its line or begin an escape sequence. -/
def special : List Char := ['"', '\'', '\\', '\n', '\r']

variable {trigraphs named dom var}

theorem python_iff : (∃ literal, getPythonArgDef dom var = var.mMember ++ '=' :: literal ∧
    pythonText named literal = some var.mDefaultValue) ↔
      pythonText named (pythonDefault dom var) = some var.mDefaultValue := by
  constructor
  · rintro ⟨literal, heq, hread⟩
    obtain rfl : pythonDefault dom var = literal := (List.cons.inj (List.append_cancel_left heq)).2
    exact hread
  · exact fun h => ⟨_, rfl, h⟩

/-- A default is read back exactly when it is the default of a single member and has none of
the special characters and no trigraph that is replaced. -/
theorem readsBack_iff (htype : var.mType = "string".toList) :
    ReadsBack trigraphs named dom var ↔ var.mIsArray = false ∧
      (replaced trigraphs).output var.mDefaultValue = var.mDefaultValue ∧
        ∀ c ∈ var.mDefaultValue, c ∉ special := by
  have hspecial : (∀ c ∈ var.mDefaultValue, c ∉ special) ↔ '"' ∉ var.mDefaultValue ∧
      '\'' ∉ var.mDefaultValue ∧ '\\' ∉ var.mDefaultValue ∧ '\n' ∉ var.mDefaultValue ∧
        '\r' ∉ var.mDefaultValue := by
    rw [← List.disjoint_left, List.disjoint_comm]
    simp [special, List.disjoint_left]
  rw [hspecial]
  cases harray : var.mIsArray with
  | true =>
      have hcpp : getCppValueInitializer var dom = [] := by
        rw [getCppValueInitializer, if_pos harray]
      constructor
      · intro h
        have hread := h.cpp
        rw [hcpp] at hread
        cases hread
      · rintro ⟨h, _⟩
        cases h
  | false =>
      have hcpp : getCppValueInitializer var dom = '"' :: (var.mDefaultValue ++ ['"']) := by
        rw [getCppValueInitializer, if_neg (by simp [harray]), if_pos htype]
      have hpython : pythonDefault dom var = '\'' :: (var.mDefaultValue ++ ['\'']) := by
        rw [pythonDefault, if_neg (by simp [harray]), if_pos htype]
      constructor
      · rintro ⟨hc, hp⟩
        rw [hcpp, cppText_quoted_iff] at hc
        rw [python_iff, hpython, pythonText_quoted_iff] at hp
        exact ⟨rfl, hc.1, hc.2.1, hp.1.unquoted, hc.2.2⟩
      · rintro ⟨_, htrigraph, hdouble, hsingle, hbackslash, hline, hreturn⟩
        refine ⟨?_, python_iff.mpr ?_⟩
        · rw [hcpp, cppText_quoted_iff]
          exact ⟨htrigraph, hdouble, hbackslash, hline, hreturn⟩
        · rw [hpython, pythonText_quoted_iff]
          exact ⟨⟨hsingle, hline, Escapes.unescaped_of_not_mem hbackslash⟩, hreturn⟩

end Strings

section Examples

def greeting : MemberVariable where
  mMember := "text".toList
  mType := "string".toList
  mDefaultValue := "hello".toList

theorem readsBack_greeting : ReadsBack true (fun _ => none) {} greeting ↔
    greeting.mIsArray = false ∧ (replaced true).output greeting.mDefaultValue = greeting.mDefaultValue ∧
      ∀ c ∈ greeting.mDefaultValue, c ∉ special :=
  readsBack_iff rfl

def pathItem : MemberVariable where
  mMember := "path".toList
  mType := "string".toList
  mIsString := true
  mNeedsReflection := true
  mDefaultValue := "C:\\temp".toList
  mQualifiedDefaultValue := "string::C:\\temp".toList

/-- C++ reads a backslash and `t` as a tab. -/
theorem readsBack_path :
    (parseCSV {} ("A,,Class".toList ++ CsvReader.lf :: ",path,string,,,C:\\temp".toList ++
      [CsvReader.lf])).map (fun st => st.mDOM.mObjects.map (·.mItems)) = some [[pathItem]] ∧
    (∀ trigraphs, cppText trigraphs (getCppValueInitializer pathItem {}) = some "C:\temp".toList) ∧
    ∀ trigraphs named dom, ¬ ReadsBack trigraphs named dom pathItem := by
  have hspliced : ∀ trigraphs, splice.output ((lineEnds true).output ((replaced trigraphs).output
      (getCppValueInitializer pathItem {}))) =
        '"' :: ("C:".toList ++ '\\' :: 't' :: ("emp".toList ++ ['"'])) := by decide
  have hread : cppEscapes.read ('t' :: ("emp".toList ++ ['"'])) = some (['\t'], "emp".toList ++ ['"']) :=
    rfl
  refine ⟨rfl, fun trigraphs => ?_, fun trigraphs named dom h => ?_⟩
  · rw [cppText, hspliced, Escapes.literal, if_pos rfl, Escapes.body_append (by simp),
      Escapes.body_escape (by decide) rfl hread, Escapes.body_append (by simp), Escapes.body_close]
    rfl
  · have hall := ((readsBack_iff rfl).mp h).2.2
    exact hall '\\' (by decide) (by decide)

end Examples

end SchemaCodeGen.TextDefaults
