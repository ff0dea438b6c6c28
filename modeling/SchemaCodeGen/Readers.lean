import SchemaCodeGen.Judge

namespace SchemaCodeGen.Readers

open CString Floats Json Schema Emit EnumTable Fallible Generated Slots Fresh Judge

/-- A run ends as the verdict says, in a state of the invariant when it goes on. -/
def Meets {α : Type} (inv : α → Prop) (r : Run α) : Verdict → Prop
  | .accept => ∃ a, r = .ok a ∧ inv a
  | .reject => r = .error .returnFalse
  | .misuse => r = .error .misuse

section Runs

variable {α β : Type}

theorem meets_bind {inv : α → Prop} {inv' : β → Prop} {r : Run α} {f : α → Run β} {v : Verdict}
    (hr : Meets inv r v) (hf : ∀ a, inv a → ∃ a', f a = .ok a' ∧ inv' a') :
    Meets inv' (r >>= f) v := by
  cases v with
  | accept =>
      obtain ⟨a, rfl, ha⟩ := hr
      exact hf a ha
  | reject | misuse =>
      obtain rfl := hr
      rfl

theorem meets_foldlM {inv : α → Prop} {step : α → β → Run α} {v : β → Verdict} {l : List β}
    (h : ∀ x ∈ l, ∀ a, inv a → Meets inv (step a x) (v x)) {a : α} (ha : inv a) :
    Meets inv (l.foldlM step a) (first (l.map v)) := by
  induction l generalizing a with
  | nil => exact ⟨a, rfl, ha⟩
  | cons x l ih =>
      rw [List.forall_mem_cons] at h
      have hx := h.1 a ha
      rw [List.foldlM_cons, List.map_cons]
      cases hv : v x with
      | accept =>
          rw [hv] at hx
          obtain ⟨a', hstep, ha'⟩ := hx
          rw [hstep, ok_bind]
          exact ih h.2 ha'
      | reject | misuse =>
          rw [hv] at hx
          have hstep : step a x = .error _ := hx
          rw [hstep]
          rfl

theorem meets_mapM {f : β → Run α} {v : β → Verdict} {l : List β}
    (h : ∀ x ∈ l, Meets (fun _ => True) (f x) (v x)) :
    Meets (fun _ => True) (l.mapM f) (first (l.map v)) := by
  induction l with
  | nil => exact ⟨[], rfl, trivial⟩
  | cons x l ih =>
      rw [List.forall_mem_cons] at h
      have hx := h.1
      rw [List.mapM_cons, List.map_cons]
      cases hv : v x with
      | accept =>
          rw [hv] at hx
          obtain ⟨a, ha, _⟩ := hx
          rw [ha, ok_bind]
          exact meets_bind (ih h.2) fun l _ => ⟨a :: l, rfl, trivial⟩
      | reject | misuse =>
          rw [hv] at hx
          have hf : f x = .error _ := hx
          rw [hf]
          rfl

theorem accept_of_meets {inv : α → Prop} {r : Run α} {v : Verdict} (h : Meets inv r v) {a : α}
    (hr : r = .ok a) : v = .accept ∧ inv a := by
  cases v with
  | accept =>
      obtain ⟨a', hr', ha⟩ := h
      obtain rfl := Except.ok.inj (hr.symm.trans hr')
      exact ⟨rfl, ha⟩
  | reject | misuse => exact absurd (hr.symm.trans h) (by simp)

end Runs

section Readers

def Any {α : Type} (_ : α) : Prop := True

theorem getUint64_meets (v : Number) :
    Meets Any (orHalt .misuse (Value.number v).getUint64) (number .u64 (.number v)) := by
  cases v with
  | double x => rfl
  | int n =>
      by_cases h : 0 ≤ n ∧ n < 2 ^ 64
      · simp only [number, acceptOr, Flagged, h, and_self, if_true, Value.getUint64]
        exact ⟨n, rfl, trivial⟩
      · simp only [number, acceptOr, Flagged, h, if_false, Value.getUint64]
        rfl

theorem integerAccessor_meets {type : StandardType}
    (ht : type = .u32 ∨ type = .u64 ∨ type = .i64) (v : Number) :
    Meets Any (integerAccessor type (.number v)) (number type (.number v)) := by
  obtain rfl | rfl | rfl := ht
  · have hcall : integerAccessor .u32 (.number v) = orHalt .misuse (Value.number v).getUint := rfl
    rw [hcall]
    cases v with
    | double x => rfl
    | int n =>
        by_cases h : 0 ≤ n ∧ n < 2 ^ 32
        · simp only [number, acceptOr, Flagged, h, and_self, if_true, Value.getUint]
          exact ⟨n, rfl, trivial⟩
        · simp only [number, acceptOr, Flagged, h, if_false, Value.getUint]
          rfl
  · exact getUint64_meets v
  · have hcall : integerAccessor .i64 (.number v) = orHalt .misuse (Value.number v).getInt64 := rfl
    rw [hcall]
    cases v with
    | double x => rfl
    | int n =>
        by_cases h : -2 ^ 63 ≤ n ∧ n < 2 ^ 63
        · simp only [number, acceptOr, Flagged, h, and_self, if_true, Value.getInt64]
          exact ⟨n, rfl, trivial⟩
        · simp only [number, acceptOr, Flagged, h, if_false, Value.getInt64]
          rfl

theorem readInteger_meets {type : StandardType}
    (ht : type = .u32 ∨ type = .u64 ∨ type = .i64) (v : Value) :
    Meets Any (readInteger type v) (integer type v) := by
  cases v with
  | string s => exact ⟨_, rfl, trivial⟩
  | number n => exact integerAccessor_meets ht n
  | null | bool _ | array _ | object _ => rfl

theorem readFloat_meets (v : Number) :
    Meets Any (readOtherNumber .floatType (.number v)) (number .u64 (.number v)) :=
  meets_bind (getUint64_meets v) fun _ _ => ⟨_, rfl, trivial⟩

theorem readDouble_meets (v : Number) :
    Meets Any (readOtherNumber .doubleType (.number v)) (number .u64 (.number v)) :=
  meets_bind (getUint64_meets v) fun _ _ => ⟨_, rfl, trivial⟩

theorem readChecked_meets {type : StandardType} (ht : isNumeric type = false) (v : Value) :
    Meets Any (readChecked type v) (checked type v) := by
  cases type with
  | none | u64 | u32 | u16 | u8 | i64 | i32 | i16 | i8 => exact absurd ht (by decide)
  | boolType =>
      cases v with
      | bool p => exact ⟨_, rfl, trivial⟩
      | null | number _ | string _ | array _ | object _ => rfl
  | stringType =>
      cases v with
      | string s => exact ⟨_, rfl, trivial⟩
      | null | number _ | bool _ | array _ | object _ => rfl
  | doubleType =>
      cases v with
      | number n =>
          cases n with
          | double x => exact ⟨_, rfl, trivial⟩
          | int n => exact readDouble_meets (.int n)
      | null | string _ | bool _ | array _ | object _ => rfl
  | floatType =>
      cases v with
      | number n =>
          cases n with
          | int n => exact readFloat_meets (.int n)
          | double x =>
              by_cases h : x.between (-floatLimit) floatLimit = true
              · simp only [checked, acceptOr, h, if_true, readChecked, checkName]
                exact ⟨_, rfl, trivial⟩
              · simp only [checked, acceptOr, h, readChecked, checkName]
                exact readFloat_meets (.double x)
      | null | string _ | bool _ | array _ | object _ => rfl

variable {b : Build}

theorem readEnumName_meets {type : Text} (ht : (b.enumType type).isSome) (v : Value) :
    Meets Any (readEnumName b type v) (Judge.enumName b type v) := by
  obtain ⟨e, he⟩ := Option.isSome_iff_exists.mp ht
  cases v with
  | string s =>
      have hrun : readEnumName b type (.string s) =
          orHalt .returnFalse (unstringifyEnum b.constant e (cstr s)) >>= fun n => .ok (.enum n) := by
        simp [readEnumName, he]
      have hverdict : Judge.enumName b type (.string s) =
          acceptOr .reject (unstringifyEnum b.constant e (cstr s)).isSome := by
        simp [Judge.enumName, he]
      rw [hrun, hverdict]
      cases unstringifyEnum b.constant e (cstr s) with
      | some n => exact ⟨_, rfl, trivial⟩
      | none => rfl
  | null | number _ | bool _ | array _ | object _ => rfl

theorem readEnum_meets {type : Text} (ht : (b.enumType type).isSome) (asInteger : Bool) (v : Value) :
    Meets Any (readEnum b type asInteger v) (Judge.enum b type asInteger v) := by
  cases asInteger with
  | false =>
      have h := readEnumName_meets ht v
      cases v <;> exact h
  | true =>
      cases v with
      | number n => exact meets_bind (getUint64_meets n) fun _ _ => ⟨_, rfl, trivial⟩
      | string s => exact readEnumName_meets ht (.string s)
      | null | bool _ | array _ | object _ => rfl

end Readers

end SchemaCodeGen.Readers
