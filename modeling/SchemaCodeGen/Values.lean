import SchemaCodeGen.Fresh

namespace SchemaCodeGen.Values

open CString Floats Schema Emit EnumTable Generated Slots

def LeafValue : StandardType → Datum → Prop
  | .u32, .int n => 0 ≤ n ∧ n < 2 ^ 32
  | .u64, .int n => 0 ≤ n ∧ n < 2 ^ 64
  | .i64, .int n => -2 ^ 63 ≤ n ∧ n < 2 ^ 63
  | .doubleType, .real x => x.IsFinite
  | .boolType, .bool _ => True
  | .stringType, .str s => NulFree s
  | _, _ => False

variable (b : Build)

def EnumValue (i : MemberVariable) : Datum → Prop
  | .enum n => n < 2 ^ 64 ∧ (i.mSerializeEnumAsInteger = false →
      ∃ e, b.enumType i.mType = some e ∧ (stringifyEnum b.constant e n).isSome)
  | _ => False

def ElementValue (call : Text → Datum → Prop) (i : MemberVariable) (d : Datum) : Prop :=
  if getStandardType i.mType ≠ .none then LeafValue (getStandardType i.mType) d
  else if b.classEnum i.mType = some true then EnumValue b i d
  else call i.mType d

def ItemValue (call : Text → Datum → Prop) (i : MemberVariable) (d : Datum) : Prop :=
  if i.mIsArray then ∃ l, d = .vec l ∧ ∀ x ∈ l, ElementValue b call i x
  else (i.mIsOptional = .optional ∧ d = .empty) ∨ ElementValue b call i d

/-- The values of a class whose objects nest to a depth below `n`. -/
def ClassValue : Nat → Text → Datum → Prop
  | 0, _, _ => False
  | n + 1, name, v =>
      ∃ chain f, b.chain name = some chain ∧ v = .object f ∧
        (∀ s ∈ slots chain, ItemValue b (ClassValue n) s.2 (get f s)) ∧
        ∀ l m, (∀ s ∈ slots chain, (l, m) ≠ key s) → f l m = .empty

/-- The values that the member keeps, none for an optional without value. -/
def held : Datum → List Datum
  | .vec l => l
  | .empty => []
  | d => [d]

/-- `P` holds of every member of the object and of the objects inside it. -/
def Everywhere (P : MemberVariable → Datum → Prop) : Nat → Text → Datum → Prop
  | 0, _, _ => True
  | n + 1, name, v =>
      ∀ chain f, b.chain name = some chain → v = .object f → ∀ s ∈ slots chain,
        P s.2 (get f s) ∧
          (b.isClass s.2.mType = true → ∀ x ∈ held (get f s), Everywhere P n s.2.mType x)

variable {b}

theorem everywhere_object {P : MemberVariable → Datum → Prop} {n : Nat} {name : Text}
    {chain : List Object} {f : Fields} (hchain : b.chain name = some chain) :
    Everywhere b P (n + 1) name (.object f) ↔ ∀ s ∈ slots chain, P s.2 (get f s) ∧
      (b.isClass s.2.mType = true → ∀ x ∈ held (get f s), Everywhere b P n s.2.mType x) := by
  constructor
  · exact fun h => h chain f hchain rfl
  · intro h chain' f' hchain' hv
    obtain rfl := Option.some.inj (hchain.symm.trans hchain')
    cases hv
    exact h

theorem everywhere_of_rows {P : MemberVariable → Datum → Prop} {classes : Text → Prop}
    (h : ∀ c, classes c → ∀ chain, b.chain c = some chain → ∀ s ∈ slots chain,
      (∀ d, P s.2 d) ∧ (b.isClass s.2.mType = true → classes s.2.mType))
    {n : Nat} {c : Text} {x : Datum} (hc : classes c) : Everywhere b P n c x := by
  induction n generalizing c x with
  | zero => exact trivial
  | succ n ih =>
      intro chain f hchain _ s hs
      obtain ⟨hP, hclass⟩ := h c hc chain hchain s hs
      exact ⟨hP _, fun hk y _ => ih (hclass hk)⟩

theorem classValue_object {n : Nat} {name : Text} {v : Datum} (h : ClassValue b n name v) :
    ∃ f, v = .object f := by
  cases n with
  | zero => exact absurd h id
  | succ n =>
      obtain ⟨_, f, _, hv, _⟩ := h
      exact ⟨f, hv⟩

theorem leafValue_ne_empty {type : StandardType} : ¬ LeafValue type .empty := by
  cases type <;> simp [LeafValue]

theorem elementValue_ne_empty {n : Nat} {i : MemberVariable} {d : Datum}
    (h : ElementValue b (ClassValue b n) i d) : d ≠ .empty := by
  rintro rfl
  rw [ElementValue] at h
  split_ifs at h
  · exact leafValue_ne_empty h
  · exact h
  · obtain ⟨f, hf⟩ := classValue_object h
    exact absurd hf (by simp)

theorem eq_of_ite_eq {α : Type} {p : Prop} [Decidable p] {x y z : α} (h : (if p then x else y) = z)
    (hne : x ≠ z) : y = z := by
  split_ifs at h
  · exact absurd h hne
  · exact h

theorem getStandardType_eq_string {type : Text} (h : getStandardType type = .stringType) :
    type = "string".toList := by
  rw [getStandardType] at h
  iterate 11 replace h := eq_of_ite_eq h (by decide)
  by_contra hne
  rw [if_neg hne] at h
  exact absurd h (by decide)

end SchemaCodeGen.Values
