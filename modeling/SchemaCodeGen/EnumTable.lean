import SchemaCodeGen.Schema

namespace SchemaCodeGen.EnumTable

open CString Schema

abbrev Constant := List (Text × Nat) → Text → Nat

/-- The C++ numbering of enumerators, of which `known` stand above. -/
def numbered (constant : Constant) (known : List (Text × Nat)) (next : Nat) :
    List MemberVariable → List (Text × Nat)
  | [] => []
  | i :: items =>
      let value := if i.mDefaultValue = [] then next else constant known i.mDefaultValue
      (i.mMember, value) :: numbered constant (known ++ [(i.mMember, value)]) (value + 1) items

def stringName (i : MemberVariable) : Text := cstr (if i.mAlias ≠ [] then i.mAlias else i.mMember)

def keyList (constant : Constant) (e : Object) : List (Nat × Text) :=
  ((numbered constant [] 0 e.mItems).map Prod.snd).zip (e.mItems.map stringName)

variable (constant : Constant) (e : Object)

/-- A later entry of the list overwrites an earlier one in the map. -/
def stringifyEnum (x : Nat) : Option Text :=
  ((keyList constant e).reverse.find? fun k => k.1 == x).map Prod.snd

def unstringifyEnum (s : Text) : Option Nat :=
  ((keyList constant e).reverse.find? fun k => k.2 == s).map Prod.fst

def Distinct : Prop :=
  ∀ a ∈ keyList constant e, ∀ b ∈ keyList constant e, a.1 ≠ b.1 → a.2 ≠ b.2

instance : Decidable (Distinct constant e) :=
  inferInstanceAs (Decidable (∀ a ∈ keyList constant e, ∀ b ∈ keyList constant e, _))

variable {constant e}

theorem mem_of_stringifyEnum {x : Nat} {s : Text} (h : stringifyEnum constant e x = some s) :
    (x, s) ∈ keyList constant e := by
  obtain ⟨⟨y, t⟩, hk, rfl⟩ := Option.map_eq_some_iff.mp h
  have hx : y = x := by simpa using List.find?_some hk
  subst hx
  exact List.mem_reverse.mp (List.mem_of_find?_eq_some hk)

theorem mem_of_unstringifyEnum {x : Nat} {s : Text} (h : unstringifyEnum constant e s = some x) :
    (x, s) ∈ keyList constant e := by
  obtain ⟨⟨y, t⟩, hk, rfl⟩ := Option.map_eq_some_iff.mp h
  have hs : t = s := by simpa using List.find?_some hk
  subst hs
  exact List.mem_reverse.mp (List.mem_of_find?_eq_some hk)

theorem unstringifyEnum_isSome {x : Nat} {s : Text} (h : (x, s) ∈ keyList constant e) :
    (unstringifyEnum constant e s).isSome := by
  rw [unstringifyEnum, Option.isSome_map, List.find?_isSome]
  exact ⟨(x, s), List.mem_reverse.mpr h, by simp⟩

theorem unstringifyEnum_stringifyEnum (hd : Distinct constant e) {x : Nat} {s : Text}
    (h : stringifyEnum constant e x = some s) : unstringifyEnum constant e s = some x := by
  have hmem := mem_of_stringifyEnum h
  obtain ⟨y, hy⟩ := Option.isSome_iff_exists.mp (unstringifyEnum_isSome hmem)
  have hmem' := mem_of_unstringifyEnum hy
  by_contra hne
  have hxy : x ≠ y := by
    rintro rfl
    exact hne hy
  exact hd _ hmem _ hmem' hxy rfl

theorem cstr_of_mem_keyList {k : Nat × Text} (h : k ∈ keyList constant e) : cstr k.2 = k.2 := by
  obtain ⟨i, _, hi⟩ := List.mem_map.mp (List.of_mem_zip h).2
  rw [← hi]
  exact cstr_of_nulFree (nulFree_cstr _)

end SchemaCodeGen.EnumTable
