import SchemaCodeGen.EnumTable

namespace SchemaCodeGen.EnumCodec

open CString Schema EnumTable

def values (constant : Constant) (e : Object) : List Nat :=
  (numbered constant [] 0 e.mItems).map Prod.snd

def strings (e : Object) : List Text := e.mItems.map stringName

variable (constant : Constant) (e : Object)

/-- Every listed value is read back from the string it is written as. -/
def RoundTrips : Prop :=
  ∀ x ∈ values constant e, (stringifyEnum constant e x).bind (unstringifyEnum constant e) = some x

instance : Decidable (RoundTrips constant e) :=
  inferInstanceAs (Decidable (∀ x ∈ values constant e, _))

/-- The last item of a value is written. No item behind it has its string. -/
def LastReadable : Prop :=
  ∀ before k after, keyList constant e = before ++ k :: after →
    (∀ k' ∈ after, k'.1 ≠ k.1) → ∀ k' ∈ after, k'.2 ≠ k.2

variable {constant e}

theorem length_numbered {known : List (Text × Nat)} {next : Nat} {items : List MemberVariable} :
    (numbered constant known next items).length = items.length := by
  induction items generalizing known next with
  | nil => rfl
  | cons i items ih => simp [numbered, ih]

theorem map_fst_keyList : (keyList constant e).map Prod.fst = values constant e :=
  List.map_fst_zip (by simp [length_numbered])

theorem map_snd_keyList : (keyList constant e).map Prod.snd = strings e :=
  List.map_snd_zip (by simp [length_numbered])

theorem find?_reverse_eq_some {α : Type} {p : α → Bool} {l : List α} {k : α} :
    l.reverse.find? p = some k ↔
      p k = true ∧ ∃ before after, l = before ++ k :: after ∧ ∀ k' ∈ after, p k' = false := by
  rw [List.find?_eq_some_iff_append]
  refine and_congr_right fun _ => ⟨?_, ?_⟩
  · rintro ⟨after, before, h, hafter⟩
    refine ⟨before.reverse, after.reverse, ?_, fun k' hk => ?_⟩
    · simpa using congrArg List.reverse h
    · simpa using hafter k' (List.mem_reverse.mp hk)
  · rintro ⟨before, after, rfl, hafter⟩
    exact ⟨after.reverse, before.reverse, by simp, fun k' hk => by
      simpa using hafter k' (List.mem_reverse.mp hk)⟩

theorem stringifyEnum_eq_some {x : Nat} {s : Text} : stringifyEnum constant e x = some s ↔
    ∃ before after, keyList constant e = before ++ (x, s) :: after ∧ ∀ k ∈ after, k.1 ≠ x := by
  rw [stringifyEnum, Option.map_eq_some_iff]
  constructor
  · rintro ⟨⟨y, t⟩, h, rfl⟩
    obtain ⟨hy, before, after, hlist, hafter⟩ := find?_reverse_eq_some.mp h
    obtain rfl : y = x := by simpa using hy
    exact ⟨before, after, hlist, fun k hk => by simpa using hafter k hk⟩
  · rintro ⟨before, after, hlist, hafter⟩
    refine ⟨(x, s), find?_reverse_eq_some.mpr ⟨by simp, before, after, hlist, ?_⟩, rfl⟩
    exact fun k hk => by simpa using hafter k hk

theorem unstringifyEnum_eq_some {x : Nat} {s : Text} : unstringifyEnum constant e s = some x ↔
    ∃ before after, keyList constant e = before ++ (x, s) :: after ∧ ∀ k ∈ after, k.2 ≠ s := by
  rw [unstringifyEnum, Option.map_eq_some_iff]
  constructor
  · rintro ⟨⟨y, t⟩, h, rfl⟩
    obtain ⟨ht, before, after, hlist, hafter⟩ := find?_reverse_eq_some.mp h
    obtain rfl : t = s := by simpa using ht
    exact ⟨before, after, hlist, fun k hk => by simpa using hafter k hk⟩
  · rintro ⟨before, after, hlist, hafter⟩
    refine ⟨(x, s), find?_reverse_eq_some.mpr ⟨by simp, before, after, hlist, ?_⟩, rfl⟩
    exact fun k hk => by simpa using hafter k hk

theorem stringifyEnum_isSome {x : Nat} (h : x ∈ values constant e) :
    ∃ s, stringifyEnum constant e x = some s := by
  rw [← map_fst_keyList] at h
  obtain ⟨k, hk, rfl⟩ := List.mem_map.mp h
  rw [← Option.isSome_iff_exists, stringifyEnum, Option.isSome_map, List.find?_isSome]
  exact ⟨k, List.mem_reverse.mpr hk, by simp⟩

theorem mem_of_split {α : Type} {k k' : α} {before after before' after' : List α} (hk : k ∉ after)
    (h : before ++ k :: after = before' ++ k :: after') (hk' : k' ∈ after) : k' ∈ after' := by
  obtain ⟨between, _, h⟩ | ⟨between, _, h⟩ := List.append_eq_append_iff.mp h
  · cases between with
    | nil => rwa [← (List.cons.inj h).2]
    | cons a between => exact absurd ((List.cons.inj h).2 ▸ by simp) hk
  · cases between with
    | nil => rwa [(List.cons.inj h).2]
    | cons a between => exact (List.cons.inj h).2 ▸ by simp [hk']

theorem roundTrips_iff : RoundTrips constant e ↔ LastReadable constant e := by
  constructor
  · intro h before k after hlist hlast k' hk' heq
    have hmem : k.1 ∈ values constant e := by
      rw [← map_fst_keyList, hlist]
      simp
    have hwrite : stringifyEnum constant e k.1 = some k.2 :=
      stringifyEnum_eq_some.mpr ⟨before, after, hlist, hlast⟩
    have hread := h k.1 hmem
    rw [hwrite, Option.bind_some, unstringifyEnum_eq_some] at hread
    obtain ⟨before', after', hlist', hafter'⟩ := hread
    have hafter : k ∉ after := fun hmem => hlast k hmem rfl
    exact hafter' k' (mem_of_split hafter (hlist.symm.trans hlist') hk') heq
  · intro h x hx
    obtain ⟨s, hs⟩ := stringifyEnum_isSome hx
    obtain ⟨before, after, hlist, hafter⟩ := stringifyEnum_eq_some.mp hs
    rw [hs, Option.bind_some, unstringifyEnum_eq_some]
    exact ⟨before, after, hlist, h before (x, s) after hlist hafter⟩

theorem unstringifyEnum_valid (s : Text) :
    ((unstringifyEnum constant e s).isSome = true ↔ s ∈ strings e) ∧
      ∀ x, unstringifyEnum constant e s = some x → x ∈ values constant e := by
  have hstrings : (keyList constant e).map Prod.snd = strings e := map_snd_keyList
  rw [← hstrings, ← map_fst_keyList]
  refine ⟨⟨fun h => ?_, fun h => ?_⟩, fun x hx => ?_⟩
  · obtain ⟨x, hx⟩ := Option.isSome_iff_exists.mp h
    exact List.mem_map.mpr ⟨(x, s), mem_of_unstringifyEnum hx, rfl⟩
  · obtain ⟨⟨x, s⟩, hk, rfl⟩ := List.mem_map.mp h
    exact unstringifyEnum_isSome hk
  · exact List.mem_map.mpr ⟨(x, s), mem_of_unstringifyEnum hx, rfl⟩

section Examples

def gradeItem (name value string : String) : MemberVariable where
  mMember := name.toList
  mDefaultValue := value.toList
  mAlias := string.toList

def grade : Object where
  mName := "Grade".toList
  mType := "Enum".toList
  mIsEnum := true
  mItems := [gradeItem "A" "1" "s", gradeItem "B" "2" "s", gradeItem "C" "1" "t"]

def digit : Constant := fun _ text => if text = "1".toList then 1 else 2

end Examples

end SchemaCodeGen.EnumCodec
