import SchemaCodeGen.Slots

namespace SchemaCodeGen.Fresh

open CString Schema Emit Generated Slots

variable (b : Build) (call : Text → Option Fields)

/-- The slot is assigned by an emitted constructor of the chain. -/
def Restated : List Object → Slot → Prop
  | [], _ => False
  | o :: bases, s =>
      Restated bases s ∨ (o.mAssignment = false ∧ ∃ i ∈ restatedItems o, ∃ l t,
        findField (memberName i) ((o :: bases).dropWhile fun o => o.mName ≠ i.mInheritsFrom) =
          some (l, t) ∧ key s = (l, memberName i))

/-- The member that a row marked as inherited restates, in the constructor of the class that
heads the chain. -/
def restatedKey (chain : List Object) (i : MemberVariable) : Option (Nat × Text) :=
  (findField (memberName i) (chain.dropWhile fun o => o.mName ≠ i.mInheritsFrom)).map fun t =>
    (t.1, memberName i)

/-- The row whose assignment to the slot runs last. -/
def lastAssigned : List Object → Slot → Option MemberVariable
  | [], _ => none
  | o :: bases, s =>
      if o.mAssignment then lastAssigned bases s
      else ((restatedItems o).reverse.find? fun i => restatedKey (o :: bases) i = some (key s)).or
        (lastAssigned bases s)

def Scalar (i : MemberVariable) : Prop :=
  i.mIsArray = false ∧ i.mIsPointer = false ∧
    (getStandardType i.mType ≠ .none ∨ b.classEnum i.mType = some true)

def valueless (i : MemberVariable) : Datum :=
  if i.mIsOptional = .optional then .empty
  else if getStandardType i.mType ≠ .none then zero (getStandardType i.mType)
  else .enum 0

theorem restatedKey_eq {chain : List Object} {i : MemberVariable} {k : Nat × Text} :
    restatedKey chain i = some k ↔ ∃ l t,
      findField (memberName i) (chain.dropWhile fun o => o.mName ≠ i.mInheritsFrom) = some (l, t) ∧
        k = (l, memberName i) := by
  rw [restatedKey, Option.map_eq_some_iff]
  constructor
  · rintro ⟨⟨l, t⟩, hfind, rfl⟩
    exact ⟨l, t, hfind, rfl⟩
  · rintro ⟨l, t, hfind, rfl⟩
    exact ⟨(l, t), hfind, rfl⟩

theorem restated_iff {chain : List Object} {s : Slot} :
    Restated chain s ↔ (lastAssigned chain s).isSome := by
  induction chain with
  | nil => simp [Restated, lastAssigned]
  | cons o bases ih =>
      rw [Restated, lastAssigned, ih]
      cases o.mAssignment with
      | true => simp
      | false =>
          simp only [← restatedKey_eq, true_and, Bool.false_eq_true, if_false, Option.isSome_or,
            Bool.or_eq_true, List.find?_isSome, List.mem_reverse, decide_eq_true_eq]
          exact or_comm

theorem findField_mem {name : Text} {chain : List Object} {l : Nat} {t : MemberVariable}
    (h : findField name chain = some (l, t)) :
    ∃ s ∈ slots chain, level s.1 = l ∧ s.2 = t ∧ memberName t = name := by
  induction chain with
  | nil => simp [findField] at h
  | cons o bases ih =>
      rw [findField] at h
      split at h
      next i hi =>
        obtain ⟨rfl, rfl⟩ := Prod.mk.inj (Option.some.inj h)
        refine ⟨(o :: bases, i), ?_, rfl, rfl, by simpa using List.find?_some hi⟩
        rw [slots, List.mem_append]
        exact Or.inr (List.mem_map_of_mem (List.mem_of_find?_eq_some hi))
      next =>
        obtain ⟨s, hs, hl, ht, hm⟩ := ih h
        exact ⟨s, List.mem_append_left _ hs, hl, ht, hm⟩

theorem slots_subset_of_suffix {chain tail : List Object} (h : tail <:+ chain) :
    ∀ s ∈ slots tail, s ∈ slots chain := by
  induction chain with
  | nil => simp [List.suffix_nil.mp h]
  | cons o bases ih =>
      obtain rfl | h := List.suffix_cons_iff.mp h
      · exact fun s hs => hs
      · exact fun s hs => List.mem_append_left _ (ih h s hs)

theorem foldlM_initial {level : Nat} {own : List MemberVariable} {f g : Fields}
    (hnodup : (own.map memberName).Nodup)
    (h : own.foldlM (fun f i => do
      some (f.set level (memberName i) (← initialValue b call i))) f = some g) :
    (∀ i ∈ own, initialValue b call i = some (g level (memberName i))) ∧
      ∀ l m, (∀ i ∈ own, (l, m) ≠ (level, memberName i)) → g l m = f l m := by
  induction own generalizing f with
  | nil =>
      obtain rfl := Option.some.inj h
      simp
  | cons i own ih =>
      rw [List.map_cons, List.nodup_cons] at hnodup
      rw [List.foldlM_cons] at h
      obtain ⟨f', hi, h⟩ := Option.bind_eq_some_iff.mp h
      obtain ⟨d, hd, hi⟩ := Option.bind_eq_some_iff.mp hi
      obtain rfl := Option.some.inj hi
      obtain ⟨hown, hrest⟩ := ih hnodup.2 h
      have hsame : g level (memberName i) = d := by
        rw [hrest, Fields.set_same]
        rintro j hj heq
        exact hnodup.1 ((Prod.mk.inj heq).2 ▸ List.mem_map_of_mem hj)
      refine ⟨List.forall_mem_cons.mpr ⟨by rw [hd, hsame], hown⟩, fun l m hne => ?_⟩
      rw [List.forall_mem_cons] at hne
      rw [hrest l m hne.2, Fields.set_of_ne _ _ hne.1]

theorem foldlM_restated {chain : List Object} {restated : List MemberVariable} {f g : Fields}
    (h : restated.foldlM (assignRestated b call chain) f = some g) {l : Nat} {m : Text}
    (hne : ∀ i ∈ restated, ∀ l' t,
      findField (memberName i) (chain.dropWhile fun o => o.mName ≠ i.mInheritsFrom) = some (l', t) →
        (l, m) ≠ (l', memberName i)) : g l m = f l m := by
  induction restated generalizing f with
  | nil =>
      obtain rfl := Option.some.inj h
      rfl
  | cons i restated ih =>
      rw [List.forall_mem_cons] at hne
      rw [List.foldlM_cons] at h
      obtain ⟨f', hi, h⟩ := Option.bind_eq_some_iff.mp h
      obtain ⟨⟨l', t⟩, hfind, hi⟩ := Option.bind_eq_some_iff.mp hi
      simp only [Option.ite_none_left_eq_some] at hi
      obtain ⟨d, _, hi⟩ := Option.bind_eq_some_iff.mp hi.2
      obtain rfl := Option.some.inj hi
      rw [ih h hne.2, Fields.set_of_ne _ _ (hne.1 l' t hfind)]

theorem foldlM_restated_array {chain : List Object} {restated : List MemberVariable} {f g : Fields}
    (h : restated.foldlM (assignRestated b call chain) f = some g) {i : MemberVariable}
    (hi : i ∈ restated) {l : Nat} {t : MemberVariable}
    (hfind : findField (memberName i) (chain.dropWhile fun o => o.mName ≠ i.mInheritsFrom) =
      some (l, t)) : t.mIsArray = false := by
  induction restated generalizing f with
  | nil => simp at hi
  | cons j restated ih =>
      rw [List.foldlM_cons] at h
      obtain ⟨f', hj, h⟩ := Option.bind_eq_some_iff.mp h
      obtain rfl | hi := List.mem_cons.mp hi
      · rw [assignRestated, hfind] at hj
        simp only [Option.bind_eq_bind, Option.bind_some, Option.ite_none_left_eq_some] at hj
        simpa using hj.1
      · exact ih h hi

theorem foldlM_restated_last {chain : List Object} {restated : List MemberVariable} {f g : Fields}
    (h : restated.foldlM (assignRestated b call chain) f = some g) (s : Slot) :
    match restated.reverse.find? fun i => restatedKey chain i = some (key s) with
    | some i => assignedValue b call i = some (get g s)
    | none => get g s = get f s := by
  induction restated generalizing f with
  | nil =>
      obtain rfl := Option.some.inj h
      rfl
  | cons i restated ih =>
      rw [List.foldlM_cons] at h
      obtain ⟨f', hi, h⟩ := Option.bind_eq_some_iff.mp h
      obtain ⟨⟨l, t⟩, hfind, hi⟩ := Option.bind_eq_some_iff.mp hi
      simp only [Option.ite_none_left_eq_some] at hi
      obtain ⟨d, hd, hi⟩ := Option.bind_eq_some_iff.mp hi.2
      obtain rfl := Option.some.inj hi
      have hkey : restatedKey chain i = some (l, memberName i) :=
        restatedKey_eq.mpr ⟨l, t, hfind, rfl⟩
      have hrest := ih h
      rw [List.reverse_cons, List.find?_append]
      cases hlast : restated.reverse.find? fun i => restatedKey chain i = some (key s) with
      | some j =>
          rw [hlast] at hrest
          exact hrest
      | none =>
          rw [hlast] at hrest
          rw [Option.none_or]
          by_cases hs : key s = (l, memberName i)
          · have hset : get (f.set l (memberName i) d) s = d := by
              obtain ⟨rfl, hm⟩ := Prod.mk.inj hs
              rw [Slots.get, hm, Fields.set_same]
            rw [List.find?_cons_of_pos (by simp [hkey, hs])]
            exact hd.trans (congrArg some (hrest.trans hset).symm)
          · rw [List.find?_cons_of_neg (by simpa [hkey] using fun h => hs h.symm)]
            exact hrest.trans (Fields.set_of_ne f d hs)

variable {b call}

theorem constructChain_cons {o : Object} {bases : List Object} {f : Fields}
    (h : constructChain b call (o :: bases) = some f) :
    ∃ f₀ f₁, constructChain b call bases = some f₀ ∧
      (ownItems o).foldlM (fun f i => do
        some (f.set bases.length (memberName i) (← initialValue b call i))) f₀ = some f₁ ∧
      if o.mAssignment then f = f₁
      else (restatedItems o).foldlM (assignRestated b call (o :: bases)) f₁ = some f := by
  rw [constructChain] at h
  obtain ⟨f₀, h₀, h⟩ := Option.bind_eq_some_iff.mp h
  obtain ⟨f₁, h₁, h⟩ := Option.bind_eq_some_iff.mp h
  refine ⟨f₀, f₁, h₀, h₁, ?_⟩
  split_ifs at h ⊢
  · exact (Option.some.inj h).symm
  · exact h

theorem level_lt_of_restated {chain : List Object} {s : Slot} (h : Restated chain s) :
    level s.1 < chain.length := by
  induction chain with
  | nil => exact absurd h id
  | cons o bases ih =>
      obtain h | ⟨_, i, _, l, t, hfind, hkey⟩ := h
      · exact Nat.lt_succ_of_lt (ih h)
      · obtain ⟨s', hs', hlevel, _, _⟩ := findField_mem hfind
        have hlt := level_lt_of_mem (slots_subset_of_suffix (List.dropWhile_suffix _) s' hs')
        have hl : level s.1 = l := congrArg Prod.fst hkey
        omega

theorem not_restated_of_array {chain : List Object} {f : Fields}
    (h : constructChain b call chain = some f)
    (hnodup : ∀ o ∈ chain, ((ownItems o).map memberName).Nodup) {s : Slot} (hs : s ∈ slots chain)
    (harr : s.2.mIsArray = true) : ¬ Restated chain s := by
  induction chain generalizing f with
  | nil => simp [slots] at hs
  | cons o bases ih =>
      obtain ⟨f₀, f₁, h₀, h₁, h₂⟩ := constructChain_cons h
      have hkeys := nodup_keys hnodup
      rintro (hbase | ⟨hassign, i, hi, l, t, hfind, hkey⟩)
      · rw [slots, List.mem_append] at hs
        obtain hs | hs := hs
        · exact ih h₀ (List.forall_mem_cons.mp hnodup).2 hs hbase
        · -- A slot of the own class is no slot of a base.
          obtain ⟨i, _, rfl⟩ := List.mem_map.mp hs
          exact absurd (level_lt_of_restated hbase) (Nat.lt_irrefl _)
      · rw [if_neg (by simp [hassign])] at h₂
        have ht := foldlM_restated_array b call h₂ hi hfind
        obtain ⟨s', hs', hlevel, rfl, hname⟩ := findField_mem hfind
        have hs' := slots_subset_of_suffix (List.dropWhile_suffix _) s' hs'
        have heq : s = s' := eq_of_key_eq hkeys hs hs' (by rw [hkey, key, hlevel, hname])
        rw [← heq, harr] at ht
        exact absurd ht (by decide)

/-- A default constructed object holds the initializers of the members that no constructor
assigns, and nothing else. -/
theorem constructChain_spec {chain : List Object} {f : Fields}
    (h : constructChain b call chain = some f)
    (hnodup : ∀ o ∈ chain, ((ownItems o).map memberName).Nodup) :
    (∀ l m, (∀ s ∈ slots chain, (l, m) ≠ key s) → f l m = .empty) ∧
      ∀ s ∈ slots chain, ¬ Restated chain s → initialValue b call s.2 = some (get f s) := by
  induction chain generalizing f with
  | nil =>
      obtain rfl := Option.some.inj h
      simp [slots]
  | cons o bases ih =>
      obtain ⟨f₀, f₁, h₀, h₁, h₂⟩ := constructChain_cons h
      rw [List.forall_mem_cons] at hnodup
      obtain ⟨hundeclared, hslots⟩ := ih h₀ hnodup.2
      obtain ⟨hown, hother⟩ := foldlM_initial b call hnodup.1 h₁
      have hrestated : ∀ l m, (o.mAssignment = false → ∀ i ∈ restatedItems o, ∀ l' t,
          findField (memberName i) ((o :: bases).dropWhile fun o => o.mName ≠ i.mInheritsFrom) =
            some (l', t) → (l, m) ≠ (l', memberName i)) → f l m = f₁ l m := by
        intro l m hne
        split_ifs at h₂ with hassign
        · rw [h₂]
        · exact foldlM_restated b call h₂ (hne (by simpa using hassign))
      refine ⟨fun l m hne => ?_, fun s hs hr => ?_⟩
      · rw [slots, List.forall_mem_append] at hne
        rw [hrestated l m, hother l m, hundeclared l m hne.1]
        · exact fun i hi => hne.2 _ (List.mem_map_of_mem hi)
        · intro _ i _ l' t hfind
          obtain ⟨s', hs', hlevel, rfl, hname⟩ := findField_mem hfind
          have hs' := slots_subset_of_suffix (List.dropWhile_suffix _) s' hs'
          rw [slots, List.mem_append] at hs'
          have hkey : key s' = (l', memberName i) := by rw [key, hlevel, hname]
          rw [← hkey]
          exact hs'.elim (hne.1 s') (hne.2 s')
      · have hkeep : get f s = get f₁ s := hrestated _ _ fun hassign i hi l' t hfind heq =>
          hr (Or.inr ⟨hassign, i, hi, l', t, hfind, heq⟩)
        rw [hkeep]
        rw [slots, List.mem_append] at hs
        obtain hs | hs := hs
        · have hlt := level_lt_of_mem hs
          have hbase : get f₁ s = get f₀ s := hother _ _ fun i _ heq => by
            have hl : level s.1 = bases.length := congrArg Prod.fst heq
            omega
          rw [hbase]
          exact hslots s hs fun hr' => hr (Or.inl hr')
        · obtain ⟨i, hi, rfl⟩ := List.mem_map.mp hs
          exact hown i hi

/-- The constructors leave in a member the value of the last row they assign to it, and its
initializer when there is no such row. -/
theorem constructChain_value {chain : List Object} {f : Fields}
    (h : constructChain b call chain = some f)
    (hnodup : ∀ o ∈ chain, ((ownItems o).map memberName).Nodup) {s : Slot} (hs : s ∈ slots chain) :
    (match lastAssigned chain s with
      | some i => assignedValue b call i
      | none => initialValue b call s.2) = some (get f s) := by
  cases hlast : lastAssigned chain s with
  | none =>
      apply (constructChain_spec h hnodup).2 s hs
      intro hr
      rw [restated_iff, hlast] at hr
      exact absurd hr (by simp)
  | some i =>
      clear hs
      induction chain generalizing f with
      | nil => simp [lastAssigned] at hlast
      | cons o bases ih =>
          rw [List.forall_mem_cons] at hnodup
          obtain ⟨f₀, f₁, h₀, h₁, h₂⟩ := constructChain_cons h
          have hother := (foldlM_initial b call hnodup.1 h₁).2
          have hbase : lastAssigned bases s = some i → assignedValue b call i = some (get f₁ s) := by
            intro hi
            have hlt := level_lt_of_restated (restated_iff.mpr (by rw [hi]; rfl) : Restated bases s)
            have hkeep : get f₁ s = get f₀ s := hother _ _ fun j _ heq => by
              have hl : level s.1 = bases.length := congrArg Prod.fst heq
              omega
            rw [hkeep]
            exact ih h₀ hnodup.2 hi
          rw [lastAssigned] at hlast
          split_ifs at h₂ hlast with ha
          · rw [h₂]
            exact hbase hlast
          · have hrest := foldlM_restated_last b call h₂ s
            cases hfind : (restatedItems o).reverse.find? fun i =>
                restatedKey (o :: bases) i = some (key s) with
            | some j =>
                rw [hfind, Option.some_or] at hlast
                rw [hfind] at hrest
                obtain rfl := Option.some.inj hlast
                exact hrest
            | none =>
                rw [hfind, Option.none_or] at hlast
                rw [hfind] at hrest
                rw [hrest]
                exact hbase hlast

theorem initialValue_scalar {i : MemberVariable} (h : Scalar b i) :
    initialValue b call i = some (if i.mDefaultValue = [] then valueless i else b.initial i) := by
  obtain ⟨ha, hptr, htype⟩ := h
  rw [initialValue, if_neg (by simp [ha]), if_neg (by simp [hptr])]
  by_cases hstd : getStandardType i.mType = .none
  · have henum := htype.resolve_left (not_not.mpr hstd)
    by_cases hdefault : i.mDefaultValue = []
    · simp [hstd, henum, hdefault, valueless]
    · simp [hstd, henum, hdefault]
  · by_cases hdefault : i.mDefaultValue = []
    · simp [hstd, hdefault, valueless]
    · simp [hstd, hdefault]

theorem assignedValue_scalar {i j : MemberVariable} {d : Datum} (h : Scalar b j)
    (htype : i.mType = j.mType) (hd : assignedValue b call i = some d) : d = b.initial i := by
  rw [assignedValue, htype] at hd
  split_ifs at hd with ha hstd
  · exact (Option.some.inj hd).symm
  · rw [not_or, not_not] at hstd
    rw [h.2.2.resolve_left (not_not.mpr hstd.1)] at hd
    exact (Option.some.inj hd).symm

theorem constructChain_of_fresh {c : Text} {chain : List Object} {f : Fields}
    (hchain : b.chain c = some chain) (hf : b.fresh c = some f) :
    ∃ m, constructChain b (construct b m) chain = some f := by
  rw [Build.fresh] at hf
  cases hlen : b.dom.mObjects.length with
  | zero => simp [hlen, construct] at hf
  | succ m =>
      rw [hlen, construct, hchain, Option.bind_some] at hf
      exact ⟨_, hf⟩

end SchemaCodeGen.Fresh
