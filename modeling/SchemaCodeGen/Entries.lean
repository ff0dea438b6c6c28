import Mathlib.Data.List.Forall2

namespace SchemaCodeGen.Entries

variable {κ α : Type} [BEq κ]

def assign (k : κ) (a : α) : List (κ × α) → List (κ × α)
  | [] => [(k, a)]
  | e :: l => if e.1 == k then (k, a) :: l else e :: assign k a l

def assignAll (l es : List (κ × α)) : List (κ × α) := es.foldl (fun l e => assign e.1 e.2 l) l

variable [LawfulBEq κ]

theorem lookup_of_mem {l : List (κ × α)} (hnodup : (l.map Prod.fst).Nodup) {e : κ × α}
    (he : e ∈ l) : l.lookup e.1 = some e.2 := by
  induction l with
  | nil => simp at he
  | cons e' l ih =>
      rw [List.map_cons, List.nodup_cons] at hnodup
      rw [List.lookup_cons]
      obtain rfl | he := List.mem_cons.mp he
      · simp
      · have hne : e.1 ≠ e'.1 := fun h => hnodup.1 (h ▸ List.mem_map_of_mem he)
        rw [beq_false_of_ne hne]
        exact ih hnodup.2 he

theorem mem_of_lookup {l : List (κ × α)} {k : κ} {a : α} (h : l.lookup k = some a) :
    (k, a) ∈ l := by
  induction l with
  | nil => simp at h
  | cons e l ih =>
      rw [List.lookup_cons] at h
      split at h
      next heq =>
        obtain rfl := Option.some.inj h
        obtain rfl := eq_of_beq heq
        exact List.mem_cons_self
      next => exact List.mem_cons_of_mem _ (ih h)

theorem lookup_assign (k k' : κ) (a : α) (l : List (κ × α)) :
    (assign k a l).lookup k' = if k' == k then some a else l.lookup k' := by
  induction l with
  | nil =>
      rw [assign, List.lookup_cons]
      cases k' == k <;> rfl
  | cons e l ih =>
      rw [assign]
      by_cases he : e.1 = k
      · subst he
        rw [if_pos (by simp), List.lookup_cons, List.lookup_cons]
        cases k' == e.1 <;> rfl
      · rw [beq_false_of_ne he, if_neg (by simp), List.lookup_cons, List.lookup_cons, ih]
        by_cases hk : k' = e.1
        · subst hk
          rw [beq_self_eq_true, beq_false_of_ne he]
          rfl
        · rw [beq_false_of_ne hk]

theorem mem_of_lookup_assignAll {l es : List (κ × α)} {k : κ} {a : α}
    (h : (assignAll l es).lookup k = some a) : (k, a) ∈ es ∨ l.lookup k = some a := by
  induction es generalizing l with
  | nil => exact Or.inr h
  | cons e es ih =>
      obtain hmem | hbefore := ih h
      · exact Or.inl (List.mem_cons_of_mem _ hmem)
      · rw [lookup_assign] at hbefore
        split_ifs at hbefore with hk
        · obtain rfl := eq_of_beq hk
          obtain rfl := Option.some.inj hbefore
          exact Or.inl List.mem_cons_self
        · exact Or.inr hbefore

theorem lookup_assignAll_isSome (l es : List (κ × α)) {k : κ}
    (h : k ∈ es.map Prod.fst ∨ (l.lookup k).isSome) : ((assignAll l es).lookup k).isSome := by
  induction es generalizing l with
  | nil => exact h.resolve_left (by simp)
  | cons e es ih =>
      apply ih _
      rw [lookup_assign]
      by_cases hk : k = e.1
      · exact Or.inr (by simp [hk])
      · rw [beq_false_of_ne hk, if_neg (by simp)]
        refine h.imp (fun h => ?_) id
        exact (List.mem_cons.mp h).resolve_left hk

theorem lookup_assignAll {l es : List (κ × α)} (hnodup : (l.map Prod.fst).Nodup)
    (h : ∀ e, e ∈ es ↔ e ∈ l) (k : κ) : (assignAll [] es).lookup k = l.lookup k := by
  have hfound : ∀ a, (assignAll [] es).lookup k = some a → l.lookup k = some a := by
    intro a ha
    have hmem := (mem_of_lookup_assignAll ha).resolve_right (by simp)
    exact lookup_of_mem hnodup ((h _).mp hmem)
  cases hl : l.lookup k with
  | none =>
      cases ha : (assignAll [] es).lookup k with
      | none => rfl
      | some a => rw [hfound a ha] at hl; exact hl
  | some a =>
      have hmem : (k, a) ∈ es := (h _).mpr (mem_of_lookup hl)
      obtain ⟨a', ha'⟩ := Option.isSome_iff_exists.mp
        (lookup_assignAll_isSome [] es (Or.inl (List.mem_map_of_mem (f := Prod.fst) hmem)))
      rw [ha', ← hl, hfound a' ha']

/-- The entries of `l` and `l'` under the keys of interest are the same up to order, with related
values. -/
def Match (known : κ → Bool) (R : κ → α → α → Prop) (l l' : List (κ × α)) : Prop :=
  ∃ es, (l.filter fun e => known e.1).Perm es ∧
    List.Forall₂ (fun e e' => e.1 = e'.1 ∧ R e.1 e.2 e'.2) es (l'.filter fun e => known e.1)

theorem exists_of_forall₂ {σ τ : Type} {R : σ → τ → Prop} {l : List σ} {l' : List τ}
    (h : List.Forall₂ R l l') {x : σ} (hx : x ∈ l) : ∃ y ∈ l', R x y := by
  induction h with
  | nil => simp at hx
  | cons hab _ ih =>
      obtain rfl | hx := List.mem_cons.mp hx
      · exact ⟨_, List.mem_cons_self, hab⟩
      · obtain ⟨y, hy, hr⟩ := ih hx
        exact ⟨y, List.mem_cons_of_mem _ hy, hr⟩

theorem lookup_of_match {known : κ → Bool} {R : κ → α → α → Prop} {l l' : List (κ × α)}
    (hnodup : (l.map Prod.fst).Nodup) (hnodup' : (l'.map Prod.fst).Nodup) (h : Match known R l l')
    {k : κ} (hk : known k = true) :
    (l.lookup k = none ∧ l'.lookup k = none) ∨
      ∃ a a', l.lookup k = some a ∧ l'.lookup k = some a' ∧ R k a a' := by
  obtain ⟨es, hperm, hrel⟩ := h
  cases hl : l.lookup k with
  | some a =>
      have hmem : (k, a) ∈ es :=
        hperm.mem_iff.mp (List.mem_filter.mpr ⟨mem_of_lookup hl, hk⟩)
      obtain ⟨⟨k', a'⟩, he', rfl, hr⟩ := exists_of_forall₂ hrel hmem
      exact Or.inr ⟨a, a', rfl, lookup_of_mem hnodup' (List.mem_of_mem_filter he'), hr⟩
  | none =>
      cases hl' : l'.lookup k with
      | none => exact Or.inl ⟨rfl, rfl⟩
      | some a' =>
          have hmem : (k, a') ∈ l'.filter fun e => known e.1 :=
            List.mem_filter.mpr ⟨mem_of_lookup hl', hk⟩
          have hrel' : List.Forall₂ (fun (e' e : κ × α) => e.1 = e'.1 ∧ R e.1 e.2 e'.2) _ es :=
            List.Forall₂.flip hrel
          obtain ⟨⟨k', a⟩, he, rfl, _⟩ := exists_of_forall₂ hrel' hmem
          have hfound := lookup_of_mem hnodup (List.mem_of_mem_filter (hperm.mem_iff.mpr he))
          exact absurd (hl.symm.trans hfound) (by simp)

end SchemaCodeGen.Entries
