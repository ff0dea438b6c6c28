import Mathlib.Data.List.Forall2
import Mathlib.Order.Bounds.Basic
import Mathlib.Order.Nat

namespace SchemaCodeGen.Occurrences

section Begins

variable {α β : Type} (r : α → β → Prop)

def Begins (s : List α) (t : List β) : Prop := List.Forall₂ r s (t.take s.length)

instance [∀ a b, Decidable (r a b)] (s : List α) (t : List β) : Decidable (Begins r s t) :=
  inferInstanceAs (Decidable (List.Forall₂ r s (t.take s.length)))

def OccursAt (s : List α) (t : List β) (i : Nat) : Prop := Begins r s (t.drop i)

/-- The smallest place where `s` occurs in `t`. -/
def First (s : List α) (t : List β) (i : Nat) : Prop := IsLeast {j | OccursAt r s t j} i

/-- What is left of `t` from the first occurrence on. -/
def search [∀ a b, Decidable (r a b)] (s : List α) : List β → Option (List β)
  | [] => none
  | b :: t => if Begins r s (b :: t) then some (b :: t) else search s t

variable {r} {a : α} {b : β} {s : List α} {t : List β} {i : Nat}

@[simp] theorem begins_nil : Begins r [] t := List.Forall₂.nil

@[simp] theorem not_begins_cons_nil : ¬ Begins r (a :: s) [] := by
  intro h
  cases h

@[simp] theorem begins_cons : Begins r (a :: s) (b :: t) ↔ r a b ∧ Begins r s t := by
  rw [Begins, List.length_cons, List.take_succ_cons, List.forall₂_cons]
  rfl

theorem occursAt_succ : OccursAt r s (b :: t) (i + 1) ↔ OccursAt r s t i := Iff.rfl

theorem not_occursAt_nil (hs : s ≠ []) : ¬ OccursAt r s [] i := by
  obtain ⟨a, s, rfl⟩ := List.exists_cons_of_ne_nil hs
  rw [OccursAt, List.drop_nil]
  exact not_begins_cons_nil

theorem first_of_begins (h : Begins r s t) : First r s t i ↔ i = 0 := by
  have hzero : First r s t 0 := ⟨h, fun j _ => Nat.zero_le j⟩
  constructor
  · intro hi
    exact hi.unique hzero
  · rintro rfl
    exact hzero

theorem first_succ (h : ¬ Begins r s (b :: t)) : First r s (b :: t) (i + 1) ↔ First r s t i := by
  constructor
  · rintro ⟨hi, hleast⟩
    refine ⟨occursAt_succ.mp hi, fun j hj => ?_⟩
    exact Nat.le_of_succ_le_succ (hleast (occursAt_succ.mpr hj))
  · rintro ⟨hi, hleast⟩
    refine ⟨occursAt_succ.mpr hi, fun j hj => ?_⟩
    cases j with
    | zero => exact absurd hj h
    | succ j => exact Nat.succ_le_succ (hleast (occursAt_succ.mp hj))

end Begins

section Search

variable {α β : Type} {r : α → β → Prop} [∀ a b, Decidable (r a b)] {s : List α} {t u : List β}
  {i : Nat}

theorem length_le_of_search (h : search r s t = some u) : u.length ≤ t.length := by
  induction t with
  | nil => cases h
  | cons b t ih =>
      rw [search] at h
      split_ifs at h with hb
      · cases h
        exact le_rfl
      · exact (ih h).trans (Nat.le_succ _)

theorem search_eq_some_iff (hs : s ≠ []) :
    i < t.length ∧ search r s t = some (t.drop i) ↔ First r s t i := by
  induction t generalizing i with
  | nil =>
      apply iff_of_false
      · exact fun h => absurd h.1 (Nat.not_lt_zero _)
      · exact fun h => not_occursAt_nil hs h.1
  | cons b t ih =>
      rw [search]
      by_cases hb : Begins r s (b :: t)
      · rw [if_pos hb, first_of_begins hb]
        constructor
        · rintro ⟨hi, hdrop⟩
          have hlength := congrArg List.length (Option.some.inj hdrop)
          rw [List.length_drop] at hlength
          omega
        · rintro rfl
          exact ⟨Nat.succ_pos _, rfl⟩
      · rw [if_neg hb]
        cases i with
        | zero =>
            apply iff_of_false
            · rintro ⟨_, hall⟩
              have hle := length_le_of_search hall
              rw [List.drop_zero, List.length_cons] at hle
              omega
            · exact fun h => hb h.1
        | succ i => rw [first_succ hb, ← ih, List.length_cons, Nat.succ_lt_succ_iff, List.drop_succ_cons]

theorem search_eq_none_iff (hs : s ≠ []) : search r s t = none ↔ ∀ i, ¬ OccursAt r s t i := by
  induction t with
  | nil => exact iff_of_true rfl fun i => not_occursAt_nil hs
  | cons b t ih =>
      rw [search]
      by_cases hb : Begins r s (b :: t)
      · rw [if_pos hb]
        exact iff_of_false (Option.some_ne_none _) fun h => h 0 hb
      · rw [if_neg hb, ih]
        constructor
        · intro h i
          cases i with
          | zero => exact hb
          | succ i => exact h i
        · exact fun h i => h (i + 1)

end Search

end SchemaCodeGen.Occurrences
