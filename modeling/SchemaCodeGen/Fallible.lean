import Mathlib.Data.List.Forall2

namespace SchemaCodeGen.Fallible

variable {ε α β : Type}

@[simp] theorem ok_bind (a : α) (f : α → Except ε β) : (Except.ok a >>= f) = f a := rfl

@[simp] theorem error_bind (e : ε) (f : α → Except ε β) :
    (Except.error e >>= f) = Except.error e := rfl

@[simp] theorem pure_eq_ok (a : α) : (pure a : Except ε α) = Except.ok a := rfl

theorem bind_eq_ok {x : Except ε α} {f : α → Except ε β} {c : β} :
    x >>= f = .ok c ↔ ∃ a, x = .ok a ∧ f a = .ok c := by
  cases x with
  | ok a => simp
  | error e => simp

section Loops

variable {f : α → Except ε β} {l : List α} {l' : List β}

/-- A loop over a list pairs each element with the result of its round. -/
theorem mapM_eq_ok : l.mapM f = .ok l' ↔ List.Forall₂ (fun x y => f x = .ok y) l l' := by
  induction l generalizing l' with
  | nil => simp [eq_comm]
  | cons x l ih =>
      rw [List.mapM_cons, bind_eq_ok, List.forall₂_cons_left_iff]
      constructor
      · rintro ⟨y, hy, h⟩
        obtain ⟨ys, hys, h⟩ := bind_eq_ok.mp h
        exact ⟨y, ys, hy, ih.mp hys, (Except.ok.inj h).symm⟩
      · rintro ⟨y, ys, hy, hys, rfl⟩
        exact ⟨y, hy, by rw [ih.mpr hys]; rfl⟩

theorem mapM_ok {g : α → β} (h : ∀ x ∈ l, f x = .ok (g x)) : l.mapM f = .ok (l.map g) :=
  mapM_eq_ok.mpr (List.forall₂_map_right_iff.mpr (List.forall₂_same.mpr h))

/-- What each round determines of its result, the loop determines of its results. -/
theorem map_of_mapM {γ : Type} {p : β → γ} {q : α → γ}
    (hround : ∀ x ∈ l, ∀ y, f x = .ok y → p y = q x) (h : l.mapM f = .ok l') :
    l'.map p = l.map q := by
  rw [mapM_eq_ok] at h
  induction h with
  | nil => rfl
  | cons hy _ ih =>
      rw [List.forall_mem_cons] at hround
      rw [List.map_cons, List.map_cons, hround.1 _ hy, ih hround.2]

theorem forall_mapM {P : β → Prop} {Q : α → Prop} (hround : ∀ x y, f x = .ok y → (P y ↔ Q x))
    (h : l.mapM f = .ok l') : (∀ y ∈ l', P y) ↔ ∀ x ∈ l, Q x := by
  rw [mapM_eq_ok] at h
  induction h with
  | nil => simp
  | cons hy _ ih => rw [List.forall_mem_cons, List.forall_mem_cons, hround _ _ hy, ih]

end Loops

end SchemaCodeGen.Fallible
