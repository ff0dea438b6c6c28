import Mathlib.Data.List.Basic
import Mathlib.Tactic.Cases

namespace SchemaCodeGen.Brackets

/-- Some letters open, and some close another one. -/
structure Alphabet (α : Type) where
  opens : α → Bool
  partner : α → Option α

variable {α β : Type} (A : Alphabet α)

def close [DecidableEq α] (o : α) : List α → Option (List α)
  | [] => none
  | o' :: opened => if o = o' then some opened else none

def step [DecidableEq α] (opened : List α) (c : α) : Option (List α) :=
  if A.opens c then some (c :: opened)
  else
    match A.partner c with
    | none => some opened
    | some o => close o opened

def scan [DecidableEq α] : List α → List α → Option (List α)
  | opened, [] => some opened
  | opened, c :: t => (step A opened c).bind fun opened => scan opened t

inductive Nested : List α → Prop
  | nil : Nested []
  | other {c : α} {t : List α} : A.opens c = false → A.partner c = none → Nested t → Nested (c :: t)
  | pair {o c : α} {s t : List α} : A.opens o = true → A.opens c = false → A.partner c = some o →
      Nested s → Nested t → Nested (o :: (s ++ c :: t))

def Plain (t : List α) : Prop := ∀ c ∈ t, A.opens c = false ∧ A.partner c = none

section Scans

variable [DecidableEq α] {A} {opened next : List α} {c : α} {t : List α}

theorem scan_append (opened s t : List α) :
    scan A opened (s ++ t) = (scan A opened s).bind fun opened => scan A opened t := by
  induction s generalizing opened with
  | nil => rfl
  | cons c s ih => simp only [List.cons_append, scan, ih, Option.bind_assoc]

theorem step_other (hopen : A.opens c = false) (hpartner : A.partner c = none) :
    step A opened c = some opened := by
  rw [step, hopen, hpartner]
  rfl

theorem step_frame (h : step A opened c = some next) (below : List α) :
    step A (opened ++ below) c = some (next ++ below) := by
  rw [step] at h ⊢
  split_ifs at h ⊢
  · obtain rfl := Option.some.inj h
    rfl
  · cases hpartner : A.partner c with
    | none =>
        rw [hpartner] at h
        obtain rfl := Option.some.inj h
        rfl
    | some o =>
        rw [hpartner] at h
        cases opened with
        | nil => cases h
        | cons o' opened =>
            simp only [close, List.cons_append] at h ⊢
            split_ifs at h ⊢
            obtain rfl := Option.some.inj h
            rfl

theorem scan_frame (h : scan A opened t = some next) (below : List α) :
    scan A (opened ++ below) t = some (next ++ below) := by
  induction t generalizing opened with
  | nil =>
      obtain rfl := Option.some.inj h
      rfl
  | cons c t ih =>
      obtain ⟨next, hstep, hrest⟩ := Option.bind_eq_some_iff.mp h
      rw [scan, step_frame hstep below]
      exact ih hrest

end Scans

section Grammar

variable {A} {opened t : List α}

theorem Nested.scan [DecidableEq α] (h : Nested A t) (opened : List α) : scan A opened t = some opened := by
  induction h generalizing opened with
  | nil => rfl
  | other hopen hpartner _ ih =>
      rw [Brackets.scan, step_other hopen hpartner]
      exact ih opened
  | @pair o c s t ho hc hpartner _ _ ihs iht =>
      have hfirst : step A opened o = some (o :: opened) := if_pos ho
      have hlast : step A (o :: opened) c = some opened := by
        rw [step, hc, hpartner]
        exact if_pos rfl
      rw [Brackets.scan, hfirst, Option.bind_some, scan_append, ihs, Option.bind_some, Brackets.scan, hlast]
      exact iht opened

/-- What closes the open brackets one after the other. -/
def Unwinds (A : Alphabet α) : List α → List α → Prop
  | [], t => Nested A t
  | o :: opened, t => ∃ s c rest, t = s ++ c :: rest ∧ Nested A s ∧ A.opens c = false ∧
      A.partner c = some o ∧ Unwinds A opened rest

theorem Unwinds.behind {P : List α → List α} (hP : ∀ t, Nested A t → Nested A (P t))
    (happend : ∀ s t, P (s ++ t) = P s ++ t) (h : Unwinds A opened t) : Unwinds A opened (P t) := by
  cases opened with
  | nil => exact hP t h
  | cons o opened =>
      obtain ⟨s, c, rest, rfl, hs, hc, hpartner, hrest⟩ := h
      exact ⟨P s, c, rest, happend s _, hP s hs, hc, hpartner, hrest⟩

theorem unwinds_of_scan [DecidableEq α] (hall : ∀ o ∈ opened, A.opens o = true) (h : scan A opened t = some []) :
    Unwinds A opened t := by
  induction t generalizing opened with
  | nil =>
      obtain rfl := Option.some.inj h
      exact .nil
  | cons c t ih =>
      obtain ⟨next, hstep, hrest⟩ := Option.bind_eq_some_iff.mp h
      rw [step] at hstep
      by_cases hopen : A.opens c = true
      · rw [if_pos hopen] at hstep
        obtain rfl := Option.some.inj hstep
        obtain ⟨s, c', rest, rfl, hs, hc', hpartner, hunwinds⟩ :=
          ih (List.forall_mem_cons.mpr ⟨hopen, hall⟩) hrest
        exact @Unwinds.behind _ _ _ _ (fun t => c :: (s ++ c' :: t))
          (fun t ht => .pair hopen hc' hpartner hs ht) (fun u v => by simp) hunwinds
      · rw [if_neg hopen] at hstep
        have hclose : A.opens c = false := by simpa using hopen
        cases hpartner : A.partner c with
        | none =>
            rw [hpartner] at hstep
            obtain rfl := Option.some.inj hstep
            exact @Unwinds.behind _ _ _ _ (c :: ·) (fun t ht => .other hclose hpartner ht)
              (fun u v => rfl) (ih hall hrest)
        | some o =>
            rw [hpartner] at hstep
            cases opened with
            | nil => cases hstep
            | cons o' opened =>
                simp only [close] at hstep
                split_ifs at hstep with heq
                obtain rfl := Option.some.inj hstep
                rw [List.forall_mem_cons] at hall
                exact ⟨[], c, t, rfl, .nil, hclose, by rw [hpartner, heq], ih hall.2 hrest⟩

theorem nested_iff [DecidableEq α] : Nested A t ↔ scan A [] t = some [] :=
  ⟨fun h => h.scan [], fun h => unwinds_of_scan (fun _ ho => absurd ho List.not_mem_nil) h⟩

end Grammar

section Parts

variable {A} {s t : List α}

theorem Nested.append [DecidableEq α] (hs : Nested A s) (ht : Nested A t) : Nested A (s ++ t) := by
  rw [nested_iff, scan_append, hs.scan, Option.bind_some, ht.scan]

theorem Nested.flatMap [DecidableEq α] {f : β → List α} {l : List β} (h : ∀ x ∈ l, Nested A (f x)) :
    Nested A (l.flatMap f) := by
  induction l with
  | nil => exact .nil
  | cons x l ih =>
      rw [List.forall_mem_cons] at h
      exact h.1.append (ih h.2)

theorem Plain.nested (h : Plain A t) : Nested A t := by
  induction t with
  | nil => exact .nil
  | cons c t ih =>
      rw [Plain, List.forall_mem_cons] at h
      exact .other h.1.1 h.1.2 (ih h.2)

theorem Plain.append (hs : Plain A s) (ht : Plain A t) : Plain A (s ++ t) :=
  List.forall_mem_append.mpr ⟨hs, ht⟩

theorem Plain.take (h : Plain A t) (n : Nat) : Plain A (t.take n) :=
  fun c hc => h c (List.mem_of_mem_take hc)

end Parts

end SchemaCodeGen.Brackets
