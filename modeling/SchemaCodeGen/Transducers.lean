import Mathlib.Data.List.Basic

namespace SchemaCodeGen.Transducers

/-- What is written for each symbol read, and at the end of the input. -/
structure Transducer (σ α β : Type) where
  start : σ
  step : σ → α → σ × List β
  finish : σ → List β

variable {σ τ α β γ : Type}

namespace Transducer

def run (t : Transducer σ α β) (s : σ) : List α → σ × List β
  | [] => (s, [])
  | a :: as =>
      let next := t.step s a
      let rest := run t next.1 as
      (rest.1, next.2 ++ rest.2)

def output (t : Transducer σ α β) (as : List α) : List β :=
  let r := t.run t.start as
  r.2 ++ t.finish r.1

/-- The second machine reads what the first one writes. -/
def comp (t : Transducer σ α β) (u : Transducer τ β γ) : Transducer (σ × τ) α γ where
  start := (t.start, u.start)
  step s a :=
    let first := t.step s.1 a
    let second := u.run s.2 first.2
    ((first.1, second.1), second.2)
  finish s :=
    let second := u.run s.2 (t.finish s.1)
    second.2 ++ u.finish second.1

variable (t : Transducer σ α β) (u : Transducer τ β γ)

@[simp] theorem run_nil (s : σ) : t.run s [] = (s, []) := rfl

theorem run_cons (s : σ) (a : α) (as : List α) :
    t.run s (a :: as) =
      ((t.run (t.step s a).1 as).1, (t.step s a).2 ++ (t.run (t.step s a).1 as).2) := rfl

theorem run_append (s : σ) (as bs : List α) :
    t.run s (as ++ bs) =
      ((t.run (t.run s as).1 bs).1, (t.run s as).2 ++ (t.run (t.run s as).1 bs).2) := by
  induction as generalizing s with
  | nil => rfl
  | cons a as ih =>
      rw [List.cons_append, run_cons, ih, run_cons]
      simp only [List.append_assoc]

theorem run_comp (s : σ) (r : τ) (as : List α) :
    (t.comp u).run (s, r) as =
      (((t.run s as).1, (u.run r (t.run s as).2).1), (u.run r (t.run s as).2).2) := by
  induction as generalizing s r with
  | nil => rfl
  | cons a as ih =>
      have hstep : (t.comp u).step (s, r) a =
          (((t.step s a).1, (u.run r (t.step s a).2).1), (u.run r (t.step s a).2).2) := rfl
      rw [run_cons, hstep, ih, run_cons, run_append]

variable {t}

theorem length_output_le (held : σ → Nat) (hstart : held t.start = 0)
    (hstep : ∀ s a, (t.step s a).2.length + held (t.step s a).1 ≤ held s + 1)
    (hfinish : ∀ s, (t.finish s).length ≤ held s) (as : List α) : (t.output as).length ≤ as.length := by
  have hrun : ∀ (as : List α) (s : σ),
      (t.run s as).2.length + held (t.run s as).1 ≤ held s + as.length := by
    intro as
    induction as with
    | nil =>
        intro s
        simp
    | cons a as ih =>
        intro s
        have hhead := hstep s a
        have htail := ih (t.step s a).1
        simp only [run_cons, List.length_append, List.length_cons]
        omega
  have h := hrun as t.start
  have hlast := hfinish (t.run t.start as).1
  rw [output, List.length_append]
  omega

theorem forall_mem_output {p : β → Prop} {as : List α}
    (hstep : ∀ s, ∀ a ∈ as, ∀ b ∈ (t.step s a).2, p b) (hfinish : ∀ s, ∀ b ∈ t.finish s, p b) :
    ∀ b ∈ t.output as, p b := by
  have hrun : ∀ s, ∀ b ∈ (t.run s as).2, p b := by
    clear hfinish
    induction as with
    | nil => simp
    | cons a as ih =>
        intro s b hb
        rw [run_cons, List.mem_append] at hb
        rcases hb with hb | hb
        · exact hstep s a List.mem_cons_self b hb
        · exact ih (fun s a ha => hstep s a (List.mem_cons_of_mem _ ha)) _ b hb
  intro b hb
  rcases List.mem_append.mp hb with hb | hb
  · exact hrun _ b hb
  · exact hfinish _ b hb

theorem run_copies {t : Transducer σ α α} {s : σ} {as : List α}
    (h : ∀ a ∈ as, t.step s a = (s, [a])) : t.run s as = (s, as) := by
  induction as with
  | nil => rfl
  | cons a as ih =>
      rw [run_cons, h a List.mem_cons_self, ih fun b hb => h b (List.mem_cons_of_mem _ hb)]
      rfl

end Transducer

end SchemaCodeGen.Transducers
