import SchemaCodeGen.FixedBuffer

namespace SchemaCodeGen.LocalArrays

open CString FixedBuffer

/-- The characters that each array finds, the arrays in the order of their declarations. -/
abbrev Stack := Nat → Nat → Char

/-- A program counts its arrays. It fails when it reads outside of one. -/
abbrev Program := ReaderT Stack (StateT Nat Option)

def contents (s : Stack) (size n : Nat) : Text := (List.range size).map (s n)

def declare (size : Nat) : Program Text := fun s n => some (contents s size n, n + 1)

def result {α : Type} (p : Program α) (s : Stack) : Option α := (p s 0).map Prod.fst

@[simp] theorem length_contents (s : Stack) (size n : Nat) : (contents s size n).length = size := by
  simp [contents]

variable {α β : Type} {p : Program α} {f : α → Program β}

theorem bind_eq (p : Program α) (f : α → Program β) (s : Stack) (n : Nat) :
    (p >>= f) s n = (p s n).bind fun r => f r.1 s r.2 := rfl

theorem lift_eq (o : Option α) (s : Stack) (n : Nat) :
    (liftM o : Program α) s n = o.map fun a => (a, n) := by
  cases o with
  | none => rfl
  | some a => rfl

@[simp] theorem lift_bind (a : α) (f : α → Program β) :
    ((liftM (some a) : Program α) >>= f) = f a := rfl

/-- What the program does is independent of the stack. -/
def Settled (p : Program α) : Prop := ∀ s s' n, p s n = p s' n

theorem settled_pure (a : α) : Settled (pure a : Program α) := fun _ _ _ => rfl

theorem settled_lift (o : Option α) : Settled (liftM o : Program α) := fun _ _ _ => rfl

theorem settled_bind (hp : Settled p) (hf : ∀ a, Settled (f a)) : Settled (p >>= f) := by
  intro s s' n
  rw [bind_eq, bind_eq, hp s s' n]
  refine Option.bind_congr fun r _ => ?_
  exact hf r.1 s s' r.2

theorem settled_ite {c : Prop} [Decidable c] {q : Program α} (hp : Settled p) (hq : Settled q) :
    Settled (if c then p else q) := by
  split_ifs
  · exact hp
  · exact hq

theorem settled_mapM {g : α → Program β} (h : ∀ a, Settled (g a)) (l : List α) : Settled (l.mapM g) := by
  induction l with
  | nil => exact settled_pure []
  | cons a l ih =>
      rw [List.mapM_cons]
      exact settled_bind (h a) fun _ => settled_bind ih fun _ => settled_pure _

theorem settled_foldlM {f : β → α → Program β} (h : ∀ b a, Settled (f b a)) (l : List α) (b : β) :
    Settled (l.foldlM f b) := by
  induction l generalizing b with
  | nil => exact settled_pure b
  | cons a l ih =>
      rw [List.foldlM_cons]
      exact settled_bind (h b a) fun b => ih b

theorem settled_declare {size : Nat} {g : Text → Program β}
    (hsame : ∀ b b' : Text, b.length = size → b'.length = size → g b = g b')
    (h : ∀ b : Text, b.length = size → Settled (g b)) : Settled (declare size >>= g) := by
  intro s s' n
  change g (contents s size n) s (n + 1) = g (contents s' size n) s' (n + 1)
  rw [hsame _ _ (length_contents s size n) (length_contents s' size n)]
  exact h _ (length_contents s' size n) s s' (n + 1)

end SchemaCodeGen.LocalArrays
