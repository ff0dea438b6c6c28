import Mathlib.Data.List.Forall2

namespace SchemaCodeGen.Initializers

/-- The parameters come with their defaults. -/
structure Initializer (N V : Type) where
  params : List (N × V)
  passed : List N
  assigned : List N

namespace Initializer

variable {N V : Type}

def names (c : Initializer N V) : List N := c.params.map Prod.fst

structure Closed (c : Initializer N V) : Prop where
  passed : ∀ m ∈ c.passed, m ∈ c.names
  assigned : ∀ m ∈ c.assigned, m ∈ c.names

end Initializer

variable {N V : Type} [DecidableEq N]

/-- The values of names in a frame. An unknown name is an error. -/
def values (frame : List (N × V)) (names : List N) : Option (List (N × V)) :=
  names.mapM fun m => (frame.lookup m).map (m, ·)

/-- A call with keyword arguments. One that is no parameter is an error. -/
def bind (c : Initializer N V) (args : List (N × V)) : Option (List (N × V)) :=
  if ∀ m ∈ args.map Prod.fst, m ∈ c.names then
    some (c.params.map fun p => (p.1, (args.lookup p.1).getD p.2))
  else none

/-- The attributes that the initializers set. Above the last class no arguments are taken. -/
def run : List (Initializer N V) → List (N × V) → Option (List (N × V))
  | [], [] => some []
  | [], _ :: _ => none
  | c :: bases, args =>
      (bind c args).bind fun frame =>
        (if c.passed = [] then some [] else (values frame c.passed).bind (run bases)).bind fun inherited =>
          (values frame c.assigned).map (inherited ++ ·)

def Accepts : List (Initializer N V) → List N → Prop
  | [], names => names = []
  | c :: bases, names => (∀ m ∈ names, m ∈ c.names) ∧ (c.passed = [] ∨ Accepts bases c.passed)

def reached : List (Initializer N V) → List (Initializer N V)
  | [] => []
  | c :: bases => c :: if c.passed = [] then [] else reached bases

variable {chain : List (Initializer N V)} {args : List (N × V)}

theorem mapM_eq_some {α β : Type} {f : α → Option β} {l : List α} {l' : List β} :
    l.mapM f = some l' ↔ List.Forall₂ (fun x y => f x = some y) l l' := by
  induction l generalizing l' with
  | nil => simp [eq_comm]
  | cons x l ih =>
      rw [List.mapM_cons, List.forall₂_cons_left_iff]
      constructor
      · intro h
        obtain ⟨y, hy, h⟩ := Option.bind_eq_some_iff.mp h
        obtain ⟨ys, hys, h⟩ := Option.bind_eq_some_iff.mp h
        exact ⟨y, ys, hy, ih.mp hys, (Option.some.inj h).symm⟩
      · rintro ⟨y, ys, hy, hys, rfl⟩
        rw [hy, ih.mpr hys]
        rfl

theorem mapM_isSome {α β : Type} {f : α → Option β} {l : List α} :
    (l.mapM f).isSome ↔ ∀ x ∈ l, (f x).isSome := by
  induction l with
  | nil => simp
  | cons x l ih =>
      rw [List.forall_mem_cons, ← ih, List.mapM_cons]
      cases f x <;> cases l.mapM f <;> simp

theorem values_of_subset (frame : List (N × V)) {names : List N}
    (h : ∀ m ∈ names, m ∈ frame.map Prod.fst) :
    ∃ vs, values frame names = some vs ∧ vs.map Prod.fst = names := by
  induction names with
  | nil => exact ⟨[], rfl, rfl⟩
  | cons m names ih =>
      rw [List.forall_mem_cons] at h
      obtain ⟨vs, hvs, hnames⟩ := ih h.2
      obtain ⟨v, hv⟩ : ∃ v, frame.lookup m = some v := by
        rw [← Option.isSome_iff_exists, List.lookup_isSome_iff]
        obtain ⟨p, hp, hm⟩ := List.mem_map.mp h.1
        exact ⟨p, hp, by simp [hm]⟩
      refine ⟨(m, v) :: vs, ?_, by rw [List.map_cons, hnames]⟩
      rw [values] at hvs ⊢
      rw [List.mapM_cons, hv, hvs]
      rfl

theorem bind_spec (c : Initializer N V) (args : List (N × V)) :
    ((∀ m ∈ args.map Prod.fst, m ∈ c.names) ∧
      ∃ frame, bind c args = some frame ∧ frame.map Prod.fst = c.names) ∨
    (¬ (∀ m ∈ args.map Prod.fst, m ∈ c.names) ∧ bind c args = none) := by
  rw [bind]
  split_ifs with h
  · refine .inl ⟨h, _, rfl, ?_⟩
    rw [List.map_map, Initializer.names]
    rfl
  · exact .inr ⟨h, rfl⟩

theorem run_spec (args : List (N × V)) (hclosed : ∀ c ∈ chain, c.Closed) :
    (Accepts chain (args.map Prod.fst) ∧ ∃ attrs, run chain args = some attrs ∧
      ∀ m, m ∈ attrs.map Prod.fst ↔ ∃ c ∈ reached chain, m ∈ c.assigned) ∨
    (¬ Accepts chain (args.map Prod.fst) ∧ run chain args = none) := by
  induction chain generalizing args with
  | nil =>
      cases args with
      | nil => exact .inl ⟨rfl, [], rfl, by simp [reached]⟩
      | cons a args => exact .inr ⟨by simp [Accepts], rfl⟩
  | cons c bases ih =>
      obtain ⟨hc, hbases⟩ := List.forall_mem_cons.mp hclosed
      rcases bind_spec c args with ⟨hargs, frame, hframe, hnames⟩ | ⟨hargs, hnone⟩
      · obtain ⟨own, hown, hassigned⟩ := values_of_subset frame (hnames ▸ hc.assigned)
        obtain ⟨passed, hpassed, hkeys⟩ := values_of_subset frame (hnames ▸ hc.passed)
        rw [run, hframe, Option.bind_some, hown, hpassed, Option.bind_some]
        by_cases hlast : c.passed = []
        · refine .inl ⟨⟨hargs, .inl hlast⟩, own, by rw [if_pos hlast]; rfl, fun m => ?_⟩
          rw [hassigned, reached, if_pos hlast]
          simp
        · rw [if_neg hlast]
          rcases ih passed hbases with ⟨haccepts, inherited, hrun, hset⟩ | ⟨hrejects, hrun⟩
          · refine .inl ⟨⟨hargs, .inr (hkeys ▸ haccepts)⟩, inherited ++ own, by rw [hrun]; rfl, fun m => ?_⟩
            rw [List.map_append, List.mem_append, hset, hassigned, reached, if_neg hlast, or_comm]
            simp
          · refine .inr ⟨fun h => ?_, by rw [hrun]; rfl⟩
            exact hrejects (hkeys.symm ▸ h.2.resolve_left hlast)
      · exact .inr ⟨fun h => hargs h.1, by rw [run, hnone]; rfl⟩

theorem run_sets_iff (hclosed : ∀ c ∈ chain, c.Closed) {wanted : N → Prop} :
    (∃ attrs, run chain args = some attrs ∧ ∀ m, wanted m → m ∈ attrs.map Prod.fst) ↔
      Accepts chain (args.map Prod.fst) ∧
        ∀ m, wanted m → ∃ c ∈ reached chain, m ∈ c.assigned := by
  rcases run_spec args hclosed with ⟨haccepts, attrs, hrun, hset⟩ | ⟨hrejects, hrun⟩
  · rw [and_iff_right haccepts]
    constructor
    · rintro ⟨attrs', hrun', hwanted⟩ m hm
      obtain rfl := Option.some.inj (hrun.symm.trans hrun')
      exact (hset m).mp (hwanted m hm)
    · exact fun h => ⟨attrs, hrun, fun m hm => (hset m).mpr (h m hm)⟩
  · refine iff_of_false ?_ fun h => hrejects h.1
    rintro ⟨attrs, hsome, _⟩
    exact absurd (hrun.symm.trans hsome) (by simp)

end SchemaCodeGen.Initializers
