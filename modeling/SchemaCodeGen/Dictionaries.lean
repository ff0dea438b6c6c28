import Mathlib.Data.List.Basic

namespace SchemaCodeGen.Dictionaries

section Keys

variable {K A B : Type}

def put [DecidableEq K] (k : K) (a : A) : List (K × A) → List (K × A)
  | [] => [(k, a)]
  | e :: l => if e.1 = k then (k, a) :: l else e :: put k a l

def keys (l : List (K × A)) : List K := l.map Prod.fst

variable {k : K} {a : A} {l : List (K × A)}

theorem put_of_notMem [DecidableEq K] (h : k ∉ keys l) : put k a l = l ++ [(k, a)] := by
  induction l with
  | nil => rfl
  | cons e l ih =>
      rw [keys, List.map_cons, List.mem_cons, not_or] at h
      rw [put, if_neg (Ne.symm h.1), ih h.2]
      rfl

theorem lookup_of_notMem [BEq K] [LawfulBEq K] (h : k ∉ keys l) : (l ++ [(k, a)]).lookup k = some a := by
  induction l with
  | nil => simp
  | cons e l ih =>
      rw [keys, List.map_cons, List.mem_cons, not_or] at h
      rw [List.cons_append, List.lookup_cons, ih h.2, beq_false_of_ne h.1]

theorem map_put [DecidableEq K] (f : A → B) (k : K) (a : A) (l : List (K × A)) :
    (put k a l).map (Prod.map id f) = put k (f a) (l.map (Prod.map id f)) := by
  induction l with
  | nil => rfl
  | cons e l ih =>
      rw [put, List.map_cons, put, Prod.map_fst, id_eq]
      split_ifs with h
      · rfl
      · rw [List.map_cons, ih]

theorem mem_keys_put [DecidableEq K] {k' : K} : k' ∈ keys (put k a l) ↔ k' = k ∨ k' ∈ keys l := by
  induction l with
  | nil => simp [put, keys]
  | cons e l ih =>
      rw [put]
      split_ifs with h
      · simp [keys, h]
      · simp only [keys, List.map_cons, List.mem_cons] at ih ⊢
        rw [ih]
        tauto

end Keys

section Heap

variable (K V : Type)

inductive Tree
  | leaf (v : V)
  | list (l : List Tree)
  | dict (l : List (K × Tree))

inductive Entry
  | data (t : Tree K V)
  | ref (a : Nat)

abbrev Heap := List (List (K × Entry K V))

end Heap

section Segments

variable {K V : Type}

def entries (l : List (K × Tree K V)) : List (K × Entry K V) := l.map (Prod.map id Entry.data)

/-- The data that an entry stands for. The number bounds how deep references go. -/
def resolve (h : Heap K V) : Nat → Entry K V → Option (Tree K V)
  | _, .data t => some t
  | 0, .ref _ => none
  | n + 1, .ref a =>
      h[a]?.bind fun l => (l.mapM fun e => (resolve h n e.2).map fun t => (e.1, t)).map .dict

/-- Levels of data, each with the key that the levels below are under, and the data of the last. -/
def nest : List (List (K × Tree K V) × K) → List (K × Tree K V) → List (K × Tree K V)
  | [], inner => inner
  | (l, k) :: levels, inner => l ++ [(k, .dict (nest levels inner))]

/-- The dictionaries of levels, from an address down to that of the last one. -/
inductive Segment (h : Heap K V) : Nat → List (List (K × Tree K V) × K) → Nat → Prop
  | here (a : Nat) : Segment h a [] a
  | down {a b t : Nat} {l : List (K × Tree K V)} {k : K} {levels : List (List (K × Tree K V) × K)}
      (hcell : h[a]? = some (entries l ++ [(k, .ref b)])) (hkey : k ∉ keys l) (hlt : b < a)
      (hrest : Segment h b levels t) : Segment h a ((l, k) :: levels) t

variable {h h' : Heap K V} {a b t n : Nat} {l inner : List (K × Tree K V)} {k : K}
  {levels : List (List (K × Tree K V) × K)}

theorem keys_entries (l : List (K × Tree K V)) : keys (entries l) = keys l := by
  simp [keys, entries]

theorem entries_put [DecidableEq K] (k : K) (v : Tree K V) (l : List (K × Tree K V)) :
    entries (put k v l) = put k (.data v) (entries l) := map_put _ _ _ _

theorem mapM_entries (h : Heap K V) (n : Nat) (l : List (K × Tree K V)) :
    ((entries l).mapM fun e => (resolve h n e.2).map fun t => (e.1, t)) = some l := by
  induction l with
  | nil => rfl
  | cons e l ih =>
      rw [entries, List.map_cons, List.mapM_cons]
      rw [entries] at ih
      simp [ih, resolve]

theorem Segment.length_le (hs : Segment h a levels t) : levels.length + t ≤ a := by
  induction hs with
  | here => simp
  | down _ _ hlt _ ih =>
      rw [List.length_cons]
      omega

theorem Segment.lt_length (hs : Segment h a levels t) (ht : t < h.length) : a < h.length := by
  cases hs with
  | here => exact ht
  | down hcell => exact (List.getElem?_eq_some_iff.mp hcell).1

theorem Segment.frame (hs : Segment h a levels t) (heq : ∀ i, t < i → h'[i]? = h[i]?) :
    Segment h' a levels t := by
  induction hs with
  | here => exact .here _
  | down hcell hkey hlt hrest ih =>
      have hlow := hrest.length_le
      refine .down ?_ hkey hlt (ih heq)
      rw [heq _ (by omega), hcell]

theorem Segment.snoc (hs : Segment h a levels t) (hcell : h[t]? = some (entries l ++ [(k, .ref b)]))
    (hkey : k ∉ keys l) (hlt : b < t) : Segment h a (levels ++ [(l, k)]) b := by
  induction hs with
  | here => exact .down hcell hkey hlt (.here b)
  | down hcell' hkey' hlt' _ ih => exact .down hcell' hkey' hlt' (ih hcell hlt)

theorem Segment.extend (hs : Segment h a levels t) (ht : h[t]? = some (entries l)) (hkey : k ∉ keys l)
    (hlt : b < t) : Segment (h.set t (entries l ++ [(k, .ref b)])) a (levels ++ [(l, k)]) b := by
  have hlength : t < h.length := (List.getElem?_eq_some_iff.mp ht).1
  refine (hs.frame fun i hi => ?_).snoc ?_ hkey hlt
  · rw [List.getElem?_set_ne (by omega)]
  · rw [List.getElem?_set_self hlength]

theorem Segment.resolve_eq (hs : Segment h a levels t) (ht : h[t]? = some (entries inner))
    (hn : levels.length < n) : resolve h n (.ref a) = some (.dict (nest levels inner)) := by
  induction hs generalizing n with
  | here =>
      obtain ⟨n, rfl⟩ := Nat.exists_eq_add_of_lt hn
      rw [List.length_nil, Nat.zero_add, resolve, ht, Option.bind_some, mapM_entries]
      rfl
  | @down a b t l k levels hcell _ _ _ ih =>
      obtain ⟨n, rfl⟩ := Nat.exists_eq_add_of_lt hn
      have hinner := @ih (levels.length + 1 + n) ht (by omega)
      rw [List.length_cons, resolve, hcell, Option.bind_some, List.mapM_append, mapM_entries]
      simp [hinner, nest]

end Segments

end SchemaCodeGen.Dictionaries
