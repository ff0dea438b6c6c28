import SchemaCodeGen.CString
import Mathlib.Data.List.GetD
import Mathlib.Logic.Function.Basic

namespace SchemaCodeGen.CBuffer

open CString

/-- A byte. Behind the buffer nothing but terminators is read. -/
def byte (data : Text) (i : Nat) : Char := data.getD i nul

def stringAt (data : Text) (a : Nat) : Text := cstr (data.drop a)

/-- The text before an address that began at another one, without a terminator so far. -/
structure Open (data : Text) (a b : Nat) (cell : Text) : Prop where
  text : cell <+: data.drop a
  plain : NulFree cell
  size : a + cell.length = b

/-- A string whose terminator is in front of an address. -/
structure Holds (data : Text) (a b : Nat) (cell : Text) : Prop where
  text : cell ++ [nul] <+: data.drop a
  plain : NulFree cell
  before : a + cell.length < b

/-- The strings of a row, one behind the other, all in front of an address. -/
structure Cells (data : Text) (argv : Nat → Nat) (row : List Text) (b : Nat) : Prop where
  holds : ∀ (k : Nat) (cell : Text), row[k]? = some cell → Holds data (argv k) b cell
  ordered : ∀ (k : Nat) (cell : Text), row[k]? = some cell → k + 1 < row.length →
    argv k + cell.length < argv (k + 1)

variable {data : Text} {a b j : Nat} {cell : Text} {argv : Nat → Nat} {row : List Text}

theorem lt_length (h : byte data a ≠ nul) : a < data.length := by
  by_contra hle
  exact h (List.getD_eq_default data nul (by omega))

theorem drop_eq_cons (h : byte data a ≠ nul) : data.drop a = byte data a :: data.drop (a + 1) := by
  rw [List.drop_eq_getElem_cons (lt_length h), byte, List.getD_eq_getElem data nul (lt_length h)]

theorem stringAt_nul (h : byte data a = nul) : stringAt data a = [] := by
  by_cases ha : a < data.length
  · rw [byte, List.getD_eq_getElem data nul ha] at h
    rw [stringAt, List.drop_eq_getElem_cons ha, h]
    rfl
  · rw [stringAt, List.drop_eq_nil_of_le (by omega)]
    rfl

theorem stringAt_cons (h : byte data a ≠ nul) :
    stringAt data a = byte data a :: stringAt data (a + 1) := by
  rw [stringAt, drop_eq_cons h, cstr, List.takeWhile_cons_of_pos (by simpa using h)]
  rfl

theorem head?_stringAt (data : Text) (a : Nat) :
    (stringAt data a).head? = if byte data a = nul then none else some (byte data a) := by
  split_ifs with h
  · rw [stringAt_nul h]
    rfl
  · rw [stringAt_cons h]
    rfl

theorem stringAt_set (h : j < a) (c : Char) : stringAt (data.set j c) a = stringAt data a := by
  rw [stringAt, List.drop_set_of_lt h]
  rfl

theorem prefix_set {s : Text} (h : s <+: data.drop a) (hj : a + s.length ≤ j) (c : Char) :
    s <+: (data.set j c).drop a := by
  rw [List.drop_set, if_neg (by omega)]
  rw [List.prefix_iff_eq_take] at h ⊢
  rw [List.take_set_of_le (by omega)]
  exact h

theorem Open.nil : Open data a a [] := ⟨List.nil_prefix, List.not_mem_nil, rfl⟩

theorem Open.snoc (h : Open data a b cell) (hb : byte data b ≠ nul) :
    Open data a (b + 1) (cell ++ [byte data b]) := by
  obtain ⟨htext, hplain, rfl⟩ := h
  refine ⟨?_, ?_, by simp; omega⟩
  · obtain ⟨rest, hrest⟩ := htext
    have hdrop : rest = data.drop (a + cell.length) := by
      rw [← List.drop_drop, ← hrest, List.drop_left]
    rw [← hrest, List.prefix_append_right_inj, hdrop, drop_eq_cons hb]
    exact ⟨_, rfl⟩
  · rw [NulFree, List.mem_append, List.mem_singleton, not_or]
    exact ⟨hplain, Ne.symm hb⟩

theorem Open.close (h : Open data a b cell) (hb : b < data.length) :
    Holds (data.set b nul) a (b + 1) cell := by
  obtain ⟨htext, hplain, rfl⟩ := h
  refine ⟨?_, hplain, by omega⟩
  obtain ⟨rest, hrest⟩ := prefix_set htext le_rfl nul
  have hdrop : rest = (data.set (a + cell.length) nul).drop (a + cell.length) := by
    rw [← List.drop_drop, ← hrest, List.drop_left]
  rw [← hrest, List.prefix_append_right_inj, hdrop, List.drop_eq_getElem_cons (by simpa using hb),
    List.getElem_set_self]
  exact ⟨_, rfl⟩

theorem Holds.mono (h : Holds data a b cell) {b' : Nat} (hb : b ≤ b') : Holds data a b' cell :=
  ⟨h.text, h.plain, h.before.trans_le hb⟩

theorem Holds.set (h : Holds data a b cell) (hj : b ≤ j) (c : Char) : Holds (data.set j c) a b cell := by
  refine ⟨prefix_set h.text ?_ c, h.plain, h.before⟩
  have hbefore := h.before
  simp only [List.length_append, List.length_singleton]
  omega

theorem Holds.stringAt (h : Holds data a b cell) : stringAt data a = cell := by
  obtain ⟨rest, hrest⟩ := h.text
  have hall : ∀ c ∈ cell, (c != nul) = true := by
    intro c hc
    have hne : c ≠ nul := fun he => h.plain (he ▸ hc)
    simpa using hne
  rw [CBuffer.stringAt, ← hrest, List.append_assoc, cstr, List.takeWhile_append_of_pos hall]
  simp

theorem Holds.terminated (h : Holds data a b cell) :
    a + cell.length < data.length ∧ byte data (a + cell.length) = nul := by
  obtain ⟨rest, hrest⟩ := h.text
  have hdrop : data.drop (a + cell.length) = nul :: rest := by
    rw [← List.drop_drop, ← hrest, List.append_assoc, List.drop_left]
    rfl
  have hlt : a + cell.length < data.length := by
    by_contra hle
    rw [List.drop_eq_nil_of_le (by omega)] at hdrop
    exact absurd hdrop (by simp)
  refine ⟨hlt, ?_⟩
  rw [List.drop_eq_getElem_cons hlt] at hdrop
  rw [byte, List.getD_eq_getElem data nul hlt, (List.cons.inj hdrop).1]

theorem Cells.nil : Cells data argv [] b := ⟨by simp, by simp⟩

theorem Cells.mono (h : Cells data argv row b) {b' : Nat} (hb : b ≤ b') : Cells data argv row b' :=
  ⟨fun k cell hk => (h.holds k cell hk).mono hb, h.ordered⟩

theorem Cells.set (h : Cells data argv row b) (hj : b ≤ j) (c : Char) : Cells (data.set j c) argv row b :=
  ⟨fun k cell hk => (h.holds k cell hk).set hj c, h.ordered⟩

theorem Cells.update (h : Cells data argv row b) (p : Nat) :
    Cells data (Function.update argv row.length p) row b := by
  have hkeep : ∀ k < row.length, Function.update argv row.length p k = argv k := by
    intro k hk
    exact Function.update_of_ne (Nat.ne_of_lt hk) p argv
  refine ⟨fun k cell hk => ?_, fun k cell hk hnext => ?_⟩
  · rw [hkeep k (List.getElem?_eq_some_iff.mp hk).1]
    exact h.holds k cell hk
  · rw [hkeep k (by omega), hkeep (k + 1) hnext]
    exact h.ordered k cell hk hnext

theorem Cells.snoc (h : Cells data argv row (argv row.length)) (hcell : Holds data (argv row.length) b cell) :
    Cells data argv (row ++ [cell]) b := by
  have hle : argv row.length ≤ b := by
    have hbefore := hcell.before
    omega
  refine ⟨fun k c hk => ?_, fun k c hk hnext => ?_⟩
  · rcases lt_or_ge k row.length with hlt | hge
    · rw [List.getElem?_append_left hlt] at hk
      exact (h.holds k c hk).mono hle
    · rw [List.getElem?_append_right hge, List.getElem?_singleton] at hk
      split_ifs at hk with hlast
      obtain rfl := Option.some.inj hk
      obtain rfl : k = row.length := by omega
      exact hcell
  · rw [List.length_append, List.length_singleton] at hnext
    rw [List.getElem?_append_left (by omega)] at hk
    rcases lt_or_eq_of_le (Nat.le_of_lt_succ hnext) with hlt | heq
    · exact h.ordered k c hk hlt
    · rw [heq]
      exact (h.holds k c hk).before

theorem Cells.map_stringAt (h : Cells data argv row b) :
    ((List.range row.length).map fun k => stringAt data (argv k)) = row := by
  apply List.ext_getElem (by simp)
  intro k hk hk'
  rw [List.getElem_map, List.getElem_range]
  exact (h.holds k row[k] (List.getElem?_eq_getElem hk')).stringAt

theorem Cells.disjoint (h : Cells data argv row b) {i k : Nat} (hik : i < k) (hk : k < row.length)
    (hi : row[i]? = some cell) : argv i + cell.length < argv k := by
  induction k with
  | zero => omega
  | succ k ih =>
      rcases lt_or_eq_of_le (Nat.le_of_lt_succ hik) with hlt | rfl
      · have hget : row[k]? = some row[k] := List.getElem?_eq_getElem (by omega)
        have hnext := h.ordered k row[k] hget hk
        have hrest := ih hlt (by omega)
        omega
      · exact h.ordered i cell hi hk

theorem Holds.cut (h : Holds data a b cell) {o : Nat} (ho : o < cell.length) :
    Holds (data.set (a + o) nul) a b (cell.take o) := by
  have hbefore := h.before
  have hlt := h.terminated.1
  have hopen : Open data a (a + o) (cell.take o) := by
    refine ⟨?_, fun hmem => h.plain (List.mem_of_mem_take hmem), ?_⟩
    · exact ((List.take_prefix o cell).trans (List.prefix_append cell [nul])).trans h.text
    · rw [List.length_take_of_le ho.le]
  exact (hopen.close (by omega)).mono (by omega)

theorem Cells.cut (h : Cells data argv row b) {i o : Nat} (hi : row[i]? = some cell) (ho : o < cell.length) :
    Cells (data.set (argv i + o) nul) argv (row.set i (cell.take o)) b := by
  have hlt : i < row.length := (List.getElem?_eq_some_iff.mp hi).1
  refine ⟨fun k c hk => ?_, fun k c hk hnext => ?_⟩
  · rcases lt_trichotomy k i with hki | rfl | hik
    · rw [List.getElem?_set_ne (by omega)] at hk
      have hend := h.disjoint hki hlt hk
      have hold := h.holds k c hk
      refine ⟨prefix_set hold.text ?_ nul, hold.plain, hold.before⟩
      rw [List.length_append, List.length_singleton]
      omega
    · rw [List.getElem?_set_self hlt] at hk
      obtain rfl := Option.some.inj hk
      exact (h.holds k cell hi).cut ho
    · rw [List.getElem?_set_ne (by omega)] at hk
      have hend := h.disjoint hik (List.getElem?_eq_some_iff.mp hk).1 hi
      have hold := h.holds k c hk
      refine ⟨?_, hold.plain, hold.before⟩
      rw [List.drop_set_of_lt (by omega)]
      exact hold.text
  · rw [List.length_set] at hnext
    rcases eq_or_ne i k with rfl | hne
    · rw [List.getElem?_set_self hlt] at hk
      obtain rfl := Option.some.inj hk
      have hend := h.ordered i cell hi hnext
      rw [List.length_take]
      omega
    · rw [List.getElem?_set_ne hne] at hk
      exact h.ordered k c hk hnext

end SchemaCodeGen.CBuffer
