import SchemaCodeGen.CString
import Mathlib.Data.List.Basic

/-! Arrays of characters, with the functions of C that work on the strings in them. An access
outside of its array is an error. -/

namespace SchemaCodeGen.FixedBuffer

open CString

def store (b : Text) (i : Nat) (c : Char) : Option Text :=
  if i < b.length then some (b.set i c) else none

def string : Text → Option Text
  | [] => none
  | c :: b => if c = nul then some [] else (string b).map (c :: ·)

def strchr (c : Char) : Text → Option (Option Nat)
  | [] => none
  | d :: b =>
      if d = c then some (some 0)
      else if d = nul then some none
      else (strchr c b).map (Option.map (· + 1))

/-- `strncpy` with the size of the array, which fills up with terminators. -/
def strncpy (b s : Text) : Text := (s ++ List.replicate (b.length - s.length) nul).take b.length

/-- `snprintf` with the size of the array, of which what is not written stays as it is. -/
def snprintf (b s : Text) : Text :=
  let written := s.take (b.length - 1) ++ [nul]
  written ++ b.drop written.length

def strupr : Text → Option Text
  | [] => none
  | c :: b => if c = nul then some (c :: b) else (strupr b).map (c.toUpper :: ·)

variable {b s : Text} {c : Char} {i : Nat}

theorem store_append (s : Text) (d : Char) (rest : Text) (c : Char) :
    store (s ++ d :: rest) s.length c = some (s ++ c :: rest) := by
  rw [store, if_pos (by simp)]
  simp

theorem string_append (hs : NulFree s) (rest : Text) : string (s ++ nul :: rest) = some s := by
  induction s with
  | nil => simp [string]
  | cons c s ih =>
      rw [NulFree, List.mem_cons, not_or] at hs
      rw [List.cons_append, string, if_neg (Ne.symm hs.1), ih hs.2]
      rfl

theorem strchr_append (hc : c ≠ nul) (hs : NulFree s) (rest : Text) :
    strchr c (s ++ nul :: rest) = some (if c ∈ s then some (s.idxOf c) else none) := by
  induction s with
  | nil => simp [strchr, Ne.symm hc]
  | cons d s ih =>
      rw [NulFree, List.mem_cons, not_or] at hs
      rw [List.cons_append, strchr]
      by_cases hd : d = c
      · simp [hd]
      · rw [if_neg hd, if_neg (Ne.symm hs.1), ih hs.2, List.idxOf_cons_ne _ hd]
        by_cases hmem : c ∈ s <;> simp [hmem, Ne.symm hd]

theorem strchr_outside (hc : c ∉ b) (hb : nul ∉ b) : strchr c b = none := by
  induction b with
  | nil => rfl
  | cons d b ih =>
      rw [List.mem_cons, not_or] at hc hb
      rw [strchr, if_neg (Ne.symm hc.1), if_neg (Ne.symm hb.1), ih hc.2 hb.2]
      rfl

theorem strncpy_of_short (h : s.length < b.length) :
    strncpy b s = s ++ nul :: List.replicate (b.length - s.length - 1) nul := by
  obtain ⟨n, hn⟩ := Nat.exists_eq_add_of_lt h
  rw [strncpy, List.take_of_length_le (by simp; omega), hn]
  congr 1
  rw [show s.length + n + 1 - s.length = n + 1 by omega, List.replicate_succ]
  rfl

theorem nul_mem_strncpy (hs : NulFree s) : nul ∈ strncpy b s ↔ s.length < b.length := by
  constructor
  · intro h
    by_contra hlong
    rw [strncpy, Nat.sub_eq_zero_of_le (by omega), List.replicate_zero, List.append_nil] at h
    exact hs (List.mem_of_mem_take h)
  · intro h
    rw [strncpy_of_short h]
    exact List.mem_append_right _ List.mem_cons_self

theorem strncpy_congr {b' : Text} (h : b.length = b'.length) (s : Text) : strncpy b s = strncpy b' s := by
  rw [strncpy, strncpy, h]

theorem length_snprintf (hb : 0 < b.length) (s : Text) : (snprintf b s).length = b.length := by
  simp only [snprintf, List.length_append, List.length_take, List.length_cons, List.length_nil,
    List.length_drop]
  omega

theorem string_cut (s rest : Text) : string (s ++ nul :: rest) = some (cstr s) := by
  induction s with
  | nil => simp [string, cstr]
  | cons c s ih =>
      rw [List.cons_append, string, ih]
      by_cases hc : c = nul
      · simp [hc, cstr]
      · simp [hc, cstr]

theorem string_snprintf_cut (b s : Text) :
    string (snprintf b s) = some (cstr (s.take (b.length - 1))) := by
  rw [snprintf, List.append_assoc, List.singleton_append, string_cut]

theorem toUpper_ne_nul (hc : c ≠ nul) : c.toUpper ≠ nul := by
  intro h0
  have hval : c.toUpper.val = 0 := h0 ▸ rfl
  unfold Char.toUpper at hval
  split_ifs at hval
  · grind
  · exact hc (Char.ext hval)

theorem strupr_spec (h : string b = some s) :
    ∃ b', strupr b = some b' ∧ b'.length = b.length ∧ string b' = some (s.map Char.toUpper) := by
  induction b generalizing s with
  | nil => cases h
  | cons c b ih =>
      rw [string] at h
      by_cases hc : c = nul
      · rw [if_pos hc, Option.some.injEq] at h
        refine ⟨c :: b, by rw [strupr, if_pos hc], rfl, ?_⟩
        rw [string, if_pos hc, ← h]
        rfl
      · rw [if_neg hc, Option.map_eq_some_iff] at h
        obtain ⟨t, ht, rfl⟩ := h
        obtain ⟨b', hb', hlength, hstring⟩ := ih ht
        refine ⟨c.toUpper :: b', by rw [strupr, if_neg hc, hb']; rfl, by simp [hlength], ?_⟩
        rw [string, if_neg (toUpper_ne_nul hc), hstring]
        rfl

theorem strupr_snprintf (hb : 0 < b.length) (s : Text) :
    ∃ b', strupr (snprintf b s) = some b' ∧ b'.length = b.length ∧
      string b' = some ((cstr (s.take (b.length - 1))).map Char.toUpper) := by
  obtain ⟨b', hb', hlength, hstring⟩ := strupr_spec (string_snprintf_cut b s)
  exact ⟨b', hb', hlength.trans (length_snprintf hb s), hstring⟩

end SchemaCodeGen.FixedBuffer
