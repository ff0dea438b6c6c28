import SchemaCodeGen.CString
import SchemaCodeGen.Occurrences

namespace SchemaCodeGen.CaseSearch

open CString Occurrences

def upcase (c : Char) : Char := if 'a' ≤ c ∧ c ≤ 'z' then Char.ofNat (c.toNat - 32) else c

/-- The loop of `scan1` and `scan2`, and where it leaves them. -/
def compare : Text → Text → Text × Text
  | c :: scan1, d :: scan2 =>
      if upcase c ≠ upcase d then (c :: scan1, d :: scan2) else compare scan1 scan2
  | scan1, scan2 => (scan1, scan2)

def stristr : Text → Text → Option Text
  | [], _ => none
  | c :: source, sub =>
      if upcase c = upcase (sub.headD nul) ∧ (compare sub.tail source).1 = [] then some (c :: source)
      else stristr source sub

section Letters

def letters : List (Char × Char) :=
  "abcdefghijklmnopqrstuvwxyz".toList.zip "ABCDEFGHIJKLMNOPQRSTUVWXYZ".toList

def Alike (c d : Char) : Prop := c = d ∨ (c, d) ∈ letters ∨ (d, c) ∈ letters

instance (c d : Char) : Decidable (Alike c d) :=
  inferInstanceAs (Decidable (c = d ∨ (c, d) ∈ letters ∨ (d, c) ∈ letters))

theorem upcase_of_mem {c d : Char} (h : (c, d) ∈ letters) : upcase c = upcase d := by
  have hall : letters.all (fun p => upcase p.1 == upcase p.2) = true := by decide +kernel
  exact eq_of_beq (List.all_eq_true.mp hall _ h)

theorem upcase_cases (c : Char) : upcase c = c ∨ (c, upcase c) ∈ letters := by
  have hall : ∀ n < 26, (Char.ofNat (97 + n), upcase (Char.ofNat (97 + n))) ∈ letters := by decide +kernel
  by_cases hc : 'a' ≤ c ∧ c ≤ 'z'
  · right
    have hlo : 97 ≤ c.toNat := UInt32.le_iff_toNat_le.mp hc.1
    have hhi : c.toNat ≤ 122 := UInt32.le_iff_toNat_le.mp hc.2
    have hmem := hall (c.toNat - 97) (by omega)
    rwa [Nat.add_sub_cancel' hlo, Char.ofNat_toNat] at hmem
  · left
    exact if_neg hc

theorem letters_inj {c d e : Char} (hc : (c, e) ∈ letters) (hd : (d, e) ∈ letters) : c = d := by
  have hall : letters.all (fun p => letters.all fun q => p.2 != q.2 || p.1 == q.1) = true := by decide +kernel
  have hpair := List.all_eq_true.mp (List.all_eq_true.mp hall _ hc) _ hd
  simpa using hpair

theorem upcase_eq_iff {c d : Char} : upcase c = upcase d ↔ Alike c d := by
  constructor
  · intro h
    rcases upcase_cases c with hc | hc <;> rcases upcase_cases d with hd | hd
    · left
      rw [← hc, h, hd]
    · rw [← h, hc] at hd
      exact .inr (.inr hd)
    · rw [h, hd] at hc
      exact .inr (.inl hc)
    · rw [h] at hc
      exact .inl (letters_inj hc hd)
  · rintro (rfl | h | h)
    · rfl
    · exact upcase_of_mem h
    · exact (upcase_of_mem h).symm

end Letters

variable {source sub : Text}

theorem compare_eq_nil_iff (scan1 scan2 : Text) :
    (compare scan1 scan2).1 = [] ↔ Begins Alike scan1 scan2 := by
  induction scan1 generalizing scan2 with
  | nil => cases scan2 <;> simp [compare]
  | cons c scan1 ih =>
      cases scan2 with
      | nil => simp [compare]
      | cons d scan2 =>
          rw [compare, begins_cons]
          by_cases hcd : Alike c d
          · rw [if_neg (not_not.mpr (upcase_eq_iff.mpr hcd)), ih]
            exact (and_iff_right hcd).symm
          · rw [if_pos (fun h => hcd (upcase_eq_iff.mp h))]
            exact iff_of_false (List.cons_ne_nil _ _) fun h => hcd h.1

theorem alike_comm {c d : Char} : Alike c d ↔ Alike d c := by
  rw [← upcase_eq_iff, eq_comm, upcase_eq_iff]

theorem stristr_eq_search (h : sub ≠ []) (source : Text) :
    stristr source sub = search Alike sub source := by
  obtain ⟨c, sub, rfl⟩ := List.exists_cons_of_ne_nil h
  induction source with
  | nil => rfl
  | cons d source ih =>
      have htest : upcase d = upcase ((c :: sub).headD nul) ∧ (compare (c :: sub).tail source).1 = [] ↔
          Begins Alike (c :: sub) (d :: source) := by
        rw [begins_cons, alike_comm, ← upcase_eq_iff, List.tail_cons, compare_eq_nil_iff]
        rfl
      rw [stristr, search, ih]
      exact if_congr htest rfl rfl

/-- The pointer is the first place where the pattern occurs, and null when there is none. -/
theorem stristr_leftmost (source : Text) (h : sub ≠ []) :
    (∀ i, i < source.length ∧ stristr source sub = some (source.drop i) ↔ First Alike sub source i) ∧
    (stristr source sub = none ↔ ∀ i, ¬ OccursAt Alike sub source i) := by
  rw [stristr_eq_search h]
  exact ⟨fun i => search_eq_some_iff h, search_eq_none_iff h⟩

/-- The pattern overlaps itself. -/
theorem stristr_leftmost_aab :
    stristr "xAaAb".toList "aab".toList = some ("xAaAb".toList.drop 2) ∧
      First Alike "aab".toList "xAaAb".toList 2 := by
  have hne : "aab".toList ≠ [] := by decide
  have hfound : stristr "xAaAb".toList "aab".toList = some ("xAaAb".toList.drop 2) := by decide
  exact ⟨hfound, ((stristr_leftmost "xAaAb".toList hne).1 2).mp ⟨by decide, hfound⟩⟩

end SchemaCodeGen.CaseSearch
