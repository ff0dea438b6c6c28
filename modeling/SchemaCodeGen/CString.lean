import Mathlib.Data.List.TakeWhile

namespace SchemaCodeGen.CString

abbrev Text := List Char

instance : LawfulBEq Text := inferInstanceAs (LawfulBEq (List Char))

def nul : Char := Char.ofNat 0

/-- What a reader of a `const char *` sees of a buffer. -/
def cstr (s : Text) : Text := s.takeWhile (· != nul)

def NulFree (s : Text) : Prop := nul ∉ s

instance (s : Text) : Decidable (NulFree s) := inferInstanceAs (Decidable (nul ∉ s))

theorem cstr_of_nulFree {s : Text} (h : NulFree s) : cstr s = s := by
  rw [cstr, List.takeWhile_eq_self_iff]
  intro c hc
  have hne : c ≠ nul := fun he => h (he ▸ hc)
  simpa using hne

theorem nulFree_cstr (s : Text) : NulFree (cstr s) := by
  intro h
  have hp := List.mem_takeWhile_imp h
  simp at hp

theorem cstr_eq_self_iff {s : Text} : cstr s = s ↔ NulFree s :=
  ⟨fun h => h ▸ nulFree_cstr s, cstr_of_nulFree⟩

theorem takeWhile_before {p : Char → Bool} {s rest : Text} (hs : ∀ c ∈ s, p c = true)
    (hrest : ∀ c ∈ rest.head?, p c = false) : (s ++ rest).takeWhile p = s := by
  rw [List.takeWhile_append_of_pos hs]
  cases rest with
  | nil => simp
  | cons c rest => simp [hrest c rfl]

theorem dropWhile_before {p : Char → Bool} {s rest : Text} (hs : ∀ c ∈ s, p c = true)
    (hrest : ∀ c ∈ rest.head?, p c = false) : (s ++ rest).dropWhile p = rest := by
  rw [List.dropWhile_append_of_pos hs]
  cases rest with
  | nil => simp
  | cons c rest => simp [hrest c rfl]

/-- The text before the first `c`, as left by overwriting it with a terminator. -/
def cutAt (c : Char) (s : Text) : Text := s.takeWhile (· != c)

def afterFirst (c : Char) (s : Text) : Option Text :=
  match s.dropWhile (· != c) with
  | [] => none
  | _ :: rest => some rest

theorem cutAt_append {c : Char} {s : Text} (h : c ∉ s) (t : Text) :
    cutAt c (s ++ t) = s ++ cutAt c t := by
  rw [cutAt, List.takeWhile_append_of_pos]
  · rfl
  · intro d hd
    simpa using fun he : d = c => h (he ▸ hd)

@[simp] theorem cutAt_cons (c : Char) (t : Text) : cutAt c (c :: t) = [] := by simp [cutAt]

theorem afterFirst_append {c : Char} {s : Text} (h : c ∉ s) (t : Text) :
    afterFirst c (s ++ c :: t) = some t := by
  have hdrop : (s ++ c :: t).dropWhile (· != c) = c :: t := by
    rw [List.dropWhile_append_of_pos]
    · simp
    · intro d hd
      simpa using fun he : d = c => h (he ▸ hd)
  rw [afterFirst, hdrop]

theorem cutAt_of_not_mem {c : Char} {s : Text} (h : c ∉ s) : cutAt c s = s := by
  rw [cutAt, List.takeWhile_eq_self_iff]
  intro d hd
  simpa using fun he : d = c => h (he ▸ hd)

theorem afterFirst_of_not_mem {c : Char} {s : Text} (h : c ∉ s) : afterFirst c s = none := by
  have hdrop : s.dropWhile (· != c) = [] := by
    rw [List.dropWhile_eq_nil_iff]
    intro d hd
    simpa using fun he : d = c => h (he ▸ hd)
  rw [afterFirst, hdrop]

def lower (s : Text) : Text := s.map Char.toLower

def stricmp (s t : Text) : Bool := lower s == lower t

def isSpace (c : Char) : Bool := c == ' ' || (9 ≤ c.toNat && c.toNat ≤ 13)

def digitsValue (s : Text) : Nat := s.foldl (fun n c => 10 * n + (c.toNat - '0'.toNat)) 0

/-- The integer a text begins with: white space, a sign and decimal digits, or 0. -/
def decimal (s : Text) : Int :=
  match s.dropWhile isSpace with
  | '-' :: t => -(digitsValue (t.takeWhile Char.isDigit) : Int)
  | '+' :: t => digitsValue (t.takeWhile Char.isDigit)
  | t => digitsValue (t.takeWhile Char.isDigit)

end SchemaCodeGen.CString
