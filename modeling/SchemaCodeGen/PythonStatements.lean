import SchemaCodeGen.PythonData

namespace SchemaCodeGen.PythonStatements

open CString PythonData

/-- What stands on the right of an assignment. An attribute is one of `self`. -/
inductive Expr
  | dict
  | var (x : Text)
  | item (x key : Text)
  | attr (m : Text)
  | attrData (m : Text)
  | each (m : Text)
  | eachData (m : Text)
  | entry (table m : Text)
  | superData
  deriving DecidableEq, Repr

inductive Stmt
  | assign (x : Text) (e : Expr)
  | store (x key : Text) (e : Expr)
  | ret (x : Text)
  deriving DecidableEq, Repr

def LegalName (s : Text) : Prop := Identifier s ∧ (∀ c ∈ s.head?, c.isDigit = false) ∧ s ∉ keywords

def isLegal (s : Text) : Bool :=
  !s.isEmpty && s.all isNameChar && s.head?.all (fun c => !c.isDigit) && !keywords.contains s

theorem isLegal_iff {s : Text} : isLegal s = true ↔ LegalName s := by
  cases s with
  | nil => simp [isLegal, LegalName, Identifier]
  | cons c s => simp [isLegal, LegalName, Identifier, and_assoc]

def LetterName (s : Text) : Prop := Identifier s ∧ ∀ c ∈ s.head?, c.isAlpha = true

section Letters

variable {c : Char}

theorem isAlpha_toLower (h : c.isAlpha = true) : c.toLower.isAlpha = true := by
  unfold Char.toLower
  split_ifs
  · unfold Char.isAlpha Char.isUpper Char.isLower at h ⊢
    simp at h ⊢
    grind
  · exact h

theorem isDigit_of_isAlpha (h : c.isAlpha = true) : c.isDigit = false := by
  unfold Char.isAlpha Char.isUpper Char.isLower at h
  unfold Char.isDigit
  simp at h ⊢
  grind

theorem ne_underscore_of_isAlpha (h : c.isAlpha = true) : c ≠ '_' := by
  rintro rfl
  exact absurd h (by decide)

theorem isNameChar_of_isAlpha (h : c.isAlpha = true) : isNameChar c = true := by
  simp [isNameChar, Char.isAlphanum, h]

end Letters

section Reader

def word (s : String) : Token := .name s.toList

def checked {α : Type} (names : List Text) (a : α) : Option α := if names.all isLegal then some a else none

def readExpr : List Token → Option Expr
  | [.sign '\x7b', .sign '\x7d'] => some .dict
  | [.name x] => checked [x] (.var x)
  | [.name x, .sign '[', .text key, .sign ']'] => checked [x] (.item x key)
  | [.name object, .sign '.', .name m] => if object = "self".toList then checked [m] (.attr m) else none
  | [.name object, .sign '.', .name m, .sign '.', .name method, .sign '(', .sign ')'] =>
      if object = "self".toList ∧ method = "as_data".toList then checked [m] (.attrData m) else none
  | [.name f, .sign '(', .sign ')', .sign '.', .name method, .sign '(', .sign ')'] =>
      if f = "super".toList ∧ method = "as_data".toList then some .superData else none
  | [.name table, .sign '[', .name object, .sign '.', .name m, .sign ']'] =>
      if object = "self".toList then checked [table, m] (.entry table m) else none
  | .sign '[' :: tokens =>
      match tokens with
      | [.name e, .name for_, .name e', .name in_, .name object, .sign '.', .name m, .sign ']'] =>
          if [e, for_, e', in_, object] = ["e", "for", "e", "in", "self"].map String.toList then
            checked [m] (.each m)
          else none
      | [.name e, .sign '.', .name method, .sign '(', .sign ')', .name for_, .name e', .name in_, .name object,
          .sign '.', .name m, .sign ']'] =>
          if [e, method, for_, e', in_, object] =
              ["e", "as_data", "for", "e", "in", "self"].map String.toList then
            checked [m] (.eachData m)
          else none
      | _ => none
  | _ => none

def readStmt : List Token → Option Stmt
  | [.name return_, .name x] => if return_ = "return".toList then checked [x] (.ret x) else none
  | .name x :: .sign '=' :: tokens => (readExpr tokens).bind fun e => checked [x] (.assign x e)
  | .name x :: .sign '[' :: .text key :: .sign ']' :: .sign '=' :: tokens =>
      (readExpr tokens).bind fun e => checked [x] (.store x key e)
  | _ => none

def readLine (line : Text) : Option Stmt := (lex .between line).bind readStmt

end Reader

section Lines

def printed : List (Option Token) → Text
  | [] => ['\n']
  | none :: parts => ' ' :: printed parts
  | some (.name s) :: parts => s ++ printed parts
  | some (.text s) :: parts => '\'' :: (s ++ '\'' :: printed parts)
  | some (.sign c) :: parts => c :: printed parts

def Expr.parts : Expr → List (Option Token)
  | .dict => [some (.sign '\x7b'), some (.sign '\x7d')]
  | .var x => [some (.name x)]
  | .item x key => [some (.name x), some (.sign '['), some (.text key), some (.sign ']')]
  | .attr m => [some (word "self"), some (.sign '.'), some (.name m)]
  | .attrData m =>
      [some (word "self"), some (.sign '.'), some (.name m), some (.sign '.'), some (word "as_data"),
        some (.sign '('), some (.sign ')')]
  | .each m =>
      [some (.sign '['), some (word "e"), none, some (word "for"), none, some (word "e"), none,
        some (word "in"), none, some (word "self"), some (.sign '.'), some (.name m), some (.sign ']')]
  | .eachData m =>
      [some (.sign '['), some (word "e"), some (.sign '.'), some (word "as_data"), some (.sign '('),
        some (.sign ')'), none, some (word "for"), none, some (word "e"), none, some (word "in"), none,
        some (word "self"), some (.sign '.'), some (.name m), some (.sign ']')]
  | .entry table m =>
      [some (.name table), some (.sign '['), some (word "self"), some (.sign '.'), some (.name m),
        some (.sign ']')]
  | .superData =>
      [some (word "super"), some (.sign '('), some (.sign ')'), some (.sign '.'), some (word "as_data"),
        some (.sign '('), some (.sign ')')]

def Stmt.parts : Stmt → List (Option Token)
  | .assign x e => some (.name x) :: none :: some (.sign '=') :: none :: e.parts
  | .store x key e =>
      some (.name x) :: some (.sign '[') :: some (.text key) :: some (.sign ']') :: none ::
        some (.sign '=') :: none :: e.parts
  | .ret x => [some (word "return"), none, some (.name x)]

def Stmt.line (s : Stmt) : Text := printed s.parts

def Quotable (s : Text) : Prop := ∀ c ∈ s, c ≠ '\'' ∧ c ≠ '\n' ∧ c ≠ '\\'

def isSign (c : Char) : Bool := !isNameChar c && c != '\'' && c != ' ' && c != '\n'

def Separated : List (Option Token) → Prop
  | [] => True
  | none :: parts => Separated parts
  | some (.name s) :: parts =>
      Identifier s ∧ (∀ t ∈ parts.head?, ∀ a, t ≠ some (.name a) ∧ t ≠ some (.text a)) ∧ Separated parts
  | some (.text s) :: parts => Quotable s ∧ Separated parts
  | some (.sign c) :: parts => isSign c = true ∧ Separated parts

theorem lex_name {s t : Text} (hs : Identifier s) (ht : ∀ c ∈ t.head?, isNameChar c = false ∧ c ≠ '\'') :
    lex .between (s ++ t) = (lex .between t).map (.name s :: ·) := by
  rw [lex_identifier hs]
  cases t with
  | nil => rfl
  | cons c t =>
      obtain ⟨hname, hquote⟩ := ht c rfl
      simp only [lex, hname, hquote, if_false, Bool.false_eq_true]
      split_ifs
      · rfl
      · rw [Option.map_map]
        rfl

theorem lex_text {s t : Text} (hs : Quotable s) :
    lex .between ('\'' :: (s ++ '\'' :: t)) = (lex .between t).map (.text s :: ·) := by
  have hopen : lex .between ('\'' :: (s ++ '\'' :: t)) = lex (.inText []) (s ++ '\'' :: t) := rfl
  rw [hopen, lex_inText hs, List.nil_append, lex, if_pos rfl]

theorem head_printed {parts : List (Option Token)} (h : Separated parts)
    (hhead : ∀ t ∈ parts.head?, ∀ a, t ≠ some (.name a) ∧ t ≠ some (.text a)) :
    ∀ c ∈ (printed parts).head?, isNameChar c = false ∧ c ≠ '\'' := by
  intro c hc
  match parts with
  | [] =>
      obtain rfl : '\n' = c := by simpa [printed] using hc
      decide
  | none :: _ =>
      obtain rfl : ' ' = c := by simpa [printed] using hc
      decide
  | some (.name s) :: _ => exact absurd rfl (hhead _ rfl s).1
  | some (.text s) :: _ => exact absurd rfl (hhead _ rfl s).2
  | some (.sign d) :: _ =>
      obtain rfl : d = c := by simpa [printed] using hc
      have hsign := h.1
      simp [isSign] at hsign
      exact ⟨hsign.1.1.1, hsign.1.1.2⟩

theorem lex_printed {parts : List (Option Token)} (h : Separated parts) :
    lex .between (printed parts) = some parts.reduceOption := by
  induction parts with
  | nil => rfl
  | cons part parts ih =>
      match part with
      | none => exact ih h
      | some (.name s) =>
          obtain ⟨hs, hhead, hrest⟩ := h
          rw [printed, lex_name hs (head_printed hrest hhead), ih hrest]
          rfl
      | some (.text s) =>
          rw [printed, lex_text h.1, ih h.2]
          rfl
      | some (.sign c) =>
          obtain ⟨hsign, hrest⟩ := h
          simp [isSign] at hsign
          rw [printed, lex, if_neg (by simp [hsign]), if_neg (by simp [hsign]), if_neg (by simp [hsign]), ih hrest]
          rfl

def Expr.Legal : Expr → Prop
  | .dict => True
  | .superData => True
  | .var x => LegalName x
  | .item x key => LegalName x ∧ Quotable key
  | .attr m => LegalName m
  | .attrData m => LegalName m
  | .each m => LegalName m
  | .eachData m => LegalName m
  | .entry table m => LegalName table ∧ LegalName m

def Stmt.Legal : Stmt → Prop
  | .assign x e => LegalName x ∧ e.Legal
  | .store x key e => LegalName x ∧ Quotable key ∧ e.Legal
  | .ret x => LegalName x

theorem identifier_words :
    ∀ s ∈ ["self", "as_data", "e", "for", "in", "super", "return"], Identifier s.toList := by
  have hwords : ∀ s ∈ ["self", "as_data", "e", "for", "in", "super", "return"],
      s.toList ≠ [] ∧ s.toList.all isNameChar = true := by decide
  exact fun s hs => ⟨(hwords s hs).1, List.all_eq_true.mp (hwords s hs).2⟩

theorem signs : ['[', ']', '(', ')', '.', '=', '\x7b', '\x7d'].all isSign = true := by decide

theorem separated_expr {e : Expr} (h : e.Legal) : Separated e.parts := by
  have hwords := identifier_words
  have hsigns := signs
  simp at hwords hsigns
  cases e with
  | dict => simp [Expr.parts, Separated, hsigns]
  | var x => simpa [Expr.parts, Separated] using h.1
  | item x key => simpa [Expr.parts, Separated, hsigns] using ⟨h.1.1, h.2⟩
  | attr m => simpa [Expr.parts, Separated, word, hwords, hsigns] using h.1
  | attrData m => simpa [Expr.parts, Separated, word, hwords, hsigns] using h.1
  | each m => simpa [Expr.parts, Separated, word, hwords, hsigns] using h.1
  | eachData m => simpa [Expr.parts, Separated, word, hwords, hsigns] using h.1
  | entry table m => simpa [Expr.parts, Separated, word, hwords, hsigns] using ⟨h.1.1, h.2.1⟩
  | superData => simp [Expr.parts, Separated, word, hwords, hsigns]

theorem separated_stmt {s : Stmt} (h : s.Legal) : Separated s.parts := by
  have hwords := identifier_words
  have hsigns := signs
  simp at hwords hsigns
  cases s with
  | assign x e => simpa [Stmt.parts, Separated, hsigns] using ⟨h.1.1, separated_expr h.2⟩
  | store x key e => simpa [Stmt.parts, Separated, hsigns] using ⟨h.1.1, h.2.1, separated_expr h.2.2⟩
  | ret x => simpa [Stmt.parts, Separated, word, hwords] using h.1

theorem checked_eq_some {α : Type} {names : List Text} {a : α} (h : ∀ s ∈ names, LegalName s) :
    checked names a = some a :=
  if_pos (List.all_eq_true.mpr fun s hs => isLegal_iff.mpr (h s hs))

theorem readExpr_parts {e : Expr} (h : e.Legal) : readExpr e.parts.reduceOption = some e := by
  cases e with
  | dict => rfl
  | superData => rfl
  | var x => exact checked_eq_some (by simpa [Expr.Legal] using h)
  | item x key => exact checked_eq_some (by simpa using h.1)
  | attr m => exact checked_eq_some (by simpa [Expr.Legal] using h)
  | attrData m => exact checked_eq_some (by simpa [Expr.Legal] using h)
  | each m => exact checked_eq_some (by simpa [Expr.Legal] using h)
  | eachData m => exact checked_eq_some (by simpa [Expr.Legal] using h)
  | entry table m => exact checked_eq_some (by simpa [Expr.Legal] using h)

theorem readLine_line {s : Stmt} (h : s.Legal) : readLine s.line = some s := by
  rw [readLine, Stmt.line, lex_printed (separated_stmt h), Option.bind_some]
  cases s with
  | assign x e =>
      change (readExpr e.parts.reduceOption).bind _ = _
      rw [readExpr_parts h.2]
      exact checked_eq_some (by simpa using h.1)
  | store x key e =>
      change (readExpr e.parts.reduceOption).bind _ = _
      rw [readExpr_parts h.2.2]
      exact checked_eq_some (by simpa using h.1)
  | ret x => exact checked_eq_some (by simpa [Stmt.Legal] using h)

end Lines

end SchemaCodeGen.PythonStatements
