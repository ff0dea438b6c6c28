import SchemaCodeGen.CNumber
import SchemaCodeGen.CppComments

namespace SchemaCodeGen.Literals

open CString CNumber CppComments Transducers

/-- The escape sequences of a language. A backslash before a plain character stands for
itself. Behind another one a sequence is read: what it denotes, and the text that is left. -/
structure Escapes where
  plain : Char → Bool
  read : Text → Option (Text × Text)
  shorter : ∀ {s out rest : Text}, read s = some (out, rest) →
    rest.length < s.length ∧ out.length + rest.length ≤ s.length

namespace Escapes

variable (e : Escapes) (close : Char)

/-- Reads up to the closing quote: the text that is denoted, and what stands behind the quote. -/
def body : Text → Option (Text × Text)
  | [] => none
  | c :: s =>
      if c = close then some ([], s)
      else if c = '\n' then none
      else if c = '\\' ∧ s.head?.all e.plain = false then
        match hread : e.read s with
        | none => none
        | some (out, rest) =>
            have := (e.shorter hread).1
            (body rest).map fun r => (out ++ r.1, r.2)
      else (body s).map fun r => (c :: r.1, r.2)
termination_by s => s.length

/-- The text that a literal denotes. Nothing may stand behind its closing quote. -/
def literal : Text → Option Text
  | [] => none
  | c :: s =>
      if c = close then
        match e.body close s with
        | some (value, []) => some value
        | _ => none
      else none

/-- No quote, no line end and no escape sequence begins in the text, with the quote behind it. -/
structure Verbatim (s : Text) : Prop where
  unquoted : close ∉ s
  line : '\n' ∉ s
  unescaped : (s ++ [close]).IsChain fun a b => a = '\\' → e.plain b = true

variable {e close} {s v rest : Text}

theorem body_close (s : Text) : e.body close (close :: s) = some ([], s) := by
  rw [body, if_pos rfl]

theorem body_char {c : Char} (hclose : c ≠ close) (hline : c ≠ '\n')
    (h : c = '\\' → s.head?.all e.plain = true) :
    e.body close (c :: s) = (e.body close s).map fun r => (c :: r.1, r.2) := by
  have hescape : ¬ (c = '\\' ∧ s.head?.all e.plain = false) := by
    rintro ⟨hc, hplain⟩
    rw [h hc] at hplain
    exact absurd hplain (by simp)
  rw [body, if_neg hclose, if_neg hline, if_neg hescape]

theorem body_escape {out rest : Text} (hclose : '\\' ≠ close) (hplain : s.head?.all e.plain = false)
    (hread : e.read s = some (out, rest)) :
    e.body close ('\\' :: s) = (e.body close rest).map fun r => (out ++ r.1, r.2) := by
  rw [body, if_neg hclose, if_neg (by decide), if_pos ⟨rfl, hplain⟩]
  split
  · next h => rw [hread] at h; cases h
  · next h =>
      rw [hread] at h
      cases h
      rfl

theorem body_append (h : ∀ c ∈ v, c ≠ close ∧ c ≠ '\n' ∧ c ≠ '\\') (s : Text) :
    e.body close (v ++ s) = (e.body close s).map fun r => (v ++ r.1, r.2) := by
  induction v with
  | nil =>
      rw [List.nil_append]
      exact Option.map_id'.symm
  | cons c v ih =>
      obtain ⟨hclose, hline, hbackslash⟩ := h c List.mem_cons_self
      rw [List.cons_append, body_char hclose hline fun hc => absurd hc hbackslash,
        ih fun d hd => h d (List.mem_cons_of_mem _ hd), Option.map_map]
      rfl

theorem length_body (s : Text) : e.body close s = some (v, rest) →
    v.length + 1 + rest.length < s.length ∨ s = v ++ close :: rest ∧ e.Verbatim close v := by
  induction hn : s.length using Nat.strong_induction_on generalizing s v with
  | _ n ih =>
      intro h
      cases s with
      | nil => simp [body] at h
      | cons c s =>
          rw [List.length_cons] at hn
          rw [body] at h
          split_ifs at h with hclose hline hescape
          · cases h
            subst hclose
            exact .inr ⟨rfl, ⟨by simp, by simp, by simp⟩⟩
          · -- Behind a backslash less is denoted than is read.
            split at h
            · cases h
            · next out left hread =>
                obtain ⟨⟨w, behind⟩, hw, he⟩ := Option.map_eq_some_iff.mp h
                obtain ⟨rfl, rfl⟩ : out ++ w = v ∧ behind = rest := Prod.mk.inj he
                obtain ⟨hleft, hout⟩ := e.shorter hread
                have hlength : w.length + 1 + behind.length ≤ left.length := by
                  rcases ih left.length (by omega) left rfl hw with hlt | ⟨rfl, _⟩
                  · omega
                  · simp only [List.length_append, List.length_cons]
                    omega
                left
                simp only [List.length_append]
                omega
          · obtain ⟨⟨w, behind⟩, hw, he⟩ := Option.map_eq_some_iff.mp h
            obtain ⟨rfl, rfl⟩ : c :: w = v ∧ behind = rest := Prod.mk.inj he
            rcases ih s.length (by omega) s rfl hw with hlt | ⟨rfl, hv⟩
            · left
              simp only [List.length_cons]
              omega
            · refine .inr ⟨rfl, ?_, ?_, ?_⟩
              · exact List.not_mem_cons_of_ne_of_not_mem (Ne.symm hclose) hv.unquoted
              · exact List.not_mem_cons_of_ne_of_not_mem (Ne.symm hline) hv.line
              · rw [List.cons_append, List.isChain_cons]
                refine ⟨fun b hb hc => ?_, hv.unescaped⟩
                have hall : (w ++ close :: behind).head?.all e.plain = true := by
                  by_contra hne
                  exact hescape ⟨hc, by simpa using hne⟩
                cases w <;> cases hb <;> simpa using hall

theorem body_verbatim (h : e.Verbatim close v) (rest : Text) :
    e.body close (v ++ close :: rest) = some (v, rest) := by
  induction v with
  | nil => exact body_close rest
  | cons c v ih =>
      have hchain := List.isChain_cons.mp h.unescaped
      have hv : e.Verbatim close v :=
        ⟨fun hm => h.unquoted (List.mem_cons_of_mem _ hm), fun hm => h.line (List.mem_cons_of_mem _ hm),
          hchain.2⟩
      have hplain : c = '\\' → (v ++ close :: rest).head?.all e.plain = true := by
        intro hc
        have hhead := fun b hb => hchain.1 b hb hc
        cases v <;> simpa using hhead
      have hclose : c ≠ close := fun hc => h.unquoted (hc ▸ List.mem_cons_self)
      have hline : c ≠ '\n' := fun hc => h.line (hc ▸ List.mem_cons_self)
      rw [List.cons_append, body_char hclose hline hplain, ih hv]
      rfl

theorem length_literal {w : Text} (h : e.literal close w = some v) :
    v.length + 2 < w.length ∨ w = close :: (v ++ [close]) ∧ e.Verbatim close v := by
  cases w with
  | nil => cases h
  | cons c s =>
      rw [literal] at h
      split_ifs at h with hclose
      split at h
      · next hbody =>
          cases h
          rw [List.length_cons, hclose]
          rcases length_body s hbody with hlt | ⟨rfl, hv⟩
          · left
            simp only [List.length_nil] at hlt
            omega
          · exact .inr ⟨rfl, hv⟩
      · cases h

theorem literal_eq_some_iff {w : Text} (hw : w.length ≤ v.length + 2) :
    e.literal close w = some v ↔ w = close :: (v ++ [close]) ∧ e.Verbatim close v := by
  constructor
  · intro h
    rcases length_literal h with hlt | heq
    · omega
    · exact heq
  · rintro ⟨rfl, hv⟩
    rw [literal, if_pos rfl, body_verbatim hv []]

theorem unescaped_of_not_mem (h : '\\' ∉ v) :
    (v ++ [close]).IsChain fun a b => a = '\\' → e.plain b = true := by
  induction v with
  | nil => simp
  | cons c v ih =>
      rw [List.cons_append, List.isChain_cons]
      exact ⟨fun _ _ hc => absurd (hc ▸ List.mem_cons_self) h, ih fun hm => h (List.mem_cons_of_mem _ hm)⟩

theorem not_mem_of_unescaped (hplain : ∀ c, e.plain c = false)
    (h : (v ++ [close]).IsChain fun a b => a = '\\' → e.plain b = true) : '\\' ∉ v := by
  induction v with
  | nil => simp
  | cons c v ih =>
      rw [List.cons_append, List.isChain_cons] at h
      obtain ⟨b, hb⟩ : ∃ b, b ∈ (v ++ [close]).head? := by
        cases v <;> exact ⟨_, rfl⟩
      refine List.not_mem_cons_of_ne_of_not_mem (fun hc => ?_) (ih h.2)
      have htrue := h.1 b hb hc.symm
      rw [hplain b] at htrue
      cases htrue

end Escapes

def scalar (n : Nat) : Option Char := if n.isValidChar then some (Char.ofNat n) else none

def numbered (count : Nat) (s : Text) : Option (Text × Text) :=
  if count ≤ s.length ∧ (s.take count).all (isDigitOf 16) then
    (scalar (natOf 16 (s.take count))).map fun d => ([d], s.drop count)
  else none

/-- The number of a character below a limit, in the digits of a base that the text begins with. -/
def coded (limit base : Nat) (run s : Text) : Option (Text × Text) :=
  if run ≠ [] ∧ natOf base run < limit then
    some ([Char.ofNat (natOf base run)], s.drop run.length)
  else none

def octal (s : Text) : Text := (s.take 3).takeWhile (isDigitOf 8)

def hex (s : Text) : Text := s.takeWhile (isDigitOf 16)

def braced (named : Text → Option Char) : Text → Option (Text × Text)
  | '\x7b' :: s =>
      match s.dropWhile (· != '\x7d') with
      | [] => none
      | _ :: rest => (named (s.takeWhile (· != '\x7d'))).map fun d => ([d], rest)
  | _ => none

def controls : List (Char × Char) :=
  [('a', Char.ofNat 7), ('b', Char.ofNat 8), ('f', Char.ofNat 12), ('n', '\n'), ('r', '\r'), ('t', '\t'),
    ('v', Char.ofNat 11)]

/-- What a C++ compiler reads behind a backslash. An escape it does not know is the character. -/
def cppEscape : Text → Option (Text × Text)
  | [] => none
  | c :: s =>
      if isDigitOf 8 c then coded 256 8 (octal (c :: s)) (c :: s)
      else if c = 'x' then coded 256 16 (hex s) s
      else if c = 'u' then numbered 4 s
      else if c = 'U' then numbered 8 s
      else if c = '\n' then none
      else some ([(controls.lookup c).getD c], s)

/-- The characters that Python reads as an escape sequence behind a backslash. -/
def pythonEscaped : List Char := "\n\\'\"abfnrtv01234567xNuU".toList

/-- What Python reads behind a backslash, with the names that it knows for characters. -/
def pythonEscape (named : Text → Option Char) : Text → Option (Text × Text)
  | [] => none
  | c :: s =>
      if isDigitOf 8 c then coded 512 8 (octal (c :: s)) (c :: s)
      else if c = 'x' then numbered 2 s
      else if c = 'u' then numbered 4 s
      else if c = 'U' then numbered 8 s
      else if c = 'N' then braced named s
      else if c = '\n' then some ([], s)
      else some ([(controls.lookup c).getD c], s)

theorem numbered_shorter {count : Nat} {s out rest : Text} (hcount : 0 < count)
    (h : numbered count s = some (out, rest)) : out.length + rest.length ≤ s.length := by
  rw [numbered] at h
  split_ifs at h with hall
  obtain ⟨d, _, he⟩ := Option.map_eq_some_iff.mp h
  obtain ⟨rfl, rfl⟩ : [d] = out ∧ s.drop count = rest := Prod.mk.inj he
  simp only [List.length_cons, List.length_nil, List.length_drop]
  omega

theorem coded_shorter {limit base : Nat} {run s out rest : Text} (hrun : run.length ≤ s.length)
    (h : coded limit base run s = some (out, rest)) :
    rest.length < s.length ∧ out.length + rest.length ≤ s.length := by
  rw [coded] at h
  split_ifs at h with hne
  obtain ⟨rfl, rfl⟩ := Prod.mk.inj (Option.some.inj h)
  have hpos := List.length_pos_of_ne_nil hne.1
  simp only [List.length_cons, List.length_nil, List.length_drop]
  omega

theorem braced_shorter {named : Text → Option Char} {s out rest : Text}
    (h : braced named s = some (out, rest)) : out.length + rest.length ≤ s.length := by
  cases s with
  | nil => cases h
  | cons c s =>
      rw [braced.eq_def] at h
      split at h
      · next s' heq =>
          obtain ⟨rfl, rfl⟩ := List.cons.inj heq
          have hdrop : (s.dropWhile (· != '\x7d')).length ≤ s.length :=
            (List.dropWhile_sublist _).length_le
          split at h
          · cases h
          · next hrest =>
              obtain ⟨d, _, he⟩ := Option.map_eq_some_iff.mp h
              obtain ⟨rfl, rfl⟩ := Prod.mk.inj he
              rw [hrest] at hdrop
              simp only [List.length_cons, List.length_nil] at hdrop ⊢
              omega
      · cases h

theorem length_octal_le (s : Text) : (octal s).length ≤ s.length :=
  ((List.takeWhile_sublist _).trans (List.take_sublist 3 s)).length_le

theorem length_hex_le (s : Text) : (hex s).length ≤ s.length := (List.takeWhile_sublist _).length_le

def cppEscapes : Escapes where
  plain _ := false
  read := cppEscape
  shorter := by
    intro s out rest h
    cases s with
    | nil => cases h
    | cons c s =>
        rw [cppEscape] at h
        split_ifs at h
        · exact coded_shorter (length_octal_le _) h
        · have := coded_shorter (length_hex_le s) h
          rw [List.length_cons]
          omega
        · have := numbered_shorter (by decide) h
          rw [List.length_cons]
          omega
        · have := numbered_shorter (by decide) h
          rw [List.length_cons]
          omega
        · cases h
          simp [Nat.add_comm]

def pythonEscapes (named : Text → Option Char) : Escapes where
  plain c := !pythonEscaped.contains c
  read := pythonEscape named
  shorter := by
    intro s out rest h
    cases s with
    | nil => cases h
    | cons c s =>
        rw [pythonEscape] at h
        split_ifs at h
        · exact coded_shorter (length_octal_le _) h
        · have := numbered_shorter (by decide) h
          rw [List.length_cons]
          omega
        · have := numbered_shorter (by decide) h
          rw [List.length_cons]
          omega
        · have := numbered_shorter (by decide) h
          rw [List.length_cons]
          omega
        · have := braced_shorter h
          rw [List.length_cons]
          omega
        · cases h
          simp
        · cases h
          simp [Nat.add_comm]

/-- The text that a string literal of C++ denotes, where trigraphs are replaced or not. -/
def cppText (trigraphs : Bool) (s : Text) : Option Text :=
  cppEscapes.literal '"' (splice.output ((lineEnds true).output ((replaced trigraphs).output s)))

/-- The text that a string literal of Python denotes, when single quotes stand around it. -/
def pythonText (named : Text → Option Char) (s : Text) : Option Text :=
  (pythonEscapes named).literal '\'' ((lineEnds true).output s)

theorem lineEnds_of_not_mem {s : Text} (h : '\r' ∉ s) : (lineEnds true).output s = s := by
  have hrun : (lineEnds true).run false s = (false, s) := by
    refine Transducer.run_copies fun c hc => ?_
    have hne : c ≠ '\r' := fun he => h (he ▸ hc)
    simp only [lineEnds]
    split <;> simp_all
  rw [Transducer.output, show (lineEnds true).start = false from rfl, hrun]
  exact List.append_nil s

theorem carriage_not_mem_lineEnds (s : Text) : '\r' ∉ (lineEnds true).output s := by
  have hall : ∀ d ∈ (lineEnds true).output s, d ≠ '\r' := by
    refine Transducer.forall_mem_output (fun b c _ d hd => ?_) fun b d hd => ?_
    · cases b <;> simp only [lineEnds] at hd <;> split at hd <;> simp_all
    · cases b <;> exact absurd hd List.not_mem_nil
  exact fun h => hall _ h rfl

theorem length_lineEnds_le (s : Text) : ((lineEnds true).output s).length ≤ s.length := by
  refine Transducer.length_output_le (fun _ => 0) rfl (fun b c => ?_) (fun b => ?_) s
  · simp only [lineEnds]
    cases b <;> split <;> simp
  · cases b <;> exact le_rfl

theorem splice_of_not_mem {s : Text} (h : '\\' ∉ s) : splice.output s = s := by
  have hrun : splice.run false s = (false, s) := by
    refine Transducer.run_copies fun c hc => ?_
    have hne : c ≠ '\\' := fun he => h (he ▸ hc)
    simp [splice]
  rw [Transducer.output, show splice.start = false from rfl, hrun]
  exact List.append_nil s

theorem length_splice_le (s : Text) : (splice.output s).length ≤ s.length := by
  refine Transducer.length_output_le (fun b => if b then 1 else 0) rfl (fun b c => ?_) ?_ s
  · simp only [splice]
    split <;> simp
  · intro b
    cases b <;> simp [splice]

theorem mem_of_mem_splice {s : Text} {c : Char} (hc : c ≠ '\\') (h : c ∈ splice.output s) : c ∈ s := by
  have hall : ∀ d ∈ splice.output s, d ≠ '\\' → d ∈ s := by
    refine Transducer.forall_mem_output (fun b d hd x hx hne => ?_) fun b x hx hne => ?_
    · cases b <;> simp only [splice] at hx <;> split at hx <;> simp_all
    · cases b <;> simp_all [splice]
  exact hall c h hc

theorem length_spliced_le (s : Text) :
    (splice.output ((lineEnds true).output ('"' :: (s ++ ['"'])))).length ≤ s.length + 2 := by
  have h := (length_splice_le _).trans (length_lineEnds_le ('"' :: (s ++ ['"'])))
  simpa using h

theorem length_spliced_literal_le {s v : Text}
    (h : cppEscapes.literal '"' (splice.output ((lineEnds true).output ('"' :: (s ++ ['"'])))) =
      some v) : v.length ≤ s.length := by
  have hs := length_spliced_le s
  obtain hlt | ⟨heq, _⟩ := Escapes.length_literal h
  · omega
  · rw [heq] at hs
    simpa using hs

theorem spliced_literal_iff (s : Text) :
    cppEscapes.literal '"' (splice.output ((lineEnds true).output ('"' :: (s ++ ['"'])))) = some s ↔
      '"' ∉ s ∧ '\\' ∉ s ∧ '\n' ∉ s ∧ '\r' ∉ s := by
  rw [Escapes.literal_eq_some_iff (length_spliced_le s)]
  constructor
  · rintro ⟨hkept, hverbatim⟩
    refine ⟨hverbatim.unquoted, Escapes.not_mem_of_unescaped (fun _ => rfl) hverbatim.unescaped,
      hverbatim.line, fun hr => carriage_not_mem_lineEnds ('"' :: (s ++ ['"'])) ?_⟩
    refine mem_of_mem_splice (by decide) ?_
    rw [hkept]
    simp [hr]
  · rintro ⟨hquote, hbackslash, hline, hreturn⟩
    refine ⟨?_, hquote, hline, Escapes.unescaped_of_not_mem hbackslash⟩
    rw [lineEnds_of_not_mem (by simp [hreturn]), splice_of_not_mem (by simp [hbackslash])]

theorem replaced_quoted (trigraphs : Bool) (s : Text) :
    (replaced trigraphs).output ('"' :: (s ++ ['"'])) =
      '"' :: ((replaced trigraphs).output s ++ ['"']) := by
  rw [replaced_open trigraphs (by decide), Transducer.output,
    show (replaced trigraphs).start = 0 from rfl, replaced_closed trigraphs (by decide) rfl]
  exact congrArg ('"' :: ·) (List.append_nil _)

theorem length_cppText_le {trigraphs : Bool} {s v : Text}
    (h : cppText trigraphs ('"' :: (s ++ ['"'])) = some v) : v.length ≤ s.length := by
  rw [cppText, replaced_quoted] at h
  refine (length_spliced_literal_le h).trans ?_
  obtain hs | hs := replaced_cases trigraphs s
  · rw [hs]
  · exact hs.le

theorem cppText_quoted_iff (trigraphs : Bool) (s : Text) :
    cppText trigraphs ('"' :: (s ++ ['"'])) = some s ↔
      (replaced trigraphs).output s = s ∧ '"' ∉ s ∧ '\\' ∉ s ∧ '\n' ∉ s ∧ '\r' ∉ s := by
  rw [cppText, replaced_quoted]
  obtain hs | hs := replaced_cases trigraphs s
  · rw [hs, spliced_literal_iff, eq_self_iff_true, true_and]
  · constructor
    · intro h
      exact absurd (length_spliced_literal_le h) (by omega)
    · rintro ⟨heq, _⟩
      rw [heq] at hs
      exact absurd hs (Nat.lt_irrefl _)

theorem pythonText_quoted_iff (named : Text → Option Char) (s : Text) :
    pythonText named ('\'' :: (s ++ ['\''])) = some s ↔
      (pythonEscapes named).Verbatim '\'' s ∧ '\r' ∉ s := by
  have hlength : ((lineEnds true).output ('\'' :: (s ++ ['\'']))).length ≤ s.length + 2 := by
    simpa using length_lineEnds_le ('\'' :: (s ++ ['\'']))
  rw [pythonText, Escapes.literal_eq_some_iff hlength]
  constructor
  · rintro ⟨hkept, hverbatim⟩
    refine ⟨hverbatim, fun hr => carriage_not_mem_lineEnds ('\'' :: (s ++ ['\''])) ?_⟩
    rw [hkept]
    simp [hr]
  · rintro ⟨hverbatim, hreturn⟩
    exact ⟨lineEnds_of_not_mem (by simp [hreturn]), hverbatim⟩

end SchemaCodeGen.Literals
