import SchemaCodeGen.StringHelper

namespace SchemaCodeGen.ThreeNumbers

open CString Decimal Generated StringHelper

/-- A part of what stands around the numbers: white space or a comma, or an entity. -/
inductive Piece
  | blank (c : Char)
  | entity (body : Text)

namespace Piece

def text : Piece → Text
  | .blank c => [c]
  | .entity body => '&' :: (body ++ [';'])

def Fits : Piece → Prop
  | .blank c => isWhitespace c = true ∧ c ≠ '&'
  | .entity body => ';' ∉ body ∧ NulFree body

def isEntity : Piece → Bool
  | .blank _ => false
  | .entity _ => true

end Piece

def piecesText (s : List Piece) : Text := s.flatMap Piece.text

/-- A decimal number that an `int` holds, in at most 30 digits. -/
structure Number where
  text : Text
  nonempty : text ≠ []
  digits : ∀ c ∈ text, c.isDigit = true
  short : text.length ≤ 30
  small : digitsValue text < 2 ^ 31

/-- What stands before the first number, and behind each of them. Two numbers are apart. -/
structure Separators where
  lead : List Piece
  between : List (List Piece)
  fits : ∀ s ∈ lead :: between, ∀ p ∈ s, p.Fits
  apart : ∀ s ∈ between.dropLast, s ≠ []

def numbersText : List Number → List (List Piece) → Text
  | n :: ns, s :: ss => n.text ++ (piecesText s ++ numbersText ns ss)
  | _, _ => []

def Separators.text (s : Separators) (ns : List Number) : Text :=
  piecesText s.lead ++ numbersText ns s.between

/-- The result is true exactly for three numbers or more, and then has the first three. -/
def Reads (next : Option Text) (text : Text) (ns : List Number) : Prop :=
  ∃ r, getUint3 (some text) next = some r ∧ (r.ret = true ↔ 3 ≤ ns.length) ∧
    (3 ≤ ns.length → [r.i1, r.i2, r.i3] = (ns.take 3).map fun n => digitsValue n.text)

/-- Nothing is read of the text, or nothing stands behind its first field, or its second one
has no end within the buffer. -/
def Stops (text : Text) : Prop :=
  ∀ t, skipNonDigits (some text) = some t →
    (field t).length ≤ 30 ∧ (behind t = [] ∨ 30 < (field (behind t)).length)

/-- The first fields of the text are the numbers. -/
def Matches (text : Text) (ns : List Number) : Prop :=
  ∃ t, skipNonDigits (some text) = some t ∧ (field t).length ≤ 30 ∧ behind t ≠ [] ∧
    (field (behind t)).length ≤ 30 ∧
    [value t, value (behind t), value (behind (behind t))] = (ns.take 3).map fun n => digitsValue n.text

/-- No digit or sign stands before the first number, the leading entities apart, and no entity
before the second and the third one. -/
structure Separators.Clear (s : Separators) : Prop where
  lead : ∀ c ∈ piecesText (s.lead.dropWhile Piece.isEntity), isDigit c = false
  between : ∀ ps ∈ s.between.take 2, ∀ p ∈ ps, p.isEntity = false

section Fields

variable {next : Option Text} {text : Text} {ns : List Number}

theorem reads_few_iff (h : ns.length < 3) : Reads next text ns ↔ Stops text := by
  have hfew : ¬ 3 ≤ ns.length := by omega
  have hreads : Reads next text ns ↔ ∃ r, getUint3 (some text) next = some r ∧ r.ret = false := by
    simp [Reads, hfew]
  rw [hreads]
  cases hskip : skipNonDigits (some text) with
  | none =>
      have hstops : Stops text := by
        intro t ht
        rw [hskip] at ht
        cases ht
      have hnone : getUint3 (some text) next = some { next := next } := by
        rw [getUint3, hskip]
      exact iff_of_true ⟨_, hnone, rfl⟩ hstops
  | some t =>
      have hstops : Stops text ↔
          (field t).length ≤ 30 ∧ (behind t = [] ∨ 30 < (field (behind t)).length) := by
        simp [Stops, hskip]
      rw [hstops, getUint3_eq hskip]
      split_ifs with hfirst hend hsecond <;> simp_all

theorem reads_many_iff (h : 3 ≤ ns.length) : Reads next text ns ↔ Matches text ns := by
  have hreads : Reads next text ns ↔ ∃ r, getUint3 (some text) next = some r ∧ r.ret = true ∧
      [r.i1, r.i2, r.i3] = (ns.take 3).map fun n => digitsValue n.text := by
    simp [Reads, h]
  rw [hreads]
  cases hskip : skipNonDigits (some text) with
  | none =>
      have hnone : getUint3 (some text) next = some { next := next } := by
        rw [getUint3, hskip]
      rw [hnone]
      simp [Matches, hskip]
  | some t =>
      rw [getUint3_eq hskip, Matches]
      split_ifs with hfirst hend hsecond <;> simp_all

end Fields

section Pieces

theorem isWhitespace_of_isDigit {c : Char} (h : c.isDigit = true) : isWhitespace c = false := by
  have hspace := not_isSpace_of_isDigit h
  have hcomma : c ≠ ',' := by
    rintro rfl
    exact absurd h (by decide)
  have hentity : c ≠ '&' := by
    rintro rfl
    exact absurd h (by decide)
  cases hc : isWhitespace c with
  | false => rfl
  | true =>
      simp only [isWhitespace, Bool.or_eq_true, beq_iff_eq] at hc
      rcases hc with ((((rfl | rfl) | rfl) | rfl) | hc) | hc
      · exact absurd hspace (by decide)
      · exact absurd hspace (by decide)
      · exact absurd hspace (by decide)
      · exact absurd hspace (by decide)
      · exact absurd hc hcomma
      · exact absurd hc hentity

variable {s : List Piece} {n : Number} {x : Text}

theorem piecesText_cons (p : Piece) (s : List Piece) : piecesText (p :: s) = p.text ++ piecesText s := rfl

theorem head_piecesText (hfits : ∀ p ∈ s, p.Fits) (hne : s ≠ []) :
    ∀ c ∈ (piecesText s ++ x).head?, isWhitespace c = true := by
  cases s with
  | nil => exact absurd rfl hne
  | cons p s =>
      have hp := hfits p List.mem_cons_self
      cases p with
      | blank c =>
          rintro _ ⟨⟩
          exact hp.1
      | entity body =>
          rintro _ ⟨⟩
          rfl

theorem skipWhitespace_piecesText (hfits : ∀ p ∈ s, p.Fits) (hs : ∀ p ∈ s, p.isEntity = false) (x : Text) :
    skipWhitespace (piecesText s ++ x) = skipWhitespace x := by
  induction s with
  | nil => rfl
  | cons p s ih =>
      have hp := hfits p List.mem_cons_self
      cases p with
      | blank c =>
          have hskip : skipWhitespace (c :: (piecesText s ++ x)) = skipWhitespace (piecesText s ++ x) :=
            List.dropWhile_cons_of_pos hp.1
          rw [piecesText_cons]
          exact hskip.trans
            (ih (fun p hp => hfits p (List.mem_cons_of_mem _ hp)) fun p hp => hs p (List.mem_cons_of_mem _ hp))
      | entity body => exact absurd (hs _ List.mem_cons_self) (by simp [Piece.isEntity])

theorem field_number (hx : ∀ c ∈ x.head?, isWhitespace c = true) : field (n.text ++ x) = n.text ∧
    behind (n.text ++ x) = x := by
  have hall : ∀ c ∈ n.text, (!isWhitespace c) = true := by
    intro c hc
    rw [isWhitespace_of_isDigit (n.digits c hc)]
    rfl
  have hskip : skipWhitespace (n.text ++ x) = n.text ++ x := by
    obtain ⟨c, t, ht⟩ := List.exists_cons_of_ne_nil n.nonempty
    have hc := isWhitespace_of_isDigit (n.digits c (ht ▸ List.mem_cons_self))
    rw [skipWhitespace, ht, List.cons_append, List.dropWhile_cons_of_neg (by simp [hc])]
  have hx' : ∀ c ∈ x.head?, (!isWhitespace c) = false := by
    intro c hc
    rw [hx c hc]
    rfl
  rw [field, behind, hskip]
  exact ⟨takeWhile_before hall hx', dropWhile_before hall hx'⟩

theorem value_number (hx : ∀ c ∈ x.head?, isWhitespace c = true) :
    value (n.text ++ x) = digitsValue n.text := by
  have hlower : lower n.text = n.text := by
    rw [lower, List.map_congr_left fun c hc => toLower_of_isDigit (n.digits c hc), List.map_id']
  have hdecimal : decimal n.text = digitsValue n.text := by
    have h : decimal (n.text ++ []) = digitsValue n.text := decimal_digits n.nonempty n.digits (by simp)
    rwa [List.append_nil] at h
  have hsmall := n.small
  rw [value, (field_number hx).1, List.take_of_length_le (n.short.trans (by decide)), hlower, atoi, clamp,
    hdecimal]
  omega

theorem value_fixed {w : Text} (h : ';' ∈ w) : ∃ v, ∀ x, value (w ++ x) = v := by
  obtain ⟨p, q, rfl⟩ := List.append_of_mem h
  refine ⟨value p, fun x => ?_⟩
  rw [List.append_assoc, List.cons_append, value_semicolon]

theorem semicolon_mem (h : ∃ p ∈ s, p.isEntity = true) : ';' ∈ piecesText s := by
  obtain ⟨p, hp, hentity⟩ := h
  refine List.mem_flatMap.mpr ⟨p, hp, ?_⟩
  cases p with
  | blank c => cases hentity
  | entity body => simp [Piece.text]

theorem skipEntities_body {body : Text} (h : ';' ∉ body) (x : Text) :
    skipEntities true (body ++ ';' :: x) = skipEntities false x := by
  induction body with
  | nil => rfl
  | cons c body ih =>
      have hc : (c != ';') = true := by
        simpa using fun he : c = ';' => h (he ▸ List.mem_cons_self)
      rw [List.cons_append, skipEntities, hc, ih fun hm => h (List.mem_cons_of_mem _ hm)]

theorem skipEntities_piecesText (hfits : ∀ p ∈ s, p.Fits) (hx : x.head? ≠ some '&') :
    skipEntities false (piecesText s ++ x) = piecesText (s.dropWhile Piece.isEntity) ++ x := by
  induction s with
  | nil => exact skipEntities_of_head hx
  | cons p s ih =>
      have hp := hfits p List.mem_cons_self
      cases p with
      | blank c => exact if_neg hp.2
      | entity body =>
          rw [piecesText_cons, Piece.text, List.dropWhile_cons_of_pos rfl,
            ← ih fun p hp => hfits p (List.mem_cons_of_mem _ hp)]
          rw [List.cons_append, List.append_assoc, List.cons_append, skipEntities, if_pos rfl,
            List.append_assoc]
          exact skipEntities_body hp.1 _

theorem semicolon_behind_digit (hfits : ∀ p ∈ s, p.Fits) (h : ∃ c ∈ piecesText s, isDigit c = true) :
    ';' ∈ (piecesText s).dropWhile fun c => !isDigit c := by
  obtain ⟨c, hc, hdigit⟩ := h
  obtain ⟨p, hp, hmem⟩ := List.mem_flatMap.mp hc
  have hpfits := hfits p hp
  obtain ⟨before, after, rfl⟩ := List.append_of_mem hp
  cases p with
  | blank d =>
      obtain rfl := List.mem_singleton.mp hmem
      have hspace := hpfits.1
      simp only [isWhitespace, Bool.or_eq_true, beq_iff_eq] at hspace
      rcases hspace with ((((rfl | rfl) | rfl) | rfl) | rfl) | rfl <;> exact absurd hdigit (by decide)
  | entity body =>
      have hbody : c ∈ '&' :: body := by
        rw [Piece.text, ← List.cons_append, List.mem_append, List.mem_singleton] at hmem
        rcases hmem with hmem | rfl
        · exact hmem
        · exact absurd hdigit (by decide)
      have hsplit : piecesText (before ++ .entity body :: after) =
          (piecesText before ++ '&' :: body) ++ ';' :: piecesText after := by
        simp [piecesText, Piece.text]
      have hne : (((piecesText before ++ '&' :: body).dropWhile fun c => !isDigit c).isEmpty) = false := by
        rw [Bool.eq_false_iff, Ne, List.isEmpty_iff, List.dropWhile_eq_nil_iff]
        intro hall
        have hnot := hall c (List.mem_append_right _ hbody)
        rw [hdigit] at hnot
        cases hnot
      rw [hsplit, List.dropWhile_append, if_neg (by simp [hne])]
      exact List.mem_append_right _ List.mem_cons_self

end Pieces

section Separators

variable {next : Option Text} {s : Separators} {n : Number} {ns : List Number}
  {first : List Piece} {rest : List (List Piece)}

theorem head_numbersText (n : Number) (ns : List Number) (first : List Piece) (rest : List (List Piece)) :
    ∃ c t, numbersText (n :: ns) (first :: rest) = c :: t ∧ c.isDigit = true := by
  obtain ⟨c, t, ht⟩ := List.exists_cons_of_ne_nil n.nonempty
  refine ⟨c, t ++ (piecesText first ++ numbersText ns rest), ?_, n.digits c (ht ▸ List.mem_cons_self)⟩
  rw [numbersText, ht, List.cons_append]

theorem skipEntities_text (hbetween : s.between = first :: rest) :
    skipEntities false (s.text (n :: ns)) =
      piecesText (s.lead.dropWhile Piece.isEntity) ++ numbersText (n :: ns) s.between := by
  obtain ⟨c, t, ht, hc⟩ := head_numbersText n ns first rest
  refine skipEntities_piecesText (s.fits _ List.mem_cons_self) ?_
  rw [hbetween, ht]
  rintro ⟨⟩
  exact absurd hc (by decide)

theorem skipNonDigits_clear (hbetween : s.between = first :: rest)
    (hlead : ∀ c ∈ piecesText (s.lead.dropWhile Piece.isEntity), isDigit c = false) :
    skipNonDigits (some (s.text (n :: ns))) = some (numbersText (n :: ns) s.between) := by
  obtain ⟨c, t, ht, hc⟩ := head_numbersText n ns first rest
  have hdrop : (piecesText (s.lead.dropWhile Piece.isEntity) ++ (c :: t)).dropWhile (fun c => !isDigit c) =
      c :: t := by
    refine dropWhile_before (fun d hd => ?_) ?_
    · rw [hlead d hd]
      rfl
    · rintro _ ⟨⟩
      simp [isDigit, hc]
  rw [skipNonDigits, skipEntities_text hbetween, hbetween, ht, hdrop]
  rfl

theorem skipNonDigits_entity (hbetween : s.between = first :: rest)
    (hlead : ∃ c ∈ piecesText (s.lead.dropWhile Piece.isEntity), isDigit c = true) :
    ∃ w, ';' ∈ w ∧ ∀ n ns, skipNonDigits (some (s.text (n :: ns))) =
      some (w ++ numbersText (n :: ns) s.between) := by
  have hfits : ∀ p ∈ s.lead.dropWhile Piece.isEntity, p.Fits := fun p hp =>
    s.fits _ List.mem_cons_self p ((List.dropWhile_sublist _).subset hp)
  have hmem := semicolon_behind_digit hfits hlead
  refine ⟨_, hmem, fun n ns => ?_⟩
  have hdrop : (piecesText (s.lead.dropWhile Piece.isEntity) ++ numbersText (n :: ns) s.between).dropWhile
      (fun c => !isDigit c) = (piecesText (s.lead.dropWhile Piece.isEntity)).dropWhile (fun c => !isDigit c) ++
        numbersText (n :: ns) s.between := by
    rw [List.dropWhile_append, if_neg]
    rw [List.isEmpty_iff]
    exact List.ne_nil_of_mem hmem
  rw [skipNonDigits, skipEntities_text hbetween, hdrop]
  exact if_neg (List.append_ne_nil_of_left_ne_nil (List.ne_nil_of_mem hmem) _)

theorem behind_number (n : Number) (ns : List Number) (hfits : ∀ p ∈ first, p.Fits)
    (hne : first = [] → rest = []) :
    field (numbersText (n :: ns) (first :: rest)) = n.text ∧
      behind (numbersText (n :: ns) (first :: rest)) = piecesText first ++ numbersText ns rest ∧
      value (numbersText (n :: ns) (first :: rest)) = digitsValue n.text := by
  have hx : ∀ c ∈ (piecesText first ++ numbersText ns rest).head?, isWhitespace c = true := by
    by_cases hfirst : first = []
    · rw [hfirst, hne hfirst]
      cases ns <;> simp [piecesText, numbersText]
    · exact head_piecesText hfits hfirst
  exact ⟨(field_number hx).1, (field_number hx).2, value_number hx⟩

theorem fields_skip (hfits : ∀ p ∈ first, p.Fits) (hblank : ∀ p ∈ first, p.isEntity = false) (x : Text) :
    field (piecesText first ++ x) = field x ∧ behind (piecesText first ++ x) = behind x ∧
      value (piecesText first ++ x) = value x := by
  have hskip := skipWhitespace_piecesText hfits hblank x
  have hfield : field (piecesText first ++ x) = field x := by
    rw [field, hskip, field]
  refine ⟨hfield, ?_, ?_⟩
  · rw [behind, hskip, behind]
  · rw [value, hfield, value]

variable {second third : List Piece} {a b c : Number}

theorem matches_of_clear (hbetween : s.between = first :: second :: third :: rest) (h : s.Clear) :
    Matches (s.text (a :: b :: c :: ns)) (a :: b :: c :: ns) := by
  have hfits : ∀ ps ∈ s.between, ∀ p ∈ ps, p.Fits := fun ps hps => s.fits ps (List.mem_cons_of_mem _ hps)
  have hblank := h.between
  have hapart := s.apart
  rw [hbetween] at hfits hblank hapart
  have hfirst : first ≠ [] := hapart first (by simp)
  have hsecond : second ≠ [] := hapart second (by simp)
  have hthird : third = [] → rest = [] := by
    intro hnil
    cases rest with
    | nil => rfl
    | cons last rest => exact absurd hnil (hapart third (by simp))
  obtain ⟨hf1, hb1, hv1⟩ := behind_number a (b :: c :: ns) (hfits first (by simp))
    fun he => (absurd he hfirst : second :: third :: rest = [])
  obtain ⟨hf2, hb2, hv2⟩ := behind_number b (c :: ns) (hfits second (by simp))
    fun he => (absurd he hsecond : third :: rest = [])
  obtain ⟨_, _, hv3⟩ := behind_number c ns (hfits third (by simp)) hthird
  obtain ⟨hs1, ht1, hu1⟩ := fields_skip (hfits first (by simp)) (hblank first (by simp))
    (numbersText (b :: c :: ns) (second :: third :: rest))
  obtain ⟨_, _, hu2⟩ := fields_skip (hfits second (by simp)) (hblank second (by simp))
    (numbersText (c :: ns) (third :: rest))
  refine ⟨_, skipNonDigits_clear hbetween h.lead, ?_⟩
  rw [hbetween, hf1, hb1, hs1, ht1, hu1, hf2, hb2, hu2, hv1, hv2, hv3]
  refine ⟨a.short, fun hnil => ?_, b.short, rfl⟩
  obtain ⟨d, t, ht, _⟩ := head_numbersText b (c :: ns) second (third :: rest)
  rw [ht] at hnil
  simp at hnil

def digit (c : Char) (h : c.isDigit = true) (hsmall : digitsValue [c] < 2 ^ 31) : Number where
  text := [c]
  nonempty := List.cons_ne_nil _ _
  digits := by simpa using h
  short := by simp
  small := hsmall

def zero : Number := digit '0' rfl (by decide)
def one : Number := digit '1' rfl (by decide)

theorem not_value_of_all {v : Nat} (h : ∀ n : Number, v = digitsValue n.text) : False := by
  have hzero : v = 0 := h zero
  have hone : v = 1 := h one
  omega

theorem clear_of_matches (hbetween : s.between = first :: second :: third :: rest)
    (h : ∀ ns : List Number, ns.length = s.between.length → Matches (s.text ns) ns) : s.Clear := by
  have hfits : ∀ ps ∈ s.between, ∀ p ∈ ps, p.Fits := fun ps hps => s.fits ps (List.mem_cons_of_mem _ hps)
  have hapart := s.apart
  rw [hbetween] at hfits hapart
  have hfirst : first ≠ [] := hapart first (by simp)
  have hsecond : second ≠ [] := hapart second (by simp)
  -- The same number everywhere has to be read for every number.
  have hall : ∀ n : Number, ∃ t, skipNonDigits (some (s.text (n :: n :: n :: List.replicate rest.length n))) = some t ∧
      value t = digitsValue n.text ∧ value (behind t) = digitsValue n.text ∧
        value (behind (behind t)) = digitsValue n.text := by
    intro n
    obtain ⟨t, ht, _, _, _, hvalues⟩ := h (n :: n :: n :: List.replicate rest.length n) (by simp [hbetween])
    simp only [List.take_succ_cons, List.take_zero, List.map_cons, List.map_nil, List.cons.injEq,
      and_true] at hvalues
    exact ⟨t, ht, hvalues⟩
  have hlead : ∀ c ∈ piecesText (s.lead.dropWhile Piece.isEntity), isDigit c = false := by
    by_contra hne
    push Not at hne
    obtain ⟨w, hw, hskip⟩ := skipNonDigits_entity hbetween (by simpa using hne)
    obtain ⟨v, hv⟩ := value_fixed hw
    refine not_value_of_all (v := v) fun n => ?_
    obtain ⟨t, ht, hvalue, _⟩ := hall n
    obtain rfl := Option.some.inj ((hskip n (n :: n :: List.replicate rest.length n)).symm.trans ht)
    rw [← hvalue, hv]
  have hpointer : ∀ n : Number, ∃ x y,
      value (piecesText first ++ x) = digitsValue n.text ∧
        ((∀ p ∈ first, p.isEntity = false) → value (piecesText second ++ y) = digitsValue n.text) := by
    intro n
    obtain ⟨t, ht, _, hvalue, hthird⟩ := hall n
    obtain rfl := Option.some.inj ((skipNonDigits_clear hbetween hlead).symm.trans ht)
    rw [hbetween] at hvalue hthird
    obtain ⟨_, hb1, _⟩ := behind_number n (n :: n :: List.replicate rest.length n) (hfits first (by simp))
      fun he => (absurd he hfirst : second :: third :: rest = [])
    obtain ⟨_, hb2, _⟩ := behind_number n (n :: List.replicate rest.length n) (hfits second (by simp))
      fun he => (absurd he hsecond : third :: rest = [])
    rw [hb1] at hvalue hthird
    refine ⟨_, numbersText (n :: List.replicate rest.length n) (third :: rest), hvalue, fun hblank => ?_⟩
    rw [(fields_skip (hfits first (by simp)) hblank _).2.1, hb2] at hthird
    exact hthird
  have hblank : ∀ p ∈ first, p.isEntity = false := by
    by_contra hne
    push Not at hne
    obtain ⟨v, hv⟩ := value_fixed (semicolon_mem (by simpa using hne))
    refine not_value_of_all (v := v) fun n => ?_
    obtain ⟨x, _, hvalue, _⟩ := hpointer n
    rw [← hvalue, hv]
  have hblank' : ∀ p ∈ second, p.isEntity = false := by
    by_contra hne
    push Not at hne
    obtain ⟨v, hv⟩ := value_fixed (semicolon_mem (by simpa using hne))
    refine not_value_of_all (v := v) fun n => ?_
    obtain ⟨_, y, _, hvalue⟩ := hpointer n
    rw [← hvalue hblank, hv]
  refine ⟨hlead, ?_⟩
  rw [hbetween]
  simpa using ⟨hblank, hblank'⟩

/-- What is read of each text. For all texts of three numbers or more with these separators it
is right exactly when the separators are clear. -/
theorem getUint3_reads_iff (s : Separators) (next : Option Text) :
    (∀ ns : List Number, ns.length = s.between.length →
      (Reads next (s.text ns) ns ↔
        if ns.length < 3 then Stops (s.text ns) else Matches (s.text ns) ns)) ∧
    (3 ≤ s.between.length →
      ((∀ ns : List Number, ns.length = s.between.length → Reads next (s.text ns) ns) ↔ s.Clear)) := by
  constructor
  · intro ns _
    split_ifs with hfew
    · exact reads_few_iff hfew
    · exact reads_many_iff (not_lt.mp hfew)
  · intro hmany
    obtain ⟨first, second, third, rest, hbetween⟩ : ∃ first second third rest,
        s.between = first :: second :: third :: rest := by
      match h : s.between with
      | [] | [_] | [_, _] => simp [h] at hmany
      | first :: second :: third :: rest => exact ⟨first, second, third, rest, rfl⟩
    constructor
    · intro h
      exact clear_of_matches hbetween fun ns hns => (reads_many_iff (by omega)).mp (h ns hns)
    · intro h ns hns
      rw [reads_many_iff (by omega)]
      match ns with
      | [] | [_] | [_, _] => simp [← hns] at hmany
      | a :: b :: c :: ns => exact matches_of_clear hbetween h

end Separators

section Examples

def pair : Separators where
  lead := []
  between := [[.blank ' '], []]
  fits := by
    intro s hs p hp
    simp only [List.mem_cons, List.not_mem_nil, or_false] at hs
    rcases hs with rfl | rfl | rfl
    · cases hp
    · obtain rfl := List.mem_singleton.mp hp
      exact ⟨rfl, by decide⟩
    · cases hp
  apart := by simp

/-- Two numbers are enough for `getUint3` to return true. -/
theorem reads_pair :
    pair.text [one, zero] = "1 0".toList ∧
      getUint3 (some "1 0".toList) none =
        some { ret := true, next := some [], i1 := 1, i2 := 0, i3 := 0 } ∧
      ¬ Reads none (pair.text [one, zero]) [one, zero] := by
  refine ⟨rfl, rfl, ?_⟩
  rintro ⟨r, hr, hret, _⟩
  obtain rfl : { ret := true, next := some [], i1 := 1, i2 := 0, i3 := 0 } = r := Option.some.inj hr
  exact absurd (hret.mp rfl) (by decide)

end Examples

end SchemaCodeGen.ThreeNumbers
