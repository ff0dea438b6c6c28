import SchemaCodeGen.JsonReader
import SchemaCodeGen.MagnitudeBounds

namespace SchemaCodeGen.JsonGrammar

open CString Floats Json Fallible Sax JsonStreams JsonNumbers JsonReader MagnitudeBounds

section Meaning

/-- A number of the grammar: an integer of 64 bits stands for itself, and any other number for
a double, which is the nearest one when the number is short. -/
inductive Numeral : NumberText → Number → Prop
  | int {t : NumberText} (valid : t.Valid) (integral : t.Integral) : Numeral t (.int t.value)
  | double {t : NumberText} {x : Ieee} (valid : t.Valid) (fractional : ¬ t.Integral)
      (nearest : ShortNumbers.Short t → x = t.rounded) : Numeral t (.double x)

/-- The same document up to the values of doubles. -/
inductive Alike : Value → Value → Prop
  | same {j : Value} : Alike j j
  | double {x y : Ieee} : Alike (.number (.double x)) (.number (.double y))
  | array {items items' : List Value} (each : List.Forall₂ Alike items items') :
      Alike (.array items) (.array items')
  | object {members members' : Members} (names : members.map Prod.fst = members'.map Prod.fst)
      (each : List.Forall₂ Alike (members.map Prod.snd) (members'.map Prod.snd)) :
      Alike (.object members) (.object members')

/-- A number in front that the parser refuses for its size, although it is one. -/
def TooBig (is : Text) : Prop :=
  ∃ t rest, is = NumberText.text t ++ rest ∧ t.Valid ∧ t.Ends rest ∧ ¬ t.Integral ∧ ¬ Moderate t

theorem TooBig.digit {is : Text} (h : TooBig is) : ∃ c ∈ is, c.isDigit = true := by
  obtain ⟨t, rest, rfl, hvalid, _⟩ := h
  obtain ⟨c, ds, hwhole, hc⟩ := hvalid.whole.head
  exact ⟨c, by simp [NumberText.text, hwhole], hc⟩

/-- The run ends at a number of the input that is too big. -/
def Refuses (is : Text) (r : Step (Text × List Value)) : Prop :=
  ∃ p, TooBig p ∧ p <:+ is ∧ r = .error (.error .numberTooBig p)

theorem Refuses.of_suffix {is is' : Text} {r : Step (Text × List Value)} (h : Refuses is r)
    (hs : is <:+ is') : Refuses is' r := by
  obtain ⟨p, hp, hsuffix, hrun⟩ := h
  exact ⟨p, hp, hsuffix.trans hs, hrun⟩

theorem numeral_of_value {t : NumberText} {n : Number} (hlen : t.text.length < 2 ^ 27)
    (h : NumberValue t n) : Numeral t n := by
  cases h with
  | int valid integral => exact .int valid integral
  | double valid fractional computed =>
      refine .double valid fractional fun hs => ?_
      have hread := ShortNumbers.parseNumber_short valid fractional hlen hs
        (NumberText.ends valid noContinuation_nil)
      rw [List.append_nil, computed] at hread
      simpa using hread

theorem numeral_valid {t : NumberText} {n : Number} (h : Numeral t n) : t.Valid := by
  cases h with
  | int valid _ => exact valid
  | double valid _ _ => exact valid

theorem numeral_answered {t : NumberText} {n : Number} (h : Numeral t n)
    (hlen : t.text.length < 2 ^ 27) {rest : Text} (hrest : NoContinuation rest) :
    (∃ m, NumberValue t m ∧ Alike (.number n) (.number m)) ∨
      ∀ stack, Refuses (t.text ++ rest) (parseNumberEvent build (t.text ++ rest) stack) := by
  have hvalid := numeral_valid h
  have hends := NumberText.ends hvalid hrest
  obtain ⟨e, m, hann, hint, hreal, hrun⟩ | ⟨hreal, herr⟩ := parseNumber_text hvalid hlen
  · refine .inl ⟨m, ?_⟩
    cases h with
    | int valid integral =>
        rw [hint integral]
        exact ⟨.int valid integral, .same⟩
    | double valid fractional _ =>
        obtain ⟨x, rfl⟩ := hreal fractional
        have hself := hrun [] (NumberText.ends hvalid noContinuation_nil)
        rw [List.append_nil] at hself
        cases e with
        | double y =>
            obtain rfl : y = x := by simpa [announced] using hann
            exact ⟨.double valid fractional hself, .double⟩
        | _ => exact absurd hann (by simp [announced])
  · refine .inr fun stack => ⟨_, ⟨t, rest, rfl, hvalid, hends, hreal, fun hm => ?_⟩, List.suffix_rfl, ?_⟩
    · obtain ⟨e, hrun⟩ := parseNumber_moderate hvalid hlen hm hends
      rw [herr rest hends] at hrun
      exact absurd hrun (by simp)
    · rw [parseNumberEvent, herr rest hends, error_bind]

end Meaning

section Containers

variable {G V : Text → Value → Prop} {value : Text → List Value → Step (Text × List Value)} {n : Nat}

/-- What `G` describes is read as `V` says, up to the doubles, unless some number is too big. -/
def Answers (value : Text → List Value → Step (Text × List Value)) (G V : Text → Value → Prop)
    (n : Nat) : Prop :=
  ∀ t j, G t j → ∀ rest, NoContinuation rest → (t ++ rest).length < n →
    (∃ i, V t i ∧ Alike j i) ∨ ∀ stack, Refuses (t ++ rest) (value (t ++ rest) stack)

theorem elements_answered (hcomplete : Complete value V n) (hanswers : Answers value G V n)
    (hG : ∀ t j, G t j → Starts t) {t : Text} {items : List Value} (h : Separated (Element G) t items)
    (rest : Text) (hn : (t ++ ']' :: rest).length < n) :
    (∃ items', Separated (Element V) t items' ∧ List.Forall₂ Alike items items') ∨
      ∀ fuel count stack, t.length < fuel →
        Refuses (t ++ ']' :: rest) (parseElements build value fuel count (t ++ ']' :: rest) stack) := by
  induction h with
  | @last t j head =>
      obtain @⟨t, ws, _, hvalue, hws⟩ := head
      rw [List.append_assoc] at hn ⊢
      have hend : NoContinuation (ws ++ ']' :: rest) := noContinuation_blank hws
        (noContinuation_cons rfl (by decide) (by decide) (by decide) rest)
      obtain ⟨i, hi, halike⟩ | hrefuses := hanswers t j hvalue _ hend hn
      · exact .inl ⟨[i], .last (.intro hi hws), .cons halike .nil⟩
      · refine .inr fun fuel count stack hf => ?_
        obtain ⟨fuel, rfl⟩ := Nat.exists_eq_succ_of_ne_zero (Nat.ne_zero_of_lt hf)
        obtain ⟨p, hp, hs, hrun⟩ := hrefuses stack
        exact ⟨p, hp, hs, by rw [parseElements, hrun, error_bind]⟩
  | @cons t ws' u j items head space tail ih =>
      obtain @⟨t, ws, _, hvalue, hws⟩ := head
      have hsplit : t ++ ws ++ ',' :: (ws' ++ u) ++ ']' :: rest =
          t ++ (ws ++ ',' :: (ws' ++ (u ++ ']' :: rest))) := by simp
      rw [hsplit] at hn ⊢
      have hend : NoContinuation (ws ++ ',' :: (ws' ++ (u ++ ']' :: rest))) := noContinuation_blank hws
        (noContinuation_cons rfl (by decide) (by decide) (by decide) _)
      have hlen : (u ++ ']' :: rest).length < n := by
        simp only [List.length_append, List.length_cons] at hn ⊢
        omega
      obtain ⟨i, hi, halike⟩ | hrefuses := hanswers t j hvalue _ hend hn
      · obtain ⟨items', hitems, hall⟩ | hrest := ih hlen
        · exact .inl ⟨i :: items', .cons (.intro hi hws) space hitems, .cons halike hall⟩
        · -- The element is read and the loop goes on behind the comma.
          refine .inr fun fuel count stack hf => ?_
          obtain ⟨fuel, rfl⟩ := Nat.exists_eq_succ_of_ne_zero (Nat.ne_zero_of_lt hf)
          have hrun := hcomplete t i hi _ hend hn stack
          have hskip : skipWhitespace (ws ++ ',' :: (ws' ++ (u ++ ']' :: rest))) =
              ',' :: (ws' ++ (u ++ ']' :: rest)) := skipWhitespace_append hws rfl
          have hskip' : skipWhitespace (ws' ++ (u ++ ']' :: rest)) = u ++ ']' :: rest :=
            skipWhitespace_append space (isBlank_of_starts
              (separated_starts (fun _ _ => element_starts hG) tail) _)
          simp only [List.length_append, List.length_cons] at hf
          obtain ⟨p, hp, hs, hloop⟩ := hrest fuel (successor count) (i :: stack) (by omega)
          refine ⟨p, hp, hs.trans ⟨t ++ ws ++ ',' :: ws', by simp⟩, ?_⟩
          rw [parseElements]
          simp only [hrun, ok_bind, hskip, consume_cons, if_true, hskip', hloop]
      · refine .inr fun fuel count stack hf => ?_
        obtain ⟨fuel, rfl⟩ := Nat.exists_eq_succ_of_ne_zero (Nat.ne_zero_of_lt hf)
        obtain ⟨p, hp, hs, hrun⟩ := hrefuses stack
        exact ⟨p, hp, hs, by rw [parseElements, hrun, error_bind]⟩

theorem member_answered (hanswers : Answers value G V n) (hG : ∀ t j, G t j → Starts t) {t : Text}
    {e : Text × Value} (h : Member G t e) {rest : Text} (hrest : NoContinuation rest)
    (hn : (t ++ rest).length < n) :
    (∃ e', Member V t e' ∧ e.1 = e'.1 ∧ Alike e.2 e'.2) ∨
      ∀ stack, Refuses (t ++ rest) (parseMember build value (t ++ rest) stack) := by
  obtain @⟨k, ws, ws', t, ws'', name, j, hkey, hws, hws', hvalue, hws''⟩ := h
  have hsplit : '"' :: (k ++ '"' :: (ws ++ ':' :: (ws' ++ (t ++ ws'')))) ++ rest =
      '"' :: (k ++ '"' :: (ws ++ ':' :: (ws' ++ (t ++ (ws'' ++ rest))))) := by simp
  rw [hsplit] at hn ⊢
  have hlen : (t ++ (ws'' ++ rest)).length < n := by
    simp only [List.length_append, List.length_cons] at hn ⊢
    omega
  obtain ⟨i, hi, halike⟩ | hrefuses := hanswers t j hvalue _ (noContinuation_blank hws'' hrest) hlen
  · exact .inl ⟨(name, i), .intro hkey hws hws' hi hws'', rfl, halike⟩
  · refine .inr fun stack => ?_
    have hstring := parseString_append true hkey (ws ++ ':' :: (ws' ++ (t ++ (ws'' ++ rest)))) stack
    have hskip : skipWhitespace (ws ++ ':' :: (ws' ++ (t ++ (ws'' ++ rest)))) =
        ':' :: (ws' ++ (t ++ (ws'' ++ rest))) := skipWhitespace_append hws rfl
    have hskip' : skipWhitespace (ws' ++ (t ++ (ws'' ++ rest))) = t ++ (ws'' ++ rest) :=
      skipWhitespace_append hws' (isBlank_of_starts (hG t j hvalue) _)
    obtain ⟨p, hp, hs, hrun⟩ := hrefuses (.string name :: stack)
    refine ⟨p, hp, hs.trans ⟨'"' :: (k ++ '"' :: (ws ++ ':' :: ws')), by simp⟩, ?_⟩
    rw [parseMember, if_neg (by simp)]
    simp only [hstring, ok_bind, hskip, consume_cons, if_true, hskip', hrun, error_bind]

theorem members_answered (hcomplete : Complete value V n) (hanswers : Answers value G V n)
    (hG : ∀ t j, G t j → Starts t) (hV : ∀ t j, V t j → Starts t) {t : Text} {members : Members}
    (h : Separated (Member G) t members) (rest : Text) (hn : (t ++ '}' :: rest).length < n) :
    (∃ members', Separated (Member V) t members' ∧ members.map Prod.fst = members'.map Prod.fst ∧
        List.Forall₂ Alike (members.map Prod.snd) (members'.map Prod.snd)) ∨
      ∀ fuel count stack, t.length < fuel →
        Refuses (t ++ '}' :: rest) (parseMembers build value fuel count (t ++ '}' :: rest) stack) := by
  induction h with
  | @last t e head =>
      have hend : NoContinuation ('}' :: rest) :=
        noContinuation_cons rfl (by decide) (by decide) (by decide) rest
      obtain ⟨e', he, hname, halike⟩ | hrefuses := member_answered hanswers hG head hend hn
      · exact .inl ⟨[e'], .last he, by simp [hname], .cons halike .nil⟩
      · refine .inr fun fuel count stack hf => ?_
        obtain ⟨fuel, rfl⟩ := Nat.exists_eq_succ_of_ne_zero (Nat.ne_zero_of_lt hf)
        obtain ⟨p, hp, hs, hrun⟩ := hrefuses stack
        exact ⟨p, hp, hs, by rw [parseMembers, hrun, error_bind]⟩
  | @cons t ws' u e members head space tail ih =>
      have hsplit : t ++ ',' :: (ws' ++ u) ++ '}' :: rest =
          t ++ (',' :: (ws' ++ (u ++ '}' :: rest))) := by simp
      rw [hsplit] at hn ⊢
      have hend : NoContinuation (',' :: (ws' ++ (u ++ '}' :: rest))) :=
        noContinuation_cons rfl (by decide) (by decide) (by decide) _
      have hlen : (u ++ '}' :: rest).length < n := by
        simp only [List.length_append, List.length_cons] at hn ⊢
        omega
      obtain ⟨e', he, hname, halike⟩ | hrefuses := member_answered hanswers hG head hend hn
      · obtain ⟨members', hmembers, hnames, hall⟩ | hrest := ih hlen
        · exact .inl ⟨e' :: members', .cons he space hmembers, by simp [hname, hnames],
            .cons halike hall⟩
        · refine .inr fun fuel count stack hf => ?_
          obtain ⟨fuel, rfl⟩ := Nat.exists_eq_succ_of_ne_zero (Nat.ne_zero_of_lt hf)
          have hrun := parseMember_of_text hcomplete hV he hend rfl hn stack
          have hskip' : skipWhitespace (ws' ++ (u ++ '}' :: rest)) = u ++ '}' :: rest :=
            skipWhitespace_append space (isBlank_of_starts
              (separated_starts (fun _ _ => member_starts) tail) _)
          simp only [List.length_append, List.length_cons] at hf
          obtain ⟨p, hp, hs, hloop⟩ := hrest fuel (successor count) (e'.2 :: .string e'.1 :: stack)
            (by omega)
          refine ⟨p, hp, hs.trans ⟨t ++ ',' :: ws', by simp⟩, ?_⟩
          rw [parseMembers]
          simp only [hrun, ok_bind, peek_cons, if_true, take_cons, hskip', hloop]
      · refine .inr fun fuel count stack hf => ?_
        obtain ⟨fuel, rfl⟩ := Nat.exists_eq_succ_of_ne_zero (Nat.ne_zero_of_lt hf)
        obtain ⟨p, hp, hs, hrun⟩ := hrefuses stack
        exact ⟨p, hp, hs, by rw [parseMembers, hrun, error_bind]⟩

theorem array_answered (hcomplete : Complete value V n) (hanswers : Answers value G V n)
    (hG : ∀ t j, G t j → Starts t) {ws t : Text} {items : List Value} (hws : Blank ws)
    (h : Separated (Element G) t items) (rest : Text) (hn : (ws ++ (t ++ ']' :: rest)).length < n) :
    (∃ items', Separated (Element V) t items' ∧ List.Forall₂ Alike items items') ∨
      ∀ stack, Refuses ('[' :: (ws ++ (t ++ ']' :: rest)))
        (parseArray build value ('[' :: (ws ++ (t ++ ']' :: rest))) stack) := by
  have hstarts := separated_starts (fun _ _ => element_starts hG) h
  have hskip : skipWhitespace (ws ++ (t ++ ']' :: rest)) = t ++ ']' :: rest :=
    skipWhitespace_append hws (isBlank_of_starts hstarts _)
  have hempty : consume ']' (t ++ ']' :: rest) = .ok (false, t ++ ']' :: rest) :=
    consume_of_ne (peek_ne_of_starts hstarts (by decide) _)
  rw [List.length_append] at hn
  refine (elements_answered hcomplete hanswers hG h rest (by omega)).imp_right fun hloop stack => ?_
  obtain ⟨p, hp, hs, hrun⟩ := hloop ((t ++ ']' :: rest).length + 1) 0 (.array [] :: stack)
    (by rw [List.length_append]; omega)
  refine ⟨p, hp, (hs.trans (List.suffix_append _ _)).trans (List.suffix_cons _ _), ?_⟩
  rw [parseArray, if_neg (by simp)]
  simp only [take_cons, ok_bind, emit_build (build_startArray stack), hskip, hempty,
    Bool.false_eq_true, if_false, hrun]

theorem object_answered (hcomplete : Complete value V n) (hanswers : Answers value G V n)
    (hG : ∀ t j, G t j → Starts t) (hV : ∀ t j, V t j → Starts t) {ws t : Text} {members : Members}
    (hws : Blank ws) (h : Separated (Member G) t members) (rest : Text)
    (hn : (ws ++ (t ++ '}' :: rest)).length < n) :
    (∃ members', Separated (Member V) t members' ∧ members.map Prod.fst = members'.map Prod.fst ∧
        List.Forall₂ Alike (members.map Prod.snd) (members'.map Prod.snd)) ∨
      ∀ stack, Refuses ('{' :: (ws ++ (t ++ '}' :: rest)))
        (parseObject build value ('{' :: (ws ++ (t ++ '}' :: rest))) stack) := by
  have hstarts := separated_starts (fun _ _ => member_starts) h
  have hskip : skipWhitespace (ws ++ (t ++ '}' :: rest)) = t ++ '}' :: rest :=
    skipWhitespace_append hws (isBlank_of_starts hstarts _)
  have hempty : consume '}' (t ++ '}' :: rest) = .ok (false, t ++ '}' :: rest) :=
    consume_of_ne (peek_ne_of_starts hstarts (by decide) _)
  rw [List.length_append] at hn
  refine (members_answered hcomplete hanswers hG hV h rest (by omega)).imp_right fun hloop stack => ?_
  obtain ⟨p, hp, hs, hrun⟩ := hloop ((t ++ '}' :: rest).length + 1) 0 (.object [] :: stack)
    (by rw [List.length_append]; omega)
  refine ⟨p, hp, (hs.trans (List.suffix_append _ _)).trans (List.suffix_cons _ _), ?_⟩
  rw [parseObject, if_neg (by simp)]
  simp only [take_cons, ok_bind, emit_build (build_startObject stack), hskip, hempty,
    Bool.false_eq_true, if_false, hrun]

end Containers

section Values

theorem starts_of_numeral {depth : Nat} {t : Text} {j : Value} (h : ValueText Numeral depth t j) :
    Starts t := valueText_starts (fun _ _ => numeral_valid) h

theorem parseValue_answered {depth n : Nat} (hn : n ≤ 2 ^ 27) :
    Answers (parseValue build n) (ValueText Numeral depth) (ValueText NumberValue depth) n := by
  induction depth generalizing n with
  | zero => exact fun _ _ h => absurd h id
  | succ depth ih =>
      intro t j h rest hrest hlen
      obtain ⟨n, rfl⟩ := Nat.exists_eq_succ_of_ne_zero (Nat.ne_zero_of_lt hlen)
      have ih := ih (n := n) (by omega)
      have hcomplete : Complete (parseValue build n) (ValueText NumberValue depth) n :=
        parseValue_complete (by omega)
      cases h with
      | null => exact .inl ⟨_, .null, .same⟩
      | true => exact .inl ⟨_, .true, .same⟩
      | false => exact .inl ⟨_, .false, .same⟩
      | @number t m value =>
          have hshort : t.text.length < 2 ^ 27 := by
            rw [List.length_append] at hlen
            omega
          obtain ⟨m', hm, halike⟩ | hrefuses := numeral_answered value hshort hrest
          · exact .inl ⟨_, .number hm, halike⟩
          · refine .inr fun stack => ?_
            rw [parseValue_number (numeral_valid value).whole]
            exact hrefuses stack
      | string text => exact .inl ⟨_, .string text, .same⟩
      | emptyArray space => exact .inl ⟨_, .emptyArray space, .same⟩
      | @array ws t items space elements =>
          have hsplit : '[' :: (ws ++ (t ++ [']'])) ++ rest = '[' :: (ws ++ (t ++ ']' :: rest)) := by
            simp
          rw [hsplit] at hlen ⊢
          obtain ⟨items', hitems, hall⟩ | hrefuses := array_answered hcomplete ih
            (fun _ _ => starts_of_numeral) space elements rest (Nat.lt_of_succ_lt_succ hlen)
          · exact .inl ⟨_, .array space hitems, .array hall⟩
          · exact .inr hrefuses
      | emptyObject space => exact .inl ⟨_, .emptyObject space, .same⟩
      | @object ws t members space elements =>
          have hsplit : '{' :: (ws ++ (t ++ ['}'])) ++ rest = '{' :: (ws ++ (t ++ '}' :: rest)) := by
            simp
          rw [hsplit] at hlen ⊢
          obtain ⟨members', hmembers, hnames, hall⟩ | hrefuses := object_answered hcomplete ih
            (fun _ _ => starts_of_numeral) (fun _ _ => starts_of_value) space elements rest
            (Nat.lt_of_succ_lt_succ hlen)
          · exact .inl ⟨_, .object space hmembers, .object hnames hall⟩
          · exact .inr hrefuses

theorem parse_answered {text : Text} {j : Value} (h : TextOf Numeral text j)
    (hlen : text.length + 1 ≤ 2 ^ 27) :
    (∃ i, Alike j i ∧ parse build text [] = .ok [i]) ∨
      ∃ p, TooBig p ∧ p <:+ text ∧ parse build text [] = .error (.error .numberTooBig p) := by
  obtain ⟨depth, ws, t, ws', rfl, hws, hvalue, hws'⟩ := h
  have hstarts := starts_of_numeral hvalue
  have hskip : skipWhitespace (ws ++ (t ++ ws')) = t ++ ws' :=
    skipWhitespace_append hws (isBlank_of_starts hstarts ws')
  have hne : peek (t ++ ws') ≠ nul := peek_ne_of_starts hstarts (by decide) ws'
  have hend : NoContinuation ws' := by
    have h := noContinuation_blank hws' noContinuation_nil
    rwa [List.append_nil] at h
  have hshort : (t ++ ws').length < (ws ++ (t ++ ws')).length + 1 := by
    simp only [List.length_append]
    omega
  obtain ⟨i, hi, halike⟩ | hrefuses := parseValue_answered hlen t j hvalue ws' hend hshort
  · exact .inl ⟨i, halike, parse_of_text ⟨depth, ws, t, ws', rfl, hws, hi, hws'⟩ hlen⟩
  · obtain ⟨p, hp, hs, hrun⟩ := hrefuses []
    refine .inr ⟨p, hp, hs.trans (List.suffix_append _ _), ?_⟩
    rw [parse, hskip]
    simp only [if_neg hne, hrun, error_bind]

end Values

end SchemaCodeGen.JsonGrammar
