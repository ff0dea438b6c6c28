import SchemaCodeGen.JsonNumbers

namespace SchemaCodeGen.JsonReader

open CString Floats Json Fallible Sax JsonStreams JsonNumbers

section Reader

variable {σ : Type} (h : Handler σ)

/-- The handler stops the parser where `rest` is unread. -/
def emit (e : Event) (rest : Text) (s : σ) : Step σ := do
  let (go, s) ← h e s
  if go then .ok s else .error (.error .termination rest)

def parseLiteral (first : Char) (word : Text) (e : Event) (is : Text) (s : σ) : Step (Text × σ) :=
  if peek is ≠ first then .error .assertion
  else do
    let (_, is) ← take is
    let (found, is) ← consumeAll word is
    if found then
      let s ← emit h e is s
      .ok (is, s)
    else .error (.error .valueInvalid is)

def parseNull : Text → σ → Step (Text × σ) := parseLiteral h 'n' "ull".toList .null

def parseTrue : Text → σ → Step (Text × σ) := parseLiteral h 't' "rue".toList (.bool true)

def parseFalse : Text → σ → Step (Text × σ) := parseLiteral h 'f' "alse".toList (.bool false)

def parseString (isKey : Bool) (is : Text) (s : σ) : Step (Text × σ) :=
  if peek is ≠ '"' then .error .assertion
  else do
    let (_, is) ← take is
    let (str, is) ← parseStringToStream (is.length + 1) is []
    let s ← emit h (if isKey then .key str else .string str) is s
    .ok (is, s)

def parseNumberEvent (is : Text) (s : σ) : Step (Text × σ) := do
  let (e, rest) ← parseNumber is
  let s ← emit h e is s
  .ok (rest, s)

def successor (count : Nat) : Nat := (count + 1) % 2 ^ 32

variable (value : Text → σ → Step (Text × σ))

def parseMember (is : Text) (s : σ) : Step (Text × σ) :=
  if peek is ≠ '"' then .error (.error .objectMissName is)
  else do
    let (is, s) ← parseString h true is s
    let is := skipWhitespace is
    let (found, is) ← consume ':' is
    if found then
      let (is, s) ← value (skipWhitespace is) s
      .ok (skipWhitespace is, s)
    else .error (.error .objectMissColon is)

def parseMembers : Nat → Nat → Text → σ → Step (Text × σ)
  | 0, _, _, _ => .error .fuel
  | fuel + 1, memberCount, is, s => do
      let (is, s) ← parseMember h value is s
      let memberCount := successor memberCount
      if peek is = ',' then
        let (_, is) ← take is
        parseMembers fuel memberCount (skipWhitespace is) s
      else if peek is = '}' then
        let (_, is) ← take is
        let s ← emit h (.endObject memberCount) is s
        .ok (is, s)
      else .error (.error .objectMissCommaOrCurlyBracket is)

def parseObject (is : Text) (s : σ) : Step (Text × σ) :=
  if peek is ≠ '{' then .error .assertion
  else do
    let (_, is) ← take is
    let s ← emit h .startObject is s
    let (empty, is) ← consume '}' (skipWhitespace is)
    if empty then
      let s ← emit h (.endObject 0) is s
      .ok (is, s)
    else parseMembers h value (is.length + 1) 0 is s

def parseElements : Nat → Nat → Text → σ → Step (Text × σ)
  | 0, _, _, _ => .error .fuel
  | fuel + 1, elementCount, is, s => do
      let (is, s) ← value is s
      let elementCount := successor elementCount
      let (comma, is) ← consume ',' (skipWhitespace is)
      if comma then parseElements fuel elementCount (skipWhitespace is) s
      else
        let (close, is) ← consume ']' is
        if close then
          let s ← emit h (.endArray elementCount) is s
          .ok (is, s)
        else .error (.error .arrayMissCommaOrSquareBracket is)

def parseArray (is : Text) (s : σ) : Step (Text × σ) :=
  if peek is ≠ '[' then .error .assertion
  else do
    let (_, is) ← take is
    let s ← emit h .startArray is s
    let (empty, is) ← consume ']' (skipWhitespace is)
    if empty then
      let s ← emit h (.endArray 0) is s
      .ok (is, s)
    else parseElements h value (is.length + 1) 0 is s

def parseValue : Nat → Text → σ → Step (Text × σ)
  | 0, _, _ => .error .fuel
  | depth + 1, is, s =>
      if peek is = 'n' then parseNull h is s
      else if peek is = 't' then parseTrue h is s
      else if peek is = 'f' then parseFalse h is s
      else if peek is = '"' then parseString h false is s
      else if peek is = '{' then parseObject h (parseValue depth) is s
      else if peek is = '[' then parseArray h (parseValue depth) is s
      else parseNumberEvent h is s

def parse (text : Text) (s : σ) : Step σ :=
  let is := skipWhitespace text
  if peek is = nul then .error (.error .documentEmpty is)
  else do
    let (is, s) ← parseValue h (text.length + 1) is s
    let is := skipWhitespace is
    if peek is = nul then .ok s else .error (.error .documentRootNotSingular is)

end Reader

section Grammar

/-- Parts with commas between them, and white space behind each comma. -/
inductive Separated {α : Type} (V : Text → α → Prop) : Text → List α → Prop
  | last {t : Text} {x : α} (head : V t x) : Separated V t [x]
  | cons {t ws u : Text} {x : α} {xs : List α} (head : V t x) (space : Blank ws)
      (tail : Separated V u xs) : Separated V (t ++ ',' :: (ws ++ u)) (x :: xs)

inductive Element (V : Text → Value → Prop) : Text → Value → Prop
  | intro {t ws : Text} {j : Value} (value : V t j) (space : Blank ws) : Element V (t ++ ws) j

inductive Member (V : Text → Value → Prop) : Text → Text × Value → Prop
  | intro {k ws ws' t ws'' name : Text} {j : Value} (key : StringText k name) (space : Blank ws)
      (space' : Blank ws') (value : V t j) (space'' : Blank ws'') :
      Member V ('"' :: (k ++ '"' :: (ws ++ ':' :: (ws' ++ (t ++ ws''))))) (name, j)

/-- The text of a value, when `N` says what the numbers and `V` what the values inside it look
like. -/
inductive Form (N : NumberText → Number → Prop) (V : Text → Value → Prop) : Text → Value → Prop
  | null : Form N V "null".toList .null
  | true : Form N V "true".toList (.bool true)
  | false : Form N V "false".toList (.bool false)
  | number {t : NumberText} {n : Number} (value : N t n) : Form N V t.text (.number n)
  | string {t s : Text} (text : StringText t s) : Form N V ('"' :: (t ++ ['"'])) (.string s)
  | emptyArray {ws : Text} (space : Blank ws) : Form N V ('[' :: (ws ++ [']'])) (.array [])
  | array {ws t : Text} {items : List Value} (space : Blank ws)
      (elements : Separated (Element V) t items) : Form N V ('[' :: (ws ++ (t ++ [']']))) (.array items)
  | emptyObject {ws : Text} (space : Blank ws) : Form N V ('{' :: (ws ++ ['}'])) (.object [])
  | object {ws t : Text} {members : Members} (space : Blank ws)
      (elements : Separated (Member V) t members) :
      Form N V ('{' :: (ws ++ (t ++ ['}']))) (.object members)

/-- The text of a value that nests to a depth below the number. -/
def ValueText (N : NumberText → Number → Prop) : Nat → Text → Value → Prop
  | 0 => fun _ _ => False
  | depth + 1 => Form N (ValueText N depth)

def TextOf (N : NumberText → Number → Prop) (text : Text) (j : Value) : Prop :=
  ∃ depth ws t ws', text = ws ++ (t ++ ws') ∧ Blank ws ∧ ValueText N depth t j ∧ Blank ws'

abbrev JsonText : Text → Value → Prop := TextOf NumberValue

end Grammar

section Build

theorem emit_build {e : Event} {stack stack' : List Value} (h : build e stack = .ok (true, stack'))
    (rest : Text) : emit build e rest stack = .ok stack' := by
  rw [emit, h]
  rfl

theorem build_announced {e : Event} {n : Number} (h : announced e = some n) (stack : List Value) :
    build e stack = .ok (true, .number n :: stack) := by
  cases e <;> simp only [announced, Option.some.injEq, reduceCtorEq] at h <;> subst h <;> rfl

theorem parseLiteral_append {first : Char} {word : Text} {e : Event} {j : Value}
    {stack : List Value} (he : build e stack = .ok (true, j :: stack)) (rest : Text) :
    parseLiteral build first word e (first :: (word ++ rest)) stack = .ok (rest, j :: stack) := by
  rw [parseLiteral, if_neg (by simp), take_cons, ok_bind]
  simp only [consumeAll_append, ok_bind, if_true, emit_build he]

theorem parseLiteral_cases {first : Char} (hfirst : first ≠ nul) {word : Text} (hword : NulFree word)
    {e : Event} {j : Value} {stack : List Value} (he : build e stack = .ok (true, j :: stack))
    {is : Text} (his : peek is = first) :
    (∃ rest, is = first :: (word ++ rest) ∧
        parseLiteral build first word e is stack = .ok (rest, j :: stack)) ∨
      ∃ e', parseLiteral build first word e is stack = .error e' ∧ Refused is e' := by
  obtain ⟨is, rfl⟩ := eq_cons_of_peek his hfirst
  obtain ⟨rest, rfl, hrun⟩ | ⟨rest, hs, hrun⟩ := consumeAll_cases hword is
  · exact .inl ⟨rest, rfl, parseLiteral_append he rest⟩
  · refine .inr ⟨.error .valueInvalid rest, ?_, _, _, rfl, hs.trans (List.suffix_cons _ _)⟩
    rw [parseLiteral, if_neg (by simp), take_cons, ok_bind]
    simp only [hrun, ok_bind, Bool.false_eq_true, if_false]

theorem build_null (stack : List Value) : build .null stack = .ok (true, .null :: stack) := rfl

theorem build_bool (b : Bool) (stack : List Value) :
    build (.bool b) stack = .ok (true, .bool b :: stack) := rfl

theorem build_string (isKey : Bool) (s : Text) (stack : List Value) :
    build (if isKey then .key s else .string s) stack = .ok (true, .string s :: stack) := by
  cases isKey <;> rfl

theorem parseString_append (isKey : Bool) {t s : Text} (h : StringText t s) (rest : Text)
    (stack : List Value) :
    parseString build isKey ('"' :: (t ++ '"' :: rest)) stack = .ok (rest, .string s :: stack) := by
  have hloop := parseStringToStream_of_text h ((t ++ '"' :: rest).length + 1)
    (by rw [List.length_append]; omega) [] rest
  rw [parseString, if_neg (by simp), take_cons, ok_bind]
  simp only [hloop, ok_bind, List.nil_append, emit_build (build_string isKey s stack)]

theorem parseString_cases (isKey : Bool) {is : Text} (his : peek is = '"') (stack : List Value) :
    (∃ t s rest, is = '"' :: (t ++ '"' :: rest) ∧ StringText t s ∧
        parseString build isKey is stack = .ok (rest, .string s :: stack)) ∨
      ∃ e, parseString build isKey is stack = .error e ∧ Refused is e := by
  obtain ⟨is, rfl⟩ := eq_cons_of_peek his (by decide)
  obtain ⟨t, s, rest, rfl, htext, _⟩ | ⟨e, hrun, he⟩ :=
    parseStringToStream_cases (Nat.lt_add_one is.length) []
  · exact .inl ⟨t, s, rest, rfl, htext, parseString_append isKey htext rest stack⟩
  · refine .inr ⟨e, ?_, he.of_suffix (List.suffix_cons _ _)⟩
    rw [parseString, if_neg (by simp), take_cons, ok_bind]
    simp only [hrun, error_bind]

end Build

section Containers

def startsValue (c : Char) : Bool :=
  c == 'n' || c == 't' || c == 'f' || c == '"' || c == '{' || c == '[' || c == '-' || c.isDigit

def Starts (t : Text) : Prop := ∃ c u, t = c :: u ∧ startsValue c = true

variable {V : Text → Value → Prop} {value : Text → List Value → Step (Text × List Value)} {n : Nat}

/-- On inputs shorter than `n` the parser reads a value in front, or refuses the input. -/
def Sound (value : Text → List Value → Step (Text × List Value)) (V : Text → Value → Prop)
    (n : Nat) : Prop :=
  ∀ is, is.length < n → ∀ stack,
    (∃ t j rest, is = t ++ rest ∧ V t j ∧ value is stack = .ok (rest, j :: stack)) ∨
      ∃ e, value is stack = .error e ∧ Refused is e

def Complete (value : Text → List Value → Step (Text × List Value)) (V : Text → Value → Prop)
    (n : Nat) : Prop :=
  ∀ t j, V t j → ∀ rest, NoContinuation rest → (t ++ rest).length < n → ∀ stack,
    value (t ++ rest) stack = .ok (rest, j :: stack)

theorem isBlank_of_starts {t : Text} (h : Starts t) (rest : Text) :
    isBlank (peek (t ++ rest)) = false := by
  obtain ⟨c, u, rfl, hc⟩ := h
  by_contra hblank
  rw [Bool.not_eq_false, List.cons_append, peek_cons] at hblank
  simp only [isBlank, Bool.or_eq_true, beq_iff_eq] at hblank
  obtain ((rfl | rfl) | rfl) | rfl := hblank <;> exact absurd hc (by decide)

theorem peek_ne_of_starts {t : Text} (h : Starts t) {d : Char} (hd : startsValue d = false)
    (rest : Text) : peek (t ++ rest) ≠ d := by
  obtain ⟨c, u, rfl, hc⟩ := h
  rintro rfl
  rw [List.cons_append, peek_cons, hc] at hd
  exact absurd hd (by simp)

theorem length_pos_of_starts {t : Text} (h : Starts t) : 0 < t.length := by
  obtain ⟨c, u, rfl, _⟩ := h
  exact Nat.succ_pos _

theorem noContinuation_cons {c : Char} (hdigit : c.isDigit = false) (hpoint : c ≠ '.') (hl : c ≠ 'e')
    (hu : c ≠ 'E') (rest : Text) : NoContinuation (c :: rest) := ⟨hdigit, hpoint, hl, hu⟩

theorem noContinuation_blank {ws rest : Text} (hws : Blank ws) (hrest : NoContinuation rest) :
    NoContinuation (ws ++ rest) := by
  cases ws with
  | nil => exact hrest
  | cons c ws =>
      have hc := hws c List.mem_cons_self
      simp only [isBlank, Bool.or_eq_true, beq_iff_eq] at hc
      obtain ((rfl | rfl) | rfl) | rfl := hc <;> exact noContinuation_cons rfl (by decide) (by decide) (by decide) _

theorem separated_starts {α : Type} {W : Text → α → Prop} (hW : ∀ t x, W t x → Starts t) {t : Text}
    {xs : List α} (h : Separated W t xs) : Starts t := by
  cases h with
  | last head => exact hW _ _ head
  | cons head _ _ =>
      obtain ⟨c, u, rfl, hc⟩ := hW _ _ head
      exact ⟨c, _, rfl, hc⟩

theorem element_starts (hV : ∀ t j, V t j → Starts t) {t : Text} {j : Value} (h : Element V t j) :
    Starts t := by
  obtain ⟨hvalue, _⟩ := h
  obtain ⟨c, u, rfl, hc⟩ := hV _ _ hvalue
  exact ⟨c, _, rfl, hc⟩

theorem member_starts {t : Text} {e : Text × Value} (h : Member V t e) : Starts t := by
  obtain ⟨_, _, _, _, _⟩ := h
  exact ⟨'"', _, rfl, rfl⟩

theorem successor_eq {count : Nat} (h : count + 1 < 2 ^ 32) : successor count = count + 1 :=
  Nat.mod_eq_of_lt h

theorem build_endArray (items stack : List Value) :
    build (.endArray items.length) (items.reverse ++ .array [] :: stack) =
      .ok (true, .array items :: stack) :=
  have hc : arrayOf items = some (.array items) := rfl
  close_append hc _ _

theorem build_endObject (members : Members) (stack : List Value) :
    build (.endObject members.length) ((flat members).reverse ++ .object [] :: stack) =
      .ok (true, .object members :: stack) := by
  have hc : objectOf (flat members) = some (.object members) := by
    rw [objectOf, pairs_flat, Option.map_some]
  have h := close_append hc (.object []) stack
  rwa [length_flat] at h

theorem parseElements_cases (hsound : Sound value V n) (hV : ∀ t j, V t j → Starts t) {fuel : Nat}
    {is : Text} (hf : is.length < fuel) (hn : is.length < n) (done : List Value)
    (hk : done.length + is.length < 2 ^ 32) (base : List Value) :
    (∃ t items rest, is = t ++ ']' :: rest ∧ Separated (Element V) t items ∧
        parseElements build value fuel done.length is (done.reverse ++ .array [] :: base) =
          .ok (rest, .array (done ++ items) :: base)) ∨
      ∃ e, parseElements build value fuel done.length is (done.reverse ++ .array [] :: base) =
        .error e ∧ Refused is e := by
  induction fuel generalizing is done with
  | zero => exact absurd hf (Nat.not_lt_zero _)
  | succ fuel ih =>
      rw [parseElements]
      obtain ⟨t, j, rest, rfl, hvalue, hrun⟩ | ⟨e, hrun, he⟩ :=
        hsound is hn (done.reverse ++ .array [] :: base)
      · have hpos := length_pos_of_starts (hV t j hvalue)
        obtain ⟨ws, hws, hsplit⟩ := skipWhitespace_split rest
        have hstack : j :: (done.reverse ++ .array [] :: base) =
            (done ++ [j]).reverse ++ .array [] :: base := by simp
        have hcount : successor done.length = (done ++ [j]).length := by
          rw [List.length_append] at hk
          rw [successor_eq (by omega), List.length_append, List.length_singleton]
        have hsuffix : skipWhitespace rest <:+ t ++ rest :=
          (suffix_skipWhitespace rest).trans (List.suffix_append t rest)
        simp only [hrun, ok_bind, hcount, hstack]
        obtain ⟨r, hr, hcomma⟩ | ⟨hne, hcomma⟩ := consume_cases (c := ',') (by decide)
            (skipWhitespace rest)
        · obtain ⟨ws', hws', hsplit'⟩ := skipWhitespace_split r
          rw [hr] at hsplit
          have hlen : (skipWhitespace r).length < rest.length := by
            have h1 := congrArg List.length hsplit
            have h2 := (suffix_skipWhitespace r).length_le
            rw [List.length_append, List.length_cons] at h1
            omega
          rw [List.length_append] at hf hn hk
          simp only [hcomma, ok_bind, if_true]
          have hf' : (skipWhitespace r).length < fuel := by omega
          obtain ⟨u, items, rest', hu, hitems, hrun'⟩ | ⟨e, hrun', he⟩ :=
            ih hf' (by omega) (done ++ [j]) (by rw [List.length_append, List.length_singleton]; omega)
          · refine .inl ⟨t ++ ws ++ ',' :: (ws' ++ u), j :: items, rest', ?_,
              .cons (.intro hvalue hws) hws' hitems, by rw [hrun']; simp⟩
            rw [hsplit, hsplit', hu]
            simp
          · refine .inr ⟨e, hrun', he.of_suffix ?_⟩
            have hr' : skipWhitespace r <:+ skipWhitespace rest := by
              rw [hr]
              exact (suffix_skipWhitespace r).trans (List.suffix_cons _ _)
            exact hr'.trans hsuffix
        · simp only [hcomma, ok_bind, Bool.false_eq_true, if_false]
          obtain ⟨r, hr, hclose⟩ | ⟨_, hclose⟩ := consume_cases (c := ']') (by decide)
            (skipWhitespace rest)
          · refine .inl ⟨t ++ ws, [j], r, by rw [hsplit, hr]; simp, .last (.intro hvalue hws), ?_⟩
            simp only [hclose, ok_bind, if_true, emit_build (build_endArray (done ++ [j]) base)]
          · refine .inr ⟨_, ?_, .arrayMissCommaOrSquareBracket, _, rfl, hsuffix⟩
            simp only [hclose, ok_bind, Bool.false_eq_true, if_false]
      · exact .inr ⟨e, by rw [hrun, error_bind], he⟩

theorem parseElements_of_text (hcomplete : Complete value V n) (hV : ∀ t j, V t j → Starts t)
    {t : Text} {items : List Value} (h : Separated (Element V) t items) (fuel : Nat)
    (hf : t.length < fuel) (rest : Text) (hn : (t ++ ']' :: rest).length < n) (done : List Value)
    (hk : done.length + t.length < 2 ^ 32) (base : List Value) :
    parseElements build value fuel done.length (t ++ ']' :: rest)
        (done.reverse ++ .array [] :: base) = .ok (rest, .array (done ++ items) :: base) := by
  induction h generalizing fuel done with
  | @last t j head =>
      obtain ⟨fuel, rfl⟩ := Nat.exists_eq_succ_of_ne_zero (Nat.ne_zero_of_lt hf)
      obtain @⟨t, ws, _, hvalue, hws⟩ := head
      have hpos := length_pos_of_starts (hV t j hvalue)
      rw [List.length_append] at hk
      rw [List.append_assoc] at hn
      have hend : NoContinuation (ws ++ ']' :: rest) := noContinuation_blank hws
        (noContinuation_cons rfl (by decide) (by decide) (by decide) rest)
      have hrun := hcomplete t j hvalue _ hend hn (done.reverse ++ .array [] :: base)
      have hskip : skipWhitespace (ws ++ ']' :: rest) = ']' :: rest := skipWhitespace_append hws rfl
      have hcomma : consume ',' (']' :: rest) = .ok (false, ']' :: rest) :=
        consume_of_ne (show peek (']' :: rest) ≠ ',' by simp)
      have hcount : successor done.length = (done ++ [j]).length := by
        rw [successor_eq (by omega), List.length_append, List.length_singleton]
      have hstack : j :: (done.reverse ++ .array [] :: base) =
          (done ++ [j]).reverse ++ .array [] :: base := by simp
      rw [parseElements, List.append_assoc]
      simp only [hrun, ok_bind, hskip, hcomma, Bool.false_eq_true, if_false, consume_cons, if_true,
        hcount, hstack, emit_build (build_endArray (done ++ [j]) base)]
  | @cons t ws' u j items head space tail ih =>
      obtain ⟨fuel, rfl⟩ := Nat.exists_eq_succ_of_ne_zero (Nat.ne_zero_of_lt hf)
      obtain @⟨t, ws, _, hvalue, hws⟩ := head
      have hpos := length_pos_of_starts (hV t j hvalue)
      have hsplit : t ++ ws ++ ',' :: (ws' ++ u) ++ ']' :: rest =
          t ++ (ws ++ ',' :: (ws' ++ (u ++ ']' :: rest))) := by simp
      rw [hsplit] at hn ⊢
      have hend : NoContinuation (ws ++ ',' :: (ws' ++ (u ++ ']' :: rest))) := noContinuation_blank hws
        (noContinuation_cons rfl (by decide) (by decide) (by decide) _)
      have hrun := hcomplete t j hvalue _ hend hn (done.reverse ++ .array [] :: base)
      have hskip : skipWhitespace (ws ++ ',' :: (ws' ++ (u ++ ']' :: rest))) =
          ',' :: (ws' ++ (u ++ ']' :: rest)) := skipWhitespace_append hws rfl
      have hskip' : skipWhitespace (ws' ++ (u ++ ']' :: rest)) = u ++ ']' :: rest :=
        skipWhitespace_append space (isBlank_of_starts
          (separated_starts (fun _ _ => element_starts hV) tail) _)
      simp only [List.length_append, List.length_cons] at hf hn hk
      have hcount : successor done.length = (done ++ [j]).length := by
        rw [successor_eq (by omega), List.length_append, List.length_singleton]
      have hstack : j :: (done.reverse ++ .array [] :: base) =
          (done ++ [j]).reverse ++ .array [] :: base := by simp
      have hloop := ih fuel (by omega)
        (by rw [List.length_append, List.length_cons]; omega) (done ++ [j])
        (by rw [List.length_append, List.length_singleton]; omega)
      rw [parseElements]
      simp only [hrun, ok_bind, hskip, consume_cons, if_true, hskip', hcount, hstack, hloop]
      simp

theorem parseMember_cases (hsound : Sound value V n) {is : Text}
    (hn : is.length < n) (stack : List Value) :
    (∃ t e rest, is = t ++ rest ∧ Member V t e ∧ isBlank (peek rest) = false ∧
        parseMember build value is stack = .ok (rest, e.2 :: .string e.1 :: stack)) ∨
      ∃ e, parseMember build value is stack = .error e ∧ Refused is e := by
  rw [parseMember]
  by_cases hquote : peek is = '"'
  · rw [if_neg (not_not.mpr hquote)]
    obtain ⟨k, name, is₁, rfl, hkey, hrun⟩ | ⟨e, hrun, he⟩ := parseString_cases true hquote stack
    · obtain ⟨ws, hws, hsplit⟩ := skipWhitespace_split is₁
      have hsuffix : skipWhitespace is₁ <:+ '"' :: (k ++ '"' :: is₁) :=
        ((suffix_skipWhitespace is₁).trans (List.suffix_cons '"' is₁)).trans
          ((List.suffix_append k _).trans (List.suffix_cons '"' _))
      simp only [hrun, ok_bind]
      obtain ⟨is₂, his₂, hcolon⟩ | ⟨_, hcolon⟩ := consume_cases (c := ':') (by decide)
        (skipWhitespace is₁)
      · obtain ⟨ws', hws', hsplit'⟩ := skipWhitespace_split is₂
        have hlen : (skipWhitespace is₂).length < n := by
          have h1 := congrArg List.length hsplit
          have h2 := (suffix_skipWhitespace is₂).length_le
          rw [his₂, List.length_append, List.length_cons] at h1
          simp only [List.length_append, List.length_cons] at hn
          omega
        simp only [hcolon, ok_bind, if_true]
        obtain ⟨t, j, is₃, hsplit'', hvalue, hrun'⟩ | ⟨e, hrun', he⟩ :=
          hsound (skipWhitespace is₂) hlen (.string name :: stack)
        · obtain ⟨ws'', hws'', hsplit₃⟩ := skipWhitespace_split is₃
          refine .inl ⟨'"' :: (k ++ '"' :: (ws ++ ':' :: (ws' ++ (t ++ ws'')))), (name, j),
            skipWhitespace is₃, ?_, .intro hkey hws hws' hvalue hws'', peek_skipWhitespace is₃, ?_⟩
          · have hall : is₁ = ws ++ ':' :: (ws' ++ (t ++ (ws'' ++ skipWhitespace is₃))) := by
              rw [← hsplit₃, ← hsplit'', ← hsplit', ← his₂, ← hsplit]
            rw [hall]
            simp [← hall]
          · simp only [hrun', ok_bind]
        · refine .inr ⟨e, by simp only [hrun', error_bind], he.of_suffix ?_⟩
          have hr : skipWhitespace is₂ <:+ skipWhitespace is₁ := by
            rw [his₂]
            exact (suffix_skipWhitespace is₂).trans (List.suffix_cons _ _)
          exact hr.trans hsuffix
      · refine .inr ⟨_, ?_, .objectMissColon, _, rfl, hsuffix⟩
        simp only [hcolon, ok_bind, Bool.false_eq_true, if_false]
    · exact .inr ⟨e, by rw [hrun, error_bind], he⟩
  · rw [if_pos hquote]
    exact .inr ⟨_, rfl, refused_here _ _⟩

theorem parseMember_of_text (hcomplete : Complete value V n) (hV : ∀ t j, V t j → Starts t)
    {t : Text} {e : Text × Value} (h : Member V t e) {rest : Text} (hrest : NoContinuation rest)
    (hblank : isBlank (peek rest) = false) (hn : (t ++ rest).length < n) (stack : List Value) :
    parseMember build value (t ++ rest) stack = .ok (rest, e.2 :: .string e.1 :: stack) := by
  obtain @⟨k, ws, ws', t, ws'', name, j, hkey, hws, hws', hvalue, hws''⟩ := h
  have hsplit : '"' :: (k ++ '"' :: (ws ++ ':' :: (ws' ++ (t ++ ws'')))) ++ rest =
      '"' :: (k ++ '"' :: (ws ++ ':' :: (ws' ++ (t ++ (ws'' ++ rest))))) := by simp
  rw [hsplit] at hn ⊢
  have hstring := parseString_append true hkey (ws ++ ':' :: (ws' ++ (t ++ (ws'' ++ rest)))) stack
  have hskip : skipWhitespace (ws ++ ':' :: (ws' ++ (t ++ (ws'' ++ rest)))) =
      ':' :: (ws' ++ (t ++ (ws'' ++ rest))) := skipWhitespace_append hws rfl
  have hskip' : skipWhitespace (ws' ++ (t ++ (ws'' ++ rest))) = t ++ (ws'' ++ rest) :=
    skipWhitespace_append hws' (isBlank_of_starts (hV t j hvalue) _)
  have hskip'' : skipWhitespace (ws'' ++ rest) = rest := skipWhitespace_append hws'' hblank
  have hlen : (t ++ (ws'' ++ rest)).length < n := by
    simp only [List.length_append, List.length_cons] at hn ⊢
    omega
  have hrun := hcomplete t j hvalue _ (noContinuation_blank hws'' hrest) hlen (.string name :: stack)
  rw [parseMember, if_neg (by simp)]
  simp only [hstring, ok_bind, hskip, consume_cons, if_true, hskip', hrun, hskip'']

theorem flat_append (ms ms' : Members) : flat (ms ++ ms') = flat ms ++ flat ms' := by
  simp [flat]

theorem push_member (e : Text × Value) (done : Members) (stack : List Value) :
    e.2 :: .string e.1 :: ((flat done).reverse ++ stack) = (flat (done ++ [e])).reverse ++ stack := by
  rw [flat_append, List.reverse_append]
  rfl

theorem parseMembers_cases (hsound : Sound value V n) {fuel : Nat} {is : Text}
    (hf : is.length < fuel) (hn : is.length < n) (done : Members)
    (hk : done.length + is.length < 2 ^ 32) (base : List Value) :
    (∃ t members rest, is = t ++ '}' :: rest ∧ Separated (Member V) t members ∧
        parseMembers build value fuel done.length is ((flat done).reverse ++ .object [] :: base) =
          .ok (rest, .object (done ++ members) :: base)) ∨
      ∃ e, parseMembers build value fuel done.length is
        ((flat done).reverse ++ .object [] :: base) = .error e ∧ Refused is e := by
  induction fuel generalizing is done with
  | zero => exact absurd hf (Nat.not_lt_zero _)
  | succ fuel ih =>
      rw [parseMembers]
      obtain ⟨t, e, rest, rfl, hmember, _, hrun⟩ | ⟨e, hrun, he⟩ :=
        parseMember_cases hsound hn ((flat done).reverse ++ .object [] :: base)
      · have hpos := length_pos_of_starts (member_starts hmember)
        rw [List.length_append] at hf hn hk
        have hcount : successor done.length = (done ++ [e]).length := by
          rw [successor_eq (by omega), List.length_append, List.length_singleton]
        simp only [hrun, ok_bind, hcount, push_member]
        by_cases hcomma : peek rest = ','
        · obtain ⟨r, rfl⟩ := eq_cons_of_peek hcomma (by decide)
          obtain ⟨ws, hws, hsplit⟩ := skipWhitespace_split r
          have hlen := (suffix_skipWhitespace r).length_le
          rw [List.length_cons] at hf hn hk
          simp only [peek_cons, if_true, take_cons, ok_bind]
          have hf' : (skipWhitespace r).length < fuel := by omega
          obtain ⟨u, members, rest', hu, hmembers, hrun'⟩ | ⟨e', hrun', he⟩ :=
            ih hf' (by omega) (done ++ [e]) (by rw [List.length_append, List.length_singleton]; omega)
          · refine .inl ⟨t ++ ',' :: (ws ++ u), e :: members, rest', ?_,
              .cons hmember hws hmembers, by rw [hrun']; simp⟩
            have hr : r = ws ++ (u ++ '}' :: rest') := by rw [← hu, ← hsplit]
            rw [hr]
            simp
          · exact .inr ⟨e', hrun', he.of_suffix (((suffix_skipWhitespace r).trans
              (List.suffix_cons _ _)).trans (List.suffix_append _ _))⟩
        · rw [if_neg hcomma]
          by_cases hclose : peek rest = '}'
          · obtain ⟨r, rfl⟩ := eq_cons_of_peek hclose (by decide)
            refine .inl ⟨t, [e], r, rfl, .last hmember, ?_⟩
            simp only [peek_cons, if_true, take_cons, ok_bind,
              emit_build (build_endObject (done ++ [e]) base)]
          · rw [if_neg hclose]
            exact .inr ⟨_, rfl, .objectMissCommaOrCurlyBracket, _, rfl, List.suffix_append _ _⟩
      · exact .inr ⟨e, by rw [hrun, error_bind], he⟩

theorem parseMembers_of_text (hcomplete : Complete value V n) (hV : ∀ t j, V t j → Starts t)
    {t : Text} {members : Members} (h : Separated (Member V) t members) (fuel : Nat)
    (hf : t.length < fuel) (rest : Text) (hn : (t ++ '}' :: rest).length < n) (done : Members)
    (hk : done.length + t.length < 2 ^ 32) (base : List Value) :
    parseMembers build value fuel done.length (t ++ '}' :: rest)
        ((flat done).reverse ++ .object [] :: base) =
      .ok (rest, .object (done ++ members) :: base) := by
  induction h generalizing fuel done with
  | @last t e head =>
      obtain ⟨fuel, rfl⟩ := Nat.exists_eq_succ_of_ne_zero (Nat.ne_zero_of_lt hf)
      have hpos := length_pos_of_starts (member_starts head)
      have hend : NoContinuation ('}' :: rest) :=
        noContinuation_cons rfl (by decide) (by decide) (by decide) rest
      have hrun := parseMember_of_text hcomplete hV head hend rfl hn
        ((flat done).reverse ++ .object [] :: base)
      have hcount : successor done.length = (done ++ [e]).length := by
        rw [successor_eq (by omega), List.length_append, List.length_singleton]
      have hcomma : ¬ '}' = ',' := by decide
      rw [parseMembers]
      simp only [hrun, ok_bind, hcount, push_member, peek_cons, if_neg hcomma, if_true, take_cons,
        emit_build (build_endObject (done ++ [e]) base)]
  | @cons t ws u e members head space tail ih =>
      obtain ⟨fuel, rfl⟩ := Nat.exists_eq_succ_of_ne_zero (Nat.ne_zero_of_lt hf)
      have hpos := length_pos_of_starts (member_starts head)
      have hsplit : t ++ ',' :: (ws ++ u) ++ '}' :: rest =
          t ++ ',' :: (ws ++ (u ++ '}' :: rest)) := by simp
      rw [hsplit] at hn ⊢
      have hend : NoContinuation (',' :: (ws ++ (u ++ '}' :: rest))) :=
        noContinuation_cons rfl (by decide) (by decide) (by decide) _
      have hrun := parseMember_of_text hcomplete hV head hend rfl hn
        ((flat done).reverse ++ .object [] :: base)
      have hskip : skipWhitespace (ws ++ (u ++ '}' :: rest)) = u ++ '}' :: rest :=
        skipWhitespace_append space
          (isBlank_of_starts (separated_starts (fun _ _ => member_starts) tail) _)
      simp only [List.length_append, List.length_cons] at hf hn hk
      have hcount : successor done.length = (done ++ [e]).length := by
        rw [successor_eq (by omega), List.length_append, List.length_singleton]
      have hloop := ih fuel (by omega)
        (by rw [List.length_append, List.length_cons]; omega) (done ++ [e])
        (by rw [List.length_append, List.length_singleton]; omega)
      rw [parseMembers]
      simp only [hrun, ok_bind, hcount, push_member, peek_cons, if_true, take_cons, hskip, hloop]
      simp

theorem build_startArray (stack : List Value) :
    build .startArray stack = .ok (true, .array [] :: stack) := rfl

theorem build_startObject (stack : List Value) :
    build .startObject stack = .ok (true, .object [] :: stack) := rfl

theorem parseArray_cases (hsound : Sound value V n) (hV : ∀ t j, V t j → Starts t) (hmax : n < 2 ^ 32)
    {is : Text} (his : peek is = '[') (hn : is.length < n + 1) (stack : List Value) :
    (∃ t j rest, is = t ++ rest ∧ Form NumberValue V t j ∧
        parseArray build value is stack = .ok (rest, j :: stack)) ∨
      ∃ e, parseArray build value is stack = .error e ∧ Refused is e := by
  obtain ⟨is, rfl⟩ := eq_cons_of_peek his (by decide)
  obtain ⟨ws, hws, hsplit⟩ := skipWhitespace_split is
  have hle := (suffix_skipWhitespace is).length_le
  rw [List.length_cons] at hn
  rw [parseArray, if_neg (by simp)]
  simp only [take_cons, ok_bind, emit_build (build_startArray stack)]
  obtain ⟨rest, hrest, hempty⟩ | ⟨_, hempty⟩ := consume_cases (c := ']') (by decide)
    (skipWhitespace is)
  · rw [hrest] at hsplit
    refine .inl ⟨_, .array [], rest, ?_, .emptyArray hws, ?_⟩
    · rw [hsplit]
      simp
    · simp only [hempty, ok_bind, if_true]
      rfl
  · simp only [hempty, ok_bind, Bool.false_eq_true, if_false]
    obtain ⟨t, items, rest, ht, hitems, hrun⟩ | ⟨e, hrun, he⟩ := parseElements_cases hsound hV
      (Nat.lt_add_one (skipWhitespace is).length) (by omega) [] (by rw [List.length_nil]; omega) stack
    · refine .inl ⟨_, .array items, rest, ?_, .array hws hitems, hrun⟩
      rw [ht] at hsplit
      rw [hsplit]
      simp
    · exact .inr ⟨e, hrun, he.of_suffix ((suffix_skipWhitespace is).trans (List.suffix_cons _ _))⟩

theorem parseObject_cases (hsound : Sound value V n) (hmax : n < 2 ^ 32)
    {is : Text} (his : peek is = '{') (hn : is.length < n + 1) (stack : List Value) :
    (∃ t j rest, is = t ++ rest ∧ Form NumberValue V t j ∧
        parseObject build value is stack = .ok (rest, j :: stack)) ∨
      ∃ e, parseObject build value is stack = .error e ∧ Refused is e := by
  obtain ⟨is, rfl⟩ := eq_cons_of_peek his (by decide)
  obtain ⟨ws, hws, hsplit⟩ := skipWhitespace_split is
  have hle := (suffix_skipWhitespace is).length_le
  rw [List.length_cons] at hn
  rw [parseObject, if_neg (by simp)]
  simp only [take_cons, ok_bind, emit_build (build_startObject stack)]
  obtain ⟨rest, hrest, hempty⟩ | ⟨_, hempty⟩ := consume_cases (c := '}') (by decide)
    (skipWhitespace is)
  · rw [hrest] at hsplit
    refine .inl ⟨_, .object [], rest, ?_, .emptyObject hws, ?_⟩
    · rw [hsplit]
      simp
    · simp only [hempty, ok_bind, if_true]
      rfl
  · simp only [hempty, ok_bind, Bool.false_eq_true, if_false]
    obtain ⟨t, members, rest, ht, hmembers, hrun⟩ | ⟨e, hrun, he⟩ := parseMembers_cases hsound
      (Nat.lt_add_one (skipWhitespace is).length) (by omega) [] (by rw [List.length_nil]; omega) stack
    · refine .inl ⟨_, .object members, rest, ?_, .object hws hmembers, hrun⟩
      rw [ht] at hsplit
      rw [hsplit]
      simp
    · exact .inr ⟨e, hrun, he.of_suffix ((suffix_skipWhitespace is).trans (List.suffix_cons _ _))⟩

theorem parseArray_empty {ws : Text} (hws : Blank ws) (rest : Text) (stack : List Value) :
    parseArray build value ('[' :: (ws ++ ']' :: rest)) stack = .ok (rest, .array [] :: stack) := by
  have hskip : skipWhitespace (ws ++ ']' :: rest) = ']' :: rest := skipWhitespace_append hws rfl
  rw [parseArray, if_neg (by simp)]
  simp only [take_cons, ok_bind, emit_build (build_startArray stack), hskip, consume_cons, if_true]
  rfl

theorem parseObject_empty {ws : Text} (hws : Blank ws) (rest : Text) (stack : List Value) :
    parseObject build value ('{' :: (ws ++ '}' :: rest)) stack = .ok (rest, .object [] :: stack) := by
  have hskip : skipWhitespace (ws ++ '}' :: rest) = '}' :: rest := skipWhitespace_append hws rfl
  rw [parseObject, if_neg (by simp)]
  simp only [take_cons, ok_bind, emit_build (build_startObject stack), hskip, consume_cons, if_true]
  rfl

theorem parseArray_of_text (hcomplete : Complete value V n) (hV : ∀ t j, V t j → Starts t)
    (hmax : n < 2 ^ 32) {ws t : Text} {items : List Value} (hws : Blank ws)
    (h : Separated (Element V) t items) (rest : Text) (hn : (ws ++ (t ++ ']' :: rest)).length < n)
    (stack : List Value) :
    parseArray build value ('[' :: (ws ++ (t ++ ']' :: rest))) stack =
      .ok (rest, .array items :: stack) := by
  have hstarts := separated_starts (fun _ _ => element_starts hV) h
  have hskip : skipWhitespace (ws ++ (t ++ ']' :: rest)) = t ++ ']' :: rest :=
    skipWhitespace_append hws (isBlank_of_starts hstarts _)
  have hempty : consume ']' (t ++ ']' :: rest) = .ok (false, t ++ ']' :: rest) :=
    consume_of_ne (peek_ne_of_starts hstarts (by decide) _)
  rw [List.length_append] at hn
  have hloop := parseElements_of_text hcomplete hV h ((t ++ ']' :: rest).length + 1)
    (by rw [List.length_append]; omega) rest (by omega) []
    (by rw [List.length_append] at hn; rw [List.length_nil]; omega) stack
  rw [parseArray, if_neg (by simp)]
  simp only [take_cons, ok_bind, emit_build (build_startArray stack), hskip, hempty,
    Bool.false_eq_true, if_false]
  exact hloop

theorem parseObject_of_text (hcomplete : Complete value V n) (hV : ∀ t j, V t j → Starts t)
    (hmax : n < 2 ^ 32) {ws t : Text} {members : Members} (hws : Blank ws)
    (h : Separated (Member V) t members) (rest : Text) (hn : (ws ++ (t ++ '}' :: rest)).length < n)
    (stack : List Value) :
    parseObject build value ('{' :: (ws ++ (t ++ '}' :: rest))) stack =
      .ok (rest, .object members :: stack) := by
  have hstarts := separated_starts (fun _ _ => member_starts) h
  have hskip : skipWhitespace (ws ++ (t ++ '}' :: rest)) = t ++ '}' :: rest :=
    skipWhitespace_append hws (isBlank_of_starts hstarts _)
  have hempty : consume '}' (t ++ '}' :: rest) = .ok (false, t ++ '}' :: rest) :=
    consume_of_ne (peek_ne_of_starts hstarts (by decide) _)
  rw [List.length_append] at hn
  have hloop := parseMembers_of_text hcomplete hV h ((t ++ '}' :: rest).length + 1)
    (by rw [List.length_append]; omega) rest (by omega) []
    (by rw [List.length_append] at hn; rw [List.length_nil]; omega) stack
  rw [parseObject, if_neg (by simp)]
  simp only [take_cons, ok_bind, emit_build (build_startObject stack), hskip, hempty,
    Bool.false_eq_true, if_false]
  exact hloop

end Containers

section Values

theorem number_head {t : NumberText} (h : WholeText t.whole) :
    ∃ c u, t.text = c :: u ∧ (c = '-' ∨ c.isDigit = true) := by
  obtain ⟨c, ds, hwhole, hc⟩ := h.head
  cases hm : t.minus with
  | true => exact ⟨'-', _, by rw [NumberText.text, hm, if_pos rfl]; rfl, .inl rfl⟩
  | false => exact ⟨c, _, by rw [NumberText.text, hm, if_neg (by simp), hwhole]; rfl, .inr hc⟩

theorem valid_of_value {t : NumberText} {n : Number} (h : NumberValue t n) : t.Valid := by
  cases h with
  | int valid _ => exact valid
  | double valid _ _ => exact valid

variable {N : NumberText → Number → Prop} (hN : ∀ t n, N t n → t.Valid)
include hN

theorem form_starts {V : Text → Value → Prop} {t : Text} {j : Value} (h : Form N V t j) : Starts t := by
  cases h with
  | number value =>
      obtain ⟨c, u, ht, hc⟩ := number_head (hN _ _ value).whole
      refine ⟨c, u, ht, ?_⟩
      obtain rfl | hc := hc
      · rfl
      · simp [startsValue, hc]
  | null | true | false | string _ | emptyArray _ | array _ _ | emptyObject _ | object _ _ =>
      exact ⟨_, _, rfl, rfl⟩

theorem valueText_starts {depth : Nat} {t : Text} {j : Value} (h : ValueText N depth t j) : Starts t := by
  cases depth with
  | zero => exact absurd h id
  | succ depth => exact form_starts hN h

omit hN

theorem starts_of_value {depth : Nat} {t : Text} {j : Value} (h : ValueText NumberValue depth t j) :
    Starts t := valueText_starts (fun _ _ => valid_of_value) h

theorem parseNumberEvent_cases {is : Text} (hlen : is.length < 2 ^ 27) (stack : List Value) :
    (∃ t n rest, is = NumberText.text t ++ rest ∧ NumberValue t n ∧
        parseNumberEvent build is stack = .ok (rest, .number n :: stack)) ∨
      ∃ e, parseNumberEvent build is stack = .error e ∧ Refused is e := by
  obtain ⟨t, n, e, rest, rfl, hvalue, hann, hrun⟩ | ⟨e, hrun, he⟩ := parseNumber_cases hlen
  · refine .inl ⟨t, n, rest, rfl, hvalue, ?_⟩
    simp only [parseNumberEvent, hrun, ok_bind, emit_build (build_announced hann stack)]
  · exact .inr ⟨e, by simp only [parseNumberEvent, hrun, error_bind], he⟩

theorem parseValue_sound {n : Nat} (hn : n ≤ 2 ^ 27) : Sound (parseValue build n) (ValueText NumberValue n) n := by
  induction n with
  | zero => exact fun _ h => absurd h (Nat.not_lt_zero _)
  | succ n ih =>
      have ih := ih (by omega)
      intro is his stack
      rw [parseValue]
      split_ifs with hn' ht hf hq ho ha
      · have hword : NulFree "ull".toList := by decide
        obtain ⟨rest, rfl, hrun⟩ | herr := parseLiteral_cases (by decide) hword (build_null stack) hn'
        · exact .inl ⟨_, .null, rest, rfl, .null, hrun⟩
        · exact .inr herr
      · have hword : NulFree "rue".toList := by decide
        obtain ⟨rest, rfl, hrun⟩ | herr := parseLiteral_cases (by decide) hword (build_bool true stack) ht
        · exact .inl ⟨_, .bool true, rest, rfl, .true, hrun⟩
        · exact .inr herr
      · have hword : NulFree "alse".toList := by decide
        obtain ⟨rest, rfl, hrun⟩ | herr := parseLiteral_cases (by decide) hword (build_bool false stack) hf
        · exact .inl ⟨_, .bool false, rest, rfl, .false, hrun⟩
        · exact .inr herr
      · obtain ⟨t, s, rest, rfl, htext, hrun⟩ | herr := parseString_cases false hq stack
        · exact .inl ⟨_, .string s, rest, by simp, .string htext, hrun⟩
        · exact .inr herr
      · exact parseObject_cases ih (by omega) ho his stack
      · exact parseArray_cases ih (fun _ _ => starts_of_value) (by omega) ha his stack
      · have hshort : is.length < 2 ^ 27 := by omega
        obtain ⟨t, m, rest, rfl, hvalue, hrun⟩ | herr := parseNumberEvent_cases hshort stack
        · exact .inl ⟨t.text, .number m, rest, rfl, .number hvalue, hrun⟩
        · exact .inr herr

theorem parseValue_number {t : NumberText} (ht : WholeText t.whole) {depth : Nat} (rest : Text)
    (stack : List Value) : parseValue build (depth + 1) (t.text ++ rest) stack =
      parseNumberEvent build (t.text ++ rest) stack := by
  obtain ⟨c, u, htext, hc⟩ := number_head ht
  have hpeek : peek (t.text ++ rest) = c := by rw [htext]; rfl
  have hother : ∀ d, d ≠ '-' → d.isDigit = false → c ≠ d := by
    rintro d hd hd' rfl
    obtain hc | hc := hc
    · exact hd hc
    · rw [hc] at hd'
      exact absurd hd' (by simp)
  rw [parseValue, hpeek, if_neg (hother 'n' (by decide) rfl), if_neg (hother 't' (by decide) rfl),
    if_neg (hother 'f' (by decide) rfl), if_neg (hother '"' (by decide) rfl),
    if_neg (hother '{' (by decide) rfl), if_neg (hother '[' (by decide) rfl)]

theorem parseValue_complete {depth n : Nat} (hn : n ≤ 2 ^ 27) :
    Complete (parseValue build n) (ValueText NumberValue depth) n := by
  induction depth generalizing n with
  | zero => exact fun _ _ h => absurd h id
  | succ depth ih =>
      intro t j h rest hrest hlen stack
      obtain ⟨n, rfl⟩ := Nat.exists_eq_succ_of_ne_zero (Nat.ne_zero_of_lt hlen)
      have ih := ih (n := n) (by omega)
      rw [parseValue]
      cases h with
      | null =>
          have hrun : parseNull build ("null".toList ++ rest) stack = .ok (rest, .null :: stack) :=
            parseLiteral_append (build_null stack) rest
          exact hrun
      | true =>
          have hrun : parseTrue build ("true".toList ++ rest) stack = .ok (rest, .bool true :: stack) :=
            parseLiteral_append (build_bool true stack) rest
          exact hrun
      | false =>
          have hrun : parseFalse build ("false".toList ++ rest) stack = .ok (rest, .bool false :: stack) :=
            parseLiteral_append (build_bool false stack) rest
          exact hrun
      | @number t m value =>
          rw [List.length_append] at hlen
          obtain ⟨e, hann, hrun⟩ := parseNumber_of_value value (by omega) hrest
          have hevent : parseValue build (n + 1) (_ ++ rest) stack = _ :=
            parseValue_number (valid_of_value value).whole rest stack
          rw [parseValue] at hevent
          rw [hevent]
          simp only [parseNumberEvent, hrun, ok_bind, emit_build (build_announced hann stack)]
      | @string t s text =>
          have hsplit : '"' :: (t ++ ['"']) ++ rest = '"' :: (t ++ '"' :: rest) := by simp
          rw [hsplit]
          exact parseString_append false text rest stack
      | @emptyArray ws space =>
          have hsplit : '[' :: (ws ++ [']']) ++ rest = '[' :: (ws ++ ']' :: rest) := by simp
          rw [hsplit]
          exact parseArray_empty space rest stack
      | @array ws t items space elements =>
          have hsplit : '[' :: (ws ++ (t ++ [']'])) ++ rest = '[' :: (ws ++ (t ++ ']' :: rest)) := by
            simp
          rw [hsplit] at hlen ⊢
          exact parseArray_of_text ih (fun _ _ => starts_of_value) (by omega) space elements rest
            (Nat.lt_of_succ_lt_succ hlen) stack
      | @emptyObject ws space =>
          have hsplit : '{' :: (ws ++ ['}']) ++ rest = '{' :: (ws ++ '}' :: rest) := by simp
          rw [hsplit]
          exact parseObject_empty space rest stack
      | @object ws t members space elements =>
          have hsplit : '{' :: (ws ++ (t ++ ['}'])) ++ rest = '{' :: (ws ++ (t ++ '}' :: rest)) := by
            simp
          rw [hsplit] at hlen ⊢
          exact parseObject_of_text ih (fun _ _ => starts_of_value) (by omega) space elements rest
            (Nat.lt_of_succ_lt_succ hlen) stack

theorem parse_cases {text : Text} (hnul : NulFree text) (hlen : text.length + 1 ≤ 2 ^ 27) :
    (∃ j, JsonText text j ∧ parse build text [] = .ok [j]) ∨
      ∃ e, parse build text [] = .error e ∧ Refused text e := by
  obtain ⟨ws, hws, hsplit⟩ := skipWhitespace_split text
  have hsuffix := suffix_skipWhitespace text
  have hle := hsuffix.length_le
  rw [parse]
  split_ifs with hempty
  · exact .inr ⟨_, rfl, .documentEmpty, _, rfl, hsuffix⟩
  · obtain ⟨t, j, rest, ht, hvalue, hrun⟩ | ⟨e, hrun, he⟩ :=
      parseValue_sound hlen (skipWhitespace text) (by omega) []
    · obtain ⟨ws', hws', hsplit'⟩ := skipWhitespace_split rest
      simp only [hrun, ok_bind]
      by_cases hend : peek (skipWhitespace rest) = nul
      · have hnil : skipWhitespace rest = [] := by
          cases hs : skipWhitespace rest with
          | nil => rfl
          | cons c u =>
              rw [hs, peek_cons] at hend
              have hmem : c ∈ text := by
                rw [hsplit, ht, hsplit', hs]
                simp
              exact absurd (hend ▸ hmem) hnul
        refine .inl ⟨j, ⟨_, ws, t, ws', ?_, hws, hvalue, hws'⟩, if_pos hend⟩
        rw [hnil, List.append_nil] at hsplit'
        rw [← hsplit', ← ht]
        exact hsplit
      · refine .inr ⟨_, if_neg hend, .documentRootNotSingular, _, rfl, ?_⟩
        exact (suffix_skipWhitespace rest).trans ((ht ▸ List.suffix_append t rest).trans hsuffix)
    · exact .inr ⟨e, by rw [hrun, error_bind], he.of_suffix hsuffix⟩

theorem parse_of_text {text : Text} {j : Value} (h : JsonText text j)
    (hlen : text.length + 1 ≤ 2 ^ 27) : parse build text [] = .ok [j] := by
  obtain ⟨depth, ws, t, ws', rfl, hws, hvalue, hws'⟩ := h
  have hstarts := starts_of_value hvalue
  have hskip : skipWhitespace (ws ++ (t ++ ws')) = t ++ ws' :=
    skipWhitespace_append hws (isBlank_of_starts hstarts ws')
  have hne : peek (t ++ ws') ≠ nul := peek_ne_of_starts hstarts (by decide) ws'
  have hend : NoContinuation ws' := by
    have h := noContinuation_blank hws' noContinuation_nil
    rwa [List.append_nil] at h
  have hshort : (t ++ ws').length < (ws ++ (t ++ ws')).length + 1 := by
    simp only [List.length_append]
    omega
  have hrun := parseValue_complete hlen t j hvalue ws' hend hshort []
  have hskip' : skipWhitespace ws' = [] := by
    have h : skipWhitespace (ws' ++ []) = [] := skipWhitespace_append hws' rfl
    rwa [List.append_nil] at h
  rw [parse, hskip]
  simp only [if_neg hne, hrun, ok_bind, hskip', peek_nil, if_true]

theorem parse_behind {text : Text} {j : Value} (h : JsonText text j) {c : Char} {rest : Text}
    (hc : NoContinuation (c :: rest)) (hblank : isBlank c = false) (hne : c ≠ nul)
    (hlen : (text ++ c :: rest).length + 1 ≤ 2 ^ 27) :
    parse build (text ++ c :: rest) [] = .error (.error .documentRootNotSingular (c :: rest)) := by
  obtain ⟨depth, ws, t, ws', rfl, hws, hvalue, hws'⟩ := h
  have hsplit : ws ++ (t ++ ws') ++ c :: rest = ws ++ (t ++ (ws' ++ c :: rest)) := by simp
  rw [hsplit] at hlen ⊢
  have hstarts := starts_of_value hvalue
  have hskip : skipWhitespace (ws ++ (t ++ (ws' ++ c :: rest))) = t ++ (ws' ++ c :: rest) :=
    skipWhitespace_append hws (isBlank_of_starts hstarts _)
  have hstart : peek (t ++ (ws' ++ c :: rest)) ≠ nul := peek_ne_of_starts hstarts (by decide) _
  have hshort : (t ++ (ws' ++ c :: rest)).length < (ws ++ (t ++ (ws' ++ c :: rest))).length + 1 := by
    simp only [List.length_append]
    omega
  have hrun := parseValue_complete hlen t j hvalue _ (noContinuation_blank hws' hc) hshort []
  have hskip' : skipWhitespace (ws' ++ c :: rest) = c :: rest := skipWhitespace_append hws' hblank
  rw [parse, hskip]
  simp only [if_neg hstart, hrun, ok_bind, hskip', peek_cons, if_neg hne]

end Values

end SchemaCodeGen.JsonReader
