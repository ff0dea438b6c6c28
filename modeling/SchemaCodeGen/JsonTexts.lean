import SchemaCodeGen.JsonGrammar
import SchemaCodeGen.JsonWriter

namespace SchemaCodeGen.JsonTexts

open CString Decimal Floats Json Fallible Sax JsonStreams JsonNumbers JsonReader JsonWriter
  JsonGrammar

section Documents

/-- `rapidjson::Document`, with the error and the offset of a parse that failed. -/
structure Document where
  value : Value := .null
  parseResult : Option (ParseErrorCode × Nat) := none

/-- The emitted `serializeDocument`, which ignores whether all events were taken. -/
def serializeDocument (d : Value) : Step Text := do
  let (_, writer) ← accept write d {}
  .ok (cstr writer.os)

def deserializeDocument (input : Text) : Step Document :=
  match parse build (cstr input) [] with
  | .ok [value] => .ok { value }
  | .ok _ => .error .assertion
  | .error (.error code rest) =>
      .ok { parseResult := some (code, (cstr input).length - rest.length) }
  | .error e => .error e

end Documents

section Strings

theorem hex_control : ∀ n < 32, hexFold 0 ['0', '0', hexDigits.getD (n >>> 4) nul,
    hexDigits.getD (n &&& 15) nul] = some n ∧ utf8 n = [Char.ofNat n] := by decide

theorem writeChar_control : ∀ n < 32,
    (JsonStreams.escape (JsonWriter.escape (Char.ofNat n)) = Char.ofNat n ∧ Char.ofNat n ≠ nul ∧
        writeChar (Char.ofNat n) = ['\\', JsonWriter.escape (Char.ofNat n)]) ∨
      writeChar (Char.ofNat n) =
        ['\\', 'u', '0', '0', hexDigits.getD (n >>> 4) nul, hexDigits.getD (n &&& 15) nul] := by
  decide

theorem writeChar_piece (c : Char) : Piece (writeChar c) [c] := by
  by_cases hquote : c = '"'
  · subst hquote
    exact .escaped (e := '"') (by decide)
  by_cases hslash : c = '\\'
  · subst hslash
    exact .escaped (e := '\\') (by decide)
  by_cases hcontrol : c.toNat < 32
  · obtain ⟨n, hn, rfl⟩ : ∃ n < 32, c = Char.ofNat n :=
      ⟨c.toNat, hcontrol, (Char.ofNat_toNat c).symm⟩
    obtain ⟨hback, hne, hwrite⟩ | hwrite := writeChar_control n hn
    · have hpiece := Piece.escaped (e := JsonWriter.escape (Char.ofNat n)) (by rw [hback]; exact hne)
      rw [hback] at hpiece
      rwa [hwrite]
    · obtain ⟨hfold, hutf⟩ := hex_control n hn
      have hsingle : ¬ IsHighSurrogate n := fun h => absurd h.1 (by omega)
      have hpiece := Piece.unicode ⟨rfl, hfold⟩ hsingle
      rw [hutf] at hpiece
      rwa [hwrite]
  · have hescape : JsonWriter.escape c = nul := by
      rw [JsonWriter.escape, if_neg hquote, if_neg hslash, if_neg (by omega), if_neg (by omega),
        if_neg (by omega), if_neg (by omega), if_neg (by omega), if_neg (by omega)]
    rw [writeChar, if_pos hescape]
    exact .plain hquote hslash (by omega)

theorem stringText_write (s : Text) : StringText (s.flatMap writeChar) s := by
  induction s with
  | nil => exact .nil
  | cons c s ih =>
      have h := StringText.cons (writeChar_piece c) ih
      rwa [← List.flatMap_cons, List.singleton_append] at h

end Strings

section Numbers

def integerText (n : Int) : NumberText := ⟨decide (n < 0), Nat.toDigits 10 n.natAbs, none, none⟩

theorem intText_integerText (n : Int) : (integerText n).text = intText n := by
  rw [Itoa.intText_eq, NumberText.text, integerText]
  simp [fractionText, exponentText]

theorem numberValue_int {n : Int} (h : -2 ^ 63 ≤ n ∧ n < 2 ^ 64) :
    NumberValue (integerText n) (.int n) := by
  have hvalue : valueFrom 0 (Nat.toDigits 10 n.natAbs) = n.natAbs := digitsValue_toDigits _
  have hvalid : (integerText n).Valid := by
    refine ⟨wholeText_toDigits _, fun _ h => absurd h ?_, fun _ h => absurd h ?_⟩ <;> simp [integerText]
  have hfits : (integerText n).Integral := by
    refine ⟨rfl, rfl, ?_⟩
    rw [integerText, hvalue]
    by_cases hneg : n < 0 <;> simp only [most64, hneg, decide_true, decide_false] <;> simp <;> omega
  have hself : (integerText n).value = n := by
    rw [NumberText.value, integerText, hvalue]
    by_cases hneg : n < 0
    · rw [decide_eq_true hneg, if_pos rfl]
      omega
    · rw [decide_eq_false hneg, if_neg Bool.false_ne_true]
      omega
  have h := NumberValue.int hvalid hfits
  rwa [hself] at h

end Numbers

section Render

/-- The text of a double is a number that is read as this double. -/
def ReadsBack (x : Ieee) : Prop :=
  ∃ t : NumberText, doubleText x = t.text ∧ NumberValue t (.double x)

theorem readsBack_of_short {x : Ieee} {t : NumberText} (htext : doubleText x = t.text) (ht : t.Valid)
    (hreal : ¬ t.Integral) (hlen : t.text.length < 2 ^ 27) (hs : ShortNumbers.Short t)
    (hround : t.rounded = x) : ReadsBack x := by
  have hread := ShortNumbers.parseNumber_short ht hreal hlen hs (NumberText.ends ht noContinuation_nil)
  rw [List.append_nil, hround] at hread
  exact ⟨t, htext, .double ht hreal hread⟩

/-- The numbers that survive the text: integers of 64 bits, and doubles that read back. -/
def Printable (n : Number) : Prop :=
  Writable n ∧ ∀ x, n = .double x → ReadsBack x

theorem form_number {n : Number} (h : Printable n) (V : Text → Value → Prop) :
    Form NumberValue V (render (.number n)) (.number n) := by
  cases n with
  | int n =>
      rw [render, ← intText_integerText]
      exact .number (numberValue_int h.1)
  | double x =>
      obtain ⟨t, ht, hvalue⟩ := h.2 x rfl
      rw [render, ht]
      exact .number hvalue

theorem separated_mono {α : Type} {P Q : Text → α → Prop} {n : Nat}
    (hPQ : ∀ t x, t.length ≤ n → P t x → Q t x) {t : Text} {xs : List α} (h : Separated P t xs)
    (hn : t.length ≤ n) : Separated Q t xs := by
  induction h with
  | last head => exact .last (hPQ _ _ hn head)
  | cons head space _ ih =>
      simp only [List.length_append, List.length_cons] at hn
      exact .cons (hPQ _ _ (by omega) head) space (ih (by omega))

theorem form_mono {N N' : NumberText → Number → Prop} {V W : Text → Value → Prop} {n : Nat}
    (hN : ∀ t m, t.text.length ≤ n → N t m → N' t m) (hVW : ∀ t j, t.length ≤ n → V t j → W t j)
    {t : Text} {j : Value} (h : Form N V t j) (hn : t.length ≤ n) : Form N' W t j := by
  cases h with
  | null => exact .null
  | true => exact .true
  | false => exact .false
  | number value => exact .number (hN _ _ hn value)
  | string text => exact .string text
  | emptyArray space => exact .emptyArray space
  | array space elements =>
      simp only [List.length_append, List.length_cons] at hn
      refine .array space (separated_mono (n := n) (fun t j ht ⟨hv, hw⟩ => ?_) elements (by omega))
      rw [List.length_append] at ht
      exact ⟨hVW _ _ (by omega) hv, hw⟩
  | emptyObject space => exact .emptyObject space
  | object space elements =>
      simp only [List.length_append, List.length_cons] at hn
      refine .object space (separated_mono (n := n)
        (fun t e ht ⟨hk, hw, hw', hv, hw''⟩ => ?_) elements (by omega))
      simp only [List.length_append, List.length_cons] at ht
      exact ⟨hk, hw, hw', hVW _ _ (by omega) hv, hw''⟩

theorem valueText_mono {N : NumberText → Number → Prop} {d d' : Nat} (h : d ≤ d') {t : Text} {j : Value}
    (hv : ValueText N d t j) : ValueText N d' t j := by
  induction d generalizing d' t j with
  | zero => exact absurd hv id
  | succ d ih =>
      obtain ⟨d', rfl⟩ := Nat.exists_eq_add_of_le' (Nat.lt_of_lt_of_le (Nat.zero_lt_succ d) h)
      exact form_mono (fun _ _ _ => id) (fun _ _ _ => ih (by omega)) hv le_rfl

theorem valueText_numeral {d n : Nat} (hn : n < 2 ^ 27) {t : Text} {j : Value}
    (h : ValueText NumberValue d t j) (ht : t.length ≤ n) : ValueText Numeral d t j := by
  induction d generalizing t j with
  | zero => exact absurd h id
  | succ d ih => exact form_mono (fun _ _ hlen => numeral_of_value (by omega)) (fun _ _ ht h => ih h ht) h ht

theorem textOf_numeral {text : Text} {j : Value} (h : JsonText text j) (hlen : text.length < 2 ^ 27) :
    TextOf Numeral text j := by
  obtain ⟨depth, ws, t, ws', rfl, hws, hvalue, hws'⟩ := h
  simp only [List.length_append] at hlen
  exact ⟨depth, ws, t, ws', rfl, hws, valueText_numeral hlen hvalue (by omega), hws'⟩

theorem separated_commas {α : Type} {V : Text → α → Prop} {x : α} {xs : List α} {f : α → Text}
    (h : ∀ y ∈ x :: xs, V (f y) y) : Separated V (commas ((x :: xs).map f)) (x :: xs) := by
  induction xs generalizing x with
  | nil =>
      rw [List.forall_mem_cons] at h
      simpa [commas] using Separated.last h.1
  | cons y xs ih =>
      rw [List.forall_mem_cons] at h
      have htail := ih h.2
      have h := Separated.cons h.1 blank_nil htail
      simpa [commas] using h

theorem renderItems_eq (items : List Value) : renderItems items = items.map render := by
  induction items with
  | nil => rfl
  | cons j items ih => rw [renderItems, ih, List.map_cons]

theorem renderMembers_eq (members : Members) : renderMembers members =
    members.map fun e => writeString e.1 ++ ':' :: render e.2 := by
  induction members with
  | nil => rfl
  | cons e members ih =>
      obtain ⟨name, j⟩ := e
      rw [renderMembers, ih, List.map_cons]

theorem valueText_render {j : Value} (h : ∀ n ∈ numbers j, Printable n) :
    ValueText NumberValue (j.depth + 1) (render j) j := by
  induction j using value_induction with
  | null => exact .null
  | bool b => cases b <;> [exact .false; exact .true]
  | number n => exact form_number (h n (List.mem_singleton.mpr rfl)) _
  | string s => exact .string (stringText_write s)
  | array items ih =>
      rw [render, renderItems_eq]
      cases items with
      | nil => exact .emptyArray blank_nil
      | cons j items =>
          refine .array blank_nil (separated_commas fun i hi => ?_)
          have hv := ih i hi fun n hn => h n (numbers_item hi hn)
          have hdepth : i.depth + 1 ≤ (Value.array (j :: items)).depth := Value.depth_item hi
          have hvalue := Element.intro (valueText_mono hdepth hv) blank_nil
          rwa [List.append_nil] at hvalue
  | object members ih =>
      rw [render, renderMembers_eq]
      cases members with
      | nil => exact .emptyObject blank_nil
      | cons e members =>
          let text : Text × Value → Text := fun e => writeString e.1 ++ ':' :: render e.2
          refine .object blank_nil (separated_commas (f := text) fun e' he => ?_)
          have hv := ih e' he fun n hn => h n (numbers_member he hn)
          have hdepth : e'.2.depth + 1 ≤ (Value.object (e :: members)).depth :=
            Nat.lt_succ_of_le (Value.depth_le_depthMembers he)
          have hmember := Member.intro (stringText_write e'.1) blank_nil blank_nil
            (valueText_mono hdepth hv) blank_nil
          simpa [text, writeString] using hmember

end Render

section Serialized

theorem nulFree_writeChar (c : Char) : NulFree (writeChar c) := by
  by_cases hcontrol : c.toNat < 32
  · have hall : ∀ n < 32, NulFree (writeChar (Char.ofNat n)) := by decide
    rw [← Char.ofNat_toNat c]
    exact hall c.toNat hcontrol
  · rw [writeChar]
    have hne : nul ≠ c := by
      rintro rfl
      exact hcontrol (by decide)
    by_cases hescape : JsonWriter.escape c = nul
    · rw [if_pos hescape]
      exact fun hmem => hne (List.mem_singleton.mp hmem)
    · obtain rfl | rfl : c = '"' ∨ c = '\\' := by
        by_contra h
        rw [not_or] at h
        refine hescape ?_
        rw [JsonWriter.escape, if_neg h.1, if_neg h.2, if_neg (by omega), if_neg (by omega),
          if_neg (by omega), if_neg (by omega), if_neg (by omega), if_neg (by omega)]
      · decide
      · decide

theorem nulFree_append {s t : Text} (hs : NulFree s) (ht : NulFree t) : NulFree (s ++ t) :=
  fun h => (List.mem_append.mp h).elim hs ht

theorem nulFree_cons {c : Char} {s : Text} (hc : nul ≠ c) (hs : NulFree s) : NulFree (c :: s) :=
  fun h => (List.mem_cons.mp h).elim hc hs

theorem nulFree_writeString (s : Text) : NulFree (writeString s) := by
  refine nulFree_cons (by decide) (nulFree_append ?_ (by decide))
  intro hmem
  obtain ⟨c, _, hc⟩ := List.mem_flatMap.mp hmem
  exact nulFree_writeChar c hc

theorem nulFree_commas {ts : List Text} (h : ∀ t ∈ ts, NulFree t) : NulFree (commas ts) := by
  cases ts with
  | nil => exact List.not_mem_nil
  | cons t ts =>
      rw [List.forall_mem_cons] at h
      refine nulFree_append h.1 fun hmem => ?_
      obtain ⟨u, hu, hmem⟩ := List.mem_flatMap.mp hmem
      exact nulFree_cons (by decide) (h.2 u hu) hmem

theorem nulFree_digits {ds : Text} (h : AllDigits ds) : NulFree ds :=
  fun hmem => absurd (h nul hmem) (by decide)

theorem nulFree_numberText {t : NumberText} (h : t.Valid) : NulFree t.text := by
  have hwhole : NulFree t.whole := by
    obtain hzero | ⟨c, ds, hds, _, hall⟩ := h.whole
    · rw [hzero]
      decide
    · rw [hds]
      exact nulFree_digits hall
  have hfraction : NulFree (fractionText t.fraction) := by
    cases hf : t.fraction with
    | none => exact List.not_mem_nil
    | some ds => exact nulFree_cons (by decide) (nulFree_digits (h.fraction ds hf).2)
  have hexponent : NulFree (exponentText t.exponent) := by
    cases hx : t.exponent with
    | none => exact List.not_mem_nil
    | some x =>
        obtain ⟨hmark, hsign, _, hall⟩ := h.exponent x hx
        refine nulFree_cons ?_ (nulFree_append ?_ (nulFree_digits hall))
        · obtain hmark | hmark := hmark <;> rw [hmark] <;> decide
        · obtain hsign | hsign | hsign := hsign <;> rw [hsign] <;> decide
  refine nulFree_append ?_ (nulFree_append hwhole (nulFree_append hfraction hexponent))
  split_ifs <;> decide

theorem nulFree_render {j : Value} (h : ∀ n ∈ numbers j, Writable n) :
    NulFree (render j) := by
  induction j using value_induction with
  | null => exact (by decide : NulFree "null".toList)
  | bool b =>
      cases b with
      | true => exact (by decide : NulFree "true".toList)
      | false => exact (by decide : NulFree "false".toList)
  | number n =>
      cases n with
      | int n => exact nulFree_intText n
      | double x =>
          obtain ⟨hfinite, hx⟩ := h _ (List.mem_singleton.mpr rfl)
          obtain ⟨t, _, htext, hvalid, _⟩ := doubleText_number hfinite hx
          rw [render, htext]
          exact nulFree_numberText hvalid
  | string s => exact nulFree_writeString s
  | array items ih =>
      rw [render, renderItems_eq]
      refine nulFree_cons (by decide) (nulFree_append (nulFree_commas ?_) (by decide))
      rw [List.forall_mem_map]
      exact fun i hi => ih i hi fun n hn => h n (numbers_item hi hn)
  | object members ih =>
      rw [render, renderMembers_eq]
      refine nulFree_cons (by decide) (nulFree_append (nulFree_commas ?_) (by decide))
      rw [List.forall_mem_map]
      exact fun e he => nulFree_append (nulFree_writeString e.1)
        (nulFree_cons (by decide) (ih e he fun n hn => h n (numbers_member he hn)))

theorem startValue_root (p : Bool) : startValue p {} = .ok { hasRoot := true } := rfl

theorem accept_write {j : Value} (hn : ∀ n ∈ numbers j, Writable n) {w w1 : Writer}
    (hs : startValue j.isString w = .ok w1) :
    accept write j w = .ok (true, w1.put (render j)) :=
  accept_of_feed (writes hn w w1 hs)

theorem serializeDocument_render {j : Value} (hn : ∀ n ∈ numbers j, Writable n) :
    serializeDocument j = .ok (render j) := by
  rw [serializeDocument, accept_write hn (startValue_root _), ok_bind]
  simp only [Writer.put, List.nil_append, cstr_of_nulFree (nulFree_render hn)]

end Serialized

section Truncated

mutual

/-- The document with a null for each double that has no text. -/
def withNulls : Value → Value
  | .number (.double x) => if x.IsFinite then .number (.double x) else .null
  | .array items => .array (withNullsItems items)
  | .object members => .object (withNullsMembers members)
  | .null => .null
  | .bool b => .bool b
  | .number (.int n) => .number (.int n)
  | .string s => .string s

def withNullsItems : List Value → List Value
  | [] => []
  | j :: items => withNulls j :: withNullsItems items

def withNullsMembers : List (Text × Value) → List (Text × Value)
  | [] => []
  | (name, j) :: members => (name, withNulls j) :: withNullsMembers members

end

def Bounded : Number → Prop
  | .int n => -2 ^ 63 ≤ n ∧ n < 2 ^ 64
  | .double x => binary64.Holds x

def AllFinite (j : Value) : Prop := ∀ x, .double x ∈ numbers j → x.IsFinite

/-- The writer stops in front of a double without text, with what it has written until then. -/
def Truncates (j : Value) : Prop :=
  ∀ w w1, startValue j.isString w = .ok w1 → ∃ w' rest,
    accept write j w = .ok (false, w') ∧
      w1.os ++ render (withNulls j) = w'.os ++ 'n' :: rest

theorem writable_of_finite {n : Number} (h : Bounded n) (hfin : ∀ x, n = .double x → x.IsFinite) :
    Writable n := by
  cases n with
  | int n => exact h
  | double x => exact ⟨hfin x rfl, h⟩

theorem withNulls_of_finite {j : Value} (h : AllFinite j) : withNulls j = j := by
  induction j using value_induction with
  | null | bool _ | string _ => rfl
  | number n =>
      cases n with
      | int n => rfl
      | double x => exact if_pos (h x (List.mem_singleton.mpr rfl))
  | array items ih =>
      have hitems : withNullsItems items = items := by
        have hj : ∀ j ∈ items, withNulls j = j := fun j hj => ih j hj fun x hx => h x (numbers_item hj hx)
        clear ih h
        induction items with
        | nil => rfl
        | cons j items ih =>
            rw [List.forall_mem_cons] at hj
            rw [withNullsItems, hj.1, ih hj.2]
      rw [withNulls, hitems]
  | object members ih =>
      have hmembers : withNullsMembers members = members := by
        have hj : ∀ e ∈ members, withNulls e.2 = e.2 := fun e he =>
          ih e he fun x hx => h x (numbers_member he hx)
        clear ih h
        induction members with
        | nil => rfl
        | cons e members ih =>
            rw [List.forall_mem_cons] at hj
            obtain ⟨name, j⟩ := e
            rw [withNullsMembers, hj.1, ih hj.2]
      rw [withNulls, hmembers]

/-- What becomes of the items, one of which is cut off. -/
theorem truncates_items {items : List Value} (hn : ∀ n ∈ numbersItems items, Bounded n)
    (hcut : ∃ j ∈ items, ¬ AllFinite j)
    (hj : ∀ j ∈ items, ¬ AllFinite j → (∀ n ∈ numbers j, Bounded n) → Truncates j)
    (os : Text) (k : Nat) (levels : List Level) (root : Bool) : ∃ w' rest,
    acceptItems write items ⟨os, ⟨k, true⟩ :: levels, root⟩ = .ok (false, w') ∧
      os ++ separated k (renderItems (withNullsItems items)) = w'.os ++ 'n' :: rest := by
  induction items generalizing os k with
  | nil =>
      obtain ⟨_, hmem, _⟩ := hcut
      exact absurd hmem List.not_mem_nil
  | cons j items ih =>
      rw [List.forall_mem_cons] at hj
      rw [numbersItems, List.forall_mem_append] at hn
      rw [withNullsItems, renderItems, separated_cons]
      have hstart := startValue_item j.isString os k levels root
      by_cases hfin : AllFinite j
      · have hw : ∀ n ∈ numbers j, Writable n := fun n h =>
          writable_of_finite (hn.1 n h) fun x hx => hfin x (hx ▸ h)
        have hcut' : ∃ j ∈ items, ¬ AllFinite j := by
          obtain ⟨i, hi, hcut⟩ := hcut
          obtain rfl | hi := List.mem_cons.mp hi
          · exact absurd hfin hcut
          · exact ⟨i, hi, hcut⟩
        obtain ⟨w', rest, hrun, hos⟩ := ih hn.2 hcut' hj.2
          (os ++ (if k = 0 then [] else [',']) ++ render j) (k + 1)
        refine ⟨w', rest, ?_, ?_⟩
        · simp only [acceptItems, accept_write hw hstart, ok_bind, Writer.put, Bool.not_true,
            Bool.false_eq_true, if_false]
          exact hrun
        · rw [withNulls_of_finite hfin, ← hos]
          simp only [List.append_assoc]
      · obtain ⟨w', rest, hrun, hos⟩ := hj.1 hfin hn.1 _ _ hstart
        refine ⟨w', rest ++ separated (k + 1) (renderItems (withNullsItems items)), ?_, ?_⟩
        · simp only [acceptItems, hrun, ok_bind, Bool.not_false, if_true]
        · have h := congrArg (· ++ separated (k + 1) (renderItems (withNullsItems items))) hos
          simpa only [List.append_assoc, List.cons_append] using h

theorem truncates_members {members : Members} (hn : ∀ n ∈ numbersMembers members, Bounded n)
    (hcut : ∃ e ∈ members, ¬ AllFinite e.2)
    (hj : ∀ e ∈ members, ¬ AllFinite e.2 → (∀ n ∈ numbers e.2, Bounded n) → Truncates e.2)
    (os : Text) (k : Nat) (levels : List Level) (root : Bool) : ∃ w' rest,
    acceptMembers write members ⟨os, ⟨2 * k, false⟩ :: levels, root⟩ = .ok (false, w') ∧
      os ++ separated k (renderMembers (withNullsMembers members)) = w'.os ++ 'n' :: rest := by
  induction members generalizing os k with
  | nil =>
      obtain ⟨_, hmem, _⟩ := hcut
      exact absurd hmem List.not_mem_nil
  | cons e members ih =>
      obtain ⟨name, j⟩ := e
      rw [List.forall_mem_cons] at hj
      rw [numbersMembers, List.forall_mem_append] at hn
      rw [withNullsMembers, renderMembers, separated_cons]
      have hkey : write (.key name) _ = _ := write_key (startValue_key os k levels root)
      have hstart := startValue_member j.isString
        (os ++ (if k = 0 then [] else [',']) ++ writeString name) k levels root
      by_cases hfin : AllFinite j
      · have hw : ∀ n ∈ numbers j, Writable n := fun n h =>
          writable_of_finite (hn.1 n h) fun x hx => hfin x (hx ▸ h)
        have hcut' : ∃ e ∈ members, ¬ AllFinite e.2 := by
          obtain ⟨e, he, hcut⟩ := hcut
          obtain rfl | he := List.mem_cons.mp he
          · exact absurd hfin hcut
          · exact ⟨e, he, hcut⟩
        obtain ⟨w', rest, hrun, hos⟩ := ih hn.2 hcut' hj.2
          (os ++ (if k = 0 then [] else [',']) ++ writeString name ++ [':'] ++ render j) (k + 1)
        refine ⟨w', rest, ?_, ?_⟩
        · simp only [acceptMembers, hkey, accept_write hw hstart, ok_bind, Writer.put, Bool.not_true,
            Bool.false_eq_true, if_false]
          exact hrun
        · rw [withNulls_of_finite hfin, ← hos]
          simp only [List.append_assoc, List.singleton_append]
      · obtain ⟨w', rest, hrun, hos⟩ := hj.1 hfin hn.1 _ _ hstart
        refine ⟨w', rest ++ separated (k + 1) (renderMembers (withNullsMembers members)), ?_, ?_⟩
        · simp only [acceptMembers, hkey, hrun, ok_bind, Writer.put, Bool.not_true, Bool.not_false,
            Bool.false_eq_true, if_false, if_true]
        · have h := congrArg (· ++ separated (k + 1) (renderMembers (withNullsMembers members))) hos
          simpa only [List.append_assoc, List.cons_append, List.nil_append] using h

theorem truncates {j : Value} (hn : ∀ n ∈ numbers j, Bounded n) (hcut : ¬ AllFinite j) :
    Truncates j := by
  induction j using value_induction with
  | null | bool _ | string _ => exact absurd (fun x hx => absurd hx List.not_mem_nil) hcut
  | number n =>
      intro w w1 hs
      cases n with
      | int n => exact absurd (fun x hx => absurd (List.mem_singleton.mp hx) (by simp)) hcut
      | double x =>
          have hx : ¬ x.IsFinite := fun hx =>
            hcut fun y hy => by rwa [Number.double.inj (List.mem_singleton.mp hy)]
          have hnull : withNulls (.number (.double x)) = .null := if_neg hx
          refine ⟨w1, "ull".toList, ?_, by rw [hnull]; rfl⟩
          have hwrite : write (acceptNumber (.double x)) w = writeDouble w1 x := by
            rw [acceptNumber, write, show startValue false w = .ok w1 from hs, ok_bind]
          rw [accept, hwrite]
          cases x with
          | nan | inf _ => rfl
          | negZero | fin _ => exact absurd trivial hx
  | array items ih =>
      intro w w1 hs
      have hcut' : ∃ j ∈ items, ¬ AllFinite j := by
        by_contra h
        refine hcut fun x hx => ?_
        obtain ⟨j, hj, hx⟩ := mem_numbersItems.mp hx
        exact not_not.mp (fun hfin => h ⟨j, hj, fun hall => hfin (hall x hx)⟩)
      have hstart : write .startArray w =
          .ok (true, ⟨w1.os ++ ['['], ⟨0, true⟩ :: w1.levels, w1.hasRoot⟩) := by
        rw [write, startContainer, show startValue false w = .ok w1 from hs]
        rfl
      obtain ⟨w', rest, hrun, hos⟩ := truncates_items hn hcut'
        (fun j hj hfin hb => ih j hj hb hfin) (w1.os ++ ['[']) 0 w1.levels w1.hasRoot
      refine ⟨w', rest ++ [']'], ?_, ?_⟩
      · simp only [accept, hstart, ok_bind, hrun, Bool.not_true, Bool.not_false, Bool.false_eq_true,
          if_false, if_true]
      · have h := congrArg (· ++ [']']) hos
        simpa only [withNulls, render, separated, if_true, List.append_assoc, List.cons_append,
          List.nil_append] using h
  | object members ih =>
      intro w w1 hs
      have hcut' : ∃ e ∈ members, ¬ AllFinite e.2 := by
        by_contra h
        refine hcut fun x hx => ?_
        obtain ⟨e, he, hx⟩ := mem_numbersMembers.mp hx
        exact not_not.mp (fun hfin => h ⟨e, he, fun hall => hfin (hall x hx)⟩)
      have hstart : write .startObject w =
          .ok (true, ⟨w1.os ++ ['{'], ⟨2 * 0, false⟩ :: w1.levels, w1.hasRoot⟩) := by
        rw [write, startContainer, show startValue false w = .ok w1 from hs]
        rfl
      obtain ⟨w', rest, hrun, hos⟩ := truncates_members hn hcut'
        (fun e he hfin hb => ih e he hb hfin) (w1.os ++ ['{']) 0 w1.levels w1.hasRoot
      refine ⟨w', rest ++ ['}'], ?_, ?_⟩
      · simp only [accept, hstart, ok_bind, hrun, Bool.not_true, Bool.not_false, Bool.false_eq_true,
          if_false, if_true]
      · have h := congrArg (· ++ ['}']) hos
        simpa only [withNulls, render, separated, if_true, List.append_assoc, List.cons_append,
          List.nil_append] using h

theorem mem_numbers_withNulls {j : Value} {n : Number} (h : n ∈ numbers (withNulls j)) :
    n ∈ numbers j ∧ ∀ x, n = .double x → x.IsFinite := by
  induction j using value_induction with
  | null | bool _ | string _ => exact absurd h List.not_mem_nil
  | number m =>
      cases m with
      | int k =>
          refine ⟨h, fun x hx => ?_⟩
          rw [List.mem_singleton.mp h] at hx
          exact absurd hx (by simp)
      | double x =>
          rw [withNulls] at h
          split_ifs at h with hfin
          · refine ⟨h, fun y hy => ?_⟩
            rw [List.mem_singleton.mp h] at hy
            rwa [← Number.double.inj hy]
          · exact absurd h List.not_mem_nil
  | array items ih =>
      have hitems : ∃ j ∈ items, n ∈ numbers (withNulls j) := by
        rw [withNulls, numbers] at h
        clear ih
        induction items with
        | nil => exact absurd h List.not_mem_nil
        | cons j items ih =>
            rw [withNullsItems, numbersItems, List.mem_append] at h
            rw [List.exists_mem_cons_iff]
            exact h.imp_right ih
      obtain ⟨j, hj, hn⟩ := hitems
      have h := ih j hj hn
      exact ⟨numbers_item hj h.1, h.2⟩
  | object members ih =>
      have hmembers : ∃ e ∈ members, n ∈ numbers (withNulls e.2) := by
        rw [withNulls, numbers] at h
        clear ih
        induction members with
        | nil => exact absurd h List.not_mem_nil
        | cons e members ih =>
            rw [withNullsMembers, numbersMembers, List.mem_append] at h
            rw [List.exists_mem_cons_iff]
            exact h.imp_right ih
      obtain ⟨e, he, hn⟩ := hmembers
      have h := ih e he hn
      exact ⟨numbers_member he h.1, h.2⟩

end Truncated

section Parsed

theorem deserializeDocument_text {input : Text} {j : Value} (htext : JsonText (cstr input) j)
    (hlen : (cstr input).length + 1 ≤ 2 ^ 27) : deserializeDocument input = .ok { value := j } := by
  simp only [deserializeDocument, parse_of_text htext hlen]

theorem deserializeDocument_error {input : Text} (hnone : ∀ j, ¬ JsonText (cstr input) j)
    (hlen : (cstr input).length + 1 ≤ 2 ^ 27) : ∃ code offset, offset ≤ (cstr input).length ∧
      deserializeDocument input = .ok { parseResult := some (code, offset) } := by
  obtain ⟨j, htext, _⟩ | ⟨e, hrun, code, rest, rfl, hrest⟩ := parse_cases (nulFree_cstr input) hlen
  · exact absurd htext (hnone j)
  · refine ⟨code, _, Nat.sub_le (cstr input).length rest.length, ?_⟩
    simp only [deserializeDocument, hrun]

/-- The emitted `deserializeDocument` returns a document for every input. Its value is one that
the input stands for, and an error lies inside the input and leaves a null. An input that stands
for a document is refused for a number that is too big only. -/
theorem deserializeDocument_accepts (input : Text) (hlen : (cstr input).length + 1 ≤ 2 ^ 27) :
    (∀ j, deserializeDocument input = .ok { value := j } → TextOf Numeral (cstr input) j) ∧
      (∀ j, TextOf Numeral (cstr input) j →
        (∃ i, Alike j i ∧ deserializeDocument input = .ok { value := i }) ∨
          ∃ offset, offset ≤ (cstr input).length ∧ TooBig ((cstr input).drop offset) ∧
            deserializeDocument input = .ok { parseResult := some (.numberTooBig, offset) }) ∧
      ((∀ j, ¬ TextOf Numeral (cstr input) j) → ∃ code offset, offset ≤ (cstr input).length ∧
        deserializeDocument input = .ok { parseResult := some (code, offset) }) := by
  refine ⟨fun j h => ?_, fun j h => ?_, fun h => deserializeDocument_error (fun j hj => ?_) hlen⟩
  · by_cases hdocument : ∃ i, JsonText (cstr input) i
    · obtain ⟨i, hi⟩ := hdocument
      rw [deserializeDocument_text hi hlen, Except.ok.injEq, Document.mk.injEq] at h
      rw [← h.1]
      exact textOf_numeral hi hlen
    · obtain ⟨code, offset, _, herror⟩ := deserializeDocument_error (not_exists.mp hdocument) hlen
      rw [herror, Except.ok.injEq, Document.mk.injEq] at h
      exact absurd h.2 (by simp)
  · obtain ⟨i, halike, hrun⟩ | ⟨p, hp, ⟨front, hsplit⟩, hrun⟩ := parse_answered h hlen
    · exact .inl ⟨i, halike, by simp only [deserializeDocument, hrun]⟩
    · have hoffset : (cstr input).length - p.length = front.length := by
        rw [← hsplit, List.length_append, Nat.add_sub_cancel]
      refine .inr ⟨front.length, ?_, ?_, by simp only [deserializeDocument, hrun, hoffset]⟩
      · rw [← hsplit, List.length_append]
        exact Nat.le_add_right _ _
      · rwa [← hsplit, List.drop_left]
  · exact h j (textOf_numeral hj hlen)

theorem deserializeDocument_accepts_array : deserializeDocument "[null ]".toList =
    .ok { value := .array [.null] } := by
  have hspace : Blank [' '] := fun c hc => by rw [List.mem_singleton.mp hc]; rfl
  have hvalue : ValueText Numeral 1 "null".toList .null := Form.null
  have htext : TextOf Numeral (cstr "[null ]".toList) (.array [.null]) :=
    ⟨2, [], _, [], rfl, blank_nil, .array blank_nil (.last (Element.intro hvalue hspace)), blank_nil⟩
  obtain ⟨i, halike, hrun⟩ | ⟨offset, _, htoo, _⟩ :=
    (deserializeDocument_accepts "[null ]".toList (by decide)).2.1 _ htext
  · obtain rfl : i = .array [.null] := by
      cases halike with
      | same => rfl
      | array each =>
          obtain ⟨j, rest, hnull, hnil, rfl⟩ := List.forall₂_cons_left_iff.mp each
          cases hnull
          rw [List.forall₂_nil_left_iff.mp hnil]
    exact hrun
  · obtain ⟨c, hc, hdigit⟩ := htoo.digit
    have hnone : ∀ c ∈ cstr "[null ]".toList, c.isDigit = false := by
      rw [show cstr "[null ]".toList = ['[', 'n', 'u', 'l', 'l', ' ', ']'] from rfl]
      simp only [List.forall_mem_cons]
      exact ⟨rfl, rfl, rfl, rfl, rfl, rfl, rfl, List.forall_mem_nil _⟩
    exact absurd hdigit (by rw [hnone c (List.mem_of_mem_drop hc)]; decide)

/-- A text that is a short number with a fraction or an exponent is read as the double nearest
to it. -/
theorem deserializeDocument_short {t : NumberText} (ht : t.Valid) (hreal : ¬ t.Integral)
    (hs : ShortNumbers.Short t) (hlen : t.text.length + 1 ≤ 2 ^ 27) :
    deserializeDocument t.text = .ok { value := .number (.double t.rounded) } := by
  have hread := ShortNumbers.parseNumber_short ht hreal (by omega) hs
    (NumberText.ends ht noContinuation_nil)
  rw [List.append_nil] at hread
  have hvalue : ValueText NumberValue 1 t.text (.number (.double t.rounded)) := Form.number (.double ht hreal hread)
  have hcstr : cstr t.text = t.text := cstr_of_nulFree (nulFree_numberText ht)
  have htext : JsonText (cstr t.text) (.number (.double t.rounded)) := by
    rw [hcstr]
    exact ⟨1, [], t.text, [], (List.append_nil _).symm, blank_nil, hvalue, blank_nil⟩
  exact deserializeDocument_text htext (by rwa [hcstr])

/-- A fraction and an exponent. -/
theorem deserializeDocument_short_exponent : deserializeDocument "-12.5e-3".toList =
    .ok { value := .number (.double
      (NumberText.rounded ⟨true, ['1', '2'], some ['5'], some ('e', ['-'], ['3'])⟩)) } := by
  have hvalid : NumberText.Valid ⟨true, ['1', '2'], some ['5'], some ('e', ['-'], ['3'])⟩ := by
    refine ⟨.inr ⟨'1', ['2'], rfl, by decide, ?_⟩, fun ds hds => ?_, fun x hx => ?_⟩
    · exact List.forall_mem_cons.mpr ⟨rfl, List.forall_mem_singleton.mpr rfl⟩
    · obtain rfl := Option.some.inj hds
      exact ⟨by decide, fun c hc => by rw [List.mem_singleton.mp hc]; rfl⟩
    · obtain rfl := Option.some.inj hx
      exact ⟨.inl rfl, .inr (.inr rfl), by decide, fun c hc => by rw [List.mem_singleton.mp hc]; rfl⟩
  exact deserializeDocument_short hvalid (fun h => absurd h.1 (by simp)) ⟨by decide, by decide, by decide⟩
    (by decide)

def Survives (n : Number) : Prop :=
  Bounded n ∧ ∀ x, n = .double x → x.IsFinite → ReadsBack x

theorem jsonText_render {j : Value} (h : ∀ n ∈ numbers j, Printable n) :
    JsonText (render j) j :=
  ⟨_, [], _, [], (List.append_nil _).symm, blank_nil, valueText_render h, blank_nil⟩

theorem printable_withNulls {j : Value} (hn : ∀ n ∈ numbers j, Survives n) :
    ∀ n ∈ numbers (withNulls j), Printable n := by
  intro n h
  obtain ⟨hmem, hfin⟩ := mem_numbers_withNulls h
  obtain ⟨hbounded, hreads⟩ := hn n hmem
  exact ⟨writable_of_finite hbounded hfin, fun x hx => hreads x hx (hfin x hx)⟩

/-- What is written for a document is read as this document, unless it has a double without
text: then what is written is no document. -/
theorem deserializeDocument_serializeDocument {j : Value} (hn : ∀ n ∈ numbers j, Survives n)
    (hlen : (render (withNulls j)).length + 1 ≤ 2 ^ 27) :
    ∃ text, serializeDocument j = .ok text ∧
      (AllFinite j ∧ deserializeDocument text = .ok { value := j } ∨
        ¬ AllFinite j ∧ ∃ e, deserializeDocument text = .ok { parseResult := some e }) := by
  have hprintable := printable_withNulls hn
  have hnul := nulFree_render fun n h => (hprintable n h).1
  have htext := jsonText_render hprintable
  by_cases hfin : AllFinite j
  · rw [withNulls_of_finite hfin] at hprintable hnul htext hlen
    have hparse := parse_of_text htext hlen
    refine ⟨_, serializeDocument_render fun n h => (hprintable n h).1, .inl ⟨hfin, ?_⟩⟩
    simp only [deserializeDocument, cstr_of_nulFree hnul, hparse]
  · obtain ⟨w, rest, hrun, hos⟩ :=
      truncates (fun n h => (hn n h).1) hfin {} { hasRoot := true } (startValue_root _)
    rw [List.nil_append] at hos
    rw [hos] at hlen hnul htext
    have hos : NulFree w.os := fun h => hnul (List.mem_append_left _ h)
    have hserialize : serializeDocument j = .ok w.os := by
      rw [serializeDocument, hrun, ok_bind]
      simp only [cstr_of_nulFree hos]
    -- A document in front of the null would leave it behind.
    have hnone : ∀ i, ¬ JsonText w.os i := by
      intro i hi
      have hbehind := parse_behind hi (noContinuation_cons rfl (by decide) (by decide) (by decide) rest)
        rfl (by decide) hlen
      rw [parse_of_text htext hlen] at hbehind
      exact absurd hbehind (by simp)
    have hshort : (cstr w.os).length + 1 ≤ 2 ^ 27 := by
      rw [cstr_of_nulFree hos]
      rw [List.length_append] at hlen
      omega
    rw [← cstr_of_nulFree hos] at hnone
    obtain ⟨code, offset, _, herror⟩ := deserializeDocument_error hnone hshort
    exact ⟨w.os, hserialize, .inr ⟨hfin, _, herror⟩⟩

theorem readsBack_half : ReadsBack (.fin (1 / 2)) := by
  have hvalid : NumberText.Valid ⟨false, ['0'], some ['5'], none⟩ := by
    refine ⟨.inl rfl, fun ds hds => ?_, fun e he => absurd he (by simp)⟩
    obtain rfl := Option.some.inj hds
    exact ⟨by decide, fun c hc => by rw [List.mem_singleton.mp hc]; rfl⟩
  have hmagnitude : NumberText.magnitude ⟨false, ['0'], some ['5'], none⟩ = 1 / 2 := by
    show (5 : ℚ) * (10 : ℚ) ^ (-1 : Int) = 1 / 2
    norm_num
  have hround : NumberText.rounded ⟨false, ['0'], some ['5'], none⟩ = .fin (1 / 2) := by
    rw [NumberText.rounded, hmagnitude]
    exact round_of_representable ⟨1, -1, by decide, by decide, by decide, by norm_num⟩
  exact readsBack_of_short (by decide +kernel) hvalid (fun h => absurd h.1 (by simp)) (by decide)
    ⟨by decide, by decide, by decide⟩ hround

/-- A quotation mark, a negative integer and a half. -/
theorem deserializeDocument_serializeDocument_object : ∃ text, serializeDocument (.object [(['"'],
    .array [.number (.int (-1)), .number (.double (.fin (1 / 2)))])]) = .ok text ∧
      deserializeDocument text = .ok ⟨.object [(['"'],
        .array [.number (.int (-1)), .number (.double (.fin (1 / 2)))])], none⟩ := by
  have hsurvives : ∀ n ∈ numbers (.object [(['"'],
      .array [.number (.int (-1)), .number (.double (.fin (1 / 2)))])]), Survives n := by
    intro n hn
    have hn : n = .int (-1) ∨ n = .double (.fin (1 / 2)) := by
      simpa [numbers, numbersMembers, numbersItems] using hn
    obtain rfl | rfl := hn
    · exact ⟨⟨by decide, by decide⟩, fun x hx => absurd hx (by simp)⟩
    · refine ⟨⟨1, -1, by decide, by decide, by decide, by norm_num⟩, fun x hx _ => ?_⟩
      rw [← Number.double.inj hx]
      exact readsBack_half
  obtain ⟨text, hrun, ⟨_, hback⟩ | ⟨hcut, _⟩⟩ := deserializeDocument_serializeDocument hsurvives (by decide +kernel)
  · exact ⟨text, hrun, hback⟩
  · refine absurd (fun x hx => ?_) hcut
    have hx : x = .fin (1 / 2) := by simpa [numbers, numbersMembers, numbersItems] using hx
    rw [hx]
    trivial

end Parsed

end SchemaCodeGen.JsonTexts
