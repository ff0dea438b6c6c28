import SchemaCodeGen.Dtoa

namespace SchemaCodeGen.JsonWriter

open CString Decimal Floats Itoa Json Fallible Sax JsonNumbers Dtoa

structure Level where
  valueCount : Nat := 0
  inArray : Bool

/-- The stack of levels has the innermost first. -/
structure Writer where
  os : Text := []
  levels : List Level := []
  hasRoot : Bool := false

def Writer.put (w : Writer) (t : Text) : Writer := { w with os := w.os ++ t }

def Writer.putReserved (w : Writer) (reserved : Nat) (t : Text) : Step (Bool × Writer) :=
  if t.length ≤ reserved then .ok (true, w.put t) else .error .overrun

def separator (level : Level) : Text :=
  if level.valueCount = 0 then []
  else if level.inArray then [',']
  else if level.valueCount % 2 = 0 then [','] else [':']

def startValue (isString : Bool) (w : Writer) : Step Writer :=
  match w.levels with
  | [] => if w.hasRoot then .error .assertion else .ok { w with hasRoot := true }
  | level :: levels =>
      if !level.inArray && level.valueCount % 2 == 0 && !isString then .error .assertion
      else
        .ok { w with
          os := w.os ++ separator level
          levels := { level with valueCount := level.valueCount + 1 } :: levels }

def escape (c : Char) : Char :=
  if c = '"' then '"'
  else if c = '\\' then '\\'
  else if c.toNat = 8 then 'b'
  else if c.toNat = 9 then 't'
  else if c.toNat = 10 then 'n'
  else if c.toNat = 12 then 'f'
  else if c.toNat = 13 then 'r'
  else if c.toNat < 32 then 'u'
  else nul

def hexDigits : Text := "0123456789ABCDEF".toList

def writeChar (c : Char) : Text :=
  if escape c = nul then [c]
  else if escape c = 'u' then
    ['\\', 'u', '0', '0', hexDigits.getD (c.toNat >>> 4) nul, hexDigits.getD (c.toNat &&& 15) nul]
  else ['\\', escape c]

/-- The reserve of `2 + length * 6` bytes in front has 32 bits and does not wrap below `2 ^ 29`. -/
def writeString (s : Text) : Text := '"' :: (s.flatMap writeChar ++ ['"'])

def endContainer (inArray : Bool) (w : Writer) (bracket : Char) : Step (Bool × Writer) :=
  match w.levels with
  | [] => .error .assertion
  | level :: levels =>
      if level.inArray != inArray then .error .assertion
      else if !inArray && level.valueCount % 2 != 0 then .error .assertion
      else .ok (true, { w with os := w.os ++ [bracket], levels := levels })

def startContainer (inArray : Bool) (w : Writer) (bracket : Char) : Step (Bool × Writer) := do
  let w ← startValue false w
  .ok (true, { w with os := w.os ++ [bracket], levels := ⟨0, inArray⟩ :: w.levels })

def writeDouble (w : Writer) (x : Ieee) : Step (Bool × Writer) :=
  match x with
  | .nan | .inf _ => .ok (false, w)
  | x => do w.putReserved 25 (← dtoa x)

def write : Handler Writer
  | .null, w => do (← startValue false w).putReserved 4 "null".toList
  | .bool true, w => do (← startValue false w).putReserved 4 "true".toList
  | .bool false, w => do (← startValue false w).putReserved 5 "false".toList
  | .int n, w => do (← startValue false w).putReserved 11 (i32toa n)
  | .uint n, w => do (← startValue false w).putReserved 10 (u32toa n.toNat)
  | .int64 n, w => do (← startValue false w).putReserved 21 (i64toa n)
  | .uint64 n, w => do (← startValue false w).putReserved 20 (u64toa n.toNat)
  | .double x, w => do writeDouble (← startValue false w) x
  | .string s, w | .key s, w => do
      (← startValue true w).putReserved (2 + s.length * 6) (writeString s)
  | .startObject, w => startContainer false w '{'
  | .startArray, w => startContainer true w '['
  | .endObject _, w => endContainer false w '}'
  | .endArray _, w => endContainer true w ']'

def doubleText (x : Ieee) : Text := (dtoa x).toOption.getD []

def commas : List Text → Text
  | [] => []
  | t :: ts => t ++ ts.flatMap (',' :: ·)

mutual

def render : Value → Text
  | .null => "null".toList
  | .bool b => if b then "true".toList else "false".toList
  | .number (.int n) => intText n
  | .number (.double x) => doubleText x
  | .string s => writeString s
  | .array items => '[' :: (commas (renderItems items) ++ [']'])
  | .object members => '{' :: (commas (renderMembers members) ++ ['}'])

def renderItems : List Value → List Text
  | [] => []
  | j :: items => render j :: renderItems items

def renderMembers : List (Text × Value) → List Text
  | [] => []
  | (name, j) :: members => (writeString name ++ ':' :: render j) :: renderMembers members

end

theorem doubleText_number {x : Ieee} (hfinite : x.IsFinite) (hx : binary64.Holds x) :
    ∃ t : NumberText, dtoa x = .ok t.text ∧ doubleText x = t.text ∧ t.Valid ∧ ¬ t.Integral ∧
      t.text.length ≤ 25 ∧ t.rounded = x := by
  obtain ⟨t, hrun, hvalid, hfractional, hlength, hrounded⟩ := dtoa_number hx hfinite
  have htext : doubleText x = t.text := by rw [doubleText, hrun]; rfl
  exact ⟨t, hrun, htext, hvalid, hfractional, hlength, hrounded⟩

def Writable : Number → Prop
  | .int n => -2 ^ 63 ≤ n ∧ n < 2 ^ 64
  | .double x => x.IsFinite ∧ binary64.Holds x

theorem putReserved_of_le {w : Writer} {k : Nat} {t : Text} (h : t.length ≤ k) :
    w.putReserved k t = .ok (true, w.put t) := by rw [Writer.putReserved, if_pos h]

theorem length_writeChar_le (c : Char) : (writeChar c).length ≤ 6 := by
  rw [writeChar]
  split_ifs <;> simp

theorem length_writeString_le (s : Text) : (writeString s).length ≤ 2 + s.length * 6 := by
  have hflat : (s.flatMap writeChar).length ≤ s.length * 6 := by
    induction s with
    | nil => simp
    | cons c s ih =>
        have hc := length_writeChar_le c
        rw [List.flatMap_cons, List.length_append, List.length_cons]
        omega
  rw [writeString, List.length_cons, List.length_append, List.length_singleton]
  omega

theorem write_string {s : Text} {w w1 : Writer} (hs : startValue true w = .ok w1) :
    write (.string s) w = .ok (true, w1.put (writeString s)) := by
  rw [write, hs, ok_bind, putReserved_of_le (length_writeString_le s)]

theorem write_key {s : Text} {w w1 : Writer} (hs : startValue true w = .ok w1) :
    write (.key s) w = .ok (true, w1.put (writeString s)) := by
  rw [write, hs, ok_bind, putReserved_of_le (length_writeString_le s)]

theorem write_int {n : Int} (h : -2 ^ 63 ≤ n ∧ n < 2 ^ 64) {w w1 : Writer}
    (hs : startValue false w = .ok w1) :
    write (acceptNumber (.int n)) w = .ok (true, w1.put (intText n)) := by
  rw [acceptNumber]
  split_ifs with hint huint hint64
  · simp only [isInt, Bool.and_eq_true, decide_eq_true_eq] at hint
    have hlen := length_intText_le (n := n) (k := 10) (by omega) (by omega)
    rw [write, hs, ok_bind, i32toa_eq hint.1 hint.2, putReserved_of_le hlen]
  · simp only [isUint, Bool.and_eq_true, decide_eq_true_eq] at huint
    have htext : u32toa n.toNat = intText n := by
      rw [u32toa_eq (by omega), ← intText_natCast, Int.toNat_of_nonneg huint.1]
    have hlen : (u32toa n.toNat).length ≤ 10 := by
      rw [u32toa_eq (by omega), Nat.length_toDigits_le_iff (by omega) (by omega)]
      omega
    rw [write, hs, ok_bind, putReserved_of_le hlen, htext]
  · simp only [isInt64, Bool.and_eq_true, decide_eq_true_eq] at hint64
    have hlen := length_intText_le (n := n) (k := 20) (by omega) (by omega)
    rw [write, hs, ok_bind, i64toa_eq hint64.1 hint64.2, putReserved_of_le hlen]
  · have hpos : 0 ≤ n := by
      by_contra hneg
      refine hint64 ?_
      simp only [isInt64, Bool.and_eq_true, decide_eq_true_eq]
      omega
    have htext : u64toa n.toNat = intText n := by
      rw [u64toa_eq (by omega), ← intText_natCast, Int.toNat_of_nonneg hpos]
    have hlen : (u64toa n.toNat).length ≤ 20 := by
      rw [u64toa_eq (by omega), Nat.length_toDigits_le_iff (by omega) (by omega)]
      omega
    rw [write, hs, ok_bind, putReserved_of_le hlen, htext]

theorem write_number {n : Number} (h : Writable n) {w w1 : Writer}
    (hs : startValue false w = .ok w1) :
    write (acceptNumber n) w = .ok (true, w1.put (render (.number n))) := by
  cases n with
  | int n => rw [write_int h hs, render]
  | double x =>
      obtain ⟨t, hrun, htext, _, _, hlength, _⟩ := doubleText_number h.1 h.2
      have hdouble : write (acceptNumber (.double x)) w = writeDouble w1 x := by
        rw [acceptNumber, write, hs, ok_bind]
      rw [hdouble, render, htext]
      cases x with
      | nan | inf _ => exact absurd h.1 id
      | negZero | fin _ => simp only [writeDouble, hrun, ok_bind, putReserved_of_le hlength]

/-- A double is written as a JSON number that it is the nearest double to, and that fits the
reserved room; without such a number nothing is written and the call reports it. -/
theorem write_double {x : Ieee} (hx : binary64.Holds x) {w w1 : Writer}
    (hs : startValue false w = .ok w1) :
    (x.IsFinite ∧ ∃ t : NumberText, write (.double x) w = .ok (true, w1.put t.text) ∧ t.Valid ∧
        ¬ t.Integral ∧ t.text.length ≤ 25 ∧ t.rounded = x) ∨
      ¬ x.IsFinite ∧ write (.double x) w = .ok (false, w1) := by
  by_cases hfinite : x.IsFinite
  · obtain ⟨t, _, htext, hvalid, hfractional, hlength, hrounded⟩ := doubleText_number hfinite hx
    have hwrite : write (acceptNumber (.double x)) w = .ok (true, w1.put (render (.number (.double x)))) :=
      @write_number (.double x) ⟨hfinite, hx⟩ _ _ hs
    rw [acceptNumber, render, htext] at hwrite
    exact .inl ⟨hfinite, t, hwrite, hvalid, hfractional, hlength, hrounded⟩
  · refine .inr ⟨hfinite, ?_⟩
    cases x with
    | nan | inf _ => simp only [write, hs, ok_bind, writeDouble]
    | negZero | fin _ => exact absurd trivial hfinite

/-- The double nearest to a tenth, behind a colon. -/
theorem write_double_tenth :
    ∃ t : NumberText, write (.double (.fin (3602879701896397 / 2 ^ 55))) { levels := [⟨1, false⟩] } =
        .ok (true, { os := ':' :: t.text, levels := [⟨2, false⟩] }) ∧
      t.rounded = .fin (3602879701896397 / 2 ^ 55) := by
  have hholds : binary64.Holds (.fin (3602879701896397 / 2 ^ 55)) :=
    ⟨3602879701896397, -55, by norm_num [binary64], by decide, by decide, by norm_num⟩
  obtain ⟨_, t, hwrite, _, _, _, hrounded⟩ | ⟨hfinite, _⟩ :=
    @write_double _ hholds { levels := [⟨1, false⟩] } { os := [':'], levels := [⟨2, false⟩] } rfl
  · exact ⟨t, hwrite, hrounded⟩
  · exact absurd trivial hfinite

section Containers

/-- The parts behind `k` parts of the same container. -/
def separated (k : Nat) (ts : List Text) : Text := if k = 0 then commas ts else ts.flatMap (',' :: ·)

theorem separated_cons (k : Nat) (t : Text) (ts : List Text) :
    separated k (t :: ts) = (if k = 0 then [] else [',']) ++ t ++ separated (k + 1) ts := by
  cases k with
  | zero => simp [separated, commas]
  | succ k => simp [separated]

theorem separated_nil (k : Nat) : separated k [] = [] := by
  cases k <;> rfl

theorem startValue_item (p : Bool) (os : Text) (k : Nat) (levels : List Level) (root : Bool) :
    startValue p ⟨os, ⟨k, true⟩ :: levels, root⟩ =
      .ok ⟨os ++ (if k = 0 then [] else [',']), ⟨k + 1, true⟩ :: levels, root⟩ := by
  simp [startValue, separator]

theorem startValue_key (os : Text) (k : Nat) (levels : List Level) (root : Bool) :
    startValue true ⟨os, ⟨2 * k, false⟩ :: levels, root⟩ =
      .ok ⟨os ++ (if k = 0 then [] else [',']), ⟨2 * k + 1, false⟩ :: levels, root⟩ := by
  simp [startValue, separator]

theorem startValue_member (p : Bool) (os : Text) (k : Nat) (levels : List Level) (root : Bool) :
    startValue p ⟨os, ⟨2 * k + 1, false⟩ :: levels, root⟩ =
      .ok ⟨os ++ [':'], ⟨2 * (k + 1), false⟩ :: levels, root⟩ := by
  have hodd : (2 * k + 1) % 2 = 1 := by omega
  simp [startValue, separator, hodd, Nat.mul_succ]

def Writes (j : Value) : Prop :=
  ∀ w w1, startValue j.isString w = .ok w1 →
    feed write (events acceptNumber j) w = some (w1.put (render j))

theorem feed_write_items {items : List Value} (hj : ∀ j ∈ items, Writes j) (os : Text) (k : Nat)
    (levels : List Level) (root : Bool) :
    feed write (eventsItems acceptNumber items) ⟨os, ⟨k, true⟩ :: levels, root⟩ =
      some ⟨os ++ separated k (renderItems items), ⟨k + items.length, true⟩ :: levels, root⟩ := by
  induction items generalizing os k with
  | nil => simp [eventsItems, renderItems, separated_nil]
  | cons j items ih =>
      rw [List.forall_mem_cons] at hj
      rw [eventsItems, feed_append, hj.1 _ _ (startValue_item ..), Option.bind_some, Writer.put,
        ih hj.2, renderItems, separated_cons]
      simp only [List.append_assoc, List.length_cons, Nat.add_assoc, Nat.add_comm 1]

theorem feed_write_members {members : Members} (hj : ∀ e ∈ members, Writes e.2) (os : Text)
    (k : Nat) (levels : List Level) (root : Bool) :
    feed write (eventsMembers acceptNumber members) ⟨os, ⟨2 * k, false⟩ :: levels, root⟩ =
      some ⟨os ++ separated k (renderMembers members),
        ⟨2 * (k + members.length), false⟩ :: levels, root⟩ := by
  induction members generalizing os k with
  | nil => simp [eventsMembers, renderMembers, separated_nil]
  | cons e members ih =>
      obtain ⟨name, j⟩ := e
      rw [List.forall_mem_cons] at hj
      rw [eventsMembers, feed_cons (write_key (startValue_key ..)), Writer.put, feed_append,
        hj.1 _ _ (startValue_member ..), Option.bind_some, Writer.put, ih hj.2, renderMembers,
        separated_cons]
      simp only [List.append_assoc, List.length_cons, Nat.add_assoc, Nat.add_comm 1,
        List.singleton_append]

end Containers

theorem writes {j : Value} (hn : ∀ n ∈ numbers j, Writable n) : Writes j := by
  induction j using value_induction with
  | null =>
      intro w w1 hs
      have he : write .null w = .ok (true, w1.put (render .null)) := by
        rw [write, show startValue false w = .ok w1 from hs]
        rfl
      rw [events, feed_cons he, feed_nil]
  | bool b =>
      intro w w1 hs
      have he : write (.bool b) w = .ok (true, w1.put (render (.bool b))) := by
        cases b <;> rw [write, show startValue false w = .ok w1 from hs] <;> rfl
      rw [events, feed_cons he, feed_nil]
  | number n =>
      intro w w1 hs
      have hn := hn n (List.mem_singleton.mpr rfl)
      rw [events, feed_cons (write_number hn hs), feed_nil]
  | string t =>
      intro w w1 hs
      rw [events, feed_cons (write_string hs), feed_nil, render]
  | array items ih =>
      intro w w1 hs
      have hall : ∀ j ∈ items, Writes j := fun j hj => ih j hj fun n h => hn n (numbers_item hj h)
      have hstart : write .startArray w =
          .ok (true, ⟨w1.os ++ ['['], ⟨0, true⟩ :: w1.levels, w1.hasRoot⟩) := by
        rw [write, startContainer, show startValue false w = .ok w1 from hs]
        rfl
      rw [events, feed_cons hstart, feed_append, feed_write_items hall, Option.bind_some]
      simp [feed, write, endContainer, render, separated, Writer.put]
  | object members ih =>
      intro w w1 hs
      have hall : ∀ e ∈ members, Writes e.2 := fun e he =>
        ih e he fun n h => hn n (numbers_member he h)
      have hstart : write .startObject w =
          .ok (true, ⟨w1.os ++ ['{'], ⟨2 * 0, false⟩ :: w1.levels, w1.hasRoot⟩) := by
        rw [write, startContainer, show startValue false w = .ok w1 from hs]
        rfl
      rw [events, feed_cons hstart, feed_append, feed_write_members hall, Option.bind_some]
      simp [feed, write, endContainer, render, separated, Writer.put]

end SchemaCodeGen.JsonWriter
