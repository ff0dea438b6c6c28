import SchemaCodeGen.Rows

namespace SchemaCodeGen.Marks

open CString CsvReader Schema ParseCSV

inductive Mark
  | array
  | pointer
  | optional
  | optionalDeserialize
  deriving DecidableEq, Repr

def Mark.text : Mark → Text
  | .array => "[]".toList
  | .pointer => "*".toList
  | .optional => "?".toList
  | .optionalDeserialize => "!".toList

def Mark.isOptional : Mark → Bool
  | .optional | .optionalDeserialize => true
  | .array | .pointer => false

def marksText (marks : List Mark) : Text := marks.flatMap Mark.text

def isMarkChar (c : Char) : Bool := "*[]?!:".toList.contains c

/-- A name cell as it is put down: a plain name, in the map form with its key type,
and the marks behind it. -/
structure MarkedName where
  name : Text
  key : Option Text
  marks : List Mark
  name_ne : name ≠ []
  name_plain : ∀ c ∈ name, isMarkChar c = false
  key_plain : ∀ k ∈ key, ∀ c ∈ k, isMarkChar c = false
  distinct : marks.Nodup
  oneOptional : ¬ (.optional ∈ marks ∧ .optionalDeserialize ∈ marks)

def MarkedName.base (m : MarkedName) : Text :=
  match m.key with
  | none => m.name
  | some k => '[' :: (m.name ++ ':' :: (k ++ [']']))

def MarkedName.text (m : MarkedName) : Text := m.base ++ marksText m.marks

def optionalOf (marks : List Mark) : OptionalType :=
  if .optional ∈ marks then .optional
  else if .optionalDeserialize ∈ marks then .optionalDeserialize
  else .required

def Describes (m : MarkedName) (di : MemberVariable) : Prop :=
  di.mMember = m.name ∧ di.mIsArray = decide (.array ∈ m.marks) ∧
    di.mIsPointer = decide (.pointer ∈ m.marks) ∧ di.mIsOptional = optionalOf m.marks ∧
    di.mIsMap = m.key.isSome ∧ di.mMapType = m.key.getD []

def before (b : Mark) (marks : List Mark) : List Mark := marks.takeWhile (· != b)

/-- The marks left in the cell when its array mark, or else its pointer mark, was cut off. -/
def kept (marks : List Mark) : List Mark :=
  if .array ∈ marks then before .array marks else before .pointer marks

/-- An optional mark stands before the mark that is cut off, and a pointer mark does not
stand before the array mark of a plain name. -/
def InOrder (m : MarkedName) : Prop :=
  (∀ o ∈ m.marks, o.isOptional = true → o ∈ kept m.marks) ∧
    (m.key = none → .array ∈ m.marks → .pointer ∉ before .array m.marks)

instance (m : MarkedName) : Decidable (InOrder m) :=
  inferInstanceAs (Decidable ((∀ o ∈ m.marks, o.isOptional = true → o ∈ kept m.marks) ∧
    (m.key = none → .array ∈ m.marks → .pointer ∉ before .array m.marks)))

@[simp] theorem marksText_nil : marksText [] = [] := rfl

@[simp] theorem marksText_cons (o : Mark) (marks : List Mark) :
    marksText (o :: marks) = o.text ++ marksText marks := rfl

theorem bracket_mem_marksText (marks : List Mark) : '[' ∈ marksText marks ↔ .array ∈ marks := by
  induction marks with
  | nil => simp
  | cons o marks ih => cases o <;> simp [Mark.text, ih]

theorem star_mem_marksText (marks : List Mark) : '*' ∈ marksText marks ↔ .pointer ∈ marks := by
  induction marks with
  | nil => simp
  | cons o marks ih => cases o <;> simp [Mark.text, ih]

theorem cutAt_bracket (marks : List Mark) :
    cutAt '[' (marksText marks) = marksText (before .array marks) := by
  induction marks with
  | nil => rfl
  | cons o marks ih => cases o <;> simp_all [Mark.text, before, cutAt]

theorem cutAt_star (marks : List Mark) :
    cutAt '*' (marksText marks) = marksText (before .pointer marks) := by
  induction marks with
  | nil => rfl
  | cons o marks ih => cases o <;> simp_all [Mark.text, before, cutAt]

theorem before_of_not_mem {b : Mark} {marks : List Mark} (h : b ∉ marks) : before b marks = marks := by
  rw [before, List.takeWhile_eq_self_iff]
  intro o ho
  simpa using fun he : o = b => h (he ▸ ho)

theorem not_mem_before (b : Mark) (marks : List Mark) : b ∉ before b marks := by
  intro h
  simpa using List.mem_takeWhile_imp h

theorem array_not_mem_kept (marks : List Mark) : .array ∉ kept marks := by
  rw [kept]
  split_ifs with h
  · exact not_mem_before _ _
  · exact fun hm => h ((List.takeWhile_prefix _).subset hm)

theorem kept_initial (marks : List Mark) : kept marks <+: marks := by
  rw [kept]
  split_ifs
  · exact List.takeWhile_prefix _
  · exact List.takeWhile_prefix _

theorem isMarkChar_of_not_mem {s : Text} (h : ∀ c ∈ s, isMarkChar c = false) {c : Char}
    (hc : isMarkChar c = true) : c ∉ s := by
  intro hs
  rw [h c hs] at hc
  exact absurd hc Bool.false_ne_true

theorem base_cons (m : MarkedName) : ∃ c s, m.base = c :: s ∧ '[' ∉ s ∧ '*' ∉ c :: s ∧
    (∀ d ∈ c :: s, d ≠ '?' ∧ d ≠ '!') := by
  have hname := fun c => isMarkChar_of_not_mem m.name_plain (c := c)
  have hkey := fun k hk c => isMarkChar_of_not_mem (m.key_plain k hk) (c := c)
  have hplain : ∀ d, isMarkChar d = false → d ≠ '?' ∧ d ≠ '!' := by
    intro d hd
    constructor <;> rintro rfl <;> exact absurd hd (by decide)
  cases hk : m.key with
  | none =>
      cases hn : m.name with
      | nil => exact absurd hn m.name_ne
      | cons c s =>
          rw [hn] at hname
          refine ⟨c, s, by rw [MarkedName.base, hk, hn], ?_, hname '*' rfl, ?_⟩
          · exact fun h => hname '[' rfl (List.mem_cons_of_mem c h)
          · intro d hd
            exact hplain d (m.name_plain d (hn ▸ hd))
  | some k =>
      refine ⟨'[', m.name ++ ':' :: (k ++ [']']), by rw [MarkedName.base, hk], ?_, ?_, ?_⟩
      · simp [hname '[' rfl, hkey k hk '[' rfl]
      · simp [hname '*' rfl, hkey k hk '*' rfl]
      · intro d hd
        simp only [List.mem_cons, List.mem_append, List.not_mem_nil, or_false] at hd
        rcases hd with rfl | hd | rfl | hd | rfl
        · decide
        · exact hplain d (m.name_plain d hd)
        · decide
        · exact hplain d (m.key_plain k hk d hd)
        · decide

theorem truncateName_text (m : MarkedName) : truncateName m.text = m.base ++ marksText (kept m.marks) := by
  obtain ⟨c, s, hb, hbracket, hstar, _⟩ := base_cons m
  have hdrop : m.text.drop 1 = s ++ marksText m.marks := by simp [MarkedName.text, hb]
  have htake : m.text.take 1 = [c] := by simp [MarkedName.text, hb]
  have harray : '[' ∈ m.text.drop 1 ↔ .array ∈ m.marks := by
    rw [hdrop, List.mem_append, bracket_mem_marksText]
    exact or_iff_right hbracket
  have hpointer : '*' ∈ m.text ↔ .pointer ∈ m.marks := by
    rw [MarkedName.text, List.mem_append, star_mem_marksText, hb]
    exact or_iff_right hstar
  rw [truncateName, kept]
  by_cases ha : .array ∈ m.marks
  · rw [if_pos (harray.mpr ha), if_pos ha, htake, hdrop, cutAt_append hbracket, cutAt_bracket, hb]
    rfl
  · rw [if_neg (fun h => ha (harray.mp h)), if_neg ha]
    by_cases hp : .pointer ∈ m.marks
    · rw [if_pos (hpointer.mpr hp), MarkedName.text, cutAt_append (hb ▸ hstar), cutAt_star]
    · rw [if_neg (fun h => hp (hpointer.mp h)), before_of_not_mem hp]
      rfl

theorem copyName_plain {s : Text} (hs : ∀ c ∈ s, c ≠ '?' ∧ c ≠ '!') {n : Nat} (hn : s.length ≤ n)
    (t : Text) (o : OptionalType) :
    copyName n (s ++ t) o =
      (s ++ (copyName (n - s.length) t o).1, (copyName (n - s.length) t o).2) := by
  induction s generalizing n with
  | nil => rfl
  | cons c s ih =>
      rw [List.forall_mem_cons] at hs
      obtain ⟨n, rfl⟩ : ∃ k, n = k + 1 := ⟨n - 1, by simp at hn; omega⟩
      have hlen : n + 1 - (c :: s).length = n - s.length := by simp
      rw [List.cons_append, copyName, if_neg hs.1.1, if_neg hs.1.2, ih hs.2 (by simpa using hn), hlen]
      rfl

def setOptional (o : OptionalType) : Mark → OptionalType
  | .optional => .optional
  | .optionalDeserialize => .optionalDeserialize
  | .array | .pointer => o

theorem copyName_marks (marks : List Mark) {n : Nat} (hn : (marksText marks).length ≤ n)
    (o : OptionalType) :
    copyName n (marksText marks) o =
      (marksText (marks.filter fun a => !a.isOptional), marks.foldl setOptional o) := by
  induction marks generalizing n o with
  | nil => cases n <;> rfl
  | cons a marks ih =>
      rw [marksText_cons, List.length_append] at hn
      cases a with
      | array =>
          rw [marksText_cons, copyName_plain (by simp [Mark.text]) (by omega), ih (by omega)]
          rfl
      | pointer =>
          rw [marksText_cons, copyName_plain (by simp [Mark.text]) (by omega), ih (by omega)]
          rfl
      | optional =>
          obtain ⟨n, rfl⟩ : ∃ k, n = k + 1 := ⟨n - 1, by simp [Mark.text] at hn; omega⟩
          exact ih (by simp [Mark.text] at hn ⊢; omega) .optional
      | optionalDeserialize =>
          obtain ⟨n, rfl⟩ : ∃ k, n = k + 1 := ⟨n - 1, by simp [Mark.text] at hn; omega⟩
          exact ih (by simp [Mark.text] at hn ⊢; omega) .optionalDeserialize

theorem foldl_setOptional {marks : List Mark}
    (hone : ¬ (.optional ∈ marks ∧ .optionalDeserialize ∈ marks)) (o : OptionalType) :
    marks.foldl setOptional o =
      if .optional ∈ marks then .optional
      else if .optionalDeserialize ∈ marks then .optionalDeserialize
      else o := by
  induction marks generalizing o with
  | nil => rfl
  | cons a marks ih =>
      have hone' : ¬ (.optional ∈ marks ∧ .optionalDeserialize ∈ marks) := fun h =>
        hone ⟨List.mem_cons_of_mem a h.1, List.mem_cons_of_mem a h.2⟩
      rw [List.foldl_cons, ih hone']
      cases a <;> simp_all [setOptional]

theorem residue_eq (m : MarkedName) :
    marksText ((kept m.marks).filter fun a => !a.isOptional) =
      if .pointer ∈ kept m.marks then ['*'] else [] := by
  have hnodup := (m.distinct.sublist (kept_initial m.marks).sublist).filter fun a => !a.isOptional
  have hmem : ∀ a ∈ (kept m.marks).filter (fun a => !a.isOptional), a = .pointer := by
    intro a ha
    obtain ⟨hk, ho⟩ := List.mem_filter.mp ha
    cases a with
    | pointer => rfl
    | array => exact absurd hk (array_not_mem_kept m.marks)
    | optional | optionalDeserialize => exact absurd ho (by decide)
  have hiff : .pointer ∈ kept m.marks ↔ .pointer ∈ (kept m.marks).filter fun a => !a.isOptional :=
    ⟨fun h => List.mem_filter.mpr ⟨h, rfl⟩, fun h => (List.mem_filter.mp h).1⟩
  simp only [hiff]
  cases hl : (kept m.marks).filter (fun a => !a.isOptional) with
  | nil => rfl
  | cons a l =>
      rw [hl] at hnodup hmem
      rw [List.forall_mem_cons] at hmem
      obtain ⟨rfl, hmem⟩ := hmem
      cases l with
      | nil => rfl
      | cons b l =>
          obtain rfl := hmem b List.mem_cons_self
          exact absurd List.mem_cons_self (List.nodup_cons.mp hnodup).1

theorem memberName_text (m : MarkedName) (hfits : m.text.length ≤ 500) :
    memberName m.text = some
      { mIsOptional := optionalOf (kept m.marks)
        mIsArray := .array ∈ m.marks
        mIsPointer := .pointer ∈ m.marks
        mIsMap := m.key.isSome
        mMember := if m.key = none ∧ .pointer ∈ kept m.marks then m.name ++ ['*'] else m.name
        mMapType := m.key.getD [] } := by
  obtain ⟨c, s, hb, hbracket, hstar, hopt⟩ := base_cons m
  have hlen : (marksText (kept m.marks)).length ≤ (marksText m.marks).length := by
    obtain ⟨rest, hrest⟩ := kept_initial m.marks
    have hsplit : marksText m.marks = marksText (kept m.marks) ++ marksText rest :=
      (congrArg marksText hrest).symm.trans List.flatMap_append
    rw [hsplit, List.length_append]
    exact Nat.le_add_right _ _
  have htext : m.text.length = m.base.length + (marksText m.marks).length := by
    simp [MarkedName.text]
  have hone : ¬ (.optional ∈ kept m.marks ∧ .optionalDeserialize ∈ kept m.marks) := fun h =>
    m.oneOptional ⟨(kept_initial m.marks).subset h.1, (kept_initial m.marks).subset h.2⟩
  have hcopy : copyName 510 (truncateName m.text) .required =
      (m.base ++ if .pointer ∈ kept m.marks then ['*'] else [], optionalOf (kept m.marks)) := by
    rw [truncateName_text, copyName_plain (hb ▸ hopt) (by omega), copyName_marks _ (by omega),
      residue_eq, foldl_setOptional hone]
    rfl
  have harray : '[' ∈ m.text.drop 1 ↔ .array ∈ m.marks := by
    simp [MarkedName.text, hb, hbracket, bracket_mem_marksText]
  have hpointer : '*' ∈ m.text ↔ .pointer ∈ m.marks := by
    rw [MarkedName.text, List.mem_append, star_mem_marksText, hb]
    exact or_iff_right hstar
  rw [memberName, hcopy]
  simp only [harray, hpointer]
  cases hk : m.key with
  | none =>
      have hbase : m.base = m.name := by rw [MarkedName.base, hk]
      have hhead : (m.base ++ if .pointer ∈ kept m.marks then ['*'] else []).head? ≠ some '[' := by
        rw [hb, List.cons_append, List.head?_cons, Ne, Option.some.injEq]
        rintro rfl
        apply isMarkChar_of_not_mem m.name_plain (c := '[') rfl
        rw [← hbase, hb]
        exact List.mem_cons_self
      rw [if_neg hhead, hbase]
      by_cases hp : .pointer ∈ kept m.marks <;> simp [hp]
  | some k =>
      have hcolon : ':' ∉ m.name := isMarkChar_of_not_mem m.name_plain rfl
      have hclose : ']' ∉ k := isMarkChar_of_not_mem (m.key_plain k hk) rfl
      have hbase : m.base = '[' :: (m.name ++ ':' :: (k ++ [']'])) := by rw [MarkedName.base, hk]
      have hmap : ∀ t, mapForm (m.base ++ t) = some (m.name, k) := by
        intro t
        have htext : m.base ++ t = ('[' :: m.name) ++ ':' :: (k ++ ']' :: t) := by simp [hbase]
        have hname : ':' ∉ '[' :: m.name := by simpa using hcolon
        rw [mapForm, htext, afterFirst_append hname]
        simp only [List.cons_append, List.drop_succ_cons, List.drop_zero, List.mem_append, List.mem_cons,
          true_or, or_true, if_true, cutAt_append hcolon, cutAt_append hclose, cutAt_cons, List.append_nil]
      rw [hmap, hbase]
      simp

theorem optionalOf_kept (m : MarkedName) :
    optionalOf (kept m.marks) = optionalOf m.marks ↔
      ∀ o ∈ m.marks, o.isOptional = true → o ∈ kept m.marks := by
  have hsub := (kept_initial m.marks).subset
  have hone := m.oneOptional
  constructor
  · intro h o ho hopt
    by_contra hk
    cases o with
    | array | pointer => exact absurd hopt (by decide)
    | optional =>
        have hd : .optionalDeserialize ∉ kept m.marks := fun h => hone ⟨ho, hsub h⟩
        simp [optionalOf, ho, hk, hd] at h
    | optionalDeserialize =>
        have hd : .optional ∉ m.marks := fun h => hone ⟨h, ho⟩
        have hd' : .optional ∉ kept m.marks := fun h => hd (hsub h)
        simp [optionalOf, ho, hk, hd, hd'] at h
  · intro h
    have hiff : ∀ o : Mark, o.isOptional = true → (o ∈ kept m.marks ↔ o ∈ m.marks) :=
      fun o ho => ⟨fun hk => hsub hk, fun hm => h o hm ho⟩
    simp only [optionalOf, hiff .optional rfl, hiff .optionalDeserialize rfl]

theorem pointer_mem_kept (marks : List Mark) :
    .pointer ∈ kept marks ↔ .array ∈ marks ∧ .pointer ∈ before .array marks := by
  rw [kept]
  split_ifs with ha
  · exact (and_iff_right ha).symm
  · exact iff_of_false (not_mem_before _ _) fun h => ha h.1

theorem memberOf_describes (m : MarkedName) {row : Row} (h1 : arg row 1 = m.text)
    (htype : 3 ≤ row.length → (arg row 2).length < 512) {di : MemberVariable}
    (hdi : memberName m.text = some di) :
    ∃ d, memberOf row = some d ∧ (Describes m d ↔ Describes m di) := by
  have hfields : ∀ d, Describes m (memberFields row d) ↔ Describes m d := by
    intro d
    simp only [memberFields, MemberVariable.init]
    split_ifs <;> rfl
  rw [memberOf, h1, hdi, Option.bind_some, memberType]
  split_ifs with h3 h512
  · refine ⟨_, rfl, ?_⟩
    rw [hfields]
    rfl
  · exact absurd (htype h3) h512
  · exact ⟨_, rfl, hfields di⟩

/-- A member row records what its marks say exactly when they stand in the order in which
the parser looks for them. -/
theorem processArgs_describes_iff (m : MarkedName) (hfits : m.text.length ≤ 500)
    {st : CreateDOMDef} (hrun : st.mEndOfFile = false) {row : Row} (h0 : arg row 0 = [])
    (h1 : arg row 1 = m.text) (htype : 3 ≤ row.length → (arg row 2).length < 512) :
    (∃ di, processArgs st row = some (addMember st di) ∧
      (addMember st di).mCurrentObject.mItems = st.mCurrentObject.mItems ++ [di] ∧
      Describes m di) ↔ InOrder m := by
  have hne : arg row 1 ≠ [] := by
    obtain ⟨c, s, hb, _⟩ := base_cons m
    simp [h1, MarkedName.text, hb]
  have hkind : rowKind row = .member := Rows.rowKind_member h0 hne
  have hname := memberName_text m hfits
  obtain ⟨di, hdi, hd⟩ := memberOf_describes m h1 htype hname
  have hmember : (if m.key = none ∧ .pointer ∈ kept m.marks then m.name ++ ['*'] else m.name) = m.name ↔
      (m.key = none → .array ∈ m.marks → .pointer ∉ before .array m.marks) := by
    have hkept := pointer_mem_kept m.marks
    split_ifs with h
    · exact iff_of_false (by simp) fun hn => hn h.1 (hkept.mp h.2).1 (hkept.mp h.2).2
    · exact iff_of_true rfl fun hk ha hp => h ⟨hk, hkept.mpr ⟨ha, hp⟩⟩
  have hiff : Describes m di ↔ InOrder m := by
    rw [hd, InOrder, ← optionalOf_kept, ← hmember]
    exact ⟨fun h => ⟨h.2.2.2.1, h.1⟩, fun h => ⟨h.2, rfl, rfl, h.1, rfl, rfl⟩⟩
  have hproc : processArgs st row = some (addMember st di) := by
    rw [Rows.processArgs_member hrun hkind, Rows.itemOf, if_pos hkind, hdi]
    rfl
  constructor
  · rintro ⟨d, hp, hitems, h⟩
    have hsame := congrArg (fun st => st.mCurrentObject.mItems) (Option.some.inj (hproc.symm.trans hp))
    obtain rfl : di = d := by simpa [addMember] using hsame
    exact hiff.mp h
  · intro h
    exact ⟨di, hproc, rfl, hiff.mpr h⟩

/-- `[v:K]*?[]`: behind the closing bracket a pointer mark may stand before the array mark. -/
def mapOfArrays : MarkedName where
  name := "v".toList
  key := some "K".toList
  marks := [.pointer, .optional, .array]
  name_ne := by decide
  name_plain := by simp [isMarkChar]
  key_plain := by simp [isMarkChar]
  distinct := by decide
  oneOptional := by decide

theorem processArgs_mapOfArrays :
    ∃ di, processArgs {} [[], "[v:K]*?[]".toList, "u32".toList] = some (addMember {} di) ∧
      (addMember {} di).mCurrentObject.mItems = [di] ∧ Describes mapOfArrays di :=
  (processArgs_describes_iff mapOfArrays (by decide) rfl rfl rfl fun _ => by decide).mpr (by decide)

/-- `x[]?`: the optional mark is cut off with the array mark. -/
def arrayThenOptional : MarkedName where
  name := "x".toList
  key := none
  marks := [.array, .optional]
  name_ne := by decide
  name_plain := by simp [isMarkChar]
  key_plain := by simp
  distinct := by decide
  oneOptional := by decide

theorem processArgs_arrayThenOptional :
    arrayThenOptional.text = "x[]?".toList ∧
      ∀ di, processArgs {} [[], "x[]?".toList, "u32".toList] = some (addMember {} di) →
        di.mIsOptional = .required ∧ ¬ Describes arrayThenOptional di := by
  refine ⟨rfl, fun di h => ?_⟩
  have hopt : (processArgs {} [[], "x[]?".toList, "u32".toList]).map
      (fun st => st.mCurrentObject.mItems.map MemberVariable.mIsOptional) = some [.required] := rfl
  rw [h] at hopt
  have hreq : di.mIsOptional = .required := by simpa [addMember] using hopt
  refine ⟨hreq, fun hd => ?_⟩
  have hmark : di.mIsOptional = .optional := hd.2.2.2.1
  rw [hreq] at hmark
  exact absurd hmark (by decide)

end SchemaCodeGen.Marks
