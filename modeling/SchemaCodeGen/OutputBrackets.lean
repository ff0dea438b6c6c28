import SchemaCodeGen.Brackets
import SchemaCodeGen.Decimal
import SchemaCodeGen.Implementation

namespace SchemaCodeGen.OutputBrackets

open CString CNumber Decimal Schema Emit Printer Header Brackets

def cpp : Alphabet Char where
  opens := fun c => c == '(' || c == '[' || c == '\x7b'
  partner := fun c =>
    if c = ')' then some '(' else if c = ']' then some '[' else if c = '\x7d' then some '\x7b' else none

section Calls

def content : Call → Text
  | .code _ text => text
  | .remark d => if d = [] then [] else comment d
  | .note _ d => comment d

def source (calls : List Call) : Text := calls.flatMap content

/-- Every text fits the buffer of the printer. -/
def Fits (calls : List Call) : Prop := ∀ c ∈ calls, (content c).length ≤ bufferRoom

def NestedArgs (args : List Text) : Prop := ∀ a ∈ args, Nested cpp a

variable {opened : List Char} {calls : List Call} {args : List Text} {a d : Text}

theorem nestedArgs_nil : NestedArgs [] := List.forall_mem_nil _

theorem nestedArgs_cons : NestedArgs (a :: args) ↔ Nested cpp a ∧ NestedArgs args := List.forall_mem_cons

theorem source_append (calls calls' : List Call) :
    source (calls ++ calls') = source calls ++ source calls' := List.flatMap_append

theorem scan_nil (opened : List Char) : scan cpp opened (source []) = some opened := rfl

theorem scan_stringFormat (h : NestedArgs args) (format : Text) (opened : List Char) :
    scan cpp opened (stringFormat format args) = scan cpp opened format := by
  induction format, args using stringFormat.induct generalizing opened with
  | case1 format a args ih =>
      rw [nestedArgs_cons] at h
      rw [stringFormat, scan_append, h.1.scan, Option.bind_some, ih h.2]
      rfl
  | case2 c format args hother ih =>
      rw [stringFormat.eq_2 _ _ _ hother, scan, scan]
      exact congrArg _ (funext fun opened => ih h opened)
  | case3 => rfl

theorem scan_code (h : NestedArgs args) (indent : Nat) (format : String) (calls : List Call)
    (opened : List Char) : scan cpp opened (source (code indent format args :: calls)) =
      (scan cpp opened format.toList).bind fun opened => scan cpp opened (source calls) := by
  rw [source, List.flatMap_cons, scan_append]
  exact congrArg (Option.bind · _) (scan_stringFormat h format.toList opened)

theorem scan_linefeed (calls : List Call) (opened : List Char) :
    scan cpp opened (source (linefeed :: calls)) = scan cpp opened (source calls) :=
  scan_code nestedArgs_nil 0 "\n" calls opened

theorem nested_comment (h : Nested cpp d) : Nested cpp (comment d) := by
  rw [nested_iff, comment, scan_stringFormat (nestedArgs_cons.mpr ⟨h, nestedArgs_nil⟩)]
  rfl

theorem scan_remark (h : Nested cpp d) (calls : List Call) (opened : List Char) :
    scan cpp opened (source (.remark d :: calls)) = scan cpp opened (source calls) := by
  rw [source, List.flatMap_cons, scan_append, content]
  split_ifs
  · rfl
  · rw [(nested_comment h).scan]
    rfl

theorem scan_note (h : Nested cpp d) (indent : Nat) (calls : List Call) (opened : List Char) :
    scan cpp opened (source (.note indent d :: calls)) = scan cpp opened (source calls) := by
  rw [source, List.flatMap_cons, scan_append, content, (nested_comment h).scan]
  rfl

theorem plain_spaces (n : Nat) : Plain cpp (List.replicate n ' ') := fun c hc => by
  rw [List.eq_of_mem_replicate hc]
  decide

theorem scan_written (h : Fits calls) (column : Nat) (opened : List Char) :
    scan cpp opened (written column calls) = scan cpp opened (source calls) := by
  have hindented : ∀ {text : Text}, text.length ≤ bufferRoom → ∀ column indent opened,
      scan cpp opened (indented column indent text) = scan cpp opened text := by
    intro text hlen column indent opened
    rw [indented, List.take_of_length_le hlen, scan_append, (plain_spaces _).nested.scan]
    rfl
  induction calls generalizing column opened with
  | nil => rfl
  | cons c calls ih =>
      rw [Fits, List.forall_mem_cons] at h
      have hcall : scan cpp opened (c.text column) = scan cpp opened (content c) := by
        cases c with
        | code indent text => exact hindented h.1 ..
        | note indent d => exact hindented h.1 ..
        | remark d =>
            have hfits := h.1
            simp only [Call.text, content] at hfits ⊢
            split_ifs at hfits ⊢
            · rfl
            · exact hindented hfits ..
      rw [written, source, List.flatMap_cons, scan_append, scan_append, hcall]
      exact congrArg _ (funext fun opened => ih h.2 _ opened)

theorem nested_printAll (h : Fits calls) (hsource : Nested cpp (source calls)) :
    Nested cpp (printAll calls) := by
  rw [printAll_eq_written, nested_iff, scan_written h, hsource.scan]

theorem collect_induction {α : Type} {f : α → Option (List Call)} {l : List α} {P : List Call → Prop}
    (hnil : P []) (happend : ∀ first rest, P first → P rest → P (first ++ rest))
    (hf : ∀ x ∈ l, ∀ calls, f x = some calls → P calls) (h : collect f l = some calls) : P calls := by
  induction l generalizing calls with
  | nil =>
      obtain rfl := Option.some.inj h
      exact hnil
  | cons x l ih =>
      rw [List.forall_mem_cons] at hf
      obtain ⟨first, hfirst, h⟩ := Option.bind_eq_some_iff.mp h
      obtain ⟨rest, hrest, rfl⟩ := Option.map_eq_some_iff.mp h
      exact happend first rest (hf.1 first hfirst) (ih hf.2 hrest)

theorem nested_collect {α : Type} {f : α → Option (List Call)} {l : List α}
    (hf : ∀ x ∈ l, ∀ calls, f x = some calls → Nested cpp (source calls))
    (h : collect f l = some calls) : Nested cpp (source calls) := by
  refine @collect_induction _ _ _ _ (fun calls => Nested cpp (source calls)) .nil ?_ hf h
  intro first rest hfirst hrest
  rw [source_append]
  exact hfirst.append hrest

theorem nested_flatMap {α : Type} {f : α → List Call} {l : List α}
    (hf : ∀ x ∈ l, Nested cpp (source (f x))) : Nested cpp (source (l.flatMap f)) := by
  rw [source, List.flatMap_assoc]
  exact Nested.flatMap hf

theorem nested_map {α : Type} {f : α → Call} {l : List α}
    (hf : ∀ x ∈ l, Nested cpp (source [f x])) : Nested cpp (source (l.map f)) := by
  rw [List.map_eq_flatMap]
  exact nested_flatMap hf

theorem nested_code (h : NestedArgs args) {indent : Nat} {format : String}
    (hformat : scan cpp [] format.toList = some []) : Nested cpp (source [code indent format args]) := by
  rw [nested_iff, scan_code h, hformat]
  rfl

end Calls

section Lengths

variable {calls calls' : List Call} {args : List Text} {indent : Nat}

theorem length_stringFormat_le (format : Text) (args : List Text) :
    (stringFormat format args).length ≤ format.length + (args.map List.length).sum := by
  induction format, args using stringFormat.induct with
  | case1 format a args ih =>
      rw [stringFormat, List.length_append, List.length_cons, List.length_cons, List.map_cons, List.sum_cons]
      omega
  | case2 c format args hother ih =>
      rw [stringFormat.eq_2 _ _ _ hother, List.length_cons, List.length_cons]
      omega
  | case3 => exact Nat.zero_le _

theorem fits_nil : Fits [] := List.forall_mem_nil _

theorem fits_append : Fits (calls ++ calls') ↔ Fits calls ∧ Fits calls' := List.forall_mem_append

theorem fits_code {l : Text} (h : l.length + (args.map List.length).sum ≤ bufferRoom) (hcalls : Fits calls) :
    Fits (code indent (String.ofList l) args :: calls) := by
  refine List.forall_mem_cons.mpr ⟨(length_stringFormat_le _ _).trans ?_, hcalls⟩
  rwa [String.toList_ofList]

theorem length_comment_le (d : Text) : (comment d).length ≤ 6 + d.length := by
  have hlen := length_stringFormat_le "// %s\n".toList [d]
  rwa [String.toList_ofList] at hlen

theorem fits_remark {d : Text} (h : 6 + d.length ≤ bufferRoom) (hcalls : Fits calls) :
    Fits (.remark d :: calls) := by
  refine List.forall_mem_cons.mpr ⟨?_, hcalls⟩
  rw [content]
  split_ifs
  · exact Nat.zero_le _
  · exact (length_comment_le d).trans h

theorem fits_note {d : Text} (h : 6 + d.length ≤ bufferRoom) (hcalls : Fits calls) :
    Fits (.note indent d :: calls) :=
  List.forall_mem_cons.mpr ⟨(length_comment_le d).trans h, hcalls⟩

theorem fits_collect {α : Type} {f : α → Option (List Call)} {l : List α}
    (hf : ∀ x ∈ l, ∀ calls ∈ f x, Fits calls) (h : collect f l = some calls) : Fits calls :=
  collect_induction fits_nil (fun _ _ hfirst hrest => fits_append.mpr ⟨hfirst, hrest⟩) hf h

end Lengths

section Texts

/-- The texts of a member. Names have no brackets; what is printed as it is may have nested ones. -/
structure PlainMember (i : MemberVariable) : Prop where
  member : Plain cpp i.mMember
  type : Plain cpp i.mType
  mapType : Plain cpp i.mMapType
  aka : Plain cpp i.mAlias
  inheritsFrom : Plain cpp i.mInheritsFrom
  default : Nested cpp i.mDefaultValue
  qualified : Nested cpp i.mQualifiedDefaultValue
  description : Nested cpp i.mShortDescription

structure PlainObject (o : Object) : Prop where
  name : Plain cpp o.mName
  aka : Plain cpp o.mAlias
  inheritsFrom : Plain cpp o.mInheritsFrom
  short : Nested cpp o.mShortDescription
  long : Nested cpp o.mLongDescription
  items : ∀ i ∈ o.mItems, PlainMember i

structure PlainSchema (d : DOM) : Prop where
  url : Nested cpp d.mURL
  nspace : Nested cpp d.mNamespace
  filename : Nested cpp d.mFilename
  objects : ∀ o ∈ d.mObjects, PlainObject o

variable {i : MemberVariable} {o : Object} {d : DOM}

theorem plain_ite {p : Prop} [Decidable p] {s t : Text} (hs : Plain cpp s) (ht : Plain cpp t) :
    Plain cpp (if p then s else t) := by
  split_ifs
  · exact hs
  · exact ht

theorem plain_word {w : Text} (h : w.all fun c => !cpp.opens c && (cpp.partner c).isNone) : Plain cpp w := by
  intro c hc
  have hletter := List.all_eq_true.mp h c hc
  simpa using hletter

theorem plain_getCppTypeString (h : Plain cpp i.mType) (isDef : Bool) :
    Plain cpp (getCppTypeString i.mType isDef) := by
  have hstring : Plain cpp (if isDef then "std::string".toList else "const char *".toList) := by
    cases isDef <;> exact plain_word (by decide)
  rw [getCppTypeString]
  refine plain_ite hstring (plain_ite ?_ (plain_ite ?_ (plain_ite ?_ (plain_ite ?_ (plain_ite ?_
    (plain_ite ?_ (plain_ite ?_ (plain_ite ?_ h))))))))
  all_goals exact plain_word (by decide)

theorem plain_cons {c : Char} {t : Text} (hc : Plain cpp [c]) (ht : Plain cpp t) : Plain cpp (c :: t) :=
  hc.append ht

theorem plain_getMemberName (h : Plain cpp i.mMember) : Plain cpp (getMemberName i) := by
  have hformat : stringFormat "_%s".toList [i.mMember] = '_' :: (i.mMember ++ []) := rfl
  rw [getMemberName, hformat, List.append_nil]
  split_ifs
  · exact (plain_cons (plain_word (by decide)) h).take _
  · exact h

theorem plain_memberName (h : Plain cpp i.mMember) : Plain cpp (memberName i) := by
  rw [memberName]
  split_ifs
  · exact plain_cons (plain_word (by decide)) h
  · exact h

theorem plain_mapType (h : PlainMember i) : Plain cpp (mapType i) :=
  plain_ite (plain_word (by decide)) h.mapType

end Texts

section Numbers

theorem plain_digits {t : Text} (h : ∀ c ∈ t, c.isDigit = true) : Plain cpp t := by
  intro c hc
  have hdigit := h c hc
  have hne : c ∉ ['(', '[', '\x7b', ')', ']', '\x7d'] := fun hmem => by
    have hall : ['(', '[', '\x7b', ')', ']', '\x7d'].all (fun c => !c.isDigit) = true := rfl
    have hother := List.all_eq_true.mp hall c hmem
    rw [hdigit] at hother
    cases hother
  simp only [List.mem_cons, List.not_mem_nil, or_false, not_or] at hne
  obtain ⟨h1, h2, h3, h4, h5, h6⟩ := hne
  simp [cpp, h1, h2, h3, h4, h5, h6]

theorem plain_decimalText (n : Nat) : Plain cpp (decimalText n) :=
  plain_digits fun _ hc => isDigit_of_mem hc

theorem plain_intText (n : Int) : Plain cpp (intText n) := by
  cases n with
  | ofNat n =>
      rw [Int.ofNat_eq_natCast, intText_natCast]
      exact plain_decimalText n
  | negSucc n =>
      rw [intText_negSucc]
      exact plain_cons (plain_word (by decide)) (plain_decimalText (n + 1))

theorem plain_leftpad {t : Text} (h : Plain cpp t) (n : Nat) : Plain cpp (t.leftpad n '0') := by
  refine Plain.append (fun c hc => ?_) h
  rw [List.eq_of_mem_replicate hc]
  decide

theorem plain_pointed {digits : Text} (h : Plain cpp digits) (decimals : Nat) :
    Plain cpp (pointed digits decimals) := by
  have hpadded := plain_leftpad h (decimals + 1)
  exact (hpadded.take _).append
    (plain_cons (plain_word (by decide)) fun c hc => hpadded c (List.mem_of_mem_drop hc))

theorem plain_general (q : ℚ) : Plain cpp (general q) := by
  have hexponent : ∀ (digits : Text) (e : Int), Plain cpp digits → Plain cpp (pointed digits 5 ++
      'e' :: (if e < 0 then '-' else '+') :: (decimalText e.natAbs).leftpad 2 '0') := by
    intro digits e hdigits
    refine (plain_pointed hdigits 5).append (plain_cons (plain_word (by decide)) (plain_cons ?_ ?_))
    · split_ifs <;> exact plain_word (by decide)
    · exact plain_leftpad (plain_decimalText _) 2
  rw [general]
  by_cases hq : q = 0
  · rw [if_pos hq]
    exact plain_pointed (plain_word (by decide)) 5
  · rw [if_neg hq]
    exact plain_ite (plain_pointed (plain_decimalText _) _) (hexponent _ _ (plain_decimalText _))

theorem plain_showpoint (r : Reading) : Plain cpp (showpoint r) := by
  rw [showpoint]
  refine Plain.append (plain_ite (plain_word (by decide)) (plain_word (by decide))) ?_
  cases r.magnitude with
  | nan =>
      have hword : Plain cpp "nan".toList := plain_word (by decide)
      exact hword
  | inf _ =>
      have hword : Plain cpp "inf".toList := plain_word (by decide)
      exact hword
  | negZero => exact plain_general 0
  | fin q => exact plain_general q

theorem plain_intercalate {sep : Text} {ts : List Text} (hsep : Plain cpp sep) (h : ∀ t ∈ ts, Plain cpp t) :
    Plain cpp (sep.intercalate ts) := by
  induction ts with
  | nil => exact fun _ hc => absurd hc List.not_mem_nil
  | cons t ts ih =>
      rw [List.forall_mem_cons] at h
      cases ts with
      | nil =>
          rw [List.intercalate_singleton]
          exact h.1
      | cons u us =>
          rw [List.intercalate_cons_cons]
          exact (h.1.append hsep).append (ih h.2)

theorem plain_vectorDefault (initial : List Reading) (value : Text) : Plain cpp (vectorDefault initial value) := by
  refine plain_intercalate (plain_word (by decide)) ?_
  rw [List.forall_mem_map]
  exact fun r _ => (plain_showpoint r).append (plain_word (by decide))

theorem nested_quoted {t : Text} (h : Nested cpp t) : Nested cpp ('"' :: (t ++ ['"'])) :=
  .other (by decide) (by decide) (h.append (.other (by decide) (by decide) .nil))

theorem nested_ite {p : Prop} [Decidable p] {s t : Text} (hs : Nested cpp s) (ht : Nested cpp t) :
    Nested cpp (if p then s else t) := by
  split_ifs
  · exact hs
  · exact ht

theorem nested_floatDefault {value : Text} (h : Nested cpp value) : Nested cpp (floatDefault value) := by
  have hnumber : ∀ r, Nested cpp (showpoint r ++ ['f']) := fun r =>
    ((plain_showpoint r).append (plain_word (by decide))).nested
  exact nested_ite (hnumber _) (nested_ite h (nested_ite h (hnumber _)))

variable {i : MemberVariable}

theorem nested_getCppValueInitializer (h : PlainMember i) (dom : DOM) :
    Nested cpp (getCppValueInitializer i dom) := by
  have hbool : Nested cpp (if stricmp i.mDefaultValue "true".toList then "true".toList else "false".toList) :=
    nested_ite (plain_word (by decide)).nested (plain_word (by decide)).nested
  have hnat : ∀ n : Nat, Plain cpp (toString n).toList := fun n => by
    change Plain cpp n.repr.toList
    rw [Nat.toList_repr]
    exact plain_decimalText n
  rw [getCppValueInitializer]
  refine nested_ite .nil (nested_ite (nested_quoted h.default) (nested_ite (plain_intText _).nested
    (nested_ite ?_ (nested_ite (nested_floatDefault h.default) (nested_ite (plain_showpoint _).nested
      (nested_ite hbool (nested_ite (plain_vectorDefault _ _).nested
        (nested_ite (plain_vectorDefault _ _).nested ?_))))))))
  · exact (hnat _).nested
  · cases dom.findObject i.mType with
    | none => exact .nil
    | some obj => exact nested_ite h.qualified .nil

theorem nested_getCppRValue (h : PlainMember i) (dom : DOM) : Nested cpp (getCppRValue i dom) := by
  have hvalue := nested_getCppValueInitializer h dom
  rw [getCppRValue]
  refine nested_ite (plain_word (by decide)).nested (nested_ite hvalue ?_)
  cases dom.findObject i.mType with
  | none =>
      have hword : Plain cpp "void".toList := plain_word (by decide)
      exact hword.nested
  | some obj =>
      have hempty : Nested cpp "()".toList := nested_iff.mpr rfl
      exact nested_ite (nested_ite h.qualified (h.type.nested.append hempty))
        (h.type.nested.append (.pair (by decide) (by decide) (by decide) hvalue .nil))

end Numbers

end SchemaCodeGen.OutputBrackets
