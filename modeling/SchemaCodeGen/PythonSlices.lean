import SchemaCodeGen.Dictionaries
import SchemaCodeGen.PythonInit
import SchemaCodeGen.PythonStatements

namespace SchemaCodeGen.PythonSlices

open CString Schema Emit Printer EnumBackends Dictionaries PythonData PythonWalk PythonInit PythonStatements

section Print

/-- The calls that print the body of `as_data`. An enum has no class. When a base is unknown the
body ends behind the members. -/
def saveAsData (d : DOM) (rounds : Nat) (o : Object) : Option (List Call) :=
  if stricmp o.mType "Enum".toList then some []
  else match typeInfo d o.mName with
    | none => some []
    | some _ => (savePythonBase d rounds o).map fun base =>
        code 2 "data = \x7b\x7d\n" :: ((ownItems o).filterMap (asDataMember d) ++
          match base with
          | .ok calls => calls
          | .error _ => [])

def readCall : Call → Option Stmt
  | .code _ line => readLine line
  | _ => none

/-- The statements of `as_data`, when Python can read all of its lines. -/
def body (d : DOM) (rounds : Nat) (o : Object) : Option (List Stmt) :=
  (saveAsData d rounds o).bind fun calls => calls.mapM readCall

end Print

section Run

/-- The values of attributes. An object has its class with the bases of that, and attributes. -/
inductive Held (P : Type)
  | int (n : Int)
  | str (s : Text)
  | other (p : P)
  | list (l : List (Held P))
  | object (mro : List Object) (attrs : List (Text × Held P))

variable {P : Type}

abbrev Data (P : Type) := Tree Text (Held P)

abbrev Store (P : Type) := Heap Text (Held P)

abbrev Value (P : Type) := Entry Text (Held P)

/-- Names with two underscores in front are private to their class. -/
def mangle (cls name : Text) : Text :=
  let stripped := cls.dropWhile (· == '_')
  if "__".toList.isPrefixOf name && !"__".toList.isSuffixOf name && !stripped.isEmpty then
    '_' :: (stripped ++ name)
  else name

/-- The tables of the module, the attributes of `self`, and what `as_data` of an object in an
attribute returns. -/
structure View (P : Type) where
  tables : Text → Option (List Text)
  self : Text → Option (Held P)
  call : Held P → Option (Data P)

/-- What a body finds outside of itself, with its class and the `as_data` of the base of that. -/
structure Scope (P : Type) extends View P where
  cls : Text
  base : Store P → Option (Store P × Value P)

def View.attr (w : View P) (cls m : Text) : Option (Held P) := w.self (mangle cls m)

def View.table (w : View P) (cls table : Text) : Option (List Text) := w.tables (mangle cls table)

def items : Held P → Option (List (Held P))
  | .list l => some l
  | _ => none

def index : Held P → Option Int
  | .int n => some n
  | _ => none

structure State (P : Type) where
  heap : Store P
  vars : Text → Option (Value P)

def address : Value P → Option Nat
  | .ref a => some a
  | .data _ => none

def lookup (sc : Scope P) (s : State P) (x : Text) : Option (Value P) := s.vars (mangle sc.cls x)

def bindVar (sc : Scope P) (s : State P) (x : Text) (v : Value P) : State P :=
  { s with vars := Function.update s.vars (mangle sc.cls x) (some v) }

def eval (sc : Scope P) (s : State P) : Expr → Option (State P × Value P)
  | .dict => some ({ s with heap := s.heap ++ [[]] }, .ref s.heap.length)
  | .var x => (lookup sc s x).map fun v => (s, v)
  | .item x key => do
      let l ← s.heap[← address (← lookup sc s x)]?
      return (s, ← l.lookup key)
  | .attr m => (sc.attr sc.cls m).map fun h => (s, .data (.leaf h))
  | .attrData m => do return (s, .data (← sc.call (← sc.attr sc.cls m)))
  | .each m => do return (s, .data (.list ((← items (← sc.attr sc.cls m)).map .leaf)))
  | .eachData m => do return (s, .data (.list (← (← items (← sc.attr sc.cls m)).mapM sc.call)))
  | .entry table m => do
      let l ← sc.table sc.cls table
      return (s, .data (.leaf (.str (← subscript l (← index (← sc.attr sc.cls m))))))
  | .superData => (sc.base s.heap).map fun r => ({ s with heap := r.1 }, r.2)

/-- A body that ends without `return` returns no data. -/
def run (sc : Scope P) : List Stmt → State P → Option (Store P × Value P)
  | [], _ => none
  | .ret x :: _, s => (lookup sc s x).map fun v => (s.heap, v)
  | .assign x e :: stmts, s => (eval sc s e).bind fun r => run sc stmts (bindVar sc r.1 x r.2)
  | .store x key e :: stmts, s => do
      let (s, v) ← eval sc s e
      let a ← address (← lookup sc s x)
      let l ← s.heap[a]?
      run sc stmts { s with heap := s.heap.set a (put key v l) }

variable (d : DOM) (rounds : Nat) (tables : Text → Option (List Text))

/-- `as_data` of the first class, of which the others are the bases in turn. -/
def runClass (w : View P) : List Object → Store P → Option (Store P × Value P)
  | [], _ => none
  | o :: bases, heap => (body d rounds o).bind fun stmts =>
      run { toView := w, cls := o.mName, base := runClass w bases } stmts ⟨heap, fun _ => none⟩

def callMethod (asData : List Object → List (Text × Held P) → Option (Data P)) :
    Held P → Option (Data P)
  | .object mro attrs => if (attrs.lookup "as_data".toList).isSome then none else asData mro attrs
  | _ => none

/-- The view of an object, whose attributes hold objects with that `as_data`. -/
def viewOf (asData : List Object → List (Text × Held P) → Option (Data P)) (attrs : List (Text × Held P)) :
    View P :=
  ⟨tables, fun m => attrs.lookup m, callMethod asData⟩

/-- What `as_data` returns for an object. The number bounds how deep objects are in each other. -/
def asData : Nat → List Object → List (Text × Held P) → Option (Data P)
  | 0, _, _ => none
  | depth + 1, mro, attrs =>
      (runClass d rounds (viewOf tables (asData depth) attrs) mro []).bind fun r =>
        resolve r.1 r.1.length r.2

end Run

section Chain

variable {P : Type} (d : DOM) (w : View P)

def slice (o : Object) : Text := lowerFirst o.mName

def memberData (cls : Text) (m : MemberVariable) : Option (Data P) :=
  if m.mIsArray then do
    let l ← items (← w.attr cls m.mMember)
    if isClassType d m.mType then return .list (← l.mapM w.call) else return .list (l.map .leaf)
  else if isClassType d m.mType then (w.attr cls m.mMember).bind w.call
  else if isEnumType d m.mType then do
    let l ← w.table cls (tableName m.mType)
    return .leaf (.str (← subscript l (← index (← w.attr cls m.mMember))))
  else (w.attr cls m.mMember).map .leaf

def localData (o : Object) : Option (List (Text × Data P)) :=
  (ownItems o).foldlM (fun l m => (memberData d w o.mName m).map fun v => put m.mMember v l) []

/-- The data of a class, and in the slice of the next one that of the classes below. -/
def nested : List Object → Option (List (Text × Data P))
  | [] => none
  | [o] => localData d w o
  | o :: p :: below => do return (← localData d w o) ++ [(slice p, .dict (← nested (p :: below)))]

/-- A member that has a line in `as_data`, which can be read. -/
structure Printable (m : MemberVariable) : Prop where
  known : (asDataMember d m).isSome
  noEnumArray : ¬EnumArray d m
  name : LegalName m.mMember
  type : Identifier m.mType ∧ ∀ c ∈ m.mType.head?, c.isDigit = false

/-- A class with its bases in turn, up to a root. -/
structure Linked (mro : List Object) : Prop where
  classes : ∀ o ∈ mro, stricmp o.mType "Enum".toList = false
  linked : mro.IsChain fun o p => o.mInheritsFrom = p.mName
  root : ∀ o ∈ mro.getLast?, o.mInheritsFrom = []

/-- The table has the classes, and each slice is found under a key of its own. -/
structure SliceChain (mro : List Object) : Prop extends Linked mro where
  known : ∀ o ∈ mro, typeInfo d o.mName = some o
  named : ∀ o ∈ mro, LetterName o.mName
  distinct : (mro.map slice).Nodup
  fresh : mro.IsChain fun o p => slice o ∉ (ownItems p).map MemberVariable.mMember
  members : ∀ o ∈ mro, ∀ m ∈ ownItems o, Printable d m

end Chain

section Names

def dataName (s : Text) : Text := s ++ "_data".toList

variable {o : Object} {s : Text}

theorem letterName_slice (h : LetterName o.mName) : LetterName (slice o) := by
  rw [slice]
  obtain ⟨⟨hne, hall⟩, hhead⟩ := h
  cases hname : o.mName with
  | nil => exact absurd hname hne
  | cons c t =>
      rw [hname, List.forall_mem_cons] at hall
      rw [hname] at hhead
      have hletter : c.toLower.isAlpha = true := isAlpha_toLower (hhead c rfl)
      refine ⟨⟨List.cons_ne_nil _ _, List.forall_mem_cons.mpr ⟨isNameChar_of_isAlpha hletter, hall.2⟩⟩, ?_⟩
      rintro _ ⟨⟩
      exact hletter

theorem letterName_dataName (h : LetterName s) : LetterName (dataName s) := by
  obtain ⟨⟨hne, hall⟩, hhead⟩ := h
  have hdata : ∀ c ∈ "_data".toList, isNameChar c = true := List.all_eq_true.mp rfl
  refine ⟨⟨by simp [dataName, hne], List.forall_mem_append.mpr ⟨hall, hdata⟩⟩, ?_⟩
  rwa [dataName, List.head?_append_of_ne_nil _ hne]

theorem dataName_not_keyword (s : Text) : dataName s ∉ keywords := by
  have hsuffix : ∀ k ∈ keywords, ¬ "_data".toList <:+ k := by decide
  exact fun h => hsuffix _ h (List.suffix_append _ _)

theorem legalName_dataName (h : LetterName s) : LegalName (dataName s) := by
  obtain ⟨hid, hhead⟩ := letterName_dataName h
  exact ⟨hid, fun c hc => isDigit_of_isAlpha (hhead c hc), dataName_not_keyword s⟩

theorem dataName_injective : Function.Injective dataName := fun _ _ h => List.append_cancel_right h

theorem dataName_ne_data (s : Text) : dataName s ≠ "data".toList := by
  intro h
  have hlength := congrArg List.length h
  simp [dataName] at hlength

theorem legalName_data : LegalName "data".toList :=
  ⟨⟨List.cons_ne_nil _ _, List.all_eq_true.mp rfl⟩, by rintro _ ⟨⟩; decide, by decide⟩

theorem mangle_of_letter (cls : Text) (h : ∀ c ∈ s.head?, c.isAlpha = true) : mangle cls s = s := by
  have hprefix : "__".toList.isPrefixOf s = false := by
    cases s with
    | nil => rfl
    | cons c s =>
        have hne := ne_underscore_of_isAlpha (h c rfl)
        simp [List.isPrefixOf, Ne.symm hne]
  rw [mangle, hprefix]
  rfl

theorem quotable_of_identifier (h : Identifier s) : Quotable s := fun c hc => ordinary_of_nameChar (h.2 c hc)

theorem legalName_tableName (h : Identifier s ∧ ∀ c ∈ s.head?, c.isDigit = false) :
    LegalName (tableName s) := by
  obtain ⟨⟨hne, hall⟩, hhead⟩ := h
  have hstrings : ∀ c ∈ "_strings".toList, isNameChar c = true := List.all_eq_true.mp rfl
  refine ⟨⟨by simp [tableName, hne], List.forall_mem_append.mpr ⟨hall, hstrings⟩⟩, ?_, tableName_not_keyword s⟩
  rwa [tableName, List.head?_append_of_ne_nil _ hne]

end Names

section Lines

variable {d : DOM} {o : Object} {m : MemberVariable}

theorem readCall_code {s : Stmt} (h : s.Legal) {indent : Nat} {format : String} {args : List Text}
    (hline : stringFormat format.toList args = s.line) : readCall (code indent format args) = some s := by
  rw [code, readCall, hline, readLine_line h]

def memberExpr (d : DOM) (m : MemberVariable) : Expr :=
  if m.mIsArray then
    if isClassType d m.mType then .eachData m.mMember else .each m.mMember
  else if isClassType d m.mType then .attrData m.mMember
  else if isEnumType d m.mType then .entry (tableName m.mType) m.mMember
  else .attr m.mMember

def memberStmt (d : DOM) (m : MemberVariable) : Stmt := .store "data".toList m.mMember (memberExpr d m)

theorem legal_memberStmt (h : Printable d m) : (memberStmt d m).Legal := by
  refine ⟨legalName_data, quotable_of_identifier h.name.1, ?_⟩
  rw [memberExpr]
  split_ifs
  · exact h.name
  · exact h.name
  · exact h.name
  · exact ⟨legalName_tableName h.type, h.name⟩
  · exact h.name

theorem asDataMember_eq (h : Printable d m) : asDataMember d m = some (.code 2 (memberStmt d m).line) := by
  have hknown := h.known
  rw [asDataMember] at hknown ⊢
  rw [memberStmt, memberExpr]
  split_ifs at hknown ⊢ with harray hclass henum
  · rfl
  · exact absurd ⟨harray, by simpa using hclass, henum⟩ h.noEnumArray
  · rfl
  · exact absurd hknown (by simp)
  · rfl
  · simp only [code, Stmt.line, Stmt.parts, Expr.parts, PythonStatements.printed, tableName,
      List.append_assoc]
    rfl
  · rfl
  · exact absurd hknown (by simp)

theorem mapM_members {ms : List MemberVariable} (h : ∀ m ∈ ms, Printable d m) :
    (ms.filterMap (asDataMember d)).mapM readCall = some (ms.map (memberStmt d)) := by
  induction ms with
  | nil => rfl
  | cons m ms ih =>
      rw [List.forall_mem_cons] at h
      rw [List.filterMap_cons, asDataMember_eq h.1]
      simp only
      rw [List.mapM_cons, readCall, readLine_line (legal_memberStmt h.1), ih h.2]
      rfl

def sliceStmts (base : Text) : List Object → List Stmt
  | [] => []
  | p :: ps => .assign (dataName (slice p)) (.item (dataName base) (slice p)) :: sliceStmts (slice p) ps

theorem mapM_slices {base : Text} {ps : List Object} (hbase : LetterName base)
    (hps : ∀ p ∈ ps, LetterName p.mName) :
    (slices base ps).1.mapM readCall = some (sliceStmts base ps) := by
  induction ps generalizing base with
  | nil => rfl
  | cons p ps ih =>
      rw [List.forall_mem_cons] at hps
      have hslice : LetterName (slice p) := letterName_slice hps.1
      have hread : readCall (code 2 "%s_data = %s_data['%s']\n" [slice p, base, slice p]) =
          some (.assign (dataName (slice p)) (.item (dataName base) (slice p))) := by
        refine readCall_code ?_ ?_
        · exact ⟨legalName_dataName hslice, legalName_dataName hbase, quotable_of_identifier hslice.1⟩
        · simp only [Stmt.line, Stmt.parts, Expr.parts, PythonStatements.printed, dataName, List.append_assoc]
          rfl
      have hcalls : (slices base (p :: ps)).1 =
          code 2 "%s_data = %s_data['%s']\n" [slice p, base, slice p] :: (slices (slice p) ps).1 := rfl
      rw [hcalls, List.mapM_cons, hread, ih hslice hps.2]
      rfl

def lastSlice (base : Text) (ps : List Object) : Text := (slices base ps).2

theorem letterName_lastSlice {base : Text} {ps : List Object} (hbase : LetterName base)
    (hps : ∀ p ∈ ps, LetterName p.mName) : LetterName (lastSlice base ps) := by
  induction ps generalizing base with
  | nil => exact hbase
  | cons p ps ih =>
      rw [List.forall_mem_cons] at hps
      exact ih (letterName_slice hps.1) hps.2

def dataStmts (d : DOM) (o : Object) : List Stmt :=
  .assign "data".toList .dict :: (ownItems o).map (memberStmt d)

/-- The statements that put the data into its slice, for the bases from the root on. -/
def baseStmts (o root : Object) (mids : List Object) : List Stmt :=
  .assign (dataName (slice root)) .superData ::
    (sliceStmts (slice root) mids ++
      [.store (dataName (lastSlice (slice root) mids)) (slice o) (.var "data".toList),
        .ret (dataName (slice root))])

theorem readCall_dict : readCall (code 2 "data = \x7b\x7d\n") = some (.assign "data".toList .dict) :=
  readCall_code (s := .assign "data".toList .dict) ⟨legalName_data, trivial⟩ rfl

theorem readCall_ret : readCall (code 2 "return data\n") = some (.ret "data".toList) :=
  readCall_code (s := .ret "data".toList) legalName_data rfl

theorem mapM_baseSlices {root : Object} {mids : List Object} (ho : LetterName o.mName)
    (hroot : LetterName root.mName) (hmids : ∀ p ∈ mids, LetterName p.mName) :
    (baseSlices o (root :: mids)).mapM readCall = some (baseStmts o root mids) := by
  have hslice : LetterName (slice root) := letterName_slice hroot
  have hlast := letterName_lastSlice hslice hmids
  have hsuper : readCall (code 2 "%s_data = super().as_data()\n" [slice root]) =
      some (.assign (dataName (slice root)) .superData) := by
    refine readCall_code ?_ ?_
    · exact ⟨legalName_dataName hslice, trivial⟩
    · simp only [Stmt.line, Stmt.parts, Expr.parts, PythonStatements.printed, dataName, List.append_assoc]
      rfl
  have hstore : readCall (code 2 "%s_data['%s'] = data\n" [lastSlice (slice root) mids, slice o]) =
      some (.store (dataName (lastSlice (slice root) mids)) (slice o) (.var "data".toList)) := by
    refine readCall_code ?_ ?_
    · exact ⟨legalName_dataName hlast, quotable_of_identifier (letterName_slice ho).1, legalName_data⟩
    · simp only [Stmt.line, Stmt.parts, Expr.parts, PythonStatements.printed, dataName, List.append_assoc]
      rfl
  have hret : readCall (code 2 "return %s_data\n" [slice root]) = some (.ret (dataName (slice root))) := by
    refine readCall_code ?_ ?_
    · exact legalName_dataName hslice
    · simp only [Stmt.line, Stmt.parts, word, PythonStatements.printed, dataName, List.append_assoc]
      rfl
  have hcalls : baseSlices o (root :: mids) =
      code 2 "%s_data = super().as_data()\n" [slice root] ::
        ((slices (slice root) mids).1 ++ [code 2 "%s_data['%s'] = data\n" [lastSlice (slice root) mids, slice o],
          code 2 "return %s_data\n" [slice root]]) := rfl
  rw [hcalls, List.mapM_cons, List.mapM_append, mapM_slices hslice hmids, List.mapM_cons, List.mapM_cons,
    List.mapM_nil, hsuper, hstore, hret]
  rfl

theorem SliceChain.tail {p : Object} {bases : List Object} (h : SliceChain d (o :: p :: bases)) :
    SliceChain d (p :: bases) where
  known q hq := h.known q (List.mem_cons_of_mem o hq)
  classes q hq := h.classes q (List.mem_cons_of_mem o hq)
  named q hq := h.named q (List.mem_cons_of_mem o hq)
  linked := h.linked.tail
  root q hq := h.root q (by rwa [List.getLast?_cons_cons])
  distinct := (List.nodup_cons.mp h.distinct).2
  fresh := h.fresh.tail
  members q hq := h.members q (List.mem_cons_of_mem o hq)

theorem SliceChain.inheritsFrom_ne_nil {p : Object} {bases : List Object}
    (h : SliceChain d (o :: p :: bases)) : o.mInheritsFrom ≠ [] := by
  rw [(List.isChain_cons_cons.mp h.linked).1]
  exact (h.named p (by simp)).1.1

theorem parents_chain {rounds : Nat} {bases : List Object} (h : SliceChain d (o :: bases))
    (hrounds : bases.length < rounds) (pushed : List Object) :
    parents d rounds o pushed = some (.ok (bases.reverse ++ pushed)) := by
  induction bases generalizing o rounds pushed with
  | nil =>
      obtain ⟨n, rfl⟩ := Nat.exists_eq_add_of_lt hrounds
      rw [parents, if_pos (h.root o rfl)]
      rfl
  | cons p bases ih =>
      obtain ⟨n, rfl⟩ := Nat.exists_eq_add_of_lt hrounds
      have hbase : typeInfo d o.mInheritsFrom = some p := by
        rw [(List.isChain_cons_cons.mp h.linked).1]
        exact h.known p (by simp)
      rw [parents, if_neg h.inheritsFrom_ne_nil, hbase]
      simp only
      rw [ih h.tail (by simp; omega), List.reverse_cons, List.append_assoc, List.singleton_append]

theorem body_root {rounds : Nat} (h : SliceChain d [o]) :
    body d rounds o = some (dataStmts d o ++ [.ret "data".toList]) := by
  have hmembers := mapM_members (h.members o (by simp))
  rw [body, saveAsData, h.classes o (by simp), if_neg Bool.false_ne_true, h.known o (by simp)]
  simp only
  rw [savePythonBase, h.classes o (by simp), if_neg Bool.false_ne_true, h.known o (by simp)]
  simp only
  rw [if_pos (h.root o rfl), Option.map_some, Option.bind_some, List.mapM_cons, List.mapM_append, hmembers,
    List.mapM_cons, List.mapM_nil, readCall_dict, readCall_ret]
  rfl

theorem body_derived {rounds : Nat} {p root : Object} {bases mids : List Object}
    (h : SliceChain d (o :: p :: bases)) (hrounds : (p :: bases).length < rounds)
    (hbases : (p :: bases).reverse = root :: mids) :
    body d rounds o = some (dataStmts d o ++ baseStmts o root mids) := by
  have hmembers := mapM_members (h.members o (by simp))
  have hnamed : ∀ q ∈ root :: mids, LetterName q.mName := by
    intro q hq
    rw [← hbases, List.mem_reverse] at hq
    exact h.named q (List.mem_cons_of_mem o hq)
  rw [List.forall_mem_cons] at hnamed
  have hslices := mapM_baseSlices (h.named o (by simp)) hnamed.1 hnamed.2
  rw [body, saveAsData, h.classes o (by simp), if_neg Bool.false_ne_true, h.known o (by simp)]
  simp only
  rw [savePythonBase, h.classes o (by simp), if_neg Bool.false_ne_true, h.known o (by simp)]
  simp only
  rw [if_neg h.inheritsFrom_ne_nil, parents_chain h hrounds, List.append_nil, hbases, Option.map_some,
    Option.map_some, Except.map, Option.bind_some, List.mapM_cons, List.mapM_append, hmembers, hslices,
    readCall_dict]
  rfl

end Lines

section Steps

variable {P : Type} {d : DOM} {sc : Scope P} {s : State P} {x y : Text} {v : Value P} {stmts : List Stmt}

theorem lookup_bindVar_self : lookup sc (bindVar sc s x v) x = some v := Function.update_self ..

theorem lookup_bindVar_of_ne (hx : LetterName x) (hy : LetterName y) (hne : y ≠ x) :
    lookup sc (bindVar sc s x v) y = lookup sc s y := by
  rw [lookup, lookup, bindVar, mangle_of_letter _ hx.2, mangle_of_letter _ hy.2]
  exact Function.update_of_ne hne _ _

theorem letterName_data : LetterName "data".toList := ⟨legalName_data.1, by rintro _ ⟨⟩; decide⟩

theorem run_assign {s' : State P} {e : Expr} (he : eval sc s e = some (s', v)) :
    run sc (.assign x e :: stmts) s = run sc stmts (bindVar sc s' x v) := by
  rw [run, he]
  rfl

theorem run_store {s' : State P} {e : Expr} {a : Nat} {key : Text} {l : List (Text × Value P)}
    (he : eval sc s e = some (s', v)) (hx : lookup sc s' x = some (.ref a)) (hcell : s'.heap[a]? = some l) :
    run sc (.store x key e :: stmts) s = run sc stmts { s' with heap := s'.heap.set a (put key v l) } := by
  simp [run, he, hx, address, hcell]

theorem run_ret (hx : lookup sc s x = some v) : run sc (.ret x :: stmts) s = some (s.heap, v) := by
  rw [run, hx]
  rfl

theorem eval_memberExpr {m : MemberVariable} {t : Data P}
    (h : memberData d sc.toView sc.cls m = some t) : eval sc s (memberExpr d m) = some (s, .data t) := by
  rw [memberData] at h
  rw [memberExpr]
  split_ifs at h ⊢ with harray hclass hclass henum
  · obtain ⟨held, hheld, h⟩ := Option.bind_eq_some_iff.mp h
    obtain ⟨l, hl, h⟩ := Option.bind_eq_some_iff.mp h
    obtain ⟨ts, hts, h⟩ := Option.bind_eq_some_iff.mp h
    obtain rfl := Option.some.inj h
    simp [eval, hheld, hl, hts]
  · obtain ⟨held, hheld, h⟩ := Option.bind_eq_some_iff.mp h
    obtain ⟨l, hl, h⟩ := Option.bind_eq_some_iff.mp h
    obtain rfl := Option.some.inj h
    simp [eval, hheld, hl]
  · obtain ⟨held, hheld, h⟩ := Option.bind_eq_some_iff.mp h
    simp [eval, hheld, h]
  · obtain ⟨table, htable, h⟩ := Option.bind_eq_some_iff.mp h
    obtain ⟨held, hheld, h⟩ := Option.bind_eq_some_iff.mp h
    obtain ⟨n, hn, h⟩ := Option.bind_eq_some_iff.mp h
    obtain ⟨entry, hentry, h⟩ := Option.bind_eq_some_iff.mp h
    obtain rfl := Option.some.inj h
    simp [eval, htable, hheld, hn, hentry]
  · obtain ⟨held, hheld, rfl⟩ := Option.map_eq_some_iff.mp h
    simp [eval, hheld]

theorem run_members {ms : List MemberVariable} {a : Nat} {l l' : List (Text × Data P)}
    (hdata : lookup sc s "data".toList = some (.ref a)) (hcell : s.heap[a]? = some (entries l))
    (hl : ms.foldlM (fun l m => (memberData d sc.toView sc.cls m).map fun t => put m.mMember t l) l = some l') :
    run sc (ms.map (memberStmt d) ++ stmts) s =
      run sc stmts { s with heap := s.heap.set a (entries l') } := by
  induction ms generalizing s l with
  | nil =>
      obtain rfl := Option.some.inj hl
      obtain ⟨hlength, hget⟩ := List.getElem?_eq_some_iff.mp hcell
      rw [List.map_nil, List.nil_append, ← hget, List.set_getElem_self]
  | cons m ms ih =>
      rw [List.foldlM_cons] at hl
      obtain ⟨l₁, hl₁, hl⟩ := Option.bind_eq_some_iff.mp hl
      obtain ⟨t, ht, rfl⟩ := Option.map_eq_some_iff.mp hl₁
      have hlength : a < s.heap.length := (List.getElem?_eq_some_iff.mp hcell).1
      rw [List.map_cons, List.cons_append, memberStmt, run_store (eval_memberExpr ht) hdata hcell,
        ← entries_put]
      have hrest := ih (s := { s with heap := s.heap.set a (entries (put m.mMember t l)) }) hdata
        (List.getElem?_set_self hlength) hl
      rw [hrest, List.set_set]

theorem run_slices (stmts : List Stmt) {mids : List Object} {base : Text} {a t : Nat}
    {levels : List (List (Text × Data P) × Text)} (hseg : Segment s.heap a levels t)
    (hkeys : levels.map Prod.snd = mids.map slice) (hbase : LetterName base)
    (hmids : ∀ p ∈ mids, LetterName p.mName) (hvar : lookup sc s (dataName base) = some (.ref a)) :
    ∃ s', run sc (sliceStmts base mids ++ stmts) s = run sc stmts s' ∧ s'.heap = s.heap ∧
      lookup sc s' (dataName (lastSlice base mids)) = some (.ref t) ∧
      ∀ x, LetterName x → (∀ p ∈ mids, x ≠ dataName (slice p)) → lookup sc s' x = lookup sc s x := by
  induction mids generalizing s base a levels with
  | nil =>
      obtain rfl : levels = [] := by simpa using hkeys
      cases hseg
      exact ⟨s, rfl, rfl, hvar, fun _ _ _ => rfl⟩
  | cons p mids ih =>
      cases hseg with
      | here => exact absurd hkeys (by simp)
      | @down _ b _ l k levels hcell hkey _ hrest =>
          rw [List.map_cons, List.map_cons, List.cons.injEq] at hkeys
          obtain ⟨rfl, hkeys⟩ := hkeys
          rw [List.forall_mem_cons] at hmids
          have hslice := letterName_slice hmids.1
          have hentry : (entries l ++ [(slice p, Entry.ref b)]).lookup (slice p) = some (Entry.ref b) :=
            lookup_of_notMem (by rwa [keys_entries])
          have hstep : run sc (sliceStmts base (p :: mids) ++ stmts) s =
              run sc (sliceStmts (slice p) mids ++ stmts) (bindVar sc s (dataName (slice p)) (.ref b)) := by
            rw [sliceStmts, List.cons_append, run_assign]
            simp [eval, hvar, address, hcell, hentry]
          obtain ⟨s', hrun, hheap, hlast, hframe⟩ := ih (s := bindVar sc s (dataName (slice p)) (.ref b))
            hrest hkeys hslice hmids.2 lookup_bindVar_self
          refine ⟨s', hstep.trans hrun, hheap, hlast, fun x hx hne => ?_⟩
          rw [List.forall_mem_cons] at hne
          rw [hframe x hx hne.2, lookup_bindVar_of_ne (letterName_dataName hslice) hx hne.1]

theorem run_baseStmts {o root : Object} {mids : List Object} {heap : Store P} {a r t : Nat}
    {levels : List (List (Text × Data P) × Text)} {l : List (Text × Data P)}
    (hbase : sc.base s.heap = some (heap, .ref r)) (hdata : lookup sc s "data".toList = some (.ref a))
    (hseg : Segment heap r levels t) (hkeys : levels.map Prod.snd = mids.map slice)
    (ht : heap[t]? = some (entries l)) (hkey : slice o ∉ keys l)
    (hnamed : ∀ p ∈ root :: mids, LetterName p.mName) (hdistinct : ((root :: mids).map slice).Nodup) :
    run sc (baseStmts o root mids) s =
      some (heap.set t (entries l ++ [(slice o, .ref a)]), .ref r) := by
  rw [List.forall_mem_cons] at hnamed
  rw [List.map_cons, List.nodup_cons] at hdistinct
  have hslice := letterName_slice hnamed.1
  have hne : ∀ p ∈ mids, dataName (slice root) ≠ dataName (slice p) :=
    fun p hp he => hdistinct.1 (dataName_injective he ▸ List.mem_map_of_mem hp)
  have hsuper : eval sc s .superData = some ({ s with heap := heap }, .ref r) := by
    rw [eval, hbase]
    rfl
  let s₁ := bindVar sc { s with heap := heap } (dataName (slice root)) (.ref r)
  obtain ⟨s₂, hslices, hheap, hlast, hkeep⟩ := run_slices (s := s₁)
    [.store (dataName (lastSlice (slice root) mids)) (slice o) (.var "data".toList), .ret (dataName (slice root))]
    hseg hkeys hslice hnamed.2 lookup_bindVar_self
  have hheap : s₂.heap = heap := hheap
  have hvar : eval sc s₂ (.var "data".toList) = some (s₂, .ref a) := by
    rw [eval, hkeep _ letterName_data fun p _ => (dataName_ne_data _).symm,
      lookup_bindVar_of_ne (letterName_dataName hslice) letterName_data (dataName_ne_data _).symm]
    exact congrArg (Option.map _) hdata
  have hroot : lookup sc s₂ (dataName (slice root)) = some (.ref r) := by
    rw [hkeep _ (letterName_dataName hslice) hne]
    exact lookup_bindVar_self
  have hput : put (slice o) (.ref a) (entries l) = entries l ++ [(slice o, .ref a)] :=
    put_of_notMem (by rwa [keys_entries])
  have hret : run sc [.ret (dataName (slice root))]
      { s₂ with heap := heap.set t (entries l ++ [(slice o, .ref a)]) } =
        some (heap.set t (entries l ++ [(slice o, .ref a)]), .ref r) := run_ret hroot
  rw [baseStmts, run_assign hsuper, hslices, run_store hvar hlast (by rw [hheap, ht]), hput, hheap, hret]

end Steps

section Nest

variable {P : Type} {d : DOM} {w : View P} {o p : Object}

theorem localData_induction {I : List (Text × Data P) → Prop} {l : List (Text × Data P)}
    (hput : ∀ m ∈ ownItems o, ∀ l t, I l → I (put m.mMember t l)) (hnil : I [])
    (h : localData d w o = some l) : I l := by
  rw [localData] at h
  revert hnil h
  generalize ([] : List (Text × Data P)) = acc
  generalize ownItems o = ms at hput
  intro hacc h
  induction ms generalizing acc with
  | nil => exact Option.some.inj h ▸ hacc
  | cons m ms ih =>
      rw [List.forall_mem_cons] at hput
      rw [List.foldlM_cons] at h
      obtain ⟨l₁, hl₁, h⟩ := Option.bind_eq_some_iff.mp h
      obtain ⟨t, _, rfl⟩ := Option.map_eq_some_iff.mp hl₁
      exact ih _ hput.2 (hput.1 acc t hacc) h

theorem mem_keys_localData {l : List (Text × Data P)} {k : Text} (h : localData d w o = some l)
    (hk : k ∈ keys l) : k ∈ (ownItems o).map MemberVariable.mMember := by
  refine localData_induction (I := fun l => k ∈ keys l → k ∈ (ownItems o).map MemberVariable.mMember)
    (fun m hm l t hl hmem => ?_) (fun hmem => absurd hmem List.not_mem_nil) h hk
  rcases mem_keys_put.mp hmem with rfl | hmem
  · exact List.mem_map_of_mem hm
  · exact hl hmem

variable (own : Object → List (Text × Data P))

/-- The data of each class of a chain from the root, with the slice of the next one. -/
def levels : List Object → List (List (Text × Data P) × Text)
  | o :: p :: below => (own o, slice p) :: levels (p :: below)
  | _ => []

theorem levels_snoc (above : List Object) :
    levels own (above ++ [p, o]) = levels own (above ++ [p]) ++ [(own p, slice o)] := by
  induction above with
  | nil => rfl
  | cons q above ih =>
      cases above with
      | nil => rfl
      | cons r above => exact congrArg ((own q, slice r) :: ·) ih

theorem levels_keys (o : Object) (below : List Object) :
    (levels own (o :: below)).map Prod.snd = below.map slice := by
  induction below generalizing o with
  | nil => rfl
  | cons p below ih => exact congrArg (slice p :: ·) (ih p)

theorem nested_eq {own : Object → List (Text × Data P)} (above : List Object)
    (hown : ∀ q ∈ above ++ [o], localData d w q = some (own q)) :
    nested d w (above ++ [o]) = some (nest (levels own (above ++ [o])) (own o)) := by
  induction above with
  | nil => exact hown o (by simp)
  | cons q above ih =>
      rw [List.cons_append, List.forall_mem_cons] at hown
      have hinner := ih hown.2
      cases above with
      | nil =>
          simp only [List.cons_append, List.nil_append] at hinner ⊢
          rw [nested, hown.1, hinner]
          rfl
      | cons r above =>
          simp only [List.cons_append] at hinner ⊢
          rw [nested, hown.1, hinner]
          rfl

end Nest

section Chain

variable {P : Type} {d : DOM} {w : View P} {rounds : Nat} {o : Object}

theorem run_dataStmts (sc : Scope P) {stmts : List Stmt} {l : List (Text × Data P)}
    (hcls : sc.cls = o.mName) (hl : localData d sc.toView o = some l) (heap : Store P) :
    run sc (dataStmts d o ++ stmts) ⟨heap, fun _ => none⟩ =
      run sc stmts (bindVar sc ⟨heap ++ [entries l], fun _ => none⟩ "data".toList (.ref heap.length)) := by
  have hdict : eval sc ⟨heap, fun _ => none⟩ .dict =
      some (⟨heap ++ [[]], fun _ => none⟩, .ref heap.length) := rfl
  have hcell : (heap ++ [[]])[heap.length]? = some (entries []) := List.getElem?_concat_length
  rw [localData, ← hcls] at hl
  rw [dataStmts, List.cons_append, run_assign hdict, run_members lookup_bindVar_self hcell hl, bindVar, bindVar]
  simp

/-- `as_data` makes the dictionaries of the chain on the heap, each in that of its base, and returns
that of the root. -/
theorem runClass_spec {own : Object → List (Text × Data P)} {bases : List Object}
    (h : SliceChain d (o :: bases)) (hown : ∀ q ∈ o :: bases, localData d w q = some (own q))
    (hrounds : bases.length < rounds) (heap : Store P) :
    ∃ heap' r t, runClass d rounds w (o :: bases) heap = some (heap', .ref r) ∧
      Segment heap' r (levels own (o :: bases).reverse) t ∧ heap'[t]? = some (entries (own o)) ∧
      heap.length ≤ t ∧ ∀ i < heap.length, heap'[i]? = heap[i]? := by
  induction bases generalizing o heap with
  | nil =>
      refine ⟨heap ++ [entries (own o)], heap.length, heap.length, ?_, .here _, by simp, le_rfl, ?_⟩
      · rw [runClass, body_root h, Option.bind_some,
          run_dataStmts { toView := w, cls := o.mName, base := runClass d rounds w [] } rfl
            (hown o (by simp)), run_ret lookup_bindVar_self]
        rfl
      · intro i hi
        rw [List.getElem?_append_left hi]
  | cons p bases ih =>
      obtain ⟨root, mids, hbases⟩ : ∃ root mids, (p :: bases).reverse = root :: mids :=
        List.exists_cons_of_ne_nil (by simp)
      have hnamed : ∀ q ∈ root :: mids, LetterName q.mName := fun q hq =>
        h.named q (List.mem_cons_of_mem o (List.mem_reverse.mp (hbases ▸ hq)))
      have hdistinct : ((root :: mids).map slice).Nodup := by
        rw [← hbases, List.map_reverse]
        exact List.nodup_reverse.mpr h.tail.distinct
      have hkey : slice o ∉ keys (own p) := fun hk =>
        (List.isChain_cons_cons.mp h.fresh).1 (mem_keys_localData (hown p (by simp)) hk)
      -- the base runs behind the dictionary of the class itself
      obtain ⟨heap₁, r, t, hsuper, hseg, ht, hle, hframe⟩ :=
        ih h.tail (fun q hq => hown q (List.mem_cons_of_mem o hq)) (by simp at hrounds ⊢; omega)
          (heap ++ [entries (own o)])
      rw [List.length_append, List.length_singleton] at hle hframe
      let sc : Scope P := { toView := w, cls := o.mName, base := runClass d rounds w (p :: bases) }
      refine ⟨heap₁.set t (entries (own p) ++ [(slice o, .ref heap.length)]), r, heap.length, ?_, ?_, ?_, le_rfl, ?_⟩
      · rw [runClass, body_derived h hrounds hbases, Option.bind_some,
          run_dataStmts sc rfl (hown o (by simp))]
        exact run_baseStmts hsuper lookup_bindVar_self (hbases ▸ hseg) (levels_keys own root mids) ht hkey hnamed
          hdistinct
      · have hlevels := levels_snoc own (o := o) (p := p) bases.reverse
        rw [List.reverse_cons, List.reverse_cons, List.append_assoc]
        rw [List.reverse_cons] at hseg
        exact hlevels ▸ hseg.extend ht hkey (by omega)
      · rw [List.getElem?_set_ne (by omega), hframe _ (by omega), List.getElem?_concat_length]
      · intro i hi
        rw [List.getElem?_set_ne (by omega), hframe i (by omega), List.getElem?_append_left hi]

theorem localData_isSome (h : ∀ m ∈ ownItems o, (memberData d w o.mName m).isSome) :
    (localData d w o).isSome := by
  rw [localData]
  generalize ([] : List (Text × Data P)) = l
  generalize ownItems o = ms at h
  induction ms generalizing l with
  | nil => rfl
  | cons m ms ih =>
      rw [List.forall_mem_cons] at h
      obtain ⟨t, ht⟩ := Option.isSome_iff_exists.mp h.1
      rw [List.foldlM_cons, ht]
      exact ih _ h.2

variable {tables : Text → Option (List Text)} {depth : Nat} {attrs : List (Text × Held P)} {bases : List Object}

/-- `as_data` of a class returns the data of its root, with those of each class below in its slice
of the data above it, when all attributes are set. -/
theorem asData_nested (h : SliceChain d (o :: bases)) (hrounds : bases.length < rounds)
    (hset : ∀ q ∈ o :: bases, ∀ m ∈ ownItems q,
      (memberData d (viewOf tables (asData d rounds tables depth) attrs) q.mName m).isSome) :
    ∃ l, nested d (viewOf tables (asData d rounds tables depth) attrs) (o :: bases).reverse = some l ∧
      asData d rounds tables (depth + 1) (o :: bases) attrs = some (.dict l) := by
  set w := viewOf tables (asData d rounds tables depth) attrs
  let own (q : Object) := (localData d w q).getD []
  have hown : ∀ q ∈ o :: bases, localData d w q = some (own q) := by
    intro q hq
    obtain ⟨l, hl⟩ := Option.isSome_iff_exists.mp (localData_isSome (hset q hq))
    simp only [own, hl, Option.getD_some]
  obtain ⟨heap, r, t, hrun, hseg, ht, -, -⟩ := runClass_spec (w := w) h hown hrounds []
  refine ⟨nest (levels own (o :: bases).reverse) (own o), ?_, ?_⟩
  · rw [List.reverse_cons]
    exact nested_eq bases.reverse fun q hq => hown q (by simpa [or_comm] using hq)
  · have hlow := hseg.length_le
    have hroot := hseg.lt_length (List.getElem?_eq_some_iff.mp ht).1
    rw [asData, hrun, Option.bind_some]
    change resolve heap heap.length (.ref r) = _
    exact hseg.resolve_eq ht (by omega)

end Chain

section Lineage

variable {before mro : List Object} {o p : Object} {base : Text}

theorem Linked.cons (h : Linked (p :: mro)) (hclass : stricmp o.mType "Enum".toList = false)
    (hlink : o.mInheritsFrom = p.mName) : Linked (o :: p :: mro) where
  classes := List.forall_mem_cons.mpr ⟨hclass, h.classes⟩
  linked := List.isChain_cons_cons.mpr ⟨hlink, h.linked⟩
  root q hq := h.root q (by rwa [List.getLast?_cons_cons] at hq)

theorem linked_singleton (hclass : stricmp o.mType "Enum".toList = false) (hroot : o.mInheritsFrom = []) :
    Linked [o] where
  classes := by simpa using hclass
  linked := List.isChain_singleton o
  root := by simpa using hroot

theorem name_of_binds (hclass : stricmp p.mType "Enum".toList = false) (h : binds base p = true) :
    p.mName = base := by
  rw [binds, hclass, if_neg Bool.false_ne_true] at h
  exact of_decide_eq_true h

theorem lineageOf_linked (h : lineageOf before base = some mro) :
    ∃ p bases, mro = p :: bases ∧ p.mName = base ∧ Linked mro := by
  induction before generalizing base mro with
  | nil => exact absurd h (by simp [lineageOf])
  | cons p before ih =>
      rw [lineageOf] at h
      split_ifs at h with hbinds henum hroot
      · have hclass : stricmp p.mType "Enum".toList = false := by simpa using henum
        obtain rfl := Option.some.inj h
        exact ⟨p, [], rfl, name_of_binds hclass hbinds, linked_singleton hclass hroot⟩
      · have hclass : stricmp p.mType "Enum".toList = false := by simpa using henum
        obtain ⟨ps, hps, rfl⟩ := Option.map_eq_some_iff.mp h
        obtain ⟨q, bases, rfl, hq, hlinked⟩ := ih hps
        exact ⟨p, q :: bases, rfl, name_of_binds hclass hbinds, hlinked.cons hclass hq.symm⟩
      · exact ih h

theorem lineage_linked (h : lineage before o = some mro) : Linked mro := by
  rw [lineage] at h
  split_ifs at h with henum hroot
  · have hclass : stricmp o.mType "Enum".toList = false := by simpa using henum
    obtain rfl := Option.some.inj h
    exact linked_singleton hclass hroot
  · have hclass : stricmp o.mType "Enum".toList = false := by simpa using henum
    obtain ⟨ps, hps, rfl⟩ := Option.map_eq_some_iff.mp h
    obtain ⟨q, bases, rfl, hq, hlinked⟩ := lineageOf_linked hps
    exact hlinked.cons hclass hq.symm

end Lineage

section Examples

def shapeItem (member type : String) (array : Bool := false) : MemberVariable where
  mMember := member.toList
  mType := type.toList
  mIsArray := array

def shape : Object where
  mName := "Shape".toList
  mType := "Class".toList
  mIsClass := true
  mItems := [shapeItem "name" "string"]

def circle : Object where
  mName := "Circle".toList
  mType := "Class".toList
  mInheritsFrom := "Shape".toList
  mIsClass := true
  mItems := [shapeItem "radius" "float", shapeItem "marks" "u32" true]

def disc : Object where
  mName := "Disc".toList
  mType := "Class".toList
  mInheritsFrom := "Circle".toList
  mIsClass := true
  mItems := [shapeItem "tone" "Tone", shapeItem "parts" "Shape" true]

def drawing : DOM where
  mObjects := [tone, shape, circle, disc]
  mObjectMap := [("Tone".toList, 0), ("Shape".toList, 1), ("Circle".toList, 2), ("Disc".toList, 3)]

def discAttrs : List (Text × Held Unit) :=
  [("name".toList, .str "D".toList), ("radius".toList, .other ()),
    ("marks".toList, .list [.int 1, .int 2]), ("tone".toList, .int 1),
    ("parts".toList, .list [.object [shape] [("name".toList, .str "P".toList)]])]

def isNamed (begins : Char → Bool) (s : Text) : Bool := s.all isNameChar && s.head?.any begins

theorem isNamed_spec {begins : Char → Bool} {s : Text} (h : isNamed begins s = true) :
    Identifier s ∧ ∀ c ∈ s.head?, begins c = true := by
  rw [isNamed, Bool.and_eq_true] at h
  cases s with
  | nil => exact absurd h.2 (by simp)
  | cons c s =>
      refine ⟨⟨List.cons_ne_nil _ _, List.all_eq_true.mp h.1⟩, ?_⟩
      rintro _ ⟨⟩
      simpa using h.2

theorem disc_chain : SliceChain drawing [disc, circle, shape] where
  known := by decide +kernel
  classes := by decide +kernel
  named := by
    have hnames : ∀ o ∈ [disc, circle, shape], isNamed Char.isAlpha o.mName = true := by decide +kernel
    exact fun o ho => isNamed_spec (hnames o ho)
  linked := by decide +kernel
  root := by decide +kernel
  distinct := by decide +kernel
  fresh := by decide +kernel
  members := by
    have hlines : ∀ o ∈ [disc, circle, shape], ∀ m ∈ ownItems o,
        (asDataMember drawing m).isSome ∧ ¬EnumArray drawing m ∧ isLegal m.mMember = true ∧
          isNamed (fun c => !c.isDigit) m.mType = true := by
      decide +kernel
    intro o ho m hm
    obtain ⟨hknown, henum, hname, htype⟩ := hlines o ho m hm
    have htype := isNamed_spec htype
    simp only [Bool.not_eq_true'] at htype
    exact ⟨hknown, henum, isLegal_iff.mp hname, htype⟩

theorem disc_set : ∀ q ∈ [disc, circle, shape], ∀ m ∈ ownItems q,
    (memberData drawing (viewOf (moduleTables drawing) (asData drawing 3 (moduleTables drawing) 1) discAttrs)
      q.mName m).isSome := by
  decide +kernel

theorem asData_disc : ∃ l,
    nested drawing (viewOf (moduleTables drawing) (asData drawing 3 (moduleTables drawing) 1) discAttrs)
        [disc, circle, shape].reverse = some l ∧
      asData drawing 3 (moduleTables drawing) 2 [disc, circle, shape] discAttrs = some (.dict l) :=
  asData_nested disc_chain (by decide) disc_set

example : asData drawing 3 (moduleTables drawing) 1 [circle, shape] discAttrs = some (.dict [
    ("name".toList, .leaf (.str "D".toList)),
    ("circle".toList, .dict [
      ("radius".toList, .leaf (.other ())),
      ("marks".toList, .list [.leaf (.int 1), .leaf (.int 2)])])]) := by
  rfl

end Examples

end SchemaCodeGen.PythonSlices
