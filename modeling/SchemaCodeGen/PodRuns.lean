import SchemaCodeGen.PodOutput

namespace SchemaCodeGen.PodRuns

open CString Schema Emit Printer FixedBuffer LocalArrays PodOutput

variable {α β : Type} {i : MemberVariable} {o : Object} {d : DOM} {isDef : Bool}

theorem settled_each {l : List α} {f : α → Program (List Call)} (h : ∀ a, Settled (f a)) :
    Settled (each l f) :=
  settled_bind (settled_mapM h l) fun _ => settled_pure _

theorem settled_only {c : Bool} {p : Program (List Call)} (h : Settled p) : Settled (only c p) :=
  settled_ite h (settled_pure [])

theorem settled_getMemberName (i : MemberVariable) (isDef : Bool) : Settled (getMemberName i isDef) := by
  refine settled_ite (settled_declare ?_ ?_) (settled_pure _)
  · intro b b' hb hb'
    rw [strncpy_congr (hb.trans hb'.symm)]
  · intro b _
    exact settled_bind (settled_lift _) fun _ => settled_pure _

theorem settled_named {f : Text → Program β} (h : ∀ name, Settled (f name)) :
    Settled (getMemberName i isDef >>= f) :=
  settled_bind (settled_getMemberName i isDef) h

theorem settled_vectorName (type : Text) : Settled (vectorName type) := by
  refine settled_declare ?_ ?_
  · intro b b' hb hb'
    rw [strncpy_congr (hb.trans hb'.symm)]
  · intro temp _
    refine settled_declare ?_ ?_
    · intro b b' hb hb'
      simp only [string_snprintf_cut, hb, hb']
    · intro b _
      exact settled_bind (settled_lift _) fun _ => settled_lift _

theorem settled_assignmentConstructors (o : Object) (isDef : Bool) :
    Settled (assignmentConstructors o isDef) := by
  refine settled_only (settled_bind (settled_mapM ?_ _) fun _ => settled_bind (settled_each ?_) fun _ => ?_)
  · exact fun i => settled_named fun _ => settled_pure _
  · exact fun i => settled_named fun _ => settled_named fun _ => settled_pure _
  · exact settled_pure _

theorem settled_defaultConstructor (d : DOM) (o : Object) (isDef : Bool) :
    Settled (defaultConstructor d o isDef) := by
  refine settled_only (settled_bind (settled_each ?_) fun _ => settled_pure _)
  exact fun i => settled_named fun _ => settled_pure _

theorem settled_deletePointer (isDef : Bool) (i : MemberVariable) : Settled (deletePointer isDef i) := by
  refine settled_ite ?_ (settled_ite ?_ (settled_pure _))
  · exact settled_named fun _ => settled_pure _
  · exact settled_named fun _ => settled_pure _

theorem settled_destructor (o : Object) (isDef : Bool) : Settled (destructor o isDef) := by
  refine settled_ite (settled_only ?_) (settled_only (settled_pure _))
  exact settled_bind (settled_each (settled_deletePointer isDef)) fun _ => settled_pure _

theorem settled_copyMember (isDef : Bool) (i : MemberVariable) : Settled (copyMember isDef i) := by
  refine settled_ite ?_ (settled_ite ?_ (settled_only ?_))
  all_goals
    repeat refine settled_named fun _ => ?_
    exact settled_pure _

theorem settled_deepCopy (o : Object) (isDef : Bool) : Settled (deepCopy o isDef) :=
  settled_only (settled_bind (settled_each (settled_copyMember isDef)) fun _ => settled_pure _)

theorem settled_assignArray (i : MemberVariable) (counted assigned : String) (arrayPostFix : Text) :
    Settled (assignArray i counted assigned arrayPostFix) := by
  unfold assignArray
  repeat refine settled_named fun _ => ?_
  exact settled_pure _

theorem settled_initStrings (i : MemberVariable) : Settled (initStrings i) := by
  unfold initStrings
  iterate 6 refine settled_named fun _ => ?_
  exact settled_bind (settled_assignArray _ _ _ _) fun _ => settled_pure _

theorem settled_collectItems (i : MemberVariable) (initItem pushItem : String) :
    Settled (collectItems i initItem pushItem) := by
  unfold collectItems
  repeat refine settled_named fun _ => ?_
  exact settled_pure _

theorem settled_initMember (needsReflection : List Text) (i : MemberVariable) :
    Settled (initMember needsReflection i) := by
  refine settled_ite ?reflected (settled_ite (settled_ite ?strings ?string) (settled_ite ?pointers
    (settled_ite ?array (settled_ite ?pointer ?plain))))
  case strings => exact settled_initStrings i
  case pointers =>
    exact settled_bind (settled_collectItems _ _ _) fun _ =>
      settled_bind (settled_assignArray _ _ _ _) fun _ => settled_pure _
  case array =>
    exact settled_bind (settled_only (settled_collectItems _ _ _)) fun _ =>
      settled_bind (settled_assignArray _ _ _ _) fun _ => settled_pure _
  all_goals
    repeat refine settled_named fun _ => ?_
    exact settled_pure _

theorem settled_initDOM (needsReflection : List Text) (o : Object) : Settled (initDOM needsReflection o) :=
  settled_bind (settled_each (settled_initMember needsReflection)) fun _ => settled_pure _

theorem settled_moveMember (isDef : Bool) (i : MemberVariable) : Settled (moveMember isDef i) := by
  refine settled_ite ?_ (settled_ite ?_ (settled_only ?_))
  all_goals
    repeat refine settled_named fun _ => ?_
    exact settled_pure _

theorem settled_move (o : Object) (isDef : Bool) : Settled (move o isDef) :=
  settled_bind (settled_each (settled_moveMember isDef)) fun _ => settled_pure _

theorem settled_declaredType (isDef : Bool) (i : MemberVariable) : Settled (declaredType isDef i) := by
  refine settled_ite (settled_ite (settled_ite ?_ ?_) ?_) (settled_ite ?_ (settled_ite ?_ ?_))
  · exact settled_pure _
  · exact settled_bind (settled_vectorName _) fun _ => settled_pure _
  · exact settled_named fun _ => settled_pure _
  all_goals exact settled_pure _

theorem settled_memberDeclaration (d : DOM) (isDef : Bool) (i : MemberVariable) :
    Settled (memberDeclaration d isDef i) :=
  settled_bind (settled_declaredType isDef i) fun _ => settled_named fun _ => settled_pure _

theorem settled_scratchArray (isDef : Bool) (i : MemberVariable) : Settled (scratchArray isDef i) := by
  refine settled_only (settled_ite ?_ (settled_only ?_))
  · exact settled_named fun _ => settled_pure _
  · exact settled_bind (settled_vectorName _) fun _ => settled_named fun _ => settled_pure _

theorem settled_members (d : DOM) (o : Object) (isDef : Bool) : Settled (members d o isDef) := by
  refine settled_bind (settled_each (settled_memberDeclaration d isDef)) fun _ =>
    settled_bind (settled_only ?_) fun _ => settled_pure _
  exact settled_bind (settled_each (settled_scratchArray isDef)) fun _ => settled_pure _

theorem settled_classBody (d : DOM) (needsReflection : List Text) (o : Object) (isDef : Bool) :
    Settled (classBody d needsReflection o isDef) := by
  refine settled_bind (settled_assignmentConstructors o isDef) fun _ => ?_
  refine settled_bind (settled_defaultConstructor d o isDef) fun _ => ?_
  refine settled_bind (settled_destructor o isDef) fun _ => ?_
  refine settled_bind (settled_deepCopy o isDef) fun _ => ?_
  refine settled_bind (settled_only (settled_initDOM needsReflection o)) fun _ => ?_
  refine settled_bind (settled_only (settled_move o isDef)) fun _ => ?_
  exact settled_bind (settled_members d o isDef) fun _ => settled_pure _

theorem settled_saveCPPObject (d : DOM) (needsReflection : List Text) (out : Output) (o : Object) :
    Settled (saveCPPObject d needsReflection out o) := by
  refine settled_ite (settled_pure _) (settled_ite (settled_pure _) ?_)
  refine settled_bind (settled_only (settled_classBody d needsReflection o true)) fun _ => ?_
  exact settled_bind (settled_classBody d needsReflection o false) fun _ => settled_pure _

theorem settled_headerBegin (d : DOM) (isDef : Bool) : Settled (headerBegin d isDef) := by
  refine settled_declare ?_ ?_
  · intro b b' hb hb'
    have hsize : 0 < nameSize := by decide
    let guarded := stringFormat "%s%s_H".toList [d.mFilename, if isDef then "_IMPL".toList else []]
    obtain ⟨temp, htemp, hlength, hstring⟩ := strupr_snprintf (hb ▸ hsize) guarded
    obtain ⟨temp', htemp', hlength', hstring'⟩ := strupr_snprintf (hb' ▸ hsize) guarded
    simp only [guarded] at htemp htemp' hstring hstring'
    simp only [htemp, htemp', lift_bind, hstring, hstring', string_snprintf_cut, hlength, hlength', hb, hb']
  · intro b _
    refine settled_bind (settled_lift _) fun temp => settled_bind (settled_lift _) fun _ => ?_
    refine settled_bind (settled_only ?_) fun _ => settled_pure _
    exact settled_bind (settled_lift _) fun _ => settled_pure _

theorem settled_saveObjects (d : DOM) : Settled (saveObjects d) := by
  refine settled_bind (settled_headerBegin d true) fun _ => settled_bind (settled_headerBegin d false) fun _ => ?_
  exact settled_foldlM (settled_saveCPPObject d _) _ _

/-- A file from the calls before its end, and the string that its last line names. -/
def ending (d : DOM) (calls : List Call) (name : Text) : Text :=
  printAll (calls ++ (namespaceEnd d ++ [code 0 "#endif // End of %s\n" [name]]))

theorem headerEnd_eq (d : DOM) (s : Stack) (n : Nat) :
    headerEnd d s n = (string (contents s nameSize n)).map fun name =>
      (namespaceEnd d ++ [code 0 "#endif // End of %s\n" [name]], n + 1) := by
  rw [headerEnd, bind_eq, declare, Option.bind_some, bind_eq, lift_eq]
  cases string (contents s nameSize n) with
  | none => rfl
  | some name => rfl

theorem result_saveCPP (d : DOM) (s : Stack) :
    result (saveCPP d) s = (saveObjects d s 0).bind fun r =>
      (string (contents s nameSize r.2)).bind fun implName =>
        (string (contents s nameSize (r.2 + 1))).map fun domName =>
          (ending d r.1.impl implName, ending d r.1.dom domName) := by
  rw [result, saveCPP, bind_eq]
  cases saveObjects d s 0 with
  | none => rfl
  | some r =>
      simp only [Option.bind_some, bind_eq, headerEnd_eq]
      cases string (contents s nameSize r.2) with
      | none => rfl
      | some implName =>
          simp only [Option.map_some, Option.bind_some]
          cases string (contents s nameSize (r.2 + 1)) with
          | none => rfl
          | some domName => rfl

theorem printAll_concat (calls : List Call) (text : Text) :
    printAll (calls ++ [.code 0 text]) = printAll calls ++ text.take bufferRoom := by
  rw [printAll, List.foldl_append, List.foldl_cons, List.foldl_nil, Call.print, printCode_mOutput]
  rfl

theorem ending_injective (d : DOM) (calls : List Call) {name name' : Text}
    (hname : name.length < nameSize) (hname' : name'.length < nameSize)
    (h : ending d calls name = ending d calls name') : name = name' := by
  have hline (name : Text) : stringFormat "#endif // End of %s\n".toList [name] =
      "#endif // End of ".toList ++ (name ++ ['\n']) := rfl
  have hroom (name : Text) (hlen : name.length < nameSize) :
      ("#endif // End of ".toList ++ (name ++ ['\n'])).length ≤ bufferRoom := by
    simp [nameSize, bufferRoom] at hlen ⊢
    omega
  rw [ending, ending, ← List.append_assoc, ← List.append_assoc, code, code, printAll_concat,
    printAll_concat, hline, hline, List.take_of_length_le (hroom name hname),
    List.take_of_length_le (hroom name' hname')] at h
  exact List.append_cancel_right (List.append_cancel_left (List.append_cancel_left h))

def Terminated (s : Stack) : Prop := ∀ n, nul ∈ contents s nameSize n

/-- The two texts are the same whatever the arrays hold. -/
def DependsOnlyOnSchema (d : DOM) : Prop :=
  ∃ texts, ∀ s, Terminated s → result (saveCPP d) s = some texts

/-- One character before the terminators in every array, or none for `nul`. -/
def marked (c : Char) : Stack := fun _ i => if i = 0 then c else nul

theorem terminated_marked (c : Char) : Terminated (marked c) := by
  intro n
  exact List.mem_map.mpr ⟨1, List.mem_range.mpr (by simp [nameSize]), rfl⟩

theorem string_marked (c : Char) (n : Nat) :
    string (contents (marked c) nameSize n) = some (if c = nul then [] else [c]) := by
  rw [contents, show nameSize = 510 + 1 + 1 from rfl, List.range_succ_eq_map, List.range_succ_eq_map]
  by_cases hc : c = nul
  · simp [marked, string, hc]
  · simp [marked, string, hc]

def mark (c : Char) : Text := if c = nul then [] else [c]

theorem result_marked {r : Output × Nat} (h : saveObjects d (marked nul) 0 = some r) (c : Char) :
    result (saveCPP d) (marked c) = some (ending d r.1.impl (mark c), ending d r.1.dom (mark c)) := by
  rw [result_saveCPP, settled_saveObjects d (marked c) (marked nul), h, Option.bind_some, string_marked,
    string_marked]
  rfl

theorem result_marked_ne {r : Output × Nat} (h : saveObjects d (marked nul) 0 = some r) :
    result (saveCPP d) (marked nul) ≠ result (saveCPP d) (marked 'A') := by
  intro hsame
  rw [result_marked h, result_marked h, Option.some.injEq, Prod.mk.injEq] at hsame
  have hname : mark nul = mark 'A' :=
    ending_injective d r.1.impl (by simp [mark, nameSize]) (by simp [mark, nul, nameSize]) hsame.1
  exact absurd hname (by decide)

/-- The last line of each file names what its array held before. -/
theorem texts_vary (d : DOM) : ¬DependsOnlyOnSchema d := by
  rintro ⟨texts, hsame⟩
  have hnul := hsame (marked nul) (terminated_marked nul)
  have hletter := hsame (marked 'A') (terminated_marked 'A')
  cases hobjects : saveObjects d (marked nul) 0 with
  | none => simp [result_saveCPP, hobjects] at hnul
  | some r => exact result_marked_ne hobjects (hnul.trans hletter.symm)

def scene : DOM where
  mFilename := "Scene".toList
  mNamespace := "scene".toList
  mObjects := [{
    mName := "Node".toList
    mType := "Class".toList
    mItems := [
      { mMember := "tags".toList, mType := "string".toList, mIsString := true, mIsArray := true },
      { mMember := "weight".toList, mType := "u32".toList }] }]

/-- Both runs return, and the files that they write differ. -/
theorem saveCPP_scene :
    (∀ c, Terminated (marked c) ∧ (result (saveCPP scene) (marked c)).isSome = true) ∧
      result (saveCPP scene) (marked nul) ≠ result (saveCPP scene) (marked 'A') := by
  have hruns : (saveObjects scene (marked nul) 0).isSome = true := by decide +kernel
  obtain ⟨r, hobjects⟩ := Option.isSome_iff_exists.mp hruns
  refine ⟨fun c => ⟨terminated_marked c, ?_⟩, result_marked_ne hobjects⟩
  rw [result_marked hobjects]
  rfl

end SchemaCodeGen.PodRuns
