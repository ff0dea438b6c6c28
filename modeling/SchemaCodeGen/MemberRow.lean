import SchemaCodeGen.FixedBuffer
import SchemaCodeGen.ParseCSV

namespace SchemaCodeGen.MemberRow

open CString CsvReader Schema ParseCSV FixedBuffer

/-- The loop that copies a name to `tempValue`, up to the end of the name or of the room. -/
def copyLoop : Text → Nat → Text → OptionalType → Option (Nat × Text × OptionalType)
  | [], dest, tempValue, o => some (dest, tempValue, o)
  | c :: source, dest, tempValue, o =>
      if dest < 510 then
        if c = '?' then copyLoop source dest tempValue .optional
        else if c = '!' then copyLoop source dest tempValue .optionalDeserialize
        else (store tempValue dest c).bind fun tempValue => copyLoop source (dest + 1) tempValue o
      else some (dest, tempValue, o)

def copyCell (tempValue cell : Text) : Option (Text × OptionalType) :=
  (copyLoop cell 0 tempValue .required).bind fun (dest, tempValue, o) =>
    (store tempValue dest nul).map (·, o)

/-- The map form in `tempValue` cut into its strings, with the key type. Without one an assertion
fails, and builds without assertions go on. -/
def splitMap (tempValue : Text) : Option (Text × Option Text) :=
  (strchr ':' tempValue).bind fun
    | none => some (tempValue, none)
    | some colon =>
        (store tempValue colon nul).bind fun tempValue =>
          (strchr ']' (tempValue.drop (colon + 1))).bind fun
            | none => some (tempValue, none)
            | some closeBracket =>
                (store tempValue (colon + 1 + closeBracket) nul).bind fun tempValue =>
                  (string (tempValue.drop (colon + 1))).map fun mapType => (tempValue, some mapType)

/-- The name in `tempValue`, and whether an assertion failed on the way to it. -/
def readName (tempValue : Text) (di : MemberVariable) : Option (MemberVariable × Bool) :=
  tempValue[0]?.bind fun c =>
    if c = '[' then
      (splitMap tempValue).bind fun (tempValue, mapType) =>
        (string (tempValue.drop 1)).map fun memberName =>
          ({ di with mIsMap := true, mMember := memberName, mMapType := mapType.getD di.mMapType },
            mapType.isNone)
    else (string tempValue).map fun memberName => ({ di with mMember := memberName }, false)

def readType (type cell : Text) (di : MemberVariable) : Option MemberVariable := do
  let type := strncpy type cell
  let exclamation ← strchr '!' type
  let type ← exclamation.elim (some type) fun i => store type i nul
  let mType ← string type
  some { di with
    mSerializeEnumAsInteger := exclamation.isSome
    mType := mType
    mIsString := mType = "string".toList }

def readTypeCell (type : Text) (row : Row) (di : MemberVariable) : Option MemberVariable :=
  if 3 ≤ row.length then readType type (arg row 2) di else some di

/-- The member of a row, with what the two buffers hold before they are written. -/
def processMember (tempValue type : Text) (row : Row) : Option (MemberVariable × Bool) := do
  let name := arg row 1
  let copied ← copyCell tempValue (truncateName name)
  let named ← readName copied.1
    { mIsOptional := copied.2, mIsArray := '[' ∈ name.drop 1, mIsPointer := '*' ∈ name }
  let typed ← readTypeCell type row named.1
  some (memberFields row typed, named.2)

/-- Whatever the buffers hold at first, all accesses stay inside of them, they have a terminator
before they are searched, and the type is the text up to its mark. -/
def StaysInside (row : Row) : Prop :=
  ∀ tempValue type : Text, tempValue.length = 512 → type.length = 512 →
    (∃ copied, copyCell tempValue (truncateName (arg row 1)) = some copied ∧ nul ∈ copied.1) ∧
    (3 ≤ row.length → nul ∈ strncpy type (arg row 2)) ∧
    ∃ di failed, processMember tempValue type row = some (di, failed) ∧
      (3 ≤ row.length → di.mType = cutAt '!' (arg row 2))

section Name

variable {tempValue cell : Text} {di : MemberVariable}

theorem length_copyName_le (n : Nat) (s : Text) (o : OptionalType) : (copyName n s o).1.length ≤ n := by
  fun_induction copyName n s o <;> simp_all

theorem copyName_subset (n : Nat) (s : Text) (o : OptionalType) : (copyName n s o).1 ⊆ s := by
  fun_induction copyName n s o <;> simp_all [List.subset_cons_of_subset]

theorem copyLoop_spec {n : Nat} (written rest cell : Text) (o : OptionalType)
    (hroom : written.length + n = 510) (hrest : n < rest.length) :
    copyLoop cell written.length (written ++ rest) o =
      some (written.length + (copyName n cell o).1.length,
        written ++ (copyName n cell o).1 ++ rest.drop (copyName n cell o).1.length,
        (copyName n cell o).2) := by
  induction cell generalizing n written rest o with
  | nil => cases n <;> simp [copyLoop, copyName]
  | cons c cell ih =>
      rw [copyLoop]
      cases n with
      | zero => simp [copyName, show ¬ written.length < 510 by omega]
      | succ n =>
          rw [if_pos (by omega), copyName]
          split_ifs with hoptional hdeserialize
          · exact ih written rest .optional hroom hrest
          · exact ih written rest .optionalDeserialize hroom hrest
          · obtain ⟨d, rest, rfl⟩ := List.exists_cons_of_length_pos (Nat.zero_lt_of_lt hrest)
            have hnext := ih (n := n) (written ++ [c]) rest o (by simp; omega) (by simpa using hrest)
            rw [List.length_append, List.length_singleton, List.append_assoc,
              List.singleton_append] at hnext
            rw [store_append, Option.bind_some, hnext]
            simp [Nat.add_assoc, Nat.add_comm 1]

theorem copyCell_spec (hsize : tempValue.length = 512) (cell : Text) :
    ∃ rest, copyCell tempValue cell =
      some ((copyName 510 cell .required).1 ++ nul :: rest, (copyName 510 cell .required).2) := by
  have hle := length_copyName_le 510 cell .required
  have hrest : (tempValue.drop (copyName 510 cell .required).1.length).length ≠ 0 := by
    rw [List.length_drop]
    omega
  obtain ⟨d, rest, hdrop⟩ := List.exists_cons_of_length_pos (Nat.pos_of_ne_zero hrest)
  have hloop := copyLoop_spec (n := 510) [] tempValue cell .required rfl (by omega)
  simp only [List.length_nil, Nat.zero_add, List.nil_append, hdrop] at hloop
  refine ⟨rest, ?_⟩
  rw [copyCell, hloop, Option.bind_some]
  simp only [store_append, Option.map_some]

def named (s : Text) (di : MemberVariable) : MemberVariable × Bool :=
  if s.head? = some '[' then
    ({ di with
      mIsMap := true
      mMember := cutAt ':' (s.drop 1)
      mMapType := ((mapForm s).map Prod.snd).getD di.mMapType }, (mapForm s).isNone)
  else ({ di with mMember := s }, false)

theorem strchr_split {c : Char} (hc : c ≠ nul) {s t : Text} (hs : c ∉ s) (hfree : NulFree (s ++ c :: t))
    (rest : Text) : strchr c (s ++ c :: (t ++ nul :: rest)) = some (some s.length) := by
  have hlist : s ++ c :: (t ++ nul :: rest) = (s ++ c :: t) ++ nul :: rest := by simp
  rw [hlist, strchr_append hc hfree, if_pos (by simp), List.idxOf_append_of_notMem hs,
    List.idxOf_cons_self]
  rfl

/-- The three ways a map form is cut, by the assertions that fail. -/
theorem splitMap_spec {t : Text} (hs : NulFree ('[' :: t)) (rest : Text) :
    ∃ p tail, splitMap ('[' :: t ++ nul :: rest) =
        some ('[' :: p ++ nul :: tail, (mapForm ('[' :: t)).map Prod.snd) ∧
      NulFree p ∧ p = cutAt ':' t := by
  have ht : NulFree t := fun h => hs (List.mem_cons_of_mem _ h)
  by_cases hcolon : ':' ∈ t
  · obtain ⟨p, key, rfl, hp⟩ := List.eq_append_cons_of_mem hcolon
    have hp' : ':' ∉ '[' :: p := by simpa using hp
    have hkey : NulFree key := fun h => ht (by simp [h])
    have hplace := strchr_split (by decide) hp' hs rest
    have hstore := store_append ('[' :: p) ':' (key ++ nul :: rest) nul
    have hdrop : ('[' :: p ++ nul :: (key ++ nul :: rest)).drop (('[' :: p).length + 1) =
        key ++ nul :: rest := by simp
    have hafter : afterFirst ':' ('[' :: (p ++ ':' :: key)) = some key :=
      afterFirst_append (s := '[' :: p) hp' key
    have hlist : '[' :: (p ++ ':' :: key) ++ nul :: rest = '[' :: p ++ ':' :: (key ++ nul :: rest) := by
      simp
    rw [splitMap, hlist, hplace, Option.bind_some]
    dsimp only
    rw [hstore, Option.bind_some, hdrop]
    have hname : NulFree p := fun h => ht (by simp [h])
    have hcut : p = cutAt ':' (p ++ ':' :: key) := by
      rw [cutAt_append hp, cutAt_cons, List.append_nil]
    by_cases hbracket : ']' ∈ key
    · obtain ⟨k, u, rfl, hk⟩ := List.eq_append_cons_of_mem hbracket
      have hclose := strchr_split (by decide) hk hkey rest
      have hstore' := store_append ('[' :: p ++ nul :: k) ']' (u ++ nul :: rest) nul
      have hbuffer : '[' :: p ++ nul :: (k ++ ']' :: u ++ nul :: rest) =
          '[' :: p ++ nul :: k ++ ']' :: (u ++ nul :: rest) := by simp
      have hplace' : ('[' :: p).length + 1 + k.length = ('[' :: p ++ nul :: k).length := by
        simp only [List.length_append, List.length_cons]
        omega
      have hdrop' : ('[' :: p ++ nul :: k ++ nul :: (u ++ nul :: rest)).drop (('[' :: p).length + 1) =
          k ++ nul :: (u ++ nul :: rest) := by simp
      have htype : NulFree k := fun h => hkey (by simp [h])
      refine ⟨p, k ++ nul :: (u ++ nul :: rest), ?_, hname, hcut⟩
      have hlist' : k ++ ']' :: u ++ nul :: rest = k ++ ']' :: (u ++ nul :: rest) := by simp
      rw [hbuffer, hlist', hclose, Option.bind_some]
      dsimp only
      rw [hplace', hstore', Option.bind_some, hdrop', string_append htype, mapForm, hafter]
      simp [cutAt_append hk]
    · have hclose := strchr_append (c := ']') (by decide) hkey rest
      rw [if_neg hbracket] at hclose
      refine ⟨p, key ++ nul :: rest, ?_, hname, hcut⟩
      rw [hclose, mapForm, hafter]
      simp [hbracket]
  · have hcolon' : ':' ∉ '[' :: t := by simpa using hcolon
    have hplace := strchr_append (c := ':') (by decide) hs rest
    rw [if_neg hcolon'] at hplace
    refine ⟨t, rest, ?_, ht, (cutAt_of_not_mem hcolon).symm⟩
    rw [splitMap, hplace, mapForm, afterFirst_of_not_mem hcolon']
    rfl

theorem readName_spec {s : Text} (hs : NulFree s) (rest : Text) (di : MemberVariable) :
    readName (s ++ nul :: rest) di = some (named s di) := by
  by_cases hmap : s.head? = some '['
  · obtain ⟨t, rfl⟩ : ∃ t, s = '[' :: t := List.head?_eq_some_iff.mp hmap
    obtain ⟨p, tail, hsplit, hp, hcut⟩ := splitMap_spec hs rest
    have hdrop : ('[' :: p ++ nul :: tail).drop 1 = p ++ nul :: tail := rfl
    have hhead : ('[' :: t ++ nul :: rest)[0]? = some '[' := rfl
    rw [readName, hhead, Option.bind_some, if_pos rfl, hsplit, Option.bind_some]
    dsimp only
    rw [hdrop, string_append hp, named, if_pos hmap, hcut, Option.isNone_map]
    rfl
  · have hhead : (s ++ nul :: rest)[0]? ≠ some '[' := by
      cases s with
      | nil => simp [nul]
      | cons c t => simpa using hmap
    obtain ⟨c, hc⟩ : ∃ c, (s ++ nul :: rest)[0]? = some c := by
      rw [← Option.isSome_iff_exists, isSome_getElem?, List.length_append, List.length_cons]
      omega
    rw [hc] at hhead
    have hne : c ≠ '[' := fun he => hhead (congrArg some he)
    rw [readName, hc, Option.bind_some, if_neg hne, string_append hs, named, if_neg hmap]
    rfl

end Name

section Row

variable {tempValue type cell : Text} {row : Row} {di : MemberVariable}

theorem nulFree_cutAt {s : Text} (hs : NulFree s) (c : Char) : NulFree (cutAt c s) :=
  fun h => hs ((List.takeWhile_prefix _).subset h)

def typed (cell : Text) (di : MemberVariable) : MemberVariable :=
  { di with
    mSerializeEnumAsInteger := '!' ∈ cell
    mType := cutAt '!' cell
    mIsString := cutAt '!' cell = "string".toList }

theorem readType_spec (hfree : NulFree cell) (hfits : cell.length < type.length) (di : MemberVariable) :
    readType type cell di = some (typed cell di) := by
  have hsearch := strchr_append (c := '!') (by decide) hfree
    (List.replicate (type.length - cell.length - 1) nul)
  rw [readType, strncpy_of_short hfits, hsearch]
  by_cases hmark : '!' ∈ cell
  · obtain ⟨t, u, rfl, ht⟩ := List.eq_append_cons_of_mem hmark
    have hplace : (t ++ '!' :: u).idxOf '!' = t.length := by
      rw [List.idxOf_append_of_notMem ht, List.idxOf_cons_self, Nat.add_zero]
    have htype : NulFree t := fun h => hfree (by simp [h])
    have hcut : cutAt '!' (t ++ '!' :: u) = t := by rw [cutAt_append ht, cutAt_cons, List.append_nil]
    rw [if_pos hmark, hplace, typed, hcut]
    simp [store_append, string_append htype]
  · rw [if_neg hmark, typed, cutAt_of_not_mem hmark]
    simp [string_append hfree, hmark]

theorem memberType_eq (h : 3 ≤ row.length → (arg row 2).length < 512) (di : MemberVariable) :
    memberType row di = some (if 3 ≤ row.length then typed (arg row 2) di else di) := by
  rw [memberType]
  split_ifs with hthree hfits
  · rfl
  · exact absurd (h hthree) hfits
  · rfl

theorem nulFree_truncateName {name : Text} (h : NulFree name) : NulFree (truncateName name) := by
  rw [truncateName]
  split_ifs
  · intro hmem
    rcases List.mem_append.mp hmem with hfirst | hrest
    · exact h (List.mem_of_mem_take hfirst)
    · exact nulFree_cutAt (fun hd => h (List.mem_of_mem_drop hd)) _ hrest
  · exact nulFree_cutAt h _
  · exact h

theorem nulFree_arg (hrow : ∀ s ∈ row, NulFree s) (k : Nat) : NulFree (arg row k) := by
  rw [arg, List.getD_eq_getElem?_getD]
  cases hk : row[k]? with
  | none => exact List.not_mem_nil
  | some s => exact hrow s (List.mem_of_getElem? hk)

def markedFields (name : Text) : MemberVariable where
  mIsOptional := (copyName 510 (truncateName name) .required).2
  mIsArray := '[' ∈ name.drop 1
  mIsPointer := '*' ∈ name

theorem processMember_spec (hrow : ∀ s ∈ row, NulFree s) (htemp : tempValue.length = 512)
    (htype : type.length = 512) (h : 3 ≤ row.length → (arg row 2).length < 512) :
    let read := named (copyName 510 (truncateName (arg row 1)) .required).1 (markedFields (arg row 1))
    processMember tempValue type row =
      some (memberFields row (if 3 ≤ row.length then typed (arg row 2) read.1 else read.1), read.2) := by
  intro read
  obtain ⟨rest, hcopied⟩ := copyCell_spec htemp (truncateName (arg row 1))
  have hname : NulFree (copyName 510 (truncateName (arg row 1)) .required).1 := fun hmem =>
    nulFree_truncateName (nulFree_arg hrow 1) (copyName_subset _ _ _ hmem)
  have hread := readName_spec hname rest (markedFields (arg row 1))
  have htyped : readTypeCell type row read.1 =
      some (if 3 ≤ row.length then typed (arg row 2) read.1 else read.1) := by
    rw [readTypeCell]
    split_ifs with hthree
    · exact readType_spec (nulFree_arg hrow 2) (htype ▸ h hthree) read.1
    · rfl
  have hrun : processMember tempValue type row =
      (readName ((copyName 510 (truncateName (arg row 1)) .required).1 ++ nul :: rest)
        (markedFields (arg row 1))).bind fun read =>
          (readTypeCell type row read.1).bind fun di => some (memberFields row di, read.2) := by
    rw [processMember, hcopied]
    rfl
  rw [hrun, hread, Option.bind_some, htyped]
  rfl

theorem mapForm_fst {s : Text} {m : Text × Text} (h : mapForm s = some m) : m.1 = cutAt ':' (s.drop 1) := by
  rw [mapForm] at h
  cases hkey : afterFirst ':' s with
  | none => simp [hkey] at h
  | some key =>
      simp only [hkey] at h
      split_ifs at h
      obtain rfl := Option.some.inj h
      rfl

theorem memberName_eq (name : Text) :
    memberName name =
      if (named (copyName 510 (truncateName name) .required).1 (markedFields name)).2 then none
      else some (named (copyName 510 (truncateName name) .required).1 (markedFields name)).1 := by
  rw [memberName, named]
  by_cases hmap : (copyName 510 (truncateName name) .required).1.head? = some '['
  · simp only [if_pos hmap]
    cases hform : mapForm (copyName 510 (truncateName name) .required).1 with
    | none => rfl
    | some m => simpa [markedFields] using mapForm_fst hform
  · simp only [if_neg hmap]
    rfl

theorem processMember_eq_some (hrow : ∀ s ∈ row, NulFree s) (htemp : tempValue.length = 512)
    (htype : type.length = 512) (h : 3 ≤ row.length → (arg row 2).length < 512) :
    processMember tempValue type row = some (di, false) ↔ memberOf row = some di := by
  rw [processMember_spec hrow htemp htype h, memberOf, memberName_eq]
  cases (named (copyName 510 (truncateName (arg row 1)) .required).1 (markedFields (arg row 1))).2 with
  | true => simp
  | false => simp [memberType_eq h]

theorem memberFields_mType (row : Row) (di : MemberVariable) : (memberFields row di).mType = di.mType := by
  rw [memberFields, MemberVariable.init]
  split_ifs <;> rfl

/-- The row is read inside of the buffers exactly when its type fits with a terminator. -/
theorem staysInside_iff (hrow : ∀ s ∈ row, NulFree s) :
    StaysInside row ↔ (3 ≤ row.length → (arg row 2).length < 512) := by
  constructor
  · intro h hthree
    obtain ⟨_, hterminated, _⟩ :=
      h (List.replicate 512 nul) (List.replicate 512 nul) (List.length_replicate ..) (List.length_replicate ..)
    have hfits := (nul_mem_strncpy (nulFree_arg hrow 2)).mp (hterminated hthree)
    rwa [List.length_replicate] at hfits
  · intro h tempValue type htemp htype
    obtain ⟨rest, hcopied⟩ := copyCell_spec htemp (truncateName (arg row 1))
    refine ⟨⟨_, hcopied, by simp⟩, fun hthree => ?_, _, _, processMember_spec hrow htemp htype h, ?_⟩
    · exact (nul_mem_strncpy (nulFree_arg hrow 2)).mpr (htype ▸ h hthree)
    · intro hthree
      rw [memberFields_mType, if_pos hthree]
      rfl

def wideType : Text := List.replicate 512 'a'

def wideRow : Row := [[], "x".toList, wideType]

theorem mem_wideType {c : Char} (h : c ∈ wideType) : c = 'a' := List.eq_of_mem_replicate h

theorem length_wideType : wideType.length = 512 := List.length_replicate ..

theorem nulFree_wideRow : ∀ s ∈ wideRow, NulFree s := by
  have hwide : NulFree wideType := fun h => absurd (mem_wideType h) (by decide)
  simp only [wideRow, List.forall_mem_cons]
  exact ⟨List.not_mem_nil, by decide, hwide, by simp⟩

theorem readTypeCell_wideRow {type : Text} (htype : type.length = 512) (di : MemberVariable) :
    readTypeCell type wideRow di = none := by
  have hcopied : strncpy type (arg wideRow 2) = wideType := by
    change strncpy type wideType = wideType
    rw [strncpy, htype, length_wideType, Nat.sub_self, List.replicate_zero, List.append_nil,
      List.take_of_length_le length_wideType.le]
  have hsearch : strchr '!' wideType = none :=
    strchr_outside (fun h => absurd (mem_wideType h) (by decide)) fun h => absurd (mem_wideType h) (by decide)
  rw [readTypeCell, if_pos (by decide), readType, hcopied, hsearch]
  rfl

/-- A type of 512 characters leaves no room for a terminator, and the search for the mark runs
out of the buffer. -/
theorem processMember_wideRow : rowKind wideRow = .member ∧ (∀ s ∈ wideRow, NulFree s) ∧
    (∀ tempValue type, type.length = 512 → processMember tempValue type wideRow = none) ∧
    ¬ StaysInside wideRow := by
  have hnone : ∀ tempValue type : Text, type.length = 512 →
      processMember tempValue type wideRow = none := by
    intro tempValue type htype
    rw [processMember]
    simp only [Option.bind_eq_bind, readTypeCell_wideRow htype, Option.bind_none, Option.bind_fun_none]
  refine ⟨rfl, nulFree_wideRow, hnone, fun h => ?_⟩
  obtain ⟨_, _, di, failed, hrun, _⟩ := h wideType wideType length_wideType length_wideType
  exact absurd ((hnone wideType wideType length_wideType).symm.trans hrun) (by simp)

def plainRow : Row := [[], "[tags:string]".toList, "Color!".toList]

theorem staysInside_plainRow : StaysInside plainRow ↔ (3 ≤ plainRow.length → (arg plainRow 2).length < 512) :=
  staysInside_iff (by decide)

end Row

end SchemaCodeGen.MemberRow
