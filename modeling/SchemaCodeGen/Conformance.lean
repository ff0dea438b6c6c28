import SchemaCodeGen.Readers

namespace SchemaCodeGen.Conformance

open CString Floats Json Schema Emit EnumTable Fallible Generated Slots Fresh Judge Readers

/-- A block compiles in the function of a class, over classes that compile. -/
def StmtCompiles (b : Build) (classes : Text → Prop) (chain : List Object) :
    DeserializeStmt → Prop
  | .numericMap _ _ | .todo => True
  | .stringMap _ type _ | .checkedArray _ type _ => type = .stringType
  | .integer _ type _ => type = .u32 ∨ type = .u64 ∨ type = .i64
  | .integerArray m type _ => (type = .u32 ∨ type = .u64 ∨ type = .i64) ∧ m ∉ arrayLocals
  | .checked _ type _ => isNumeric type = false
  | .enum _ type _ | .enumListMap _ type => (b.enumType type).isSome
  | .enumArray _ type _ => (b.enumType type).isSome ∧
      ∃ l i, findField "acl".toList chain = some (l, i) ∧ i.mIsArray = true ∧ i.mType = type
  | .object _ type _ | .objectArray _ type _ => classes type

structure ChainCompiles (b : Build) (classes : Text → Prop) (chain : List Object) : Prop where
  names : ∀ o ∈ chain, ((ownItems o).map memberName).Nodup
  maps : ∀ s ∈ slots chain, s.2.mIsMap = true → s.2.mIsArray = true
  forms : ∀ s ∈ slots chain, HasForm s.2
  blocks : ∀ s ∈ slots chain, ∃ stmt, statementOf b s = some stmt ∧
    StmtCompiles b classes s.1 stmt

/-- The classes compile, with integer members of the types that have an accessor. -/
structure Compiles (b : Build) (classes : Text → Prop) : Prop where
  chain : ∀ c, classes c → ∃ chain, b.chain c = some chain ∧ ChainCompiles b classes chain
  fresh : ∀ c, classes c → ∃ f, b.fresh c = some f

section Shape

def Fits (i : MemberVariable) (d : Datum) : Prop :=
  if i.mIsMap then ∃ l, d = .map l else i.mIsArray = true → ∃ l, d = .vec l

def Shaped (chain : List Object) (f : Fields) : Prop := ∀ s ∈ slots chain, Fits s.2 (get f s)

theorem suffix_of_mem {chain : List Object} {s : Slot} (h : s ∈ slots chain) : s.1 <:+ chain := by
  induction chain with
  | nil => simp [slots] at h
  | cons o bases ih =>
      rw [slots, List.mem_append] at h
      obtain h | h := h
      · exact (ih h).trans (List.suffix_cons o bases)
      · obtain ⟨i, _, rfl⟩ := List.mem_map.mp h
        exact List.suffix_rfl

variable {b : Build} {classes : Text → Prop} {chain : List Object} {f : Fields}

theorem shaped_set (hkeys : ((slots chain).map key).Nodup) (hf : Shaped chain f) {s : Slot}
    (hs : s ∈ slots chain) {d : Datum} (hd : Fits s.2 d) : Shaped chain (Slots.set f s d) := by
  intro t ht
  by_cases hk : key t = key s
  · obtain rfl := eq_of_key_eq hkeys ht hs hk
    rwa [get_set_same]
  · rw [get_set_of_ne _ _ hk]
    exact hf t ht

theorem shaped_fresh {call : Text → Option Fields} (hchain : ChainCompiles b classes chain)
    (hf : constructChain b call chain = some f) : Shaped chain f := by
  intro s hs
  by_cases ha : s.2.mIsArray = true
  · have hnot := not_restated_of_array hf hchain.names hs ha
    have h := (constructChain_spec hf hchain.names).2 s hs hnot
    rw [initialValue, if_pos ha] at h
    rw [← Option.some.inj h, Fits]
    split_ifs
    · exact ⟨_, rfl⟩
    · exact fun _ => ⟨_, rfl⟩
  · have hmap : ¬ s.2.mIsMap = true := fun hm => ha (hchain.maps s hs hm)
    rw [Fits, if_neg hmap]
    exact fun h => absurd h ha

end Shape

section Blocks

def EmittedFor (i : MemberVariable) : DeserializeStmt → Prop
  | .numericMap m _ | .stringMap m _ _ | .enumListMap m _ => i.mIsMap = true ∧ m = i.mMember
  | .integerArray m _ _ | .checkedArray m _ _ | .enumArray m _ _ | .objectArray m _ _ =>
      i.mIsMap = false ∧ i.mIsArray = true ∧ m = i.mMember
  | .integer m _ _ | .checked m _ _ | .enum m _ _ | .object m _ _ =>
      i.mIsMap = false ∧ i.mIsArray = false ∧ m = i.mMember
  | .todo => True

theorem emittedFor {classEnum : Text → Option Bool} {names : List Text} {i : MemberVariable}
    {stmt : DeserializeStmt} (hmap : i.mIsMap = true → i.mIsArray = true)
    (h : deserializeStmt classEnum names i = some stmt) : EmittedFor i stmt := by
  rw [deserializeStmt] at h
  have hscalar : i.mIsArray = false → i.mIsMap = false := fun ha => by
    cases hm : i.mIsMap with
    | false => rfl
    | true => exact absurd (hmap hm) (by simp [ha])
  by_cases htype : getStandardType i.mType ≠ .none
  · rw [if_pos htype] at h
    split_ifs at h with hm hnum hnames hnum ha ha <;> obtain rfl := Option.some.inj h
    · exact ⟨hm, rfl⟩
    · exact ⟨hm, rfl⟩
    · exact ⟨by simpa using hm, ha, rfl⟩
    · exact ⟨by simpa using hm, by simpa using ha, rfl⟩
    · exact ⟨by simpa using hm, ha, rfl⟩
    · exact ⟨by simpa using hm, by simpa using ha, rfl⟩
  · rw [if_neg htype] at h
    cases hclass : classEnum i.mType with
    | none =>
        rw [hclass] at h
        obtain rfl := Option.some.inj h
        trivial
    | some isEnum =>
        rw [hclass] at h
        dsimp only at h
        split_ifs at h with ha hm henum henum <;> obtain rfl := Option.some.inj h
        · exact ⟨hm, rfl⟩
        · exact ⟨by simpa using hm, ha, rfl⟩
        · exact ⟨by simpa using hm, ha, rfl⟩
        · exact ⟨hscalar (by simpa using ha), by simpa using ha, rfl⟩
        · exact ⟨hscalar (by simpa using ha), by simpa using ha, rfl⟩

variable {inv : Fields → Prop} {f : Fields} {d : Value}

theorem withMember_meets {m : Text} {required : Bool} {found : Value → Run Fields}
    {p : Value → Verdict} (hf : inv f)
    (h : ∀ v, v.depth < d.depth → Meets inv (found v) (p v)) :
    Meets inv (withMember d m required f found) (member d m required p) := by
  cases d with
  | object ms =>
      cases hlookup : ms.lookup m with
      | some v =>
          have hrun : withMember (.object ms) m required f found = found v := by
            simp [withMember, Value.findMember, Value.memberList, hlookup]
          rw [hrun, member, hlookup]
          exact h v (Value.depth_lookup hlookup)
      | none =>
          have hrun : withMember (.object ms) m required f found =
              if required then .error .returnFalse else .ok f := by
            simp [withMember, Value.findMember, Value.memberList, hlookup]
          rw [hrun, member, hlookup]
          cases required with
          | true => rfl
          | false => exact ⟨f, rfl, hf⟩
  | null | bool _ | number _ | string _ | array _ => rfl

theorem everyMember_meets {step : Fields → Text × Value → Run Fields} {p : Value → Verdict}
    (hf : inv f) (h : ∀ f e, inv f → Meets inv (step f e) (p e.2)) :
    Meets inv (orHalt .misuse d.memberList >>= fun l => l.foldlM step f) (everyMember d p) := by
  cases d with
  | object ms => exact meets_foldlM (fun e _ f hf => h f e hf) hf
  | null | bool _ | number _ | string _ | array _ => rfl

theorem arrayFold_meets {step : Fields → Value → Run Fields} {p : Value → Verdict} (hf : inv f)
    (h : ∀ f v, inv f → v.depth < d.depth → Meets inv (step f v) (p v)) :
    Meets inv (arrayItems d >>= fun l => l.foldlM step f) (array p d) := by
  cases d with
  | array l => exact meets_foldlM (fun v hv f hf => h f v hf (Value.depth_item hv)) hf
  | null | bool _ | number _ | string _ | object _ => rfl

theorem arrayItems_meets {α : Type} {read : Value → Run α} {p : Value → Verdict}
    (h : ∀ v, Meets Any (read v) (p v)) :
    Meets Any (arrayItems d >>= fun l => l.mapM read) (array p d) := by
  cases d with
  | array l => exact meets_mapM fun v _ => h v
  | null | bool _ | number _ | string _ | object _ => rfl

variable {b : Build} {classes : Text → Prop} {chain : List Object} {s : Slot}

theorem shaped_assign (hkeys : ((slots chain).map key).Nodup) (hf : Shaped chain f)
    (hs : s ∈ slots chain) (hmap : s.2.mIsMap = true) (k : Text) (x : Datum) :
    ∃ f', f.assign (level s.1) ('_' :: s.2.mMember) k x = .ok f' ∧ Shaped chain f' := by
  have hname : memberName s.2 = '_' :: s.2.mMember := memberName_of_map hmap
  have hfits := hf s hs
  rw [Fits, if_pos hmap] at hfits
  obtain ⟨l, hl⟩ := hfits
  rw [Slots.get, hname] at hl
  refine ⟨_, by simp only [Fields.assign, hl, entries, ok_bind]; rfl, ?_⟩
  rw [← hname]
  exact shaped_set hkeys hf hs (by rw [Fits, if_pos hmap]; exact ⟨_, rfl⟩)

theorem shaped_vec (hkeys : ((slots chain).map key).Nodup) (hf : Shaped chain f)
    (hs : s ∈ slots chain) (hmap : s.2.mIsMap = false) (l : List Datum) :
    Shaped chain (f.set (level s.1) (memberName s.2) (.vec l)) :=
  shaped_set hkeys hf hs (by rw [Fits, if_neg (by simp [hmap])]; exact fun _ => ⟨l, rfl⟩)

theorem shaped_pushBack (hkeys : ((slots chain).map key).Nodup) (hf : Shaped chain f)
    (hs : s ∈ slots chain) (hmap : s.2.mIsMap = false) (ha : s.2.mIsArray = true) (x : Datum) :
    ∃ f', f.pushBack (level s.1) (memberName s.2) x = .ok f' ∧ Shaped chain f' := by
  have hfits := hf s hs
  rw [Fits, if_neg (by simp [hmap])] at hfits
  obtain ⟨l, hl⟩ := hfits ha
  rw [Slots.get] at hl
  refine ⟨_, by simp only [Fields.pushBack, hl, items, ok_bind]; rfl, ?_⟩
  exact shaped_vec hkeys hf hs hmap _

theorem shaped_scalar (hkeys : ((slots chain).map key).Nodup) (hf : Shaped chain f)
    (hs : s ∈ slots chain) (hmap : s.2.mIsMap = false) (ha : s.2.mIsArray = false) (x : Datum) :
    Shaped chain (f.set (level s.1) s.2.mMember x) := by
  have hname : memberName s.2 = s.2.mMember := memberName_of_noMap hmap
  rw [← hname]
  exact shaped_set hkeys hf hs (by simp [Fits, hmap, ha])

/-- A block that compiles does on a document what the verdict says, and keeps the shapes. -/
theorem block_meets (hchain : ChainCompiles b classes chain) (hs : s ∈ slots chain)
    (hf : Shaped chain f) {call : Text → Value → Fields → Run Fields}
    {judge : Text → Value → Verdict}
    (hcall : ∀ c v, classes c → v.depth < d.depth →
      Meets Any (readObject call b.fresh c v) (judge c v)) :
    Meets (Shaped chain) (deserializeItem b call s.1 d f s.2) (slot b judge d s) := by
  have hkeys := nodup_keys hchain.names
  obtain ⟨stmt, hstmt, hc⟩ := hchain.blocks s hs
  have hfor := emittedFor (hchain.maps s hs) hstmt
  have hrun : deserializeItem b call s.1 d f s.2 = runDeserialize b call b.fresh s.1 d f stmt := by
    rw [statementOf] at hstmt
    simp [deserializeItem, hstmt]
  rw [hrun, slot, hstmt, Option.map_some, Option.getD_some]
  clear hrun hstmt
  cases stmt with
  | numericMap m type =>
      obtain ⟨hm, rfl⟩ := hfor
      rw [runDeserialize, statement]
      apply everyMember_meets hf
      intro f e hf
      obtain ⟨k, v⟩ := e
      cases v with
      | string t => exact shaped_assign hkeys hf hs hm _ _
      | number n => exact meets_bind (getUint64_meets n) fun n _ => shaped_assign hkeys hf hs hm _ _
      | null | bool _ | array _ | object _ => exact ⟨f, rfl, hf⟩
  | stringMap m type skipMembers =>
      obtain ⟨hm, rfl⟩ := hfor
      obtain rfl : type = .stringType := hc
      rw [runDeserialize, if_neg (by simp), statement]
      apply everyMember_meets hf
      intro f e hf
      obtain ⟨k, v⟩ := e
      cases v with
      | string t =>
          dsimp only
          split_ifs
          · exact ⟨f, rfl, hf⟩
          · exact shaped_assign hkeys hf hs hm _ _
      | null | bool _ | number _ | array _ | object _ => exact ⟨f, rfl, hf⟩
  | integer m type required =>
      obtain ⟨hm, ha, rfl⟩ := hfor
      exact withMember_meets hf fun v _ => meets_bind (readInteger_meets hc v) fun x _ =>
        ⟨_, rfl, shaped_scalar hkeys hf hs hm ha _⟩
  | integerArray m type required =>
      obtain ⟨hm, ha, rfl⟩ := hfor
      have hname : memberName s.2 = s.2.mMember := memberName_of_noMap hm
      rw [runDeserialize, if_neg (by simpa using hc.2), statement]
      apply withMember_meets hf
      intro v _
      rw [← bind_assoc, ← hname]
      exact meets_bind (arrayItems_meets (readInteger_meets hc.1)) fun x _ =>
        ⟨_, rfl, shaped_vec hkeys hf hs hm _⟩
  | checked m type required =>
      obtain ⟨hm, ha, rfl⟩ := hfor
      exact withMember_meets hf fun v _ => meets_bind (readChecked_meets hc v) fun x _ =>
        ⟨_, rfl, shaped_scalar hkeys hf hs hm ha _⟩
  | checkedArray m type required =>
      obtain rfl : type = .stringType := hc
      rw [runDeserialize, if_neg (by simp), statement]
      apply withMember_meets hf
      intro v _
      cases v <;> rfl
  | enum m type asInteger =>
      obtain ⟨hm, ha, rfl⟩ := hfor
      exact withMember_meets hf fun v _ => meets_bind (readEnum_meets hc asInteger v) fun x _ =>
        ⟨_, rfl, shaped_scalar hkeys hf hs hm ha _⟩
  | enumArray m type required =>
      obtain ⟨henum, l, i, hfind, hia, htype⟩ := hc
      obtain ⟨t, ht, rfl, rfl, hname⟩ := findField_mem hfind
      have ht := slots_subset_of_suffix (suffix_of_mem hs) t ht
      have hm : t.2.mIsMap = false := by
        cases hm : t.2.mIsMap with
        | false => rfl
        | true => simp [memberName, hm] at hname
      rw [runDeserialize, hfind, statement]
      dsimp only
      rw [if_pos ⟨hia, htype⟩, ← hname]
      exact withMember_meets hf fun v _ => arrayFold_meets hf fun f v hf _ =>
        meets_bind (readEnumName_meets henum v) fun x _ => shaped_pushBack hkeys hf ht hm hia x
  | enumListMap m type =>
      obtain ⟨hm, rfl⟩ := hfor
      rw [runDeserialize, statement]
      apply everyMember_meets hf
      intro f e hf
      rw [← bind_assoc]
      exact meets_bind (arrayItems_meets (readEnumName_meets hc)) fun x _ =>
        shaped_assign hkeys hf hs hm _ _
  | object m type required =>
      obtain ⟨hm, ha, rfl⟩ := hfor
      exact withMember_meets hf fun v hv => meets_bind (hcall type v hc hv) fun x _ =>
        ⟨_, rfl, shaped_scalar hkeys hf hs hm ha _⟩
  | objectArray m type required =>
      obtain ⟨hm, ha, rfl⟩ := hfor
      have hname : memberName s.2 = s.2.mMember := memberName_of_noMap hm
      rw [runDeserialize, statement, ← hname]
      exact withMember_meets hf fun v hv => arrayFold_meets hf fun f w hf hw =>
        meets_bind (hcall type w hc (hw.trans hv)) fun x _ => shaped_pushBack hkeys hf hs hm ha x
  | todo => exact ⟨f, rfl, hf⟩

end Blocks

section Classes

variable {b : Build} {classes : Text → Prop} {chain : List Object} {f : Fields} {d : Value}

theorem fresh_shaped (hb : Compiles b classes) {c : Text} (hc : classes c) :
    ∃ chain f, b.chain c = some chain ∧ b.fresh c = some f ∧ Shaped chain f := by
  obtain ⟨chain, hchain, hcompiles⟩ := hb.chain c hc
  obtain ⟨f, hf⟩ := hb.fresh c hc
  obtain ⟨call, hconstruct⟩ := constructChain_of_fresh hchain hf
  exact ⟨chain, f, hchain, hf, shaped_fresh hcompiles hconstruct⟩

theorem deserializeFrom_meets (hb : Compiles b classes) {n k : Nat} {c : Text} (hc : classes c)
    (hchain : b.chain c = some chain) (hn : d.depth < n) (hk : d.depth < k) (hf : Shaped chain f) :
    Meets (Shaped chain) (deserializeFrom b k c d f) (cls b n c d) := by
  induction n generalizing k c d f chain with
  | zero => exact absurd hn (Nat.not_lt_zero _)
  | succ n ih =>
      obtain ⟨k, rfl⟩ := Nat.exists_eq_add_of_le' (Nat.lt_of_le_of_lt (Nat.zero_le _) hk)
      obtain ⟨chain', hchain', hcompiles⟩ := hb.chain c hc
      obtain rfl := Option.some.inj (hchain.symm.trans hchain')
      have hverdict : cls b (n + 1) c d = first ((slots chain).map (slot b (cls b n) d)) := by
        simp only [cls, hchain, Option.getD_some]
      rw [deserializeFrom_eq_slots hchain, hverdict]
      refine meets_foldlM (fun s hs f hf => block_meets hcompiles hs hf fun c' v hc' hv => ?_) hf
      obtain ⟨chain', h, hchain', hfresh, hh⟩ := fresh_shaped hb hc'
      simp only [readObject, hfresh, orHalt_some, ok_bind]
      exact meets_bind (ih hc' hchain' (by omega) (by omega) hh) fun f _ => ⟨_, rfl, trivial⟩

theorem deserialize_meets (hb : Compiles b classes) {k : Nat} {c : Text} (hc : classes c)
    (hk : d.depth < k) : Meets Any (deserialize b k c d) (verdict b c d) := by
  obtain ⟨chain, h, hchain, hfresh, hh⟩ := fresh_shaped hb hc
  simp only [deserialize, readObject, hfresh, orHalt_some, ok_bind]
  exact meets_bind (deserializeFrom_meets hb hc hchain (Nat.lt_succ_self _) hk hh) fun f _ =>
    ⟨_, rfl, trivial⟩

end Classes

/-- Whatever the parser makes of a text, the emitted `deserialize` returns true or false
exactly when the document does not lead to an accessor on a value it asserts against. -/
theorem deserialize_returns {b : Build} {classes : Text → Prop} (hb : Compiles b classes)
    {c : Text} (hc : classes c) (parse : Text → Value) (text : Text) {k : Nat}
    (hk : (parse text).depth < k) :
    ((∃ w, deserialize b k c (parse text) = .ok w) ∨
        deserialize b k c (parse text) = .error .returnFalse) ↔
      verdict b c (parse text) ≠ .misuse := by
  have h := deserialize_meets hb hc hk
  cases hv : verdict b c (parse text) with
  | accept =>
      rw [hv] at h
      obtain ⟨w, hw, _⟩ := h
      exact ⟨fun _ => by decide, fun _ => Or.inl ⟨w, hw⟩⟩
  | reject =>
      rw [hv] at h
      exact ⟨fun _ => by decide, fun _ => Or.inr h⟩
  | misuse =>
      rw [hv] at h
      have hrun : deserialize b k c (parse text) = .error .misuse := h
      rw [hrun]
      simp

section Required

variable {b : Build} {ms : Members} {s : Slot}

def Missing (b : Build) (ms : Members) (s : Slot) : Prop :=
  s.2.mIsOptional = .required ∧ s.2.mIsMap = false ∧ ms.lookup s.2.mMember = none ∧
    (getStandardType s.2.mType ≠ .none ∨ (b.classEnum s.2.mType).isSome)

def ScalarEnum (b : Build) (i : MemberVariable) : Prop :=
  getStandardType i.mType = .none ∧ b.classEnum i.mType = some true ∧ i.mIsArray = false

theorem slot_missing (judge : Text → Value → Verdict) {stmt : DeserializeStmt}
    (hstmt : statementOf b s = some stmt)
    (hs : Missing b ms s) :
    (ScalarEnum b s.2 → slot b judge (.object ms) s = .accept) ∧
      (¬ ScalarEnum b s.2 → slot b judge (.object ms) s = .reject) := by
  obtain ⟨hreq, hm, hlookup, hknown⟩ := hs
  rw [slot, hstmt, Option.map_some, Option.getD_some]
  rw [statementOf, deserializeStmt] at hstmt
  by_cases htype : getStandardType s.2.mType ≠ .none
  · have hno : ¬ ScalarEnum b s.2 := fun h => htype h.1
    refine ⟨fun h => absurd h hno, fun _ => ?_⟩
    simp only [if_pos htype, hm, hreq, Bool.false_eq_true, if_false] at hstmt
    split_ifs at hstmt <;> obtain rfl := Option.some.inj hstmt <;>
      simp [statement, member, hlookup]
  · rw [if_neg htype] at hstmt
    obtain ⟨isEnum, hclass⟩ := Option.isSome_iff_exists.mp (hknown.resolve_left htype)
    have htype : getStandardType s.2.mType = .none := by simpa using htype
    simp only [hclass, hm, hreq] at hstmt
    cases ha : s.2.mIsArray <;> cases isEnum <;>
      simp only [ha, if_true, if_false, Bool.false_eq_true] at hstmt <;>
      obtain rfl := Option.some.inj hstmt <;>
      simp [statement, member, hlookup, ScalarEnum, htype, hclass, ha]

theorem first_eq_reject {l : List Verdict} :
    first l = .reject ↔ first l ≠ .misuse ∧ .reject ∈ l := by
  induction l with
  | nil => simp [first]
  | cons v l ih =>
      cases v with
      | accept => simpa [first] using ih
      | reject | misuse => simp [first]

end Required

/-- The emitted `deserializeFrom` rejects an object exactly when no accessor is misused on the
way, and a required member other than a single enum is missing or some other entry is rejected
by the test of its own member. -/
theorem deserializeFrom_returnFalse {b : Build} {classes : Text → Prop} (hb : Compiles b classes)
    {c : Text} (hc : classes c) {chain : List Object} (hchain : b.chain c = some chain)
    {ms : Members} {k : Nat} (hk : (Value.object ms).depth < k) {f : Fields}
    (hf : Shaped chain f) :
    deserializeFrom b k c (.object ms) f = .error .returnFalse ↔
      verdict b c (.object ms) ≠ .misuse ∧ ∃ s ∈ slots chain,
        (Missing b ms s ∧ ¬ ScalarEnum b s.2) ∨
        (¬ Missing b ms s ∧ slot b (cls b (Value.object ms).depth) (.object ms) s = .reject) := by
  have hmeets := deserializeFrom_meets hb hc hchain (Nat.lt_succ_self _) hk hf
  have hverdict : verdict b c (.object ms) =
      first ((slots chain).map (slot b (cls b (Value.object ms).depth) (.object ms))) := by
    simp only [verdict, cls, hchain, Option.getD_some]
  have hreject : deserializeFrom b k c (.object ms) f = .error .returnFalse ↔
      verdict b c (.object ms) = .reject := by
    rw [verdict]
    cases hv : cls b ((Value.object ms).depth + 1) c (.object ms) with
    | accept =>
        rw [hv] at hmeets
        obtain ⟨g, hg, _⟩ := hmeets
        simp [hg]
    | reject =>
        rw [hv] at hmeets
        exact ⟨fun _ => rfl, fun _ => hmeets⟩
    | misuse =>
        rw [hv] at hmeets
        have hrun : deserializeFrom b k c (.object ms) f = .error .misuse := hmeets
        simp [hrun]
  obtain ⟨chain', hchain', hcompiles⟩ := hb.chain c hc
  obtain rfl := Option.some.inj (hchain.symm.trans hchain')
  rw [hreject, hverdict, first_eq_reject, List.mem_map]
  refine and_congr_right fun _ => exists_congr fun s => and_congr_right fun hs => ?_
  obtain ⟨stmt, hstmt, _⟩ := hcompiles.blocks s hs
  by_cases hmissing : Missing b ms s
  · have hslot := slot_missing (cls b (Value.object ms).depth) hstmt hmissing
    by_cases henum : ScalarEnum b s.2
    · simp [hmissing, henum, hslot.1 henum]
    · simp [hmissing, henum, hslot.2 henum]
  · simp [hmissing]

section Examples

def mode : Object where
  mName := "Mode".toList
  mType := "Enum".toList
  mIsEnum := true
  mItems := [{ mMember := "slow".toList }, { mMember := "fast".toList }]

def countItem : MemberVariable where
  mMember := "count".toList
  mType := "u32".toList

def modeItem : MemberVariable where
  mMember := "mode".toList
  mType := "Mode".toList

def motor : Object where
  mName := "Motor".toList
  mType := "Class".toList
  mIsClass := true
  mItems := [countItem, modeItem]

def machine : Build where
  dom := { mObjects := [mode, motor] }
  constant := fun _ _ => 0
  initial := fun _ => .empty

def isMotor (c : Text) : Prop := c = "Motor".toList

theorem chain_motor : machine.chain "Motor".toList = some [motor] := rfl

theorem slots_motor : slots [motor] = [([motor], countItem), ([motor], modeItem)] := rfl

theorem machine_compiles : Compiles machine isMotor := by
  refine ⟨?_, fun c hc => ?_⟩
  · rintro c rfl
    refine ⟨_, chain_motor, by decide, by decide, by decide, ?_⟩
    rw [slots_motor]
    simp only [List.forall_mem_cons]
    refine ⟨⟨.integer "count".toList .u32 true, by decide, Or.inl rfl⟩,
      ⟨.enum "mode".toList "Mode".toList false, by decide, ?_⟩, List.forall_mem_nil _⟩
    rw [StmtCompiles]
    decide
  · obtain rfl : c = "Motor".toList := hc
    exact ⟨_, rfl⟩

def countOf (n : Int) : Value := .object [("count".toList, .number (.int n))]

theorem deserialize_returns_motor :
    ((∃ w, deserialize machine 2 "Motor".toList (countOf 3) = .ok w) ∨
        deserialize machine 2 "Motor".toList (countOf 3) = .error .returnFalse) ↔
      verdict machine "Motor".toList (countOf 3) ≠ .misuse :=
  deserialize_returns machine_compiles rfl (fun _ => countOf 3) [] (by decide)

/-- The document of a text that does not parse is null, and a number may be negative. -/
theorem deserialize_motor_misuse :
    Compiles machine isMotor ∧ isMotor "Motor".toList ∧
      deserialize machine 1 "Motor".toList .null = .error .misuse ∧
      deserialize machine 2 "Motor".toList (countOf (-1)) = .error .misuse :=
  ⟨machine_compiles, rfl, rfl, rfl⟩

def stopped : Fields := fun _ m =>
  if m = "count".toList then .int 0 else if m = "mode".toList then .enum 0 else .empty

theorem stopped_shaped : Shaped [motor] stopped := by
  rw [Shaped, slots_motor]
  simp [Fits, countItem, modeItem]

theorem deserializeFrom_returnFalse_motor :
    deserializeFrom machine 2 "Motor".toList (countOf 3) stopped = .error .returnFalse ↔
      verdict machine "Motor".toList (countOf 3) ≠ .misuse ∧ ∃ s ∈ slots [motor],
        (Missing machine [("count".toList, .number (.int 3))] s ∧ ¬ ScalarEnum machine s.2) ∨
        (¬ Missing machine [("count".toList, .number (.int 3))] s ∧
          slot machine (cls machine (countOf 3).depth) (countOf 3) s = .reject) :=
  deserializeFrom_returnFalse machine_compiles rfl chain_motor (by decide) stopped_shaped

/-- A required enum may be missing. -/
theorem deserializeFrom_motor_without_mode :
    Compiles machine isMotor ∧ ([motor], modeItem) ∈ slots [motor] ∧
      Missing machine [("count".toList, .number (.int 3))] ([motor], modeItem) ∧
      ∃ f, deserializeFrom machine 2 "Motor".toList (countOf 3) stopped = .ok f :=
  ⟨machine_compiles, by decide, ⟨rfl, rfl, rfl, Or.inr (by decide)⟩, _, rfl⟩

end Examples

end SchemaCodeGen.Conformance
