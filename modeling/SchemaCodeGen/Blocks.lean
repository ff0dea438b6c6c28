import SchemaCodeGen.RoundTrip
import SchemaCodeGen.Conformance

namespace SchemaCodeGen.Blocks

open CString Json Schema Emit Fallible Generated Slots Fresh RoundTrip Judge Conformance

def targets (chain : List Object) : DeserializeStmt → List (Nat × Text)
  | .numericMap m _ | .stringMap m _ _ | .enumListMap m _ => [(level chain, '_' :: m)]
  | .integer m _ _ | .integerArray m _ _ | .checked m _ _ | .checkedArray m _ _ | .enum m _ _
  | .object m _ _ | .objectArray m _ _ => [(level chain, m)]
  | .enumArray _ _ _ => ((findField "acl".toList chain).map fun t => (t.1, "acl".toList)).toList
  | .todo => []

section Frame

variable {l : Nat} {m : Text} {f g : Fields}

theorem assign_frame {lv : Nat} {name k : Text} {x : Datum} (h : f.assign lv name k x = .ok g)
    (hne : (l, m) ≠ (lv, name)) : g l m = f l m := by
  obtain ⟨es, _, h⟩ := bind_eq_ok.mp h
  obtain rfl := Except.ok.inj h
  exact Fields.set_of_ne f _ hne

theorem pushBack_frame {lv : Nat} {name : Text} {x : Datum} (h : f.pushBack lv name x = .ok g)
    (hne : (l, m) ≠ (lv, name)) : g l m = f l m := by
  obtain ⟨xs, _, h⟩ := bind_eq_ok.mp h
  obtain rfl := Except.ok.inj h
  exact Fields.set_of_ne f _ hne

theorem foldlM_frame {α : Type} {step : Fields → α → Run Fields} {xs : List α}
    (hstep : ∀ x ∈ xs, ∀ f g, step f x = .ok g → g l m = f l m)
    (h : xs.foldlM step f = .ok g) : g l m = f l m := by
  induction xs generalizing f with
  | nil =>
      obtain rfl := Except.ok.inj h
      rfl
  | cons x xs ih =>
      rw [List.forall_mem_cons] at hstep
      rw [List.foldlM_cons] at h
      obtain ⟨f', hf', h⟩ := bind_eq_ok.mp h
      rw [ih hstep.2 h, hstep.1 f f' hf']

theorem foldlM_pushBack_frame {lv : Nat} {name : Text} {read : Value → Run Datum} {js : List Value}
    (h : js.foldlM (fun f item => do f.pushBack lv name (← read item)) f = .ok g)
    (hne : (l, m) ≠ (lv, name)) : g l m = f l m := by
  refine foldlM_frame (fun j _ f g h => ?_) h
  obtain ⟨x, _, h⟩ := bind_eq_ok.mp h
  exact pushBack_frame h hne

theorem withMember_cases {d : Value} {name : Text} {required : Bool} {found : Value → Run Fields}
    (h : withMember d name required f found = .ok g) :
    (d.findMember name = some none ∧ g = f) ∨
      ∃ v, d.findMember name = some (some v) ∧ found v = .ok g := by
  obtain ⟨entry, hentry, h⟩ := bind_eq_ok.mp h
  have hentry := orHalt_eq_ok.mp hentry
  cases entry with
  | some v => exact Or.inr ⟨v, hentry, h⟩
  | none =>
      cases required with
      | true => exact absurd h (by simp)
      | false => exact Or.inl ⟨hentry, (Except.ok.inj h).symm⟩

theorem withMember_frame {d : Value} {name : Text} {required : Bool} {found : Value → Run Fields}
    (h : withMember d name required f found = .ok g)
    (hfound : ∀ v, found v = .ok g → g l m = f l m) : g l m = f l m := by
  obtain ⟨_, rfl⟩ | ⟨v, _, hv⟩ := withMember_cases h
  · rfl
  · exact hfound v hv

variable {b : Build} {call : Text → Value → Fields → Run Fields} {fresh : Text → Option Fields}
  {chain : List Object} {d : Value}

theorem set_frame {lv : Nat} {name : Text} {r : Run Datum}
    (h : (r >>= fun x => .ok (f.set lv name x)) = .ok g) (hne : (l, m) ≠ (lv, name)) :
    g l m = f l m := by
  obtain ⟨x, _, h⟩ := bind_eq_ok.mp h
  obtain rfl := Except.ok.inj h
  exact Fields.set_of_ne f x hne

/-- A block changes no member but its targets. -/
theorem runDeserialize_frame {stmt : DeserializeStmt}
    (h : runDeserialize b call fresh chain d f stmt = .ok g)
    (hne : (l, m) ∉ targets chain stmt) : g l m = f l m := by
  cases stmt with
  | numericMap name type =>
      have hne : (l, m) ≠ (level chain, '_' :: name) := by simpa [targets] using hne
      obtain ⟨ms, _, h⟩ := bind_eq_ok.mp h
      refine foldlM_frame (fun e _ f g h => ?_) h
      obtain ⟨k, v⟩ := e
      cases v with
      | string t => exact assign_frame h hne
      | number n =>
          obtain ⟨n, _, h⟩ := bind_eq_ok.mp h
          exact assign_frame h hne
      | null | bool _ | array _ | object _ => rw [Except.ok.inj h]
  | stringMap name type skipMembers =>
      have hne : (l, m) ≠ (level chain, '_' :: name) := by simpa [targets] using hne
      rw [runDeserialize] at h
      split_ifs at h
      obtain ⟨ms, _, h⟩ := bind_eq_ok.mp h
      refine foldlM_frame (fun e _ f g h => ?_) h
      obtain ⟨k, v⟩ := e
      cases v with
      | string t =>
          dsimp only at h
          split_ifs at h
          · rw [Except.ok.inj h]
          · exact assign_frame h hne
      | null | bool _ | number _ | array _ | object _ => rw [Except.ok.inj h]
  | integer name type required =>
      have hne : (l, m) ≠ (level chain, name) := by simpa [targets] using hne
      apply withMember_frame h
      intro v hv
      obtain ⟨n, _, hv⟩ := bind_eq_ok.mp hv
      rw [← Except.ok.inj hv, Fields.set_of_ne _ _ hne]
  | integerArray name type required =>
      have hne : (l, m) ≠ (level chain, name) := by simpa [targets] using hne
      rw [runDeserialize] at h
      split_ifs at h
      apply withMember_frame h
      intro v hv
      obtain ⟨js, _, hv⟩ := bind_eq_ok.mp hv
      obtain ⟨ns, _, hv⟩ := bind_eq_ok.mp hv
      rw [← Except.ok.inj hv, Fields.set_of_ne _ _ hne]
  | checked name type required | enum name type asInteger | object name type required =>
      have hne : (l, m) ≠ (level chain, name) := by simpa [targets] using hne
      exact withMember_frame h fun v hv => set_frame hv hne
  | checkedArray name type required =>
      have hne : (l, m) ≠ (level chain, name) := by simpa [targets] using hne
      rw [runDeserialize] at h
      split_ifs at h
      apply withMember_frame h
      intro v hv
      split_ifs at hv
      obtain ⟨js, _, hv⟩ := bind_eq_ok.mp hv
      refine foldlM_frame (fun j _ f g h => ?_) hv
      split_ifs at h
      obtain ⟨x, _, h⟩ := bind_eq_ok.mp h
      exact pushBack_frame h hne
  | enumArray name type required =>
      rw [runDeserialize] at h
      cases hacl : findField "acl".toList chain with
      | none =>
          rw [hacl] at h
          exact absurd h (by simp)
      | some t =>
          obtain ⟨lv, i⟩ := t
          have hne : (l, m) ≠ (lv, "acl".toList) := by
            rw [targets, hacl] at hne
            simpa only [Option.map_some, Option.toList_some, List.mem_singleton] using hne
          rw [hacl] at h
          dsimp only at h
          split_ifs at h
          apply withMember_frame h
          intro v hv
          obtain ⟨js, _, hv⟩ := bind_eq_ok.mp hv
          exact foldlM_pushBack_frame hv hne
  | enumListMap name type =>
      have hne : (l, m) ≠ (level chain, '_' :: name) := by simpa [targets] using hne
      obtain ⟨ms, _, h⟩ := bind_eq_ok.mp h
      refine foldlM_frame (fun e _ f g h => ?_) h
      obtain ⟨js, _, h⟩ := bind_eq_ok.mp h
      obtain ⟨xs, _, h⟩ := bind_eq_ok.mp h
      exact assign_frame h hne
  | objectArray name type required =>
      have hne : (l, m) ≠ (level chain, name) := by simpa [targets] using hne
      apply withMember_frame h
      intro v hv
      obtain ⟨js, _, hv⟩ := bind_eq_ok.mp hv
      exact foldlM_pushBack_frame hv hne
  | todo => rw [Except.ok.inj h]

end Frame

section Scalars

variable {b : Build} {i : MemberVariable}

/-- The type of a member is a standard type, an enum or a class, and the member is no pointer. -/
structure Known (b : Build) (i : MemberVariable) : Prop where
  type : getStandardType i.mType ≠ .none ∨ (b.classEnum i.mType).isSome
  form : HasForm i

def readMember (b : Build) (call : Text → Value → Fields → Run Fields) (i : MemberVariable)
    (v : Value) : Run Datum :=
  if getStandardType i.mType ≠ .none then
    if isNumeric (getStandardType i.mType) then asInt (getStandardType i.mType) v
    else readChecked (getStandardType i.mType) v
  else if b.classEnum i.mType = some true then readEnum b i.mType i.mSerializeEnumAsInteger v
  else readObject call b.fresh i.mType v

theorem deserializeItem_scalar (hknown : Known b i) (ha : i.mIsArray = false)
    (hm : i.mIsMap = false) : ∃ required : Bool, (i.mIsOptional ≠ .required → required = false) ∧
      ∀ call chain d f, deserializeItem b call chain d f i =
        withMember d i.mMember required f fun v =>
          readMember b call i v >>= fun x => .ok (f.set (level chain) i.mMember x) := by
  by_cases htype : getStandardType i.mType ≠ .none
  · by_cases hnum : isNumeric (getStandardType i.mType) = true
    · refine ⟨i.mIsOptional = .required, by simp, fun call chain d f => ?_⟩
      have hstmt : deserializeStmt b.classEnum ((chain.head?.map nonMapItems).getD []) i =
          some (.integer i.mMember (getStandardType i.mType) (i.mIsOptional = .required)) := by
        simp [deserializeStmt, htype, hm, ha, hnum]
      simp only [deserializeItem, hstmt, orHalt_some, ok_bind, runDeserialize]
      congr 1
      funext v
      rw [readMember, if_pos htype, if_pos hnum, asInt]
      cases readInteger (getStandardType i.mType) v <;> rfl
    · refine ⟨i.mIsOptional = .required, by simp, fun call chain d f => ?_⟩
      have hstmt : deserializeStmt b.classEnum ((chain.head?.map nonMapItems).getD []) i =
          some (.checked i.mMember (getStandardType i.mType) (i.mIsOptional = .required)) := by
        simp [deserializeStmt, htype, hm, ha, hnum]
      simp only [deserializeItem, hstmt, orHalt_some, ok_bind, runDeserialize]
      congr 1
      funext v
      rw [readMember, if_pos htype, if_neg hnum]
  · obtain ⟨isEnum, hclass⟩ := Option.isSome_iff_exists.mp (hknown.type.resolve_left htype)
    have hnone : getStandardType i.mType = .none := by simpa using htype
    cases isEnum with
    | true =>
        refine ⟨false, by simp, fun call chain d f => ?_⟩
        have hstmt : deserializeStmt b.classEnum ((chain.head?.map nonMapItems).getD []) i =
            some (.enum i.mMember i.mType i.mSerializeEnumAsInteger) := by
          simp [deserializeStmt, hnone, hclass, ha]
        simp only [deserializeItem, hstmt, orHalt_some, ok_bind, runDeserialize]
        congr 1
        funext v
        rw [readMember, if_neg htype, if_pos hclass]
    | false =>
        refine ⟨i.mIsOptional = .required, by simp, fun call chain d f => ?_⟩
        have hstmt : deserializeStmt b.classEnum ((chain.head?.map nonMapItems).getD []) i =
            some (.object i.mMember i.mType (i.mIsOptional = .required)) := by
          simp [deserializeStmt, hnone, hclass, ha]
        simp only [deserializeItem, hstmt, orHalt_some, ok_bind, runDeserialize]
        congr 1
        funext v
        rw [readMember, if_neg htype, if_neg (by simp [hclass])]

theorem getName_ne_empty {type : StandardType} {v : Value} {x : Datum}
    (h : getName type v = .ok x) : x ≠ .empty := by
  rintro rfl
  rw [getName.eq_def] at h
  split at h <;> simp at h

theorem readOtherNumber_ne_empty {type : StandardType} {v : Value} {x : Datum}
    (h : readOtherNumber type v = .ok x) : x ≠ .empty := by
  rintro rfl
  rw [readOtherNumber.eq_def] at h
  split at h
  · obtain ⟨n, _, h⟩ := bind_eq_ok.mp h
    simp at h
  · obtain ⟨n, _, h⟩ := bind_eq_ok.mp h
    simp at h
  · simp at h

theorem readEnumName_eq_enum {type : Text} {v : Value} {x : Datum}
    (h : readEnumName b type v = .ok x) : ∃ n, x = .enum n := by
  cases v with
  | string s =>
      obtain ⟨e, _, h⟩ := bind_eq_ok.mp h
      obtain ⟨n, _, h⟩ := bind_eq_ok.mp h
      exact ⟨n, (Except.ok.inj h).symm⟩
  | null | bool _ | number _ | array _ | object _ => exact absurd h (by simp [readEnumName])

theorem readEnum_eq_enum {type : Text} {asInteger : Bool} {v : Value} {x : Datum}
    (h : readEnum b type asInteger v = .ok x) : ∃ n, x = .enum n := by
  rw [readEnum.eq_def] at h
  split at h
  · obtain ⟨n, _, h⟩ := bind_eq_ok.mp h
    exact ⟨n.toNat, (Except.ok.inj h).symm⟩
  · exact readEnumName_eq_enum h

theorem readMember_ne_empty {call : Text → Value → Fields → Run Fields} {v : Value} {x : Datum}
    (h : readMember b call i v = .ok x) : x ≠ .empty := by
  rw [readMember] at h
  split_ifs at h
  · obtain ⟨n, _, h⟩ := bind_eq_ok.mp h
    rw [← Except.ok.inj h]
    exact Datum.noConfusion
  · rw [readChecked] at h
    split_ifs at h
    · exact getName_ne_empty h
    · exact readOtherNumber_ne_empty h
  · obtain ⟨n, rfl⟩ := readEnum_eq_enum h
    exact Datum.noConfusion
  · obtain ⟨r, _, h⟩ := bind_eq_ok.mp h
    obtain ⟨g, _, h⟩ := bind_eq_ok.mp h
    rw [← Except.ok.inj h]
    exact Datum.noConfusion

end Scalars

section Runs

variable {b : Build} {classes : Text → Prop} {chain : List Object} {s t : Slot} {f g : Fields}
  {call : Text → Value → Fields → Run Fields}

theorem deserializeItem_frame_acl {d : Value} (hchain : ChainCompiles b classes chain)
    (hs : s ∈ slots chain) (ht : t ∈ slots chain) (hne : t ≠ s)
    (hacl : ∀ m type required, statementOf b t = some (.enumArray m type required) →
      key s ∉ targets t.1 (.enumArray m type required))
    (h : deserializeItem b call t.1 d f t.2 = .ok g) : get g s = get f s := by
  have hkeys := nodup_keys hchain.names
  obtain ⟨stmt, hstmt, hc⟩ := hchain.blocks t ht
  have hfor := emittedFor (hchain.maps t ht) hstmt
  have hown : ∀ m, memberName t.2 = m → (level s.1, memberName s.2) ≠ (level t.1, m) := by
    rintro m rfl hkey
    exact hne (eq_of_key_eq hkeys ht hs hkey.symm)
  have hrun := hstmt
  rw [statementOf] at hrun
  rw [deserializeItem, hrun, orHalt_some, ok_bind] at h
  apply runDeserialize_frame h
  cases stmt with
  | numericMap m _ | stringMap m _ _ | enumListMap m _ =>
      rw [targets, List.mem_singleton, hfor.2]
      exact hown _ (memberName_of_map hfor.1)
  | integer m _ _ | checked m _ _ | enum m _ _ | object m _ _ =>
      rw [targets, List.mem_singleton, hfor.2.2]
      exact hown _ (memberName_of_noMap hfor.1)
  | integerArray m _ _ | checkedArray m _ _ | objectArray m _ _ =>
      rw [targets, List.mem_singleton, hfor.2.2]
      exact hown _ (memberName_of_noMap hfor.1)
  | enumArray m type required => exact hacl m type required hstmt
  | todo => simp [targets]

theorem deserializeItem_frame {d : Value} (hchain : ChainCompiles b classes chain)
    (hs : s ∈ slots chain) (ha : s.2.mIsArray = true → b.enumType s.2.mType = none)
    (ht : t ∈ slots chain) (hne : t ≠ s) (h : deserializeItem b call t.1 d f t.2 = .ok g) :
    get g s = get f s := by
  refine deserializeItem_frame_acl hchain hs ht hne (fun m type required hstmt => ?_) h
  obtain ⟨stmt, hstmt', hc⟩ := hchain.blocks t ht
  obtain rfl := Option.some.inj (hstmt.symm.trans hstmt')
  -- The target is an array of enums, and `s` is none.
  obtain ⟨henum, l, i, hfind, hi, htype⟩ := hc
  obtain ⟨u, hu, rfl, rfl, hname⟩ := findField_mem hfind
  have hu := slots_subset_of_suffix (suffix_of_mem ht) u hu
  rw [targets, hfind, Option.map_some, Option.toList_some, List.mem_singleton]
  intro hkey
  have heq := eq_of_key_eq (nodup_keys hchain.names) hs hu (by rw [key, key, hname]; exact hkey)
  rw [← htype, ← heq, ha (heq ▸ hi)] at henum
  exact absurd henum (by simp)

theorem deserializeChain_own {d : Value} (hchain : ChainCompiles b classes chain)
    (hs : s ∈ slots chain) (ha : s.2.mIsArray = true → b.enumType s.2.mType = none)
    (h : deserializeChain b call d f chain = .ok g) :
    ∃ f' g', get f' s = get f s ∧ deserializeItem b call s.1 d f' s.2 = .ok g' ∧
      get g s = get g' s := by
  have hnodup : (slots chain).Nodup := (nodup_keys hchain.names).of_map key
  have hothers : ∀ l : List Slot, (∀ t ∈ l, t ∈ slots chain) → s ∉ l → ∀ f g,
      l.foldlM (fun f t => deserializeItem b call t.1 d f t.2) f = .ok g → get g s = get f s := by
    intro l hl hsl f g
    refine foldlM_frame fun t ht f g => deserializeItem_frame hchain hs ha (hl t ht) ?_
    rintro rfl
    exact hsl ht
  rw [deserializeChain_eq_slots] at h
  obtain ⟨l₁, l₂, hsplit⟩ := List.append_of_mem hs
  have hsub : ∀ t ∈ l₁ ++ s :: l₂, t ∈ slots chain := fun t ht => hsplit ▸ ht
  rw [hsplit, List.nodup_append, List.nodup_cons] at hnodup
  rw [hsplit, List.foldlM_append] at h
  obtain ⟨f', hf', h⟩ := bind_eq_ok.mp h
  rw [List.foldlM_cons] at h
  obtain ⟨g', hg', h⟩ := bind_eq_ok.mp h
  refine ⟨f', g', ?_, hg', ?_⟩
  · refine hothers l₁ (fun t ht => hsub t (List.mem_append_left _ ht)) (fun hmem => ?_) f f' hf'
    exact hnodup.2.2 s hmem s List.mem_cons_self rfl
  · refine hothers l₂ (fun t ht => hsub t ?_) hnodup.2.1.1 g' g h
    exact List.mem_append_right _ (List.mem_cons_of_mem _ ht)

end Runs

section Stores

variable {b : Build} {chain : List Object} {i : MemberVariable} {v : Value} {x : Datum}

/-- On every document with an entry for the member, its block stores a value. -/
structure Stores (b : Build) (chain : List Object) (i : MemberVariable) (v : Value) (x : Datum) :
    Prop where
  form : HasForm i
  run : ∀ call d f, d.findMember i.mMember = some (some v) →
    deserializeItem b call chain d f i = .ok (f.set (level chain) i.mMember x)

theorem Stores.alone (h : Stores b chain i v x) (call : Text → Value → Fields → Run Fields) :
    deserializeItem b call chain (.object [(i.mMember, v)]) (fun _ _ => .empty) i =
      .ok (Fields.set (fun _ _ => .empty) (level chain) i.mMember x) :=
  h.run call _ _ (by simp [Value.findMember, Value.memberList])

theorem Stores.no_map (h : Stores b chain i v x) (htype : getStandardType i.mType ≠ .none)
    (hx : x ≠ .empty) : i.mIsMap = false := by
  by_contra hmap
  rw [Bool.not_eq_false] at hmap
  have hrun := h.alone fun _ _ _ => .error .fuel
  rw [deserializeItem] at hrun
  obtain ⟨stmt, hstmt, hrun⟩ := bind_eq_ok.mp hrun
  have hframe := runDeserialize_frame (l := level chain) (m := i.mMember) hrun
  rw [Fields.set_same] at hframe
  apply hx
  apply hframe
  rw [orHalt_eq_ok, deserializeStmt] at hstmt
  simp only [htype, hmap, if_true, ne_eq, not_false_eq_true] at hstmt
  split_ifs at hstmt
  all_goals
    obtain rfl := Option.some.inj hstmt
    simp [targets]

theorem stores_iff_read (hknown : Known b i) (ha : i.mIsArray = false) (hm : i.mIsMap = false) :
    Stores b chain i v x ↔ ∀ call, readMember b call i v = .ok x := by
  obtain ⟨required, _, hblock⟩ := deserializeItem_scalar hknown ha hm
  have hfound : ∀ call d f, d.findMember i.mMember = some (some v) →
      deserializeItem b call chain d f i =
        readMember b call i v >>= fun x => .ok (f.set (level chain) i.mMember x) := by
    intro call d f hd
    rw [hblock, withMember, hd]
    rfl
  constructor
  · intro h call
    have halone := h.alone call
    rw [hfound call _ _ (by simp [Value.findMember, Value.memberList])] at halone
    obtain ⟨y, hy, hset⟩ := bind_eq_ok.mp halone
    have heq := congrFun (congrFun (Except.ok.inj hset) (level chain)) i.mMember
    rw [Fields.set_same, Fields.set_same] at heq
    rw [hy, heq]
  · refine fun h => ⟨hknown.form, fun call d f hd => ?_⟩
    rw [hfound call d f hd, h call]
    rfl

theorem deserializeChain_stores {classes : Text → Prop} {s : Slot} {f g : Fields} {d : Value}
    {call : Text → Value → Fields → Run Fields} (hchain : ChainCompiles b classes chain)
    (hs : s ∈ slots chain) (ha : s.2.mIsArray = true → b.enumType s.2.mType = none)
    (hname : memberName s.2 = s.2.mMember) (hd : d.findMember s.2.mMember = some (some v))
    (hstores : Stores b s.1 s.2 v x) (h : deserializeChain b call d f chain = .ok g) : get g s = x := by
  obtain ⟨f', g', _, hblock, hget⟩ := deserializeChain_own hchain hs ha h
  rw [hstores.run call d f' hd] at hblock
  rw [hget, ← Except.ok.inj hblock, Slots.get, hname, Fields.set_same]

end Stores

end SchemaCodeGen.Blocks
