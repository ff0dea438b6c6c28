import SchemaCodeGen.Blocks

namespace SchemaCodeGen.EnumMembers

open CString Json Schema Emit EnumTable Fallible Generated Slots Fresh Values RoundTrip Judge
  Conformance Blocks

variable (b : Build)

/-- The number is the value of an item of the enum, so that `stringifyEnum` finds it. -/
def Listed (type : Text) (n : Nat) : Prop :=
  ∃ e, b.enumType type = some e ∧ (stringifyEnum b.constant e n).isSome

def PlainEnum (i : MemberVariable) : Prop :=
  ScalarEnum b i ∧ i.mIsPointer = false ∧ i.mIsOptional ≠ .optional

def HoldsListed (i : MemberVariable) (d : Datum) : Prop :=
  PlainEnum b i → ∃ n, d = .enum n ∧ Listed b i.mType n

/-- A default stands on the row of the member or on a row that a constructor assigns, or the
enum lists zero. -/
def StartsListed (chain : List Object) (s : Slot) : Prop :=
  (lastAssigned chain s).isSome ∨ s.2.mDefaultValue ≠ [] ∨ Listed b s.2.mType 0

def Embedded (chain : List Object) (s : Slot) : Prop :=
  s.2.mIsArray = false ∧
    (s.2.mIsPointer = false ∧ s.2.mIsOptional ≠ .optional ∨ (lastAssigned chain s).isSome)

/-- Every plain enum member of a new object starts listed, to a depth of `n` classes. -/
def FreshListed : Nat → Text → Prop
  | 0, _ => True
  | n + 1, c => ∀ chain, b.chain c = some chain → ∀ s ∈ slots chain,
      (PlainEnum b s.2 → StartsListed b chain s) ∧
        (b.isClass s.2.mType = true → Embedded chain s → FreshListed n s.2.mType)

def parts (i : MemberVariable) : Value → List Value
  | .array l => if i.mIsArray then l else [.array l]
  | v => if i.mIsArray then [] else [v]

/-- Every number that a document gives to a plain enum member is listed, and every member that
the document leaves out starts listed, to a depth of `n` classes. -/
def DocumentListed : Nat → Text → Value → Prop
  | 0, _, _ => True
  | n + 1, c, d => ∀ chain, b.chain c = some chain → ∀ s ∈ slots chain,
      (PlainEnum b s.2 →
        (d.findMember s.2.mMember = some none → StartsListed b chain s) ∧
        ∀ m, d.findMember s.2.mMember = some (some (.number (.int m))) →
          Listed b s.2.mType m.toNat) ∧
      (b.isClass s.2.mType = true →
        (d.findMember s.2.mMember = some none → Embedded chain s → FreshListed b n s.2.mType) ∧
        ∀ v, d.findMember s.2.mMember = some (some v) → ∀ j ∈ parts s.2 v,
          DocumentListed n s.2.mType j)

/-- Defaults name items of their enum, a row that restates a member has its type, and the
vector classes, which numbers initialize, have no members of other types. -/
structure DefaultsListed (classes : Text → Prop) : Prop where
  named : ∀ i, b.classEnum i.mType = some true → i.mDefaultValue ≠ [] →
    ∃ n, b.initial i = .enum n ∧ Listed b i.mType n
  restated : ∀ c chain, classes c → b.chain c = some chain → ∀ s ∈ slots chain, ∀ i,
    lastAssigned chain s = some i → i.mType = s.2.mType
  vectors : ∀ c chain, isVector c = true → b.chain c = some chain → ∀ s ∈ slots chain,
    getStandardType s.2.mType ≠ .none

variable {b} {classes : Text → Prop} {chain : List Object} {s : Slot} {f : Fields}

theorem lastAssigned_default {i : MemberVariable} (h : lastAssigned chain s = some i) :
    i.mDefaultValue ≠ [] := by
  induction chain with
  | nil => simp [lastAssigned] at h
  | cons o bases ih =>
      rw [lastAssigned] at h
      split_ifs at h
      · exact ih h
      · cases hfind : (restatedItems o).reverse.find? fun i =>
            restatedKey (o :: bases) i = some (key s) with
        | none =>
            rw [hfind, Option.none_or] at h
            exact ih h
        | some j =>
            rw [hfind, Option.some_or] at h
            obtain rfl := Option.some.inj h
            have hmem := List.mem_reverse.mp (List.mem_of_find?_eq_some hfind)
            have hrow := (List.mem_filter.mp hmem).2
            simp only [Bool.decide_and, Bool.and_eq_true, decide_eq_true_eq] at hrow
            exact hrow.2

theorem listed_of_mem {type : Text} {e : Object} {x : Nat} {t : Text}
    (he : b.enumType type = some e) (h : (x, t) ∈ keyList b.constant e) : Listed b type x := by
  refine ⟨e, he, ?_⟩
  rw [stringifyEnum, Option.isSome_map, List.find?_isSome]
  exact ⟨(x, t), List.mem_reverse.mpr h, by simp⟩

section Fresh

theorem fresh_enum {call : Text → Option Fields} (hd : DefaultsListed b classes) {c : Text}
    (hc : classes c) (hchain : b.chain c = some chain) (hcompiles : ChainCompiles b classes chain)
    (hf : constructChain b call chain = some f) (hs : s ∈ slots chain) (hp : PlainEnum b s.2) :
    (∃ n, get f s = .enum n ∧ Listed b s.2.mType n) ↔ StartsListed b chain s := by
  obtain ⟨⟨htype, henum, ha⟩, hptr, hopt⟩ := hp
  have hscalar : Scalar b s.2 := ⟨ha, hptr, Or.inr henum⟩
  have hvalue := constructChain_value hf hcompiles.names hs
  have hinitial : ∀ i, i.mType = s.2.mType → i.mDefaultValue ≠ [] → get f s = b.initial i →
      ∃ n, get f s = .enum n ∧ Listed b s.2.mType n := by
    intro i hi hdefault hget
    obtain ⟨n, hn, hlisted⟩ := hd.named i (by rw [hi, henum]) hdefault
    exact ⟨n, hget.trans hn, hi ▸ hlisted⟩
  cases hlast : lastAssigned chain s with
  | some i =>
      rw [hlast] at hvalue
      have hi := hd.restated c chain hc hchain s hs i hlast
      have hget := assignedValue_scalar hscalar hi hvalue
      exact ⟨fun _ => Or.inl (by rw [hlast]; rfl),
        fun _ => hinitial i hi (lastAssigned_default hlast) hget⟩
  | none =>
      rw [hlast] at hvalue
      have hget := Option.some.inj ((initialValue_scalar hscalar).symm.trans hvalue)
      by_cases hdefault : s.2.mDefaultValue = []
      · rw [if_pos hdefault, valueless, if_neg hopt, if_neg (not_not.mpr htype)] at hget
        simp [StartsListed, hlast, hdefault, ← hget]
      · rw [if_neg hdefault] at hget
        exact ⟨fun _ => Or.inr (Or.inl hdefault), fun _ => hinitial s.2 rfl hdefault hget.symm⟩

theorem type_of_isClass {type : Text} (h : b.isClass type = true) :
    getStandardType type = .none ∧ b.classEnum type = some false := by
  simpa [Build.isClass] using h

theorem enumType_of_isClass {type : Text} (h : b.isClass type = true) : b.enumType type = none := by
  obtain ⟨o, ho, hkind⟩ := Option.map_eq_some_iff.mp (type_of_isClass h).2
  simp [Build.enumType, ho, hkind]

theorem isClass_member (hcompiles : ChainCompiles b classes chain) (hs : s ∈ slots chain)
    (hclass : b.isClass s.2.mType = true) : s.2.mIsMap = false ∧ classes s.2.mType := by
  obtain ⟨htype, henum⟩ := type_of_isClass hclass
  obtain ⟨stmt, hstmt, hc⟩ := hcompiles.blocks s hs
  cases hm : s.2.mIsMap with
  | true =>
      have ha := hcompiles.maps s hs hm
      have hmap : statementOf b s = some (.enumListMap s.2.mMember s.2.mType) := by
        simp [statementOf, deserializeStmt, htype, henum, ha, hm]
      obtain rfl := Option.some.inj (hstmt.symm.trans hmap)
      rw [StmtCompiles, enumType_of_isClass hclass] at hc
      exact absurd hc (by simp)
  | false =>
      have hplain := (statements_object b.classEnum ((s.1.head?.map nonMapItems).getD []) htype henum
        hm).2
      obtain rfl := Option.some.inj (hstmt.symm.trans hplain)
      refine ⟨rfl, ?_⟩
      split_ifs at hc <;> exact hc

/-- The object that construction puts into a class member, if any. -/
theorem fresh_object {call : Text → Option Fields} {c : Text} (hd : DefaultsListed b classes)
    (hc : classes c) (hchain : b.chain c = some chain) (hcompiles : ChainCompiles b classes chain)
    (hf : constructChain b call chain = some f) (hs : s ∈ slots chain)
    (hclass : b.isClass s.2.mType = true) (hvec : isVector s.2.mType = false) :
    (Embedded chain s ∧ ∃ g, call s.2.mType = some g ∧ get f s = .object g) ∨
      (¬ Embedded chain s ∧ held (get f s) = []) := by
  obtain ⟨htype, henum⟩ := type_of_isClass hclass
  have hvalue := constructChain_value hf hcompiles.names hs
  cases hlast : lastAssigned chain s with
  | some i =>
      rw [hlast] at hvalue
      dsimp only at hvalue
      have hi := hd.restated c chain hc hchain s hs i hlast
      have ha : s.2.mIsArray = false := by
        have hnot := mt (not_restated_of_array hf hcompiles.names hs)
          (not_not.mpr (restated_iff.mpr (by rw [hlast]; rfl)))
        simpa using hnot
      rw [assignedValue, hi, htype, hvec, henum] at hvalue
      split_ifs at hvalue
      · simp_all
      · obtain ⟨g, hg, hget⟩ := Option.map_eq_some_iff.mp hvalue
        exact Or.inl ⟨⟨ha, Or.inr (by rw [hlast]; rfl)⟩, g, hg, hget.symm⟩
  | none =>
      rw [hlast, initialValue, (isClass_member hcompiles hs hclass).1, htype, hvec, henum] at hvalue
      have hembedded : Embedded chain s ↔ s.2.mIsArray = false ∧ s.2.mIsPointer = false ∧
          s.2.mIsOptional ≠ .optional := by simp [Embedded, hlast]
      rw [hembedded]
      by_cases ha : s.2.mIsArray = true
      · rw [if_pos ha, if_neg (by simp)] at hvalue
        exact Or.inr ⟨by simp [ha], by rw [← Option.some.inj hvalue]; rfl⟩
      rw [if_neg ha] at hvalue
      by_cases hptr : s.2.mIsPointer = true
      · rw [if_pos hptr] at hvalue
        exact Or.inr ⟨by simp [hptr], by rw [← Option.some.inj hvalue]; rfl⟩
      rw [if_neg hptr, if_neg (by simp), if_neg (by simp)] at hvalue
      by_cases hopt : s.2.mIsOptional = .optional
      · simp only [hopt, if_true] at hvalue
        exact Or.inr ⟨by simp [hopt], by rw [← Option.some.inj hvalue]; rfl⟩
      · simp only [hopt, if_false] at hvalue
        obtain ⟨g, hg, hget⟩ := Option.map_eq_some_iff.mp hvalue
        exact Or.inl ⟨by simp [ha, hptr, hopt], g, hg, hget.symm⟩

theorem everywhere_vector (hd : DefaultsListed b classes) {n : Nat} {c : Text} {x : Datum}
    (hc : isVector c = true) : Everywhere b (HoldsListed b) n c x := by
  cases n with
  | zero => trivial
  | succ n =>
      rintro chain f hchain rfl s hs
      have hstd := hd.vectors c chain hc hchain s hs
      refine ⟨fun h => absurd h.1.1 hstd, fun h => absurd (type_of_isClass h).1 hstd⟩

theorem freshListed_vector (hd : DefaultsListed b classes) {n : Nat} {c : Text}
    (hc : isVector c = true) : FreshListed b n c := by
  cases n with
  | zero => trivial
  | succ n =>
      intro chain hchain s hs
      have hstd := hd.vectors c chain hc hchain s hs
      exact ⟨fun h => absurd h.1.1 hstd, fun h => absurd (type_of_isClass h).1 hstd⟩

theorem member_listed {n m : Nat} {c : Text} (hd : DefaultsListed b classes)
    (hc : classes c) (hchain : b.chain c = some chain) (hcompiles : ChainCompiles b classes chain)
    (hf : constructChain b (construct b m) chain = some f) (hs : s ∈ slots chain)
    (hclass : b.isClass s.2.mType = true)
    (ih : ∀ {g}, construct b m s.2.mType = some g →
      (Everywhere b (HoldsListed b) n s.2.mType (.object g) ↔ FreshListed b n s.2.mType)) :
    (∀ x ∈ held (get f s), Everywhere b (HoldsListed b) n s.2.mType x) ↔
      (Embedded chain s → FreshListed b n s.2.mType) := by
  by_cases hvec : isVector s.2.mType = true
  · exact ⟨fun _ _ => freshListed_vector hd hvec, fun _ _ _ => everywhere_vector hd hvec⟩
  · obtain ⟨hembedded, g, hg, hget⟩ | ⟨hnot, hnone⟩ :=
      fresh_object hd hc hchain hcompiles hf hs hclass (by simpa using hvec)
    · simp [hembedded, hget, held, ih hg]
    · simp [hnot, hnone]

theorem construct_listed (hb : Compiles b classes) (hd : DefaultsListed b classes) {n m : Nat}
    {c : Text} (hc : classes c) (hf : construct b m c = some f) :
    Everywhere b (HoldsListed b) n c (.object f) ↔ FreshListed b n c := by
  induction n generalizing m c f with
  | zero => exact Iff.rfl
  | succ n ih =>
      obtain ⟨chain, hchain, hcompiles⟩ := hb.chain c hc
      cases m with
      | zero => simp [construct] at hf
      | succ m =>
          rw [construct, hchain, Option.bind_some] at hf
          have hfresh : FreshListed b (n + 1) c ↔ ∀ s ∈ slots chain,
              (PlainEnum b s.2 → StartsListed b chain s) ∧
                (b.isClass s.2.mType = true → Embedded chain s → FreshListed b n s.2.mType) := by
            simp [FreshListed, hchain]
          rw [everywhere_object hchain, hfresh]
          refine forall₂_congr fun s hs => and_congr ?_ ?_
          · exact imp_congr_right (fresh_enum hd hc hchain hcompiles hf hs)
          · refine forall_congr' fun hclass => member_listed hd hc hchain hcompiles hf hs hclass ?_
            exact ih (isClass_member hcompiles hs hclass).2

end Fresh

section Documents

theorem readEnum_listed {type : Text} {asInteger : Bool} {v : Value} {x : Datum}
    (h : readEnum b type asInteger v = .ok x) :
    (∃ n, x = .enum n ∧ Listed b type n) ↔ ∀ m, v = .number (.int m) → Listed b type m.toNat := by
  rw [readEnum.eq_def] at h
  split at h
  next z =>
    obtain ⟨m, hm, h⟩ := bind_eq_ok.mp h
    obtain rfl := Except.ok.inj h
    have hm := orHalt_eq_ok.mp hm
    cases z with
    | double x => simp [Value.getUint64] at hm
    | int z =>
        rw [Value.getUint64] at hm
        split_ifs at hm
        obtain rfl := Option.some.inj hm
        simp
  next hnum =>
    cases v with
    | string t =>
        obtain ⟨e, he, h⟩ := bind_eq_ok.mp h
        obtain ⟨n, hn, h⟩ := bind_eq_ok.mp h
        obtain rfl := Except.ok.inj h
        have hmem := mem_of_unstringifyEnum (orHalt_eq_ok.mp hn)
        simp [listed_of_mem (orHalt_eq_ok.mp he) hmem]
    | null | bool _ | number _ | array _ | object _ => exact absurd h (by simp [readEnumName])

theorem enumBlock_listed {call : Text → Value → Fields → Run Fields} {g g' : Fields} {d : Value}
    (hm : s.2.mIsMap = false) (hp : PlainEnum b s.2)
    (h : deserializeItem b call s.1 d g s.2 = .ok g') :
    (d.findMember s.2.mMember = some none ∧ get g' s = get g s) ∨
      ∃ v, d.findMember s.2.mMember = some (some v) ∧
        ((∃ n, get g' s = .enum n ∧ Listed b s.2.mType n) ↔
          ∀ m, v = .number (.int m) → Listed b s.2.mType m.toNat) := by
  obtain ⟨⟨htype, henum, ha⟩, hptr, _⟩ := hp
  have hname : memberName s.2 = s.2.mMember := memberName_of_noMap hm
  have hknown : Known b s.2 := ⟨Or.inr (by rw [henum]; rfl), form_of_noPointer hptr⟩
  obtain ⟨required, _, hblock⟩ := deserializeItem_scalar hknown ha hm
  rw [hblock] at h
  obtain ⟨hfind, rfl⟩ | ⟨v, hfind, hv⟩ := withMember_cases h
  · exact Or.inl ⟨hfind, rfl⟩
  · obtain ⟨x, hx, hv⟩ := bind_eq_ok.mp hv
    obtain rfl := Except.ok.inj hv
    have hget : get (g.set (level s.1) s.2.mMember x) s = x := by
      rw [Slots.get, hname, Fields.set_same]
    rw [readMember, if_neg (by simp [htype]), if_pos henum] at hx
    exact Or.inr ⟨v, hfind, by rw [hget]; exact readEnum_listed hx⟩

/-- What the block of a class member leaves in it is listed exactly when its entry is, or, without
an entry, what construction put there. -/
theorem block_listed {call : Text → Value → Fields → Run Fields} {n : Nat} {g g' : Fields}
    {d : Value} (hcompiles : ChainCompiles b classes chain) (hs : s ∈ slots chain)
    (hclass : b.isClass s.2.mType = true)
    (hvec : s.2.mIsArray = true → get g s = .vec [])
    (ih : ∀ j w, readObject call b.fresh s.2.mType j = .ok w →
      (Everywhere b (HoldsListed b) n s.2.mType w ↔ DocumentListed b n s.2.mType j))
    (h : deserializeItem b call s.1 d g s.2 = .ok g') :
    (d.findMember s.2.mMember = some none ∧ get g' s = get g s) ∨
      ∃ v, d.findMember s.2.mMember = some (some v) ∧
        ((∀ x ∈ held (get g' s), Everywhere b (HoldsListed b) n s.2.mType x) ↔
          ∀ j ∈ parts s.2 v, DocumentListed b n s.2.mType j) := by
  obtain ⟨htype, henum⟩ := type_of_isClass hclass
  have hm := (isClass_member hcompiles hs hclass).1
  have hname : memberName s.2 = s.2.mMember := memberName_of_noMap hm
  cases ha : s.2.mIsArray with
  | false =>
      have hknown : Known b s.2 := ⟨Or.inr (by rw [henum]; rfl), hcompiles.forms s hs⟩
      obtain ⟨required, _, hblock⟩ := deserializeItem_scalar hknown ha hm
      rw [hblock] at h
      obtain ⟨hfind, rfl⟩ | ⟨v, hfind, hv⟩ := withMember_cases h
      · exact Or.inl ⟨hfind, rfl⟩
      · obtain ⟨x, hx, hv⟩ := bind_eq_ok.mp hv
        obtain rfl := Except.ok.inj hv
        have hget : get (g.set (level s.1) s.2.mMember x) s = x := by
          rw [Slots.get, hname, Fields.set_same]
        rw [readMember, if_neg (by simp [htype]), if_neg (by simp [henum])] at hx
        have hheld : held x = [x] := by
          obtain ⟨r, _, hx⟩ := bind_eq_ok.mp hx
          obtain ⟨q, _, hx⟩ := bind_eq_ok.mp hx
          rw [← Except.ok.inj hx]
          rfl
        have hparts : parts s.2 v = [v] := by cases v <;> simp [parts, ha]
        refine Or.inr ⟨v, hfind, ?_⟩
        rw [hget, hheld, hparts, List.forall_mem_singleton, List.forall_mem_singleton]
        exact ih v x hx
  | true =>
      have hstmt := (statements_object b.classEnum ((s.1.head?.map nonMapItems).getD []) htype henum
        hm).2
      rw [if_pos ha] at hstmt
      simp only [deserializeItem, hstmt, orHalt_some, ok_bind, runDeserialize] at h
      obtain ⟨hfind, rfl⟩ | ⟨v, hfind, hv⟩ := withMember_cases h
      · exact Or.inl ⟨hfind, rfl⟩
      · obtain ⟨js, hjs, hv⟩ := bind_eq_ok.mp hv
        have hnil : g (level s.1) s.2.mMember = .vec [] := by
          rw [← hname]
          exact hvec ha
        rw [foldlM_pushBack hnil] at hv
        obtain ⟨ds, hds, hv⟩ := bind_eq_ok.mp hv
        obtain rfl := Except.ok.inj hv
        have hget : get (g.set (level s.1) s.2.mMember (.vec ([] ++ ds))) s = .vec ds := by
          rw [Slots.get, hname, Fields.set_same, List.nil_append]
        have hparts : parts s.2 v = js := by
          cases v <;> simp [arrayItems] at hjs
          simp [parts, ha, hjs]
        refine Or.inr ⟨v, hfind, ?_⟩
        rw [hget, hparts, held]
        exact forall_mapM ih hds

/-- What is read is listed everywhere exactly when the document is. -/
theorem readObject_listed (hb : Compiles b classes) (hd : DefaultsListed b classes) {n k : Nat}
    {c : Text} (hc : classes c) {d : Value} {w : Datum}
    (h : readObject (deserializeFrom b k) b.fresh c d = .ok w) :
    Everywhere b (HoldsListed b) n c w ↔ DocumentListed b n c d := by
  induction n generalizing k c d w with
  | zero => exact Iff.rfl
  | succ n ih =>
      obtain ⟨chain, hchain, hcompiles⟩ := hb.chain c hc
      obtain ⟨r, hr, h⟩ := bind_eq_ok.mp h
      obtain ⟨g, hg, h⟩ := bind_eq_ok.mp h
      obtain rfl := Except.ok.inj h
      obtain ⟨m, hr⟩ := constructChain_of_fresh hchain (orHalt_eq_ok.mp hr)
      cases k with
      | zero => simp [deserializeFrom] at hg
      | succ k =>
          simp only [deserializeFrom, hchain] at hg
          have hdocument : DocumentListed b (n + 1) c d ↔ ∀ s ∈ slots chain,
              (PlainEnum b s.2 →
                (d.findMember s.2.mMember = some none → StartsListed b chain s) ∧
                ∀ m, d.findMember s.2.mMember = some (some (.number (.int m))) →
                  Listed b s.2.mType m.toNat) ∧
              (b.isClass s.2.mType = true →
                (d.findMember s.2.mMember = some none → Embedded chain s →
                  FreshListed b n s.2.mType) ∧
                ∀ v, d.findMember s.2.mMember = some (some v) → ∀ j ∈ parts s.2 v,
                  DocumentListed b n s.2.mType j) := by
            simp [DocumentListed, hchain]
          rw [everywhere_object hchain, hdocument]
          refine forall₂_congr fun s hs => and_congr ?_ ?_
          · apply forall_congr'
            intro hp
            have ha : s.2.mIsArray = false := hp.1.2.2
            have hm : s.2.mIsMap = false := by
              cases hm : s.2.mIsMap with
              | false => rfl
              | true => exact absurd (hcompiles.maps s hs hm) (by simp [ha])
            obtain ⟨f', g', hbefore, hrun, hafter⟩ :=
              deserializeChain_own hcompiles hs (by simp [ha]) hg
            rw [hafter]
            obtain ⟨hfind, hget⟩ | ⟨v, hfind, hlisted⟩ := enumBlock_listed hm hp hrun
            · rw [hget, hbefore, fresh_enum hd hc hchain hcompiles hr hs hp]
              simp [hfind]
            · rw [hlisted]
              simp [hfind]
          · apply forall_congr'
            intro hclass
            obtain ⟨hm, hmem⟩ := isClass_member hcompiles hs hclass
            obtain ⟨f', g', hbefore, hrun, hafter⟩ :=
              deserializeChain_own hcompiles hs (fun _ => enumType_of_isClass hclass) hg
            have hvec : s.2.mIsArray = true → get f' s = .vec [] := by
              intro ha
              have hnot := not_restated_of_array hr hcompiles.names hs ha
              have hinitial := (constructChain_spec hr hcompiles.names).2 s hs hnot
              rw [initialValue, if_pos ha, if_neg (by simp [hm])] at hinitial
              rw [hbefore, ← Option.some.inj hinitial]
            rw [hafter]
            obtain ⟨hfind, hget⟩ | ⟨v, hfind, hlisted⟩ :=
              block_listed hcompiles hs hclass hvec (fun j w => ih hmem) hrun
            · rw [hget, hbefore, member_listed hd hc hchain hcompiles hr hs hclass
                (construct_listed hb hd hmem)]
              simp [hfind]
            · rw [hlisted]
              simp [hfind]

end Documents

/-- The enum members of a new object hold listed values exactly when a default stands for each of
them or its enum lists zero, and those of an object that `deserialize` returns exactly when the
numbers of the document are listed and the same is true of the members it leaves out. -/
theorem enumMembers_listed {b : Build} {classes : Text → Prop} (hb : Compiles b classes)
    (hd : DefaultsListed b classes) {c : Text} (hc : classes c) :
    (∃ f, b.fresh c = some f ∧
      ((∀ n, Everywhere b (HoldsListed b) n c (.object f)) ↔ ∀ n, FreshListed b n c)) ∧
    ∀ k d w, deserialize b k c d = .ok w →
      ((∀ n, Everywhere b (HoldsListed b) n c w) ↔ ∀ n, DocumentListed b n c d) := by
  obtain ⟨f, hf⟩ := hb.fresh c hc
  refine ⟨⟨f, hf, forall_congr' fun n => construct_listed hb hd hc hf⟩, fun k d w hw => ?_⟩
  exact forall_congr' fun n => readObject_listed hb hd hc hw

section Examples

def gear : Object where
  mName := "Gear".toList
  mType := "Enum".toList
  mIsEnum := true
  mItems := [{ mMember := "low".toList, mDefaultValue := "1".toList }, { mMember := "high".toList }]

def gearItem : MemberVariable where
  mMember := "gear".toList
  mType := "Gear".toList
  mIsOptional := .optionalDeserialize
  mSerializeEnumAsInteger := true

def gearbox : Object where
  mName := "Gearbox".toList
  mType := "Class".toList
  mIsClass := true
  mItems := [gearItem]

def transmission : Build where
  dom := { mObjects := [gear, gearbox] }
  constant := fun _ _ => 1
  initial := fun _ => .enum 1

def isGearbox (c : Text) : Prop := c = "Gearbox".toList

theorem chain_gearbox : transmission.chain "Gearbox".toList = some [gearbox] := rfl

theorem slots_gearbox : slots [gearbox] = [([gearbox], gearItem)] := rfl

theorem transmission_compiles : Compiles transmission isGearbox := by
  refine ⟨?_, fun c hc => ?_⟩
  · rintro c rfl
    refine ⟨_, chain_gearbox, by decide, by decide, by decide, ?_⟩
    rw [slots_gearbox]
    simp only [List.forall_mem_cons]
    refine ⟨⟨.enum "gear".toList "Gear".toList true, by decide, ?_⟩, List.forall_mem_nil _⟩
    rw [StmtCompiles]
    decide
  · obtain rfl : c = "Gearbox".toList := hc
    exact ⟨_, rfl⟩

theorem listed_gear {n : Nat} : Listed transmission "Gear".toList n ↔ n = 1 ∨ n = 2 := by
  have he : transmission.enumType "Gear".toList = some gear := by decide
  have hkeys : keyList transmission.constant gear = [(1, "low".toList), (2, "high".toList)] := by
    decide
  rw [Listed, he]
  simp only [Option.some.injEq, exists_eq_left', stringifyEnum, hkeys, Option.isSome_map,
    List.find?_isSome, List.mem_reverse, List.mem_cons, List.not_mem_nil, or_false,
    exists_eq_or_imp, exists_eq_left, beq_iff_eq]
  omega

theorem transmission_defaults : DefaultsListed transmission isGearbox := by
  refine ⟨fun i henum _ => ⟨1, rfl, ?_⟩, ?_, ?_⟩
  · obtain ⟨o, ho, hkind⟩ := Option.map_eq_some_iff.mp henum
    have hname : o.mName = i.mType := by simpa using List.find?_some ho
    have hmem : o ∈ [gearbox, gear] := List.mem_of_find?_eq_some ho
    rw [List.mem_cons, List.mem_singleton] at hmem
    obtain rfl | rfl := hmem
    · exact absurd hkind (by decide)
    · rw [← hname]
      exact listed_gear.mpr (Or.inl rfl)
  · rintro c chain rfl hchain s _ i hlast
    obtain rfl := Option.some.inj (hchain.symm.trans chain_gearbox)
    have hrows : restatedItems gearbox = [] := by decide
    simp [lastAssigned, hrows] at hlast
  · intro c chain hvec hchain
    have hc : c = "Vec3".toList ∨ c = "Quat".toList := by simpa [isVector] using hvec
    obtain rfl | rfl := hc
    · have hnone : transmission.chain "Vec3".toList = none := by decide
      exact absurd (hnone.symm.trans hchain) (by simp)
    · have hnone : transmission.chain "Quat".toList = none := by decide
      exact absurd (hnone.symm.trans hchain) (by simp)

theorem enumMembers_listed_gearbox :
    (∃ f, transmission.fresh "Gearbox".toList = some f ∧
      ((∀ n, Everywhere transmission (HoldsListed transmission) n "Gearbox".toList (.object f)) ↔
        ∀ n, FreshListed transmission n "Gearbox".toList)) ∧
    ∀ k d w, deserialize transmission k "Gearbox".toList d = .ok w →
      ((∀ n, Everywhere transmission (HoldsListed transmission) n "Gearbox".toList w) ↔
        ∀ n, DocumentListed transmission n "Gearbox".toList d) :=
  enumMembers_listed transmission_compiles transmission_defaults rfl

/-- A new gearbox is in a gear that its enum does not list, an empty document leaves it there,
and a document with any number takes it into another such gear. -/
theorem deserialize_gear_unlisted :
    (Compiles transmission isGearbox ∧ DefaultsListed transmission isGearbox ∧
        PlainEnum transmission gearItem) ∧
      (∃ f g h, transmission.fresh "Gearbox".toList = some f ∧
        deserialize transmission 1 "Gearbox".toList (.object []) = .ok (.object g) ∧
        deserialize transmission 1 "Gearbox".toList
          (.object [("gear".toList, .number (.int 7))]) = .ok (.object h) ∧
        get f ([gearbox], gearItem) = .enum 0 ∧ get g ([gearbox], gearItem) = .enum 0 ∧
        get h ([gearbox], gearItem) = .enum 7) ∧
      ¬ Listed transmission "Gear".toList 0 ∧ ¬ Listed transmission "Gear".toList 7 :=
  ⟨⟨transmission_compiles, transmission_defaults, ⟨rfl, by decide, rfl⟩, rfl, by decide⟩,
    ⟨_, _, _, rfl, rfl, rfl, rfl, rfl, rfl⟩, mt listed_gear.mp (by decide),
    mt listed_gear.mp (by decide)⟩

end Examples

end SchemaCodeGen.EnumMembers
