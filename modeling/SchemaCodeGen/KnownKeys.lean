import SchemaCodeGen.Blocks

namespace SchemaCodeGen.KnownKeys

open CString Json Schema Emit Fallible Generated Slots Entries RoundTrip Conformance

def isKnown (chain : List Object) (name : Text) : Bool :=
  (slots chain).any fun s => s.2.mMember = name

variable (b : Build)

def ValuesAlike (alike : Text → Value → Value → Prop) (i : MemberVariable) (v v' : Value) : Prop :=
  v = v' ∨ b.isClass i.mType = true ∧
    if i.mIsArray then ∃ l l', v = .array l ∧ v' = .array l' ∧ List.Forall₂ (alike i.mType) l l'
    else alike i.mType v v'

/-- The documents differ, to a depth of `n` classes, only in the order of members and in members
that the class decoded there does not have. -/
def Alike : Nat → Text → Value → Value → Prop
  | 0, _, v, v' => v = v'
  | n + 1, c, v, v' => v = v' ∨ ∃ ms ms', v = .object ms ∧ v' = .object ms' ∧
      (ms.map Prod.fst).Nodup ∧ (ms'.map Prod.fst).Nodup ∧
      ∀ chain, b.chain c = some chain → Match (isKnown chain)
        (fun name v v' => ∀ s ∈ slots chain, s.2.mMember = name →
          ValuesAlike b (Alike n) s.2 v v') ms ms'

/-- No class has a map, nor has any class of its members. -/
structure MapFree (classes : Text → Prop) : Prop where
  noMap : ∀ c chain, classes c → b.chain c = some chain → ∀ s ∈ slots chain, s.2.mIsMap = false
  closed : ∀ c chain, classes c → b.chain c = some chain → ∀ s ∈ slots chain,
    b.isClass s.2.mType = true → classes s.2.mType

variable {b} {classes : Text → Prop} {call : Text → Value → Fields → Run Fields}
  {fresh : Text → Option Fields} {chain : List Object} {d d' : Value} {f : Fields}

theorem withMember_congr {name : Text} {required : Bool} {found : Value → Run Fields}
    (h : d.findMember name = d'.findMember name) :
    withMember d name required f found = withMember d' name required f found := by
  rw [withMember, withMember, h]

theorem deserializeItem_congr {i : MemberVariable} (hm : i.mIsMap = false)
    (h : d.findMember i.mMember = d'.findMember i.mMember) :
    deserializeItem b call chain d f i = deserializeItem b call chain d' f i := by
  rw [deserializeItem, deserializeItem]
  cases hstmt : deserializeStmt b.classEnum ((chain.head?.map nonMapItems).getD []) i with
  | none => rfl
  | some stmt =>
      have hfor := emittedFor (by simp [hm]) hstmt
      rw [orHalt_some, ok_bind, ok_bind]
      cases stmt with
      | numericMap m _ | stringMap m _ _ | enumListMap m _ => exact absurd hfor.1 (by simp [hm])
      | todo => rfl
      | integer m type required | checked m type required | enum m type asInteger
      | object m type required | objectArray m type required =>
          obtain rfl := hfor.2.2
          exact withMember_congr h
      | integerArray m type required =>
          obtain rfl := hfor.2.2
          rw [runDeserialize, runDeserialize, withMember_congr h]
      | checkedArray m type required =>
          obtain rfl := hfor.2.2
          rw [runDeserialize, runDeserialize, withMember_congr h]
      | enumArray m type required =>
          obtain rfl := hfor.2.2
          rw [runDeserialize, runDeserialize]
          split
          · rw [withMember_congr h]
          · rfl

theorem foldlM_congr {α : Type} {step step' : Fields → α → Run Fields} {l l' : List α}
    (h : List.Forall₂ (fun x y => ∀ f, step f x = step' f y) l l') :
    l.foldlM step f = l'.foldlM step' f := by
  induction h generalizing f with
  | nil => rfl
  | cons hv _ ih =>
      rw [List.foldlM_cons, List.foldlM_cons, hv f]
      congr 1
      funext f'
      exact ih

theorem objectBlock_congr {i : MemberVariable} {alike : Text → Value → Value → Prop} {v v' : Value}
    (hm : i.mIsMap = false) (hclass : b.isClass i.mType = true)
    (hcall : ∀ v v', alike i.mType v v' → ∀ f, call i.mType v f = call i.mType v' f)
    (hv : d.findMember i.mMember = some (some v)) (hv' : d'.findMember i.mMember = some (some v'))
    (h : if i.mIsArray then ∃ l l', v = .array l ∧ v' = .array l' ∧ List.Forall₂ (alike i.mType) l l'
      else alike i.mType v v') :
    deserializeItem b call chain d f i = deserializeItem b call chain d' f i := by
  obtain ⟨htype, henum⟩ : getStandardType i.mType = .none ∧ b.classEnum i.mType = some false := by
    simpa [Build.isClass] using hclass
  have hread : ∀ v v', alike i.mType v v' →
      readObject call b.fresh i.mType v = readObject call b.fresh i.mType v' := by
    intro v v' h
    simp only [readObject, hcall v v' h]
  have hstmt := (statements_object b.classEnum ((chain.head?.map nonMapItems).getD []) htype henum
    hm).2
  rw [deserializeItem, deserializeItem, hstmt]
  split_ifs at h ⊢ with ha
  · obtain ⟨l, l', rfl, rfl, hl⟩ := h
    simp only [orHalt_some, ok_bind, runDeserialize, withMember, hv, hv', arrayItems]
    exact foldlM_congr (hl.imp fun v v' h f => by rw [hread v v' h])
  · simp only [orHalt_some, ok_bind, runDeserialize, withMember, hv, hv', hread v v' h]

/-- Documents that differ only in the order of members and in unknown members are decoded with
the same outcome and into the same object. -/
theorem deserializeFrom_alike (hmaps : MapFree b classes) {n k : Nat} {c : Text} (hc : classes c)
    (h : Alike b n c d d') : deserializeFrom b k c d f = deserializeFrom b k c d' f := by
  induction n generalizing k c d d' f with
  | zero =>
      obtain rfl := h
      rfl
  | succ n ih =>
      obtain rfl | ⟨ms, ms', rfl, rfl, hnodup, hnodup', hmatch⟩ := h
      · rfl
      cases k with
      | zero => rfl
      | succ k =>
          rw [deserializeFrom, deserializeFrom]
          cases hchain : b.chain c with
          | none => rfl
          | some chain =>
              dsimp only
              rw [deserializeChain_eq_slots, deserializeChain_eq_slots]
              have hblock : ∀ s ∈ slots chain, ∀ f,
                  deserializeItem b (deserializeFrom b k) s.1 (.object ms) f s.2 =
                    deserializeItem b (deserializeFrom b k) s.1 (.object ms') f s.2 := by
                intro s hs f
                have hm := hmaps.noMap c chain hc hchain s hs
                have hknown : isKnown chain s.2.mMember = true :=
                  List.any_eq_true.mpr ⟨s, hs, by simp⟩
                obtain ⟨hl, hl'⟩ | ⟨v, v', hl, hl', hr⟩ :=
                  lookup_of_match hnodup hnodup' (hmatch chain hchain) hknown
                · exact deserializeItem_congr hm
                    (by simp only [Value.findMember, Value.memberList, Option.map_some, hl, hl'])
                · obtain rfl | ⟨hclass, hr⟩ := hr s hs rfl
                  · exact deserializeItem_congr hm
                      (by simp only [Value.findMember, Value.memberList, Option.map_some, hl, hl'])
                  · have hv : (Value.object ms).findMember s.2.mMember = some (some v) := by
                      simp only [Value.findMember, Value.memberList, Option.map_some, hl]
                    have hv' : (Value.object ms').findMember s.2.mMember = some (some v') := by
                      simp only [Value.findMember, Value.memberList, Option.map_some, hl']
                    refine objectBlock_congr hm hclass (fun v v' h f => ?_) hv hv' hr
                    exact ih (hmaps.closed c chain hc hchain s hs hclass) h
              exact foldlM_congr (List.forall₂_same.mpr hblock)

section Examples

def levelItem : MemberVariable where
  mMember := "level".toList
  mType := "u32".toList

def dial : Object where
  mName := "Dial".toList
  mType := "Class".toList
  mIsClass := true
  mItems := [levelItem]

def dialItem : MemberVariable where
  mMember := "dial".toList
  mType := "Dial".toList

def console : Object where
  mName := "Console".toList
  mType := "Class".toList
  mIsClass := true
  mItems := [dialItem]

def controls : Build where
  dom := { mObjects := [dial, console] }
  constant := fun _ _ => 0
  initial := fun _ => .empty

def isControl (c : Text) : Prop := c = "Dial".toList ∨ c = "Console".toList

theorem chain_dial : controls.chain "Dial".toList = some [dial] := rfl

theorem chain_console : controls.chain "Console".toList = some [console] := rfl

theorem slots_dial : slots [dial] = [([dial], levelItem)] := rfl

theorem slots_console : slots [console] = [([console], dialItem)] := rfl

theorem controls_mapFree : MapFree controls isControl := by
  refine ⟨?_, ?_⟩
  · rintro c chain (rfl | rfl) hchain
    · obtain rfl := Option.some.inj (chain_dial.symm.trans hchain)
      decide
    · obtain rfl := Option.some.inj (chain_console.symm.trans hchain)
      decide
  · rintro c chain (rfl | rfl) hchain s hs hclass
    · obtain rfl := Option.some.inj (chain_dial.symm.trans hchain)
      rw [slots_dial, List.mem_singleton] at hs
      subst hs
      exact absurd hclass (by decide)
    · obtain rfl := Option.some.inj (chain_console.symm.trans hchain)
      rw [slots_console, List.mem_singleton] at hs
      subst hs
      exact Or.inl rfl

def three : Members := [("level".toList, .number (.int 3))]

def longThree : Members := ("unit".toList, .null) :: three

theorem three_alike : Alike controls 1 "Dial".toList (.object three) (.object longThree) := by
  refine Or.inr ⟨_, _, rfl, rfl, by decide, by decide, fun chain hchain => ?_⟩
  obtain rfl := Option.some.inj (chain_dial.symm.trans hchain)
  exact ⟨three, .refl _, .cons ⟨rfl, fun _ _ _ => Or.inl rfl⟩ .nil⟩

def consoleOf (ms : Members) : Members := [("dial".toList, .object ms)]

theorem console_alike : Alike controls 2 "Console".toList (.object (consoleOf three))
    (.object (("name".toList, .null) :: consoleOf longThree)) := by
  refine Or.inr ⟨_, _, rfl, rfl, by decide, by decide, fun chain hchain => ?_⟩
  obtain rfl := Option.some.inj (chain_console.symm.trans hchain)
  refine ⟨consoleOf three, .refl _, .cons ⟨rfl, fun s hs _ => ?_⟩ .nil⟩
  rw [slots_console, List.mem_singleton] at hs
  subst hs
  exact Or.inr ⟨by decide, three_alike⟩

theorem deserializeFrom_console :
    deserializeFrom controls 3 "Console".toList (.object (consoleOf three)) (fun _ _ => .empty) =
      deserializeFrom controls 3 "Console".toList
        (.object (("name".toList, .null) :: consoleOf longThree)) fun _ _ => .empty :=
  deserializeFrom_alike controls_mapFree (Or.inr rfl) console_alike

end Examples

end SchemaCodeGen.KnownKeys
