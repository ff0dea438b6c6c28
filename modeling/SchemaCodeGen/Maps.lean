import SchemaCodeGen.MapBlocks

namespace SchemaCodeGen.Maps

open CString Floats Json Schema Emit EnumTable Fallible Generated Slots Fresh Values RoundTrip Judge
  Readers Conformance MapBlocks

/-- A class of the chain whose only map is `s`, beside single members. -/
structure MapClass (b : Build) (chain : List Object) (s : Slot) : Prop where
  mem : s ∈ slots chain
  item : MapItem b s.2
  others : ∀ t ∈ slots chain, t ≠ s → ScalarItem b t.2
  names : ∀ o ∈ chain, ∀ i ∈ o.mItems, NulFree i.mMember

/-- A value of the class with the entries `l` in its map, none under the name of a member. -/
structure MapObject (b : Build) (k : Nat) (chain : List Object) (s : Slot) (f : Fields)
    (l : List (Text × Datum)) : Prop where
  map : Slots.get f s = .map l
  keys : (l.map Prod.fst).Nodup
  unnamed : ∀ e ∈ l, ∀ o ∈ chain, ∀ i ∈ o.mItems, e.1 ≠ i.mMember
  values : ∀ e ∈ l, MapValue b s.2 e.2
  others : ∀ t ∈ slots chain, t ≠ s → ScalarValue b k t.2 (Slots.get f t)

/-- What is written is read back with the same map. -/
def MapRestored (b : Build) (k : Nat) (c : Text) (s : Slot) (f : Fields) (l : List (Text × Datum)) :
    Prop :=
  ∃ doc w g, serializeTo b (k + 1) c (.object f) = .ok doc ∧
    deserialize b ((Value.object doc).depth + 1) c (.object doc) = .ok (.object w) ∧
    Slots.get w s = .map g ∧ ∀ key, g.lookup key = l.lookup key

def named (b : Build) (k : Nat) (chain : List Object) (f : Fields) : Members :=
  (slots chain).flatMap fun t => if t.2.mIsMap then [] else entry b k t.2 (Slots.get f t)

/-- The loop of the map passes over the entry of a single member. -/
def Ignored (s : Slot) (e : Text × Value) : Prop :=
  match getStandardType s.2.mType, e.2 with
  | .none, _ => False
  | .stringType, .string _ => Skipped s e.1
  | .stringType, _ => True
  | _, .string _ | _, .number _ => False
  | _, _ => True

/-- The single members are passed over by the loop of the map and accepted by their own blocks,
and nothing in the map is cut at a NUL, negative, or read as another enum. -/
structure Unmixed (b : Build) (k : Nat) (chain : List Object) (s : Slot) (f : Fields)
    (l : List (Text × Datum)) : Prop where
  optional : ¬ (getStandardType s.2.mType = .stringType ∧ s.2.mIsOptional = .optional)
  ignored : ∀ e ∈ named b k chain f, Ignored s e
  accepted : ∀ t ∈ slots chain, t ≠ s → ∀ j, (named b k chain f).lookup t.2.mMember = some j →
    scalar b (verdict b) t.2 j = .accept
  keys : ∀ e ∈ l, NulFree e.1
  values : ∀ e ∈ l, Intact b s.2 e.2

variable {b : Build} {classes : Text → Prop} {k : Nat} {chain : List Object} {s t : Slot} {f : Fields}
  {l : List (Text × Datum)}

theorem take_eq_none {e : Text × Value} (hi : MapItem b s.2) (he : NulFree e.1) :
    take b s e = .ok none ↔ Ignored s e := by
  obtain ⟨k, v⟩ := e
  have hk : cstr k = k := cstr_of_nulFree he
  obtain h | h | h | h | ⟨h, _⟩ := hi.type
  case inr.inr.inr.inl =>
    cases v with
    | string t =>
        simp only [take, Ignored, h, hk]
        by_cases hskip : Skipped s k <;> simp [hskip]
    | null | bool _ | number _ | array _ | object _ => simp [take, Ignored, h]
  case inr.inr.inr.inr =>
    simp only [take, Ignored, h]
    cases arrayItems v with
    | error _ => simp
    | ok js =>
        simp only [ok_bind]
        cases js.mapM (readEnumName b s.2.mType) <;> simp
  all_goals
    cases v with
    | number n =>
        simp only [take, Ignored, h]
        cases (Value.number n).getUint64 <;> simp
    | null | bool _ | string _ | array _ | object _ => simp [take, Ignored, h]

section Document

def wire (b : Build) (i : MemberVariable) (x : Datum) : Value :=
  ((write b i x).toOption).getD .null

def written (b : Build) (k : Nat) (s : Slot) (f : Fields) (l : List (Text × Datum)) (t : Slot) :
    Members :=
  if t.2.mIsMap then l.map fun e => (cstr e.1, wire b s.2 e.2) else entry b k t.2 (Slots.get f t)

def document (b : Build) (k : Nat) (chain : List Object) (s : Slot) (f : Fields)
    (l : List (Text × Datum)) : Members :=
  (slots chain).flatMap (written b k s f l)

theorem write_eq_wire (hi : MapItem b s.2) {x : Datum} (hx : MapValue b s.2 x) :
    write b s.2 x = .ok (wire b s.2 x) := by
  obtain ⟨j, hj, _⟩ := write_take hi hx
  simp [wire, hj, Except.toOption]

theorem serializeTo_map (hclass : MapClass b chain s) (hobj : MapObject b k chain s f l) {c : Text}
    (hchain : b.chain c = some chain) {doc : Members} :
    serializeTo b (k + 1) c (.object f) = .ok doc ↔
      ¬ (getStandardType s.2.mType = .stringType ∧ s.2.mIsOptional = .optional) ∧
        doc = document b k chain s f l := by
  have hmapName : memberName s.2 = '_' :: s.2.mMember := memberName_of_map hclass.item.map
  have hown : f (level s.1) ('_' :: s.2.mMember) = .map l := by
    rw [← hmapName]
    exact hobj.map
  have hser := serialize_map hclass.item (serializeTo b k) hown
  have hentries : l.mapM (fun e => write b s.2 e.2 >>= fun j => .ok (cstr e.1, j)) =
      .ok (l.map fun e => (cstr e.1, wire b s.2 e.2)) :=
    mapM_ok fun e he => by rw [write_eq_wire hclass.item (hobj.values e he), ok_bind]
  rw [hentries] at hser
  by_cases hopt : getStandardType s.2.mType = .stringType ∧ s.2.mIsOptional = .optional
  · rw [if_pos hopt] at hser
    simp only [hopt, and_self, not_true_eq_false, false_and, iff_false]
    intro hdoc
    obtain ⟨entries, hentries, _⟩ := (serializeTo_eq_ok hchain).mp hdoc
    exact absurd (hser.symm.trans (hentries s hclass.mem)) (by simp)
  · rw [if_neg hopt] at hser
    have hslots : (slots chain).mapM
        (fun t => serializeItem b (serializeTo b k) (f (level t.1)) t.2) =
          .ok ((slots chain).map (written b k s f l)) := by
      apply mapM_ok
      intro t ht
      by_cases hts : t = s
      · subst hts
        rw [hser, written, if_pos hclass.item.map]
      · have hi := hclass.others t ht hts
        rw [written, if_neg (by simp [hi.noMap])]
        apply serialize_scalar hi (hobj.others t ht hts)
        have hname : memberName t.2 = t.2.mMember := memberName_of_noMap hi.noMap
        rw [Slots.get, hname]
    rw [serializeTo_eq_slots hchain, hslots, ok_bind, document, List.flatMap]
    simp only [hopt, not_false_eq_true, true_and, Except.ok.injEq]
    exact eq_comm

theorem mem_document (hclass : MapClass b chain s) {e : Text × Value} :
    e ∈ document b k chain s f l ↔
      e ∈ named b k chain f ∨ ∃ x ∈ l, e = (cstr x.1, wire b s.2 x.2) := by
  simp only [document, named, List.mem_flatMap]
  constructor
  · rintro ⟨t, ht, he⟩
    by_cases hm : t.2.mIsMap = true
    · rw [written, if_pos hm] at he
      obtain ⟨x, hx, rfl⟩ := List.mem_map.mp he
      exact Or.inr ⟨x, hx, rfl⟩
    · rw [written, if_neg hm] at he
      exact Or.inl ⟨t, ht, by rwa [if_neg hm]⟩
  · rintro (⟨t, ht, he⟩ | ⟨x, hx, rfl⟩)
    · by_cases hm : t.2.mIsMap = true
      · simp [hm] at he
      · rw [if_neg hm] at he
        exact ⟨t, ht, by rwa [written, if_neg hm]⟩
    · refine ⟨s, hclass.mem, ?_⟩
      rw [written, if_pos hclass.item.map]
      exact List.mem_map_of_mem hx

theorem mem_named {e : Text × Value} (he : e ∈ named b k chain f) :
    ∃ t ∈ slots chain, t.2.mIsMap = false ∧ e.1 = t.2.mMember := by
  obtain ⟨t, ht, he⟩ := List.mem_flatMap.mp he
  split_ifs at he with hm
  · simp at he
  · obtain ⟨j, _, rfl⟩ := by simpa [entry] using he
    exact ⟨t, ht, by simpa using hm, rfl⟩

theorem lookup_flatMap_congr {α β γ : Type} [BEq β] {g h : α → List (β × γ)} {l : List α} {k : β}
    (hl : ∀ x ∈ l, (g x).lookup k = (h x).lookup k) :
    (l.flatMap g).lookup k = (l.flatMap h).lookup k := by
  induction l with
  | nil => rfl
  | cons x l ih =>
      rw [List.forall_mem_cons] at hl
      rw [List.flatMap_cons, List.flatMap_cons, List.lookup_append, List.lookup_append, hl.1, ih hl.2]

theorem lookup_document (f : Fields) {name : Text} (hkeys : ∀ e ∈ l, cstr e.1 ≠ name) :
    (document b k chain s f l).lookup name = (named b k chain f).lookup name := by
  apply lookup_flatMap_congr
  intro t _
  rw [written]
  split_ifs
  · rw [List.lookup_nil, List.lookup_eq_none_iff]
    intro e he
    obtain ⟨x, hx, rfl⟩ := List.mem_map.mp he
    exact bne_iff_ne.mpr (hkeys x hx).symm
  · rfl

end Document

section Run

def Calls (b : Build) (classes : Text → Prop) (doc : Members)
    (call : Text → Value → Fields → Run Fields) (judge : Text → Value → Verdict) : Prop :=
  ∀ c v, classes c → v.depth < (Value.object doc).depth →
    Meets Any (readObject call b.fresh c v) (judge c v)

variable {doc : Members} {call : Text → Value → Fields → Run Fields}
  {judge : Text → Value → Verdict}

theorem foldlM_others (hchain : ChainCompiles b classes chain) (hcall : Calls b classes doc call judge)
    (hclass : MapClass b chain s) {ts : List Slot} (hts : ∀ t ∈ ts, t ∈ slots chain ∧ t ≠ s)
    (hf : Shaped chain f) :
    ((∀ t ∈ ts, slot b judge (.object doc) t = .accept) →
      ∃ g, ts.foldlM (fun f t => deserializeItem b call t.1 (.object doc) f t.2) f = .ok g) ∧
    ∀ g, ts.foldlM (fun f t => deserializeItem b call t.1 (.object doc) f t.2) f = .ok g →
      (∀ t ∈ ts, slot b judge (.object doc) t = .accept) ∧ Shaped chain g ∧
        Slots.get g s = Slots.get f s := by
  induction ts generalizing f with
  | nil =>
      refine ⟨fun _ => ⟨f, rfl⟩, fun g hg => ?_⟩
      obtain rfl := Except.ok.inj hg
      exact ⟨by simp, hf, rfl⟩
  | cons t ts ih =>
      rw [List.forall_mem_cons] at hts
      obtain ⟨⟨ht, hne⟩, hts⟩ := hts
      have hmeets := block_meets hchain ht hf hcall
      have hkey : key s ≠ key t := fun h =>
        hne (eq_of_key_eq (nodup_keys hchain.names) hclass.mem ht h).symm
      simp only [List.foldlM_cons]
      constructor
      · intro h
        rw [List.forall_mem_cons] at h
        rw [h.1] at hmeets
        obtain ⟨f', hf', hshaped⟩ := hmeets
        obtain ⟨g, hg⟩ := (ih hts hshaped).1 h.2
        exact ⟨g, by rw [hf', ok_bind, hg]⟩
      · intro g hg
        obtain ⟨f', hf', hg⟩ := bind_eq_ok.mp hg
        obtain ⟨haccept, hshaped⟩ := accept_of_meets hmeets hf'
        obtain ⟨haccepts, hshaped', hget⟩ := (ih hts hshaped).2 g hg
        refine ⟨List.forall_mem_cons.mpr ⟨haccept, haccepts⟩, hshaped', ?_⟩
        rw [hget, scalar_frame (hclass.others t ht hne) hf' hkey]

/-- A run over a document succeeds when every single member is accepted and the loop takes
every entry. It leaves in the map what the loop took. -/
theorem run_iff (hchain : ChainCompiles b classes chain) (hcall : Calls b classes doc call judge)
    (hclass : MapClass b chain s)
    (hf : Shaped chain f) (hempty : Slots.get f s = .map []) :
    ((∀ t ∈ slots chain, t ≠ s → slot b judge (.object doc) t = .accept) →
      (∀ e ∈ doc, ∃ r, take b s e = .ok r) →
      ∃ g, (slots chain).foldlM (fun f t => deserializeItem b call t.1 (.object doc) f t.2) f =
        .ok g) ∧
    ∀ g, (slots chain).foldlM (fun f t => deserializeItem b call t.1 (.object doc) f t.2) f = .ok g →
      (∀ t ∈ slots chain, t ≠ s → slot b judge (.object doc) t = .accept) ∧
      (∀ e ∈ doc, ∃ r, take b s e = .ok r) ∧
      ∃ es, Slots.get g s = .map (Entries.assignAll [] es) ∧
        ∀ p, p ∈ es ↔ ∃ e ∈ doc, take b s e = .ok (some p.2) ∧ p.1 = cstr e.1 := by
  obtain ⟨before, after, hsplit⟩ := List.append_of_mem hclass.mem
  have hnodup : (slots chain).Nodup := List.Nodup.of_map _ (nodup_keys hchain.names)
  rw [hsplit, List.nodup_append, List.nodup_cons] at hnodup
  have hbefore : ∀ t ∈ before, t ∈ slots chain ∧ t ≠ s := fun t ht =>
    ⟨by simp [hsplit, ht], hnodup.2.2 t ht s List.mem_cons_self⟩
  have hafter : ∀ t ∈ after, t ∈ slots chain ∧ t ≠ s := fun t ht =>
    ⟨by simp [hsplit, ht], fun h => hnodup.2.1.1 (h ▸ ht)⟩
  obtain ⟨stmt, hstmt, _⟩ := hchain.blocks s hclass.mem
  have hblock : ∀ f, deserializeItem b call s.1 (.object doc) f s.2 = doc.foldlM (put b s) f :=
    fun f => map_block hclass.item hstmt
  constructor
  · intro haccept htake
    obtain ⟨f₁, hf₁⟩ := (foldlM_others hchain hcall hclass hbefore hf).1
      fun t ht => haccept t (hbefore t ht).1 (hbefore t ht).2
    obtain ⟨_, hshaped₁, hget₁⟩ := (foldlM_others hchain hcall hclass hbefore hf).2 f₁ hf₁
    obtain ⟨f₂, es, hf₂, _, _⟩ := foldlM_put hclass.item.map (hget₁.trans hempty) htake
    obtain ⟨_, hshaped₂⟩ := accept_of_meets (block_meets hchain
      hclass.mem hshaped₁ hcall) ((hblock f₁).trans hf₂)
    obtain ⟨g, hg⟩ := (foldlM_others hchain hcall hclass hafter hshaped₂).1
      fun t ht => haccept t (hafter t ht).1 (hafter t ht).2
    refine ⟨g, ?_⟩
    rw [hsplit, List.foldlM_append, hf₁, ok_bind, List.foldlM_cons, hblock, hf₂, ok_bind, hg]
  · intro g hg
    rw [hsplit, List.foldlM_append] at hg
    obtain ⟨f₁, hf₁, hg⟩ := bind_eq_ok.mp hg
    rw [List.foldlM_cons] at hg
    obtain ⟨f₂, hf₂, hg⟩ := bind_eq_ok.mp hg
    obtain ⟨haccept₁, hshaped₁, hget₁⟩ :=
      (foldlM_others hchain hcall hclass hbefore hf).2 f₁ hf₁
    obtain ⟨_, hshaped₂⟩ := accept_of_meets (block_meets hchain
      hclass.mem hshaped₁ hcall) hf₂
    obtain ⟨haccept₂, _, hget₂⟩ :=
      (foldlM_others hchain hcall hclass hafter hshaped₂).2 g hg
    rw [hblock] at hf₂
    have htake := foldlM_put_take hf₂
    obtain ⟨f₂', es, hf₂', hget, hes⟩ := foldlM_put hclass.item.map (hget₁.trans hempty) htake
    obtain rfl := Except.ok.inj (hf₂.symm.trans hf₂')
    refine ⟨fun t ht hne => ?_, htake, es, hget₂.trans hget, hes⟩
    rw [hsplit, List.mem_append, List.mem_cons] at ht
    obtain ht | ht | ht := ht
    · exact haccept₁ t ht
    · exact absurd ht hne
    · exact haccept₂ t ht

end Run

section Theorem

theorem not_skipped (hclass : MapClass b chain s) {k : Text}
    (hk : ∀ o ∈ chain, ∀ i ∈ o.mItems, k ≠ i.mMember) : ¬ Skipped s k := by
  rintro ⟨_, hmember⟩
  obtain ⟨o, ho, hmem⟩ := List.any_eq_true.mp hmember
  have hmem : k ∈ memberNames o := by simpa using hmem
  obtain ⟨i, hi, rfl⟩ := List.mem_map.mp hmem
  exact hk o ((suffix_of_mem hclass.mem).subset ho) i (List.mem_of_mem_filter hi) rfl

theorem slot_item_mem (ht : t ∈ slots chain) : ∃ o ∈ chain, t.2 ∈ o.mItems := by
  induction chain with
  | nil => simp [slots] at ht
  | cons o bases ih =>
      rw [slots, List.mem_append] at ht
      obtain ht | ht := ht
      · obtain ⟨o', ho', hi⟩ := ih ht
        exact ⟨o', List.mem_cons_of_mem _ ho', hi⟩
      · obtain ⟨i, hi, rfl⟩ := List.mem_map.mp ht
        exact ⟨o, List.mem_cons_self, List.mem_of_mem_filter hi⟩

theorem lookup_named_none (hclass : MapClass b chain s) (hobj : MapObject b k chain s f l)
    (ht : t ∈ slots chain) (hne : t ≠ s) (h : (named b k chain f).lookup t.2.mMember = none) :
    t.2.mIsOptional = .optional := by
  apply image_none (hobj.others t ht hne)
  cases hj : image b k t.2 (Slots.get f t) with
  | none => rfl
  | some j =>
      have hmem : (t.2.mMember, j) ∈ named b k chain f := by
        refine List.mem_flatMap.mpr ⟨t, ht, ?_⟩
        rw [if_neg (by simp [(hclass.others t ht hne).noMap]), entry, hj]
        exact List.mem_singleton.mpr rfl
      rw [List.lookup_eq_none_iff] at h
      exact absurd rfl (bne_iff_ne.mp (h _ hmem))

theorem take_wire (hi : MapItem b s.2) {x : Datum} (hx : MapValue b s.2 x) {k : Text}
    (hk : ¬ Skipped s (cstr k)) : take b s (k, wire b s.2 x) = .ok (some x) ↔ Intact b s.2 x := by
  obtain ⟨j, hj, htake⟩ := write_take hi hx
  obtain rfl := Except.ok.inj (hj.symm.trans (write_eq_wire hi hx))
  exact htake k hk

theorem fresh_map (hchain : ChainCompiles b classes chain) (hclass : MapClass b chain s)
    {call : Text → Option Fields} (hf : constructChain b call chain = some f) :
    Slots.get f s = .map [] := by
  have hnot := not_restated_of_array hf hchain.names hclass.mem hclass.item.array
  have h := (constructChain_spec hf hchain.names).2 s hclass.mem hnot
  rw [initialValue, if_pos hclass.item.array, if_pos hclass.item.map] at h
  exact (Option.some.inj h).symm

theorem nulFree_named (hclass : MapClass b chain s) {e : Text × Value} (he : e ∈ named b k chain f) :
    NulFree e.1 := by
  obtain ⟨t, ht, _, hname⟩ := mem_named he
  obtain ⟨o, ho, hi⟩ := slot_item_mem ht
  rw [hname]
  exact hclass.names o ho _ hi

theorem cstr_ne_name (hobj : MapObject b k chain s f l) (hnul : ∀ e ∈ l, NulFree e.1)
    (ht : t ∈ slots chain) : ∀ e ∈ l, cstr e.1 ≠ t.2.mMember := by
  intro e he
  obtain ⟨o, ho, hi⟩ := slot_item_mem ht
  rw [cstr_of_nulFree (hnul e he)]
  exact hobj.unnamed e he o ho _ hi

theorem not_skipped_key (hclass : MapClass b chain s) (hobj : MapObject b k chain s f l)
    (hnul : ∀ e ∈ l, NulFree e.1) : ∀ e ∈ l, ¬ Skipped s (cstr (cstr e.1)) := by
  intro e he
  rw [cstr_of_nulFree (hnul e he), cstr_of_nulFree (hnul e he)]
  exact not_skipped hclass (hobj.unnamed e he)

def Taken (b : Build) (k : Nat) (chain : List Object) (s : Slot) (f : Fields)
    (l es : List (Text × Datum)) : Prop :=
  ∀ p, p ∈ es ↔ ∃ e ∈ document b k chain s f l, take b s e = .ok (some p.2) ∧ p.1 = cstr e.1

/-- From a loop that goes through and makes up the same map, nothing mixes. -/
theorem unmixed_of_taken (hclass : MapClass b chain s) (hobj : MapObject b k chain s f l)
    {es : List (Text × Datum)} (hes : Taken b k chain s f l es)
    (htake : ∀ e ∈ document b k chain s f l, ∃ r, take b s e = .ok r)
    (hsame : ∀ k, (Entries.assignAll [] es).lookup k = l.lookup k) :
    (∀ e ∈ named b k chain f, Ignored s e) ∧ (∀ e ∈ l, NulFree e.1) ∧ ∀ e ∈ l, Intact b s.2 e.2 := by
  have hleak : ∀ p ∈ es, ∃ x ∈ l, x.1 = p.1 := by
    intro p hp
    have hsome := Entries.lookup_assignAll_isSome [] es
      (Or.inl (List.mem_map_of_mem (f := Prod.fst) hp))
    rw [hsame] at hsome
    obtain ⟨x, hx⟩ := Option.isSome_iff_exists.mp hsome
    exact ⟨_, Entries.mem_of_lookup hx, rfl⟩
  have hkept : ∀ e ∈ l, e ∈ es := by
    intro e he
    have hlookup := Entries.lookup_of_mem hobj.keys he
    rw [← hsame] at hlookup
    exact (Entries.mem_of_lookup_assignAll hlookup).resolve_right (by simp)
  have hignored : ∀ e ∈ named b k chain f, Ignored s e := by
    intro e he
    obtain ⟨r, hr⟩ := htake e ((mem_document hclass).mpr (Or.inl he))
    cases r with
    | none => exact (take_eq_none hclass.item (nulFree_named hclass he)).mp hr
    | some d =>
        obtain ⟨x, hx, hname⟩ := hleak (cstr e.1, d)
          ((hes _).mpr ⟨e, (mem_document hclass).mpr (Or.inl he), hr, rfl⟩)
        obtain ⟨t, ht, _, hmember⟩ := mem_named he
        obtain ⟨o, ho, hi⟩ := slot_item_mem ht
        rw [cstr_of_nulFree (nulFree_named hclass he), hmember] at hname
        exact absurd hname (hobj.unnamed x hx o ho _ hi)
  have hnul : ∀ e ∈ l, NulFree e.1 := by
    intro e he
    obtain ⟨e', _, _, hk⟩ := (hes e).mp (hkept e he)
    rw [hk]
    exact nulFree_cstr _
  refine ⟨hignored, hnul, fun e he => ?_⟩
  obtain ⟨e', he', htake', hk⟩ := (hes e).mp (hkept e he)
  obtain hnamed | ⟨x, hx, rfl⟩ := (mem_document hclass).mp he'
  · rw [(take_eq_none hclass.item (nulFree_named hclass hnamed)).mpr (hignored e' hnamed)] at htake'
    simp at htake'
  · rw [cstr_of_nulFree (hnul x hx), cstr_of_nulFree (hnul x hx)] at hk
    have hval := Entries.lookup_of_mem hobj.keys hx
    rw [← hk, Entries.lookup_of_mem hobj.keys he] at hval
    rw [← Option.some.inj hval] at htake'
    exact (take_wire hclass.item (hobj.values e he) (not_skipped_key hclass hobj hnul x hx)).mp htake'

theorem taken_of_unmixed (hclass : MapClass b chain s) (hobj : MapObject b k chain s f l)
    (hunmixed : Unmixed b k chain s f l) :
    (∀ e ∈ document b k chain s f l, ∃ r, take b s e = .ok r) ∧
      ∀ es, Taken b k chain s f l es → ∀ p, p ∈ es ↔ p ∈ l := by
  have hnone : ∀ e ∈ named b k chain f, take b s e = .ok none := fun e he =>
    (take_eq_none hclass.item (nulFree_named hclass he)).mpr (hunmixed.ignored e he)
  have htaken : ∀ x ∈ l, take b s (cstr x.1, wire b s.2 x.2) = .ok (some x.2) := fun x hx =>
    (take_wire hclass.item (hobj.values x hx)
      (not_skipped_key hclass hobj hunmixed.keys x hx)).mpr (hunmixed.values x hx)
  have hkey : ∀ x ∈ l, cstr (cstr x.1) = x.1 := fun x hx => by
    rw [cstr_of_nulFree (hunmixed.keys x hx), cstr_of_nulFree (hunmixed.keys x hx)]
  refine ⟨fun e he => ?_, fun es hes p => ?_⟩
  · obtain he | ⟨x, hx, rfl⟩ := (mem_document hclass).mp he
    · exact ⟨_, hnone e he⟩
    · exact ⟨_, htaken x hx⟩
  · rw [hes]
    constructor
    · rintro ⟨e, he, htake, hk⟩
      obtain he | ⟨x, hx, rfl⟩ := (mem_document hclass).mp he
      · rw [hnone e he] at htake
        simp at htake
      · rw [htaken x hx] at htake
        have hp : p = x := Prod.ext (hk.trans (hkey x hx)) (Option.some.inj (Except.ok.inj htake)).symm
        exact hp ▸ hx
    · exact fun hp => ⟨_, (mem_document hclass).mpr (Or.inr ⟨p, hp, rfl⟩), htaken p hp,
        (hkey p hp).symm⟩

/-- The map of an object comes back as it was, from a class that compiles, exactly when it does
not mix with the single members. -/
theorem mapRestored_iff {c : Text} (hc : classes c) (hchain : b.chain c = some chain)
    (hclass : MapClass b chain s) (hobj : MapObject b k chain s f l) :
    Compiles b classes ∧ MapRestored b k c s f l ↔
      Compiles b classes ∧ Unmixed b k chain s f l := by
  refine and_congr_right fun hb => ?_
  obtain ⟨chain', hchain', hcompiles⟩ := hb.chain c hc
  obtain rfl := Option.some.inj (hchain.symm.trans hchain')
  obtain ⟨h, hfresh⟩ := hb.fresh c hc
  obtain ⟨call, hconstruct⟩ := constructChain_of_fresh hchain hfresh
  have hcall : Calls b classes (document b k chain s f l)
      (deserializeFrom b (Value.object (document b k chain s f l)).depth) (verdict b) :=
    fun c v hc hv => deserialize_meets hb hc hv
  obtain ⟨hforth, hback⟩ := run_iff hcompiles hcall hclass
    (shaped_fresh hcompiles hconstruct) (fresh_map hcompiles hclass hconstruct)
  have hrun : deserialize b ((Value.object (document b k chain s f l)).depth + 1) c
      (.object (document b k chain s f l)) = (slots chain).foldlM (fun g t => deserializeItem b
        (deserializeFrom b (Value.object (document b k chain s f l)).depth) t.1
          (.object (document b k chain s f l)) g t.2) h >>= fun g => .ok (.object g) := by
    rw [← deserializeFrom_eq_slots hchain]
    simp only [deserialize, readObject, hfresh, orHalt_some, ok_bind]
  have haccepted : (∀ e ∈ l, NulFree e.1) → ∀ t ∈ slots chain, t ≠ s →
      (slot b (verdict b) (.object (document b k chain s f l)) t = .accept ↔
        ∀ j, (named b k chain f).lookup t.2.mMember = some j →
          scalar b (verdict b) t.2 j = .accept) := by
    intro hnul t ht hne
    have hlookup : (document b k chain s f l).lookup t.2.mMember =
        (named b k chain f).lookup t.2.mMember := lookup_document f (cstr_ne_name hobj hnul ht)
    rw [slot_scalar_iff (hclass.others t ht hne), hlookup]
    intro hnone
    exact lookup_named_none hclass hobj ht hne (hlookup ▸ hnone)
  constructor
  · rintro ⟨doc, w, g, hdoc, hw, hget, hsame⟩
    obtain ⟨hopt, rfl⟩ := (serializeTo_map hclass hobj hchain).mp hdoc
    rw [hrun] at hw
    obtain ⟨w', hw', heq⟩ := bind_eq_ok.mp hw
    obtain rfl := Datum.object.inj (Except.ok.inj heq)
    obtain ⟨haccept, htake, es, hget', hes⟩ := hback w' hw'
    obtain rfl := Datum.map.inj (hget.symm.trans hget')
    obtain ⟨hignored, hnul, hvalues⟩ := unmixed_of_taken hclass hobj hes htake hsame
    exact ⟨hopt, hignored, fun t ht hne => (haccepted hnul t ht hne).mp (haccept t ht hne), hnul,
      hvalues⟩
  · intro hunmixed
    obtain ⟨htake, htaken⟩ := taken_of_unmixed hclass hobj hunmixed
    obtain ⟨w, hw⟩ := hforth (fun t ht hne =>
      (haccepted hunmixed.keys t ht hne).mpr (hunmixed.accepted t ht hne)) htake
    obtain ⟨_, _, es, hget, hes⟩ := hback w hw
    refine ⟨_, w, _, (serializeTo_map hclass hobj hchain).mpr ⟨hunmixed.optional, rfl⟩, ?_, hget,
      Entries.lookup_assignAll hobj.keys (htaken es hes)⟩
    rw [hrun, hw, ok_bind]

end Theorem

section Examples

def labelsItem : MemberVariable where
  mMember := "labels".toList
  mType := "string".toList
  mIsArray := true
  mIsMap := true

def titleItem : MemberVariable where
  mMember := "title".toList
  mType := "string".toList

def labelled : Object where
  mName := "Labelled".toList
  mType := "Class".toList
  mIsClass := true
  mItems := [labelsItem]

def page : Object where
  mName := "Page".toList
  mType := "Class".toList
  mIsClass := true
  mInheritsFrom := "Labelled".toList
  mItems := [titleItem]

def site : Build where
  dom := { mObjects := [labelled, page] }
  constant := fun _ _ => 0
  initial := fun _ => .empty

def labelsSlot : Slot := ([labelled], labelsItem)

def pageEntries : List (Text × Datum) := [("k".toList, .str "v".toList)]

def pageFields : Fields := fun l m =>
  if l = 0 ∧ m = "_labels".toList then .map pageEntries
  else if l = 1 ∧ m = "title".toList then .str "a".toList
  else .empty

theorem chain_page : site.chain "Page".toList = some [page, labelled] := rfl

theorem slots_page : slots [page, labelled] = [labelsSlot, ([page, labelled], titleItem)] := by
  decide

theorem page_mapClass : MapClass site [page, labelled] labelsSlot := by
  refine ⟨by decide, ⟨by decide, rfl, rfl⟩, ?_, by decide⟩
  rw [slots_page]
  simp only [List.forall_mem_cons]
  exact ⟨fun h => absurd rfl h, fun _ => ⟨by decide, rfl, rfl⟩, List.forall_mem_nil _⟩

theorem page_mapObject : MapObject site 0 [page, labelled] labelsSlot pageFields pageEntries := by
  refine ⟨rfl, by decide, by decide, ?_, ?_⟩
  · rw [pageEntries, List.forall_mem_singleton]
    exact trivial
  · rw [slots_page]
    simp only [List.forall_mem_cons]
    exact ⟨fun h => absurd rfl h, fun _ => Or.inr trivial, List.forall_mem_nil _⟩

theorem mapRestored_page_iff :
    Compiles site (· = "Page".toList) ∧
        MapRestored site 0 "Page".toList labelsSlot pageFields pageEntries ↔
      Compiles site (· = "Page".toList) ∧
        Unmixed site 0 [page, labelled] labelsSlot pageFields pageEntries :=
  mapRestored_iff rfl chain_page page_mapClass page_mapObject

/-- The member of a derived class turns up in the map of its base. -/
theorem deserialize_page_title :
    (MapClass site [page, labelled] labelsSlot ∧
      MapObject site 0 [page, labelled] labelsSlot pageFields pageEntries) ∧
    ∃ doc w, serializeTo site 1 "Page".toList (.object pageFields) = .ok doc ∧
      deserialize site ((Value.object doc).depth + 1) "Page".toList (.object doc) =
        .ok (.object w) ∧
      Slots.get w labelsSlot =
        .map [("k".toList, .str "v".toList), ("title".toList, .str "a".toList)] :=
  ⟨⟨page_mapClass, page_mapObject⟩, _, _, rfl, rfl, rfl⟩

end Examples

end SchemaCodeGen.Maps
