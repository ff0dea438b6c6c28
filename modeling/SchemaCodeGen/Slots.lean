import SchemaCodeGen.Generated

namespace SchemaCodeGen.Slots

open CString Json Schema Emit Fallible Generated

/-- A declared member: its declaring class with the bases of that, and its row. -/
abbrev Slot := List Object × MemberVariable

/-- The declared members of a class in the order the codec takes them, root first. -/
def slots : List Object → List Slot
  | [] => []
  | o :: bases => slots bases ++ (ownItems o).map fun i => (o :: bases, i)

def key (s : Slot) : Nat × Text := (level s.1, memberName s.2)

def get (f : Fields) (s : Slot) : Datum := f (level s.1) (memberName s.2)

def set (f : Fields) (s : Slot) (d : Datum) : Fields := f.set (level s.1) (memberName s.2) d

theorem get_set_same (f : Fields) (s : Slot) (d : Datum) : get (set f s d) s = d :=
  f.set_same _ _ d

theorem get_set_of_ne (f : Fields) {s t : Slot} (d : Datum) (h : key t ≠ key s) :
    get (set f s d) t = get f t := f.set_of_ne d h

theorem level_lt_of_mem {chain : List Object} {s : Slot} (h : s ∈ slots chain) :
    level s.1 < chain.length := by
  induction chain with
  | nil => simp [slots] at h
  | cons o bases ih =>
      rw [slots, List.mem_append] at h
      obtain h | h := h
      · exact lt_trans (ih h) (by simp)
      · obtain ⟨i, _, rfl⟩ := List.mem_map.mp h
        simp [level]

theorem nodup_keys {chain : List Object}
    (h : ∀ o ∈ chain, ((ownItems o).map memberName).Nodup) : ((slots chain).map key).Nodup := by
  induction chain with
  | nil => simp [slots]
  | cons o bases ih =>
      rw [List.forall_mem_cons] at h
      rw [slots, List.map_append, List.map_map, List.nodup_append]
      refine ⟨ih h.2, ?_, ?_⟩
      · have hkey : key ∘ (fun i => (o :: bases, i)) = Prod.mk bases.length ∘ memberName := rfl
        rw [hkey, ← List.map_map]
        exact h.1.map (Prod.mk_right_injective _)
      · intro k hk k' hk' heq
        obtain ⟨s, hs, rfl⟩ := List.mem_map.mp hk
        obtain ⟨i, _, rfl⟩ := List.mem_map.mp hk'
        have hlt := level_lt_of_mem hs
        have hlevel : level s.1 = bases.length := congrArg Prod.fst heq
        omega

theorem eq_of_key_eq {chain : List Object} (h : ((slots chain).map key).Nodup) {s t : Slot}
    (hs : s ∈ slots chain) (ht : t ∈ slots chain) (hkey : key s = key t) : s = t :=
  List.inj_on_of_nodup_map h hs ht hkey

variable (b : Build)

theorem serializeChain_eq_slots (call : Text → Datum → Run Members) (f : Fields)
    (chain : List Object) :
    serializeChain b call f chain =
      ((slots chain).mapM fun s => serializeItem b call (f (level s.1)) s.2) >>=
        fun l => .ok l.flatten := by
  induction chain with
  | nil => rfl
  | cons o bases ih =>
      have hown : ((ownItems o).map fun i => ((o :: bases, i) : Slot)).mapM
          (fun s => serializeItem b call (f (level s.1)) s.2) =
          (ownItems o).mapM (serializeItem b call (f bases.length)) := List.mapM_map
      rw [serializeChain, slots, List.mapM_append, ih, hown]
      cases (slots bases).mapM fun s => serializeItem b call (f (level s.1)) s.2 with
      | error e => rfl
      | ok l =>
          cases (ownItems o).mapM (serializeItem b call (f bases.length)) with
          | error e => rfl
          | ok l' => simp

theorem deserializeChain_eq_slots (call : Text → Value → Fields → Run Fields) (d : Value)
    (f : Fields) (chain : List Object) :
    deserializeChain b call d f chain =
      (slots chain).foldlM (fun f s => deserializeItem b call s.1 d f s.2) f := by
  induction chain with
  | nil => rfl
  | cons o bases ih =>
      rw [deserializeChain, slots, List.foldlM_append, ih]
      simp only [List.foldlM_map]

theorem equalChain_eq_slots (call : Text → Datum → Datum → Run Bool) (f g : Fields)
    (chain : List Object) :
    equalChain b call f g chain =
      (slots chain).foldlM
        (fun equal s => equalItem b call (f (level s.1)) (g (level s.1)) equal s.2) true := by
  induction chain with
  | nil => rfl
  | cons o bases ih =>
      rw [equalChain, slots, List.foldlM_append, ih]
      simp only [List.foldlM_map]
      rfl

variable {b} {c : Text} {chain : List Object}

theorem serializeTo_eq_slots (hchain : b.chain c = some chain) (k : Nat) (f : Fields) :
    serializeTo b (k + 1) c (.object f) =
      ((slots chain).mapM fun s => serializeItem b (serializeTo b k) (f (level s.1)) s.2) >>=
        fun l => .ok l.flatten := by
  rw [← serializeChain_eq_slots]
  simp only [serializeTo, hchain]

/-- An object is written when each member writes its entries, in the order of the members. -/
theorem serializeTo_eq_ok (hchain : b.chain c = some chain) {k : Nat} {f : Fields}
    {doc : Members} :
    serializeTo b (k + 1) c (.object f) = .ok doc ↔ ∃ entries : Slot → Members,
      (∀ s ∈ slots chain,
        serializeItem b (serializeTo b k) (f (level s.1)) s.2 = .ok (entries s)) ∧
      ((slots chain).map entries).flatten = doc := by
  rw [serializeTo_eq_slots hchain, bind_eq_ok]
  constructor
  · rintro ⟨ls, hls, hdoc⟩
    have hwrites : ∀ s ∈ slots chain, ∃ ms,
        serializeItem b (serializeTo b k) (f (level s.1)) s.2 = .ok ms := by
      intro s hs
      obtain ⟨ms, _, hms⟩ := Entries.exists_of_forall₂ (mapM_eq_ok.mp hls) hs
      exact ⟨ms, hms⟩
    choose! entries hentries using hwrites
    obtain rfl := Except.ok.inj ((mapM_ok hentries).symm.trans hls)
    exact ⟨entries, hentries, Except.ok.inj hdoc⟩
  · rintro ⟨entries, hentries, rfl⟩
    exact ⟨_, mapM_ok hentries, rfl⟩

theorem deserializeFrom_eq_slots (hchain : b.chain c = some chain) (k : Nat) (d : Value)
    (f : Fields) :
    deserializeFrom b (k + 1) c d f =
      (slots chain).foldlM (fun f s => deserializeItem b (deserializeFrom b k) s.1 d f s.2) f := by
  rw [← deserializeChain_eq_slots]
  simp only [deserializeFrom, hchain]

theorem equalTo_eq_slots (hchain : b.chain c = some chain) (k : Nat) (f g : Fields) :
    equalTo b (k + 1) c (.object f) (.object g) =
      (slots chain).foldlM
        (fun equal s => equalItem b (equalTo b k) (f (level s.1)) (g (level s.1)) equal s.2) true := by
  rw [← equalChain_eq_slots]
  simp only [equalTo, hchain]

end SchemaCodeGen.Slots
