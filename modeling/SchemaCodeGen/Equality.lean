import SchemaCodeGen.RoundTrip

namespace SchemaCodeGen.Equality

open CString Floats Json Schema Emit EnumTable Fallible Generated Slots Fresh Values Compilation
  RoundTrip

def HoldsOne : Datum → Prop
  | .int n => n = 1
  | .real x => x.eq (.fin 1) = true
  | .bool p => p = true
  | _ => False

/-- The names `equal` and `other` are taken inside the emitted operator: a member `other`
does not compile, and a member `equal` is compared with the local, which is true. -/
def Unhidden (i : MemberVariable) (d : Datum) : Prop :=
  memberName i ≠ "other".toList ∧ (memberName i = "equal".toList → HoldsOne d)

theorem unhidden_equal {i : MemberVariable} {d : Datum} (h : memberName i = "equal".toList) :
    Unhidden i d ↔ HoldsOne d :=
  ⟨fun hu => hu.2 h, fun hone => ⟨by rw [h]; decide, fun _ => hone⟩⟩

theorem compareLocal_true {d : Datum} : compareLocal true d = .ok true ↔ HoldsOne d := by
  cases d <;> simp [compareLocal, HoldsOne]

theorem and_eq_ok {equal : Bool} {r : Run Bool} :
    (r >>= fun x => .ok (equal && x)) = .ok true ↔ equal = true ∧ r = .ok true := by
  cases r with
  | error e => simp
  | ok x => simp

section Compare

variable {b : Build} {classes : Text → Prop} {n k : Nat}

theorem compareLeaf_self {i : MemberVariable} {x : Datum} (hclass : b.isClass i.mType = false)
    (hi : SupportedItem b classes i) (hx : ElementValue b (ClassValue b n) i x) :
    compareLeaf x x = .ok true := by
  rw [ElementValue] at hx
  split_ifs at hx with hstd henum
  · cases x <;> cases ht : getStandardType i.mType <;> simp_all [LeafValue, compareLeaf, Ieee.eq_self]
  · cases x with
    | enum m => simp [compareLeaf]
    | _ => exact absurd hx id
  · -- The type is neither standard nor an enum, so it is a class.
    cases hi with
    | integer type => obtain h | h | h := type <;> simp [h] at hstd
    | plain type _ => obtain h | h := type <;> simp [h] at hstd
    | string type _ => simp [type] at hstd
    | enum _ h _ _ => exact absurd h henum
    | object type cls _ => simp [Build.isClass, type, cls] at hclass

theorem compareElement_self {i : MemberVariable} {x : Datum} (hi : SupportedItem b classes i)
    (hx : ElementValue b (ClassValue b n) i x)
    (ih : ∀ c x, classes c → ClassValue b n c x →
      (equalTo b k c x x = .ok true ↔ Everywhere b Unhidden n c x)) :
    compareElement b (equalTo b k) i x x = .ok true ↔
      (b.isClass i.mType = true → Everywhere b Unhidden n i.mType x) := by
  cases hclass : b.isClass i.mType with
  | false => simp [compareElement, hclass, compareLeaf_self hclass hi hx]
  | true =>
      have htype : getStandardType i.mType = .none ∧ b.classEnum i.mType = some false := by
        simpa [Build.isClass] using hclass
      rw [ElementValue, if_neg (by simp [htype.1]), if_neg (by simp [htype.2])] at hx
      simp [compareElement, hclass, ih _ _ (hi.mem_class hclass) hx]

theorem compareList_self {compare : Datum → Datum → Run Bool} {l : List Datum} :
    compareList compare l l = .ok true ↔ ∀ x ∈ l, compare x x = .ok true := by
  induction l with
  | nil => simp [compareList]
  | cons x l ih =>
      rw [compareList, List.forall_mem_cons, ← ih]
      cases compare x x with
      | error e => simp
      | ok r => cases r <;> simp

theorem compareMember_self {i : MemberVariable} {x : Datum} (hi : SupportedItem b classes i)
    (hx : ItemValue b (ClassValue b n) i x)
    (ih : ∀ c x, classes c → ClassValue b n c x →
      (equalTo b k c x x = .ok true ↔ Everywhere b Unhidden n c x)) :
    compareMember b (equalTo b k) i x x = .ok true ↔
      (b.isClass i.mType = true → ∀ y ∈ held x, Everywhere b Unhidden n i.mType y) := by
  rw [ItemValue] at hx
  split_ifs at hx with ha
  · obtain ⟨l, rfl, hx⟩ := hx
    simp only [compareMember, if_true, held]
    rw [compareList_self]
    constructor
    · exact fun h hc y hy => (compareElement_self hi (hx y hy) ih).mp (h y hy) hc
    · exact fun h y hy => (compareElement_self hi (hx y hy) ih).mpr fun hc => h hc y hy
  · obtain ⟨_, rfl⟩ | hx := hx
    · simp [compareMember, held]
    · have hself := compareElement_self hi hx ih
      have hne := elementValue_ne_empty hx
      have hvec : ∀ l, x ≠ .vec l := by
        rintro l rfl
        rw [ElementValue] at hx
        split_ifs at hx
        · cases ht : getStandardType i.mType <;> simp [ht, LeafValue] at hx
        · exact hx
        · obtain ⟨f, hf⟩ := classValue_object hx
          exact absurd hf (by simp)
      have hmap : ∀ l, x ≠ .map l := by
        rintro l rfl
        rw [ElementValue] at hx
        split_ifs at hx
        · cases ht : getStandardType i.mType <;> simp [ht, LeafValue] at hx
        · exact hx
        · obtain ⟨f, hf⟩ := classValue_object hx
          exact absurd hf (by simp)
      have hcompare : compareMember b (equalTo b k) i x x = compareElement b (equalTo b k) i x x := by
        cases x with
        | empty => exact absurd rfl hne
        | vec l => exact absurd rfl (hvec l)
        | map l => exact absurd rfl (hmap l)
        | _ => rfl
      rw [hcompare, hself, held_of_ne hne hvec]
      simp

/-- One round of the emitted operator keeps `equal` true exactly when the member is equal
to itself and not hidden. -/
theorem equalItem_self {f : Text → Datum} {equal : Bool} {i : MemberVariable}
    (hi : SupportedItem b classes i) (hx : ItemValue b (ClassValue b n) i (f (memberName i)))
    (ih : ∀ c x, classes c → ClassValue b n c x →
      (equalTo b k c x x = .ok true ↔ Everywhere b Unhidden n c x)) :
    equalItem b (equalTo b k) f f equal i = .ok true ↔
      equal = true ∧ Unhidden i (f (memberName i)) ∧
        (b.isClass i.mType = true → ∀ y ∈ held (f (memberName i)),
          Everywhere b Unhidden n i.mType y) := by
  rw [equalItem]
  by_cases hother : memberName i = "other".toList
  · simp only [hother, if_true, Unhidden]
    simp
  · by_cases hequal : memberName i = "equal".toList
    · have hclass : HoldsOne (f (memberName i)) → ∀ y ∈ held (f (memberName i)),
          b.isClass i.mType = true → Everywhere b Unhidden n i.mType y := by
        intro hone y hy hc
        have htype : getStandardType i.mType = .none ∧ b.classEnum i.mType = some false := by
          simpa [Build.isClass] using hc
        -- No object, vector or empty optional is the number one.
        rw [ItemValue] at hx
        split_ifs at hx
        · obtain ⟨l, hl, _⟩ := hx
          exact absurd hone (by simp [hl, HoldsOne])
        · obtain ⟨_, he⟩ | hx := hx
          · exact absurd hone (by simp [he, HoldsOne])
          · rw [ElementValue, if_neg (by simp [htype.1]), if_neg (by simp [htype.2])] at hx
            obtain ⟨g, hg⟩ := classValue_object hx
            exact absurd hone (by simp [hg, HoldsOne])
      rw [if_neg hother, if_pos hequal, and_eq_ok]
      cases equal with
      | false => simp
      | true =>
          rw [compareLocal_true, unhidden_equal hequal]
          exact ⟨fun h => ⟨rfl, h.2, fun hc y hy => hclass h.2 y hy hc⟩, fun h => ⟨rfl, h.2.1⟩⟩
    · have hu : Unhidden i (f (memberName i)) := ⟨hother, fun h => absurd h hequal⟩
      rw [if_neg hother, if_neg hequal, and_eq_ok, compareMember_self hi hx ih, and_iff_right hu]

theorem foldlM_true {α : Type} {step : Bool → α → Run Bool} {P : α → Prop} {l : List α}
    (h : ∀ x ∈ l, ∀ equal, step equal x = .ok true ↔ equal = true ∧ P x) {equal : Bool} :
    l.foldlM step equal = .ok true ↔ equal = true ∧ ∀ x ∈ l, P x := by
  induction l generalizing equal with
  | nil => simp
  | cons x l ih =>
      rw [List.forall_mem_cons] at h
      rw [List.foldlM_cons, List.forall_mem_cons, ← and_assoc, ← h.1]
      cases step equal x with
      | error e => simp
      | ok r => simp [ih h.2]

end Compare

theorem equalTo_self {b : Build} {classes : Text → Prop} (hs : Supported b classes) {n k : Nat}
    (hk : n ≤ k) {c : Text} {x : Datum} (hc : classes c) (hx : ClassValue b n c x) :
    equalTo b k c x x = .ok true ↔ Everywhere b Unhidden n c x := by
  induction n generalizing k c x with
  | zero => exact absurd hx id
  | succ n ih =>
      obtain ⟨k, rfl⟩ := Nat.exists_eq_add_of_le' (Nat.lt_of_lt_of_le (Nat.zero_lt_succ n) hk)
      obtain ⟨chain, f, hchain, rfl, hitems, _⟩ := hx
      obtain ⟨chain', hchain', hsup⟩ := hs.chain c hc
      obtain rfl := Option.some.inj (hchain.symm.trans hchain')
      rw [everywhere_object hchain, equalTo_eq_slots hchain, foldlM_true (P := fun s => Unhidden s.2 (Slots.get f s) ∧
        (b.isClass s.2.mType = true → ∀ y ∈ held (Slots.get f s),
          Everywhere b Unhidden n s.2.mType y))]
      · simp
      · intro s hs' equal
        exact equalItem_self (hsup.items s hs') (hitems s hs') fun c x hc hx => ih (by omega) hc hx

/-- A value that is written, read back and compared comes out equal exactly when the classes
compile and no member of it, at any depth, is hidden inside the operator: `other`, or `equal`
unless it holds one. -/
theorem deserialize_serialize_equal {b : Build} {classes : Text → Prop} (hs : Supported b classes)
    {n k : Nat} (hk : n ≤ k) {c : Text} {v : Datum} (hc : classes c) (hv : ClassValue b n c v) :
    (SchemaCompiles b classes ∧
        ∃ doc w, serializeTo b k c v = .ok doc ∧ deserialize b k c (.object doc) = .ok w ∧
          equalTo b k c w v = .ok true) ↔
      SchemaCompiles b classes ∧ Everywhere b Unhidden n c v := by
  refine and_congr_right fun hcompiles => ?_
  obtain ⟨j, hwrite, hread, _⟩ := class_restores hs hk hc hv
  obtain ⟨doc, hdoc, hj⟩ := bind_eq_ok.mp hwrite
  obtain rfl := Except.ok.inj hj
  have hback := hread (hs.arrayNamed hcompiles hc)
  rw [← equalTo_self hs hk hc hv]
  constructor
  · rintro ⟨doc', w, hdoc', hw, hequal⟩
    obtain rfl := Except.ok.inj (hdoc.symm.trans hdoc')
    obtain rfl := Except.ok.inj (hback.symm.trans hw)
    exact hequal
  · exact fun hequal => ⟨doc, v, hdoc, hback, hequal⟩

section Examples

def colour : Object where
  mName := "Colour".toList
  mType := "Enum".toList
  mIsEnum := true
  mItems := [{ mMember := "red".toList }, { mMember := "blue".toList, mAlias := "azure".toList }]

def xItem : MemberVariable where
  mMember := "x".toList
  mType := "i64".toList
  mIsOptional := .optional

def equalItem₀ : MemberVariable where
  mMember := "equal".toList
  mType := "bool".toList

def point : Object where
  mName := "Point".toList
  mType := "Class".toList
  mIsClass := true
  mItems := [xItem, equalItem₀]

def colourItem : MemberVariable where
  mMember := "colour".toList
  mType := "Colour".toList

def cornersItem : MemberVariable where
  mMember := "corners".toList
  mType := "Point".toList
  mIsArray := true

def shape : Object where
  mName := "Shape".toList
  mType := "Class".toList
  mIsClass := true
  mInheritsFrom := "Point".toList
  mItems := [colourItem, cornersItem]

def drawing : Build where
  dom := { mObjects := [colour, point, shape] }
  constant := fun _ _ => 0
  initial := fun _ => .empty

def pointValue (equal : Bool) : Datum := .object fun l m =>
  if l = 0 ∧ m = "x".toList then .int (-3)
  else if l = 0 ∧ m = "equal".toList then .bool equal
  else .empty

def shapeValue : Datum := .object fun l m =>
  if l = 0 ∧ m = "equal".toList then .bool true
  else if l = 1 ∧ m = "colour".toList then .enum 1
  else if l = 1 ∧ m = "corners".toList then .vec [pointValue true]
  else .empty

def drawn (c : Text) : Prop := c = "Point".toList ∨ c = "Shape".toList

theorem chain_point : drawing.chain "Point".toList = some [point] := rfl

theorem chain_shape : drawing.chain "Shape".toList = some [shape, point] := rfl

theorem slots_point : slots [point] = [([point], xItem), ([point], equalItem₀)] := rfl

theorem slots_shape : slots [shape, point] = [([point], xItem), ([point], equalItem₀),
    ([shape, point], colourItem), ([shape, point], cornersItem)] := rfl

theorem drawing_supported : Supported drawing drawn := by
  have hx : SupportedItem drawing drawn xItem := .integer (by decide)
  have hequal : SupportedItem drawing drawn equalItem₀ := .plain (by decide) rfl
  have hcorners : SupportedItem drawing drawn cornersItem := .object (by decide) (by decide) (Or.inl rfl)
  have hcolour : SupportedItem drawing drawn colourItem := by
    refine .enum (by decide) (by decide) (fun e he => ?_) rfl
    obtain rfl : colour = e := Option.some.inj he
    decide
  refine ⟨?_, ?_⟩
  · rintro c (rfl | rfl)
    · refine ⟨_, chain_point, ?_⟩
      constructor <;> rw [slots_point]
      case items =>
        simp only [List.forall_mem_cons]
        exact ⟨hx, hequal, by simp⟩
      all_goals decide
    · refine ⟨_, chain_shape, ?_⟩
      constructor <;> rw [slots_shape]
      case items =>
        simp only [List.forall_mem_cons]
        exact ⟨hx, hequal, hcolour, hcorners, by simp⟩
      all_goals decide
  · rintro c (rfl | rfl)
    · exact ⟨_, rfl⟩
    · exact ⟨_, rfl⟩

theorem drawing_compiles : SchemaCompiles drawing drawn := by
  have hpoint : ObjectCompiles point := by
    refine ⟨fun h => absurd h (by decide), ?_, ?_⟩ <;>
      rw [show ownItems point = [xItem, equalItem₀] from rfl] <;> simp only [List.forall_mem_cons]
    · exact ⟨⟨fun h => absurd h (by decide), fun h => absurd h (by decide)⟩,
        ⟨fun h => absurd h (by decide), fun _ => by decide⟩, List.forall_mem_nil _⟩
    · exact ⟨fun h => absurd h (by decide), fun h => absurd h (by decide), List.forall_mem_nil _⟩
  have hshape : ObjectCompiles shape := by
    refine ⟨fun h => absurd h (by decide), ?_, ?_⟩ <;>
      rw [show ownItems shape = [colourItem, cornersItem] from rfl] <;> simp only [List.forall_mem_cons]
    · exact ⟨⟨fun h => absurd h (by decide), fun h => absurd h (by decide)⟩,
        ⟨fun h => absurd h (by decide), fun h => absurd h (by decide)⟩, List.forall_mem_nil _⟩
    · exact ⟨fun h => absurd h (by decide), fun _ _ h => absurd rfl h, List.forall_mem_nil _⟩
  rintro c (rfl | rfl) chain hchain o ho
  · obtain rfl := Option.some.inj (chain_point.symm.trans hchain)
    rwa [List.mem_singleton.mp ho]
  · obtain rfl := Option.some.inj (chain_shape.symm.trans hchain)
    obtain rfl | ho := List.mem_cons.mp ho
    · exact hshape
    · rwa [List.mem_singleton.mp ho]

theorem x_value {n : Nat} : ElementValue drawing (ClassValue drawing n) xItem (.int (-3)) := by
  rw [ElementValue, if_pos (by decide)]
  exact ⟨by decide, by decide⟩

theorem blue_value {n : Nat} : ElementValue drawing (ClassValue drawing n) colourItem (.enum 1) := by
  rw [ElementValue, if_neg (by decide), if_pos (by decide)]
  exact ⟨by decide, fun _ => ⟨colour, rfl, by decide⟩⟩

theorem pointValue_value (equal : Bool) :
    ClassValue drawing 1 "Point".toList (pointValue equal) := by
  refine ⟨_, _, chain_point, rfl, ?_, fun l m h => ?_⟩
  · rw [slots_point]
    simp only [List.forall_mem_cons]
    exact ⟨Or.inr x_value, Or.inr trivial, List.forall_mem_nil _⟩
  · rw [slots_point] at h
    simp only [List.forall_mem_cons] at h
    rw [if_neg fun ⟨hl, hm⟩ => h.1 (by rw [hl, hm]; rfl),
      if_neg fun ⟨hl, hm⟩ => h.2.1 (by rw [hl, hm]; rfl)]

theorem corners_value {d : Datum} (h : d = .vec [pointValue true]) :
    ItemValue drawing (ClassValue drawing 1) cornersItem d := by
  rw [ItemValue, if_pos (by decide)]
  refine ⟨_, h, ?_⟩
  rw [List.forall_mem_singleton, ElementValue, if_neg (by decide), if_neg (by decide)]
  exact pointValue_value true

theorem shapeValue_value : ClassValue drawing 2 "Shape".toList shapeValue := by
  refine ⟨_, _, chain_shape, rfl, ?_, fun l m h => ?_⟩
  · rw [slots_shape]
    simp only [List.forall_mem_cons]
    exact ⟨Or.inl ⟨rfl, rfl⟩, Or.inr trivial, Or.inr blue_value, corners_value rfl,
      List.forall_mem_nil _⟩
  · rw [slots_shape] at h
    simp only [List.forall_mem_cons] at h
    rw [if_neg fun ⟨hl, hm⟩ => h.2.1 (by rw [hl, hm]; rfl),
      if_neg fun ⟨hl, hm⟩ => h.2.2.1 (by rw [hl, hm]; rfl),
      if_neg fun ⟨hl, hm⟩ => h.2.2.2.1 (by rw [hl, hm]; rfl)]

theorem deserialize_serialize_shapeValue :
    (SchemaCompiles drawing drawn ∧
        ∃ doc w, serializeTo drawing 3 "Shape".toList shapeValue = .ok doc ∧
          deserialize drawing 3 "Shape".toList (.object doc) = .ok w ∧
          equalTo drawing 3 "Shape".toList w shapeValue = .ok true) ↔
      SchemaCompiles drawing drawn ∧ Everywhere drawing Unhidden 2 "Shape".toList shapeValue :=
  deserialize_serialize_equal drawing_supported (by decide) (Or.inr rfl) shapeValue_value

/-- A false member `equal` is read back as it was, but the operator compares its own true
local with it. -/
theorem equal_pointValue_false :
    (Supported drawing drawn ∧ SchemaCompiles drawing drawn ∧ drawn "Point".toList ∧
      ClassValue drawing 1 "Point".toList (pointValue false)) ∧
    ∃ doc w, serializeTo drawing 1 "Point".toList (pointValue false) = .ok doc ∧
      deserialize drawing 1 "Point".toList (.object doc) = .ok w ∧
      equalTo drawing 1 "Point".toList w (pointValue false) = .ok false :=
  ⟨⟨drawing_supported, drawing_compiles, Or.inl rfl, pointValue_value false⟩, _, _, rfl, rfl, rfl⟩

end Examples

end SchemaCodeGen.Equality
