import SchemaCodeGen.Compilation
import SchemaCodeGen.InitialValues

namespace SchemaCodeGen.Defaults

open CString Schema Emit Generated Slots Fresh Compilation InitialValues

/-- A row that states a default for a member, and whether the constructor that would assign it
is printed with an empty body. -/
structure Default where
  row : MemberVariable
  dropped : Bool
  deriving DecidableEq, Repr

/-- The inherited rows that state a default for the member, the most derived class first and in
a class its last row first. -/
def restatements : List Object → Slot → List Default
  | [], _ => []
  | o :: bases, s =>
      ((restatedItems o).reverse.filter fun i => restatedKey (o :: bases) i = some (key s)).map
        (fun i => ⟨i, o.mAssignment⟩) ++ restatements bases s

/-- The row of the declaration comes last. It is an initializer in every class. -/
def defaults (chain : List Object) (s : Slot) : List Default :=
  restatements chain s ++ if s.2.mDefaultValue = [] then [] else [⟨s.2, false⟩]

variable (b : Build)

/-- The value of the most derived row that states a default and is not dropped. -/
def surviving (chain : List Object) (s : Slot) : Datum :=
  match (defaults chain s).find? fun d => !d.dropped with
  | some d => b.initial d.row
  | none => valueless s.2

/-- The member holds what the most derived row states that states a default for it. -/
def Honoured (chain : List Object) (f : Fields) (s : Slot) : Prop :=
  ∀ d, (defaults chain s).head? = some d → ∀ v, stated b d.row = some v → get f s = v

/-- The constructors, initializers and assignments of a class compile. -/
structure DefaultsCompile (trigraphs : Bool) (o : Object) : Prop where
  constructors : ConstructorsCompile o
  initializers : ∀ i ∈ ownItems o, i.mDefaultValue ≠ [] → Scalar b i → InitializerCompiles trigraphs b i
  assignments : o.mAssignment = false → ∀ i ∈ restatedItems o, b.classEnum i.mType = some true →
    getStandardType i.mType = .none → (compiled trigraphs b i).isSome

/-- All classes stand in one header, which has only a `using` for an alias. -/
def HeaderCompiles (trigraphs : Bool) : Prop :=
  ∀ o ∈ b.dom.mObjects, o.mAlias = [] → o.mIsEnum = false → DefaultsCompile b trigraphs o

variable {b} {chain : List Object} {s : Slot} {f : Fields} {call : Text → Option Fields}

theorem lastAssigned_eq_find? :
    lastAssigned chain s = ((restatements chain s).find? fun d => !d.dropped).map Default.row := by
  induction chain with
  | nil => rfl
  | cons o bases ih =>
      rw [lastAssigned, restatements, List.find?_append, List.find?_map, ih]
      cases o.mAssignment with
      | true =>
          have hnone : ∀ l : List MemberVariable,
              l.find? ((fun d : Default => !d.dropped) ∘ fun i => ⟨i, true⟩) = none := by
            intro l
            simp
          rw [if_pos rfl, hnone, Option.map_none, Option.none_or]
      | false =>
          have hhead : ∀ l : List MemberVariable,
              l.find? ((fun d : Default => !d.dropped) ∘ fun i => ⟨i, false⟩) = l.head? := by
            intro l
            cases l <;> rfl
          rw [if_neg (by simp), hhead, List.head?_filter]
          cases (restatedItems o).reverse.find? fun i =>
            restatedKey (o :: bases) i = some (key s) <;> rfl

theorem get_eq_surviving (h : constructChain b call chain = some f)
    (hnodup : ∀ o ∈ chain, ((ownItems o).map memberName).Nodup) (hs : s ∈ slots chain)
    (hscalar : Scalar b s.2) (htypes : ∀ d ∈ defaults chain s, d.row.mType = s.2.mType) :
    get f s = surviving b chain s := by
  have hvalue := constructChain_value h hnodup hs
  rw [lastAssigned_eq_find?] at hvalue
  rw [surviving, defaults, List.find?_append]
  cases hfind : (restatements chain s).find? fun d => !d.dropped with
  | some d =>
      rw [hfind] at hvalue
      have hmem : d ∈ defaults chain s := List.mem_append_left _ (List.mem_of_find?_eq_some hfind)
      exact assignedValue_scalar hscalar (htypes d hmem) hvalue
  | none =>
      rw [hfind, Option.map_none] at hvalue
      dsimp only at hvalue
      rw [initialValue_scalar hscalar] at hvalue
      rw [Option.none_or, ← Option.some.inj hvalue]
      split_ifs <;> rfl

theorem head?_of_not_dropped {l : List Default} {d : Default} (h : l.head? = some d)
    (hd : d.dropped = false) : l.find? (fun d => !d.dropped) = some d := by
  cases l with
  | nil => simp at h
  | cons e l =>
      obtain rfl := Option.some.inj h
      simp [hd]

/-- A default constructed object honours the default of the most derived row exactly when that
row is not dropped and kept, or the rows that remain without the dropped ones give its value. -/
theorem fresh_honours {trigraphs : Bool} {c : Text} (hchain : b.chain c = some chain)
    (hnodup : ∀ o ∈ chain, ((ownItems o).map memberName).Nodup) (hf : (read trigraphs b).fresh c = some f)
    (hs : s ∈ slots chain) (hscalar : Scalar b s.2)
    (htypes : ∀ d ∈ defaults chain s, d.row.mType = s.2.mType ∧ d.row.mIsArray = false) :
    (HeaderCompiles b trigraphs ∧ Honoured b chain f s) ↔ HeaderCompiles b trigraphs ∧
      ∀ d, (defaults chain s).head? = some d → ∀ v, stated b d.row = some v →
        if d.dropped then surviving (read trigraphs b) chain s = v else Kept trigraphs b d.row := by
  obtain ⟨m, hf⟩ := constructChain_of_fresh ((chain_read c).trans hchain) hf
  have hget := get_eq_surviving hf hnodup hs hscalar fun d hd => (htypes d hd).1
  refine and_congr_right fun _ => forall₂_congr fun d hd => forall₂_congr fun v hv => ?_
  rw [hget]
  cases hdrop : d.dropped with
  | true => rfl
  | false =>
      have hmem : d ∈ defaults chain s := List.mem_of_mem_head? hd
      rw [surviving, head?_of_not_dropped hd hdrop, if_neg (by simp)]
      exact initial_read_eq_iff (htypes d hmem).2 hv

section Examples

def speedItem : MemberVariable where
  mMember := "speed".toList
  mType := "u32".toList
  mDefaultValue := "1".toList

def vehicle : Object where
  mName := "Vehicle".toList
  mType := "Class".toList
  mIsClass := true
  mItems := [speedItem]

def fasterItem : MemberVariable where
  mMember := "speed".toList
  mType := "u32".toList
  mInheritsFrom := "Vehicle".toList
  mDefaultValue := "7".toList

def car : Object where
  mName := "Car".toList
  mType := "Class".toList
  mIsClass := true
  mInheritsFrom := "Vehicle".toList
  mAssignment := true
  mItems := [fasterItem]

def traffic : Build where
  dom := { mObjects := [vehicle, car] }
  constant := fun _ _ => 0
  initial := fun _ => .empty

def speed : Slot := ([vehicle], speedItem)

theorem chain_car : traffic.chain "Car".toList = some [car, vehicle] := rfl

theorem defaults_speed : defaults [car, vehicle] speed = [⟨fasterItem, true⟩, ⟨speedItem, false⟩] := by
  decide

theorem speed_scalar : Scalar traffic speedItem := ⟨rfl, rfl, Or.inl (by decide)⟩

theorem fresh_honours_car : ∃ f, (read true traffic).fresh "Car".toList = some f ∧
    ((HeaderCompiles traffic true ∧ Honoured traffic [car, vehicle] f speed) ↔ HeaderCompiles traffic true ∧
      ∀ d, (defaults [car, vehicle] speed).head? = some d → ∀ v, stated traffic d.row = some v →
        if d.dropped then surviving (read true traffic) [car, vehicle] speed = v
        else Kept true traffic d.row) := by
  refine ⟨_, rfl, fresh_honours chain_car (by decide) rfl (by decide) speed_scalar ?_⟩
  rw [defaults_speed]
  simp [fasterItem, speed, speedItem]

theorem traffic_compiles : HeaderCompiles traffic true := by
  rw [HeaderCompiles, show traffic.dom.mObjects = [vehicle, car] from rfl]
  simp only [List.forall_mem_cons]
  refine ⟨fun _ _ => ⟨fun h => absurd h (by decide), ?_, ?_⟩,
    fun _ _ => ⟨fun _ => by decide, ?_, fun h => absurd h (by decide)⟩, List.forall_mem_nil _⟩
  · rw [show ownItems vehicle = [speedItem] from rfl]
    simp only [List.forall_mem_cons]
    exact ⟨fun _ _ => ⟨fun _ _ => ⟨by decide, by decide⟩, fun h => absurd h (by decide)⟩,
      List.forall_mem_nil _⟩
  · rw [show restatedItems vehicle = [] from rfl]
    exact fun _ => List.forall_mem_nil _
  · rw [show ownItems car = [] from rfl]
    exact List.forall_mem_nil _

/-- The row of `Car` states 7, but its constructor is empty and the new car holds 1. -/
theorem car_not_honoured :
    (traffic.chain "Car".toList = some [car, vehicle] ∧ speed ∈ slots [car, vehicle] ∧
        Scalar traffic speed.2 ∧ HeaderCompiles traffic true) ∧
      ∃ f, (read true traffic).fresh "Car".toList = some f ∧ get f speed = .int 1 ∧
        (∃ d, (defaults [car, vehicle] speed).head? = some d ∧
          stated traffic d.row = some (.int 7)) ∧
        ¬ Honoured traffic [car, vehicle] f speed := by
  have hhead : (defaults [car, vehicle] speed).head? = some ⟨fasterItem, true⟩ := by
    rw [defaults_speed]
    rfl
  refine ⟨⟨chain_car, by decide, speed_scalar, traffic_compiles⟩, _, rfl, rfl,
    ⟨⟨fasterItem, true⟩, hhead, rfl⟩, ?_⟩
  intro h
  have hvalue : Datum.int 1 = .int 7 := h ⟨fasterItem, true⟩ hhead (.int 7) rfl
  cases hvalue

end Examples

end SchemaCodeGen.Defaults
