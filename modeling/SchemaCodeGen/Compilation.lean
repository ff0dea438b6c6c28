import SchemaCodeGen.Values

namespace SchemaCodeGen.Compilation

open CString Schema Emit EnumTable Generated Slots Values

/-- The assignment constructor takes each row as a constant reference to its type, named as the
member with an underscore in front, and assigns it to the member. Without rows it is a second
default constructor, a reference to a string would be constant twice, and no container or pointer
takes the value of an element. -/
def ConstructorsCompile (o : Object) : Prop :=
  o.mAssignment = true → o.mItems ≠ [] ∧ (o.mItems.map fun i => i.mMember).Nodup ∧
    ∀ i ∈ o.mItems, getStandardType i.mType ≠ .stringType ∧ i.mIsArray = false ∧
      i.mIsPointer = false ∧ '_' :: i.mMember ∉ o.mItems.map fun i => i.mMember

/-- The assignment constructor of the class converts the member alone to the class. -/
def Converts (o : Object) (i : MemberVariable) : Prop :=
  o.mAssignment = true ∧ o.mItems = [i] ∧ i.mIsOptional ≠ .optional

/-- Inside the emitted operator `other` means the argument and `equal` the local, a bool. -/
structure ComparisonCompiles (o : Object) (i : MemberVariable) : Prop where
  other : memberName i = "other".toList → Converts o i
  equal : memberName i = "equal".toList → i.mIsArray = false ∧ getStandardType i.mType ≠ .none ∧
    getStandardType i.mType ≠ .stringType

/-- The emitted block of an integer array declares a vector of the member's name. -/
def BlockCompiles (i : MemberVariable) : Prop :=
  i.mIsArray = true → i.mIsMap = false → getStandardType i.mType ≠ .none → i.mMember ∉ arrayLocals

/-- The names and the constructors in what is printed for a class. -/
structure ObjectCompiles (o : Object) : Prop where
  constructors : ConstructorsCompile o
  comparisons : ∀ i ∈ ownItems o, ComparisonCompiles o i
  blocks : ∀ i ∈ ownItems o, BlockCompiles i

/-- The classes and their bases compile. They stand in one file, so that one that does not keeps
all of them from compiling. -/
def SchemaCompiles (b : Build) (classes : Text → Prop) : Prop :=
  ∀ c, classes c → ∀ chain, b.chain c = some chain → ∀ o ∈ chain, ObjectCompiles o

def BlocksCompile (b : Build) (classes : Text → Prop) : Prop :=
  ∀ c, classes c → ∀ chain, b.chain c = some chain → ∀ o ∈ chain, ∀ i ∈ ownItems o, BlockCompiles i

theorem mem_of_slot {chain : List Object} {s : Slot} (h : s ∈ slots chain) :
    ∃ o ∈ chain, s.2 ∈ ownItems o := by
  induction chain with
  | nil => exact absurd h List.not_mem_nil
  | cons o bases ih =>
      rw [slots, List.mem_append] at h
      rw [List.exists_mem_cons_iff]
      obtain h | h := h
      · exact .inr (ih h)
      · obtain ⟨i, hi, rfl⟩ := List.mem_map.mp h
        exact .inl hi

end SchemaCodeGen.Compilation
