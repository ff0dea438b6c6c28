import SchemaCodeGen.Blocks
import SchemaCodeGen.CNumber
import Mathlib.Tactic.NormNum

namespace SchemaCodeGen.FloatMembers

open CString Floats Format Json Schema Emit Fallible Generated Slots Fresh RoundTrip Judge
  Conformance Blocks CNumber

def exact : Number → Ieee
  | .int n => .fin n
  | .double x => x

/-- A number of a document: an integer of one of the four classes, or a double. -/
def IsHeld : Number → Prop
  | .int n => -2 ^ 63 ≤ n ∧ n < 2 ^ 64
  | .double x => x.IsFinite ∧ binary64.Holds x

def formatOf : StandardType → Format
  | .floatType => binary32
  | _ => binary64

/-- No negative integer, and for `float` neither of the two greatest doubles. -/
def Taken (type : StandardType) : Number → Prop
  | .int n => 0 ≤ n
  | .double x => type = .floatType → x ≠ .fin fltMax ∧ x ≠ .fin (-fltMax)

section Limit

def belowMax : ℚ := (2 ^ 24 - 2) * 2 ^ 104

theorem fltMax_eq : fltMax = (2 ^ 24 - 1) * 2 ^ 104 := by
  rw [fltMax, maxFinite, binary32]
  norm_num

theorem floatLimit_eq : floatLimit = 9007198542149684 * 2 ^ 75 := by
  have hlog : Int.log 2 (34028234 * 10 ^ 31 : ℚ) = 127 :=
    intLog_eq (by decide) (by norm_num) (by norm_num) (by norm_num)
  have hulp : binary64.ulpExponent (34028234 * 10 ^ 31) = 75 := by
    rw [ulpExponent, abs_of_pos (by norm_num), hlog]
    rfl
  have hround : roundEven (34028234 * 10 ^ 31 / 2 ^ (75 : Int)) = 9007198542149684 := by
    have hfloor : ⌊(34028234 * 10 ^ 31 / (2 : ℚ) ^ (75 : Int))⌋ = 9007198542149684 := by
      rw [Int.floor_eq_iff]
      norm_num
    rw [roundEven, hfloor]
    norm_num
  have hmax : |((9007198542149684 : Int) * 2 ^ (75 : Int) : ℚ)| ≤ binary64.maxFinite := by
    rw [abs_of_pos (by norm_num), maxFinite, binary64]
    exact mul_le_mul (by norm_num) (zpow_le_zpow_right₀ (by norm_num) (by decide)) (by positivity)
      (by norm_num)
  have hrounded := round_eq (f := binary64) (q := 34028234 * 10 ^ 31) (n := 9007198542149684)
    (hulp ▸ hround) (by decide) (hulp ▸ hmax)
  rw [floatLimit, hrounded, hulp]
  norm_num

theorem belowMax_le_floatLimit : belowMax ≤ floatLimit := by
  rw [belowMax, floatLimit_eq]
  norm_num

theorem floatLimit_lt_fltMax : floatLimit < fltMax := by
  rw [fltMax_eq, floatLimit_eq]
  norm_num

theorem eq_fltMax {q : ℚ} (h : binary32.Representable q) (hq : belowMax < q) : q = fltMax := by
  obtain ⟨m, e, hm, _, hhi, rfl⟩ := h
  have hm' : m ≤ 2 ^ 24 - 1 := by
    have hlt : m < 2 ^ 24 := (abs_lt.mp hm).2
    omega
  have hmq : (m : ℚ) ≤ 2 ^ 24 - 1 := by exact_mod_cast hm'
  rw [belowMax] at hq
  rcases hhi.lt_or_eq with hlt | rfl
  · -- A smaller unit cannot reach that far.
    have hpow : (2 : ℚ) ^ e ≤ 2 ^ (103 : Int) := zpow_le_zpow_right₀ (by norm_num) (Int.le_sub_one_of_lt hlt)
    have hsmall : (m : ℚ) * 2 ^ e ≤ (2 ^ 24 - 1) * 2 ^ (103 : Int) :=
      mul_le_mul hmq hpow (by positivity) (by norm_num)
    exact absurd (hq.trans_le hsmall) (by norm_num)
  · have hpow : (2 : ℚ) ^ binary32.maxExponent = 2 ^ 104 := by
      rw [binary32]
      norm_num
    rw [hpow] at hq ⊢
    have hgt : (2 : ℚ) ^ 24 - 2 < m := lt_of_mul_lt_mul_right hq (by positivity)
    have hgt' : (2 : Int) ^ 24 - 2 < m := by exact_mod_cast hgt
    obtain rfl : m = 2 ^ 24 - 1 := by omega
    rw [fltMax_eq]
    norm_num

theorem abs_le_floatLimit_iff {q : ℚ} (h : binary32.Representable q) :
    -floatLimit ≤ q ∧ q ≤ floatLimit ↔ q ≠ fltMax ∧ q ≠ -fltMax := by
  constructor
  · rintro ⟨hlo, hhi⟩
    constructor
    · rintro rfl
      exact absurd hhi (not_le.mpr floatLimit_lt_fltMax)
    · rintro rfl
      exact absurd (neg_le_neg_iff.mp hlo) (not_le.mpr floatLimit_lt_fltMax)
  · rintro ⟨hmax, hmin⟩
    constructor
    · by_contra hlt
      have hneg : binary32.Representable (-q) := by
        obtain ⟨m, e, hm, hlo, hhi, rfl⟩ := h
        exact ⟨-m, e, by rwa [abs_neg], hlo, hhi, by push_cast; ring⟩
      have hbelow : belowMax < -q := belowMax_le_floatLimit.trans_lt (by linarith)
      exact hmin (by rw [← eq_fltMax hneg hbelow, neg_neg])
    · by_contra hlt
      exact hmax (eq_fltMax h (belowMax_le_floatLimit.trans_lt (not_le.mp hlt)))

end Limit

section Members

variable {b : Build} {chain : List Object} {i : MemberVariable} {num : Number} {type : StandardType}

theorem readChecked_int (htype : type = .floatType ∨ type = .doubleType) {n : Int}
    (hn : -2 ^ 63 ≤ n ∧ n < 2 ^ 64) (hrep : (formatOf type).Holds (.fin n)) :
    readChecked type (.number (.int n)) = .ok (.real (.fin n)) ↔ 0 ≤ n := by
  have hread : readChecked type (.number (.int n)) =
      (orHalt .misuse (if 0 ≤ n ∧ n < 2 ^ 64 then some n else none)) >>= fun m =>
        .ok (.real ((formatOf type).round m)) := by
    rcases htype with rfl | rfl <;> rfl
  rw [hread]
  by_cases h : 0 ≤ n
  · rw [if_pos ⟨h, hn.2⟩, orHalt_some, ok_bind, round_of_representable hrep]
    exact iff_of_true rfl h
  · rw [if_neg fun hpos => h hpos.1]
    exact iff_of_false (by simp) h

theorem readChecked_double (htype : type = .floatType ∨ type = .doubleType) {x : Ieee}
    (hx : x.IsFinite) (hrep : (formatOf type).Holds x) :
    readChecked type (.number (.double x)) = .ok (.real x) ↔
      (type = .floatType → x ≠ .fin fltMax ∧ x ≠ .fin (-fltMax)) := by
  rcases htype with rfl | rfl
  · have hread : readChecked .floatType (.number (.double x)) =
        if x.between (-floatLimit) floatLimit then .ok (.real (binary32.narrow x))
        else .error .misuse := rfl
    have hlimit : x.between (-floatLimit) floatLimit = true ↔ x ≠ .fin fltMax ∧ x ≠ .fin (-fltMax) := by
      cases x with
      | fin q => simpa [Ieee.between] using abs_le_floatLimit_iff hrep
      | negZero =>
          have hpos : 0 ≤ floatLimit := by
            rw [floatLimit_eq]
            positivity
          simp [Ieee.between, hpos]
      | nan | inf _ => exact absurd hx (by simp [Ieee.IsFinite])
    rw [hread, narrow_of_holds (f := binary32) hrep, ← hlimit]
    split_ifs with h <;> simp [h]
  · have hread : readChecked .doubleType (.number (.double x)) = .ok (.real x) := rfl
    simp [hread]

/-- A number that a member can hold is stored in it exactly when it is no negative integer and,
in a `float`, neither of the two greatest doubles. -/
theorem stores_number_iff (b : Build) (chain : List Object) (i : MemberVariable) (num : Number)
    (htype : getStandardType i.mType = .floatType ∨ getStandardType i.mType = .doubleType)
    (ha : i.mIsArray = false) (hheld : IsHeld num)
    (hrep : (formatOf (getStandardType i.mType)).Holds (exact num)) :
    Stores b chain i (.number num) (.real (exact num)) ↔
      i.mIsMap = false ∧ i.mIsPointer = false ∧ Taken (getStandardType i.mType) num := by
  have hknown : getStandardType i.mType ≠ .none := by
    rcases htype with h | h <;> simp [h]
  have hread : ∀ call, readMember b call i (.number num) =
      readChecked (getStandardType i.mType) (.number num) := by
    intro call
    have hnumeric : isNumeric (getStandardType i.mType) = false := by
      rcases htype with h | h <;> rw [h] <;> rfl
    rw [readMember, if_pos hknown, if_neg (by simp [hnumeric])]
  have hchecked : readChecked (getStandardType i.mType) (.number num) = .ok (.real (exact num)) ↔
      Taken (getStandardType i.mType) num := by
    cases num with
    | int n => exact readChecked_int htype hheld hrep
    | double x => exact readChecked_double htype hheld.1 hrep
  constructor
  · intro h
    have hm := h.no_map hknown Datum.noConfusion
    have hall := (stores_iff_read ⟨.inl hknown, h.form⟩ ha hm).mp h fun _ _ _ => .error .fuel
    exact ⟨hm, noPointer_of_form h.form ha, hchecked.mp (hread _ ▸ hall)⟩
  · rintro ⟨hm, hp, htaken⟩
    rw [stores_iff_read ⟨.inl hknown, form_of_noPointer hp⟩ ha hm]
    intro call
    rw [hread, hchecked.mpr htaken]

end Members

section Examples

def offsetItem : MemberVariable where
  mMember := "offset".toList
  mType := "float".toList

def probe : Object where
  mName := "Probe".toList
  mType := "Class".toList
  mIsClass := true
  mItems := [offsetItem]

def probes : Build where
  dom := { mObjects := [probe] }
  constant := fun _ _ => 0
  initial := fun _ => .int 0

theorem holds_int {n : Int} (hn : |n| < 2 ^ 24) : binary32.Holds (.fin n) :=
  ⟨n, 0, hn, by decide, by decide, by simp⟩

theorem stores_offset : Stores probes [probe] offsetItem (.number (.int 7)) (.real (exact (.int 7))) ↔
    offsetItem.mIsMap = false ∧ offsetItem.mIsPointer = false ∧ Taken (getStandardType offsetItem.mType) (.int 7) :=
  stores_number_iff probes [probe] offsetItem (.int 7) (.inl rfl) rfl ⟨by decide, by decide⟩
    (holds_int (by decide))

/-- A negative integer is read with the accessor of unsigned ones, which asserts. -/
theorem deserialize_offset :
    deserialize probes 2 "Probe".toList (.object [("offset".toList, .number (.int (-1)))]) =
        .error .misuse ∧
      binary32.Holds (exact (.int (-1))) ∧
      ¬ Stores probes [probe] offsetItem (.number (.int (-1))) (.real (exact (.int (-1)))) := by
  refine ⟨rfl, holds_int (by decide), fun h => ?_⟩
  have hmisuse : deserializeItem probes (fun _ _ _ => .error .fuel) [probe]
      (.object [(offsetItem.mMember, .number (.int (-1)))]) (fun _ _ => .empty) offsetItem =
        .error .misuse := rfl
  exact absurd (hmisuse.symm.trans (h.alone fun _ _ _ => .error .fuel)) (by simp)

end Examples

end SchemaCodeGen.FloatMembers
