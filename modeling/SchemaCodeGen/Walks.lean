import Mathlib.Data.Fintype.Pigeonhole
import Mathlib.Data.Set.Finite.Basic
import Mathlib.Logic.Relation

namespace SchemaCodeGen.Walks

open Relation

variable {α : Type} (next : α → Option α)

def after : Nat → α → Option α
  | 0, a => some a
  | n + 1, a => (next a).bind (after n)

def Step (a b : α) : Prop := next a = some b

def Ends (a : α) : Prop := ∃ n, after next n a = none

/-- Nothing the walk from `a` meets is met again. -/
def Acyclic (a : α) : Prop := ∀ b, ReflTransGen (Step next) a b → ¬ TransGen (Step next) b b

variable {next} {a b : α}

theorem after_add (m n : Nat) (a : α) :
    after next (m + n) a = (after next m a).bind (after next n) := by
  induction m generalizing a with
  | zero => rw [Nat.zero_add]; rfl
  | succ m ih =>
      rw [Nat.succ_add]
      cases h : next a with
      | none => simp [after, h]
      | some c => simp [after, h, ih]

theorem after_none_of_le {m n : Nat} (h : after next m a = none) (hmn : m ≤ n) :
    after next n a = none := by
  obtain ⟨k, rfl⟩ := Nat.exists_eq_add_of_le hmn
  rw [after_add, h]
  rfl

theorem reflTransGen_iff : ReflTransGen (Step next) a b ↔ ∃ n, after next n a = some b := by
  constructor
  · intro h
    induction h using ReflTransGen.head_induction_on with
    | refl => exact ⟨0, rfl⟩
    | head hstep _ ih =>
        obtain ⟨n, hn⟩ := ih
        refine ⟨n + 1, ?_⟩
        rw [after, hstep]
        exact hn
  · rintro ⟨n, hn⟩
    induction n generalizing a with
    | zero =>
        obtain rfl := Option.some.inj hn
        exact .refl
    | succ n ih =>
        obtain ⟨c, hc, hn⟩ := Option.bind_eq_some_iff.mp hn
        exact .head hc (ih hn)

theorem transGen_iff : TransGen (Step next) a b ↔ ∃ n, after next (n + 1) a = some b := by
  rw [TransGen.head'_iff]
  constructor
  · rintro ⟨c, hc, hb⟩
    obtain ⟨n, hn⟩ := reflTransGen_iff.mp hb
    refine ⟨n, ?_⟩
    rw [after, hc]
    exact hn
  · rintro ⟨n, hn⟩
    obtain ⟨c, hc, hn⟩ := Option.bind_eq_some_iff.mp hn
    exact ⟨c, hc, reflTransGen_iff.mpr ⟨n, hn⟩⟩

theorem Ends.acyclic (h : Ends next a) : Acyclic next a := by
  intro b hb hcycle
  obtain ⟨m, hm⟩ := reflTransGen_iff.mp hb
  obtain ⟨k, hk⟩ := transGen_iff.mp hcycle
  obtain ⟨n, hn⟩ := h
  have hround : ∀ i, after next (m + i * (k + 1)) a = some b := by
    intro i
    induction i with
    | zero => simpa using hm
    | succ i ih =>
        have hsucc : m + (i + 1) * (k + 1) = (m + i * (k + 1)) + (k + 1) := by
          rw [Nat.succ_mul, Nat.add_assoc]
        rw [hsucc, after_add, ih]
        exact hk
  have hle : n ≤ m + n * (k + 1) :=
    (Nat.le_mul_of_pos_right n (Nat.succ_pos k)).trans (Nat.le_add_left _ _)
  exact absurd ((after_none_of_le hn hle).symm.trans (hround n)) (by simp)

theorem Acyclic.ends (hfin : {b | ∃ a, next a = some b}.Finite) (h : Acyclic next a) : Ends next a := by
  by_contra hforever
  have hsome : ∀ n, ∃ b, after next n a = some b := by
    intro n
    rw [← Option.ne_none_iff_exists']
    exact fun hn => hforever ⟨n, hn⟩
  choose place hplace using hsome
  have hmem : ∀ n, place (n + 1) ∈ {b | ∃ a, next a = some b} := by
    intro n
    have hlast := hplace (n + 1)
    rw [after_add, hplace n] at hlast
    exact ⟨place n, by simpa [after] using hlast⟩
  have := hfin.to_subtype
  obtain ⟨i, j, hne, heq⟩ := Finite.exists_ne_map_eq_of_infinite
    fun n : Nat => (⟨place (n + 1), hmem n⟩ : {b | ∃ a, next a = some b})
  have heq : place (i + 1) = place (j + 1) := congrArg Subtype.val heq
  -- The earlier of the two times comes back after the difference.
  have hback : ∀ i j, i < j → place (i + 1) = place (j + 1) → False := by
    intro i j hij heq
    have hlater := hplace (j + 1)
    rw [show j + 1 = (i + 1) + (j - i - 1 + 1) by omega, after_add, hplace (i + 1)] at hlater
    rw [show (i + 1) + (j - i - 1 + 1) = j + 1 by omega, ← heq] at hlater
    exact h _ (reflTransGen_iff.mpr ⟨i + 1, hplace (i + 1)⟩) (transGen_iff.mpr ⟨_, hlater⟩)
  rcases Nat.lt_or_gt_of_ne hne with hij | hji
  · exact hback i j hij heq
  · exact hback j i hji heq.symm

theorem ends_iff (hfin : {b | ∃ a, next a = some b}.Finite) : Ends next a ↔ Acyclic next a :=
  ⟨Ends.acyclic, Acyclic.ends hfin⟩

end SchemaCodeGen.Walks
