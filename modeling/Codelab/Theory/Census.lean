import Mathlib.Algebra.BigOperators.Group.Finset.Basic
import Mathlib.Algebra.Order.BigOperators.Group.Finset

/-! The sum of a weight over a finite family (the threads of a machine, the variables of a
program) or over a finite part of one, and what a change of one member does to it. -/

namespace Census

variable {ι α : Type*} {f f' : ι → α} {weight weight' : α → ℕ} {i j : ι} {a : α}

def tally (S : Finset ι) (f : ι → α) (weight : α → ℕ) : ℕ := ∑ i ∈ S, weight (f i)

section

variable [Fintype ι]

def census (f : ι → α) (weight : α → ℕ) : ℕ := ∑ i, weight (f i)

theorem le_census : weight (f i) ≤ census f weight :=
  Finset.single_le_sum (fun j _ => Nat.zero_le (weight (f j))) (Finset.mem_univ i)

theorem census_eq_zero : census f weight = 0 ↔ ∀ i, weight (f i) = 0 := by
  simp [census]

theorem census_pos : 0 < census f weight ↔ ∃ i, 0 < weight (f i) := by
  rw [Nat.pos_iff_ne_zero, ne_eq, census_eq_zero, not_forall]
  exact exists_congr fun i => Nat.pos_iff_ne_zero.symm

theorem census_mono (le : ∀ i, weight (f i) ≤ weight' (f' i)) :
    census f weight ≤ census f' weight' := Finset.sum_le_sum fun i _ => le i

theorem census_congr (same : ∀ i, weight (f' i) = weight (f i)) :
    census f' weight = census f weight := Finset.sum_congr rfl fun i _ => same i

theorem census_le_card {c : ℕ} (le : ∀ j, weight (f j) ≤ c) :
    census f weight ≤ Fintype.card ι * c :=
  Finset.sum_le_card_nsmul _ _ c fun j _ => le j

theorem census_eq_card (one : ∀ i, weight (f i) = 1) : census f weight = Fintype.card ι := by
  simp [census, one]

end

variable [DecidableEq ι]

/-- Moving one member from weight `weight (f i)` to weight `weight a`. -/
theorem tally_update {S : Finset ι} (mem : i ∈ S) :
    tally S (Function.update f i a) weight + weight (f i) = tally S f weight + weight a := by
  have before := Finset.add_sum_erase S (fun j => weight (f j)) mem
  have after := Finset.add_sum_erase S (fun j => weight (Function.update f i a j)) mem
  have others : ∑ j ∈ S.erase i, weight (Function.update f i a j) =
      ∑ j ∈ S.erase i, weight (f j) := by
    apply Finset.sum_congr rfl
    intro j hj
    rw [Function.update_of_ne (Finset.ne_of_mem_erase hj)]
  rw [Function.update_self, others] at after
  rw [tally, tally, ← before, ← after]
  omega

variable [Fintype ι]

theorem census_update :
    census (Function.update f i a) weight + weight (f i) = census f weight + weight a :=
  tally_update (Finset.mem_univ i)

theorem add_le_census (apart : i ≠ j) : weight (f i) + weight (f j) ≤ census f weight := by
  rw [← Finset.sum_pair apart (f := fun i => weight (f i))]
  exact Finset.sum_le_sum_of_subset (Finset.subset_univ {i, j})

/-- A sum of one comes from a single member. -/
theorem census_eq_one (one : census f weight = 1) :
    ∃ i, weight (f i) = 1 ∧ ∀ j, j ≠ i → weight (f j) = 0 := by
  obtain ⟨i, pos⟩ : ∃ i, 0 < weight (f i) := census_pos.mp (by omega)
  have le : weight (f i) ≤ census f weight := le_census
  refine ⟨i, by omega, fun j apart => ?_⟩
  have both : weight (f j) + weight (f i) ≤ census f weight := add_le_census apart
  omega

theorem census_update_same (same : weight a = weight (f i)) :
    census (Function.update f i a) weight = census f weight := by
  have moved : census (Function.update f i a) weight + weight (f i) = _ := census_update
  omega

end Census
