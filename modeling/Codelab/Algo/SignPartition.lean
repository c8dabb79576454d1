import Codelab.Algo.IntArray

/-! `partition` of `partition.c`. Its `j` begins at `len + 1`, one further to the right than `i`
to the left, so the scan for a negative element begins with the element at `len`. -/

namespace Codelab.Algo

open Total Contents

variable {first last i j len : Int}

/-- `do { i++; } while (i < j && arr[i] < 0)`. -/
def passNegative (arr : IntArray first last) (i j : Int) : Except Fault Int :=
  loop (fun i => do
    let i ← int (i + 1)
    if i < j then do
      let x ← arr.read i
      pure (if x < 0 then .inl i else .inr i)
    else pure (.inr i)) .unfinished ((j - i).toNat + 1) i

/-- `do { j--; } while (j > i && arr[j] >= 0)`. -/
def passNonNegative (arr : IntArray first last) (i j : Int) : Except Fault Int :=
  loop (fun j => do
    let j ← int (j - 1)
    if j > i then do
      let x ← arr.read j
      pure (if x ≥ 0 then .inl j else .inr j)
    else pure (.inr j)) .unfinished ((j - i).toNat + 1) j

def partition (arr : IntArray first last) (len : Int) :
    Except Fault (IntArray first last × Int) :=
  if len ≤ 1 then pure (arr, 0)
  else do
    let j ← int (len + 1)
    loop (fun (arr, i, j) => do
      let i ← passNegative arr i j
      let j ← passNonNegative arr i j
      if i > j then pure (.inr (arr, j))
      else do
        let arr ← arr.swap i j
        pure (.inl (arr, i, j))) .unfinished ((len + 1).toNat + 1) (arr, -1, j)

/-- The first scan stays within the array only if it finds an element that is not negative. -/
theorem passNegative_outcome {arr : IntArray 0 (len - 1)} (some' : 0 < len)
    (room : len < intMax) :
    Outcome (passNegative arr (-1) (len + 1)) (fun i => 0 ≤ i ∧ i < len) (· = .outOfBounds) := by
  have negative := intMin_neg
  refine loop_outcome (fun i => -1 ≤ i ∧ i < len) (fun i => (len + 1 - i).toNat)
    (fun i inv => ?_) ⟨le_rfl, by omega⟩ (Nat.lt_succ_self _)
  obtain ⟨start, stop⟩ := inv
  refine .bind_ok (int_ok (by omega) (by omega)) ?_
  rw [if_pos (by omega)]
  by_cases inside : i + 1 < len
  · refine .bind_ok (IntArray.read_ok (by omega) (by omega)) (.pure ?_)
    by_cases less : arr.cell (i + 1) < 0
    · rw [if_pos less]
      exact ⟨⟨by omega, inside⟩, by omega⟩
    · rw [if_neg less]
      exact ⟨by omega, inside⟩
  · exact .bind_error (IntArray.read_error (.inr (by omega))) rfl

/-- The second scan begins with an element that the array does not have. -/
theorem passNonNegative_outcome {arr : IntArray 0 (len - 1)} (start : 0 ≤ i) (stop : i < len)
    (room : len < intMax) :
    Outcome (passNonNegative arr i (len + 1)) (fun _ => False) (· = .outOfBounds) := by
  have negative := intMin_neg
  refine loop_round (.bind_ok (int_ok (by omega) (by omega)) ?_)
  rw [add_sub_cancel_right, if_pos stop]
  exact .bind_error (IntArray.read_error (.inr (by omega))) rfl

theorem partition_outOfBounds {arr : IntArray 0 (len - 1)} (long : 1 < len)
    (room : len < intMax) : partition arr len = .error .outOfBounds := by
  have negative := intMin_neg
  refine Outcome.eq_error ?_
  rw [partition, if_neg (not_le.mpr long)]
  refine .bind_ok (int_ok (by omega) (by omega)) (loop_round ?_)
  refine (passNegative_outcome (by omega) room).bind fun i ⟨start, stop⟩ => ?_
  exact (passNonNegative_outcome start stop room).bind fun _ met => met.elim

theorem partition_overflow {arr : IntArray first last} (most : len = intMax) :
    partition arr len = .error .overflow := by
  have long : ¬len ≤ 1 := most ▸ by decide
  refine Outcome.eq_error ?_
  rw [partition, if_neg long]
  exact .bind_error (int_error (.inr (by omega))) rfl

/-- `partition` puts the negative elements first exactly if its array has one element and that
is negative: it looks at no element of a shorter array and not even at this one, and in every
longer array it reads one element too many. -/
theorem partition_splits_iff (nonneg : 0 ≤ len) (fits : len ≤ intMax) (arr : IntArray 0 (len - 1)) :
    (∃ arr' p, partition arr len = .ok (arr', p) ∧
      contents arr'.cell (Finset.Icc 0 (len - 1)) = contents arr.cell (Finset.Icc 0 (len - 1)) ∧
      -1 ≤ p ∧ p < len ∧ (∀ i, 0 ≤ i → i ≤ p → arr'.cell i < 0) ∧
      ∀ i, p < i → i < len → 0 ≤ arr'.cell i) ↔
    len = 1 ∧ arr.cell 0 < 0 := by
  constructor
  · rintro ⟨arr', p, run, -, -, inside, below, -⟩
    by_cases long : 1 < len
    · by_cases room : len < intMax
      · rw [partition_outOfBounds long room] at run
        exact nomatch run
      · rw [partition_overflow (by omega)] at run
        exact nomatch run
    · rw [partition, if_pos (by omega)] at run
      obtain ⟨rfl, rfl⟩ := Prod.mk.inj (Except.ok.inj run)
      exact ⟨by omega, below 0 le_rfl le_rfl⟩
  · rintro ⟨single, less⟩
    refine ⟨arr, 0, if_pos single.le, rfl, by omega, by omega, fun i low high => ?_,
      fun i low high => by omega⟩
    rw [show i = 0 by omega]
    exact less

theorem partition_splits_iff_single :
    let arr : IntArray 0 (1 - 1) := { cell := fun _ => -4 }
    (∃ arr' p, partition arr 1 = .ok (arr', p) ∧
      contents arr'.cell (Finset.Icc 0 (1 - 1)) = contents arr.cell (Finset.Icc 0 (1 - 1)) ∧
      -1 ≤ p ∧ p < 1 ∧ (∀ i, 0 ≤ i → i ≤ p → arr'.cell i < 0) ∧
      ∀ i, p < i → i < 1 → 0 ≤ arr'.cell i) ↔
    (1 : Int) = 1 ∧ arr.cell 0 < 0 :=
  partition_splits_iff (by decide) (by decide) _

/-- The array of `main`. -/
theorem partition_splits_not_main :
    let arr : IntArray 0 (10 - 1) :=
      { cell := fun i => [1, 4, -4, 0, 8, -5, 0, 7, -12, 55][i.toNat]! }
    ¬ ∃ arr' p, partition arr 10 = .ok (arr', p) ∧
      contents arr'.cell (Finset.Icc 0 (10 - 1)) = contents arr.cell (Finset.Icc 0 (10 - 1)) ∧
      -1 ≤ p ∧ p < 10 ∧ (∀ i, 0 ≤ i → i ≤ p → arr'.cell i < 0) ∧
      ∀ i, p < i → i < 10 → 0 ≤ arr'.cell i := by
  rintro arr ⟨arr', p, run, -⟩
  rw [partition_outOfBounds (by decide) (by decide)] at run
  exact nomatch run

end Codelab.Algo
