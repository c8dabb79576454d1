import Codelab.Algo.IntArray

/-! `bsearch`. Both ends of the range move past the middle; whatever lies outside of it is less
than `val` on the left and greater on the right. -/

namespace Codelab.Algo

open Total

variable {len val : Int}

def bsearch (arr : IntArray 0 (len - 1)) (val : Int) : Except Fault Int := do
  let u ← int (len - 1)
  loop (fun (l, u) =>
    if l ≤ u then do
      let mid ← middle l u
      let x ← arr.read mid
      if x = val then
        pure (.inr mid)
      else do
        let x ← arr.read mid
        if x > val then do
          pure (.inl (l, ← int (mid - 1)))
        else do
          pure (.inl (← int (mid + 1), u))
    else pure (.inr (-1))) .unfinished ((u + 1).toNat + 1) (0, u)

/-- `val` can only be in the range from `l` to `u`. -/
structure Narrowed (arr : IntArray 0 (len - 1)) (val l u : Int) : Prop where
  start : 0 ≤ l
  order : l ≤ u + 1
  stop : u < len
  below : ∀ i, 0 ≤ i → i < l → arr.cell i < val
  above : ∀ i, u < i → i < len → val < arr.cell i

theorem Narrowed.absent {arr : IntArray 0 (len - 1)} {l u : Int} (h : Narrowed arr val l u)
    (empty : ¬ l ≤ u) : ∀ i, 0 ≤ i → i < len → arr.cell i ≠ val := by
  intro i low high
  by_cases left : i < l
  · exact (h.below i low left).ne
  · exact (h.above i (by omega) high).ne'

theorem Narrowed.left {arr : IntArray 0 (len - 1)} {l u mid : Int} (h : Narrowed arr val l u)
    (sorted : MonotoneOn arr.cell (Set.Icc 0 (len - 1))) (low : l ≤ mid) (high : mid ≤ u)
    (greater : val < arr.cell mid) : Narrowed arr val l (mid - 1) := by
  have start := h.start
  have stop := h.stop
  refine ⟨start, by omega, by omega, h.below, fun i after inside => ?_⟩
  exact greater.trans_le (sorted ⟨by omega, by omega⟩ ⟨by omega, by omega⟩ (by omega))

theorem Narrowed.right {arr : IntArray 0 (len - 1)} {l u mid : Int} (h : Narrowed arr val l u)
    (sorted : MonotoneOn arr.cell (Set.Icc 0 (len - 1))) (low : l ≤ mid) (high : mid ≤ u)
    (less : arr.cell mid < val) : Narrowed arr val (mid + 1) u := by
  have start := h.start
  have stop := h.stop
  refine ⟨by omega, by omega, stop, fun i from' before => ?_, h.above⟩
  exact (sorted ⟨from', by omega⟩ ⟨by omega, by omega⟩ (by omega)).trans_lt less

/-- `bsearch` ends without a fault, with a place of `val` or, if there is none, with -1. -/
theorem bsearch_exact (nonneg : 0 ≤ len) (fits : len ≤ intMax) (arr : IntArray 0 (len - 1))
    (sorted : MonotoneOn arr.cell (Set.Icc 0 (len - 1))) :
    Returns (bsearch arr val) fun r =>
      (r = -1 ∧ ∀ i, 0 ≤ i → i < len → arr.cell i ≠ val) ∨
        (0 ≤ r ∧ r < len ∧ arr.cell r = val) := by
  have negative : intMin < -1 := by decide
  refine .bind_ok (int_ok (by omega) (by omega)) ?_
  refine loop_outcome (fun s => Narrowed arr val s.1 s.2) (fun s => (s.2 + 1 - s.1).toNat)
    (fun s inv => ?_)
    ⟨le_rfl, by simp only; omega, by simp only; omega, by simp only; omega, by simp only; omega⟩
    (by simp only; omega)
  obtain ⟨l, u⟩ := s
  have start : 0 ≤ l := inv.start
  have stop : u < len := inv.stop
  by_cases more : l ≤ u
  · simp only [if_pos more]
    refine (middle_returns start more (by omega)).bind fun mid ⟨low, high, _⟩ => ?_
    have read : arr.read mid = .ok (arr.cell mid) := IntArray.read_ok (by omega) (by omega)
    refine .bind_ok read ?_
    by_cases here : arr.cell mid = val
    · rw [if_pos here]
      exact .pure (.inr ⟨by omega, by omega, here⟩)
    · rw [if_neg here]
      refine .bind_ok read ?_
      by_cases greater : arr.cell mid > val
      · rw [if_pos greater]
        refine .bind_ok (int_ok (by omega) (by omega)) (.pure ?_)
        exact ⟨inv.left sorted low high greater, by simp only; omega⟩
      · rw [if_neg greater]
        refine .bind_ok (int_ok (by omega) (by omega)) (.pure ?_)
        exact ⟨inv.right sorted low high (lt_of_le_of_ne (not_lt.mp greater) here),
          by simp only; omega⟩
  · simp only [if_neg more]
    exact .pure (.inl ⟨rfl, inv.absent more⟩)

/-- The array of `main`. -/
def searchedArr : IntArray 0 (8 - 1) where
  cell i := i + 1

theorem bsearch_exact_main : Returns (bsearch searchedArr 6) fun r =>
    (r = -1 ∧ ∀ i, 0 ≤ i → i < 8 → searchedArr.cell i ≠ 6) ∨
      (0 ≤ r ∧ r < 8 ∧ searchedArr.cell r = 6) :=
  bsearch_exact (by decide) (by decide) _ fun _ _ _ _ le => Int.add_le_add_right le 1

example : bsearch searchedArr 6 = .ok 5 := rfl

end Codelab.Algo
