import Codelab.Algo.IntArray

/-! `lower_bound`. Its loop comes to the place of the first element that is not less than `val`,
which is one behind the last element if there is none; that place is read then. -/

namespace Codelab.Algo

open Total Contents

variable {first last len val : Int}

/-- The loop, from `l` and `u` on, and the `l` it ends with. -/
def narrow (arr : IntArray first last) (l u val : Int) : Except Fault Int :=
  loop (fun (l, u) =>
    if l ≤ u then do
      let mid ← middle l u
      let x ← arr.read mid
      if x < val then do
        pure (.inl (← int (mid + 1), u))
      else do
        pure (.inl (l, ← int (mid - 1)))
    else pure (.inr l)) .unfinished ((u + 1 - l).toNat + 1) (l, u)

def lowerBound (arr : IntArray first last) (len val : Int) : Except Fault Int := do
  let l ← narrow arr 0 (← int (len - 1)) val
  let x ← arr.read l
  pure (if x = val then l else -1)

theorem narrow_returns {arr : IntArray 0 (len - 1)} (nonneg : 0 ≤ len) (fits : len ≤ intMax)
    (sorted : MonotoneOn arr.cell (Set.Icc 0 (len - 1))) :
    Returns (narrow arr 0 (len - 1) val) fun l => 0 ≤ l ∧ l ≤ len ∧
      (∀ i, 0 ≤ i → i < l → arr.cell i < val) ∧ ∀ i, l ≤ i → i < len → val ≤ arr.cell i := by
  have negative := intMin_neg
  refine loop_outcome (fun s => 0 ≤ s.1 ∧ s.1 ≤ s.2 + 1 ∧ s.2 < len ∧
    (∀ i, 0 ≤ i → i < s.1 → arr.cell i < val) ∧ ∀ i, s.2 < i → i < len → val ≤ arr.cell i)
    (fun s => (s.2 + 1 - s.1).toNat) (fun s inv => ?_)
    ⟨le_rfl, by simp only; omega, by simp only; omega, by simp only; omega, by simp only; omega⟩
    (Nat.lt_succ_self _)
  obtain ⟨l, u⟩ := s
  obtain ⟨start, order, stop, below, above⟩ := inv
  simp only at start order stop below above
  by_cases more : l ≤ u
  · simp only [if_pos more]
    refine (middle_returns start more (by omega)).bind fun mid ⟨low, high, _⟩ => ?_
    refine .bind_ok (IntArray.read_ok (by omega) (by omega)) ?_
    by_cases less : arr.cell mid < val
    · rw [if_pos less]
      refine .bind_ok (int_ok (by omega) (by omega)) (.pure ?_)
      refine ⟨⟨by simp only; omega, by simp only; omega, stop, fun i from' before => ?_, above⟩,
        by simp only; omega⟩
      simp only at before
      exact (sorted ⟨from', by omega⟩ ⟨by omega, by omega⟩ (by omega)).trans_lt less
    · rw [if_neg less]
      refine .bind_ok (int_ok (by omega) (by omega)) (.pure ?_)
      refine ⟨⟨start, by simp only; omega, by simp only; omega, below, fun i after inside => ?_⟩,
        by simp only; omega⟩
      simp only at after
      exact (not_lt.mp less).trans (sorted ⟨by omega, by omega⟩ ⟨by omega, by omega⟩ (by omega))
  · simp only [if_neg more]
    exact .pure ⟨start, by omega, below, fun i after inside => above i (by omega) inside⟩

/-- `lower_bound` finds the first occurrence exactly if some element is not less than `val`;
otherwise it reads behind the array. -/
theorem lowerBound_finds_iff (nonneg : 0 ≤ len) (fits : len ≤ intMax) (arr : IntArray 0 (len - 1))
    (sorted : MonotoneOn arr.cell (Set.Icc 0 (len - 1))) :
    (∃ r, lowerBound arr len val = .ok r ∧
      ((0 ≤ r ∧ r < len ∧ arr.cell r = val ∧ ∀ i, 0 ≤ i → i < r → arr.cell i ≠ val) ∨
        r = -1 ∧ ∀ i, 0 ≤ i → i < len → arr.cell i ≠ val)) ↔
    ∃ i, 0 ≤ i ∧ i < len ∧ val ≤ arr.cell i := by
  have negative := intMin_neg
  obtain ⟨l, run, start, stop, below, above⟩ :=
    (narrow_returns nonneg fits sorted : Returns (narrow arr 0 (len - 1) val) _).eq_ok
  have reads : lowerBound arr len val =
      arr.read l >>= fun x => pure (if x = val then l else -1) := by
    simp only [lowerBound, int_ok (show intMin ≤ len - 1 by omega) (by omega), run, bind,
      Except.bind]
  rw [reads]
  constructor
  · rintro ⟨r, found, -⟩
    by_contra none'
    have outside : l = len := by
      by_contra inside
      exact none' ⟨l, start, by omega, above l le_rfl (by omega)⟩
    rw [IntArray.read_error (.inr (by omega))] at found
    exact nomatch found
  · rintro ⟨i, low, high, large⟩
    have inside : l < len := by
      by_contra outside
      exact absurd (below i low (by omega)) (not_lt.mpr large)
    rw [IntArray.read_ok start (by omega)]
    by_cases here : arr.cell l = val
    · exact ⟨l, congrArg _ (if_pos here), .inl ⟨start, inside, here,
        fun i low before => (below i low before).ne⟩⟩
    · refine ⟨-1, congrArg _ (if_neg here), .inr ⟨rfl, fun i low high => ?_⟩⟩
      by_cases before : i < l
      · exact (below i low before).ne
      · have larger := (above l le_rfl inside).lt_of_ne' here
        exact (larger.trans_le (sorted ⟨start, by omega⟩ ⟨low, by omega⟩ (not_lt.mp before))).ne'

/-- The array of `main`. -/
def mainArr : IntArray 0 (8 - 1) where
  cell i := [1, 2, 5, 5, 5, 8, 9, 10][i.toNat]!

theorem mainArr_sorted : MonotoneOn mainArr.cell (Set.Icc 0 (8 - 1)) := by
  have pairs : ∀ i j : Fin 8, i ≤ j → mainArr.cell i ≤ mainArr.cell j := by decide
  intro x hx y hy le
  obtain ⟨lowX, highX⟩ := hx
  obtain ⟨lowY, highY⟩ := hy
  lift x to ℕ using lowX
  lift y to ℕ using lowY
  exact pairs ⟨x, by omega⟩ ⟨y, by omega⟩ (by rw [Fin.le_def]; simp only; omega)

theorem lowerBound_finds_iff_main :
    (∃ r, lowerBound mainArr 8 5 = .ok r ∧
      ((0 ≤ r ∧ r < 8 ∧ mainArr.cell r = 5 ∧ ∀ i, 0 ≤ i → i < r → mainArr.cell i ≠ 5) ∨
        r = -1 ∧ ∀ i, 0 ≤ i → i < 8 → mainArr.cell i ≠ 5)) ↔
    ∃ i, 0 ≤ i ∧ i < 8 ∧ 5 ≤ mainArr.cell i :=
  lowerBound_finds_iff (by decide) (by decide) _ mainArr_sorted

/-- A value above all elements. -/
theorem lowerBound_finds_not_above :
    MonotoneOn mainArr.cell (Set.Icc 0 (8 - 1)) ∧
    ¬ ∃ r, lowerBound mainArr 8 11 = .ok r ∧
      ((0 ≤ r ∧ r < 8 ∧ mainArr.cell r = 11 ∧ ∀ i, 0 ≤ i → i < r → mainArr.cell i ≠ 11) ∨
        r = -1 ∧ ∀ i, 0 ≤ i → i < 8 → mainArr.cell i ≠ 11) := by
  have reads : lowerBound mainArr 8 11 = .error .outOfBounds := rfl
  refine ⟨mainArr_sorted, ?_⟩
  rw [reads]
  rintro ⟨r, run, -⟩
  exact nomatch run

end Codelab.Algo
