import Codelab.Algo.QuickSort

/-! `qselect`. Its `select` goes on with one side of what `divide` leaves, also when that side
has one element or none. -/

namespace Codelab.Algo

open Total Contents

variable {first last l u j k : Int}

/-- `select` with at most `depth` calls nested in each other. -/
def selectWithin : ℕ → IntArray first last → Int → Int → Int →
    Except Fault (IntArray first last × Int)
  | 0, _, _, _, _ => .error .unfinished
  | depth + 1, arr, l, u, k =>
    if l > u then pure (arr, -1)
    else do
      let (arr, j) ← divide arr l u
      if j = k then pure (arr, j)
      else if j > k then do
        selectWithin depth arr l (← int (j - 1)) k
      else do
        selectWithin depth arr (← int (j + 1)) u k

/-- A nested call has a shorter range. -/
def select (arr : IntArray first last) (l u k : Int) : Except Fault (IntArray first last × Int) :=
  selectWithin ((u + 1 - l).toNat + 1) arr l u k

def qselect (arr : IntArray first last) (len k : Int) :
    Except Fault (IntArray first last × Int) := do
  if (← int (k + 1)) > len then pure (arr, -1)
  else select arr 0 (← int (len - 1)) k

/-- `select` returns `k` and puts the right element there if `k` is in the range. -/
structure Selected (a cell : Int → Int) (l u k r : Int) : Prop
    extends Rearranged a cell (Finset.Icc l u) where
  found : l ≤ k → k ≤ u → r = k ∧ (∀ i, l ≤ i → i < k → cell i ≤ cell k) ∧
    ∀ i, k < i → i ≤ u → cell k ≤ cell i
  missed : k < l ∨ u < k → r = -1

theorem Divided.left {a b c : Int → Int} {r : Int} (h : Divided a b l u j) (before : k < j)
    (rest : Selected b c l (j - 1) k r) : Selected a c l u k r := by
  obtain ⟨start, stop⟩ := h.inside
  have part : Finset.Icc l (j - 1) ⊆ Finset.Icc l u := Finset.Icc_subset_Icc le_rfl (by omega)
  have low : ∀ i ∈ Finset.Icc l (j - 1), c i ≤ b j := by
    refine rest.forall_mem (p := (· ≤ b j)) fun i hi => ?_
    rw [Finset.mem_Icc] at hi
    exact h.low i hi.1 (by omega)
  refine ⟨h.toRearranged.trans (rest.widen part), fun lowK highK => ?_,
    fun out => rest.missed (by omega)⟩
  obtain ⟨result, below, above⟩ := rest.found lowK (by omega)
  refine ⟨result, below, fun i later inside => ?_⟩
  by_cases near : i < j
  · exact above i later (by omega)
  · have least := low k (Finset.mem_Icc.mpr ⟨lowK, by omega⟩)
    rw [rest.others i (by rw [Finset.mem_Icc]; omega)]
    by_cases here : i = j
    · rw [here]
      exact least
    · exact least.trans (h.high i (by omega) inside)

theorem Divided.right {a b c : Int → Int} {r : Int} (h : Divided a b l u j) (after : j < k)
    (rest : Selected b c (j + 1) u k r) : Selected a c l u k r := by
  obtain ⟨start, stop⟩ := h.inside
  have part : Finset.Icc (j + 1) u ⊆ Finset.Icc l u := Finset.Icc_subset_Icc (by omega) le_rfl
  have high : ∀ i ∈ Finset.Icc (j + 1) u, b j ≤ c i := by
    refine rest.forall_mem (p := (b j ≤ ·)) fun i hi => ?_
    rw [Finset.mem_Icc] at hi
    exact h.high i (by omega) hi.2
  refine ⟨h.toRearranged.trans (rest.widen part), fun lowK highK => ?_,
    fun out => rest.missed (by omega)⟩
  obtain ⟨result, below, above⟩ := rest.found (by omega) highK
  refine ⟨result, fun i inside earlier => ?_, above⟩
  by_cases near : j < i
  · exact below i (by omega) earlier
  · have greatest := high k (Finset.mem_Icc.mpr ⟨by omega, highK⟩)
    rw [rest.others i (by rw [Finset.mem_Icc]; omega)]
    by_cases here : i = j
    · rw [here]
      exact greatest
    · exact (h.low i inside (by omega)).trans greatest

theorem selectWithin_returns {depth : ℕ} {arr : IntArray first last} (low : first ≤ l)
    (high : u ≤ last) (small : intMin < l) (room : u < intMax)
    (enough : (u + 1 - l).toNat < depth) :
    Returns (selectWithin depth arr l u k) fun r => Selected arr.cell r.1.cell l u k r.2 := by
  induction depth generalizing arr l u with
  | zero => exact absurd enough (Nat.not_lt_zero _)
  | succ depth ih =>
    rw [selectWithin]
    by_cases empty : l > u
    · rw [if_pos empty]
      exact .pure ⟨.refl, fun _ _ => by omega, fun _ => rfl⟩
    · rw [if_neg empty]
      refine (divide_returns low (by omega) high (by omega) room).bind fun r divided => ?_
      obtain ⟨arr₁, j⟩ := r
      change Divided arr.cell arr₁.cell l u j at divided
      obtain ⟨start, stop⟩ := divided.inside
      simp only
      by_cases here : j = k
      · rw [if_pos here]
        subst here
        exact .pure ⟨divided.toRearranged,
          fun _ _ => ⟨rfl, fun i => divided.low i, fun i => divided.high i⟩, fun out => by omega⟩
      · rw [if_neg here]
        by_cases before : j > k
        · rw [if_pos before]
          refine .bind_ok (int_ok (by omega) (by omega)) ?_
          exact (ih low (by omega) small (by omega) (by omega)).mono fun r rest =>
            divided.left before rest
        · rw [if_neg before]
          refine .bind_ok (int_ok (by omega) (by omega)) ?_
          exact (ih (by omega) high (by omega) room (by omega)).mono fun r rest =>
            divided.right (by omega) rest

/-- The place of the selected element in the sorted order. -/
theorem Selected.rank {a cell : Int → Int} {len r : Int} (h : Selected a cell 0 (len - 1) k r)
    (low : 0 ≤ k) (high : k < len) :
    (contents a (Finset.Icc 0 (len - 1))).sort[k.toNat]? = some (cell k) := by
  obtain ⟨-, below, above⟩ := h.found low (by omega)
  have parts : Finset.Icc 0 (len - 1) =
      Finset.Icc 0 (k - 1) ∪ insert k (Finset.Icc (k + 1) (len - 1)) := by
    ext i
    simp only [Finset.mem_union, Finset.mem_insert, Finset.mem_Icc]
    omega
  have apart : Disjoint (Finset.Icc 0 (k - 1)) (insert k (Finset.Icc (k + 1) (len - 1))) := by
    rw [Finset.disjoint_left]
    intro i
    simp only [Finset.mem_insert, Finset.mem_Icc]
    omega
  have count : k.toNat = (Finset.Icc 0 (k - 1)).card := by
    rw [Int.card_Icc]
    omega
  rw [← h.same, parts, contents_union apart, contents_insert (by rw [Finset.mem_Icc]; omega), count]
  refine sort_contents_rank (fun i hi => ?_) fun i hi => ?_
  · rw [Finset.mem_Icc] at hi
    exact below i hi.1 (by omega)
  · rw [Finset.mem_Icc] at hi
    exact above i (by omega) hi.2

/-- `qselect` finds the element of rank `k` of every array, whose length is an `int`, and refuses
a `k` that is out of range. -/
theorem qselect_selects {len : Int} (fits : len ≤ intMax)
    (arr : IntArray 0 (len - 1)) (low : intMin ≤ k) (high : k < intMax) :
    ∃ arr' r, qselect arr len k = .ok (arr', r) ∧
      contents arr'.cell (Finset.Icc 0 (len - 1)) = contents arr.cell (Finset.Icc 0 (len - 1)) ∧
      (0 ≤ k ∧ k < len → r = k ∧
        (contents arr.cell (Finset.Icc 0 (len - 1))).sort[k.toNat]? = some (arr'.cell k) ∧
        (∀ i, 0 ≤ i → i < k → arr'.cell i ≤ arr'.cell k) ∧
        ∀ i, k < i → i < len → arr'.cell k ≤ arr'.cell i) ∧
      (k < 0 ∨ len ≤ k → r = -1) := by
  have negative := intMin_neg
  by_cases beyond : k + 1 > len
  · refine ⟨arr, -1, ?_, rfl, fun inside => by omega, fun _ => rfl⟩
    simp only [qselect, int_ok (show intMin ≤ k + 1 by omega) (by omega), bind, Except.bind,
      if_pos beyond]
    rfl
  · have selects : Returns (qselect arr len k) fun r =>
        Selected arr.cell r.1.cell 0 (len - 1) k r.2 := by
      refine .bind_ok (int_ok (by omega) (by omega)) ?_
      rw [if_neg beyond]
      refine .bind_ok (int_ok (by omega) (by omega)) ?_
      exact selectWithin_returns le_rfl le_rfl (by omega) (by omega) (Nat.lt_succ_self _)
    obtain ⟨⟨arr', r⟩, run, selected⟩ := selects.eq_ok
    refine ⟨arr', r, run, selected.same, fun inside => ?_, fun out => selected.missed (by omega)⟩
    obtain ⟨result, below, above⟩ := selected.found inside.1 (by omega)
    exact ⟨result, selected.rank inside.1 inside.2, below, fun i later inside =>
      above i later (by omega)⟩

/-- The fourth smallest element of the array of `main`. -/
theorem qselect_selects_main :
    let arr : IntArray 0 (10 - 1) := { cell := fun i => [7, 9, 3, 0, 1, 6, 2, 4, 5, 8][i.toNat]! }
    ∃ arr' r, qselect arr 10 3 = .ok (arr', r) ∧
      contents arr'.cell (Finset.Icc 0 (10 - 1)) = contents arr.cell (Finset.Icc 0 (10 - 1)) ∧
      (0 ≤ (3 : Int) ∧ (3 : Int) < 10 → r = 3 ∧
        (contents arr.cell (Finset.Icc 0 (10 - 1))).sort[(3 : Int).toNat]? = some (arr'.cell 3) ∧
        (∀ i, 0 ≤ i → i < 3 → arr'.cell i ≤ arr'.cell 3) ∧
        ∀ i, 3 < i → i < 10 → arr'.cell 3 ≤ arr'.cell i) ∧
      ((3 : Int) < 0 ∨ (10 : Int) ≤ 3 → r = -1) :=
  qselect_selects (by decide) _ (by decide) (by decide)

end Codelab.Algo
