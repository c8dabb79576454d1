import Codelab.Algo.IntArray

/-! `qsort`. The part before its recursive calls is also that of `select` in `quickselect.c`;
here it is `divide`. Its scans are bounded by the other index on the way up and by the pivot
itself on the way down. -/

namespace Codelab.Algo

open Total Contents

variable {first last l u i j : Int}

/-- `do { i++; } while (i < j && arr[i] < arr[l])`. -/
def ascend (arr : IntArray first last) (l i j : Int) : Except Fault Int :=
  loop (fun i => do
    let i ← int (i + 1)
    if i < j then do
      let x ← arr.read i
      let pivot ← arr.read l
      pure (if x < pivot then .inl i else .inr i)
    else pure (.inr i)) .unfinished ((j - i).toNat + 1) i

/-- `do { j--; } while (arr[j] > arr[l])`. -/
def descend (arr : IntArray first last) (l j : Int) : Except Fault Int :=
  loop (fun j => do
    let j ← int (j - 1)
    let x ← arr.read j
    let pivot ← arr.read l
    pure (if x > pivot then .inl j else .inr j)) .unfinished ((j - l).toNat + 1) j

/-- From `int i = l` to `swap(arr, j, l)`. -/
def divide (arr : IntArray first last) (l u : Int) :
    Except Fault (IntArray first last × Int) := do
  let j ← int (u + 1)
  let (arr, j) ← loop (fun (arr, i, j) => do
    let i ← ascend arr l i j
    let j ← descend arr l j
    if i > j then pure (.inr (arr, j))
    else do
      let arr ← arr.swap i j
      pure (.inl (arr, i, j))) .unfinished ((j - l).toNat + 1) (arr, l, j)
  let arr ← arr.swap j l
  pure (arr, j)

/-- `qsort` with at most `depth` calls nested in each other. -/
def qsortWithin : ℕ → IntArray first last → Int → Int → Except Fault (IntArray first last)
  | 0, _, _, _ => .error .unfinished
  | depth + 1, arr, l, u =>
    if l ≥ u then pure arr
    else do
      let (arr, j) ← divide arr l u
      let arr ← qsortWithin depth arr l (← int (j - 1))
      qsortWithin depth arr (← int (j + 1)) u

/-- A nested call has a shorter range. -/
def qsort (arr : IntArray first last) (l u : Int) : Except Fault (IntArray first last) :=
  qsortWithin ((u - l).toNat + 1) arr l u

theorem ascend_returns {arr : IntArray first last} (low : first ≤ l) (within : l ≤ i)
    (high : j ≤ last + 1) (pivot : l ≤ last) (small : intMin ≤ l) (room : i < intMax)
    (fits : j ≤ intMax) :
    Returns (ascend arr l i j) fun i' => i < i' ∧ (i' ≤ j ∨ i' = i + 1) ∧
      (∀ k, i < k → k < i' → arr.cell k < arr.cell l) ∧ (i' < j → arr.cell l ≤ arr.cell i') := by
  refine loop_outcome
    (fun s => i ≤ s ∧ (s < j ∨ s = i) ∧ ∀ k, i < k → k ≤ s → arr.cell k < arr.cell l)
    (fun s => (j - s).toNat) (fun s inv => ?_) ⟨le_rfl, .inr rfl, by omega⟩ (Nat.lt_succ_self _)
  obtain ⟨passed, short, less⟩ := inv
  refine .bind_ok (int_ok (by omega) (by omega)) ?_
  by_cases more : s + 1 < j
  · rw [if_pos more]
    refine .bind_ok (IntArray.read_ok (by omega) (by omega)) ?_
    refine .bind_ok (IntArray.read_ok low pivot) (.pure ?_)
    by_cases small : arr.cell (s + 1) < arr.cell l
    · rw [if_pos small]
      refine ⟨⟨by omega, .inl more, fun k above below => ?_⟩, by omega⟩
      by_cases new : k = s + 1
      · exact new ▸ small
      · exact less k above (by omega)
    · rw [if_neg small]
      exact ⟨by omega, .inl (by omega), fun k above below => less k above (by omega),
        fun _ => not_lt.mp small⟩
  · rw [if_neg more]
    exact .pure ⟨by omega, by omega, fun k above below => less k above (by omega),
      fun inside => absurd inside more⟩

theorem descend_returns {arr : IntArray first last} (low : first ≤ l) (within : l < j)
    (high : j ≤ last + 1) (small : intMin ≤ l) (fits : j ≤ intMax) :
    Returns (descend arr l j) fun j' => l ≤ j' ∧ j' < j ∧ arr.cell j' ≤ arr.cell l ∧
      ∀ k, j' < k → k < j → arr.cell l < arr.cell k := by
  refine loop_outcome (fun s => l < s ∧ s ≤ j ∧ ∀ k, s ≤ k → k < j → arr.cell l < arr.cell k)
    (fun s => (s - l).toNat) (fun s inv => ?_) ⟨within, le_rfl, by omega⟩ (Nat.lt_succ_self _)
  obtain ⟨above, passed, greater⟩ := inv
  refine .bind_ok (int_ok (by omega) (by omega)) ?_
  refine .bind_ok (IntArray.read_ok (by omega) (by omega)) ?_
  refine .bind_ok (IntArray.read_ok low (by omega)) (.pure ?_)
  by_cases large : arr.cell (s - 1) > arr.cell l
  · rw [if_pos large]
    -- the pivot is not greater than itself, so the scan stops there at the latest
    have apart : s - 1 ≠ l := fun same => lt_irrefl _ (same ▸ large)
    refine ⟨⟨by omega, by omega, fun k from' below => ?_⟩, by omega⟩
    by_cases new : k = s - 1
    · exact new ▸ large
    · exact greater k (by omega) below
  · rw [if_neg large]
    exact ⟨by omega, by omega, not_lt.mp large, fun k above below => greater k (by omega) below⟩

/-- Between two rounds of the loop in `divide`: nothing left of `i` is greater than the pivot,
nothing from `j` on is less. -/
structure Sweep (a cell : Int → Int) (l u i j : Int) : Prop
    extends Rearranged a cell (Finset.Icc l u) where
  start : l ≤ i
  reach : i ≤ u
  apart : l < j
  order : i ≤ j
  stop : j ≤ u + 1
  low : ∀ k, l ≤ k → k ≤ i → cell k ≤ cell l
  high : ∀ k, j ≤ k → k ≤ u → cell l ≤ cell k

/-- What `divide` makes of the elements `l` to `u`: the pivot is at `j`. -/
structure Divided (a cell : Int → Int) (l u j : Int) : Prop
    extends Rearranged a cell (Finset.Icc l u) where
  inside : l ≤ j ∧ j ≤ u
  low : ∀ k, l ≤ k → k < j → cell k ≤ cell j
  high : ∀ k, j < k → k ≤ u → cell j ≤ cell k

/-- The swap at the end of a round. -/
theorem Sweep.swap {a cell : Int → Int} {i' j' : Int} (h : Sweep a cell l u i j) (later : i < i')
    (cross : i' ≤ j') (earlier : j' < j) (up : ∀ k, i < k → k < i' → cell k < cell l)
    (stopI : cell l ≤ cell i') (down : ∀ k, j' < k → k < j → cell l < cell k)
    (stopJ : cell j' ≤ cell l) : Sweep a (cell ∘ Equiv.swap i' j') l u i' j' := by
  have start := h.start
  have stop := h.stop
  have insideI : i' ∈ Finset.Icc l u := Finset.mem_Icc.mpr ⟨by omega, by omega⟩
  have insideJ : j' ∈ Finset.Icc l u := Finset.mem_Icc.mpr ⟨by omega, by omega⟩
  have pivot : (cell ∘ Equiv.swap i' j') l = cell l :=
    congrArg cell (Equiv.swap_apply_of_ne_of_ne (by omega) (by omega))
  refine ⟨h.toRearranged.trans (.swap insideI insideJ), by omega, by omega, by omega, cross,
    by omega, fun k above below => ?_, fun k above below => ?_⟩
  · rw [pivot, Function.comp_apply]
    by_cases new : k = i'
    · rw [new, Equiv.swap_apply_left]
      exact stopJ
    · rw [Equiv.swap_apply_of_ne_of_ne new (by omega)]
      by_cases old : k ≤ i
      · exact h.low k above old
      · exact (up k (by omega) (by omega)).le
  · rw [pivot, Function.comp_apply]
    by_cases new : k = j'
    · rw [new, Equiv.swap_apply_right]
      exact stopI
    · rw [Equiv.swap_apply_of_ne_of_ne (by omega) new]
      by_cases old : j ≤ k
      · exact h.high k old below
      · exact (down k (by omega) (by omega)).le

/-- The end of the loop and the swap that puts the pivot in its place. -/
theorem Sweep.divided {a cell : Int → Int} {i' j' : Int} (h : Sweep a cell l u i j)
    (crossed : j' < i') (from' : l ≤ j') (earlier : j' < j)
    (up : ∀ k, i < k → k < i' → cell k < cell l)
    (down : ∀ k, j' < k → k < j → cell l < cell k) (stopJ : cell j' ≤ cell l) :
    Divided a (cell ∘ Equiv.swap j' l) l u j' := by
  have stop := h.stop
  have insideL : l ∈ Finset.Icc l u := Finset.mem_Icc.mpr ⟨le_rfl, by omega⟩
  have insideJ : j' ∈ Finset.Icc l u := Finset.mem_Icc.mpr ⟨from', by omega⟩
  have pivot : (cell ∘ Equiv.swap j' l) j' = cell l := congrArg cell (Equiv.swap_apply_left j' l)
  refine ⟨h.toRearranged.trans (.swap insideJ insideL), ⟨from', by omega⟩, fun k above below => ?_,
    fun k above below => ?_⟩
  · rw [pivot, Function.comp_apply]
    by_cases new : k = l
    · rw [new, Equiv.swap_apply_right]
      exact stopJ
    · rw [Equiv.swap_apply_of_ne_of_ne (by omega) new]
      by_cases old : k ≤ i
      · exact h.low k above old
      · exact (up k (by omega) (by omega)).le
  · rw [pivot, Function.comp_apply, Equiv.swap_apply_of_ne_of_ne (by omega) (by omega)]
    by_cases old : j ≤ k
    · exact h.high k old below
    · exact (down k above (by omega)).le

theorem divide_returns {arr : IntArray first last} (low : first ≤ l) (range : l ≤ u)
    (high : u ≤ last) (small : intMin ≤ l) (room : u < intMax) :
    Returns (divide arr l u) fun r => Divided arr.cell r.1.cell l u r.2 := by
  refine .bind_ok (int_ok (by omega) (by omega)) ?_
  refine Outcome.bind (p := fun r => ∃ cell, Divided arr.cell (cell ∘ Equiv.swap r.2 l) l u r.2 ∧
    r.1.cell = cell) ?_ fun r met => ?_
  · refine loop_outcome (fun s => Sweep arr.cell s.1.cell l u s.2.1 s.2.2)
      (fun s => (u + 1 - s.2.1).toNat) (fun s inv => ?_) ?_ (Nat.lt_succ_self _)
    · obtain ⟨arr', i, j⟩ := s
      change Sweep arr.cell arr'.cell l u i j at inv
      have start := inv.start
      have reach := inv.reach
      have apart := inv.apart
      have order := inv.order
      have stop := inv.stop
      refine (ascend_returns low start (by omega) (by omega) small (by omega) (by omega)).bind
        fun i' ⟨later, bounded, up, stopI⟩ => ?_
      refine (descend_returns low apart (by omega) small (by omega)).bind
        fun j' ⟨from', earlier, stopJ, down⟩ => ?_
      by_cases crossed : i' > j'
      · rw [if_pos crossed]
        exact .pure ⟨arr'.cell, inv.divided crossed from' earlier up down stopJ, rfl⟩
      · rw [if_neg crossed]
        have cross : i' ≤ j' := not_lt.mp crossed
        refine .bind_ok (IntArray.swap_ok (by omega) (by omega) (by omega) (by omega)) (.pure ?_)
        exact ⟨inv.swap later cross earlier up (stopI (by omega)) down stopJ, by simp only; omega⟩
    · change Sweep arr.cell arr.cell l u l (u + 1)
      exact ⟨.refl, le_rfl, range, by omega, by omega, le_rfl,
        fun k above below => (congrArg arr.cell (le_antisymm below above)).le,
        fun k above below => by omega⟩
  · obtain ⟨cell, divided, same⟩ := met
    have inside := divided.inside
    refine .bind_ok (IntArray.swap_ok (by omega) (by omega) low (by omega)) (.pure ?_)
    rw [same]
    exact divided

/-- The pivot is in its place, then both sides are sorted. -/
theorem Divided.sorted {a b c d : Int → Int} (h : Divided a b l u j) (left : Sorted b c l (j - 1))
    (right : Sorted c d (j + 1) u) : Sorted a d l u := by
  obtain ⟨start, stop⟩ := h.inside
  have partL : Finset.Icc l (j - 1) ⊆ Finset.Icc l u := Finset.Icc_subset_Icc le_rfl (by omega)
  have partR : Finset.Icc (j + 1) u ⊆ Finset.Icc l u := Finset.Icc_subset_Icc (by omega) le_rfl
  have keepL (k : Int) (out : k < l ∨ j ≤ k) : c k = b k :=
    left.others k (by rw [Finset.mem_Icc]; omega)
  have keepR (k : Int) (out : k ≤ j ∨ u < k) : d k = c k :=
    right.others k (by rw [Finset.mem_Icc]; omega)
  have pivot : d j = b j := (keepR j (.inl le_rfl)).trans (keepL j (.inr le_rfl))
  have low : ∀ k ∈ Finset.Icc l (j - 1), c k ≤ b j := by
    refine left.forall_mem (p := (· ≤ b j)) fun k hk => ?_
    rw [Finset.mem_Icc] at hk
    exact h.low k hk.1 (by omega)
  have high : ∀ k ∈ Finset.Icc (j + 1) u, b j ≤ d k := by
    refine right.forall_mem (p := (b j ≤ ·)) fun k hk => ?_
    rw [Finset.mem_Icc] at hk
    rw [keepL k (.inr (by omega))]
    exact h.high k (by omega) hk.2
  have below (k : Int) (hk : l ≤ k) (hj : k ≤ j) : d k ≤ b j := by
    by_cases here : k = j
    · rw [here, pivot]
    · rw [keepR k (.inl hj)]
      exact low k (Finset.mem_Icc.mpr ⟨hk, by omega⟩)
  have above (k : Int) (hj : j ≤ k) (hk : k ≤ u) : b j ≤ d k := by
    by_cases here : k = j
    · rw [here, pivot]
    · exact high k (Finset.mem_Icc.mpr ⟨by omega, hk⟩)
  refine ⟨h.toRearranged.trans ((left.widen partL).trans (right.widen partR)),
    fun x hx y hy le => ?_⟩
  obtain ⟨lowX, highX⟩ := hx
  obtain ⟨lowY, highY⟩ := hy
  by_cases leftY : y < j
  · rw [keepR x (.inl (by omega)), keepR y (.inl (by omega))]
    exact left.monotone ⟨lowX, by omega⟩ ⟨lowY, by omega⟩ le
  · by_cases rightX : j < x
    · exact right.monotone ⟨by omega, highX⟩ ⟨by omega, highY⟩ le
    · exact (below x lowX (by omega)).trans (above y (by omega) highY)

theorem qsortWithin_returns {depth : ℕ} {arr : IntArray first last} (low : first ≤ l)
    (high : u ≤ last) (small : intMin < l) (room : u < intMax) (enough : (u - l).toNat < depth) :
    Returns (qsortWithin depth arr l u) fun arr' => Sorted arr.cell arr'.cell l u := by
  induction depth generalizing arr l u with
  | zero => exact absurd enough (Nat.not_lt_zero _)
  | succ depth ih =>
    rw [qsortWithin]
    by_cases short : l ≥ u
    · rw [if_pos short]
      exact .pure (.short short)
    · rw [if_neg short]
      refine (divide_returns low (by omega) high (by omega) room).bind fun r divided => ?_
      obtain ⟨arr₁, j⟩ := r
      change Divided arr.cell arr₁.cell l u j at divided
      obtain ⟨start, stop⟩ := divided.inside
      refine .bind_ok (int_ok (by omega) (by omega)) ?_
      refine (ih low (by omega) small (by omega) (by omega)).bind fun arr₂ left => ?_
      refine .bind_ok (int_ok (by omega) (by omega)) ?_
      exact (ih (by omega) high (by omega) room (by omega)).mono fun arr₃ right =>
        divided.sorted left right

/-- `qsort` sorts every range of every array, whose length is an `int`; it touches the elements
of the range only. -/
theorem qsort_sorts (len : Int) (fits : len ≤ intMax) (start : 0 ≤ l) (stop : u < len)
    (arr : IntArray l u) : ∃ arr', qsort arr l u = .ok arr' ∧ MonotoneOn arr'.cell (Set.Icc l u) ∧
      contents arr'.cell (Finset.Icc l u) = contents arr.cell (Finset.Icc l u) ∧
      ∀ k ∉ Finset.Icc l u, arr'.cell k = arr.cell k := by
  have negative := intMin_neg
  have sorts : Returns (qsort arr l u) fun arr' => Sorted arr.cell arr'.cell l u :=
    qsortWithin_returns le_rfl le_rfl (by omega) (by omega) (Nat.lt_succ_self _)
  obtain ⟨arr', run, sorted⟩ := sorts.eq_ok
  exact ⟨arr', run, sorted.monotone, sorted.same, sorted.others⟩

/-- The array of `main`. -/
theorem qsort_sorts_main :
    let arr : IntArray 0 10 :=
      { cell := fun i => [4, 2, 0, -1, 5, 9, 12, 90, -14, 3, 100][i.toNat]! }
    ∃ arr', qsort arr 0 10 = .ok arr' ∧ MonotoneOn arr'.cell (Set.Icc 0 10) ∧
      contents arr'.cell (Finset.Icc 0 10) = contents arr.cell (Finset.Icc 0 10) ∧
      ∀ k ∉ Finset.Icc (0 : Int) 10, arr'.cell k = arr.cell k :=
  qsort_sorts 11 (by decide) (by decide) (by decide) _

end Codelab.Algo
