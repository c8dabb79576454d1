import Codelab.Algo.IntArray

/-! `merge_sort`. One scratch buffer serves all calls; `merge` fills it from the start with the
two runs in order and copies it back. The two runs have the same part in what is said about the
filling, so each fact is shown for one of them. -/

namespace Codelab.Algo

open Total Contents

variable {first last hfirst hlast l mid u i s j num : Int}

/-- `help[num++] = arr[from++]`, for the index `next`. -/
def put (arr : IntArray first last) (help : IntArray hfirst hlast) (num next : Int) :
    Except Fault (IntArray hfirst hlast × Int × Int) := do
  let x ← arr.read next
  let help ← help.write num x
  pure (help, ← int (num + 1), ← int (next + 1))

/-- `while (next <= stop)`: what is left of one run. -/
def drain (arr : IntArray first last) (help : IntArray hfirst hlast) (num next stop : Int) :
    Except Fault (IntArray hfirst hlast × Int) :=
  loop (fun (help, num, next) =>
    if next ≤ stop then do
      pure (.inl (← put arr help num next))
    else pure (.inr (help, num))) .unfinished ((stop + 1 - next).toNat + 1) (help, num, next)

/-- `for (i = 0; i < num; i++) arr[l++] = help[i]`. -/
def copyBack (arr : IntArray first last) (help : IntArray hfirst hlast) (l num : Int) :
    Except Fault (IntArray first last) :=
  loop (fun (arr, l, i) =>
    if i < num then do
      let x ← help.read i
      let arr ← arr.write l x
      pure (.inl (arr, ← int (l + 1), ← int (i + 1)))
    else pure (.inr arr)) .unfinished (num.toNat + 1) (arr, l, 0)

def merge (arr : IntArray first last) (help : IntArray hfirst hlast) (l mid u : Int) :
    Except Fault (IntArray first last × IntArray hfirst hlast) := do
  let rbegin ← int (mid + 1)
  let (help, num, lbegin, rbegin) ← loop (fun (help, num, lbegin, rbegin) =>
    if lbegin ≤ mid ∧ rbegin ≤ u then do
      let x ← arr.read lbegin
      let y ← arr.read rbegin
      if x < y then do
        let (help, num, lbegin) ← put arr help num lbegin
        pure (.inl (help, num, lbegin, rbegin))
      else do
        let (help, num, rbegin) ← put arr help num rbegin
        pure (.inl (help, num, lbegin, rbegin))
    else pure (.inr (help, num, lbegin, rbegin))) .unfinished ((u + 1 - l).toNat + 1)
    (help, 0, l, rbegin)
  let (help, num) ← drain arr help num lbegin mid
  let (help, num) ← drain arr help num rbegin u
  pure (← copyBack arr help l num, help)

/-- `merge_impl` with at most `depth` calls nested in each other. -/
def mergeImplWithin : ℕ → IntArray first last → Int → Int → IntArray hfirst hlast →
    Except Fault (IntArray first last × IntArray hfirst hlast)
  | 0, _, _, _, _ => .error .unfinished
  | depth + 1, arr, l, u, help =>
    if l < u then do
      let mid ← middle l u
      let (arr, help) ← mergeImplWithin depth arr l mid help
      let (arr, help) ← mergeImplWithin depth arr (← int (mid + 1)) u help
      merge arr help l mid u
    else pure (arr, help)

/-- A nested call has a shorter range. -/
def mergeImpl (arr : IntArray first last) (l u : Int) (help : IntArray hfirst hlast) :
    Except Fault (IntArray first last × IntArray hfirst hlast) :=
  mergeImplWithin ((u - l).toNat + 1) arr l u help

/-- `help` is what `malloc` returns, with whatever is in it. -/
def mergeSort (arr : IntArray first last) (len : Int) (help : Option (IntArray 0 (len - 1))) :
    Except Fault (IntArray first last) :=
  if len ≤ 1 then pure arr
  else match help with
    | none => pure arr
    | some help => do
      let (arr, _) ← mergeImpl arr 0 (← int (len - 1)) help
      pure arr

theorem contents_last {a : Int → Int} (range : l ≤ u + 1) :
    contents a (Finset.Icc l (u + 1)) = a (u + 1) ::ₘ contents a (Finset.Icc l u) := by
  have split : Finset.Icc l (u + 1) = insert (u + 1) (Finset.Icc l u) := by
    ext k
    simp only [Finset.mem_insert, Finset.mem_Icc]
    omega
  rw [split, contents_insert (by simp only [Finset.mem_Icc]; omega)]

/-- The first `num` elements of `h` are those taken from the runs `l` to `mid` and `s` to `u`, in
order; what is left of the runs begins at `i` and at `j`. -/
structure Taken (a h : Int → Int) (l i mid s j u num : Int) : Prop where
  runL : MonotoneOn a (Set.Icc l mid)
  runR : MonotoneOn a (Set.Icc s u)
  left : l ≤ i ∧ i ≤ mid + 1
  right : s ≤ j ∧ j ≤ u + 1
  count : num = i - l + (j - s)
  same : contents h (Finset.Icc 0 (num - 1)) =
    contents a (Finset.Icc l (i - 1)) + contents a (Finset.Icc s (j - 1))
  sorted : MonotoneOn h (Set.Icc 0 (num - 1))
  low : ∀ k, 0 ≤ k → k < num → ∀ p, i ≤ p ∧ p ≤ mid ∨ j ≤ p ∧ p ≤ u → h k ≤ a p

namespace Taken

variable {a h : Int → Int}

theorem symm (t : Taken a h l i mid s j u num) : Taken a h s j u l i mid num :=
  ⟨t.runR, t.runL, t.right, t.left, by rw [t.count, add_comm], by rw [t.same, add_comm], t.sorted,
    fun k low high p rest => t.low k low high p rest.symm⟩

theorem start (runL : MonotoneOn a (Set.Icc l mid)) (runR : MonotoneOn a (Set.Icc s u))
    (rangeL : l ≤ mid + 1) (rangeR : s ≤ u + 1) : Taken a h l l mid s s u 0 := by
  refine ⟨runL, runR, ⟨le_rfl, rangeL⟩, ⟨le_rfl, rangeR⟩, by omega, ?_, ?_, by omega⟩
  · rw [Finset.Icc_eq_empty (by omega), Finset.Icc_eq_empty (by omega),
      Finset.Icc_eq_empty (by omega)]
    rfl
  · intro x hx
    have := hx.1
    have := hx.2
    omega

/-- Both runs are used up, and what was taken is copied to where they were. -/
theorem copied {a' : Int → Int} (t : Taken a h l (mid + 1) mid (mid + 1) (u + 1) u num)
    (rangeL : l ≤ mid) (rangeR : mid < u)
    (copied : ∀ k, 0 ≤ k → k < num → a' (l + k) = h k)
    (others : ∀ k, k < l ∨ l + num ≤ k → a' k = a k) : Sorted a a' l u := by
  have count := t.count
  refine ⟨⟨?_, fun k out => ?_⟩, fun x hx y hy le => ?_⟩
  · have shift : Finset.Icc l u = (Finset.Icc 0 (num - 1)).map (addLeftEmbedding l) := by
      ext k
      simp only [Finset.mem_map, addLeftEmbedding_apply, Finset.mem_Icc]
      constructor
      · intro inside
        exact ⟨k - l, by omega, by omega⟩
      · rintro ⟨k, inside, rfl⟩
        omega
    have moved : contents a' (Finset.Icc l u) = contents h (Finset.Icc 0 (num - 1)) := by
      rw [shift, contents_map]
      exact contents_congr fun k hk => by
        rw [Finset.mem_Icc] at hk
        exact copied k hk.1 (by omega)
    have parts : Finset.Icc l u = Finset.Icc l mid ∪ Finset.Icc (mid + 1) u := by
      ext k
      simp only [Finset.mem_union, Finset.mem_Icc]
      omega
    have apart : Disjoint (Finset.Icc l mid) (Finset.Icc (mid + 1) u) := by
      rw [Finset.disjoint_left]
      intro k
      simp only [Finset.mem_Icc]
      omega
    have taken := t.same
    rw [add_sub_cancel_right, add_sub_cancel_right] at taken
    rw [moved, taken, parts, contents_union apart]
  · rw [Finset.mem_Icc] at out
    exact others k (by omega)
  · obtain ⟨lowX, highX⟩ := hx
    obtain ⟨lowY, highY⟩ := hy
    have valueX := copied (x - l) (by omega) (by omega)
    have valueY := copied (y - l) (by omega) (by omega)
    rw [add_sub_cancel] at valueX valueY
    rw [valueX, valueY]
    exact t.sorted ⟨by omega, by omega⟩ ⟨by omega, by omega⟩ (by omega)

/-- The least element that is left is taken from the left run. -/
theorem take (t : Taken a h l i mid s j u num) (more : i ≤ mid)
    (least : ∀ p, j ≤ p → p ≤ u → a i ≤ a p) :
    Taken a (Function.update h num (a i)) l (i + 1) mid s j u (num + 1) := by
  obtain ⟨startL, stopL⟩ := t.left
  obtain ⟨startR, stopR⟩ := t.right
  have count := t.count
  have old (k : Int) (below : k < num) : Function.update h num (a i) k = h k :=
    Function.update_of_ne (by omega) _ _
  refine ⟨t.runL, t.runR, ⟨by omega, by omega⟩, t.right, by omega, ?_, ?_, ?_⟩
  · have taken := t.same
    have rest : contents (Function.update h num (a i)) (Finset.Icc 0 (num - 1)) =
        contents h (Finset.Icc 0 (num - 1)) :=
      contents_congr fun k hk => old k (by rw [Finset.mem_Icc] at hk; omega)
    have new := contents_last (a := Function.update h num (a i)) (l := 0) (u := num - 1) (by omega)
    have gone := contents_last (a := a) (l := l) (u := i - 1) (by omega)
    rw [sub_add_cancel] at new gone
    rw [add_sub_cancel_right, add_sub_cancel_right, new, gone, rest, taken, Function.update_self,
      Multiset.cons_add]
  · intro x hx y hy le
    obtain ⟨lowX, highX⟩ := hx
    obtain ⟨lowY, highY⟩ := hy
    by_cases last : y = num
    · rw [last, Function.update_self]
      by_cases both : x = num
      · rw [both, Function.update_self]
      · rw [old x (by omega)]
        exact t.low x lowX (by omega) i (.inl ⟨le_rfl, more⟩)
    · rw [old x (by omega), old y (by omega)]
      exact t.sorted ⟨lowX, by omega⟩ ⟨lowY, by omega⟩ le
  · intro k low high p rest
    by_cases last : k = num
    · rw [last, Function.update_self]
      rcases rest with ⟨after, inside⟩ | ⟨after, inside⟩
      · exact t.runL ⟨startL, more⟩ ⟨by omega, inside⟩ (by omega)
      · exact least p after inside
    · rw [old k (by omega)]
      exact t.low k low (by omega) p (rest.imp_left fun inside => ⟨by omega, inside.2⟩)

end Taken

theorem put_ok {arr : IntArray first last} {help : IntArray hfirst hlast} (low : first ≤ i)
    (high : i ≤ last) (lowH : hfirst ≤ num) (highH : num ≤ hlast) (start : 0 ≤ num) (startI : 0 ≤ i)
    (fits : num < intMax) (fitsI : i < intMax) :
    put arr help num i =
      .ok ({ cell := Function.update help.cell num (arr.cell i) }, num + 1, i + 1) := by
  have negative := intMin_neg
  simp only [put, IntArray.read_ok low high, IntArray.write_ok lowH highH, bind, Except.bind,
    int_ok (show intMin ≤ num + 1 by omega) (by omega), int_ok (show intMin ≤ i + 1 by omega)
    (by omega)]
  rfl

theorem drain_returns {arr : IntArray first last} {help : IntArray hfirst hlast}
    (t : Taken arr.cell help.cell l i mid s j u num) (used : i ≤ mid → u < j) (start : 0 ≤ l)
    (low : first ≤ l) (high : mid ≤ last) (room : mid < intMax) (lowH : hfirst ≤ 0)
    (highH : mid - l + (u - s) + 1 ≤ hlast) (roomH : mid - l + (u - s) + 1 < intMax) :
    Returns (drain arr help num i mid) fun r =>
      Taken arr.cell r.1.cell l (mid + 1) mid s j u r.2 := by
  refine loop_outcome (fun s' => Taken arr.cell s'.1.cell l s'.2.2 mid s j u s'.2.1 ∧
    (s'.2.2 ≤ mid → u < j)) (fun s' => (mid + 1 - s'.2.2).toNat) (fun s' inv => ?_) ⟨t, used⟩
    (Nat.lt_succ_self _)
  obtain ⟨help', num', i'⟩ := s'
  obtain ⟨t', used'⟩ := inv
  change Taken arr.cell help'.cell l i' mid s j u num' at t'
  change i' ≤ mid → u < j at used'
  obtain ⟨startL, stopL⟩ := t'.left
  obtain ⟨startR, stopR⟩ := t'.right
  have count := t'.count
  by_cases more : i' ≤ mid
  · simp only [if_pos more]
    refine .bind_ok (put_ok (by omega) (by omega) (by omega) (by omega) (by omega) (by omega)
      (by omega) (by omega)) (.pure ?_)
    have end' := used' more
    exact ⟨⟨t'.take more fun p after inside => by omega, fun _ => end'⟩, by simp only; omega⟩
  · simp only [if_neg more]
    have done : i' = mid + 1 := by omega
    exact .pure (done ▸ t')

theorem copyBack_returns {arr : IntArray first last} {help : IntArray hfirst hlast}
    (some' : 0 ≤ num) (start : 0 ≤ l) (low : first ≤ l) (high : l + num ≤ last + 1)
    (room : l + num ≤ intMax) (lowH : hfirst ≤ 0) (highH : num ≤ hlast + 1) :
    Returns (copyBack arr help l num) fun arr' =>
      (∀ k, 0 ≤ k → k < num → arr'.cell (l + k) = help.cell k) ∧
      ∀ k, k < l ∨ l + num ≤ k → arr'.cell k = arr.cell k := by
  have negative := intMin_neg
  refine loop_outcome (fun s => s.2.1 = l + s.2.2 ∧ 0 ≤ s.2.2 ∧ s.2.2 ≤ num ∧
    (∀ k, 0 ≤ k → k < s.2.2 → s.1.cell (l + k) = help.cell k) ∧
    ∀ k, k < l ∨ l + s.2.2 ≤ k → s.1.cell k = arr.cell k) (fun s => (num - s.2.2).toNat)
    (fun s inv => ?_)
    ⟨(add_zero l).symm, le_rfl, some', by simp only; omega, fun _ _ => rfl⟩ (by simp only; omega)
  obtain ⟨arr', l', i⟩ := s
  obtain ⟨place, from', upto, copied, others⟩ := inv
  simp only at place from' upto copied others
  subst place
  by_cases more : i < num
  · simp only [if_pos more]
    refine .bind_ok (IntArray.read_ok (by omega) (by omega)) ?_
    refine .bind_ok (IntArray.write_ok (by omega) (by omega)) ?_
    refine .bind_ok (int_ok (by omega) (by omega)) ?_
    refine .bind_ok (int_ok (by omega) (by omega)) (.pure ?_)
    refine ⟨⟨by simp only; omega, by simp only; omega, by simp only; omega, ?_, ?_⟩,
      by simp only; omega⟩
    · intro k above below
      simp only at below ⊢
      by_cases new : k = i
      · rw [new, Function.update_self]
      · rw [Function.update_of_ne (by omega)]
        exact copied k above (by omega)
    · intro k out
      simp only at out ⊢
      rw [Function.update_of_ne (by omega)]
      exact others k (by omega)
  · simp only [if_neg more]
    have done : i = num := by omega
    subst done
    exact .pure ⟨copied, others⟩

theorem merge_returns {arr : IntArray first last} {help : IntArray hfirst hlast} (start : 0 ≤ l)
    (low : first ≤ l) (rangeL : l ≤ mid) (rangeR : mid < u) (high : u ≤ last) (room : u < intMax)
    (lowH : hfirst ≤ 0) (highH : u - l ≤ hlast) (left : MonotoneOn arr.cell (Set.Icc l mid))
    (right : MonotoneOn arr.cell (Set.Icc (mid + 1) u)) :
    Returns (merge arr help l mid u) fun r => Sorted arr.cell r.1.cell l u := by
  have negative := intMin_neg
  refine .bind_ok (int_ok (by omega) (by omega)) ?_
  refine Outcome.bind (p := fun r => Taken arr.cell r.1.cell l r.2.2.1 mid (mid + 1) r.2.2.2 u
    r.2.1 ∧ (r.2.2.1 ≤ mid → u < r.2.2.2)) ?_ fun r ⟨taken, used⟩ => ?_
  · refine loop_outcome (fun s => Taken arr.cell s.1.cell l s.2.2.1 mid (mid + 1) s.2.2.2 u s.2.1)
      (fun s => (mid + 1 - s.2.2.1).toNat + (u + 1 - s.2.2.2).toNat) (fun s inv => ?_)
      (.start left right (by omega) (by omega)) (by simp only; omega)
    · obtain ⟨help', num, i, j⟩ := s
      change Taken arr.cell help'.cell l i mid (mid + 1) j u num at inv
      obtain ⟨startL, stopL⟩ := inv.left
      obtain ⟨startR, stopR⟩ := inv.right
      have count := inv.count
      by_cases more : i ≤ mid ∧ j ≤ u
      · obtain ⟨moreL, moreR⟩ := more
        simp only [if_pos (And.intro moreL moreR)]
        refine .bind_ok (IntArray.read_ok (by omega) (by omega)) ?_
        refine .bind_ok (IntArray.read_ok (by omega) (by omega)) ?_
        by_cases less : arr.cell i < arr.cell j
        · rw [if_pos less]
          refine .bind_ok (put_ok (by omega) (by omega) (by omega) (by omega) (by omega) (by omega)
            (by omega) (by omega)) (.pure ?_)
          refine ⟨inv.take moreL fun p after inside => ?_, by simp only; omega⟩
          exact less.le.trans (right ⟨startR, moreR⟩ ⟨by omega, inside⟩ after)
        · rw [if_neg less]
          refine .bind_ok (put_ok (by omega) (by omega) (by omega) (by omega) (by omega) (by omega)
            (by omega) (by omega)) (.pure ?_)
          refine ⟨(inv.symm.take moreR fun p after inside => ?_).symm, by simp only; omega⟩
          exact (not_lt.mp less).trans (left ⟨startL, moreL⟩ ⟨by omega, inside⟩ after)
      · simp only [if_neg more]
        exact .pure ⟨inv, fun moreL => by simp only at moreL ⊢; omega⟩
  · obtain ⟨help₁, num₁, i, j⟩ := r
    change Taken arr.cell help₁.cell l i mid (mid + 1) j u num₁ at taken
    change i ≤ mid → u < j at used
    refine (drain_returns taken used start low (by omega) (by omega) lowH (by omega)
      (by omega)).bind fun r taken₂ => ?_
    obtain ⟨help₂, num₂⟩ := r
    change Taken arr.cell help₂.cell l (mid + 1) mid (mid + 1) j u num₂ at taken₂
    refine (drain_returns taken₂.symm (by omega) (by omega) (by omega) high room lowH (by omega)
      (by omega)).bind fun r taken₃ => ?_
    obtain ⟨help₃, num₃⟩ := r
    change Taken arr.cell help₃.cell (mid + 1) (u + 1) u l (mid + 1) mid num₃ at taken₃
    have count := taken₃.count
    refine (copyBack_returns (by omega) start low (by omega) (by omega) lowH (by omega)).bind
      fun arr' ⟨copied, others⟩ => .pure ?_
    exact taken₃.symm.copied rangeL rangeR copied others

/-- Two sorted neighbours, then merged. -/
theorem Sorted.merged {a b c d : Int → Int} (left : Sorted a b l mid)
    (right : Sorted b c (mid + 1) u) (merged : Sorted c d l u) (rangeL : l ≤ mid)
    (rangeR : mid < u) : Sorted a d l u := by
  have partL : Finset.Icc l mid ⊆ Finset.Icc l u := Finset.Icc_subset_Icc le_rfl (by omega)
  have partR : Finset.Icc (mid + 1) u ⊆ Finset.Icc l u := Finset.Icc_subset_Icc (by omega) le_rfl
  exact ⟨(left.widen partL).trans ((right.widen partR).trans merged.toRearranged), merged.monotone⟩

theorem mergeImplWithin_returns {depth : ℕ} {arr : IntArray first last}
    {help : IntArray hfirst hlast} (start : 0 ≤ l) (low : first ≤ l) (high : u ≤ last)
    (room : u < intMax) (lowH : hfirst ≤ 0) (highH : u - l ≤ hlast)
    (enough : (u - l).toNat < depth) :
    Returns (mergeImplWithin depth arr l u help) fun r => Sorted arr.cell r.1.cell l u := by
  have negative := intMin_neg
  induction depth generalizing arr help l u with
  | zero => exact absurd enough (Nat.not_lt_zero _)
  | succ depth ih =>
    rw [mergeImplWithin]
    by_cases range : l < u
    · rw [if_pos range]
      refine (middle_returns start range.le room.le).bind fun mid ⟨rangeL, _, rangeR⟩ => ?_
      have rangeR := rangeR range
      refine (ih start low (by omega) (by omega) (by omega) (by omega)).bind fun r left => ?_
      obtain ⟨arr₁, help₁⟩ := r
      change Sorted arr.cell arr₁.cell l mid at left
      refine .bind_ok (int_ok (by omega) (by omega)) ?_
      refine (ih (by omega) (by omega) high room (by omega) (by omega)).bind fun r right => ?_
      obtain ⟨arr₂, help₂⟩ := r
      change Sorted arr₁.cell arr₂.cell (mid + 1) u at right
      have runL : MonotoneOn arr₂.cell (Set.Icc l mid) := by
        have keep (k : Int) (inside : k ≤ mid) : arr₂.cell k = arr₁.cell k :=
          right.others k (by rw [Finset.mem_Icc]; omega)
        intro x hx y hy le
        rw [keep x hx.2, keep y hy.2]
        exact left.monotone hx hy le
      exact (merge_returns start low rangeL rangeR high room lowH highH runL right.monotone).mono
        fun r merged => left.merged right merged rangeL rangeR
    · rw [if_neg range]
      exact .pure (.short (not_lt.mp range))

/-- `merge_sort` sorts every array, whose length is an `int`, if it gets its scratch buffer, and
does nothing otherwise. -/
theorem mergeSort_sorts {len : Int} (fits : len ≤ intMax) (arr : IntArray 0 (len - 1))
    (help : Option (IntArray 0 (len - 1))) :
    ∃ arr', mergeSort arr len help = .ok arr' ∧
      (help.isSome → MonotoneOn arr'.cell (Set.Icc 0 (len - 1)) ∧
        contents arr'.cell (Finset.Icc 0 (len - 1)) = contents arr.cell (Finset.Icc 0 (len - 1))) ∧
      (help = none → arr' = arr) := by
  have negative := intMin_neg
  by_cases short : len ≤ 1
  · refine ⟨arr, if_pos short, fun _ => ?_, fun _ => rfl⟩
    have sorted : Sorted arr.cell arr.cell 0 (len - 1) := .short (by omega)
    exact ⟨sorted.monotone, sorted.same⟩
  · cases help with
    | none =>
      refine ⟨arr, if_neg short, fun allocated => Bool.noConfusion allocated, fun _ => rfl⟩
    | some help =>
      have sorts : Returns (mergeSort arr len (some help)) fun arr' =>
          Sorted arr.cell arr'.cell 0 (len - 1) := by
        simp only [mergeSort, if_neg short]
        refine .bind_ok (int_ok (by omega) (by omega)) ?_
        exact (mergeImplWithin_returns le_rfl le_rfl le_rfl (by omega) le_rfl (by omega)
          (Nat.lt_succ_self _)).bind fun r sorted => .pure sorted
      obtain ⟨arr', run, sorted⟩ := sorts.eq_ok
      exact ⟨arr', run, fun _ => ⟨sorted.monotone, sorted.same⟩,
        fun failed => absurd failed (Option.some_ne_none help)⟩

/-- The array of `main`. -/
theorem mergeSort_sorts_main :
    let arr : IntArray 0 (8 - 1) := { cell := fun i => [4, 8, 1, 9, 3, 2, 0, 5][i.toNat]! }
    let help : Option (IntArray 0 (8 - 1)) := some { cell := fun _ => 0 }
    ∃ arr', mergeSort arr 8 help = .ok arr' ∧
      (help.isSome → MonotoneOn arr'.cell (Set.Icc 0 (8 - 1)) ∧
        contents arr'.cell (Finset.Icc 0 (8 - 1)) = contents arr.cell (Finset.Icc 0 (8 - 1))) ∧
      (help = none → arr' = arr) :=
  mergeSort_sorts (by decide) _ _

end Codelab.Algo
