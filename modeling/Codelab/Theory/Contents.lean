import Mathlib.Data.Multiset.Sort
import Mathlib.Data.Finset.Card
import Mathlib.Data.Finset.Union
import Mathlib.Logic.Equiv.Basic
import Mathlib.Order.Monotone.Defs

/-! What a family of cells holds on a finite set of indices, counted with repetitions. Two
families hold the same there if one is a rearrangement of the other. -/

namespace Contents

variable {ι α : Type*} {a b c : ι → α} {S T : Finset ι} {i j : ι} {p : α → Prop}

def contents (a : ι → α) (S : Finset ι) : Multiset α := S.val.map a

theorem contents_congr (same : ∀ i ∈ S, b i = a i) : contents b S = contents a S :=
  Multiset.map_congr rfl same

theorem card_contents : (contents a S).card = S.card := Multiset.card_map a S.val

/-- Two families of indices, one cell of the second for each of the first. -/
theorem contents_map {κ : Type*} (e : κ ↪ ι) (S : Finset κ) :
    contents a (S.map e) = contents (a ∘ e) S := by
  rw [contents, Finset.map_val, Multiset.map_map]
  rfl

/-- `b` is `a` with the cells of `S` rearranged. -/
structure Rearranged (a b : ι → α) (S : Finset ι) : Prop where
  same : contents b S = contents a S
  others : ∀ i ∉ S, b i = a i

namespace Rearranged

theorem refl : Rearranged a a S := ⟨rfl, fun _ _ => rfl⟩

theorem trans (h : Rearranged a b S) (h' : Rearranged b c S) : Rearranged a c S :=
  ⟨h'.same.trans h.same, fun i out => (h'.others i out).trans (h.others i out)⟩

/-- A fact about all values held does not depend on where they are held. -/
theorem forall_mem (h : Rearranged a b S) (all : ∀ i ∈ S, p (a i)) : ∀ i ∈ S, p (b i) := by
  intro i hi
  have held : b i ∈ contents b S := Multiset.mem_map_of_mem b hi
  rw [h.same] at held
  obtain ⟨k, hk, value⟩ := Multiset.mem_map.mp held
  exact value ▸ all k hk

end Rearranged

section

variable [DecidableEq ι]

theorem contents_insert (new : i ∉ S) : contents a (insert i S) = a i ::ₘ contents a S := by
  rw [contents, Finset.insert_val_of_notMem new, Multiset.map_cons]
  rfl

theorem contents_union (apart : Disjoint S T) :
    contents a (S ∪ T) = contents a S + contents a T := by
  rw [← Finset.disjUnion_eq_union S T apart, contents, Finset.disjUnion_val, Multiset.map_add]
  rfl

namespace Rearranged

/-- A rearrangement within a part is one of the whole. -/
theorem widen (h : Rearranged a b S) (within : S ⊆ T) : Rearranged a b T := by
  have rest : contents b (T \ S) = contents a (T \ S) :=
    contents_congr fun i hi => h.others i (Finset.mem_sdiff.mp hi).2
  refine ⟨?_, fun i out => h.others i fun inside => out (within inside)⟩
  rw [← Finset.union_sdiff_of_subset within, contents_union Finset.disjoint_sdiff,
    contents_union Finset.disjoint_sdiff, h.same, rest]

theorem swap (hi : i ∈ S) (hj : j ∈ S) : Rearranged a (a ∘ Equiv.swap i j) S := by
  refine ⟨?_, fun k out => ?_⟩
  · have image : S.map (Equiv.swap i j).toEmbedding = S := by
      ext k
      rw [Finset.mem_map_equiv, Equiv.symm_swap]
      by_cases first : k = i
      · rw [first, Equiv.swap_apply_left]
        exact iff_of_true hj hi
      · by_cases second : k = j
        · rw [second, Equiv.swap_apply_right]
          exact iff_of_true hi hj
        · rw [Equiv.swap_apply_of_ne_of_ne first second]
    have moved : contents a (S.map (Equiv.swap i j).toEmbedding) = _ :=
      contents_map (Equiv.swap i j).toEmbedding S
    rw [image] at moved
    exact moved.symm
  · have apartI : k ≠ i := fun same => out (same ▸ hi)
    have apartJ : k ≠ j := fun same => out (same ▸ hj)
    exact congrArg a (Equiv.swap_apply_of_ne_of_ne apartI apartJ)

end Rearranged

end

section

variable [LinearOrder α]

theorem sort_add {s t : Multiset α} (le : ∀ x ∈ s, ∀ y ∈ t, x ≤ y) :
    (s + t).sort = s.sort ++ t.sort := by
  refine List.Perm.eq_of_pairwise' (Multiset.pairwise_sort _ _) ?_ ?_
  · refine List.pairwise_append.mpr ⟨Multiset.pairwise_sort s _, Multiset.pairwise_sort t _, ?_⟩
    intro x hx y hy
    exact le x ((Multiset.mem_sort _).mp hx) y ((Multiset.mem_sort _).mp hy)
  · rw [← Multiset.coe_eq_coe, ← Multiset.coe_add, Multiset.sort_eq, Multiset.sort_eq,
      Multiset.sort_eq]

/-- A value with as many others before it as cells of `S`, and none of the other cells less, has
that place in the sorted order. -/
theorem sort_contents_rank {v : α} (low : ∀ i ∈ S, a i ≤ v) (high : ∀ i ∈ T, v ≤ a i) :
    (contents a S + v ::ₘ contents a T).sort[S.card]? = some v := by
  have lowest : ∀ y ∈ contents a T, v ≤ y := by
    intro y hy
    obtain ⟨i, hi, rfl⟩ := Multiset.mem_map.mp hy
    exact high i hi
  have apart : ∀ x ∈ contents a S, ∀ y ∈ v ::ₘ contents a T, x ≤ y := by
    intro x hx y hy
    obtain ⟨i, hi, rfl⟩ := Multiset.mem_map.mp hx
    rcases Multiset.mem_cons.mp hy with rfl | later
    · exact low i hi
    · exact (low i hi).trans (lowest y later)
  rw [sort_add apart, Multiset.sort_cons _ _ _ lowest]
  have length : (contents a S).sort.length = S.card := by
    rw [Multiset.length_sort, card_contents]
  rw [List.getElem?_append_right length.le, length, Nat.sub_self]
  rfl

end

end Contents
