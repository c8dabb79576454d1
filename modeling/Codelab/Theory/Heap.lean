import Mathlib.Data.List.Sort
import Mathlib.Order.Defs.Unbundled

/-! Binary heaps in a list, laid out as `std::push_heap` and `std::pop_heap` lay them out: the
entry at `i + 1` hangs below the one at `i / 2`, which does not come after it in the order
`lt`. For a strict weak order nothing comes after the front. -/

namespace Heap

variable {α : Type*}

def IsHeap (lt : α → α → Prop) (l : List α) : Prop :=
  ∀ i : Fin (l.length - 1), ¬ lt (l.get ⟨i / 2, by omega⟩) (l.get ⟨i + 1, by omega⟩)

variable {lt : α → α → Prop} {a : α} {l : List α}

instance [DecidableRel lt] : Decidable (IsHeap lt l) :=
  inferInstanceAs (Decidable (∀ _ : Fin _, _))

theorem not_lt_trans [IsStrictWeakOrder α lt] {a b c : α} (hab : ¬ lt a b) (hbc : ¬ lt b c) :
    ¬ lt a c := by
  intro hac
  have hba : ¬ lt b a := fun h => hbc (trans_of lt h hac)
  have hcb : ¬ lt c b := fun h => hab (trans_of lt hac h)
  exact (IsStrictWeakOrder.incomp_trans a b c ⟨hab, hba⟩ ⟨hbc, hcb⟩).1 hac

theorem IsHeap.front [IsStrictWeakOrder α lt] (h : IsHeap lt (a :: l)) :
    ∀ b ∈ a :: l, ¬ lt a b := by
  have upto (i : ℕ) : ∀ low : i < (a :: l).length, ¬ lt a ((a :: l).get ⟨i, low⟩) := by
    induction i using Nat.strongRecOn with
    | ind i ih =>
      intro low
      cases i with
      | zero => exact irrefl_of lt a
      | succ i =>
        have parent := ih (i / 2) (by omega) (by omega)
        exact not_lt_trans parent (h ⟨i, by simpa using low⟩)
  intro b hb
  obtain ⟨i, rfl⟩ := List.get_of_mem hb
  exact upto i i.isLt

/-- A list in order is a heap. -/
theorem isHeap_of_pairwise (h : l.Pairwise fun a b => ¬ lt a b) : IsHeap lt l :=
  fun i => List.pairwise_iff_get.mp h _ _ (show i.val / 2 < i.val + 1 by omega)

/-- Whatever a heap holds, there is a heap of it. -/
theorem exists_perm_isHeap [IsStrictWeakOrder α lt] (l : List α) :
    ∃ l', l'.Perm l ∧ IsHeap lt l' := by
  classical
  have total : Std.Total fun a b => ¬ lt a b := ⟨fun a b => by
    by_contra both
    obtain ⟨hab, hba⟩ := not_or.mp both
    exact asymm_of lt (not_not.mp hab) (not_not.mp hba)⟩
  have transitive : IsTrans α fun a b => ¬ lt a b := ⟨fun _ _ _ => not_lt_trans⟩
  exact ⟨l.insertionSort _, List.perm_insertionSort _ l,
    isHeap_of_pairwise (List.pairwise_insertionSort _ l)⟩

end Heap
