import Mathlib.Data.Set.Card

/-! Blocks of memory by their addresses, `none` where nothing is allocated, and how many of them are
in use. -/

namespace Blocks

variable {β : Type*} {blocks : ℕ → Option β} {a : ℕ} {b : β} {n : ℕ}

def used (blocks : ℕ → Option β) : Set ℕ := {a | blocks a ≠ none}

def Holds (blocks : ℕ → Option β) (n : ℕ) : Prop := (used blocks).encard = n

theorem used_some : used (Function.update blocks a (some b)) = insert a (used blocks) := by
  ext d
  by_cases same : d = a
  · simp [used, same]
  · simp [used, same]

theorem used_none : used (Function.update blocks a none) = used blocks \ {a} := by
  ext d
  by_cases same : d = a
  · simp [used, same]
  · simp [used, same]

theorem holds_empty : Holds (fun _ : ℕ => (none : Option β)) 0 := by
  simp [Holds, used]

namespace Holds

theorem of_eq {m : ℕ} (h : Holds blocks n) (same : n = m) : Holds blocks m := same ▸ h

theorem alloc (h : Holds blocks n) (free : blocks a = none) :
    Holds (Function.update blocks a (some b)) (n + 1) := by
  have new : a ∉ used blocks := fun taken => taken free
  rw [Holds, used_some, Set.encard_insert_of_notMem new, h]
  rfl

theorem store (h : Holds blocks n) (taken : blocks a ≠ none) :
    Holds (Function.update blocks a (some b)) n := by
  have mem : a ∈ used blocks := taken
  rwa [Holds, used_some, Set.insert_eq_of_mem mem]

theorem free (h : Holds blocks n) (taken : blocks a ≠ none) :
    ∃ m, n = m + 1 ∧ Holds (Function.update blocks a none) m := by
  have mem : a ∈ used blocks := taken
  have count := Set.encard_sdiff_singleton_add_one mem
  rw [h] at count
  have finite : (used blocks \ {a}).encard ≠ ⊤ := by
    intro top
    rw [top] at count
    exact ENat.top_ne_natCast n count
  obtain ⟨m, hm⟩ := ENat.ne_top_iff_exists.mp finite
  rw [← hm] at count
  refine ⟨m, ?_, ?_⟩
  · exact_mod_cast count.symm
  · rw [Holds, used_none, hm]

end Holds

end Blocks
