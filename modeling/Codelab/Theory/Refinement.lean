import Codelab.Theory.Machine

/-! A machine carries out another one, step by step, under a map of its states. -/

namespace Machine

variable {σ ρ α : Type*} {M : Machine σ α} {N : Machine ρ α}

/-- If every step from a state with `inv` is a step of `N` under `abs`, then so is every run. -/
theorem run_refines (inv : σ → Prop) (abs : σ → ρ)
    (keep : ∀ s a s', inv s → M.next s a = some s' → inv s' ∧ N.next (abs s) a = some (abs s'))
    {s s' : σ} {as : List α} (h : inv s) (hrun : M.run s as = some s') :
    inv s' ∧ N.run (abs s) as = some (abs s') := by
  induction as generalizing s with
  | nil =>
    have same : s = s' := by simpa only [run, Option.some.injEq] using hrun
    exact same ▸ ⟨h, rfl⟩
  | cons a as ih =>
    obtain ⟨mid, hnext, hrest⟩ := Option.bind_eq_some_iff.mp hrun
    obtain ⟨hmid, habs⟩ := keep s a mid h hnext
    obtain ⟨hend, hall⟩ := ih hmid hrest
    exact ⟨hend, by rw [run, habs, Option.bind_some, hall]⟩

end Machine
