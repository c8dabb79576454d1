import Codelab.Theory.Machine
import Codelab.Theory.Census

/-! How long runs can go on. A measure that every admitted step lowers pays for the steps of a run,
and where a step is possible as long as the goal is not reached, a run that has to end is at the
goal. For loops that begin again when another party has changed what they have read, the measure
counts the changes to come, each worth more than all that it can undo, and the work until then. -/

namespace Machine

variable {σ α : Type*} {M : Machine σ α} {ok : σ → α → Bool} {inv goal : σ → Prop}
  {measure : σ → ℕ}

/-- From the states with `inv`, all runs come to the goal and end. -/
structure Finishes (M : Machine σ α) (ok : σ → α → Bool) (inv goal : σ → Prop)
    (measure : σ → ℕ) : Prop where
  down : ∀ s a s', inv s → ok s a = true → M.next s a = some s' →
    inv s' ∧ measure s' < measure s
  moves : ∀ s, inv s → ¬ goal s → ∃ a, ok s a = true ∧ ∃ s', M.next s a = some s'

namespace Finishes

variable {s s' : σ} {as : List α}

theorem length_le (h : M.Finishes ok inv goal measure) (start : inv s)
    (hrun : M.runBy ok s as = some s') : inv s' ∧ as.length + measure s' ≤ measure s := by
  induction as generalizing s with
  | nil =>
    have same : s = s' := by simpa only [runBy, Option.some.injEq] using hrun
    exact same ▸ ⟨start, Nat.le_of_eq (Nat.zero_add _)⟩
  | cons a as ih =>
    rw [runBy] at hrun
    split_ifs at hrun with admitted
    obtain ⟨mid, hnext, hrest⟩ := Option.bind_eq_some_iff.mp hrun
    obtain ⟨hmid, less⟩ := h.down s a mid start admitted hnext
    obtain ⟨hend, rest⟩ := ih hmid hrest
    refine ⟨hend, ?_⟩
    rw [List.length_cons]
    omega

/-- The end of a run that cannot go on. -/
theorem goal_of_stuck (h : M.Finishes ok inv goal measure) (start : inv s)
    (hrun : M.runBy ok s as = some s')
    (stuck : ∀ a, ok s' a = true → M.next s' a = none) : goal s' := by
  by_contra short
  obtain ⟨a, admitted, last, hnext⟩ := h.moves s' (h.length_le start hrun).1 short
  rw [stuck a admitted] at hnext
  cases hnext

end Finishes

section Retry

open Census

variable {ι β : Type*} [Fintype ι] {dearest changes changes' : ℕ} {f f' : ι → β}
  {cost cost' : β → ℕ} {i : ι}

/-- `changes` more changes, and for each party the cost of what it has to do if none happens. -/
def budget (dearest changes : ℕ) (f : ι → β) (cost : β → ℕ) : ℕ :=
  changes * (Fintype.card ι * dearest + 1) + census f cost

/-- A change pays for all the loops that it sets back. -/
theorem budget_lt_of_change (less : changes' < changes) (dear : ∀ j, cost' (f' j) ≤ dearest) :
    budget dearest changes' f' cost' < budget dearest changes f cost := by
  have back : census f' cost' ≤ Fintype.card ι * dearest := census_le_card dear
  have paid := Nat.mul_le_mul_right (Fintype.card ι * dearest + 1) (Nat.succ_le_of_lt less)
  rw [Nat.succ_mul] at paid
  unfold budget
  omega

/-- A step that changes nothing for the others is work done. -/
theorem budget_lt_of_work [DecidableEq ι] {b : β} (same : changes' ≤ changes)
    (less : cost b < cost (f i)) :
    budget dearest changes' (Function.update f i b) cost < budget dearest changes f cost := by
  have done : census (Function.update f i b) cost + cost (f i) = census f cost + cost b :=
    census_update
  have kept := Nat.mul_le_mul_right (Fintype.card ι * dearest + 1) same
  unfold budget
  omega

theorem budget_lt {most : ℕ} (few : changes ≤ most) (dear : ∀ j, cost (f j) ≤ dearest) :
    budget dearest changes f cost < (most + 1) * (Fintype.card ι * dearest + 1) := by
  have work : census f cost ≤ Fintype.card ι * dearest := census_le_card dear
  have paid := Nat.mul_le_mul_right (Fintype.card ι * dearest + 1) few
  rw [Nat.succ_mul]
  unfold budget
  omega

end Retry

end Machine
