import Codelab.TaggedStack
import Codelab.Theory.Progress

/-! Calls of the lock-free `Stack` keep each other from returning only by returning themselves: a
compare-and-swap of `head_` fails because that of another call has succeeded. -/

namespace Codelab.TaggedStack

open Census Machine

/-- A call in progress will change `head_` at most once. -/
def Pc.changes {α : Type*} : Pc α → ℕ
  | .idle | .popped _ => 0
  | _ => 1

/-- The steps to the next compare-and-swap, and this one. -/
def Pc.left {α : Type*} : Pc α → ℕ
  | .pushLoad _ | .popLoad => 3
  | .pushLink .. | .popNext .. => 2
  | .pushCas .. | .popCas .. => 1
  | .idle | .popped _ => 0

/-- A call in progress goes on, and no compare-and-swap fails without a reason. -/
def Action.goesOn {α τ : Type*} : Action α τ → Bool
  | .step _ spurious => !spurious
  | _ => false

variable {α τ : Type*} [DecidableEq α] [DecidableEq τ] {s s' : State α τ} {t : τ} {pc : Pc α}

namespace State

/-- `old_head` is not the value of `head_` any more. -/
def stale (s : State α τ) : Pc α → Bool
  | .pushLink _ oldHead | .pushCas _ oldHead => s.head ≠ oldHead
  | .popNext node tag | .popCas node tag _ => s.head ≠ ⟨some node, tag⟩
  | _ => false

/-- A failing compare-and-swap loads `head_` again, and the loop has two more steps. -/
def cost (s : State α τ) (pc : Pc α) : ℕ := pc.left + if s.stale pc then 2 else 0

omit [DecidableEq τ] in
theorem cost_le (s : State α τ) (pc : Pc α) : s.cost pc ≤ 4 := by
  unfold cost
  split_ifs with stale
  · cases pc <;> first | cases stale | simp [Pc.left]
  · cases pc <;> simp [Pc.left]

variable [Fintype τ]

def budget (s : State α τ) : ℕ := Machine.budget 4 (census s.pc Pc.changes) s.pc s.cost

/-- A step that leaves `head_` alone. -/
theorem budget_work (moved : s'.pc = Function.update s.pc t pc) (head : s'.head = s.head)
    (few : pc.changes ≤ (s.pc t).changes) (less : s.cost pc < s.cost (s.pc t)) :
    s'.budget < s.budget := by
  have stale : s'.stale = s.stale := by
    funext pc
    cases pc <;> simp only [State.stale, head]
  have cost : s'.cost = s.cost := by
    funext pc
    rw [State.cost, State.cost, stale]
  have count : census (Function.update s.pc t pc) Pc.changes + (s.pc t).changes = _ := census_update
  rw [State.budget, State.budget, moved, cost]
  exact budget_lt_of_work (by omega) less

/-- A compare-and-swap that succeeds ends its call, and may set all others back. -/
theorem budget_change (moved : s'.pc = Function.update s.pc t pc)
    (less : pc.changes < (s.pc t).changes) : s'.budget < s.budget := by
  have count : census (Function.update s.pc t pc) Pc.changes + (s.pc t).changes = _ := census_update
  refine budget_lt_of_change ?_ fun u => s'.cost_le (s'.pc u)
  rw [moved]
  omega

/-- The value that `Pop` tests is fresh. -/
theorem budget_popTest (pending : (s.pc t).changes = 1) (less : 2 < s.cost (s.pc t)) :
    (s.popTest t).budget < s.budget := by
  cases ptr : s.head.ptr with
  | none =>
    refine budget_work (t := t) rfl rfl ?_ ?_
    · rw [ptr]
      exact Nat.zero_le _
    · rw [ptr]
      exact Nat.lt_of_le_of_lt (Nat.zero_le 2) less
  | some node =>
    refine budget_work (t := t) rfl rfl ?_ ?_
    · rw [ptr, pending]
      rfl
    · have fresh : s.head = ⟨some node, s.head.tag⟩ := by rw [← ptr]
      have current : s.stale (.popNext node s.head.tag) = false :=
        decide_eq_false (not_not_intro fresh)
      have two : s.cost (.popNext node s.head.tag) = 2 := by
        rw [State.cost, if_neg (by simp [current])]
        rfl
      rw [ptr]
      exact two.trans_lt less

theorem budget_step (next : s.step t false = some s') : s'.budget < s.budget := by
  cases here : s.pc t with
  | pushLoad node =>
    simp only [State.step, here] at next
    obtain rfl := Option.some.inj next
    refine budget_work rfl rfl (by rw [here]; rfl) ?_
    simp [here, State.cost, State.stale, Pc.left]
  | pushLink node oldHead =>
    simp only [State.step, here] at next
    obtain rfl := Option.some.inj next
    refine budget_work rfl rfl (by rw [here]; rfl) ?_
    rw [here]
    exact Nat.add_lt_add_right (show 1 < 2 by decide) _
  | pushCas node oldHead =>
    simp only [State.step, here] at next
    split_ifs at next with agree <;> obtain rfl := Option.some.inj next
    · exact budget_change rfl (by rw [here]; exact Nat.one_pos)
    · have changed : s.head ≠ oldHead := fun same => agree ⟨same, trivial⟩
      refine budget_work rfl rfl (by rw [here]; rfl) ?_
      simp [here, State.cost, State.stale, Pc.left, changed]
  | popLoad =>
    simp only [State.step, here] at next
    obtain rfl := Option.some.inj next
    exact budget_popTest (by rw [here]; rfl) (by simp [here, State.cost, State.stale, Pc.left])
  | popNext node tag =>
    simp only [State.step, here] at next
    obtain rfl := Option.some.inj next
    refine budget_work rfl rfl (by rw [here]; rfl) ?_
    rw [here]
    exact Nat.add_lt_add_right (show 1 < 2 by decide) _
  | popCas node tag newHead =>
    simp only [State.step, here] at next
    split_ifs at next with agree <;> obtain rfl := Option.some.inj next
    · exact budget_change rfl (by rw [here]; exact Nat.one_pos)
    · have changed : s.head ≠ ⟨some node, tag⟩ := fun same => agree ⟨same, trivial⟩
      refine budget_popTest (by rw [here]; rfl) ?_
      simp [here, State.cost, State.stale, Pc.left, changed]
  | idle | popped result =>
    simp only [State.step, here] at next
    cases next

end State

variable [Fintype τ]

theorem finishes : (machine α τ).Finishes (fun _ a => a.goesOn) (fun _ => True)
    (fun s => ∀ t, s.resting t = true) State.budget where
  down s a s' _ onward next := by
    cases a with
    | step t spurious =>
      obtain rfl : spurious = false := Bool.not_eq_true' _ |>.mp onward
      exact ⟨trivial, State.budget_step next⟩
    | _ => cases onward
  moves s _ on := by
    obtain ⟨t, busy⟩ := not_forall.mp on
    refine ⟨.step t false, rfl, Option.ne_none_iff_exists'.mp fun stuck => busy ?_⟩
    have stuck : s.step t false = none := stuck
    unfold State.resting
    cases here : s.pc t with
    | pushCas | popCas =>
      simp only [State.step, here] at stuck
      split_ifs at stuck
    | idle | popped => rfl
    | _ =>
      simp only [State.step, here] at stuck
      cases stuck

/-- From any state, the calls in progress take a bounded number of steps, however these interleave
and whichever threads stop on the way, and where none of them can go on, all have returned. -/
theorem stack_lockfree {as : List (Action α τ)}
    (run : (machine α τ).runBy (fun _ a => a.goesOn) s as = some s') :
    as.length < (Fintype.card τ + 1) * (4 * Fintype.card τ + 1) ∧
      ((∀ t, s'.step t false = none) → ∀ t, s'.resting t = true) := by
  refine ⟨?_, fun stuck => ?_⟩
  · have paid := (finishes.length_le trivial run).2
    have few : census s.pc Pc.changes ≤ Fintype.card τ * 1 :=
      census_le_card fun t => by cases s.pc t <;> simp [Pc.changes]
    have bound := budget_lt few fun t => s.cost_le (s.pc t)
    rw [Nat.mul_one, Nat.mul_comm _ 4] at bound
    exact (Nat.le_of_add_right_le paid).trans_lt bound
  · refine finishes.goal_of_stuck trivial run fun a onward => ?_
    cases a with
    | step t spurious =>
      obtain rfl : spurious = false := Bool.not_eq_true' _ |>.mp onward
      exact stuck t
    | _ => cases onward

/-- The first thread stops before its compare-and-swap; the second one pushes and pops. -/
theorem stack_lockfree_halted : ∃ s s' : State ℕ (Fin 2), s.pc 0 = .pushCas 1 ⟨none, 0⟩ ∧
    (machine ℕ (Fin 2)).runBy (fun _ a => a.goesOn) s (List.replicate 3 (.step 1 false)) = some s' ∧
    s'.pc 1 = .popped (some 2) ∧
    (List.replicate 3 (Action.step (α := ℕ) (1 : Fin 2) false)).length <
      (Fintype.card (Fin 2) + 1) * (4 * Fintype.card (Fin 2) + 1) := by
  have ran : ((machine ℕ (Fin 2)).run
      ⟨⟨none, 0⟩, fun _ => none, fun _ => .idle, fun _ => true, 0, fun _ => 0, []⟩
      [.push 0 1, .step 0 false, .step 0 false, .push 1 2, .step 1 false, .step 1 false,
        .step 1 false, .pop 1]).bind (fun s =>
        ((machine ℕ (Fin 2)).runBy (fun _ a => a.goesOn) s (List.replicate 3 (.step 1 false))).map
          fun s' => (s.pc 0, s'.pc 1)) = some (.pushCas 1 ⟨none, 0⟩, .popped (some 2)) := by decide
  obtain ⟨s, -, ran⟩ := Option.bind_eq_some_iff.mp ran
  obtain ⟨s', run, results⟩ := Option.map_eq_some_iff.mp ran
  obtain ⟨halted, popped⟩ := Prod.ext_iff.mp results
  exact ⟨s, s', halted, run, popped, (stack_lockfree run).1⟩

end Codelab.TaggedStack
