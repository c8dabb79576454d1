import Mathlib.Data.Nat.Notation
import Mathlib.Logic.Function.Basic
import Mathlib.Tactic.SplitIfs

/-! Labelled machines: a set of initial states and a partial step function.
An action carries everything a step does not determine by itself (which thread
moves, which value the environment supplies, whether a weak compare-and-swap
fails spuriously), so `next` stays executable and runs can be evaluated.
`ReachableBy ok` collects the states of the runs all of whose steps meet `ok`. -/

structure Machine (σ : Type*) (α : Type*) where
  init : σ → Prop
  next : σ → α → Option σ

namespace Machine

variable {σ α : Type*} (M : Machine σ α)

inductive ReachableBy (ok : σ → α → Prop) : σ → Prop
  | init {s : σ} : M.init s → ReachableBy ok s
  | step {s s' : σ} {a : α} : ReachableBy ok s → ok s a → M.next s a = some s' → ReachableBy ok s'

/-- Reachable by any run. -/
def Reachable (s : σ) : Prop := M.ReachableBy (fun _ _ => True) s

/-- Follow a list of actions; `none` as soon as one of them is not enabled. -/
def run (s : σ) : List α → Option σ
  | [] => some s
  | a :: as => (M.next s a).bind fun s' => run s' as

/-- Follow a list of actions as long as each of them meets `ok`. -/
def runBy (ok : σ → α → Bool) (s : σ) : List α → Option σ
  | [] => some s
  | a :: as => if ok s a then (M.next s a).bind fun s' => runBy ok s' as else none

/-- The runs from `s`. -/
def startingAt (s : σ) : Machine σ α := { M with init := fun s' => s' = s }

variable {M}

theorem ReachableBy.mono {ok ok' : σ → α → Prop} {s : σ} (h : M.ReachableBy ok s)
    (weaker : ∀ s a, ok s a → ok' s a) : M.ReachableBy ok' s := by
  induction h with
  | init hs => exact .init hs
  | step _ hok hnext ih => exact .step ih (weaker _ _ hok) hnext

theorem ReachableBy.reachable {ok : σ → α → Prop} {s : σ} (h : M.ReachableBy ok s) :
    M.Reachable s := h.mono fun _ _ _ => trivial

/-- A condition that runs under a stronger one bring about by themselves need not be asked for. -/
theorem ReachableBy.strengthen {ok ok' : σ → α → Prop} {s : σ} (h : M.ReachableBy ok s)
    (gives : ∀ s, M.ReachableBy ok' s → ∀ a, ok s a → ok' s a) : M.ReachableBy ok' s := by
  induction h with
  | init hs => exact .init hs
  | step _ hok hnext ih => exact .step ih (gives _ ih _ hok) hnext

theorem ReachableBy.continued {ok : σ → α → Prop} {s s' : σ} (h : M.ReachableBy ok s)
    (on : (M.startingAt s).ReachableBy ok s') : M.ReachableBy ok s' := by
  induction on with
  | init here => exact here ▸ h
  | step _ hok hnext ih => exact .step ih hok hnext

/-- The induction over a run, stated once: an initial fact that every admitted
step preserves holds in every state reached. -/
theorem ReachableBy.invariant {ok : σ → α → Prop} (inv : σ → Prop)
    (start : ∀ s, M.init s → inv s)
    (keep : ∀ s a s', inv s → ok s a → M.next s a = some s' → inv s')
    {s : σ} (h : M.ReachableBy ok s) : inv s := by
  induction h with
  | init hs => exact start _ hs
  | step _ hok hnext ih => exact keep _ _ _ ih hok hnext

theorem Reachable.init {s : σ} (h : M.init s) : M.Reachable s := ReachableBy.init h

theorem Reachable.step {s s' : σ} {a : α} (h : M.Reachable s) (hnext : M.next s a = some s') :
    M.Reachable s' := ReachableBy.step h trivial hnext

theorem Reachable.invariant (inv : σ → Prop) (start : ∀ s, M.init s → inv s)
    (keep : ∀ s a s', inv s → M.next s a = some s' → inv s')
    {s : σ} (h : M.Reachable s) : inv s :=
  ReachableBy.invariant inv start (fun s a s' hs _ => keep s a s' hs) h

theorem run_append (s : σ) (as bs : List α) :
    M.run s (as ++ bs) = (M.run s as).bind fun s' => M.run s' bs := by
  induction as generalizing s with
  | nil => rfl
  | cons a as ih =>
    rw [List.cons_append, run, run, Option.bind_assoc]
    exact congrArg _ (funext ih)

theorem run_reachable {s s' : σ} {as : List α} (h : M.Reachable s)
    (hrun : M.run s as = some s') : M.Reachable s' := by
  induction as generalizing s with
  | nil =>
    have same : s = s' := by simpa only [run, Option.some.injEq] using hrun
    exact same ▸ h
  | cons a as ih =>
    obtain ⟨mid, hnext, hrest⟩ := Option.bind_eq_some_iff.mp hrun
    exact ih (h.step hnext) hrest

/-- What every step preserves holds at the end of a run if it does at its start. -/
theorem run_invariant (inv : σ → Prop)
    (keep : ∀ s a s', inv s → M.next s a = some s' → inv s') {s s' : σ} {as : List α}
    (h : inv s) (hrun : M.run s as = some s') : inv s' := by
  induction as generalizing s with
  | nil =>
    have same : s = s' := by simpa only [run, Option.some.injEq] using hrun
    exact same ▸ h
  | cons a as ih =>
    obtain ⟨mid, hnext, hrest⟩ := Option.bind_eq_some_iff.mp hrun
    exact ih (keep s a mid h hnext) hrest

/-- A count that goes down with the steps of one party and stays with those of the others has gone
down at the end of a run by the number of the party's steps in it. -/
theorem run_countdown (own : α → Bool) (ok : α → Prop) (left : σ → ℕ → Prop)
    (turn : ∀ s a s' k, left s k → ok a → own a = true → M.next s a = some s' →
      ∃ k', k = k' + 1 ∧ left s' k')
    (wait : ∀ s a s' k, left s k → ok a → own a = false → M.next s a = some s' → left s' k)
    {s s' : σ} {as : List α} {k : ℕ} (h : left s k) (admitted : ∀ a ∈ as, ok a)
    (hrun : M.run s as = some s') : ∃ rest, rest + as.countP own = k ∧ left s' rest := by
  induction as generalizing s k with
  | nil =>
    have same : s = s' := by simpa only [run, Option.some.injEq] using hrun
    exact ⟨k, rfl, same ▸ h⟩
  | cons a as ih =>
    obtain ⟨mid, hnext, hrest⟩ := Option.bind_eq_some_iff.mp hrun
    obtain ⟨now, later⟩ := List.forall_mem_cons.mp admitted
    cases mine : own a with
    | true =>
      obtain ⟨k', rfl, lower⟩ := turn s a mid k h now mine hnext
      obtain ⟨rest, count, at_end⟩ := ih lower later hrest
      refine ⟨rest, ?_, at_end⟩
      rw [List.countP_cons_of_pos mine]
      omega
    | false =>
      obtain ⟨rest, count, at_end⟩ := ih (wait s a mid k h now mine hnext) later hrest
      refine ⟨rest, ?_, at_end⟩
      rwa [List.countP_cons_of_neg (by rw [mine]; decide)]

theorem run_eq_runBy (s : σ) (as : List α) : M.run s as = M.runBy (fun _ _ => true) s as := by
  induction as generalizing s with
  | nil => rfl
  | cons a as ih =>
    rw [run, runBy, if_pos rfl]
    exact congrArg _ (funext ih)

theorem runBy_reachable {ok : σ → α → Bool} {s s' : σ} {as : List α}
    (h : M.ReachableBy (fun s a => ok s a) s) (hrun : M.runBy ok s as = some s') :
    M.ReachableBy (fun s a => ok s a) s' := by
  induction as generalizing s with
  | nil =>
    have same : s = s' := by simpa only [runBy, Option.some.injEq] using hrun
    exact same ▸ h
  | cons a as ih =>
    rw [runBy] at hrun
    split_ifs at hrun with admitted
    obtain ⟨mid, hnext, hrest⟩ := Option.bind_eq_some_iff.mp hrun
    exact ih (h.step admitted hnext) hrest

end Machine
