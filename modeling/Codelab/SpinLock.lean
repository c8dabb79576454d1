import Codelab.Theory.Machine
import Mathlib.Data.Fin.Basic

/-! `SpinLock` of `cpu_order.cpp`, with any number of slots and the sequentially consistent
store. A step is one load or store of a flag. -/

namespace Codelab.SpinLock

/-- `load i` is about to load flag `i`; `held` and `failed` are `Lock` returned true and false. -/
inductive Pc (maxLocks : ℕ)
  | idle
  | store
  | load (i : Fin maxLocks)
  | undo
  | held
  | failed
  | unlock
  deriving DecidableEq

structure State (maxLocks : ℕ) where
  locks : Fin maxLocks → Int
  pc : Fin maxLocks → Pc maxLocks

inductive Action (maxLocks : ℕ)
  | lock (threadId : Fin maxLocks)
  | unlock (threadId : Fin maxLocks)
  | step (threadId : Fin maxLocks)
  deriving DecidableEq

variable {maxLocks : ℕ}

namespace State

def goto (s : State maxLocks) (t : Fin maxLocks) (pc : Pc maxLocks) : State maxLocks :=
  { s with pc := Function.update s.pc t pc }

def store (s : State maxLocks) (t : Fin maxLocks) (flag : Int) : State maxLocks :=
  { s with locks := Function.update s.locks t flag }

/-- The loop of `Lock` goes on behind flag `i`, or ends. -/
def loadNext (s : State maxLocks) (t i : Fin maxLocks) : State maxLocks :=
  s.goto t (if more : i.val + 1 < maxLocks then .load ⟨i.val + 1, more⟩ else .held)

def step (s : State maxLocks) (t : Fin maxLocks) : Option (State maxLocks) :=
  match s.pc t with
  | .store => some ((s.store t 1).goto t (.load ⟨0, t.pos⟩))
  | .load i => some (if s.locks i > 0 ∧ i ≠ t then s.goto t .undo else s.loadNext t i)
  | .undo => some ((s.store t 0).goto t .failed)
  | .unlock => some ((s.store t 0).goto t .idle)
  | .idle | .held | .failed => none

/-- A thread calls `Lock` when it is out of it and has not got it, and `Unlock` when it has. -/
def act (s : State maxLocks) : Action maxLocks → Option (State maxLocks)
  | .lock t => if s.pc t = .idle ∨ s.pc t = .failed then some (s.goto t .store) else none
  | .unlock t => if s.pc t = .held then some (s.goto t .unlock) else none
  | .step t => s.step t

end State

def initial (maxLocks : ℕ) : State maxLocks where
  locks _ := 0
  pc _ := .idle

def machine (maxLocks : ℕ) : Machine (State maxLocks) (Action maxLocks) where
  init s := s = initial maxLocks
  next := State.act

namespace Pc

/-- The flag as it is at this point. -/
def flag : Pc maxLocks → Int
  | .load _ | .undo | .held | .unlock => 1
  | .idle | .store | .failed => 0

theorem flag_cases (pc : Pc maxLocks) : pc.flag = 0 ∨ pc.flag = 1 := by
  cases pc with
  | idle | store | failed => exact .inl rfl
  | _ => exact .inr rfl

/-- The scan in progress, or the one that has brought the lock, has seen flag `u` down. -/
def Passed (u : Fin maxLocks) : Pc maxLocks → Prop
  | .load i => u < i
  | .held | .unlock => True
  | .idle | .store | .undo | .failed => False

/-- `Lock` has returned true and no `Unlock` has stored since. -/
def Owns : Pc maxLocks → Prop
  | .held | .unlock => True
  | _ => False

theorem Owns.passed {pc : Pc maxLocks} (h : pc.Owns) (u : Fin maxLocks) : pc.Passed u := by
  cases pc with
  | held | unlock => trivial
  | _ => exact h.elim

theorem Passed.flag {pc : Pc maxLocks} {u : Fin maxLocks} (h : pc.Passed u) : pc.flag = 1 := by
  cases pc with
  | load i | held | unlock => rfl
  | _ => exact h.elim

end Pc

/-- Flags say where the threads are, and of two threads one at most has passed the other. -/
structure Inv (s : State maxLocks) : Prop where
  flag : ∀ t, s.locks t = (s.pc t).flag
  apart : ∀ t u, t ≠ u → (s.pc t).Passed u → ¬ (s.pc u).Passed t

variable {s s' : State maxLocks} {t : Fin maxLocks}

theorem inv_initial : Inv (initial maxLocks) where
  flag _ := rfl
  apart _ _ _ passed := passed.elim

/-- A thread moves and sets its flag to match; whoever it passes by this has its flag down. -/
theorem Inv.move (h : Inv s) {pc : Pc maxLocks} (pcs : s'.pc = Function.update s.pc t pc)
    (locks : s'.locks = Function.update s.locks t pc.flag)
    (passed : ∀ u, u ≠ t → pc.Passed u → (s.pc t).Passed u ∨ s.locks u = 0) : Inv s' := by
  have passes (u : Fin maxLocks) (apart : u ≠ t) (now : pc.Passed u) : ¬ (s.pc u).Passed t := by
    rcases passed u apart now with before | down
    · exact h.apart t u apart.symm before
    · intro back
      rw [h.flag, back.flag] at down
      cases down
  refine ⟨fun u => ?_, fun u w apart there => ?_⟩
  · rw [locks, pcs]
    by_cases same : u = t
    · rw [same, Function.update_self, Function.update_self]
    · rw [Function.update_of_ne same, Function.update_of_ne same, h.flag]
  · rw [pcs] at there ⊢
    by_cases mine : u = t
    · subst mine
      rw [Function.update_self] at there
      rw [Function.update_of_ne apart.symm]
      exact passes w apart.symm there
    · rw [Function.update_of_ne mine] at there
      by_cases other : w = t
      · subst other
        rw [Function.update_self]
        exact fun now => passes u apart now there
      · rw [Function.update_of_ne other]
        exact h.apart u w apart there

/-- A move that leaves the flags alone. -/
theorem Inv.goto (h : Inv s) {pc : Pc maxLocks} (same : pc.flag = (s.pc t).flag)
    (passed : ∀ u, u ≠ t → pc.Passed u → (s.pc t).Passed u ∨ s.locks u = 0) :
    Inv (s.goto t pc) := by
  refine h.move rfl ?_ passed
  rw [same, ← h.flag, Function.update_eq_self]
  rfl

theorem Inv.loadNext (h : Inv s) {i : Fin maxLocks} (here : s.pc t = .load i)
    (down : ¬ (s.locks i > 0 ∧ i ≠ t)) : Inv (s.loadNext t i) := by
  have seen (u : Fin maxLocks) (apart : u ≠ t) (upto : u.val ≤ i.val) :
      (s.pc t).Passed u ∨ s.locks u = 0 := by
    rcases Nat.lt_or_eq_of_le upto with before | same
    · left
      rw [here]
      exact before
    · obtain rfl := Fin.ext same
      right
      rcases (s.pc u).flag_cases with zero | one
      · exact (h.flag u).trans zero
      · exact absurd ⟨by rw [h.flag, one]; decide, apart⟩ down
  refine h.goto ?_ fun u apart passed => seen u apart ?_
  · rw [here]
    split <;> rfl
  · split at passed
    · exact Nat.le_of_lt_succ passed
    · have bound := u.isLt
      omega

theorem Inv.step (h : Inv s) (next : s.step t = some s') : Inv s' := by
  cases here : s.pc t with
  | store =>
    simp only [State.step, here, Option.some.injEq] at next
    subst next
    exact h.move rfl rfl fun u _ passed => absurd passed (Nat.not_lt_zero _)
  | load i =>
    simp only [State.step, here, Option.some.injEq] at next
    subst next
    by_cases up : s.locks i > 0 ∧ i ≠ t
    · rw [if_pos up]
      exact h.goto (by rw [here]; rfl) fun u _ passed => passed.elim
    · rw [if_neg up]
      exact h.loadNext here up
  | undo | unlock =>
    simp only [State.step, here, Option.some.injEq] at next
    subst next
    exact h.move rfl rfl fun u _ passed => passed.elim
  | idle | held | failed =>
    simp only [State.step, here, reduceCtorEq] at next

theorem Inv.act (h : Inv s) {a : Action maxLocks} (next : s.act a = some s') : Inv s' := by
  cases a with
  | lock t =>
    simp only [State.act] at next
    split_ifs at next with out
    obtain rfl := Option.some.inj next
    refine h.goto ?_ fun u _ passed => passed.elim
    rcases out with here | here <;> rw [here] <;> rfl
  | unlock t =>
    simp only [State.act] at next
    split_ifs at next with here
    obtain rfl := Option.some.inj next
    refine h.goto (by rw [here]; rfl) fun u _ _ => .inl ?_
    rw [here]
    trivial
  | step t => exact h.step next

theorem inv_reachable (h : (machine maxLocks).Reachable s) : Inv s := by
  refine h.invariant Inv (fun s start => ?_) fun s a s' hs next => hs.act next
  rw [show s = initial maxLocks from start]
  exact inv_initial

theorem Inv.single (h : Inv s) {u : Fin maxLocks} (mine : (s.pc t).Owns) (other : (s.pc u).Owns) :
    t = u := by
  by_contra apart
  exact h.apart t u apart (mine.passed u) (other.passed t)

/-- At most one thread has the lock, and a thread whose `Lock` has failed has its flag down. -/
theorem mutual_exclusion (h : (machine maxLocks).Reachable s) :
    (∀ t u, (s.pc t).Owns → (s.pc u).Owns → t = u) ∧
      ∀ t, s.pc t = .failed → s.locks t = 0 := by
  have inv := inv_reachable h
  refine ⟨fun t u => inv.single, fun t failed => ?_⟩
  rw [inv.flag, failed]
  rfl

/-- The second thread gets the lock while the first one is in its scan, which then fails. -/
theorem mutual_exclusion_contended : ∃ s : State 2, s.pc 1 = .held ∧ s.pc 0 = .failed ∧
    s.locks 0 = 0 ∧ ∀ t, (s.pc t).Owns → t = 1 := by
  have ran : ((machine 2).run (initial 2) [.lock 1, .step 1, .step 1, .lock 0, .step 0, .step 0,
      .step 1, .step 0, .step 0]).map (fun s => (s.pc 1, s.pc 0)) =
        some (.held, .failed) := by decide
  obtain ⟨s, run, seen⟩ := Option.map_eq_some_iff.mp ran
  obtain ⟨held, failed⟩ := Prod.mk.inj seen
  have start : (machine 2).init (initial 2) := rfl
  obtain ⟨one, down⟩ := mutual_exclusion (Machine.run_reachable (.init start) run)
  refine ⟨s, held, failed, down 0 failed, fun t owns => one t 1 owns ?_⟩
  rw [held]
  trivial

end Codelab.SpinLock
