import Codelab.ThreadPoolTasks
import Codelab.Theory.Progress

/-! The end of the pool. Once `stop_` is set the workers leave one after the other, at the latest
when they are through with the task at hand, and the destructor joins them all. -/

namespace Codelab.ThreadPool

open Census

/-- The steps that a worker has before it when `stop_` is set. It does not come to `wait` and
`take` any more. -/
def WorkerPc.remaining {α : Type} : WorkerPc α → ℕ
  | .done => 0
  | .leave => 1
  | .exitTest => 2
  | .test => 3
  | .lock => 4
  | .blocked | .run _ => 5
  | .unlock _ | .wait | .take => 6

def DestructorPc.remaining (poolSize : ℕ) : DestructorPc → ℕ
  | .returned => 0
  | .join i => poolSize - i + 1
  | .notifyAll => poolSize + 2
  | .unlock | .setStop | .lock | .idle => poolSize + 3

variable {poolSize : ℕ} {τ α : Type} {s s' : State poolSize τ α} {w : Fin poolSize}

def State.remaining (s : State poolSize τ α) : ℕ :=
  census s.worker WorkerPc.remaining + s.destructor.remaining poolSize

theorem remaining_le : s.remaining ≤ 7 * poolSize + 3 := by
  have workers : census s.worker WorkerPc.remaining ≤ census s.worker fun _ => 6 :=
    census_mono fun w => by cases s.worker w <;> simp [WorkerPc.remaining]
  have six : census s.worker (fun _ => 6) = poolSize * 6 := by simp [census]
  have destructor : s.destructor.remaining poolSize ≤ poolSize + 3 := by
    cases s.destructor <;> simp only [DestructorPc.remaining] <;> omega
  rw [State.remaining]
  omega

/-- What holds when `stop_` has been set. -/
structure Stopping [Fintype τ] (s : State poolSize τ α) : Prop where
  inv : Inv s
  stop : s.stop = true
  quiet : ∀ t, s.caller t = .idle

variable [Fintype τ]

theorem Stopping.begun (h : Stopping s) : s.destructor.stopped := h.inv.stop.mp h.stop

/-- A worker that is neither blocked nor gone can go on, if the mutex is free for it. -/
theorem Stopping.worker_moves (h : Stopping s) (up : s.worker w ≠ .blocked)
    (alive : s.worker w ≠ .done) (free : s.worker w = .lock → s.mutex = none) :
    ∃ s', s.workerHandler w = some s' := by
  have sound := h.inv.sound w
  cases here : s.worker w with
  | lock => exact ⟨_, by simp only [State.workerHandler, here, if_pos (free here)]; rfl⟩
  | blocked => exact absurd here up
  | done => exact absurd here alive
  | take =>
    rw [here, h.stop] at sound
    cases sound.1
  | _ => exact ⟨_, by simp only [State.workerHandler, here]; rfl⟩

/-- A worker that holds the mutex can go on. -/
theorem Stopping.holder_moves (h : Stopping s) (held : s.mutex = some (.worker w)) :
    ∃ s', s.workerHandler w = some s' := by
  have holds : (s.worker w).holds := (h.inv.guards (.worker w)).mp held
  refine h.worker_moves (fun here => ?_) (fun here => ?_) (fun here => ?_) <;>
    rw [here] at holds <;> exact holds.elim

/-- A worker takes a step: it has one less before it. -/
theorem Stopping.worker (h : Stopping s) {pc : WorkerPc α}
    (moved : s'.worker = Function.update s.worker w pc) (caller : s'.caller = s.caller)
    (destructor : s'.destructor = s.destructor) (stop : s'.stop = s.stop) (inv : Inv s')
    (less : pc.remaining < (s.worker w).remaining) :
    Stopping s' ∧ s'.remaining < s.remaining := by
  refine ⟨⟨inv, stop.trans h.stop, fun t => by rw [caller, h.quiet]⟩, ?_⟩
  have sum : census (Function.update s.worker w pc) WorkerPc.remaining + _ = _ := census_update
  rw [State.remaining, State.remaining, moved, destructor]
  omega

theorem Stopping.workerHandler (h : Stopping s) (next : s.workerHandler w = some s') :
    Stopping s' ∧ s'.remaining < s.remaining := by
  have sound := h.inv.sound w
  have inv := h.inv.workerHandler next
  cases here : s.worker w with
  | lock =>
    simp only [State.workerHandler, here] at next
    split_ifs at next
    obtain rfl := Option.some.inj next
    exact h.worker rfl rfl rfl rfl inv (by rw [here]; exact Nat.lt_succ_self _)
  | test =>
    simp only [State.workerHandler, here, h.stop, true_or, if_true, Option.some.injEq] at next
    subst next
    exact h.worker rfl rfl rfl rfl inv (by rw [here]; exact Nat.lt_succ_self _)
  | exitTest =>
    simp only [State.workerHandler, here, h.stop, if_true, Option.some.injEq] at next
    subst next
    exact h.worker rfl rfl rfl rfl inv (by rw [here]; exact Nat.lt_succ_self _)
  | wait | take =>
    rw [here, h.stop] at sound
    cases sound.1
  | blocked | done => simp only [State.workerHandler, here, reduceCtorEq] at next
  | _ =>
    simp only [State.workerHandler, here, Option.some.injEq] at next
    subst next
    exact h.worker rfl rfl rfl rfl inv (by rw [here]; exact Nat.lt_succ_self _)

theorem Stopping.destruct (h : Stopping s) (next : s.destruct = some s') :
    Stopping s' ∧ s'.remaining < s.remaining := by
  have inv := h.inv.destruct next
  have begun := h.begun
  cases here : s.destructor with
  | idle => simp only [State.destruct, here, reduceCtorEq] at next
  | lock | setStop =>
    rw [here] at begun
    exact begun.elim
  | unlock =>
    simp only [State.destruct, here, Option.some.injEq] at next
    subst next
    refine ⟨⟨inv, h.stop, h.quiet⟩, ?_⟩
    simp only [State.remaining, DestructorPc.remaining, here]
    omega
  | notifyAll =>
    simp only [State.destruct, here, Option.some.injEq] at next
    subst next
    refine ⟨⟨inv, h.stop, h.quiet⟩, ?_⟩
    have woken : census s.notifyAll.worker WorkerPc.remaining ≤
        census s.worker WorkerPc.remaining := by
      refine census_mono fun w => ?_
      rcases Woken.all s.worker w with same | ⟨slept, up⟩
      · exact Nat.le_of_eq (congrArg _ same)
      · rw [slept, show s.notifyAll.worker w = .lock from up]
        exact Nat.le_succ _
    simp only [State.remaining, DestructorPc.remaining, here] at woken ⊢
    omega
  | join i =>
    simp only [State.destruct, here] at next
    split_ifs at next with inside ended
    · obtain rfl := Option.some.inj next
      refine ⟨⟨inv, h.stop, h.quiet⟩, ?_⟩
      simp only [State.remaining, DestructorPc.remaining, here]
      omega
    · obtain rfl := Option.some.inj next
      refine ⟨⟨inv, h.stop, h.quiet⟩, ?_⟩
      simp only [State.remaining, DestructorPc.remaining, here]
      omega
  | returned => simp only [State.destruct, here, reduceCtorEq] at next

variable [DecidableEq τ]

theorem Stopping.act (h : Stopping s) {a : Action poolSize τ α} (proper : s.proper a)
    (next : s.act a = some s') : Stopping s' ∧ s'.remaining < s.remaining := by
  have begun := h.begun
  cases a with
  | addTask t task =>
    rw [show s.destructor = .idle from proper] at begun
    exact begun.elim
  | destroy =>
    simp only [State.act] at next
    split_ifs at next with idle
    rw [idle] at begun
    exact begun.elim
  | worker w => exact h.workerHandler next
  | caller t woken => simp only [State.act, State.addTask, h.quiet t, reduceCtorEq] at next
  | destructor => exact h.destruct next
  | spurious w =>
    have inv := h.inv.act next
    simp only [State.act] at next
    split_ifs at next with sleeps
    obtain rfl := Option.some.inj next
    exact h.worker rfl rfl rfl rfl inv (by rw [sleeps]; exact Nat.lt_succ_self _)

/-- Whoever the destructor waits for can go on, or the holder of the mutex can. -/
theorem Stopping.moves (h : Stopping s) (on : s.destructor ≠ .returned) :
    ∃ a, s.proper a ∧ ∃ s', s.act a = some s' := by
  have begun := h.begun
  cases here : s.destructor with
  | idle | lock | setStop =>
    rw [here] at begun
    exact begun.elim
  | unlock | notifyAll =>
    exact ⟨.destructor, trivial, _, by simp only [State.act, State.destruct, here]; rfl⟩
  | join i =>
    by_cases inside : i < poolSize
    · by_cases ended : s.worker ⟨i, inside⟩ = .done
      · exact ⟨.destructor, trivial, _, by
          simp only [State.act, State.destruct, here, dif_pos inside, if_pos ended]; rfl⟩
      · have up := h.inv.notified (by rw [here]; trivial) ⟨i, inside⟩
        cases held : s.mutex with
        | none => exact ⟨.worker ⟨i, inside⟩, trivial, h.worker_moves up ended fun _ => held⟩
        | some p =>
          have holds := (h.inv.guards p).mp held
          cases p with
          | worker v => exact ⟨.worker v, trivial, h.holder_moves held⟩
          | caller t =>
            rw [State.holds, h.quiet] at holds
            exact holds.elim
          | destructor =>
            rw [State.holds, here] at holds
            exact holds.elim
    · exact ⟨.destructor, trivial, _, by
        simp only [State.act, State.destruct, here, dif_neg inside]; rfl⟩
  | returned => exact absurd here on

theorem finishes : (machine poolSize τ α).Finishes (fun s a => s.proper a) Stopping
    (fun s => s.destructor = .returned) State.remaining where
  down s a s' h proper next := h.act (of_decide_eq_true proper) next
  moves s h on := by
    obtain ⟨a, proper, next⟩ := h.moves on
    exact ⟨a, decide_eq_true proper, next⟩

theorem accounts_reachable [DecidableEq α]
    (h : (machine poolSize τ α).ReachableBy State.proper s) : Inv s ∧ Accounts s := by
  refine h.invariant (fun s => Inv s ∧ Accounts s) (fun s start => ?_)
    fun s a s' hs proper next => ⟨hs.1.act next, hs.2.act hs.1 proper next⟩
  rw [show s = initial poolSize τ α from start]
  exact ⟨inv_initial, accounts_initial⟩

/-- Once `stop_` is set, at most `7 * poolSize + 3` steps follow, in whatever order the threads take
them, and when there is none left the destructor has returned and all workers are gone. -/
theorem shutdown_completes (h : (machine poolSize τ α).ReachableBy State.proper s)
    (stopped : s.stop = true) {as : List (Action poolSize τ α)}
    (run : (machine poolSize τ α).runBy (fun s a => s.proper a) s as = some s') :
    as.length ≤ 7 * poolSize + 3 ∧
      ((∀ a, s'.proper a → s'.act a = none) →
        s'.destructor = .returned ∧ ∀ w, s'.worker w = .done) := by
  classical
  obtain ⟨inv, accounts⟩ := accounts_reachable h
  have begun : s.destructor ≠ .idle := by
    rintro idle
    rw [inv.stop, idle] at stopped
    exact stopped.elim
  have stopping : Stopping s := ⟨inv, stopped, accounts.quiet begun⟩
  refine ⟨?_, fun stuck => ?_⟩
  · have paid := (finishes.length_le stopping run).2
    have bound := remaining_le (s := s)
    omega
  · have returned := finishes.goal_of_stuck stopping run fun a proper =>
      stuck a (of_decide_eq_true proper)
    have reached := Machine.runBy_reachable (h.mono fun s a proper => decide_eq_true proper) run
    have settled := (accounts_reachable (reached.mono fun s a proper => of_decide_eq_true proper)).2
    exact ⟨returned, settled.returned returned⟩

/-- The steps that are left when the worker is at its first task, and a second one is queued. -/
def lastSteps : List (Action 1 (Fin 1) ℕ) :=
  [.destructor, .destructor, .worker 0, .worker 0, .worker 0, .worker 0, .worker 0, .destructor,
    .destructor]

theorem shutdown_completes_busy : ∃ s s' : State 1 (Fin 1) ℕ, s.stop = true ∧
    (machine 1 (Fin 1) ℕ).runBy (fun s a => s.proper a) s lastSteps = some s' ∧
      s'.destructor = .returned ∧ lastSteps.length ≤ 7 * 1 + 3 := by
  have ran : (((machine 1 (Fin 1) ℕ).runBy (fun s a => s.proper a) (initial 1 (Fin 1) ℕ)
      [.addTask 0 7, .caller 0 none, .caller 0 none, .caller 0 none, .caller 0 none,
        .addTask 0 8, .caller 0 none, .caller 0 none, .caller 0 none, .caller 0 none,
        .worker 0, .worker 0, .worker 0, .worker 0, .worker 0, .destroy, .destructor,
        .destructor]).bind fun s =>
      ((machine 1 (Fin 1) ℕ).runBy (fun s a => s.proper a) s lastSteps).map fun s' =>
        (s.stop, s'.destructor)) = some (true, .returned) := by decide +kernel
  obtain ⟨s, first, rest⟩ := Option.bind_eq_some_iff.mp ran
  obtain ⟨s', last, result⟩ := Option.map_eq_some_iff.mp rest
  obtain ⟨stopped, returned⟩ := Prod.mk.inj result
  have start : (machine 1 (Fin 1) ℕ).init (initial 1 (Fin 1) ℕ) := rfl
  have reached := (Machine.runBy_reachable (.init start) first).mono fun s a admitted =>
    of_decide_eq_true admitted
  exact ⟨s, s', stopped, last, returned, (shutdown_completes reached stopped last).1⟩

end Codelab.ThreadPool
