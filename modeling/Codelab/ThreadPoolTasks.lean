import Codelab.ThreadPoolWakeups

/-! What becomes of the tasks. A worker tests `stop_` before it takes a task, so the tasks
that the queue holds when the destructor sets `stop_` are dropped; all others are run. -/

namespace Codelab.ThreadPool

open Census

variable {poolSize : ℕ} {τ α : Type} {s s' : State poolSize τ α} {w : Fin poolSize} {t : τ}

/-- The destructor begins after all calls of `AddTask` have returned, and none follows. -/
def State.proper (s : State poolSize τ α) : Action poolSize τ α → Prop
  | .addTask _ _ => s.destructor = .idle
  | .destroy => ∀ t, s.caller t = .idle
  | _ => True

instance [Fintype τ] (s : State poolSize τ α) : DecidablePred s.proper
  | .addTask _ _ => inferInstanceAs (Decidable (s.destructor = .idle))
  | .destroy => inferInstanceAs (Decidable (∀ t, s.caller t = .idle))
  | .worker _ | .caller _ _ | .destructor | .spurious _ => inferInstanceAs (Decidable True)

section

variable [DecidableEq α]

/-- A worker has taken `task` and not finished it. -/
@[simp] def WorkerPc.has (task : α) : WorkerPc α → ℕ
  | .unlock x | .run x => [x].count task
  | _ => 0

/-- A call of `AddTask` has still to push `task`. -/
@[simp] def CallerPc.has (task : α) : CallerPc α → ℕ
  | .lock x | .push x => [x].count task
  | _ => 0

end

variable [Fintype τ]

/-- Where each task is, and what the destructor finds. -/
structure Accounts [DecidableEq α] (s : State poolSize τ α) : Prop where
  fifo : s.pushed = s.taken ++ s.workerQueue
  passed : ∀ task, s.passed.count task = s.pushed.count task + census s.caller (CallerPc.has task)
  taken : ∀ task, s.taken.count task = s.ran.count task + census s.worker (WorkerPc.has task)
  quiet : s.destructor ≠ .idle → ∀ t, s.caller t = .idle
  left : s.stop = true → s.left = s.workerQueue
  joined : ∀ i, s.destructor = .join i → ∀ w : Fin poolSize, w.val < i → s.worker w = .done
  returned : s.destructor = .returned → ∀ w, s.worker w = .done

theorem accounts_initial [DecidableEq α] : Accounts (initial poolSize τ α) where
  fifo := rfl
  passed task := by
    have none : census (initial poolSize τ α).caller (CallerPc.has task) = 0 :=
      census_eq_zero.mpr fun _ => rfl
    rw [none]
    rfl
  taken task := by
    have none : census (initial poolSize τ α).worker (WorkerPc.has task) = 0 :=
      census_eq_zero.mpr fun _ => rfl
    rw [none]
    rfl
  quiet _ _ := rfl
  left := by rintro ⟨⟩
  joined := by rintro _ ⟨⟩
  returned := by rintro ⟨⟩

variable [DecidableEq α]

/-- A worker moves on. -/
theorem Accounts.worker (h : Accounts s) {p p' : WorkerPc α} (here : s.worker w = p)
    (worker : s'.worker = Function.update s.worker w p')
    (rest : s' = { s with
      worker := s'.worker, mutex := s'.mutex, workerQueue := s'.workerQueue, taken := s'.taken,
      ran := s'.ran })
    (alive : p ≠ .done) (queue : s.stop = true → s'.workerQueue = s.workerQueue)
    (fifo : s'.taken ++ s'.workerQueue = s.taken ++ s.workerQueue)
    (taken : ∀ task, s'.taken.count task + s.ran.count task + p.has task =
      s.taken.count task + s'.ran.count task + p'.has task) : Accounts s' := by
  subst here
  have still {v : Fin poolSize} (done : s.worker v = .done) : s'.worker v = .done := by
    rw [worker, Function.update_of_ne]
    · exact done
    · rintro rfl
      exact alive done
  have caller : s'.caller = s.caller := by rw [rest]
  have destructor : s'.destructor = s.destructor := by rw [rest]
  have stop : s'.stop = s.stop := by rw [rest]
  have passed : s'.passed = s.passed := by rw [rest]
  have pushed : s'.pushed = s.pushed := by rw [rest]
  have left : s'.left = s.left := by rw [rest]
  refine ⟨?_, fun task => ?_, fun task => ?_, fun begun t => ?_, fun stopped => ?_,
    fun i join v low => ?_, fun returned v => ?_⟩
  · rw [pushed, fifo]
    exact h.fifo
  · rw [passed, pushed, caller]
    exact h.passed task
  · have before := h.taken task
    have moved : census (Function.update s.worker w p') (WorkerPc.has task) + _ = _ :=
      census_update
    have change := taken task
    rw [worker]
    omega
  · rw [destructor] at begun
    rw [caller]
    exact h.quiet begun t
  · rw [stop] at stopped
    rw [left, queue stopped]
    exact h.left stopped
  · rw [destructor] at join
    exact still (h.joined i join v low)
  · rw [destructor] at returned
    exact still (h.returned returned v)

theorem Accounts.workerHandler (h : Accounts s) (inv : Inv s)
    (next : s.workerHandler w = some s') : Accounts s' := by
  have sound := inv.sound w
  cases here : s.worker w with
  | lock =>
    simp only [State.workerHandler, here] at next
    split_ifs at next
    obtain rfl := Option.some.inj next
    exact h.worker here rfl rfl (by rintro ⟨⟩) (fun _ => rfl) rfl fun _ => rfl
  | test =>
    simp only [State.workerHandler, here, Option.some.injEq] at next
    subst next
    by_cases pass : s.stop = true ∨ s.workerQueue ≠ []
    · rw [if_pos pass]
      exact h.worker here rfl rfl (by rintro ⟨⟩) (fun _ => rfl) rfl fun _ => rfl
    · rw [if_neg pass]
      exact h.worker here rfl rfl (by rintro ⟨⟩) (fun _ => rfl) rfl fun _ => rfl
  | wait =>
    simp only [State.workerHandler, here, Option.some.injEq] at next
    subst next
    exact h.worker here rfl rfl (by rintro ⟨⟩) (fun _ => rfl) rfl fun _ => rfl
  | blocked => simp only [State.workerHandler, here, reduceCtorEq] at next
  | exitTest =>
    simp only [State.workerHandler, here, Option.some.injEq] at next
    subst next
    by_cases stopped : s.stop = true
    · rw [if_pos stopped]
      exact h.worker here rfl rfl (by rintro ⟨⟩) (fun _ => rfl) rfl fun _ => rfl
    · rw [if_neg stopped]
      exact h.worker here rfl rfl (by rintro ⟨⟩) (fun _ => rfl) rfl fun _ => rfl
  | take =>
    rw [here] at sound
    cases queue : s.workerQueue with
    | nil => simp only [State.workerHandler, here, queue, reduceCtorEq] at next
    | cons task rest =>
      simp only [State.workerHandler, here, queue, Option.some.injEq] at next
      subst next
      refine h.worker here rfl rfl (by rintro ⟨⟩) (fun stopped => ?_) ?_
        fun other => ?_
      · rw [sound.1] at stopped
        cases stopped
      · simp [queue]
      · simp only [State.gotoWorker, List.count_append, WorkerPc.has]
        omega
  | unlock task =>
    simp only [State.workerHandler, here, Option.some.injEq] at next
    subst next
    exact h.worker here rfl rfl (by rintro ⟨⟩) (fun _ => rfl) rfl fun _ => rfl
  | run task =>
    simp only [State.workerHandler, here, Option.some.injEq] at next
    subst next
    refine h.worker here rfl rfl (by rintro ⟨⟩) (fun _ => rfl) rfl
      fun other => ?_
    simp only [State.gotoWorker, List.count_append, WorkerPc.has]
    omega
  | leave =>
    simp only [State.workerHandler, here, Option.some.injEq] at next
    subst next
    exact h.worker here rfl rfl (by rintro ⟨⟩) (fun _ => rfl) rfl fun _ => rfl
  | done => simp only [State.workerHandler, here, reduceCtorEq] at next

/-- The destructor moves on. -/
theorem Accounts.destruct (h : Accounts s) (next : s.destruct = some s') : Accounts s' := by
  obtain ⟨fifo, passed, taken, quiet, left, joined, returned⟩ := h
  cases here : s.destructor with
  | idle => simp only [State.destruct, here, reduceCtorEq] at next
  | lock =>
    rw [here] at quiet
    simp only [State.destruct, here] at next
    split_ifs at next
    obtain rfl := Option.some.inj next
    exact ⟨fifo, passed, taken, fun _ => quiet (by rintro ⟨⟩), left, by rintro _ ⟨⟩, by rintro ⟨⟩⟩
  | setStop =>
    rw [here] at quiet
    simp only [State.destruct, here, Option.some.injEq] at next
    subst next
    exact ⟨fifo, passed, taken, fun _ => quiet (by rintro ⟨⟩), fun _ => rfl, by rintro _ ⟨⟩,
      by rintro ⟨⟩⟩
  | unlock =>
    rw [here] at quiet
    simp only [State.destruct, here, Option.some.injEq] at next
    subst next
    exact ⟨fifo, passed, taken, fun _ => quiet (by rintro ⟨⟩), left, by rintro _ ⟨⟩, by rintro ⟨⟩⟩
  | notifyAll =>
    rw [here] at quiet
    simp only [State.destruct, here, Option.some.injEq] at next
    subst next
    refine ⟨fifo, passed, fun task => ?_, fun _ => quiet (by rintro ⟨⟩), left, ?_, by rintro ⟨⟩⟩
    · have same : census s.notifyAll.worker (WorkerPc.has task) =
          census s.worker (WorkerPc.has task) := (Woken.all s.worker).census_eq rfl
      exact (taken task).trans (by rw [← same]; rfl)
    · rintro i ⟨⟩ w low
      exact absurd low (Nat.not_lt_zero _)
  | join i =>
    rw [here] at quiet
    simp only [State.destruct, here] at next
    split_ifs at next with inside ended
    · obtain rfl := Option.some.inj next
      refine ⟨fifo, passed, taken, fun _ => quiet (by rintro ⟨⟩), left, ?_, by rintro ⟨⟩⟩
      rintro _ ⟨⟩ w low
      rcases Nat.lt_succ_iff_lt_or_eq.mp low with earlier | last
      · exact joined i here w earlier
      · rw [show w = ⟨i, inside⟩ from Fin.ext last]
        exact ended
    · obtain rfl := Option.some.inj next
      refine ⟨fifo, passed, taken, fun _ => quiet (by rintro ⟨⟩), left, by rintro _ ⟨⟩,
        fun _ w => ?_⟩
      exact joined i here w (by omega)
  | returned => simp only [State.destruct, here, reduceCtorEq] at next

/-- When the destructor returns, all tasks have been run but those that it found queued. -/
theorem Accounts.settled (h : Accounts s) (inv : Inv s) (returned : s.destructor = .returned) :
    (s.ran ++ s.left).Perm s.passed := by
  have stop := inv.stop
  rw [returned] at stop
  have unfinished (task : α) : census s.worker (WorkerPc.has task) = 0 :=
    census_eq_zero.mpr fun w => by rw [h.returned returned w]; rfl
  have unpushed (task : α) : census s.caller (CallerPc.has task) = 0 :=
    census_eq_zero.mpr fun t => by rw [h.quiet (by rw [returned]; rintro ⟨⟩) t]; rfl
  refine List.perm_iff_count.mpr fun task => ?_
  rw [h.passed task, unpushed, h.fifo, h.left (stop.mpr trivial), List.count_append,
    List.count_append, h.taken task, unfinished]
  rfl

variable [DecidableEq τ]

/-- A caller moves on, which it does before the destructor begins. -/
theorem Accounts.caller (h : Accounts s) {p p' : CallerPc α} {more : List α}
    (here : s.caller t = p) (caller : s'.caller = Function.update s.caller t p')
    (worker : Woken s.worker s'.worker) (early : s.destructor = .idle)
    (destructor : s'.destructor = s.destructor) (unset : s'.stop = false)
    (taken : s'.taken = s.taken) (ran : s'.ran = s.ran)
    (pushed : s'.pushed = s.pushed ++ more) (queue : s'.workerQueue = s.workerQueue ++ more)
    (passed : ∀ task, s'.passed.count task + p.has task =
      s.passed.count task + more.count task + p'.has task) : Accounts s' := by
  subst here
  rw [early] at destructor
  refine ⟨?_, fun task => ?_, fun task => ?_, fun begun => ?_, fun stopped => ?_,
    fun i join => ?_, fun returned => ?_⟩
  · rw [pushed, queue, taken, h.fifo, List.append_assoc]
  · have before := h.passed task
    have moved : census (Function.update s.caller t p') (CallerPc.has task) + _ = _ :=
      census_update
    have change := passed task
    rw [caller, pushed, List.count_append]
    omega
  · have same : census s'.worker (WorkerPc.has task) = census s.worker (WorkerPc.has task) :=
      worker.census_eq rfl
    rw [taken, ran, same]
    exact h.taken task
  · exact absurd destructor begun
  · rw [unset] at stopped
    cases stopped
  · rw [destructor] at join
    cases join
  · rw [destructor] at returned
    cases returned

theorem Accounts.addTask (h : Accounts s) (inv : Inv s) {woken : Option (Fin poolSize)}
    (next : s.addTask t woken = some s') : Accounts s' := by
  have early : s.destructor = .idle := by
    by_contra begun
    simp only [State.addTask, h.quiet begun t, reduceCtorEq] at next
  have unset : s.stop = false := by
    have stop := inv.stop
    rw [early] at stop
    simpa using stop
  cases here : s.caller t with
  | idle => simp only [State.addTask, here, reduceCtorEq] at next
  | lock task =>
    simp only [State.addTask, here] at next
    split_ifs at next
    obtain rfl := Option.some.inj next
    exact h.caller here rfl (.refl _) early rfl unset rfl rfl (List.append_nil _).symm
      (List.append_nil _).symm fun _ => rfl
  | push task =>
    simp only [State.addTask, here, Option.some.injEq] at next
    subst next
    exact h.caller here rfl (.refl _) early rfl unset rfl rfl rfl rfl fun _ => rfl
  | unlock =>
    simp only [State.addTask, here, Option.some.injEq] at next
    subst next
    exact h.caller here rfl (.refl _) early rfl unset rfl rfl (List.append_nil _).symm
      (List.append_nil _).symm fun _ => rfl
  | notify =>
    simp only [State.addTask, here] at next
    cases woken with
    | none =>
      simp only [State.notifyOne] at next
      split_ifs at next
      obtain rfl := Option.some.inj next
      exact h.caller here rfl (.refl _) early rfl unset rfl rfl (List.append_nil _).symm
        (List.append_nil _).symm fun _ => rfl
    | some w =>
      simp only [State.notifyOne] at next
      split_ifs at next with sleeps
      obtain rfl := Option.some.inj next
      exact h.caller here rfl (.one sleeps) early rfl unset rfl rfl (List.append_nil _).symm
        (List.append_nil _).symm fun _ => rfl

theorem Accounts.act (h : Accounts s) (inv : Inv s) {a : Action poolSize τ α}
    (proper : s.proper a) (next : s.act a = some s') : Accounts s' := by
  cases a with
  | addTask t task =>
    have stop := inv.stop
    rw [show s.destructor = .idle from proper] at stop
    have unset : s.stop = false := by simpa using stop
    simp only [State.act] at next
    split_ifs at next with idle
    obtain rfl := Option.some.inj next
    refine h.caller idle rfl (.refl _) proper rfl unset rfl rfl (List.append_nil _).symm
      (List.append_nil _).symm fun other => ?_
    simp
  | destroy =>
    simp only [State.act] at next
    split_ifs at next with idle
    obtain rfl := Option.some.inj next
    exact ⟨h.fifo, h.passed, h.taken, fun _ => proper, h.left, by rintro _ ⟨⟩, by rintro ⟨⟩⟩
  | worker w => exact h.workerHandler inv next
  | caller t woken => exact h.addTask inv next
  | destructor => exact h.destruct next
  | spurious w =>
    simp only [State.act] at next
    split_ifs at next with sleeps
    obtain rfl := Option.some.inj next
    exact h.worker sleeps rfl rfl (by rintro ⟨⟩) (fun _ => rfl) rfl fun _ => rfl

omit [DecidableEq α] in
/-- Tasks are taken in the order of the pushes. When the destructor returns, every task has
been run exactly once, except those that the queue held when it set `stop_`: these are not
run at all. -/
theorem run_once (h : (machine poolSize τ α).ReachableBy State.proper s) :
    s.pushed = s.taken ++ s.workerQueue ∧ (s.destructor = .returned →
      (s.ran ++ s.left).Perm s.passed ∧ (s.ran.Perm s.passed ↔ s.left = [])) := by
  classical
  obtain ⟨inv, accounts⟩ : Inv s ∧ Accounts s := by
    refine h.invariant (fun s => Inv s ∧ Accounts s) (fun s start => ?_)
      fun s a s' hs proper next => ⟨hs.1.act next, hs.2.act hs.1 proper next⟩
    rw [show s = initial poolSize τ α from start]
    exact ⟨inv_initial, accounts_initial⟩
  refine ⟨accounts.fifo, fun returned => ?_⟩
  have settled := accounts.settled inv returned
  refine ⟨settled, fun all => ?_, fun empty => ?_⟩
  · have short := all.length_eq.trans settled.length_eq.symm
    rw [List.length_append] at short
    exact List.length_eq_zero_iff.mp (by omega)
  · rwa [empty, List.append_nil] at settled

/-- The one worker takes the first task, and the destructor stops the pool before it comes
back for the second. -/
theorem run_once_stopped : ∃ s : State 1 (Fin 1) ℕ, s.ran = [7] ∧ s.left = [8] ∧
    (s.ran ++ s.left).Perm s.passed := by
  have ran : ((machine 1 (Fin 1) ℕ).runBy (fun s a => s.proper a) (initial 1 (Fin 1) ℕ)
      [.addTask 0 7, .caller 0 none, .caller 0 none, .caller 0 none, .caller 0 none,
        .addTask 0 8, .caller 0 none, .caller 0 none, .caller 0 none, .caller 0 none,
        .worker 0, .worker 0, .worker 0, .worker 0, .worker 0, .destroy, .destructor, .destructor,
        .destructor, .destructor, .worker 0, .worker 0, .worker 0, .worker 0, .worker 0,
        .destructor, .destructor]).map (fun s => (s.ran, s.left, s.destructor)) =
      some ([7], [8], .returned) := by decide +kernel
  obtain ⟨s, run, result⟩ := Option.map_eq_some_iff.mp ran
  simp only [Prod.mk.injEq] at result
  have start : (machine 1 (Fin 1) ℕ).init (initial 1 (Fin 1) ℕ) := rfl
  have reached := (Machine.runBy_reachable (.init start) run).mono fun s a admitted =>
    of_decide_eq_true admitted
  exact ⟨s, result.1, result.2.1, ((run_once reached).2 result.2.2).1⟩

/-- The destructor stops the pool before its worker has taken the one task. -/
theorem task_dropped : ¬∀ (poolSize : ℕ) (s : State poolSize (Fin 1) ℕ), 1 ≤ poolSize →
    (machine poolSize (Fin 1) ℕ).ReachableBy State.proper s → s.destructor = .returned →
    s.ran.Perm s.passed := by
  intro all
  have ran : ((machine 1 (Fin 1) ℕ).runBy (fun s a => s.proper a) (initial 1 (Fin 1) ℕ)
      [.addTask 0 7, .caller 0 none, .caller 0 none, .caller 0 none, .caller 0 none, .destroy,
        .destructor, .destructor, .destructor, .destructor, .worker 0, .worker 0, .worker 0,
        .worker 0, .destructor, .destructor]).map (fun s => (s.ran, s.passed, s.destructor)) =
      some ([], [7], .returned) := by decide +kernel
  obtain ⟨s, run, result⟩ := Option.map_eq_some_iff.mp ran
  simp only [Prod.mk.injEq] at result
  have start : (machine 1 (Fin 1) ℕ).init (initial 1 (Fin 1) ℕ) := rfl
  have reached := (Machine.runBy_reachable (.init start) run).mono fun s a admitted =>
    of_decide_eq_true admitted
  have same := all 1 s (by decide) reached result.2.2
  rw [result.1, result.2.1] at same
  exact absurd same.length_eq (by decide)

end Codelab.ThreadPool
