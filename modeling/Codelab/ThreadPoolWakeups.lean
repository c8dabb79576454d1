import Codelab.ThreadPool
import Codelab.Theory.Mutex

/-! No wake-up of the pool is lost. A worker blocks only while it holds the mutex on an
empty queue with `stop_` unset; a task pushed since then brings a notification that is
still to come or has found a blocked worker. -/

namespace Codelab.ThreadPool

open Census

namespace WorkerPc

variable {α : Type} {stop : Bool} {workerQueue workerQueue' : List α} {pc : WorkerPc α}

@[simp] def holds : WorkerPc α → Prop
  | .test | .wait | .exitTest | .take | .unlock _ | .leave => True
  | _ => False

@[simp] def awake : WorkerPc α → ℕ
  | .blocked => 0
  | _ => 1

/-- From the `pop` of a task to its end. -/
@[simp] def busy : WorkerPc α → ℕ
  | .unlock _ | .run _ => 1
  | _ => 0

/-- What a worker has learnt from its tests of `stop_` and the queue. -/
@[simp] def Sound (stop : Bool) (workerQueue : List α) : WorkerPc α → Prop
  | .wait => stop = false ∧ workerQueue = []
  | .exitTest => stop = true ∨ workerQueue ≠ []
  | .take => stop = false ∧ workerQueue ≠ []
  | _ => True

theorem busy_le_awake (pc : WorkerPc α) : pc.busy ≤ pc.awake := by
  cases pc <;> simp

theorem awake_eq_one (up : pc ≠ .blocked) : pc.awake = 1 := by
  cases pc with
  | blocked => exact absurd rfl up
  | _ => rfl

/-- A worker knows something only while it holds the mutex. -/
theorem sound_of_not_holds (no : ¬ pc.holds) : pc.Sound stop workerQueue := by
  cases pc <;> simp at no ⊢

end WorkerPc

namespace CallerPc

variable {α : Type}

@[simp] def holds : CallerPc α → Prop
  | .push _ | .unlock => True
  | _ => False

/-- Pushed and not yet notified. -/
@[simp] def owed : CallerPc α → ℕ
  | .unlock | .notify => 1
  | _ => 0

end CallerPc

namespace DestructorPc

@[simp] def holds : DestructorPc → Prop
  | .setStop | .unlock => True
  | _ => False

/-- `stop_` is set. -/
@[simp] def stopped : DestructorPc → Prop
  | .unlock | .notifyAll | .join _ | .returned => True
  | _ => False

/-- `notify_all` is over as well. -/
@[simp] def notified : DestructorPc → Prop
  | .join _ | .returned => True
  | _ => False

theorem notified.stopped {pc : DestructorPc} (h : pc.notified) : pc.stopped := by
  cases pc <;> simp at h ⊢

end DestructorPc

variable {poolSize : ℕ} {τ α : Type} {s s' : State poolSize τ α} {w : Fin poolSize} {t : τ}

namespace State

/-- The workers that are not blocked in the wait. -/
def awake (s : State poolSize τ α) : ℕ := census s.worker WorkerPc.awake

/-- The tasks being run. -/
def running (s : State poolSize τ α) : ℕ := census s.worker WorkerPc.busy

/-- The calls of `AddTask` that have pushed and not yet notified. -/
def owed [Fintype τ] (s : State poolSize τ α) : ℕ := census s.caller CallerPc.owed

@[simp] def holds (s : State poolSize τ α) : Party poolSize τ → Prop
  | .worker w => (s.worker w).holds
  | .caller t => (s.caller t).holds
  | .destructor => s.destructor.holds

end State

variable [Fintype τ]

structure Inv (s : State poolSize τ α) : Prop where
  guards : Mutex.Guards s.mutex s.holds
  stop : s.stop = true ↔ s.destructor.stopped
  sound : ∀ w, (s.worker w).Sound s.stop s.workerQueue
  awake : s.stop = false →
    min poolSize (s.workerQueue.length + s.running) ≤ s.awake + s.owed
  notified : s.destructor.notified → ∀ w, s.worker w ≠ .blocked

theorem inv_initial : Inv (initial poolSize τ α) where
  guards := by
    refine Mutex.guards_none fun p => ?_
    cases p <;> simp [initial]
  stop := by simp [initial]
  sound _ := trivial
  awake _ := by
    have idle : (initial poolSize τ α).running = 0 := census_eq_zero.mpr fun _ => rfl
    have queue : (initial poolSize τ α).workerQueue = [] := rfl
    rw [idle, queue, List.length_nil, Nat.add_zero, Nat.min_zero]
    exact Nat.zero_le _
  notified no := no.elim

/-- While one party holds the mutex, no other worker knows anything that the party could
make wrong. -/
theorem Inv.sound_of (h : Inv s) {p : Party poolSize τ} (holds : s.holds p) {stop : Bool}
    {workerQueue : List α} (other : p ≠ .worker w) :
    (s.worker w).Sound stop workerQueue := by
  refine WorkerPc.sound_of_not_holds fun too => other ?_
  exact h.guards.exclusive holds (show s.holds (.worker w) from too)

/-- A worker moves on. It changes the queue only while it holds the mutex, and blocks only
when there is nothing queued. -/
theorem Inv.worker (h : Inv s) {p p' : WorkerPc α} (here : s.worker w = p)
    (worker : s'.worker = Function.update s.worker w p') (caller : s'.caller = s.caller)
    (destructor : s'.destructor = s.destructor) (stop : s'.stop = s.stop)
    (turn : Mutex.Turn s.mutex s'.mutex (.worker w) p.holds p'.holds)
    (guarded : p.holds ∨ s'.workerQueue = s.workerQueue)
    (mine : p'.Sound s.stop s'.workerQueue)
    (blocks : p' = .blocked → s.stop = false ∧ s'.workerQueue = [])
    (busy : p' ≠ .blocked →
      s'.workerQueue.length + p'.busy ≤ s.workerQueue.length + p.busy) : Inv s' := by
  subst here
  refine ⟨?_, ?_, fun v => ?_, fun running => ?_, fun notified v => ?_⟩
  · refine h.guards.turn (t := .worker w) ?_ fun q apart => ?_
    · simpa [worker] using turn
    · cases q with
      | worker v =>
        have apart : v ≠ w := fun e => apart (congrArg Party.worker e)
        simp [worker, Function.update_of_ne apart]
      | caller u => simp [caller]
      | destructor => simp [destructor]
  · rw [stop, destructor]
    exact h.stop
  · rw [worker, stop]
    by_cases same : v = w
    · rw [same, Function.update_self]
      exact mine
    · rw [Function.update_of_ne same]
      rcases guarded with holds | queue
      · refine h.sound_of (p := .worker w) holds ?_
        rintro ⟨⟩
        exact same rfl
      · rw [queue]
        exact h.sound v
  · have before := h.awake (stop ▸ running)
    have awake : census (Function.update s.worker w p') WorkerPc.awake + _ = _ := census_update
    have held : census (Function.update s.worker w p') WorkerPc.busy + _ = _ := census_update
    have enough : census s'.worker WorkerPc.busy ≤ census s'.worker WorkerPc.awake :=
      census_mono fun v => WorkerPc.busy_le_awake (s'.worker v)
    rw [← worker] at awake held
    simp only [State.awake, State.running, State.owed, caller] at before ⊢
    by_cases sleeps : p' = .blocked
    · rw [(blocks sleeps).2]
      simp only [List.length_nil]
      omega
    · have up := WorkerPc.awake_eq_one sleeps
      have small : (s.worker w).awake ≤ 1 := by
        cases s.worker w <;> simp
      have less := busy sleeps
      omega
  · rw [worker]
    rw [destructor] at notified
    by_cases same : v = w
    · rw [same, Function.update_self]
      intro sleeps
      have unset := (blocks sleeps).1
      rw [h.stop.mpr notified.stopped] at unset
      cases unset
    · rw [Function.update_of_ne same]
      exact h.notified notified v

theorem Inv.workerHandler (h : Inv s) (next : s.workerHandler w = some s') : Inv s' := by
  have sound := h.sound w
  have claims := h.guards (.worker w)
  cases here : s.worker w with
  | lock =>
    simp only [State.workerHandler, here] at next
    split_ifs at next with free
    obtain rfl := Option.some.inj next
    exact h.worker here rfl rfl rfl rfl (.inr (.inl ⟨free, rfl, trivial⟩)) (.inr rfl) trivial
      (by rintro ⟨⟩) fun _ => le_rfl
  | test =>
    simp only [State.workerHandler, here, Option.some.injEq] at next
    subst next
    by_cases pass : s.stop = true ∨ s.workerQueue ≠ []
    · rw [if_pos pass]
      exact h.worker here rfl rfl rfl rfl (.inl ⟨rfl, Iff.rfl⟩) (.inr rfl) pass (by rintro ⟨⟩)
        fun _ => le_rfl
    · rw [if_neg pass]
      rw [not_or, not_not, Bool.not_eq_true] at pass
      exact h.worker here rfl rfl rfl rfl (.inl ⟨rfl, Iff.rfl⟩) (.inr rfl) pass (by rintro ⟨⟩)
        fun _ => le_rfl
  | wait =>
    rw [here] at sound
    simp only [State.workerHandler, here, Option.some.injEq] at next
    subst next
    exact h.worker here rfl rfl rfl rfl (.inr (.inr ⟨trivial, rfl, id⟩)) (.inr rfl) trivial
      (fun _ => sound) fun _ => le_rfl
  | blocked => simp only [State.workerHandler, here, reduceCtorEq] at next
  | exitTest =>
    rw [here] at sound
    simp only [State.workerHandler, here, Option.some.injEq] at next
    subst next
    by_cases stopped : s.stop = true
    · rw [if_pos stopped]
      exact h.worker here rfl rfl rfl rfl (.inl ⟨rfl, Iff.rfl⟩) (.inr rfl) trivial (by rintro ⟨⟩)
        fun _ => le_rfl
    · rw [if_neg stopped]
      have waiting := sound.resolve_left stopped
      rw [Bool.not_eq_true] at stopped
      exact h.worker here rfl rfl rfl rfl (.inl ⟨rfl, Iff.rfl⟩) (.inr rfl) ⟨stopped, waiting⟩
        (by rintro ⟨⟩) fun _ => le_rfl
  | take =>
    cases queue : s.workerQueue with
    | nil => simp only [State.workerHandler, here, queue, reduceCtorEq] at next
    | cons task rest =>
      simp only [State.workerHandler, here, queue, Option.some.injEq] at next
      subst next
      refine h.worker here rfl rfl rfl rfl (.inl ⟨rfl, Iff.rfl⟩) (.inl trivial) trivial
        (by rintro ⟨⟩) fun _ => ?_
      simp [queue]
  | unlock task =>
    simp only [State.workerHandler, here, Option.some.injEq] at next
    subst next
    exact h.worker here rfl rfl rfl rfl (.inr (.inr ⟨trivial, rfl, id⟩)) (.inr rfl) trivial
      (by rintro ⟨⟩) fun _ => le_rfl
  | run task =>
    simp only [State.workerHandler, here, Option.some.injEq] at next
    subst next
    exact h.worker here rfl rfl rfl rfl (.inl ⟨rfl, Iff.rfl⟩) (.inr rfl) trivial (by rintro ⟨⟩)
      fun _ => Nat.le_succ _
  | leave =>
    simp only [State.workerHandler, here, Option.some.injEq] at next
    subst next
    exact h.worker here rfl rfl rfl rfl (.inr (.inr ⟨trivial, rfl, id⟩)) (.inr rfl) trivial
      (by rintro ⟨⟩) fun _ => le_rfl
  | done => simp only [State.workerHandler, here, reduceCtorEq] at next

/-- Some blocked workers go back to the mutex. -/
def Woken (f f' : Fin poolSize → WorkerPc α) : Prop :=
  ∀ w, f' w = f w ∨ f w = .blocked ∧ f' w = .lock

namespace Woken

variable {f f' : Fin poolSize → WorkerPc α}

theorem refl (f : Fin poolSize → WorkerPc α) : Woken f f := fun _ => .inl rfl

theorem one (sleeps : f w = .blocked) : Woken f (Function.update f w .lock) := by
  intro v
  by_cases same : v = w
  · subst same
    exact .inr ⟨sleeps, Function.update_self ..⟩
  · exact .inl (Function.update_of_ne same ..)

theorem all (f : Fin poolSize → WorkerPc α) :
    Woken f fun w => if f w = .blocked then .lock else f w := by
  intro w
  by_cases sleeps : f w = .blocked
  · exact .inr ⟨sleeps, if_pos sleeps⟩
  · exact .inl (if_neg sleeps)

theorem holds (h : Woken f f') (w : Fin poolSize) : (f' w).holds ↔ (f w).holds := by
  rcases h w with same | ⟨slept, up⟩
  · rw [same]
  · rw [slept, up]
    rfl

theorem census_eq (h : Woken f f') {weight : WorkerPc α → ℕ}
    (same : weight .lock = weight .blocked) : census f' weight = census f weight := by
  refine census_congr fun w => ?_
  rcases h w with unmoved | ⟨slept, up⟩
  · rw [unmoved]
  · rw [slept, up, same]

theorem awake (h : Woken f f') : census f WorkerPc.awake ≤ census f' WorkerPc.awake := by
  refine census_mono fun w => ?_
  rcases h w with same | ⟨slept, -⟩
  · rw [same]
  · rw [slept]
    exact Nat.zero_le _

theorem sound (h : Woken f f') {stop : Bool} {workerQueue : List α}
    (before : (f w).Sound stop workerQueue) : (f' w).Sound stop workerQueue := by
  rcases h w with same | ⟨-, up⟩
  · rw [same]
    exact before
  · rw [up]
    trivial

theorem not_blocked (h : Woken f f') (up : f w ≠ .blocked) : f' w ≠ .blocked := by
  rcases h w with same | ⟨-, woken⟩
  · rw [same]
    exact up
  · rw [woken]
    rintro ⟨⟩

end Woken

/-- The destructor moves on. -/
theorem Inv.destructor (h : Inv s) {p' : DestructorPc} (destructor : s'.destructor = p')
    (worker : Woken s.worker s'.worker) (caller : s'.caller = s.caller)
    (queue : s'.workerQueue = s.workerQueue)
    (turn : Mutex.Turn s.mutex s'.mutex .destructor s.destructor.holds p'.holds)
    (stop : s'.stop = true ↔ p'.stopped)
    (guarded : s.destructor.holds ∨ s'.stop = s.stop)
    (still : s'.stop = false → s.stop = false)
    (notified : p'.notified → ∀ w, s'.worker w ≠ .blocked) : Inv s' := by
  subst destructor
  refine ⟨?_, stop, fun v => ?_, fun running => ?_, notified⟩
  · refine h.guards.turn (t := .destructor) turn fun q apart => ?_
    cases q with
    | worker v => exact worker.holds v
    | caller u => simp [caller]
    | destructor => exact absurd rfl apart
  · rw [queue]
    refine worker.sound ?_
    rcases guarded with holds | same
    · refine h.sound_of (p := .destructor) holds ?_
      rintro ⟨⟩
    · rw [same]
      exact h.sound v
  · have before := h.awake (still running)
    have busy := worker.census_eq (show WorkerPc.busy .lock = WorkerPc.busy .blocked from rfl)
    have awake := worker.awake
    simp only [State.awake, State.running, State.owed, queue, caller] at before ⊢
    omega

theorem Inv.destruct (h : Inv s) (next : s.destruct = some s') : Inv s' := by
  have stop := h.stop
  have notified := h.notified
  cases here : s.destructor with
  | idle => simp only [State.destruct, here, reduceCtorEq] at next
  | lock =>
    simp only [State.destruct, here] at next
    split_ifs at next with free
    obtain rfl := Option.some.inj next
    rw [here] at stop
    refine h.destructor rfl (.refl _) rfl rfl ?_ stop (.inr rfl) id (by rintro ⟨⟩)
    exact .inr (.inl ⟨free, rfl, trivial⟩)
  | setStop =>
    simp only [State.destruct, here, Option.some.injEq] at next
    subst next
    refine h.destructor rfl (.refl _) rfl rfl ?_ (by simp) ?_ (by rintro ⟨⟩) (by rintro ⟨⟩)
    · rw [here]
      exact .inl ⟨rfl, Iff.rfl⟩
    · rw [here]
      exact .inl trivial
  | unlock =>
    simp only [State.destruct, here, Option.some.injEq] at next
    subst next
    rw [here] at stop
    refine h.destructor rfl (.refl _) rfl rfl ?_ stop (.inr rfl) id (by rintro ⟨⟩)
    rw [here]
    exact .inr (.inr ⟨trivial, rfl, id⟩)
  | notifyAll =>
    simp only [State.destruct, here, Option.some.injEq] at next
    subst next
    rw [here] at stop
    refine h.destructor rfl (.all _) rfl rfl ?_ stop (.inr rfl) id fun _ w => ?_
    · rw [here]
      exact .inl ⟨rfl, Iff.rfl⟩
    · simp only [State.notifyAll]
      split_ifs with sleeps
      · rintro ⟨⟩
      · exact sleeps
  | join i =>
    rw [here] at stop notified
    simp only [State.destruct, here] at next
    split_ifs at next with inside ended
    · obtain rfl := Option.some.inj next
      refine h.destructor rfl (.refl _) rfl rfl ?_ stop (.inr rfl) id notified
      rw [here]
      exact .inl ⟨rfl, Iff.rfl⟩
    · obtain rfl := Option.some.inj next
      refine h.destructor rfl (.refl _) rfl rfl ?_ stop (.inr rfl) id notified
      rw [here]
      exact .inl ⟨rfl, Iff.rfl⟩
  | returned => simp only [State.destruct, here, reduceCtorEq] at next

variable [DecidableEq τ]

/-- A caller moves on; what it adds to the queue it owes or has made good. -/
theorem Inv.caller (h : Inv s) {p p' : CallerPc α} {more : List α} (here : s.caller t = p)
    (caller : s'.caller = Function.update s.caller t p') (worker : Woken s.worker s'.worker)
    (destructor : s'.destructor = s.destructor) (stop : s'.stop = s.stop)
    (turn : Mutex.Turn s.mutex s'.mutex (.caller t) p.holds p'.holds)
    (queue : s'.workerQueue = s.workerQueue ++ more) (guarded : p.holds ∨ more = [])
    (paid : s'.awake = poolSize ∨ more.length + s.awake + p.owed ≤ s'.awake + p'.owed) :
    Inv s' := by
  subst here
  refine ⟨?_, ?_, fun v => ?_, fun running => ?_, fun notified v => ?_⟩
  · refine h.guards.turn (t := .caller t) ?_ fun q apart => ?_
    · simpa [caller] using turn
    · cases q with
      | worker v => exact worker.holds v
      | caller u =>
        have apart : u ≠ t := fun e => apart (congrArg Party.caller e)
        simp [caller, Function.update_of_ne apart]
      | destructor => simp [destructor]
  · rw [stop, destructor]
    exact h.stop
  · rw [stop]
    refine worker.sound ?_
    rcases guarded with holds | rfl
    · refine h.sound_of (p := .caller t) holds ?_
      rintro ⟨⟩
    · rw [queue, List.append_nil]
      exact h.sound v
  · have before := h.awake (stop ▸ running)
    have owed : census (Function.update s.caller t p') CallerPc.owed + _ = _ := census_update
    have busy := worker.census_eq (show WorkerPc.busy .lock = WorkerPc.busy .blocked from rfl)
    rw [← caller] at owed
    simp only [State.running, State.owed, queue, List.length_append] at before ⊢
    omega
  · rw [destructor] at notified
    exact worker.not_blocked (h.notified notified v)

theorem Inv.addTask (h : Inv s) {woken : Option (Fin poolSize)}
    (next : s.addTask t woken = some s') : Inv s' := by
  cases here : s.caller t with
  | idle => simp only [State.addTask, here, reduceCtorEq] at next
  | lock task =>
    simp only [State.addTask, here] at next
    split_ifs at next with free
    obtain rfl := Option.some.inj next
    exact h.caller here rfl (.refl _) rfl rfl (.inr (.inl ⟨free, rfl, trivial⟩))
      (List.append_nil _).symm (.inr rfl) (.inr (by simp [State.awake, State.gotoCaller]))
  | push task =>
    simp only [State.addTask, here, Option.some.injEq] at next
    subst next
    refine h.caller here rfl (.refl _) rfl rfl (.inl ⟨rfl, Iff.rfl⟩) rfl (.inl trivial) (.inr ?_)
    simp [State.awake, State.gotoCaller]
    omega
  | unlock =>
    simp only [State.addTask, here, Option.some.injEq] at next
    subst next
    exact h.caller here rfl (.refl _) rfl rfl (.inr (.inr ⟨trivial, rfl, id⟩))
      (List.append_nil _).symm (.inr rfl) (.inr (by simp [State.awake, State.gotoCaller]))
  | notify =>
    simp only [State.addTask, here] at next
    cases woken with
    | none =>
      simp only [State.notifyOne] at next
      split_ifs at next with up
      obtain rfl := Option.some.inj next
      refine h.caller here rfl (.refl _) rfl rfl (.inl ⟨rfl, Iff.rfl⟩)
        (List.append_nil _).symm (.inr rfl) (.inl ?_)
      have all := census_eq_card (f := s.worker) fun v => WorkerPc.awake_eq_one (up v)
      rwa [Fintype.card_fin] at all
    | some w =>
      simp only [State.notifyOne] at next
      split_ifs at next with sleeps
      obtain rfl := Option.some.inj next
      refine h.caller here rfl (.one sleeps) rfl rfl (.inl ⟨rfl, Iff.rfl⟩)
        (List.append_nil _).symm (.inr rfl) (.inr ?_)
      have up : census (Function.update s.worker w .lock) WorkerPc.awake + _ = _ := census_update
      have slept : s.worker w = .blocked := sleeps
      rw [slept] at up
      simp [State.awake, State.gotoCaller, State.gotoWorker] at up ⊢
      omega

theorem Inv.act (h : Inv s) {a : Action poolSize τ α} (next : s.act a = some s') : Inv s' := by
  cases a with
  | addTask t task =>
    simp only [State.act] at next
    split_ifs at next with idle
    obtain rfl := Option.some.inj next
    exact h.caller idle rfl (.refl _) rfl rfl (.inl ⟨rfl, Iff.rfl⟩) (List.append_nil _).symm
      (.inr rfl) (.inr (by simp [State.awake, State.gotoCaller]))
  | destroy =>
    have stop := h.stop
    simp only [State.act] at next
    split_ifs at next with idle
    obtain rfl := Option.some.inj next
    rw [idle] at stop
    refine h.destructor rfl (.refl _) rfl rfl ?_ stop (.inr rfl) id (by rintro ⟨⟩)
    rw [idle]
    exact .inl ⟨rfl, Iff.rfl⟩
  | worker w => exact h.workerHandler next
  | caller t woken => exact h.addTask next
  | destructor => exact h.destruct next
  | spurious w =>
    simp only [State.act] at next
    split_ifs at next with sleeps
    obtain rfl := Option.some.inj next
    exact h.worker sleeps rfl rfl rfl rfl (.inl ⟨rfl, Iff.rfl⟩) (.inr rfl) trivial (by rintro ⟨⟩)
      fun _ => le_rfl

theorem inv_of_reachable (h : (machine poolSize τ α).Reachable s) : Inv s := by
  refine h.invariant Inv (fun s start => ?_) fun s a s' hs next => hs.act next
  rw [show s = initial poolSize τ α from start]
  exact inv_initial

/-- As long as `stop_` is unset there are enough workers awake, or about to be woken, for the
queued and the running tasks. Once the destructor has notified, none blocks any more. -/
theorem work_conserving (h : (machine poolSize τ α).Reachable s) :
    (s.stop = false → min poolSize (s.workerQueue.length + s.running) ≤ s.awake + s.owed) ∧
      (s.destructor.notified → ∀ w, s.worker w ≠ .blocked) :=
  ⟨(inv_of_reachable h).awake, (inv_of_reachable h).notified⟩

/-- Both workers block, and two tasks are pushed before the first notification. -/
theorem work_conserving_two : ∃ s : State 2 (Fin 2) ℕ, s.awake + s.owed = 2 ∧
    s.workerQueue = [7, 8] ∧ min 2 (s.workerQueue.length + s.running) ≤ s.awake + s.owed := by
  have ran : ((machine 2 (Fin 2) ℕ).run (initial 2 (Fin 2) ℕ)
      [.worker 0, .worker 0, .worker 0, .worker 1, .worker 1, .worker 1, .addTask 0 7,
        .caller 0 none, .caller 0 none, .caller 0 none, .addTask 1 8, .caller 1 none,
        .caller 1 none]).map (fun s => (s.awake + s.owed, s.workerQueue, s.stop)) =
      some (2, [7, 8], false) := by decide +kernel
  obtain ⟨s, run, result⟩ := Option.map_eq_some_iff.mp ran
  simp only [Prod.mk.injEq] at result
  have start : (machine 2 (Fin 2) ℕ).init (initial 2 (Fin 2) ℕ) := rfl
  have conserving := work_conserving (Machine.run_reachable (.init start) run)
  exact ⟨s, result.1, result.2.1, conserving.1 result.2.2⟩

end Codelab.ThreadPool
