import Codelab.TimerThreadUnremoved

/-! Stopping the timer thread. `stop_and_join` sets `_nearest_run_time` to 0, which
keeps the timer thread from going to sleep, unless the timer thread overwrites it:
between its test of `_stop` and its reset lies a window in which the stop is lost. -/

namespace Codelab.TimerThread

open TimerTaskId

variable {τ : Type*}

/-- The deadline that is to be compared with `_nearest_run_time`. -/
def TimerPc.comparing : TimerPc → Option Int
  | .waitLock next => some next
  | .waitCompare next => some next
  | _ => none

def TimerPc.upcoming : TimerPc → Bool
  | .nextRun => true
  | _ => false

def Pc.signalling : Pc → Bool
  | .stopWake => true
  | _ => false

/-- The timer thread does not reset `_nearest_run_time` once `stop_and_join` has set it. -/
def State.onTime (s : State τ) : Action τ → Bool
  | .timer =>
      match s.timer with
      | .reset => !s.zeroed
      | _ => true
  | _ => true

/-- Once the stop has set `_nearest_run_time`, it stays at 0 or below; every deadline is
above 0. -/
structure StopInv (s : State τ) : Prop where
  low : s.zeroed = true → s.nearest ≤ 0
  order : s.signalled = true → s.zeroed = true
  signalling : ∀ t, (s.pc t).signalling = true → s.zeroed = true
  upcoming : s.timer.upcoming = true → ∀ p ∈ s.tasks, 0 < s.runTime p
  comparing : ∀ d, s.timer.comparing = some d → 0 < d
  committed : ∀ d, s.timer.committed = some d → 0 < s.nearest
  asleep : ∀ d, s.timer.asleep = some d → s.signalled = false

namespace StopInv

variable [DecidableEq τ] {s s₁ s' : State τ} {queues : ℕ → List Slot}
  {t : τ} {pc : Pc} {timer : TimerPc} {p : Slot}

omit [DecidableEq τ] in
theorem init (node : Slot → Node) : StopInv (initial τ node) where
  low := fun no => absurd no Bool.false_ne_true
  order := fun no => absurd no Bool.false_ne_true
  signalling := fun _ no => absurd no Bool.false_ne_true
  upcoming := fun no => absurd no Bool.false_ne_true
  comparing := fun _ no => absurd no.symm (Option.some_ne_none _)
  committed := fun _ no => absurd no.symm (Option.some_ne_none _)
  asleep := fun _ no => absurd no.symm (Option.some_ne_none _)

/-- A step of a thread that leaves the times and the stop alone. -/
theorem goto (inv : StopInv s) (hpc : s₁.pc = s.pc) (nearest : s₁.nearest = s.nearest)
    (runTime : ∀ p ∈ s.tasks, s.timer.upcoming = true → s₁.runTime p = s.runTime p)
    (tasks : s₁.tasks = s.tasks) (htimer : s₁.timer = s.timer) (zeroed : s₁.zeroed = s.zeroed)
    (signalled : s₁.signalled = s.signalled)
    (signalling : pc.signalling = true → s.zeroed = true) : StopInv (s₁.goto t pc) where
  low := by
    change s₁.zeroed = true → s₁.nearest ≤ 0
    rw [zeroed, nearest]
    exact inv.low
  order := by
    change s₁.signalled = true → s₁.zeroed = true
    rw [zeroed, signalled]
    exact inv.order
  signalling := by
    intro u hu
    change s₁.zeroed = true
    rw [zeroed]
    simp only [State.goto, hpc, Function.update_apply] at hu
    split_ifs at hu
    · exact signalling hu
    · exact inv.signalling u hu
  upcoming := by
    intro next p hp
    have ahead : s.timer.upcoming = true := htimer ▸ next
    have old : p ∈ s.tasks := tasks ▸ hp
    change 0 < s₁.runTime p
    rw [runTime p old ahead]
    exact inv.upcoming ahead p old
  comparing := by
    change ∀ d, s₁.timer.comparing = some d → 0 < d
    rw [htimer]
    exact inv.comparing
  committed := by
    change ∀ d, s₁.timer.committed = some d → 0 < s₁.nearest
    rw [htimer, nearest]
    exact inv.committed
  asleep := by
    change ∀ d, s₁.timer.asleep = some d → s₁.signalled = false
    rw [htimer, signalled]
    exact inv.asleep

omit [DecidableEq τ] in
/-- Nobody else stands in the mutex while the timer thread is about to wait. -/
theorem uncommitted (locks : LockInv s) (inside : (s.pc t).locks.whole = true) :
    s.timer.committed = none := by
  cases stored : s.timer.committed with
  | none => rfl
  | some d =>
    have held : (s.locks .timer).whole = true := TimerPc.locks_of_committed stored
    cases locks.alone held (show (s.locks (.thread t)).whole = true from inside)

/-- A step of a thread inside the mutex that does not raise `_nearest_run_time`, or
brings it down to 0. -/
theorem lower (inv : StopInv s) (locks : LockInv s) (inside : (s.pc t).locks.whole = true)
    (hpc : s₁.pc = s.pc) (runTime : s₁.runTime = s.runTime) (tasks : s₁.tasks = s.tasks)
    (htimer : s₁.timer = s.timer) (low : s₁.zeroed = true → s₁.nearest ≤ 0)
    (zeroed : s.zeroed = true → s₁.zeroed = true) (signalled : s₁.signalled = s.signalled)
    (signalling : pc.signalling = true → s₁.zeroed = true) : StopInv (s₁.goto t pc) where
  low := low
  order := fun h => zeroed (inv.order (signalled ▸ h))
  signalling := by
    intro u hu
    simp only [State.goto, hpc, Function.update_apply] at hu
    split_ifs at hu
    · exact signalling hu
    · exact zeroed (inv.signalling u hu)
  upcoming := by
    change s₁.timer.upcoming = true → ∀ p ∈ s₁.tasks, 0 < s₁.runTime p
    rw [htimer, tasks, runTime]
    exact inv.upcoming
  comparing := by
    change ∀ d, s₁.timer.comparing = some d → 0 < d
    rw [htimer]
    exact inv.comparing
  committed := by
    intro d stored
    have old : s.timer.committed = some d := htimer ▸ stored
    exact absurd (old.symm.trans (uncommitted locks inside)) (Option.some_ne_none d)
  asleep := by
    change ∀ d, s₁.timer.asleep = some d → s₁.signalled = false
    rw [htimer, signalled]
    exact inv.asleep

omit [DecidableEq τ] in
theorem wakeUp_upcoming (s : State τ) : ∃ timer, s.wakeUp = s.toTimer timer ∧
    timer.asleep = none ∧ timer.upcoming = s.timer.upcoming ∧
      timer.comparing = s.timer.comparing ∧ timer.committed = s.timer.committed := by
  unfold State.wakeUp
  split <;> rename_i timer
  · refine ⟨_, rfl, ?_⟩
    rw [timer]
    exact ⟨rfl, rfl, rfl, rfl⟩
  · refine ⟨s.timer, rfl, ?_, rfl, rfl, rfl⟩
    cases h : s.timer with
    | blocked deadline woken => exact absurd h (timer deadline woken)
    | _ => rfl

/-- A wake-up, which `stop_and_join` records. -/
theorem wakeUp {signalled : Bool} (inv : StopInv s)
    (order : signalled = true → s.zeroed = true) (signalling : pc.signalling = false) :
    StopInv ({ s.wakeUp with signalled := signalled }.goto t pc) := by
  obtain ⟨timer, woken, asleep, same⟩ := wakeUp_upcoming s
  rw [woken]
  obtain ⟨upcoming, comparing, committed⟩ := same
  exact
  { low := inv.low
    order := order
    signalling := by
      intro u hu
      simp only [State.goto, State.toTimer, Function.update_apply] at hu
      split_ifs at hu
      · exact absurd (signalling.symm.trans hu) Bool.false_ne_true
      · exact inv.signalling u hu
    upcoming := fun next => inv.upcoming (upcoming.symm.trans next)
    comparing := fun d h => inv.comparing d (comparing.symm.trans h)
    committed := fun d h => inv.committed d (committed.symm.trans h)
    asleep := fun d no => absurd (no.symm.trans asleep) (Option.some_ne_none d) }

theorem stepThread (inv : StopInv s) (placed : Placed s queues) (locks : LockInv s)
    (hstep : s.stepThread t = some s') : StopInv s' := by
  have rest : ∀ {s₁ : State τ} {pc' : Pc}, s₁.pc = s.pc → s₁.nearest = s.nearest →
      s₁.runTime = s.runTime → s₁.tasks = s.tasks → s₁.timer = s.timer → s₁.zeroed = s.zeroed →
      s₁.signalled = s.signalled → pc'.signalling = false → StopInv (s₁.goto t pc') := by
    intro s₁ pc' hpc nearest runTime tasks timer zeroed signalled quiet
    exact inv.goto hpc nearest (fun p _ _ => by rw [runTime]) tasks timer zeroed signalled
      fun no => absurd (quiet.symm.trans no) Bool.false_ne_true
  cases pc : s.pc t <;> simp only [State.stepThread, pc] at hstep
  case idle => cases hstep
  case schedWrite c =>
    cases hstep
    obtain ⟨-, unheaped, -⟩ := placed.apart (congrArg Pc.holds pc : _ = some c.slot)
    refine inv.goto rfl rfl (fun p hp next => ?_) rfl rfl rfl rfl
      fun no => absurd no Bool.false_ne_true
    have whole : s.heap = s.tasks := by
      refine Placed.heap_whole ?_
      cases timer : s.timer <;> rw [timer] at next <;> first | rfl | cases next
    have e : p ≠ c.slot := by
      rintro rfl
      exact unheaped (whole ▸ hp)
    simp only [State.runTime, State.onNode, Function.update_of_ne e]
  case schedAdd | schedMake =>
    cases hstep
    exact rest rfl rfl (onNode_runTime s _ _ rfl) rfl rfl rfl rfl rfl
  case schedLoad => cases hstep; exact rest rfl rfl rfl rfl rfl rfl rfl rfl
  case schedLock =>
    obtain ⟨s₁, lock, rfl⟩ := Option.map_eq_some_iff.mp hstep
    obtain rfl := lockBucket_eq lock
    exact rest rfl rfl rfl rfl rfl rfl rfl rfl
  case schedLink c id =>
    cases hstep
    exact rest rfl rfl (onNode_runTime s c.slot ({ · with next := (s.bucket c.bucket).head }) rfl)
      rfl rfl rfl rfl rfl
  case schedCompare =>
    split_ifs at hstep <;> cases hstep <;> exact rest rfl rfl rfl rfl rfl rfl rfl rfl
  case schedUnlock c id earlier | nearUnlock c id earlier =>
    cases hstep
    cases earlier <;> exact rest rfl rfl rfl rfl rfl rfl rfl rfl
  case nearLock | stopLock =>
    obtain ⟨s₁, lock, rfl⟩ := Option.map_eq_some_iff.mp hstep
    obtain rfl := lock_eq lock
    exact rest rfl rfl rfl rfl rfl rfl rfl rfl
  case nearCompare c id =>
    have inside : (s.pc t).locks.whole = true := by rw [pc]; rfl
    split_ifs at hstep with less <;> cases hstep
    · exact inv.lower locks inside rfl rfl rfl rfl
        (fun stopped => Int.le_trans (Int.le_of_lt less) (inv.low stopped)) (fun same => same) rfl
        fun no => absurd no Bool.false_ne_true
    · exact rest rfl rfl rfl rfl rfl rfl rfl rfl
  case wake c id =>
    cases hstep
    have same : s.wakeUp.signalled = s.signalled := by
      obtain ⟨timer, woken, -⟩ := wakeUp_upcoming s
      rw [woken]
      rfl
    have woken := @wakeUp _ _ s t (.schedReturn id) s.signalled inv inv.order rfl
    rw [← same] at woken
    exact woken
  case unschedCas id =>
    cases hstep
    unfold State.cancel
    split_ifs
    · exact rest rfl rfl (onNode_runTime s _ _ rfl) rfl rfl rfl rfl rfl
    · exact rest rfl rfl rfl rfl rfl rfl rfl rfl
  case stopZero =>
    cases hstep
    exact inv.lower locks (by rw [pc]; rfl) rfl rfl rfl rfl (fun _ => Int.le_refl 0) (fun _ => rfl)
      rfl fun _ => rfl
  case stopWake =>
    cases hstep
    exact inv.wakeUp (fun _ => inv.signalling t (by rw [pc]; rfl)) rfl
  case schedReturn | stopSet | stopUnlock => cases hstep; exact rest rfl rfl rfl rfl rfl rfl rfl rfl
  case stopJoin =>
    split at hstep <;> cases hstep
    exact rest rfl rfl rfl rfl rfl rfl rfl rfl

omit [DecidableEq τ] in
/-- A step of the timer thread that leaves `_nearest_run_time` alone. -/
theorem toTimer (inv : StopInv s) (hpc : s₁.pc = s.pc) (nearest : s₁.nearest = s.nearest)
    (zeroed : s₁.zeroed = s.zeroed) (signalled : s₁.signalled = s.signalled)
    (upcoming : timer.upcoming = true → ∀ p ∈ s₁.tasks, 0 < s₁.runTime p)
    (comparing : ∀ d, timer.comparing = some d → 0 < d)
    (committed : ∀ d, timer.committed = some d → 0 < s.nearest)
    (asleep : ∀ d, timer.asleep = some d → s.signalled = false) : StopInv (s₁.toTimer timer) where
  low := by
    change s₁.zeroed = true → s₁.nearest ≤ 0
    rw [zeroed, nearest]
    exact inv.low
  order := by
    change s₁.signalled = true → s₁.zeroed = true
    rw [zeroed, signalled]
    exact inv.order
  signalling := by
    change ∀ t, (s₁.pc t).signalling = true → s₁.zeroed = true
    rw [hpc, zeroed]
    exact inv.signalling
  upcoming := upcoming
  comparing := comparing
  committed := by
    change ∀ d, timer.committed = some d → 0 < s₁.nearest
    rw [nearest]
    exact committed
  asleep := by
    change ∀ d, timer.asleep = some d → s₁.signalled = false
    rw [signalled]
    exact asleep

omit [DecidableEq τ] in
/-- Most steps of the timer thread are not on the way to the wait. -/
theorem walk (inv : StopInv s) (hpc : s₁.pc = s.pc) (nearest : s₁.nearest = s.nearest)
    (zeroed : s₁.zeroed = s.zeroed) (signalled : s₁.signalled = s.signalled)
    (upcoming : timer.upcoming = false) (comparing : timer.comparing = none)
    (committed : timer.committed = none) (asleep : timer.asleep = none) :
    StopInv (s₁.toTimer timer) :=
  inv.toTimer hpc nearest zeroed signalled
    (fun no => absurd (upcoming.symm.trans no) Bool.false_ne_true)
    (fun d no => absurd (no.symm.trans comparing) (Option.some_ne_none d))
    (fun d no => absurd (no.symm.trans committed) (Option.some_ne_none d))
    fun d no => absurd (no.symm.trans asleep) (Option.some_ne_none d)

omit [DecidableEq τ] in
/-- The reset in time: the stop has not come yet. -/
theorem reset (inv : StopInv s) (early : s.zeroed = false) :
    StopInv ({ s with nearest := maxTime }.toTimer .resetUnlock) where
  low := fun no => absurd (early.symm.trans no) Bool.false_ne_true
  order := inv.order
  signalling := inv.signalling
  upcoming := fun no => absurd no Bool.false_ne_true
  comparing := fun _ no => absurd no.symm (Option.some_ne_none _)
  committed := fun _ no => absurd no.symm (Option.some_ne_none _)
  asleep := fun _ no => absurd no.symm (Option.some_ne_none _)

omit [DecidableEq τ] in
/-- The deadline is stored: it is above 0, so the stop has not come yet. -/
theorem commit {next : Int} (inv : StopInv s) (htimer : s.timer = .waitCompare next)
    (first : next ≤ s.nearest) : StopInv ({ s with nearest := next }.toTimer (.clock next)) where
  low := fun stopped => Int.le_trans first (inv.low stopped)
  order := inv.order
  signalling := inv.signalling
  upcoming := fun no => absurd no Bool.false_ne_true
  comparing := fun _ no => absurd no.symm (Option.some_ne_none _)
  committed := fun _ _ => inv.comparing next (by rw [htimer]; rfl)
  asleep := fun _ no => absurd no.symm (Option.some_ne_none _)

omit [DecidableEq τ] in
/-- Before the wait the stop has not signalled. -/
theorem early (inv : StopInv s) {d : Int} (stored : s.timer.committed = some d) :
    s.signalled = false := by
  cases h : s.signalled with
  | false => rfl
  | true =>
    have low := inv.low (inv.order h)
    have high := inv.committed d stored
    omega

theorem stepTimer {num : ℕ} (inv : StopInv s) (onTime : s.onTime .timer = true)
    (hstep : s.stepTimer num = some s') : StopInv s' := by
  cases pc : s.timer <;> simp only [State.stepTimer, pc] at hstep
  case push | popDeleted | due | popRun | clock | exited | aborted => cases hstep
  case loopHead =>
    cases hstep
    split_ifs <;> exact inv.walk rfl rfl rfl rfl rfl rfl rfl rfl
  case resetLock | relock =>
    obtain ⟨s₁, lock, rfl⟩ := Option.map_eq_some_iff.mp hstep
    obtain rfl := lock_eq lock
    exact inv.walk rfl rfl rfl rfl rfl rfl rfl rfl
  case reset =>
    cases hstep
    simp only [State.onTime, pc, Bool.not_eq_true'] at onTime
    exact inv.reset onTime
  case peek i =>
    cases hstep
    split_ifs
    · cases (s.bucket i).head <;> exact inv.walk rfl rfl rfl rfl rfl rfl rfl rfl
    · exact inv.walk rfl rfl rfl rfl rfl rfl rfl rfl
  case takeLock =>
    obtain ⟨s₁, lock, rfl⟩ := Option.map_eq_some_iff.mp hstep
    obtain rfl := lockBucket_eq lock
    exact inv.walk rfl rfl rfl rfl rfl rfl rfl rfl
  case take =>
    split at hstep <;> cases hstep <;> exact inv.walk rfl rfl rfl rfl rfl rfl rfl rfl
  case tryLoad site p v =>
    cases hstep
    split_ifs
    · exact inv.walk rfl rfl rfl rfl rfl rfl rfl rfl
    · cases site <;> exact inv.walk rfl rfl rfl rfl rfl rfl rfl rfl
  case tryCheck =>
    cases hstep
    split_ifs <;> exact inv.walk rfl rfl rfl rfl rfl rfl rfl rfl
  case tryReturn site p =>
    cases hstep
    cases site <;> exact inv.walk rfl rfl rfl rfl rfl rfl rfl rfl
  case drain =>
    split at hstep <;> rename_i tasks <;> cases hstep
    · refine inv.toTimer rfl rfl rfl rfl (fun _ p hp => ?_) (fun _ no => by cases no)
        (fun _ no => by cases no) fun _ no => by cases no
      rw [tasks] at hp
      cases hp
    · exact inv.walk rfl rfl rfl rfl rfl rfl rfl rfl
  case runCas =>
    split_ifs at hstep <;> cases hstep <;> exact inv.walk rfl rfl rfl rfl rfl rfl rfl rfl
  case nextRun =>
    cases hstep
    refine inv.toTimer rfl rfl rfl rfl (fun no => by cases no) ?_ (fun _ no => by cases no)
      fun _ no => by cases no
    rintro d ⟨⟩
    cases tasks : s.tasks with
    | nil => exact (by decide : 0 < maxTime)
    | cons p rest =>
      exact inv.upcoming (by rw [pc]; rfl) p (by rw [tasks]; exact List.mem_cons_self)
  case waitLock next =>
    obtain ⟨s₁, lock, rfl⟩ := Option.map_eq_some_iff.mp hstep
    obtain rfl := lock_eq lock
    refine inv.toTimer rfl rfl rfl rfl (fun no => by cases no) ?_ (fun _ no => by cases no)
      fun _ no => by cases no
    rintro d ⟨⟩
    exact inv.comparing next (by rw [pc]; rfl)
  case waitCompare next =>
    split_ifs at hstep with later <;> cases hstep
    · exact inv.walk rfl rfl rfl rfl rfl rfl rfl rfl
    · exact inv.commit pc (Int.not_lt.mp later)
  case wait now dif =>
    cases hstep
    exact inv.toTimer rfl rfl rfl rfl (fun no => by cases no) (fun _ no => by cases no)
      (fun _ no => by cases no) fun _ _ => inv.early (by rw [pc]; rfl)
  case visit i p =>
    cases p <;> cases hstep <;> exact inv.walk rfl rfl rfl rfl rfl rfl rfl rfl
  case blocked deadline woken =>
    cases woken <;> cases hstep
    exact inv.walk rfl rfl rfl rfl rfl rfl rfl rfl
  case resetUnlock | takeReset | takeUnlock | advance | runCall | runStore | runReturn |
      continueUnlock | waitUnlock =>
    cases hstep
    exact inv.walk rfl rfl rfl rfl rfl rfl rfl rfl

theorem act {num : ℕ} {a : Action τ} (inv : StopInv s) (placed : Placed s queues)
    (locks : LockInv s) (onTime : s.onTime a = true) (hstep : s.act num a = some s') :
    StopInv s' := by
  cases a with
  | schedule t c =>
    obtain ⟨-, -, -, -, rfl⟩ := State.act_schedule hstep
    exact inv.goto rfl rfl (fun _ _ _ => rfl) rfl rfl rfl rfl fun no => absurd no Bool.false_ne_true
  | unschedule t id =>
    obtain ⟨-, -, rfl⟩ := State.act_unschedule hstep
    exact inv.goto rfl rfl (fun _ _ _ => rfl) rfl rfl rfl rfl fun no => absurd no Bool.false_ne_true
  | stop t =>
    obtain ⟨-, rfl⟩ := State.act_stop hstep
    exact inv.goto rfl rfl (fun _ _ _ => rfl) rfl rfl rfl rfl fun no => absurd no Bool.false_ne_true
  | step t => exact inv.stepThread placed locks hstep
  | timer => exact inv.stepTimer onTime hstep
  | arrange tasks =>
    obtain ⟨-, ⟨i, p, -, -, rfl⟩ | ⟨-, -, rfl⟩ | ⟨p, -, -, rfl⟩⟩ := State.arrange_cases hstep
    · exact inv.walk rfl rfl rfl rfl rfl rfl rfl rfl
    · exact inv.walk rfl rfl rfl rfl rfl rfl rfl rfl
    · exact inv.walk rfl rfl rfl rfl rfl rfl rfl rfl
  | clock now =>
    obtain ⟨p, pc, rfl⟩ | ⟨next, pc, rfl⟩ := State.readClock_cases hstep
    · split_ifs with later
      · refine inv.toTimer rfl rfl rfl rfl (fun _ q hq => ?_) (fun _ no => by cases no)
          (fun _ no => by cases no) fun _ no => by cases no
        have first := placed.least_of_top (by rw [pc]; rfl) hq
        change 0 < s.runTime q
        omega
      · exact inv.walk rfl rfl rfl rfl rfl rfl rfl rfl
    · exact inv.toTimer rfl rfl rfl rfl (fun no => by cases no) (fun _ no => by cases no)
        (fun _ _ => inv.committed _ (by rw [pc]; rfl)) fun _ no => by cases no
  | timeout =>
    obtain ⟨deadline, woken, -, rfl⟩ := State.act_timeout hstep
    exact inv.walk rfl rfl rfl rfl rfl rfl rfl rfl

end StopInv

section

variable [DecidableEq τ] {num : ℕ} {s : State τ}

/-- In every run of the timer thread with calls of `schedule` and `stop_and_join` in
which the slots fit in an id and the timer thread does not overwrite the time that a
stop has set: once the stop has signalled, the timer thread does not sleep without a
wake-up. -/
theorem stop_not_missed
    (hs : (machine num τ).ReachableBy (fun s a => s.onTime a && a.keepsTasks && a.fits) s)
    (signalled : s.signalled = true) (deadline : Int) : s.timer ≠ .blocked deadline false := by
  have invariant : ∃ queues, Placed s queues ∧ LockInv s ∧ Unremoved s ∧ StopInv s := by
    refine hs.invariant
      (fun s => ∃ queues, Placed s queues ∧ LockInv s ∧ Unremoved s ∧ StopInv s) ?_ ?_
    · intro s hinit
      rw [show s = initial τ s.node from hinit]
      exact ⟨_, Placed.init _, LockInv.init _, Unremoved.init _, StopInv.init _⟩
    · rintro s a s' ⟨queues, placed, locks, unremoved, inv⟩ ok hnext
      obtain ⟨both, fits⟩ := (Bool.and_eq_true _ _).mp ok
      obtain ⟨onTime, keeps⟩ := (Bool.and_eq_true _ _).mp both
      exact ⟨_, placed.act fits (unremoved.settled hnext) hnext, locks.act hnext,
        unremoved.act placed keeps hnext, inv.act placed locks onTime hnext⟩
  obtain ⟨queues, -, -, -, inv⟩ := invariant
  intro sleeping
  have early := inv.asleep deadline (by rw [sleeping]; rfl)
  exact Bool.false_ne_true (early.symm.trans signalled)

end

/-- Uninitialised nodes for runs on fixed inputs. -/
def unused (_ : Slot) : Node := { next := none, runTime := 0, taskId := 0, version := 2 }

def stopCall : List (Action ℕ) := .stop 0 :: List.replicate 5 (.step 0)

/-- A stop while the timer thread sleeps without a task. -/
theorem stop_not_missed_asleep : ∃ s : State ℕ, s.signalled = true ∧
    s.timer ≠ .blocked maxTime false := by
  have ran : ((machine 1 ℕ).runBy (fun s a => s.onTime a && a.keepsTasks && a.fits)
      (initial ℕ unused)
      (List.replicate 11 .timer ++ [.clock 0, .timer] ++ stopCall)).map State.signalled =
      some true := by decide +kernel
  obtain ⟨s, hrun, signalled⟩ := Option.map_eq_some_iff.mp ran
  have start : (machine 1 ℕ).init (initial ℕ unused) := rfl
  have hs := Machine.runBy_reachable (.init start) hrun
  exact ⟨s, signalled, stop_not_missed hs signalled maxTime⟩

/-- The stop between the timer thread's test of `_stop` and its reset. -/
theorem stop_missed : ¬ ∀ s : State ℕ,
    (machine 1 ℕ).ReachableBy (fun _ a => a.keepsTasks) s → s.signalled = true →
    ∀ deadline, s.timer ≠ .blocked deadline false := by
  intro claim
  have ran : ((machine 1 ℕ).runBy (fun _ a => a.keepsTasks) (initial ℕ unused)
      (.timer :: stopCall ++ List.replicate 10 .timer ++ [.clock 0, .timer])).map
      (fun s => (s.signalled, s.timer.asleep)) = some (true, some maxTime) := by decide +kernel
  obtain ⟨s, hrun, result⟩ := Option.map_eq_some_iff.mp ran
  simp only [Prod.mk.injEq] at result
  obtain ⟨signalled, sleeping⟩ := result
  have start : (machine 1 ℕ).init (initial ℕ unused) := rfl
  have hs := Machine.runBy_reachable (.init start) hrun
  cases timer : s.timer with
  | blocked deadline woken =>
    rw [timer] at sleeping
    cases woken <;> cases sleeping
    exact claim s hs signalled maxTime timer
  | _ =>
    rw [timer] at sleeping
    cases sleeping

end Codelab.TimerThread
