import Codelab.Theory.Mutex
import Codelab.TimerThread

/-! The mutex of the timer thread and those of its buckets: each is held by the actor
that stands between its lock and its unlock. -/

namespace Codelab.TimerThread

open TimerTaskId

open Mutex

variable {τ : Type*}

/-- The mutexes an actor holds: the timer thread's, and at most one bucket's. -/
structure Locks where
  whole : Bool
  bucket : Option ℕ

def unlocked : Locks := ⟨false, none⟩

def Pc.locks : Pc → Locks
  | .schedLink c _ => ⟨false, some c.bucket⟩
  | .schedCompare c _ => ⟨false, some c.bucket⟩
  | .schedUnlock c _ _ => ⟨false, some c.bucket⟩
  | .nearCompare _ _ => ⟨true, none⟩
  | .nearUnlock _ _ _ => ⟨true, none⟩
  | .stopZero => ⟨true, none⟩
  | .stopWake => ⟨true, none⟩
  | .stopUnlock => ⟨true, none⟩
  | _ => unlocked

def TimerPc.locks : TimerPc → Locks
  | .reset => ⟨true, none⟩
  | .resetUnlock => ⟨true, none⟩
  | .take i => ⟨false, some i⟩
  | .takeReset i _ => ⟨false, some i⟩
  | .takeUnlock i _ => ⟨false, some i⟩
  | .waitCompare _ => ⟨true, none⟩
  | .continueUnlock => ⟨true, none⟩
  | .clock _ => ⟨true, none⟩
  | .wait _ _ => ⟨true, none⟩
  | .waitUnlock => ⟨true, none⟩
  | _ => unlocked

/-- The deadline that has been stored, before the wait. -/
def TimerPc.committed : TimerPc → Option Int
  | .clock next => some next
  | .wait now dif => some (now + dif)
  | _ => none

/-- The deadline of a wait for which no wake-up is pending. -/
def TimerPc.asleep : TimerPc → Option Int
  | .blocked deadline false => some deadline
  | _ => none

theorem TimerPc.locks_of_committed {timer : TimerPc} {next : Int}
    (h : timer.committed = some next) : timer.locks.whole = true := by
  cases timer <;> first | rfl | cases h

def State.locks (s : State τ) : Actor τ → Locks
  | .timer => s.timer.locks
  | .thread t => (s.pc t).locks

structure LockInv (s : State τ) : Prop where
  whole : Guards s.mutex fun a => (s.locks a).whole = true
  bucket : ∀ b, Guards (s.bucket b).mutex fun a => (s.locks a).bucket = some b

theorem lock_eq [DecidableEq τ] {s s₁ : State τ} {a : Actor τ} (h : s.lock a = some s₁) :
    s₁ = { s with mutex := some a } := by
  rw [State.lock] at h
  split_ifs at h
  exact (Option.some.inj h).symm

theorem lockBucket_eq [DecidableEq τ] {s s₁ : State τ} {a : Actor τ} {b : ℕ}
    (h : s.lockBucket b a = some s₁) :
    s₁ = s.onBucket b ({ · with mutex := some a }) := by
  rw [State.lockBucket] at h
  split_ifs at h
  exact (Option.some.inj h).symm

theorem onNode_runTime (s : State τ) (p : Slot) (change : Node → Node)
    (same : (change (s.node p)).runTime = (s.node p).runTime) :
    (s.onNode p change).runTime = s.runTime := by
  funext q
  by_cases e : q = p
  · subst e
    simpa only [State.runTime, State.onNode, Function.update_self] using same
  · simp only [State.runTime, State.onNode, Function.update_of_ne e]

namespace LockInv

variable {s s₁ s' : State τ} {a : Actor τ} {t : τ} {b : ℕ}

/-- Two threads that stand in the timer thread's mutex are the same. -/
theorem alone (inv : LockInv s) {u v : Actor τ} (hu : (s.locks u).whole = true)
    (hv : (s.locks v).whole = true) : u = v := inv.whole.exclusive hu hv

theorem alone_in (inv : LockInv s) {u v : Actor τ} (hu : (s.locks u).bucket = some b)
    (hv : (s.locks v).bucket = some b) : u = v := (inv.bucket b).exclusive hu hv

theorem init (node : Slot → Node) : LockInv (initial τ node) where
  whole := guards_none fun a => by cases a <;> exact Bool.false_ne_true
  bucket := fun b => guards_none fun a => by
    cases a <;> exact fun no => Option.some_ne_none b no.symm

theorem quiet (inv : LockInv s) (mutex : s'.mutex = s.mutex)
    (buckets : ∀ b, (s'.bucket b).mutex = (s.bucket b).mutex) (locks : s'.locks = s.locks) :
    LockInv s' where
  whole := by
    rw [mutex, locks]
    exact inv.whole
  bucket := fun b => by
    rw [buckets b, locks]
    exact inv.bucket b

theorem turn (inv : LockInv s) (others : ∀ u, u ≠ a → s'.locks u = s.locks u)
    (whole : Turn s.mutex s'.mutex a ((s.locks a).whole = true) ((s'.locks a).whole = true))
    (bucket : ∀ b, Turn (s.bucket b).mutex (s'.bucket b).mutex a ((s.locks a).bucket = some b)
      ((s'.locks a).bucket = some b)) : LockInv s' where
  whole := inv.whole.turn whole fun u e => by rw [others u e]
  bucket := fun b => (inv.bucket b).turn (bucket b) fun u e => by rw [others u e]

theorem stays {m : Option (Actor τ)} {locks locks' : Locks} (same : locks'.bucket = locks.bucket)
    (b : ℕ) : Turn m m a (locks.bucket = some b) (locks'.bucket = some b) :=
  .inl ⟨rfl, by rw [same]⟩

/-- Taking the timer thread's mutex. -/
theorem lock [DecidableEq τ] (inv : LockInv s) (hlock : s.lock a = some s₁)
    (others : ∀ u, u ≠ a → s'.locks u = s.locks u) (mutex : s'.mutex = s₁.mutex)
    (bucket : s'.bucket = s₁.bucket) (before : s.locks a = unlocked)
    (after : s'.locks a = ⟨true, none⟩) : LockInv s' := by
  rw [State.lock] at hlock
  split_ifs at hlock with available
  cases hlock
  refine inv.turn others (.inr (.inl ⟨available, mutex, by rw [after]⟩)) fun b => ?_
  rw [bucket, before, after]
  exact stays rfl b

/-- Giving it back. -/
theorem unlock (inv : LockInv s) (others : ∀ u, u ≠ a → s'.locks u = s.locks u)
    (mutex : s'.mutex = none) (bucket : s'.bucket = s.bucket) (before : s.locks a = ⟨true, none⟩)
    (after : s'.locks a = unlocked) : LockInv s' := by
  refine inv.turn others (.inr (.inr ⟨by rw [before], mutex, ?_⟩)) fun b => ?_
  · rw [after]
    exact Bool.false_ne_true
  · rw [bucket, before, after]
    exact stays rfl b

/-- Taking the mutex of a bucket. -/
theorem lockBucket [DecidableEq τ] (inv : LockInv s) (hlock : s.lockBucket b a = some s₁)
    (others : ∀ u, u ≠ a → s'.locks u = s.locks u) (mutex : s'.mutex = s₁.mutex)
    (bucket : s'.bucket = s₁.bucket) (before : s.locks a = unlocked)
    (after : s'.locks a = ⟨false, some b⟩) : LockInv s' := by
  rw [State.lockBucket] at hlock
  split_ifs at hlock with available
  cases hlock
  refine inv.turn others (.inl ⟨mutex, by rw [before, after]; rfl⟩) fun c => ?_
  rw [bucket, before, after]
  by_cases e : c = b
  · subst e
    exact .inr (.inl ⟨available, by simp only [State.onBucket, Function.update_self], rfl⟩)
  · refine .inl ⟨by simp only [State.onBucket, Function.update_of_ne e], ?_⟩
    exact ⟨fun no => absurd (Option.some.inj no).symm e,
      fun no => absurd no.symm (Option.some_ne_none c)⟩

/-- Giving it back. -/
theorem unlockBucket (inv : LockInv s) (others : ∀ u, u ≠ a → s'.locks u = s.locks u)
    (mutex : s'.mutex = s.mutex) (bucket : s'.bucket = (s.unlockBucket b).bucket)
    (before : s.locks a = ⟨false, some b⟩) (after : s'.locks a = unlocked) : LockInv s' := by
  refine inv.turn others (.inl ⟨mutex, by rw [before, after]; rfl⟩) fun c => ?_
  rw [bucket, before, after]
  by_cases e : c = b
  · subst e
    exact .inr (.inr ⟨rfl, by simp only [State.unlockBucket, State.onBucket, Function.update_self],
      fun no => absurd no.symm (Option.some_ne_none c)⟩)
  · refine .inl ⟨by simp only [State.unlockBucket, State.onBucket, Function.update_of_ne e], ?_⟩
    exact ⟨fun no => absurd no.symm (Option.some_ne_none c),
      fun no => absurd (Option.some.inj no).symm e⟩

theorem onBucket_mutex (s : State τ) (b : ℕ) (change : Bucket τ → Bucket τ)
    (same : (change (s.bucket b)).mutex = (s.bucket b).mutex) (c : ℕ) :
    ((s.onBucket b change).bucket c).mutex = (s.bucket c).mutex := by
  by_cases e : c = b
  · subst e
    simpa only [State.onBucket, Function.update_self] using same
  · simp only [State.onBucket, Function.update_of_ne e]

theorem wakeUp_same (s : State τ) : s.wakeUp.mutex = s.mutex ∧ s.wakeUp.bucket = s.bucket ∧
    s.wakeUp.pc = s.pc ∧ s.wakeUp.timer.locks = s.timer.locks := by
  unfold State.wakeUp
  split
  · rename_i timer
    rw [timer]
    exact ⟨rfl, rfl, rfl, rfl⟩
  · exact ⟨rfl, rfl, rfl, rfl⟩

variable [DecidableEq τ]

theorem goto_locks {pc : Pc} (hpc : s₁.pc = s.pc) (htimer : s₁.timer.locks = s.timer.locks) :
    (∀ u, u ≠ .thread t → (s₁.goto t pc).locks u = s.locks u) ∧
      (s₁.goto t pc).locks (.thread t) = pc.locks := by
  refine ⟨fun u e => ?_, ?_⟩
  · cases u with
    | timer => exact htimer
    | thread v =>
      have other : v ≠ t := fun same => e (congrArg Actor.thread same)
      simp only [State.locks, State.goto, Function.update_of_ne other, hpc]
  · simp only [State.locks, State.goto, Function.update_self]

theorem goto {pc : Pc} (inv : LockInv s) (mutex : s₁.mutex = s.mutex)
    (buckets : ∀ b, (s₁.bucket b).mutex = (s.bucket b).mutex) (hpc : s₁.pc = s.pc)
    (htimer : s₁.timer.locks = s.timer.locks) (locks : pc.locks = (s.pc t).locks) :
    LockInv (s₁.goto t pc) := by
  obtain ⟨others, mine⟩ := @goto_locks _ s s₁ t _ pc hpc htimer
  refine inv.quiet mutex buckets (funext fun u => ?_)
  by_cases e : u = .thread t
  · subst e
    exact mine.trans locks
  · exact others u e

omit [DecidableEq τ] in
theorem cancel_same (s : State τ) (id : TaskId) : (s.cancel id).mutex = s.mutex ∧
    (s.cancel id).bucket = s.bucket ∧ (s.cancel id).pc = s.pc ∧ (s.cancel id).timer = s.timer := by
  unfold State.cancel
  split_ifs <;> exact ⟨rfl, rfl, rfl, rfl⟩

omit [DecidableEq τ] in
theorem lock_same (h : s.lock a = some s₁) : s₁.bucket = s.bucket ∧ s₁.pc = s.pc ∧
    s₁.timer = s.timer := by
  rw [State.lock] at h
  split_ifs at h
  cases h
  exact ⟨rfl, rfl, rfl⟩

omit [DecidableEq τ] in
theorem lockBucket_same (h : s.lockBucket b a = some s₁) : s₁.mutex = s.mutex ∧ s₁.pc = s.pc ∧
    s₁.timer = s.timer := by
  rw [State.lockBucket] at h
  split_ifs at h
  cases h
  exact ⟨rfl, rfl, rfl⟩

theorem stepThread (inv : LockInv s) (hstep : s.stepThread t = some s') : LockInv s' := by
  have free : ∀ b, (s.bucket b).mutex = (s.bucket b).mutex := fun _ => rfl
  cases pc : s.pc t <;> simp only [State.stepThread, pc] at hstep
  case idle => cases hstep
  all_goals have locks : s.locks (.thread t) = (s.pc t).locks := rfl
  all_goals rw [pc] at locks
  case schedWrite | schedAdd | schedLoad | schedMake =>
    cases hstep
    exact inv.goto rfl free rfl rfl (by rw [pc]; rfl)
  case schedLock c id =>
    obtain ⟨s₁, lock, rfl⟩ := Option.map_eq_some_iff.mp hstep
    obtain ⟨-, hpc, htimer⟩ := lockBucket_same lock
    obtain ⟨others, mine⟩ := goto_locks hpc (congrArg TimerPc.locks htimer)
    exact inv.lockBucket lock others rfl rfl locks mine
  case schedLink c id =>
    cases hstep
    exact inv.goto rfl (onBucket_mutex (s.onNode c.slot _) _ _ rfl) rfl rfl (by rw [pc]; rfl)
  case schedCompare =>
    split_ifs at hstep <;> cases hstep
    · exact inv.goto rfl (onBucket_mutex s _ _ rfl) rfl rfl (by rw [pc]; rfl)
    · exact inv.goto rfl free rfl rfl (by rw [pc]; rfl)
  case schedUnlock c id earlier =>
    cases hstep
    obtain ⟨others, mine⟩ := @goto_locks _ s (s.unlockBucket c.bucket) t _
      (if earlier then .nearLock c id else .schedReturn id) rfl rfl
    refine inv.unlockBucket others rfl rfl locks (mine.trans ?_)
    cases earlier <;> rfl
  case nearLock | stopLock =>
    obtain ⟨s₁, lock, rfl⟩ := Option.map_eq_some_iff.mp hstep
    obtain ⟨-, hpc, htimer⟩ := lock_same lock
    obtain ⟨others, mine⟩ := goto_locks hpc (congrArg TimerPc.locks htimer)
    exact inv.lock lock others rfl rfl locks mine
  case nearCompare =>
    split_ifs at hstep <;> cases hstep <;> exact inv.goto rfl free rfl rfl (by rw [pc]; rfl)
  case nearUnlock c id earlier =>
    cases hstep
    obtain ⟨others, mine⟩ := @goto_locks _ s s.unlock t _
      (if earlier then .wake c id else .schedReturn id) rfl rfl
    refine inv.unlock others rfl rfl locks (mine.trans ?_)
    cases earlier <;> rfl
  case wake =>
    cases hstep
    obtain ⟨mutex, bucket, hpc, htimer⟩ := wakeUp_same s
    exact inv.goto mutex (fun b => by rw [bucket]) hpc htimer (by rw [pc]; rfl)
  case schedReturn | stopSet | stopZero =>
    cases hstep
    exact inv.goto rfl free rfl rfl (by rw [pc]; rfl)
  case unschedCas id =>
    cases hstep
    obtain ⟨mutex, bucket, hpc, htimer⟩ := cancel_same s id
    exact inv.goto mutex (fun b => by rw [bucket]) hpc (by rw [htimer]) (by rw [pc]; rfl)
  case stopWake =>
    cases hstep
    obtain ⟨mutex, bucket, hpc, htimer⟩ := wakeUp_same s
    exact inv.goto mutex (fun b => congrArg Bucket.mutex (congrFun bucket b)) hpc htimer
      (by rw [pc]; rfl)
  case stopUnlock =>
    cases hstep
    obtain ⟨others, mine⟩ := @goto_locks _ s s.unlock t _ .stopJoin rfl rfl
    exact inv.unlock others rfl rfl locks mine
  case stopJoin =>
    split at hstep <;> cases hstep
    exact inv.goto rfl free rfl rfl (by rw [pc]; rfl)

omit [DecidableEq τ] in
theorem toTimer_others {timer : TimerPc} (hpc : s₁.pc = s.pc) :
    ∀ u, u ≠ .timer → (s₁.toTimer timer).locks u = s.locks u := by
  intro u e
  cases u with
  | timer => exact absurd rfl e
  | thread v => simp only [State.locks, State.toTimer, hpc]

theorem toTimer {timer before : TimerPc} (inv : LockInv s) (htimer : s.timer = before)
    (mutex : s₁.mutex = s.mutex) (buckets : ∀ b, (s₁.bucket b).mutex = (s.bucket b).mutex)
    (hpc : s₁.pc = s.pc) (locks : timer.locks = before.locks) : LockInv (s₁.toTimer timer) := by
  refine inv.quiet mutex buckets (funext fun u => ?_)
  by_cases e : u = .timer
  · subst e
    exact locks.trans (congrArg TimerPc.locks htimer).symm
  · exact toTimer_others hpc u e

theorem move {timer before : TimerPc} (inv : LockInv s) (htimer : s.timer = before)
    (locks : timer.locks = before.locks) : LockInv (s.toTimer timer) :=
  inv.toTimer htimer rfl (fun _ => rfl) rfl locks

theorem stepTimer {num : ℕ} (inv : LockInv s) (hstep : s.stepTimer num = some s') :
    LockInv s' := by
  have free : ∀ b, (s.bucket b).mutex = (s.bucket b).mutex := fun _ => rfl
  cases pc : s.timer <;> simp only [State.stepTimer, pc] at hstep
  case push | popDeleted | due | popRun | clock | exited | aborted => cases hstep
  all_goals have locks : s.locks .timer = s.timer.locks := rfl
  all_goals rw [pc] at locks
  case loopHead =>
    cases hstep
    split_ifs <;> exact inv.move pc rfl
  case resetLock | waitLock | relock =>
    obtain ⟨s₁, lock, rfl⟩ := Option.map_eq_some_iff.mp hstep
    exact inv.lock lock (toTimer_others (lock_same lock).2.1) rfl rfl locks rfl
  case reset => cases hstep; exact inv.toTimer pc rfl free rfl rfl
  case resetUnlock | continueUnlock | wait | waitUnlock =>
    cases hstep
    exact inv.unlock (toTimer_others rfl) rfl rfl locks rfl
  case peek i =>
    cases hstep
    split_ifs
    · cases (s.bucket i).head <;> exact inv.move pc rfl
    · exact inv.move pc rfl
  case takeLock i =>
    obtain ⟨s₁, lock, rfl⟩ := Option.map_eq_some_iff.mp hstep
    exact inv.lockBucket lock (toTimer_others (lockBucket_same lock).2.1) rfl rfl locks rfl
  case take =>
    split at hstep <;> cases hstep
    · exact inv.toTimer pc rfl (onBucket_mutex s _ _ rfl) rfl rfl
    · exact inv.move pc rfl
  case takeReset => cases hstep; exact inv.toTimer pc rfl (onBucket_mutex s _ _ rfl) rfl rfl
  case takeUnlock =>
    cases hstep
    exact inv.unlockBucket (toTimer_others rfl) rfl rfl locks rfl
  case tryLoad site p v =>
    cases hstep
    split_ifs
    · exact inv.move pc rfl
    · cases site <;> exact inv.move pc rfl
  case tryCheck =>
    cases hstep
    split_ifs <;> exact inv.move pc rfl
  case tryReturn site p =>
    cases hstep
    cases site <;> exact inv.toTimer pc rfl free rfl rfl
  case drain =>
    split at hstep <;> cases hstep <;> exact inv.move pc rfl
  case runCas =>
    split_ifs at hstep <;> cases hstep
    · exact inv.toTimer pc rfl free rfl rfl
    · exact inv.move pc rfl
    · exact inv.move pc rfl
  case runStore | runReturn => cases hstep; exact inv.toTimer pc rfl free rfl rfl
  case waitCompare =>
    split_ifs at hstep <;> cases hstep <;> exact inv.toTimer pc rfl free rfl rfl
  case visit i p => cases p <;> cases hstep <;> exact inv.move pc rfl
  case blocked deadline woken => cases woken <;> cases hstep; exact inv.move pc rfl
  case advance | runCall | nextRun => cases hstep; exact inv.move pc rfl

theorem act {num : ℕ} {a : Action τ} (inv : LockInv s) (hstep : s.act num a = some s') :
    LockInv s' := by
  have free : ∀ b, (s.bucket b).mutex = (s.bucket b).mutex := fun _ => rfl
  cases a with
  | schedule t c =>
    obtain ⟨pc, -, -, -, rfl⟩ := State.act_schedule hstep
    exact inv.goto rfl free rfl rfl (by rw [pc]; rfl)
  | unschedule t id =>
    obtain ⟨pc, -, rfl⟩ := State.act_unschedule hstep
    exact inv.goto rfl free rfl rfl (by rw [pc]; rfl)
  | stop t =>
    obtain ⟨pc, rfl⟩ := State.act_stop hstep
    exact inv.goto rfl free rfl rfl (by rw [pc]; rfl)
  | step t => exact inv.stepThread hstep
  | timer => exact inv.stepTimer hstep
  | arrange tasks =>
    obtain ⟨-, ⟨i, p, pc, -, rfl⟩ | ⟨pc, -, rfl⟩ | ⟨p, pc, -, rfl⟩⟩ := State.arrange_cases hstep
    · exact inv.toTimer pc rfl free rfl rfl
    · exact inv.toTimer pc rfl free rfl rfl
    · exact inv.toTimer pc rfl free rfl rfl
  | clock now =>
    obtain ⟨p, pc, rfl⟩ | ⟨next, pc, rfl⟩ := State.readClock_cases hstep
    · split_ifs <;> exact inv.move pc rfl
    · exact inv.move pc rfl
  | timeout =>
    obtain ⟨deadline, woken, pc, rfl⟩ := State.act_timeout hstep
    exact inv.move pc rfl

end LockInv

end Codelab.TimerThread
