import Codelab.Theory.Machine
import Codelab.Theory.Chain
import Codelab.TimerTaskId
import Mathlib.Algebra.Ring.Int.Defs

/-! The timer thread with its buckets: `run`, any number of threads that call
`schedule`, `unschedule` and `stop_and_join`, one shared access a step. Tasks are
named by their slots and linked through their `next` fields. The heap of `run` is
kept in a vector whose front is a least task, which is what `std::push_heap` and
`std::pop_heap` promise; how they arrange the others is left open, as are the
readings of the clock. `wait_for_timeout_or_signal` gives the mutex back while it
blocks and returns on its timeout or on a wake-up. -/

namespace Codelab.TimerThread

open TimerTaskId

/-- `std::numeric_limits<int64_t>::max()`. -/
def maxTime : Int := 2 ^ 63 - 1

structure Node where
  next : Option Slot
  runTime : Int
  taskId : TaskId
  version : Version

/-- The arguments of a `schedule` call: the bucket the calling thread hashes to, the
slot it got from the pool and the time it asks for. -/
structure Call where
  bucket : ℕ
  slot : Slot
  runTime : Int
  deriving DecidableEq

/-- Control points of a thread that uses the timer. -/
inductive Pc
  | idle
  | schedWrite (c : Call)
  | schedAdd (c : Call)
  | schedLoad (c : Call)
  | schedMake (c : Call) (version : Version)
  | schedLock (c : Call) (id : TaskId)
  | schedLink (c : Call) (id : TaskId)
  | schedCompare (c : Call) (id : TaskId)
  | schedUnlock (c : Call) (id : TaskId) (earlier : Bool)
  | nearLock (c : Call) (id : TaskId)
  | nearCompare (c : Call) (id : TaskId)
  | nearUnlock (c : Call) (id : TaskId) (earlier : Bool)
  | wake (c : Call) (id : TaskId)
  | schedReturn (id : TaskId)
  | unschedCas (id : TaskId)
  | stopSet
  | stopLock
  | stopZero
  | stopWake
  | stopUnlock
  | stopJoin

/-- Where `run` calls `try_delete`: in the loop over a bucket's chain or on the top
of the heap. -/
inductive Site
  | chain (bucket : ℕ)
  | heap

/-- Control points of the timer thread. -/
inductive TimerPc
  | loopHead
  | resetLock
  | reset
  | resetUnlock
  | peek (i : ℕ)
  | takeLock (i : ℕ)
  | take (i : ℕ)
  | takeReset (i : ℕ) (head : Slot)
  | takeUnlock (i : ℕ) (head : Option Slot)
  | visit (i : ℕ) (p : Option Slot)
  | tryLoad (site : Site) (p : Slot) (idVersion : Version)
  | tryCheck (site : Site) (p : Slot) (idVersion : Version)
  | tryReturn (site : Site) (p : Slot)
  | push (i : ℕ) (p : Slot)
  | advance (i : ℕ) (p : Slot)
  | drain
  | popDeleted
  | due (p : Slot)
  | popRun (p : Slot)
  | runCas (p : Slot) (idVersion : Version)
  | runCall (p : Slot) (idVersion : Version)
  | runStore (p : Slot) (idVersion : Version)
  | runReturn (p : Slot)
  | nextRun
  | waitLock (next : Int)
  | waitCompare (next : Int)
  | continueUnlock
  | clock (next : Int)
  | wait (now dif : Int)
  | blocked (deadline : Int) (woken : Bool)
  | relock
  | waitUnlock
  | exited
  | aborted

inductive Actor (τ : Type*)
  | timer
  | thread (t : τ)
  deriving DecidableEq

structure Bucket (τ : Type*) where
  mutex : Option (Actor τ)
  nearest : Int
  head : Option Slot

/-- `zeroed` and `signalled` record that some `stop_and_join` has set
`_nearest_run_time` to 0 and has issued its wake-up; no step reads them. -/
structure State (τ : Type*) where
  stop : Bool
  mutex : Option (Actor τ)
  nearest : Int
  bucket : ℕ → Bucket τ
  node : Slot → Node
  allocated : Slot → Bool
  tasks : List Slot
  pc : τ → Pc
  timer : TimerPc
  issued : List (TaskId)
  zeroed : Bool
  signalled : Bool

inductive Action (τ : Type*)
  | schedule (t : τ) (c : Call)
  | unschedule (t : τ) (id : TaskId)
  | stop (t : τ)
  | step (t : τ)
  | timer
  | arrange (tasks : List Slot)
  | clock (now : ℕ)
  | timeout

/-- The front of a vector of tasks is a least one. -/
def Least {α : Type*} (runTime : α → Int) : List α → Prop
  | [] => True
  | p :: rest => ∀ q ∈ rest, runTime p ≤ runTime q

instance {α : Type*} (runTime : α → Int) : (tasks : List α) → Decidable (Least runTime tasks)
  | [] => inferInstanceAs (Decidable True)
  | p :: rest => inferInstanceAs (Decidable (∀ q ∈ rest, runTime p ≤ runTime q))

variable {τ : Type*} [DecidableEq τ]

/-- After `start`, with whatever the nodes of the pool contain. -/
def initial (τ : Type*) (node : Slot → Node) : State τ where
  stop := false
  mutex := none
  nearest := maxTime
  bucket := fun _ => { mutex := none, nearest := maxTime, head := none }
  node := node
  allocated := fun _ => false
  tasks := []
  pc := fun _ => .idle
  timer := .loopHead
  issued := []
  zeroed := false
  signalled := false

namespace State

def runTime (s : State τ) (p : Slot) : Int := (s.node p).runTime

/-- `slot_of_task_id(task_id)`. -/
def idSlot (s : State τ) (p : Slot) : Slot := slotOfTaskId (s.node p).taskId

/-- `version_of_task_id(task_id)`. -/
def idVersion (s : State τ) (p : Slot) : Version := versionOfTaskId (s.node p).taskId

def goto (s : State τ) (t : τ) (pc : Pc) : State τ :=
  { s with pc := Function.update s.pc t pc }

def toTimer (s : State τ) (timer : TimerPc) : State τ := { s with timer := timer }

def onBucket (s : State τ) (b : ℕ) (change : Bucket τ → Bucket τ) : State τ :=
  { s with bucket := Function.update s.bucket b (change (s.bucket b)) }

def onNode (s : State τ) (p : Slot) (change : Node → Node) : State τ :=
  { s with node := Function.update s.node p (change (s.node p)) }

def lock (s : State τ) (a : Actor τ) : Option (State τ) :=
  if s.mutex = none then some { s with mutex := some a } else none

def unlock (s : State τ) : State τ := { s with mutex := none }

def lockBucket (s : State τ) (b : ℕ) (a : Actor τ) : Option (State τ) :=
  if (s.bucket b).mutex = none then some (s.onBucket b ({ · with mutex := some a })) else none

def unlockBucket (s : State τ) (b : ℕ) : State τ :=
  s.onBucket b ({ · with mutex := none })

/-- `return_resource(slot_of_task_id(task_id))`, whatever slot that is. -/
def returnResource (s : State τ) (p : Slot) : State τ :=
  { s with allocated := Function.update s.allocated (s.idSlot p) false }

/-- `wake_up_sleep_thread`: a blocked timer thread will return from its wait. -/
def wakeUp (s : State τ) : State τ :=
  match s.timer with
  | .blocked deadline _ => s.toTimer (.blocked deadline true)
  | _ => s

/-- The compare-and-swap of `unschedule`. -/
def cancel (s : State τ) (id : TaskId) : State τ :=
  if (s.node (slotOfTaskId id)).version = versionOfTaskId id then
    s.onNode (slotOfTaskId id) ({ · with version := versionOfTaskId id + 2 })
  else s

def stepThread (s : State τ) (t : τ) : Option (State τ) :=
  match s.pc t with
  | .idle => none
  | .schedWrite c =>
      some ((s.onNode c.slot ({ · with next := none, runTime := c.runTime })).goto t (.schedAdd c))
  | .schedAdd c =>
      some ((s.onNode c.slot fun n => { n with version := n.version + 2 }).goto t (.schedLoad c))
  | .schedLoad c => some (s.goto t (.schedMake c (s.node c.slot).version))
  | .schedMake c version =>
      let id := makeTaskId c.slot version
      some ((s.onNode c.slot ({ · with taskId := id })).goto t (.schedLock c id))
  | .schedLock c id => (s.lockBucket c.bucket (.thread t)).map (·.goto t (.schedLink c id))
  | .schedLink c id =>
      let head := (s.bucket c.bucket).head
      some (((s.onNode c.slot ({ · with next := head })).onBucket c.bucket
        ({ · with head := some c.slot })).goto t (.schedCompare c id))
  | .schedCompare c id =>
      if s.runTime c.slot < (s.bucket c.bucket).nearest then
        some ((s.onBucket c.bucket ({ · with nearest := s.runTime c.slot })).goto t
          (.schedUnlock c id true))
      else some (s.goto t (.schedUnlock c id false))
  | .schedUnlock c id earlier =>
      some ((s.unlockBucket c.bucket).goto t (if earlier then .nearLock c id else .schedReturn id))
  | .nearLock c id => (s.lock (.thread t)).map (·.goto t (.nearCompare c id))
  | .nearCompare c id =>
      if c.runTime < s.nearest then
        some ({ s with nearest := c.runTime }.goto t (.nearUnlock c id true))
      else some (s.goto t (.nearUnlock c id false))
  | .nearUnlock c id earlier =>
      some (s.unlock.goto t (if earlier then .wake c id else .schedReturn id))
  | .wake _ id => some (s.wakeUp.goto t (.schedReturn id))
  | .schedReturn id => some ({ s with issued := id :: s.issued }.goto t .idle)
  | .unschedCas id => some ((s.cancel id).goto t .idle)
  | .stopSet => some ({ s with stop := true }.goto t .stopLock)
  | .stopLock => (s.lock (.thread t)).map (·.goto t .stopZero)
  | .stopZero => some ({ s with nearest := 0, zeroed := true }.goto t .stopWake)
  | .stopWake => some ({ s.wakeUp with signalled := true }.goto t .stopUnlock)
  | .stopUnlock => some (s.unlock.goto t .stopJoin)
  | .stopJoin =>
      match s.timer with
      | .exited => some (s.goto t .idle)
      | _ => none

/-- Where `run` goes on after a `try_delete` that did not delete. -/
def kept (p : Slot) : Site → TimerPc
  | .chain i => .push i p
  | .heap => .due p

/-- Where `run` goes on after a `try_delete` that did. -/
def deleted (p : Slot) : Site → TimerPc
  | .chain i => .advance i p
  | .heap => .popDeleted

/-- The timer thread's next instruction, where nothing outside decides it. -/
def stepTimer (num : ℕ) (s : State τ) : Option (State τ) :=
  match s.timer with
  | .loopHead => some (s.toTimer (if s.stop then .exited else .resetLock))
  | .resetLock => (s.lock .timer).map (·.toTimer .reset)
  | .reset => some ({ s with nearest := maxTime }.toTimer .resetUnlock)
  | .resetUnlock => some (s.unlock.toTimer (.peek 0))
  | .peek i =>
      some (s.toTimer (if i < num then
        match (s.bucket i).head with
        | some _ => .takeLock i
        | none => .visit i none
      else .drain))
  | .takeLock i => (s.lockBucket i .timer).map (·.toTimer (.take i))
  | .take i =>
      match (s.bucket i).head with
      | some p => some ((s.onBucket i ({ · with head := none })).toTimer (.takeReset i p))
      | none => some (s.toTimer (.takeUnlock i none))
  | .takeReset i p =>
      some ((s.onBucket i ({ · with nearest := maxTime })).toTimer (.takeUnlock i (some p)))
  | .takeUnlock i head => some ((s.unlockBucket i).toTimer (.visit i head))
  | .visit i (some p) => some (s.toTimer (.tryLoad (.chain i) p (s.idVersion p)))
  | .visit i none => some (s.toTimer (.peek (i + 1)))
  | .tryLoad site p idVersion =>
      some (s.toTimer (if (s.node p).version ≠ idVersion then .tryCheck site p idVersion
        else kept p site))
  | .tryCheck site p idVersion =>
      some (s.toTimer (if (s.node p).version = idVersion + 2 then .tryReturn site p else .aborted))
  | .tryReturn site p => some ((s.returnResource p).toTimer (deleted p site))
  | .advance i p => some (s.toTimer (.visit i (s.node p).next))
  | .drain =>
      match s.tasks with
      | [] => some (s.toTimer .nextRun)
      | p :: _ => some (s.toTimer (.tryLoad .heap p (s.idVersion p)))
  | .runCas p idVersion =>
      if (s.node p).version = idVersion then
        some ((s.onNode p ({ · with version := idVersion + 1 })).toTimer (.runCall p idVersion))
      else if (s.node p).version = idVersion + 2 then some (s.toTimer (.runReturn p))
      else some (s.toTimer .drain)
  | .runCall p idVersion => some (s.toTimer (.runStore p idVersion))
  | .runStore p idVersion =>
      some ((s.onNode p ({ · with version := idVersion + 2 })).toTimer (.runReturn p))
  | .runReturn p => some ((s.returnResource p).toTimer .drain)
  | .nextRun =>
      some (s.toTimer (.waitLock
        (match s.tasks with
        | [] => maxTime
        | p :: _ => s.runTime p)))
  | .waitLock next => (s.lock .timer).map (·.toTimer (.waitCompare next))
  | .waitCompare next =>
      if next > s.nearest then some (s.toTimer .continueUnlock)
      else some ({ s with nearest := next }.toTimer (.clock next))
  | .continueUnlock => some (s.unlock.toTimer .loopHead)
  | .wait now dif => some (s.unlock.toTimer (.blocked (now + dif) false))
  | .blocked _ true => some (s.toTimer .relock)
  | .relock => (s.lock .timer).map (·.toTimer .waitUnlock)
  | .waitUnlock => some (s.unlock.toTimer .loopHead)
  | _ => none

/-- `std::push_heap` and `std::pop_heap` leave the tasks in some order with a least
one in front. -/
def arrange (s : State τ) (tasks : List Slot) : Option (State τ) :=
  match s.timer with
  | .push i p =>
      if tasks.Perm (p :: s.tasks) ∧ Least s.runTime tasks then
        some ({ s with tasks := tasks }.toTimer (.advance i p))
      else none
  | .popDeleted =>
      if tasks.Perm s.tasks.tail ∧ Least s.runTime tasks then
        some ({ s with tasks := tasks }.toTimer .drain)
      else none
  | .popRun p =>
      if tasks.Perm s.tasks.tail ∧ Least s.runTime tasks then
        some ({ s with tasks := tasks }.toTimer (.runCas p (s.idVersion p)))
      else none
  | _ => none

/-- `butil::gettimeofday_us()` gives `now`. -/
def readClock (s : State τ) (now : ℕ) : Option (State τ) :=
  match s.timer with
  | .due p => some (s.toTimer (if (now : Int) < s.runTime p then .nextRun else .popRun p))
  | .clock next => some (s.toTimer (.wait now (next - now)))
  | _ => none

def act (num : ℕ) (s : State τ) : Action τ → Option (State τ)
  | .schedule t c =>
      match s.pc t with
      | .idle =>
          if c.bucket < num ∧ c.runTime ≤ maxTime ∧ s.allocated c.slot = false then
            some ({ s with allocated := Function.update s.allocated c.slot true }.goto t
              (.schedWrite c))
          else none
      | _ => none
  | .unschedule t id =>
      match s.pc t with
      | .idle => if id ∈ s.issued then some (s.goto t (.unschedCas id)) else none
      | _ => none
  | .stop t =>
      match s.pc t with
      | .idle => some (s.goto t .stopSet)
      | _ => none
  | .step t => s.stepThread t
  | .timer => s.stepTimer num
  | .arrange tasks => s.arrange tasks
  | .clock now => s.readClock now
  | .timeout =>
      match s.timer with
      | .blocked _ _ => some (s.toTimer .relock)
      | _ => none

section

variable {s s' : State τ} {num : ℕ} {t : τ} {tasks : List Slot}

theorem act_schedule {c : Call} (h : s.act num (.schedule t c) = some s') :
    s.pc t = .idle ∧ s.allocated c.slot = false ∧ c.bucket < num ∧ c.runTime ≤ maxTime ∧
      s' = { s with allocated := Function.update s.allocated c.slot true }.goto t
        (.schedWrite c) := by
  cases pc : s.pc t <;> simp only [act, pc] at h
  case idle =>
    split_ifs at h with ready
    cases h
    obtain ⟨bucket, runTime, available⟩ := ready
    exact ⟨rfl, available, bucket, runTime, rfl⟩
  all_goals cases h

theorem act_unschedule {id : TaskId} (h : s.act num (.unschedule t id) = some s') :
    s.pc t = .idle ∧ id ∈ s.issued ∧ s' = s.goto t (.unschedCas id) := by
  cases pc : s.pc t <;> simp only [act, pc] at h
  case idle =>
    split_ifs at h with issued
    cases h
    exact ⟨rfl, issued, rfl⟩
  all_goals cases h

theorem act_stop (h : s.act num (.stop t) = some s') :
    s.pc t = .idle ∧ s' = s.goto t .stopSet := by
  cases pc : s.pc t <;> simp only [act, pc] at h
  case idle =>
    cases h
    exact ⟨rfl, rfl⟩
  all_goals cases h

theorem act_timeout (h : s.act num .timeout = some s') :
    ∃ deadline woken, s.timer = .blocked deadline woken ∧ s' = s.toTimer .relock := by
  cases pc : s.timer <;> simp only [act, pc] at h
  case blocked deadline woken =>
    cases h
    exact ⟨deadline, woken, rfl, rfl⟩
  all_goals cases h

omit [DecidableEq τ] in
theorem arrange_cases (h : s.arrange tasks = some s') : Least s.runTime tasks ∧
    ((∃ i p, s.timer = .push i p ∧ tasks.Perm (p :: s.tasks) ∧
        s' = { s with tasks := tasks }.toTimer (.advance i p)) ∨
      (s.timer = .popDeleted ∧ tasks.Perm s.tasks.tail ∧
        s' = { s with tasks := tasks }.toTimer .drain) ∨
      ∃ p, s.timer = .popRun p ∧ tasks.Perm s.tasks.tail ∧
        s' = { s with tasks := tasks }.toTimer (.runCas p (s.idVersion p))) := by
  cases pc : s.timer <;> simp only [arrange, pc] at h
  case push i p =>
    split_ifs at h with order
    cases h
    exact ⟨order.2, .inl ⟨i, p, rfl, order.1, rfl⟩⟩
  case popDeleted =>
    split_ifs at h with order
    cases h
    exact ⟨order.2, .inr (.inl ⟨rfl, order.1, rfl⟩)⟩
  case popRun p =>
    split_ifs at h with order
    cases h
    exact ⟨order.2, .inr (.inr ⟨p, rfl, order.1, rfl⟩)⟩
  all_goals cases h

omit [DecidableEq τ] in
theorem readClock_cases {now : ℕ} (h : s.readClock now = some s') :
    (∃ p, s.timer = .due p ∧
        s' = s.toTimer (if (now : Int) < s.runTime p then .nextRun else .popRun p)) ∨
      ∃ next, s.timer = .clock next ∧ s' = s.toTimer (.wait now (next - now)) := by
  cases pc : s.timer <;> simp only [readClock, pc] at h
  case due p =>
    cases h
    exact .inl ⟨p, rfl, rfl⟩
  case clock next =>
    cases h
    exact .inr ⟨next, rfl, rfl⟩
  all_goals cases h

end

end State

/-- The timer thread of `num` buckets. -/
def machine (num : ℕ) (τ : Type*) [DecidableEq τ] :
    Machine (State τ) (Action τ) where
  init s := s = initial τ s.node
  next := State.act num

end Codelab.TimerThread
