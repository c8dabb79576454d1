import Codelab.Theory.Heap
import Codelab.Theory.Machine
import Codelab.TimerTaskId
import Mathlib.Algebra.Ring.Int.Defs

/-! The two loops of `TimerThread::run` that go through tasks, with `schedule` and `unschedule`
called meanwhile: the loop over the chain that `consume_tasks` has taken from a bucket, and the
one over the heap. A step is one access to what threads share; linking into a bucket, under its
mutex, is one step. A pointer to a task is the slot of the pool it is in, and its id is packed as
`make_task_id` packs it. Of `std::push_heap` and `std::pop_heap` it is known that they leave a
heap in the order of `task_greater`. -/

namespace Codelab.TimerRun

open TimerTaskId

structure Task where
  next : Option Slot
  runTime : Int
  taskId : TaskId
  version : Version

/-- Control points of a `schedule` call, with the bucket the thread hashes to and the slot it
has got from the pool. -/
inductive Pc
  | idle
  | write (bucket : ℕ) (p : Slot) (runTime : Int)
  | add (bucket : ℕ) (p : Slot)
  | load (bucket : ℕ) (p : Slot)
  | make (bucket : ℕ) (p : Slot) (version : Version)
  | link (bucket : ℕ) (p : Slot)
  deriving DecidableEq

/-- The loop that calls `try_delete`. -/
inductive Site
  | chain
  | heap
  deriving DecidableEq

/-- Control points of `run`; `idVersion` is the local of `try_delete` and `run_and_delete`. -/
inductive TimerPc
  | visit (p : Option Slot)
  | tryLoad (site : Site) (p : Slot) (idVersion : Version)
  | tryCheck (site : Site) (p : Slot) (idVersion : Version)
  | tryReturn (site : Site) (p : Slot)
  | push (p : Slot)
  | advance (p : Slot)
  | drain
  | popDeleted
  | due (p : Slot)
  | popRun (p : Slot)
  | runCas (p : Slot) (idVersion : Version)
  | runCall (p : Slot) (idVersion : Version)
  | runStore (p : Slot) (idVersion : Version)
  | runReturn (p : Slot)
  | stopped
  | aborted
  deriving DecidableEq

/-- `head b` is the `_task_head` of bucket `b`. -/
structure State (τ : Type) where
  task : Slot → Task
  allocated : Slot → Bool
  head : ℕ → Option Slot
  tasks : List Slot
  pc : τ → Pc
  timer : TimerPc

/-- `schedule` has got its slot from the pool, and `unschedule` makes its compare-and-swap;
`arrange` is `push_heap` or `pop_heap` with what it leaves, and `clock` a reading of
`gettimeofday_us`. -/
inductive Action (τ : Type)
  | schedule (t : τ) (bucket : ℕ) (p : Slot) (runTime : Int)
  | unschedule (id : TaskId)
  | step (t : τ)
  | timer
  | arrange (tasks : List Slot)
  | clock (now : Int)
  deriving DecidableEq

/-- A step of the timer thread. -/
def Action.run {τ : Type} : Action τ → Bool
  | .timer | .arrange _ | .clock _ => true
  | _ => false

/-- The slot that a `schedule` call has not linked yet. -/
def Pc.holds : Pc → Option Slot
  | .idle => none
  | .write _ p _ | .add _ p | .load _ p | .make _ p _ | .link _ p => some p

/-- The two versions of a task that has been scheduled and not run. -/
theorem add_two_ne (v : Version) : v + 2 ≠ v := by simp

variable {τ : Type} [DecidableEq τ]

namespace State

def runTime (s : State τ) (p : Slot) : Int := (s.task p).runTime

/-- `version_of_task_id(task_id)`. -/
def idVersion (s : State τ) (p : Slot) : Version := versionOfTaskId (s.task p).taskId

def taskGreater (s : State τ) (a b : Slot) : Prop := s.runTime a > s.runTime b

instance (s : State τ) : DecidableRel s.taskGreater :=
  fun a b => inferInstanceAs (Decidable (s.runTime a > s.runTime b))

def goto (s : State τ) (t : τ) (pc : Pc) : State τ := { s with pc := Function.update s.pc t pc }

def toTimer (s : State τ) (timer : TimerPc) : State τ := { s with timer := timer }

def onTask (s : State τ) (p : Slot) (change : Task → Task) : State τ :=
  { s with task := Function.update s.task p (change (s.task p)) }

/-- `return_resource(slot_of_task_id(task_id))`. -/
def returnResource (s : State τ) (p : Slot) : State τ :=
  { s with allocated := Function.update s.allocated (slotOfTaskId (s.task p).taskId) false }

/-- The compare-and-swap of `unschedule`. -/
def unschedule (s : State τ) (id : TaskId) : State τ :=
  if (s.task (slotOfTaskId id)).version = versionOfTaskId id then
    s.onTask (slotOfTaskId id) ({ · with version := versionOfTaskId id + 2 })
  else s

def stepThread (s : State τ) (t : τ) : Option (State τ) :=
  match s.pc t with
  | .idle => none
  | .write b p runTime =>
    some ((s.onTask p ({ · with next := none, runTime := runTime })).goto t (.add b p))
  | .add b p =>
    some ((s.onTask p fun task => { task with version := task.version + 2 }).goto t (.load b p))
  | .load b p => some (s.goto t (.make b p (s.task p).version))
  | .make b p version =>
    some ((s.onTask p ({ · with taskId := makeTaskId p version })).goto t (.link b p))
  | .link b p =>
    some { (s.onTask p ({ · with next := s.head b })).goto t .idle with
      head := Function.update s.head b (some p) }

/-- Where `run` goes on after a `try_delete` that did not delete. -/
def kept (p : Slot) : Site → TimerPc
  | .chain => .push p
  | .heap => .due p

/-- Where `run` goes on after a `try_delete` that did. -/
def deleted (p : Slot) : Site → TimerPc
  | .chain => .advance p
  | .heap => .popDeleted

/-- The next step of `run`, where nothing outside decides it. -/
def stepTimer (s : State τ) : Option (State τ) :=
  match s.timer with
  | .visit (some p) => some (s.toTimer (.tryLoad .chain p (s.idVersion p)))
  | .visit none => some (s.toTimer .drain)
  | .tryLoad site p idVersion =>
    some (s.toTimer (if (s.task p).version ≠ idVersion then .tryCheck site p idVersion
      else kept p site))
  | .tryCheck site p idVersion =>
    some (s.toTimer (if (s.task p).version = idVersion + 2 then .tryReturn site p else .aborted))
  | .tryReturn site p => some ((s.returnResource p).toTimer (deleted p site))
  | .advance p => some (s.toTimer (.visit (s.task p).next))
  | .drain =>
    match s.tasks with
    | [] => some (s.toTimer .stopped)
    | p :: _ => some (s.toTimer (.tryLoad .heap p (s.idVersion p)))
  | .runCas p idVersion =>
    if (s.task p).version = idVersion then
      some ((s.onTask p ({ · with version := idVersion + 1 })).toTimer (.runCall p idVersion))
    else if (s.task p).version = idVersion + 2 then some (s.toTimer (.runReturn p))
    else some (s.toTimer .drain)
  | .runCall p idVersion => some (s.toTimer (.runStore p idVersion))
  | .runStore p idVersion =>
    some ((s.onTask p ({ · with version := idVersion + 2 })).toTimer (.runReturn p))
  | .runReturn p => some ((s.returnResource p).toTimer .drain)
  | _ => none

def arrange (s : State τ) (tasks : List Slot) : Option (State τ) :=
  match s.timer with
  | .push p =>
    if tasks.Perm (p :: s.tasks) ∧ Heap.IsHeap s.taskGreater tasks then
      some ({ s with tasks := tasks }.toTimer (.advance p))
    else none
  | .popDeleted =>
    if tasks.Perm s.tasks.tail ∧ Heap.IsHeap s.taskGreater tasks then
      some ({ s with tasks := tasks }.toTimer .drain)
    else none
  | .popRun p =>
    if tasks.Perm s.tasks.tail ∧ Heap.IsHeap s.taskGreater tasks then
      some ({ s with tasks := tasks }.toTimer (.runCas p (s.idVersion p)))
    else none
  | _ => none

def readClock (s : State τ) (now : Int) : Option (State τ) :=
  match s.timer with
  | .due p => some (s.toTimer (if now < s.runTime p then .stopped else .popRun p))
  | _ => none

def act (s : State τ) : Action τ → Option (State τ)
  | .schedule t b p runTime =>
    if s.pc t = .idle ∧ s.allocated p = false then
      some { s.goto t (.write b p runTime) with allocated := Function.update s.allocated p true }
    else none
  | .unschedule id => some (s.unschedule id)
  | .step t => s.stepThread t
  | .timer => s.stepTimer
  | .arrange tasks => s.arrange tasks
  | .clock now => s.readClock now

section

omit [DecidableEq τ]

variable {s s' : State τ}

theorem arrange_cases {tasks : List Slot} (next : s.arrange tasks = some s') :
    Heap.IsHeap s.taskGreater tasks ∧
    ((∃ p, s.timer = .push p ∧ tasks.Perm (p :: s.tasks) ∧
        s' = { s with tasks := tasks }.toTimer (.advance p)) ∨
      (s.timer = .popDeleted ∧ tasks.Perm s.tasks.tail ∧
        s' = { s with tasks := tasks }.toTimer .drain) ∨
      ∃ p, s.timer = .popRun p ∧ tasks.Perm s.tasks.tail ∧
        s' = { s with tasks := tasks }.toTimer (.runCas p (s.idVersion p))) := by
  cases here : s.timer <;> simp only [arrange, here] at next
  case push p =>
    split_ifs at next with order
    cases next
    exact ⟨order.2, .inl ⟨p, rfl, order.1, rfl⟩⟩
  case popDeleted =>
    split_ifs at next with order
    cases next
    exact ⟨order.2, .inr (.inl ⟨rfl, order.1, rfl⟩)⟩
  case popRun p =>
    split_ifs at next with order
    cases next
    exact ⟨order.2, .inr (.inr ⟨p, rfl, order.1, rfl⟩)⟩
  all_goals cases next

theorem readClock_due {now : Int} (next : s.readClock now = some s') :
    ∃ p, s.timer = .due p ∧
      s' = s.toTimer (if now < s.runTime p then .stopped else .popRun p) := by
  cases here : s.timer <;> simp only [readClock, here] at next
  case due p =>
    cases next
    exact ⟨p, rfl, rfl⟩
  all_goals cases next

instance (s : State τ) : IsStrictWeakOrder Slot s.taskGreater where
  irrefl a := lt_irrefl (s.runTime a)
  trans _ _ _ hab hbc := Int.lt_trans hbc hab
  incomp_trans a b c hab hbc := by
    simp only [taskGreater, not_lt] at hab hbc ⊢
    omega

/-- `push_heap` and `pop_heap` have something to leave. -/
theorem exists_arrange (s : State τ) (tasks : List Slot) :
    ∃ arranged, arranged.Perm tasks ∧ Heap.IsHeap s.taskGreater arranged :=
  Heap.exists_perm_isHeap tasks

end

end State

/-- `run` and the calls made meanwhile, from a given state on. -/
def machine (start : State τ) : Machine (State τ) (Action τ) where
  init s := s = start
  next := State.act

end Codelab.TimerRun
