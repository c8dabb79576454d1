import Codelab.Theory.Machine
import Codelab.TimerTaskId
import Mathlib.Data.Nat.Notation

/-! The tasks of the timer thread and the version word the threads race on: the
scheduling threads, the cancelling threads and the timer thread, one shared access
a step. The resource pool hands out any slot that is not allocated. A task is
`pending` from its linking into a bucket until the timer thread is through with it;
which bucket or heap position it has does not matter here. -/

namespace Codelab.TimerTask

open TimerTaskId

/-- Control points of a scheduling or cancelling thread. -/
inductive Pc
  | idle
  | schedAdd (slot : Slot)
  | schedLoad (slot : Slot)
  | schedMake (slot : Slot) (version : Version)
  | schedLink (slot : Slot) (id : TaskId)
  | schedReturn (slot : Slot) (life : ℕ) (id : TaskId)
  | unschedCas (slot : Slot) (life : ℕ) (id : TaskId)
  deriving DecidableEq

/-- Control points of the timer thread; `idVersion` is its local of that name. -/
inductive TimerPc
  | idle
  | tryLoad (slot : Slot) (idVersion : Version)
  | tryCheck (slot : Slot) (idVersion : Version)
  | tryReturn (slot : Slot)
  | kept (slot : Slot)
  | runCas (slot : Slot) (idVersion : Version)
  | runCall (slot : Slot) (idVersion : Version)
  | runStore (slot : Slot) (idVersion : Version)
  | runReturn (slot : Slot)
  | aborted
  deriving DecidableEq

/-- What has happened to one scheduling of a slot: how often its callback was
called and finished, how many `unschedule` calls removed it, how often its slot
was given back. -/
structure Record where
  ran : ℕ := 0
  finished : ℕ := 0
  removed : ℕ := 0
  returned : ℕ := 0
  deriving DecidableEq

/-- One slot of the pool: the words of its `Task`, whether the pool has handed it
out, whether the task is linked and still to be handled by the timer thread.
`life` counts the schedulings of the slot; it tells its reuses apart in the
bookkeeping (`issued`, `history`) and no step of the code reads it. -/
structure Task where
  version : Version := 2
  taskId : TaskId := 0
  allocated : Bool := false
  pending : Bool := false
  life : ℕ := 0
  issued : ℕ → Option TaskId := fun _ => none
  history : ℕ → Record := fun _ => {}

/-- One finished `unschedule` call, with what was true at its compare-and-swap. -/
structure Answer where
  slot : Slot
  life : ℕ
  result : Int
  running : Bool
  ended : Bool
  deriving DecidableEq

structure State (τ : Type*) where
  task : Slot → Task
  pc : τ → Pc
  timer : TimerPc
  impossible : Bool
  answers : List Answer

inductive Action (τ : Type*)
  | schedule (t : τ) (slot : Slot)
  | unschedule (t : τ) (slot : Slot) (life : ℕ)
  | step (t : τ)
  | tryDelete (slot : Slot)
  | keep
  | runAndDelete
  | timer
  deriving DecidableEq

namespace Pc

/-- The slot a scheduling thread has not linked yet. -/
def holds (slot : Slot) : Pc → Bool
  | schedAdd x => x = slot
  | schedLoad x => x = slot
  | schedMake x _ => x = slot
  | schedLink x _ => x = slot
  | _ => false

end Pc

namespace TimerPc

/-- Between the compare-and-swap and the final store of `run_and_delete`. -/
def running (slot : Slot) : TimerPc → Bool
  | runCall x _ => x = slot
  | runStore x _ => x = slot
  | _ => false

/-- Inside `run_and_delete`. -/
def holds (slot : Slot) : TimerPc → Bool
  | runCas x _ => x = slot
  | runCall x _ => x = slot
  | runStore x _ => x = slot
  | runReturn x => x = slot
  | _ => false

end TimerPc

namespace Task

def store (k : Task) (version : Version) : Task := { k with version := version }

/-- `version.fetch_add(2)`, which opens the next life of the slot. -/
def fetchAdd (k : Task) : Task := { k with version := k.version + 2, life := k.life + 1 }

def setTaskId (k : Task) (id : TaskId) : Task := { k with taskId := id }

def setAllocated (k : Task) (allocated : Bool) : Task := { k with allocated := allocated }

def setPending (k : Task) (pending : Bool) : Task := { k with pending := pending }

def issue (k : Task) (life : ℕ) (id : TaskId) : Task :=
  { k with issued := Function.update k.issued life (some id) }

def note (k : Task) (life : ℕ) (event : Record → Record) : Task :=
  { k with history := Function.update k.history life (event (k.history life)) }

/-- The callback of this scheduling has finished, or the task has been removed. -/
def ended (k : Task) (life : ℕ) : Bool :=
  (k.history life).finished ≠ 0 || (k.history life).removed ≠ 0

end Task

namespace Record

def call (r : Record) : Record := { r with ran := r.ran + 1 }
def finish (r : Record) : Record := { r with finished := r.finished + 1 }
def remove (r : Record) : Record := { r with removed := r.removed + 1 }
def giveBack (r : Record) : Record := { r with returned := r.returned + 1 }

end Record

variable {τ : Type*} [DecidableEq τ]

def initial (τ : Type*) : State τ where
  task := fun _ => {}
  pc := fun _ => .idle
  timer := .idle
  impossible := false
  answers := []

namespace State

def goto (s : State τ) (t : τ) (pc : Pc) : State τ :=
  { s with pc := Function.update s.pc t pc }

def onTask (s : State τ) (slot : Slot) (change : Task → Task) : State τ :=
  { s with task := Function.update s.task slot (change (s.task slot)) }

def toTimer (s : State τ) (timer : TimerPc) : State τ := { s with timer := timer }

/-- The callback of this scheduling is running. -/
def running (s : State τ) (slot : Slot) (life : ℕ) : Bool :=
  s.timer.running slot && (s.task slot).life = life

/-- `return_resource`. -/
def returnResource (s : State τ) (slot : Slot) : State τ :=
  s.onTask slot fun k => (k.setAllocated false).note k.life Record.giveBack

/-- The compare-and-swap of `unschedule`, with the value the call returns. -/
def cancel (s : State τ) (slot : Slot) (life : ℕ) (id : TaskId) : State τ × Int :=
  let target := slotOfTaskId id
  let idVersion := versionOfTaskId id
  if (s.task target).version = idVersion then
    ((s.onTask target (·.store (idVersion + 2))).onTask slot (·.note life Record.remove), 0)
  else (s, if (s.task target).version = idVersion + 1 then 1 else -1)

/-- `unschedule` from its compare-and-swap on; `slot` and `life` say whose id it was. -/
def answer (s : State τ) (slot : Slot) (life : ℕ) (id : TaskId) : State τ :=
  { (s.cancel slot life id).1 with
    answers := ⟨slot, life, (s.cancel slot life id).2, s.running slot life,
      (s.task slot).ended life⟩ :: s.answers }

def stepThread (s : State τ) (t : τ) : Option (State τ) :=
  match s.pc t with
  | .idle => none
  | .schedAdd slot => some ((s.onTask slot Task.fetchAdd).goto t (.schedLoad slot))
  | .schedLoad slot => some (s.goto t (.schedMake slot (s.task slot).version))
  | .schedMake slot version =>
      let id := makeTaskId slot version
      some ((s.onTask slot (·.setTaskId id)).goto t (.schedLink slot id))
  | .schedLink slot id =>
      some ((s.onTask slot (·.setPending true)).goto t (.schedReturn slot (s.task slot).life id))
  | .schedReturn slot life id => some ((s.onTask slot (·.issue life id)).goto t .idle)
  | .unschedCas slot life id => some ((s.answer slot life id).goto t .idle)

def stepTimer (s : State τ) : Option (State τ) :=
  match s.timer with
  | .idle => none
  | .tryLoad slot idVersion =>
      some (s.toTimer (if (s.task slot).version ≠ idVersion then .tryCheck slot idVersion
        else .kept slot))
  | .tryCheck slot idVersion =>
      some (s.toTimer (if (s.task slot).version = idVersion + 2 then .tryReturn slot else .aborted))
  | .tryReturn slot =>
      some (((s.returnResource (slotOfTaskId (s.task slot).taskId)).onTask slot
        (·.setPending false)).toTimer .idle)
  | .kept _ => none
  | .runCas slot idVersion =>
      if (s.task slot).version = idVersion then
        some ((s.onTask slot (·.store (idVersion + 1))).toTimer (.runCall slot idVersion))
      else if (s.task slot).version = idVersion + 2 then some (s.toTimer (.runReturn slot))
      else some { s.toTimer .idle with impossible := true }
  | .runCall slot idVersion =>
      some ((s.onTask slot fun k => k.note k.life Record.call).toTimer (.runStore slot idVersion))
  | .runStore slot idVersion =>
      some ((s.onTask slot fun k => (k.store (idVersion + 2)).note k.life Record.finish).toTimer
        (.runReturn slot))
  | .runReturn slot =>
      some ((s.returnResource (slotOfTaskId (s.task slot).taskId)).toTimer .idle)
  | .aborted => none

/-- The next state; `none` when the action is not enabled. A task that `try_delete`
leaves is either put on (or left on) the heap or run at once, as in the two loops
of `run`. A callback may itself call `schedule` and `unschedule`: those calls are
the steps of some thread while the timer thread stands at `runCall`. -/
def act (s : State τ) : Action τ → Option (State τ)
  | .schedule t slot =>
      if s.pc t = .idle ∧ (s.task slot).allocated = false then
        some ((s.onTask slot (·.setAllocated true)).goto t (.schedAdd slot))
      else none
  | .unschedule t slot life =>
      match (s.task slot).issued life with
      | some id => if s.pc t = .idle then some (s.goto t (.unschedCas slot life id)) else none
      | none => none
  | .step t => s.stepThread t
  | .tryDelete slot =>
      if s.timer = .idle ∧ (s.task slot).pending = true then
        some (s.toTimer (.tryLoad slot (versionOfTaskId (s.task slot).taskId)))
      else none
  | .keep =>
      match s.timer with
      | .kept _ => some (s.toTimer .idle)
      | _ => none
  | .runAndDelete =>
      match s.timer with
      | .kept slot => some ((s.onTask slot (·.setPending false)).toTimer
          (.runCas slot (versionOfTaskId (s.task slot).taskId)))
      | _ => none
  | .timer => s.stepTimer

end State

/-- An id is used before its slot has been rescheduled 2 ^ 30 times. -/
def recentUse (s : State τ) : Action τ → Bool
  | .step t =>
      match s.pc t with
      | .unschedCas slot life _ => (s.task slot).life < life + 2 ^ 30
      | _ => true
  | _ => true

/-- The pool hands out a slot whose number fits in the low half of a task id. -/
def slotFits : Action τ → Bool
  | .schedule _ slot => decide (Fits slot)
  | _ => true

/-- The slot is in somebody's hands: a scheduling thread's before it is linked, a
bucket's or the heap's, or the timer thread's inside `run_and_delete`. -/
def State.Held (s : State τ) (slot : Slot) : Prop :=
  (∃ t, (s.pc t).holds slot = true) ∨ (s.task slot).pending = true ∨ s.timer.holds slot = true

/-- What the version word is there for. -/
structure Protocol (s : State τ) : Prop where
  ran_once : ∀ slot life, ((s.task slot).history life).ran ≤ 1
  removed_once : ∀ slot life, ((s.task slot).history life).removed ≠ 0 →
    ((s.task slot).history life).ran = 0 ∧ ((s.task slot).history life).removed = 1
  answer_one : ∀ a ∈ s.answers, a.result = 1 → a.running = true
  answer_none : ∀ a ∈ s.answers, a.result = -1 → a.ended = true
  returned_once : ∀ slot life, ((s.task slot).history life).returned ≤ 1
  returned_scheduled : ∀ slot life, ((s.task slot).history life).returned ≠ 0 →
    0 < life ∧ life ≤ (s.task slot).life
  all_returned : ∀ slot life, 0 < life → life ≤ (s.task slot).life →
    (life = (s.task slot).life → ¬ s.Held slot) → ((s.task slot).history life).returned = 1
  check_holds : s.timer ≠ .aborted
  never_impossible : s.impossible = false

end Codelab.TimerTask
