import Codelab.Theory.Machine
import Codelab.Theory.Census

/-! `ThreadPool`: the workers, the callers of `AddTask` and the destructor, step by step.
A wait on `cv_` gives `mtx_` back and blocks in one step; a worker that is woken, by a
notification or spuriously, takes the mutex again and repeats the test. -/

namespace Codelab.ThreadPool

open Census

/-- `WorkerHandler`: `test` evaluates the predicate of the wait, `wait` begins to block,
`exitTest` is the test of `stop_` behind it and `leave` the unlock at the `break`. -/
inductive WorkerPc (α : Type)
  | lock
  | test
  | wait
  | blocked
  | exitTest
  | take
  | unlock (task : α)
  | run (task : α)
  | leave
  | done

/-- `AddTask`. -/
inductive CallerPc (α : Type)
  | idle
  | lock (task : α)
  | push (task : α)
  | unlock
  | notify

/-- `~ThreadPool`; `join i` waits for the end of worker `i`. -/
inductive DestructorPc
  | idle
  | lock
  | setStop
  | unlock
  | notifyAll
  | join (i : ℕ)
  | returned
  deriving DecidableEq

inductive Party (poolSize : ℕ) (τ : Type)
  | worker (w : Fin poolSize)
  | caller (t : τ)
  | destructor
  deriving DecidableEq

/-- The last five fields are the history: the tasks passed to `AddTask`, pushed, taken and
run, and those in the queue when `stop_` was set. No step reads them. -/
structure State (poolSize : ℕ) (τ α : Type) where
  stop : Bool
  mutex : Option (Party poolSize τ)
  workerQueue : List α
  worker : Fin poolSize → WorkerPc α
  caller : τ → CallerPc α
  destructor : DestructorPc
  passed : List α
  pushed : List α
  taken : List α
  ran : List α
  left : List α

/-- `caller t woken` names the worker that `notify_one` wakes, if any is blocked. -/
inductive Action (poolSize : ℕ) (τ α : Type)
  | addTask (t : τ) (task : α)
  | destroy
  | worker (w : Fin poolSize)
  | caller (t : τ) (woken : Option (Fin poolSize))
  | destructor
  | spurious (w : Fin poolSize)

variable {poolSize : ℕ} {τ α : Type}

namespace WorkerPc

def isBlocked : WorkerPc α → Bool
  | .blocked => true
  | _ => false

def isDone : WorkerPc α → Bool
  | .done => true
  | _ => false

/-- A task is a closure, so program points as such are not compared. -/
instance (pc : WorkerPc α) : Decidable (pc = .blocked) :=
  decidable_of_iff (pc.isBlocked = true) (by cases pc <;> simp [isBlocked])

instance (pc : WorkerPc α) : Decidable (pc = .done) :=
  decidable_of_iff (pc.isDone = true) (by cases pc <;> simp [isDone])

end WorkerPc

def CallerPc.isIdle : CallerPc α → Bool
  | .idle => true
  | _ => false

instance (pc : CallerPc α) : Decidable (pc = .idle) :=
  decidable_of_iff (pc.isIdle = true) (by cases pc <;> simp [CallerPc.isIdle])

namespace State

variable (s : State poolSize τ α)

def gotoWorker (w : Fin poolSize) (pc : WorkerPc α) : State poolSize τ α :=
  { s with worker := Function.update s.worker w pc }

def gotoCaller [DecidableEq τ] (t : τ) (pc : CallerPc α) : State poolSize τ α :=
  { s with caller := Function.update s.caller t pc }

def workerHandler (w : Fin poolSize) : Option (State poolSize τ α) :=
  match s.worker w with
  | .lock =>
    if s.mutex = none then some { s.gotoWorker w .test with mutex := some (.worker w) } else none
  | .test =>
    some (s.gotoWorker w (if s.stop = true ∨ s.workerQueue ≠ [] then .exitTest else .wait))
  | .wait => some { s.gotoWorker w .blocked with mutex := none }
  | .blocked => none
  | .exitTest => some (s.gotoWorker w (if s.stop = true then .leave else .take))
  | .take =>
    match s.workerQueue with
    | [] => none
    | task :: rest =>
      some { s.gotoWorker w (.unlock task) with workerQueue := rest, taken := s.taken ++ [task] }
  | .unlock task => some { s.gotoWorker w (.run task) with mutex := none }
  | .run task => some { s.gotoWorker w .lock with ran := s.ran ++ [task] }
  | .leave => some { s.gotoWorker w .done with mutex := none }
  | .done => none

/-- Wake one blocked worker if there is one. -/
def notifyOne : Option (Fin poolSize) → Option (State poolSize τ α)
  | some w => if s.worker w = .blocked then some (s.gotoWorker w .lock) else none
  | none => if ∀ w, s.worker w ≠ .blocked then some s else none

def notifyAll : State poolSize τ α :=
  { s with worker := fun w => if s.worker w = .blocked then .lock else s.worker w }

def addTask [DecidableEq τ] (t : τ) (woken : Option (Fin poolSize)) :
    Option (State poolSize τ α) :=
  match s.caller t with
  | .idle => none
  | .lock task =>
    if s.mutex = none then some { s.gotoCaller t (.push task) with mutex := some (.caller t) }
    else none
  | .push task =>
    some { s.gotoCaller t .unlock with
      workerQueue := s.workerQueue ++ [task], pushed := s.pushed ++ [task] }
  | .unlock => some { s.gotoCaller t .notify with mutex := none }
  | .notify => notifyOne (s.gotoCaller t .idle) woken

/-- `~ThreadPool`. -/
def destruct : Option (State poolSize τ α) :=
  match s.destructor with
  | .idle => none
  | .lock =>
    if s.mutex = none then some { s with destructor := .setStop, mutex := some .destructor }
    else none
  | .setStop => some { s with destructor := .unlock, stop := true, left := s.workerQueue }
  | .unlock => some { s with destructor := .notifyAll, mutex := none }
  | .notifyAll => some { s.notifyAll with destructor := .join 0 }
  | .join i =>
    if inside : i < poolSize then
      if s.worker ⟨i, inside⟩ = .done then some { s with destructor := .join (i + 1) } else none
    else some { s with destructor := .returned }
  | .returned => none

def act [DecidableEq τ] : Action poolSize τ α → Option (State poolSize τ α)
  | .addTask t task =>
    if s.caller t = .idle then
      some { s.gotoCaller t (.lock task) with passed := s.passed ++ [task] }
    else none
  | .destroy => if s.destructor = .idle then some { s with destructor := .lock } else none
  | .worker w => s.workerHandler w
  | .caller t woken => s.addTask t woken
  | .destructor => s.destruct
  | .spurious w => if s.worker w = .blocked then some (s.gotoWorker w .lock) else none

end State

def initial (poolSize : ℕ) (τ α : Type) : State poolSize τ α where
  stop := false
  mutex := none
  workerQueue := []
  worker _ := .lock
  caller _ := .idle
  destructor := .idle
  passed := []
  pushed := []
  taken := []
  ran := []
  left := []

def machine (poolSize : ℕ) (τ α : Type) [DecidableEq τ] :
    Machine (State poolSize τ α) (Action poolSize τ α) where
  init s := s = initial poolSize τ α
  next s a := s.act a

end Codelab.ThreadPool
