import Codelab.Theory.Machine
import Mathlib.Data.List.Basic

/-! `DoublyBufferedData` of `doubly_buffered_data.h`. Any thread may `Read` (and
later destroy the `ScopedPtr`) or `Modify`, one at a time. A step is one load or
store of `index_`, one application of `fn` to one buffer, one operation on a
mutex, on `wrappers_` or on the thread-specific key. -/

namespace Codelab

/-- The argument of `Modify`: deterministic, and a refused update leaves the
buffer as it was. -/
structure Update (T : Type*) where
  run : T → Bool × T
  keep : ∀ x, (run x).1 = false → (run x).2 = x

namespace DoublyBufferedData

/-- One `Modify` call; `id` tells calls with the same function apart. -/
structure Call (T : Type*) where
  id : ℕ
  fn : Update T

/-- Where a thread stands. `bg` is the local `bg_index`, `w` a wrapper. -/
inductive Pc (T : Type*) where
  | idle
  | getKey
  | newWrapper
  | addLock (w : ℕ)
  | addPush (w : ℕ)
  | addUnlock (w : ℕ)
  | setKey (w : ℕ)
  | beginRead (w : ℕ)
  | loadIndex (w : ℕ)
  | holding (w : ℕ) (i : Bool)
  | readFailed
  | modLoad (c : Call T)
  | modFirst (c : Call T) (bg : Bool)
  | modStore (c : Call T) (bg : Bool)
  | modLock (c : Call T) (bg : Bool)
  | modWait (c : Call T) (bg : Bool) (i : ℕ)
  | modWaited (c : Call T) (bg : Bool) (i w : ℕ)
  | modUnlock (c : Call T) (bg : Bool)
  | modSecond (c : Call T) (bg : Bool)
  | modDone (result : Bool)

/-- Inside `Modify`. -/
def Pc.modifying {T : Type*} : Pc T → Bool
  | .modLoad _ | .modFirst .. | .modStore .. | .modLock .. | .modWait .. | .modWaited ..
  | .modUnlock .. | .modSecond .. => true
  | _ => false

/-- No call in progress and no `ScopedPtr` held. -/
def Pc.resting {T : Type*} : Pc T → Bool
  | .idle | .readFailed | .modDone _ => true
  | _ => false

/-- Wrappers are numbered in the order of their creation; a mutex is its holder.
The last six fields record the run and are read by no step: the calls begun, the
calls applied to each buffer, those whose first application succeeded, those that
returned true, and for each thread what had returned when its `Read` began and
what its last `Read` saw. -/
structure State (T τ : Type*) where
  data : Bool → T
  index : Bool
  wrapperKey : τ → Option ℕ
  wrapperMutex : Option τ
  wrappers : List ℕ
  mtx : ℕ → Option τ
  created : ℕ
  pc : τ → Pc T
  calls : List (Call T)
  log : Bool → List (Call T)
  succeeded : List (Call T)
  finished : List (Call T)
  begun : τ → List (Call T)
  seen : τ → List (Call T)

/-- `fails` lets `new Wrapper` or `pthread_setspecific` fail. -/
inductive Action (T τ : Type*) where
  | read (t : τ)
  | endRead (t : τ)
  | modify (t : τ) (fn : Update T)
  | step (t : τ) (fails : Bool)

variable {T τ : Type*} [DecidableEq τ]

namespace State

def goto (s : State T τ) (t : τ) (pc : Pc T) : State T τ :=
  { s with pc := Function.update s.pc t pc }

/-- `fn(&data_[b])`; a successful application is logged. -/
def applyTo (s : State T τ) (c : Call T) (b : Bool) : State T τ :=
  { s with
    data := Function.update s.data b (c.fn.run (s.data b)).2
    log := if (c.fn.run (s.data b)).1 then Function.update s.log b (s.log b ++ [c]) else s.log }

def step (s : State T τ) (t : τ) (fails : Bool) : Option (State T τ) :=
  match s.pc t with
  | .getKey =>
    match s.wrapperKey t with
    | some w => some (s.goto t (.beginRead w))
    | none => some (s.goto t .newWrapper)
  | .newWrapper =>
    if fails then some (s.goto t .readFailed)
    else some { s.goto t (.addLock s.created) with created := s.created + 1 }
  | .addLock w =>
    if s.wrapperMutex.isNone then some { s.goto t (.addPush w) with wrapperMutex := some t }
    else none
  | .addPush w => some { s.goto t (.addUnlock w) with wrappers := s.wrappers ++ [w] }
  | .addUnlock w => some { s.goto t (.setKey w) with wrapperMutex := none }
  | .setKey w =>
    if fails then some (s.goto t .readFailed)
    else some { s.goto t (.beginRead w) with
      wrapperKey := Function.update s.wrapperKey t (some w) }
  | .beginRead w =>
    if (s.mtx w).isNone then
      some { s.goto t (.loadIndex w) with mtx := Function.update s.mtx w (some t) }
    else none
  | .loadIndex w =>
    some { s.goto t (.holding w s.index) with
      seen := Function.update s.seen t (s.log s.index) }
  | .modLoad c => some (s.goto t (.modFirst c (!s.index)))
  | .modFirst c bg =>
    if (c.fn.run (s.data bg)).1 then
      some { (s.applyTo c bg).goto t (.modStore c bg) with succeeded := s.succeeded ++ [c] }
    else some ((s.applyTo c bg).goto t (.modDone false))
  | .modStore c bg => some { s.goto t (.modLock c (!bg)) with index := bg }
  | .modLock c bg =>
    if s.wrapperMutex.isNone then some { s.goto t (.modWait c bg 0) with wrapperMutex := some t }
    else none
  | .modWait c bg i =>
    match s.wrappers[i]? with
    | none => some (s.goto t (.modUnlock c bg))
    | some w =>
      if (s.mtx w).isNone then
        some { s.goto t (.modWaited c bg i w) with mtx := Function.update s.mtx w (some t) }
      else none
  | .modWaited c bg i w =>
    some { s.goto t (.modWait c bg (i + 1)) with mtx := Function.update s.mtx w none }
  | .modUnlock c bg => some { s.goto t (.modSecond c bg) with wrapperMutex := none }
  | .modSecond c bg =>
    let ret2 := (c.fn.run (s.data bg)).1
    some { (s.applyTo c bg).goto t (.modDone ret2) with
      finished := if ret2 then s.finished ++ [c] else s.finished }
  | .idle | .holding .. | .readFailed | .modDone _ => none

/-- A thread that holds a `ScopedPtr` gives it back before it calls `Read` or `Modify`. The code
counts on that without a check: such a call would wait for the mutex of its own wrapper. -/
def act (s : State T τ) : Action T τ → Option (State T τ)
  | .read t =>
    if (s.pc t).resting then
      some { s.goto t .getKey with begun := Function.update s.begun t s.finished }
    else none
  | .endRead t =>
    match s.pc t with
    | .holding w _ => some { s.goto t .idle with mtx := Function.update s.mtx w none }
    | _ => none
  | .modify t fn =>
    if (s.pc t).resting then
      some { s.goto t (.modLoad ⟨s.calls.length, fn⟩) with
        calls := s.calls ++ [⟨s.calls.length, fn⟩] }
    else none
  | .step t fails => s.step t fails

end State

/-- A new object whose two buffers hold `initial`. -/
def machine (initial : T) (τ : Type*) [DecidableEq τ] : Machine (State T τ) (Action T τ) where
  init s := (∀ b, s.data b = initial) ∧ s.index = false ∧ (∀ t, s.wrapperKey t = none) ∧
    s.wrapperMutex = none ∧ s.wrappers = [] ∧ (∀ w, s.mtx w = none) ∧ s.created = 0 ∧
    (∀ t, s.pc t = .idle) ∧ s.calls = [] ∧ (∀ b, s.log b = []) ∧ s.succeeded = [] ∧
    s.finished = [] ∧ (∀ t, s.begun t = []) ∧ (∀ t, s.seen t = [])
  next := State.act

/-- The value `x` transformed by the given calls, in order. -/
def applyAll (cs : List (Call T)) (x : T) : T :=
  cs.foldl (fun y c => (c.fn.run y).2) x

end DoublyBufferedData
end Codelab
