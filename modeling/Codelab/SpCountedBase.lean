import Codelab.Theory.Machine
import Codelab.Theory.Census
import Mathlib.Algebra.Ring.Nat
import Mathlib.Data.Fintype.Basic

/-! `sp_counted_base` under concurrent calls. A step is one atomic operation on a counter,
or the beginning or the end of `dispose`, or `destroy`. A call is made by a thread that
owns the reference the call needs; `release` and `weak_release` use theirs up. -/

namespace Codelab.SpCountedBase

open Census

/-- `std::atomic<int>` counts with 32 bits. -/
abbrev Counter := BitVec 32

/-- Where a thread stands. `dispose` to `weakRelease` is the rest of the `release` that took
the last strong reference, `load` to `compareExchange` is `add_ref_lock` with its local `r`. -/
inductive Pc
  | idle
  | addRefCopy
  | release
  | dispose
  | disposing
  | weakAddRef
  | weakRelease
  | destroy
  | load
  | test (r : Counter)
  | compareExchange (r : Counter)
  deriving DecidableEq

/-- A thread and the references it owns. -/
structure Thread where
  pc : Pc
  strong : ℕ
  weak : ℕ
  deriving DecidableEq

/-- The last three fields count how often `dispose` has begun and ended and `destroy` has
run; no step reads them. -/
structure State (τ : Type*) where
  useCount : Counter
  weakCount : Counter
  thread : τ → Thread
  begun : ℕ
  disposed : ℕ
  destroyed : ℕ

/-- A thread may hand a reference to another one. `spurious` makes a compare-and-swap fail. -/
inductive Action (τ : Type*)
  | addRefCopy (t : τ)
  | release (t : τ)
  | weakAddRef (t : τ)
  | weakRelease (t : τ)
  | addRefLock (t : τ)
  | giveStrong (t u : τ)
  | giveWeak (t u : τ)
  | step (t : τ) (spurious : Bool)

variable {τ : Type*} [DecidableEq τ]

namespace State

def set (s : State τ) (t : τ) (x : Thread) : State τ :=
  { s with thread := Function.update s.thread t x }

def goto (s : State τ) (t : τ) (pc : Pc) : State τ := s.set t { s.thread t with pc := pc }

def step (s : State τ) (t : τ) (spurious : Bool) : Option (State τ) :=
  let x := s.thread t
  match x.pc with
  | .idle => none
  | .addRefCopy =>
    some { s.set t { x with pc := .idle, strong := x.strong + 1 } with useCount := s.useCount + 1 }
  | .release =>
    some { s.goto t (if s.useCount = 1 then .dispose else .idle) with useCount := s.useCount - 1 }
  | .dispose => some { s.goto t .disposing with begun := s.begun + 1 }
  | .disposing => some { s.goto t .weakRelease with disposed := s.disposed + 1 }
  | .weakAddRef =>
    some { s.set t { x with pc := .idle, weak := x.weak + 1 } with weakCount := s.weakCount + 1 }
  | .weakRelease =>
    some { s.goto t (if s.weakCount = 1 then .destroy else .idle) with
      weakCount := s.weakCount - 1 }
  | .destroy => some { s.goto t .idle with destroyed := s.destroyed + 1 }
  | .load => some (s.goto t (.test s.useCount))
  | .test r => some (s.goto t (if r = 0 then .idle else .compareExchange r))
  | .compareExchange r =>
    if s.useCount = r ∧ spurious = false then
      some { s.set t { x with pc := .idle, strong := x.strong + 1 } with useCount := r + 1 }
    else some (s.goto t (.test s.useCount))

/-- A call begins, or a reference changes hands. -/
def act (s : State τ) : Action τ → Option (State τ)
  | .addRefCopy t =>
    if (s.thread t).pc = .idle ∧ 0 < (s.thread t).strong then some (s.goto t .addRefCopy) else none
  | .release t =>
    if (s.thread t).pc = .idle ∧ 0 < (s.thread t).strong then
      some (s.set t { s.thread t with pc := .release, strong := (s.thread t).strong - 1 })
    else none
  | .weakAddRef t =>
    if (s.thread t).pc = .idle ∧ 0 < (s.thread t).strong + (s.thread t).weak then
      some (s.goto t .weakAddRef)
    else none
  | .weakRelease t =>
    if (s.thread t).pc = .idle ∧ 0 < (s.thread t).weak then
      some (s.set t { s.thread t with pc := .weakRelease, weak := (s.thread t).weak - 1 })
    else none
  | .addRefLock t =>
    if (s.thread t).pc = .idle ∧ 0 < (s.thread t).weak then some (s.goto t .load) else none
  | .giveStrong t u =>
    if (s.thread t).pc = .idle ∧ 0 < (s.thread t).strong then
      let s := s.set t { s.thread t with strong := (s.thread t).strong - 1 }
      some (s.set u { s.thread u with strong := (s.thread u).strong + 1 })
    else none
  | .giveWeak t u =>
    if (s.thread t).pc = .idle ∧ 0 < (s.thread t).weak then
      let s := s.set t { s.thread t with weak := (s.thread t).weak - 1 }
      some (s.set u { s.thread u with weak := (s.thread u).weak + 1 })
    else none
  | .step t spurious => s.step t spurious

end State

/-- A new object, whose one strong reference belongs to thread `t`. -/
def initial (t : τ) : State τ where
  useCount := 1
  weakCount := 1
  thread := Function.update (fun _ => { pc := .idle, strong := 0, weak := 0 }) t
    { pc := .idle, strong := 1, weak := 0 }
  begun := 0
  disposed := 0
  destroyed := 0

def machine (τ : Type*) [DecidableEq τ] : Machine (State τ) (Action τ) where
  init s := ∃ t, s = initial t
  next := State.act

namespace Thread

variable (x : Thread)

/-- The strong references of a thread, the one it is releasing included. -/
@[simp] def strongRefs : ℕ := x.strong + if x.pc = .release then 1 else 0

/-- The weak references of a thread, the one it is releasing included, be it its own or the
one that the strong references held together. -/
@[simp] def weakRefs : ℕ := x.weak + if x.pc = .weakRelease then 1 else 0

end Thread

/-- The references there are. -/
def State.references [Fintype τ] (s : State τ) : ℕ :=
  census s.thread Thread.strongRefs + census s.thread Thread.weakRefs

end Codelab.SpCountedBase
