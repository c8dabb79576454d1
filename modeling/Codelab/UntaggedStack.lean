import Codelab.Theory.Chain
import Codelab.Theory.History

/-! The lock-free `Stack` of `stack-atomic.hpp` as a machine whose steps are single loads,
stores and compare-and-swaps. Its words have no tags, and compare-and-swap compares
addresses. A node's `data` is never touched and is left out. -/

namespace Codelab.UntaggedStack

/-- Where a thread stands. `popNext` and `popCas` carry the non-null `old_head`; `popped` is
what `Pop` returns. -/
inductive Pc (α : Type*) where
  | idle
  | pushLoad (node : α)
  | pushLink (node : α) (oldHead : Option α)
  | pushCas (node : α) (oldHead : Option α)
  | popLoad
  | popNext (oldHead : α)
  | popCas (oldHead : α) (newHead : Option α)
  | popped (oldHead : Option α)
  deriving DecidableEq

/-- No call in progress. -/
def Pc.resting {α : Type*} : Pc α → Bool
  | .idle | .popped _ => true
  | _ => false

/-- The node a thread is pushing. -/
def Pc.pushing {α : Type*} : Pc α → Option α
  | .pushLoad node | .pushLink node _ | .pushCas node _ => some node
  | _ => none

/-- Shared memory and threads. `owner` is the thread that may push a node; a call of `Push`
gives the node up, a `Pop` that has removed it gets it. -/
structure State (α τ : Type*) where
  head : Option α
  next : α → Option α
  pc : τ → Pc α
  owner : α → Option τ

/-- Calls of `Push` and `Pop`, a node that changes hands outside the stack, and one step of
the call a thread is in; `spurious` lets a weak compare-and-swap fail although the values
agree. -/
inductive Action (α τ : Type*) where
  | push (t : τ) (node : α)
  | pop (t : τ)
  | give (t u : τ) (node : α)
  | step (t : τ) (spurious : Bool)

variable {α τ : Type*} [DecidableEq α] [DecidableEq τ]

namespace State

def goto (s : State α τ) (t : τ) (pc : Pc α) : State α τ :=
  { s with pc := Function.update s.pc t pc }

/-- `Pop` has a fresh value of `head_` in `old_head` and tests it for null. -/
def popTest (s : State α τ) (t : τ) : State α τ :=
  s.goto t (match s.head with
    | none => .popped none
    | some oldHead => .popNext oldHead)

def step (s : State α τ) (t : τ) (spurious : Bool) : Option (State α τ) :=
  match s.pc t with
  | .pushLoad node => some (s.goto t (.pushLink node s.head))
  | .pushLink node oldHead =>
    some { s.goto t (.pushCas node oldHead) with next := Function.update s.next node oldHead }
  | .pushCas node oldHead =>
    if s.head = oldHead ∧ spurious = false then some { s.goto t .idle with head := some node }
    else some (s.goto t (.pushLink node s.head))
  | .popLoad => some (s.popTest t)
  | .popNext oldHead => some (s.goto t (.popCas oldHead (s.next oldHead)))
  | .popCas oldHead newHead =>
    if s.head = some oldHead ∧ spurious = false then
      some { s.goto t (.popped (some oldHead)) with
        head := newHead
        owner := Function.update s.owner oldHead (some t) }
    else some (s.popTest t)
  | .idle | .popped _ => none

def act (s : State α τ) : Action α τ → Option (State α τ)
  | .push t node =>
    if (s.pc t).resting ∧ s.owner node = some t then
      some { s.goto t (.pushLoad node) with owner := Function.update s.owner node none }
    else none
  | .pop t => if (s.pc t).resting then some (s.goto t .popLoad) else none
  | .give t u node =>
    if s.owner node = some t then some { s with owner := Function.update s.owner node (some u) }
    else none
  | .step t spurious => s.step t spurious

/-- The node that a compare-and-swap of `Push` puts in with this step. -/
def pushes (s : State α τ) : Action α τ → Option α
  | .step t spurious =>
    match s.pc t with
    | .pushCas node oldHead => if s.head = oldHead ∧ spurious = false then some node else none
    | _ => none
  | _ => none

/-- The node that a compare-and-swap of `Pop` takes out with this step. -/
def pops (s : State α τ) : Action α τ → Option α
  | .step t spurious =>
    match s.pc t with
    | .popCas oldHead _ =>
      if s.head = some oldHead ∧ spurious = false then some oldHead else none
    | _ => none
  | _ => none

end State

/-- A new `Stack`; the nodes belong to any threads. -/
def machine (α τ : Type*) [DecidableEq α] [DecidableEq τ] : Machine (State α τ) (Action α τ) where
  init s := s.head = none ∧ ∀ t, s.pc t = .idle
  next := State.act

/-- The nodes whose `Push` has taken effect and that no `Pop` has removed since. -/
def State.note (s : State α τ) (a : Action α τ) (inside : List α) : List α :=
  match s.pushes a, s.pops a with
  | some node, _ => node :: inside
  | none, some node => inside.erase node
  | none, none => inside

/-- The stack with the record of the nodes in it. -/
def recordedMachine (α τ : Type*) [DecidableEq α] [DecidableEq τ] :
    Machine (State α τ × List α) (Action α τ) :=
  (machine α τ).recorded (fun _ => []) fun s a _ inside => s.note a inside

end Codelab.UntaggedStack
