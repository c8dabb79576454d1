import Codelab.Theory.Machine
import Codelab.Theory.Chain
import Codelab.TagPtr

/-! The lock-free `Stack` of `stack-atomic-version.hpp` as a machine whose steps are
single loads, stores and compare-and-swaps, and the mutex `Stack` of
`stack-normal.hpp` as the sequential object it should behave like.
A node's `data` is never touched by either and is left out. -/

namespace Codelab

/-- `Stack` of `stack-normal.hpp`; each call runs whole under `mutex_`. -/
structure MutexStack (α : Type*) where
  head : Option α
  next : α → Option α

variable {α τ : Type*}

namespace MutexStack

/-- The nodes of the stack, top first. -/
def Represents (m : MutexStack α) (l : List α) : Prop := Chain.Path m.next m.head l

def pop (m : MutexStack α) : Option α × MutexStack α :=
  match m.head with
  | none => (none, m)
  | some node => (some node, { m with head := m.next node })

theorem pop_represents {m : MutexStack α} {l : List α} {node : α} (h : m.Represents (node :: l)) :
    m.pop.1 = some node ∧ m.pop.2.Represents l := by
  obtain ⟨head, rest⟩ := h
  simp only [pop, head, true_and]
  exact rest

theorem pop_empty {m : MutexStack α} (h : m.Represents []) : m.pop = (none, m) := by
  rw [Represents, Chain.path_nil] at h
  rw [pop, h]

variable [DecidableEq α]

def push (m : MutexStack α) (node : α) : MutexStack α :=
  { head := some node, next := Function.update m.next node m.head }

theorem push_represents {m : MutexStack α} {l : List α} {node : α} (h : m.Represents l)
    (fresh : node ∉ l) : (m.push node).Represents (node :: l) :=
  Chain.Path.push h fresh (Function.update_self ..) fun _ ha => Function.update_of_ne ha ..

end MutexStack

variable [DecidableEq α] [DecidableEq τ]

/-- A call that has taken effect, with the node it put in or handed out. -/
inductive StackOp (α : Type*) where
  | push (node : α)
  | pop (node : α)

/-- Apply one call to the mutex stack; a pop must return the recorded node. -/
def MutexStack.apply (m : MutexStack α) : StackOp α → Option (MutexStack α)
  | .push node => some (m.push node)
  | .pop node => if m.pop.1 = some node then some m.pop.2 else none

/-- Apply a whole history to the mutex stack, call by call. -/
def MutexStack.replay (m : MutexStack α) (ops : List (StackOp α)) : Option (MutexStack α) :=
  ops.foldlM MutexStack.apply m

namespace TaggedStack

/-- Where a thread stands. `popNext` and `popCas` carry the non-null `old_head`
as its node and tag; `popped` is what `Pop` returns. -/
inductive Pc (α : Type*) where
  | idle
  | pushLoad (node : α)
  | pushLink (node : α) (oldHead : TagPtr α)
  | pushCas (node : α) (oldHead : TagPtr α)
  | popLoad
  | popNext (node : α) (tag : BitVec 16)
  | popCas (node : α) (tag : BitVec 16) (newHead : Option α)
  | popped (result : Option α)
  deriving DecidableEq

/-- The node a thread is pushing. -/
def Pc.pushing : Pc α → Option α
  | .pushLoad node | .pushLink node _ | .pushCas node _ => some node
  | _ => none

/-- Shared memory and threads. `available` marks the nodes nobody is pushing and
that are not in the stack; `pops`, `lastRead` (the value of `pops` when a thread
last read `head_`) and `history` record the run and are read by no step. -/
structure State (α τ : Type*) where
  head : TagPtr α
  next : α → Option α
  pc : τ → Pc α
  available : α → Bool
  pops : ℕ
  lastRead : τ → ℕ
  history : List (StackOp α)

/-- Calls of `Push` and `Pop`, and one step of the call a thread is in;
`spurious` lets a weak compare-and-swap fail although the values agree. -/
inductive Action (α τ : Type*) where
  | push (t : τ) (node : α)
  | pop (t : τ)
  | step (t : τ) (spurious : Bool)

namespace State

def goto (s : State α τ) (t : τ) (pc : Pc α) : State α τ :=
  { s with pc := Function.update s.pc t pc }

section goto

variable (s : State α τ) (t : τ) (pc : Pc α)

omit [DecidableEq α]

@[simp] theorem goto_pc (u : τ) : (s.goto t pc).pc u = if u = t then pc else s.pc u :=
  Function.update_apply ..

@[simp] theorem goto_head : (s.goto t pc).head = s.head := rfl

@[simp] theorem goto_next : (s.goto t pc).next = s.next := rfl

@[simp] theorem goto_available : (s.goto t pc).available = s.available := rfl

@[simp] theorem goto_pops : (s.goto t pc).pops = s.pops := rfl

@[simp] theorem goto_lastRead : (s.goto t pc).lastRead = s.lastRead := rfl

@[simp] theorem goto_history : (s.goto t pc).history = s.history := rfl

end goto

/-- `Pop` has a fresh value of `head_` in `old_head` and tests it for null. -/
def popTest (s : State α τ) (t : τ) : State α τ :=
  { s.goto t (match s.head.ptr with
      | none => .popped none
      | some node => .popNext node s.head.tag) with
    lastRead := Function.update s.lastRead t s.pops }

def step (s : State α τ) (t : τ) (spurious : Bool) : Option (State α τ) :=
  match s.pc t with
  | .pushLoad node => some (s.goto t (.pushLink node s.head))
  | .pushLink node oldHead =>
    some { s.goto t (.pushCas node oldHead) with next := Function.update s.next node oldHead.ptr }
  | .pushCas node oldHead =>
    if s.head = oldHead ∧ spurious = false then
      some { s.goto t .idle with
        head := ⟨some node, oldHead.tag⟩
        history := s.history ++ [.push node] }
    else some (s.goto t (.pushLink node s.head))
  | .popLoad => some (s.popTest t)
  | .popNext node tag => some (s.goto t (.popCas node tag (s.next node)))
  | .popCas node tag newHead =>
    if s.head = ⟨some node, tag⟩ ∧ spurious = false then
      some { s.goto t (.popped (some node)) with
        head := ⟨newHead, TagPtr.nextTag ⟨some node, tag⟩⟩
        available := Function.update s.available node true
        pops := s.pops + 1
        history := s.history ++ [.pop node] }
    else some (s.popTest t)
  | .idle | .popped _ => none

def resting (s : State α τ) (t : τ) : Bool :=
  match s.pc t with
  | .idle | .popped _ => true
  | _ => false

def act (s : State α τ) : Action α τ → Option (State α τ)
  | .push t node =>
    if s.resting t ∧ s.available node then
      some { s.goto t (.pushLoad node) with
        available := Function.update s.available node false }
    else none
  | .pop t => if s.resting t then some (s.goto t .popLoad) else none
  | .step t spurious => s.step t spurious

end State

/-- A new `Stack`, with every node outside it. -/
def machine (α τ : Type*) [DecidableEq α] [DecidableEq τ] : Machine (State α τ) (Action α τ) where
  init s := s.head = ⟨none, 0⟩ ∧ (∀ t, s.pc t = .idle) ∧ (∀ node, s.available node = true) ∧
    s.pops = 0 ∧ s.history = []
  next := State.act

/-- Fewer than 65536 pops have succeeded between a `Pop`'s last read of `head_` and
its compare-and-swap. -/
def State.inTagWindow (s : State α τ) : Action α τ → Bool
  | .step t _ =>
    match s.pc t with
    | .popCas .. => s.pops < s.lastRead t + 65536
    | _ => true
  | _ => true

end TaggedStack
end Codelab
