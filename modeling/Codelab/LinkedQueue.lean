import Codelab.Theory.Machine
import Codelab.Theory.Chain
import Codelab.TagPtr

/-! The linked queues of `queue-nolockfree.hpp`, `queue-lockfree-has-aba.hpp`,
`queue-version.hpp` and `queue-version-next.hpp` as one machine whose steps are
single loads, stores and compare-and-swaps. The four classes differ in which words
carry a tag and in whether a lagging `tail_` is helped on. A word without a tag
keeps the tag 0. -/

namespace Codelab

namespace LinkedQueue

/-- What tells the four classes apart: tags in `head_` and `tail_`, tags in the
`next` words, and the branches that move a lagging `tail_`. -/
structure Variant where
  tagsEnds : Bool
  tagsNext : Bool
  helps : Bool
  deriving DecidableEq

def queueNolockfree : Variant := ⟨false, false, false⟩

def queueLockfreeHasAba : Variant := ⟨false, false, true⟩

def queueVersion : Variant := ⟨true, false, true⟩

def queueVersionNext : Variant := ⟨true, true, true⟩

/-- The tag that goes into `head_` or `tail_` over the word `w`. -/
def Variant.endTag {α : Type*} (v : Variant) (w : TagPtr α) : BitVec 16 :=
  if v.tagsEnds then w.nextTag else w.tag

/-- The tag that goes into a `next` word over `w`. -/
def Variant.linkTag {α : Type*} (v : Variant) (w : TagPtr α) : BitVec 16 :=
  if v.tagsNext then w.nextTag else w.tag

/-- Where a thread stands, with its locals under the names of the source. A thread
in `popRead` or `popDelete` has taken its node off the queue. -/
inductive Pc (α δ : Type*) where
  | idle
  | pushLoadTail (newNode : α)
  | pushLoadNext (newNode : α) (oldTail : TagPtr α)
  | pushCasNext (newNode : α) (oldTail oldTailNext : TagPtr α)
  | pushCasTail (newNode : α) (oldTail : TagPtr α)
  | pushHelp (newNode : α) (oldTail oldTailNext : TagPtr α)
  | pushed
  | popLoadHead
  | popLoadNext (oldHead : TagPtr α)
  | popLoadTail (oldHead oldHeadNext : TagPtr α)
  | popHelp (oldHead oldHeadNext oldTail : TagPtr α)
  | popCasHead (oldHead oldHeadNext : TagPtr α)
  | popRead (oldHead : α)
  | popDelete (oldHead : α) (ret : Option δ)
  | popped (ret : Option δ)
  deriving DecidableEq

/-- No call in progress. -/
def Pc.resting {α δ : Type*} : Pc α δ → Bool
  | .idle | .pushed | .popped _ => true
  | _ => false

/-- The node a thread has not linked yet. -/
def Pc.pushing {α δ : Type*} : Pc α δ → Option α
  | .pushLoadTail node | .pushLoadNext node _ | .pushCasNext node _ _ | .pushHelp node _ _ =>
    some node
  | _ => none

/-- The node a thread has taken off the queue and not given back. -/
def Pc.removed {α δ : Type*} : Pc α δ → Option α
  | .popRead node | .popDelete node _ => some node
  | _ => none

/-- A call, with the node and the data of a push. -/
inductive Call (α δ : Type*) where
  | push (node : α) (data : Option δ)
  | pop

/-- How a call ended: `refused` is a pop that removed no node. -/
inductive Outcome (δ : Type*) where
  | pushed
  | removed (ret : Option δ)
  | refused
  deriving DecidableEq

/-- Shared memory and threads. `free` marks the nodes that are not in use: never
allocated, deleted or given back. The other fields record the run and are read by
no step: how often `head_` and `tail_` were changed, these counts when a thread
last read the word, how many calls had begun when a thread's push began, the calls
in the order of their beginning and their outcomes in the order of their ends. -/
structure State (α δ τ : Type*) where
  head : TagPtr α
  tail : TagPtr α
  next : α → TagPtr α
  data : α → Option δ
  free : α → Bool
  pc : τ → Pc α δ
  headCount : ℕ
  tailCount : ℕ
  headSeen : τ → ℕ
  tailSeen : τ → ℕ
  began : τ → ℕ
  calls : List (Call α δ)
  outcomes : List (Outcome δ)

/-- Calls of `push` and `pop`, and one step of the call a thread is in; `spurious`
lets a weak compare-and-swap fail although the values agree. -/
inductive Action (α δ τ : Type*) where
  | push (t : τ) (newNode : α) (data : Option δ)
  | pop (t : τ)
  | step (t : τ) (spurious : Bool)

variable {α δ τ : Type*} [DecidableEq α] [DecidableEq τ]

namespace State

/-- The node behind `node`. -/
def link (s : State α δ τ) (node : α) : Option α := (s.next node).ptr

omit [DecidableEq α] [DecidableEq τ] in
theorem link_congr {s s' : State α δ τ} (next : s'.next = s.next) : s'.link = s.link := by
  funext node
  rw [link, link, next]

def goto (s : State α δ τ) (t : τ) (pc : Pc α δ) : State α δ τ :=
  { s with pc := Function.update s.pc t pc }

/-- Remember that `t` has just read `head_`. -/
def sawHead (s : State α δ τ) (t : τ) : State α δ τ :=
  { s with headSeen := Function.update s.headSeen t s.headCount }

/-- Remember that `t` has just read `tail_`. -/
def sawTail (s : State α δ τ) (t : τ) : State α δ τ :=
  { s with tailSeen := Function.update s.tailSeen t s.tailCount }

def ended (s : State α δ τ) (outcome : Outcome δ) : State α δ τ :=
  { s with outcomes := s.outcomes ++ [outcome] }

/-- `tail_.compare_exchange_strong(oldTail, newTail)`; its result is not used. -/
def casTail (s : State α δ τ) (oldTail newTail : TagPtr α) : State α δ τ :=
  if s.tail = oldTail then { s with tail := newTail, tailCount := s.tailCount + 1 } else s

omit [DecidableEq τ] in
@[simp] theorem casTail_pc (s : State α δ τ) (oldTail newTail : TagPtr α) :
    (s.casTail oldTail newTail).pc = s.pc := by
  unfold casTail
  split_ifs <;> rfl

omit [DecidableEq τ] in
@[simp] theorem casTail_head (s : State α δ τ) (oldTail newTail : TagPtr α) :
    (s.casTail oldTail newTail).head = s.head := by
  unfold casTail
  split_ifs <;> rfl

/-- One step of the call `t` is in. Reading through a null pointer has no step. -/
def step (v : Variant) (s : State α δ τ) (t : τ) (spurious : Bool) : Option (State α δ τ) :=
  match s.pc t with
  | .pushLoadTail newNode => some ((s.goto t (.pushLoadNext newNode s.tail)).sawTail t)
  | .pushLoadNext newNode oldTail =>
    oldTail.ptr.bind fun tail =>
      if (s.next tail).ptr = none then
        some (s.goto t (.pushCasNext newNode oldTail (s.next tail)))
      else if v.helps then some (s.goto t (.pushHelp newNode oldTail (s.next tail)))
      else some (s.goto t (.pushLoadTail newNode))
  | .pushCasNext newNode oldTail oldTailNext =>
    oldTail.ptr.bind fun tail =>
      if s.next tail = oldTailNext ∧ spurious = false then
        some { s.goto t (.pushCasTail newNode oldTail) with
          next := Function.update s.next tail ⟨some newNode, v.linkTag oldTailNext⟩ }
      else some (s.goto t (.pushLoadTail newNode))
  | .pushCasTail newNode oldTail =>
    some (((s.casTail oldTail ⟨some newNode, v.endTag oldTail⟩).goto t .pushed).ended .pushed)
  | .pushHelp newNode oldTail oldTailNext =>
    some ((s.casTail oldTail ⟨oldTailNext.ptr, v.endTag oldTail⟩).goto t (.pushLoadTail newNode))
  | .popLoadHead => some ((s.goto t (.popLoadNext s.head)).sawHead t)
  | .popLoadNext oldHead =>
    oldHead.ptr.bind fun head => some (s.goto t (.popLoadTail oldHead (s.next head)))
  | .popLoadTail oldHead oldHeadNext =>
    if s.tail.ptr = oldHead.ptr then
      if v.helps = true ∧ oldHeadNext.ptr ≠ none then
        some ((s.goto t (.popHelp oldHead oldHeadNext s.tail)).sawTail t)
      else some (((s.goto t (.popped none)).sawTail t).ended .refused)
    else some ((s.goto t (.popCasHead oldHead oldHeadNext)).sawTail t)
  | .popHelp _ oldHeadNext oldTail =>
    some ((s.casTail oldTail ⟨oldHeadNext.ptr, v.endTag oldTail⟩).goto t .popLoadHead)
  | .popCasHead oldHead oldHeadNext =>
    oldHead.ptr.bind fun head =>
      if s.head = oldHead ∧ spurious = false then
        some { s.goto t (.popRead head) with
          head := ⟨oldHeadNext.ptr, v.endTag oldHead⟩
          headCount := s.headCount + 1 }
      else some (s.goto t .popLoadHead)
  | .popRead oldHead => some (s.goto t (.popDelete oldHead (s.data oldHead)))
  | .popDelete oldHead ret =>
    some ({ s.goto t (.popped ret) with
      free := Function.update s.free oldHead true }.ended (.removed ret))
  | .idle | .pushed | .popped _ => none

/-- A pushed node is not in use; its `next` is null and keeps the tag it had. -/
def act (v : Variant) (s : State α δ τ) : Action α δ τ → Option (State α δ τ)
  | .push t newNode data =>
    if (s.pc t).resting ∧ s.free newNode then
      some { s.goto t (.pushLoadTail newNode) with
        next := Function.update s.next newNode ⟨none, (s.next newNode).tag⟩
        data := Function.update s.data newNode data
        free := Function.update s.free newNode false
        began := Function.update s.began t s.calls.length
        calls := s.calls ++ [.push newNode data] }
    else none
  | .pop t =>
    if (s.pc t).resting then
      some { s.goto t .popLoadHead with calls := s.calls ++ [.pop] }
    else none
  | .step t spurious => s.step v t spurious

end State

/-- A new queue: `head_` and `tail_` hold the dummy node, whose `data` is
`dummyData`; every other node is free. -/
def machine (v : Variant) (dummyData : Option δ) (α τ : Type*) [DecidableEq α] [DecidableEq τ] :
    Machine (State α δ τ) (Action α δ τ) where
  init s := ∃ dummy, s.head = ⟨some dummy, 0⟩ ∧ s.tail = ⟨some dummy, 0⟩ ∧
    (s.next dummy).ptr = none ∧ (v.tagsNext = false → ∀ node, (s.next node).tag = 0) ∧
    s.data dummy = dummyData ∧ (∀ node, s.free node = true ↔ node ≠ dummy) ∧
    (∀ t, s.pc t = .idle) ∧ s.headCount = 0 ∧ s.tailCount = 0 ∧ (∀ t, s.headSeen t = 0) ∧
    (∀ t, s.tailSeen t = 0) ∧ s.calls = [] ∧ s.outcomes = []
  next := State.act v

/-- A new queue of numbered nodes; node 0 is the dummy. -/
def fresh (τ : Type*) (dummyData : Option ℕ) : State ℕ ℕ τ :=
  ⟨⟨some 0, 0⟩, ⟨some 0, 0⟩, fun _ => ⟨none, 0⟩, fun _ => dummyData, fun node => node ≠ 0,
    fun _ => .idle, 0, 0, fun _ => 0, fun _ => 0, fun _ => 0, [], []⟩

theorem fresh_init {v : Variant} {dummyData : Option ℕ} :
    (machine v dummyData ℕ τ).init (fresh τ dummyData) :=
  ⟨0, rfl, rfl, rfl, fun _ _ => rfl, rfl, fun _ => decide_eq_true_iff, fun _ => rfl, rfl, rfl,
    fun _ => rfl, fun _ => rfl, rfl, rfl⟩

end LinkedQueue
end Codelab
