import Codelab.Theory.Chain
import Codelab.Theory.Outcome
import Mathlib.Logic.Function.Basic

/-! `ThreadedPool` of `single_threaded_pool.h`: nodes of one size cut from blocks, with a free
list threaded through the nodes that have been given back. Memory is explicit, and blocks are
numbered in the order of their making. The header does not compile as it stands; `_free_nodes`
and `NODE` are read as `free_nodes_` and `Node`. -/

namespace Codelab.ThreadedPool

/-- The union of a pointer and `itemSize` bytes. -/
def sizeofNode (itemSize : ℕ) : ℕ := (max 8 itemSize + 7) / 8 * 8

/-- `BLOCK_SIZE - sizeof(size_t) - sizeof(void*)` in 64 bits. -/
def unuseSize (blockSize : ℕ) : ℕ :=
  (blockSize + 0x10000000000000000 - 16) % 0x10000000000000000

def nodeCount (itemSize blockSize : ℕ) : ℕ :=
  if sizeofNode itemSize ≤ unuseSize blockSize then unuseSize blockSize / sizeofNode itemSize
  else 1

theorem nodeCount_pos (itemSize blockSize : ℕ) : 0 < nodeCount itemSize blockSize := by
  unfold nodeCount
  split_ifs with fits
  · refine Nat.div_pos fits ?_
    unfold sizeofNode
    omega
  · exact Nat.one_pos

/-- The node at an index of the `nodes` of a block. -/
structure Node where
  block : ℕ
  index : ℕ
  deriving DecidableEq

structure Block where
  nalloc : ℕ
  next : Option ℕ

inductive Fault
  | null
  | deleted
  | unfinished
  deriving DecidableEq

/-- `spaces` is what stands in the first bytes of a node, read as a `Node*`. `made` and `deleted`
are the allocator's. -/
structure State where
  freeNodes : Option Node
  blocks : Option ℕ
  memory : ℕ → Block
  spaces : Node → Option Node
  made : ℕ
  deleted : List ℕ

/-- A new pool, in whatever memory. -/
def initial (memory : ℕ → Block) (spaces : Node → Option Node) : State where
  freeNodes := none
  blocks := none
  memory := memory
  spaces := spaces
  made := 0
  deleted := []

namespace State

variable (s : State)

def Alive (b : ℕ) : Prop := b < s.made ∧ b ∉ s.deleted

instance (b : ℕ) : Decidable (s.Alive b) := inferInstanceAs (Decidable (_ ∧ _))

def load : Option ℕ → Except Fault Block
  | none => .error .null
  | some b => if s.Alive b then .ok (s.memory b) else .error .deleted

/-- `node->next`. -/
def loadNext (node : Node) : Except Fault (Option Node) :=
  if s.Alive node.block then .ok (s.spaces node) else .error .deleted

def storeNext (node : Node) (next : Option Node) : Except Fault State :=
  if s.Alive node.block then .ok { s with spaces := Function.update s.spaces node next }
  else .error .deleted

/-- A new block with its two fields set, which becomes the first of `blocks_`. -/
def newBlock : State :=
  { s with
    memory := Function.update s.memory s.made { nalloc := 0, next := s.blocks }
    blocks := some s.made
    made := s.made + 1 }

def setNalloc (b nalloc : ℕ) : State :=
  { s with memory := Function.update s.memory b { s.memory b with nalloc := nalloc } }

/-- `blocks_->nodes[blocks_->nalloc++].spaces`. -/
def take : Except Fault (State × Option Node) :=
  match s.blocks with
  | none => .error .null
  | some b => do
    let block ← s.load (some b)
    pure (s.setNalloc b (block.nalloc + 1), some ⟨b, block.nalloc⟩)

def deleteBlock (b : ℕ) : Except Fault State :=
  if s.Alive b then .ok { s with deleted := b :: s.deleted } else .error .deleted

/-- `get`, where `grow` is its test for a new block and `memory` says whether `new` succeeds. -/
def get (grow : State → Except Fault Bool) (memory : Bool) :
    Except Fault (State × Option Node) :=
  match s.freeNodes with
  | some node => do
    let next ← s.loadNext node
    pure ({ s with freeNodes := next }, some node)
  | none => do
    if ← grow s then
      if memory then s.newBlock.take else pure (s, none)
    else s.take

/-- `blocks_ || blocks_->nalloc >= Block::NODE_COUNT`. -/
def grow (count : ℕ) (s : State) : Except Fault Bool :=
  if s.blocks.isSome then pure true
  else do
    let block ← s.load s.blocks
    pure (decide (count ≤ block.nalloc))

/-- The test with the negation that it lacks, `!blocks_ || ...`. -/
def growNegated (count : ℕ) (s : State) : Except Fault Bool :=
  if s.blocks.isNone then pure true
  else do
    let block ← s.load s.blocks
    pure (decide (count ≤ block.nalloc))

def back : Option Node → Except Fault State
  | none => .ok s
  | some node => do
    let s ← s.storeNext node s.freeNodes
    pure { s with freeNodes := some node }

/-- One round of the loop of `reset`. -/
def resetRound : Except Fault (State ⊕ State) :=
  match s.blocks with
  | none => .ok (.inr s)
  | some b => do
    let block ← s.load (some b)
    let s ← s.deleteBlock b
    pure (.inl { s with blocks := block.next })

def reset : Except Fault State :=
  Total.loop resetRound .unfinished (s.made + 1) { s with freeNodes := none }

end State

/-- A pool in use; `out` are the pointers got and not given back since the last `reset`. -/
structure Usage where
  pool : State
  out : List Node

/-- The calls, and what the program itself writes into a node it has got. -/
inductive Op
  | get (memory : Bool)
  | back (p : Option Node)
  | write (node : Node) (next : Option Node)
  | reset
  deriving DecidableEq

namespace Usage

variable (u : Usage) (grow : State → Except Fault Bool)

/-- A call gives the pool after it and, if it is a `get`, the pointer it returns. -/
def call : Op → Except Fault (Usage × Option Node)
  | .get memory => do
    let (pool, p) ← u.pool.get grow memory
    pure (⟨pool, p.toList ++ u.out⟩, p)
  | .back p => do
    let pool ← u.pool.back p
    pure (⟨pool, p.elim u.out u.out.erase⟩, none)
  | .write node next => do
    let pool ← u.pool.storeNext node next
    pure (⟨pool, u.out⟩, none)
  | .reset => do
    let pool ← u.pool.reset
    pure (⟨pool, []⟩, none)

/-- The program gives back and writes to what it has got only. -/
def Allowed : Op → Prop
  | .back (some node) => node ∈ u.out
  | .write node _ => node ∈ u.out
  | .get _ | .back none | .reset => True

/-- There is no block, or the newest one has handed out all its nodes. -/
def Due (count : ℕ) (s : State) : Prop := ∀ b, s.blocks = some b → count ≤ (s.memory b).nalloc

/-- What has to be true of a call that leaves `u'` and returns `p`. -/
def Meant (count : ℕ) (u' : Usage) (p : Option Node) : Op → Prop
  | .get _ =>
    (∀ node, p = some node → node.index < count ∧ node ∉ u.out ∧
      ∃ l, Chain.Path (fun b => (u'.pool.memory b).next) u'.pool.blocks l ∧ node.block ∈ l) ∧
    (u'.pool.made ≠ u.pool.made → u.pool.freeNodes = none ∧ Due count u.pool)
  | .reset =>
    u'.pool.deleted.Nodup ∧ ∀ b, b ∈ u'.pool.deleted ↔ b < u.pool.made
  | .back _ | .write _ _ => True

def CallMeets (count : ℕ) (op : Op) : Prop :=
  ∃ u' p, u.call grow op = .ok (u', p) ∧ u.Meant count u' p op

/-- Every call of a sequence does without a fault what it has to. -/
def Meets (count : ℕ) (u : Usage) : List Op → Prop
  | [] => True
  | op :: ops => u.CallMeets grow count op ∧
    ∀ u' p, u.call grow op = .ok (u', p) → Meets count u' ops

def Legal (u : Usage) : List Op → Prop
  | [] => True
  | op :: ops => u.Allowed op ∧ ∀ u' p, u.call grow op = .ok (u', p) → Legal u' ops

end Usage

end Codelab.ThreadedPool
