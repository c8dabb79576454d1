import Codelab.ResourcePool
import Mathlib.Data.Fintype.Basic

/-! `ResourcePool::get_resource` and `return_resource` through `LocalPool`, with `add_block`
being `fetch_block`. A step is one access to what threads share, with the thread's own work
up to the next one; a critical section of `_free_chunks_mutex` is one step. -/

namespace Codelab.LocalPool

/-- `BLOCK_NITEM`. -/
@[simp] def blockNitem : ℕ := 128

/-- `FREE_CHUNK_NITEM`. -/
@[simp] def freeChunkNitem : ℕ := blockNitem

/-- The members of a `LocalPool`; `curFree` has the last id first. -/
structure Members where
  curFree : List ℕ
  curBlock : Option ℕ
  curBlockIndex : ℕ
  deriving DecidableEq

/-- `get` to `grow` are `LocalPool::get`, whose `peek` to `fill` are `pop_free_chunk`; `put` is
`return_resource` and `destroy` the destructor. Both of these push their free list by `copy`
and `push`, which have the id to return with them. -/
inductive Pc
  | idle
  | newPool (id : Option ℕ)
  | get (lp : ℕ)
  | peek (lp : ℕ)
  | pop (lp : ℕ)
  | fill (lp : ℕ) (chunk : List ℕ)
  | bump (lp : ℕ)
  | fetch (lp : ℕ)
  | place (lp : ℕ)
  | grow (lp id : ℕ)
  | ret (id : Option ℕ)
  | put (lp id : ℕ)
  | destroy (lp : ℕ)
  | copy (lp : ℕ) (id : Option ℕ)
  | push (lp : ℕ) (id : Option ℕ) (chunk : List ℕ)
  deriving DecidableEq

/-- `nitem b` is the counter in block `b`, zero from its construction on; `freeChunks` has the
back of the vector first. `held`, which no step reads but to see that a thread returns what it
holds, are the ids a thread has got and not returned. -/
structure State (τ : Type) where
  blocks : ResourcePool.State τ
  nitem : ℕ → ℕ
  freeChunks : List (List ℕ)
  localPool : τ → Option ℕ
  pool : ℕ → Members
  alive : ℕ → Bool
  nextPool : ℕ
  pc : τ → Pc
  held : τ → List ℕ

/-- `give` hands an id to another thread, and `exit` is the end of a thread that runs
`~LocalPool` on a pool not in use. `memory` says whether an allocation succeeds. -/
inductive Action (τ : Type)
  | getResource (t : τ)
  | returnResource (t : τ) (id : ℕ)
  | give (t u : τ) (id : ℕ)
  | exit (t : τ) (lp : ℕ)
  | step (t : τ) (memory : Bool)

namespace Pc

/-- The local pool that a call works on. -/
@[simp] def pool : Pc → Option ℕ
  | .idle | .newPool _ | .ret _ => none
  | .get lp | .peek lp | .pop lp | .fill lp _ | .bump lp | .fetch lp | .place lp | .grow lp _
  | .put lp _ | .destroy lp | .copy lp _ | .push lp _ _ => some lp

/-- Into `get`, or into `return_resource` with the id given back. -/
@[simp] def enter (lp : ℕ) : Option ℕ → Pc
  | none => .get lp
  | some id => .put lp id

end Pc

variable {τ : Type} [DecidableEq τ]

namespace State

def goto (s : State τ) (t : τ) (pc : Pc) : State τ := { s with pc := Function.update s.pc t pc }

def setPool (s : State τ) (lp : ℕ) (m : Members) : State τ :=
  { s with pool := Function.update s.pool lp m }

def setHeld (s : State τ) (t : τ) (ids : List ℕ) : State τ :=
  { s with held := Function.update s.held t ids }

/-- The end of `~LocalPool`. -/
def die (s : State τ) (lp : ℕ) : State τ :=
  { s.setPool lp { curFree := [], curBlock := none, curBlockIndex := 0 } with
    alive := Function.update s.alive lp false }

/-- `get_or_new_local_pool`, which starts the call proper when it has a pool. -/
def getOrNewLocalPool (s : State τ) (t : τ) (id : Option ℕ) : State τ :=
  match s.localPool t with
  | some lp => s.goto t (.enter lp id)
  | none => s.goto t (.newPool id)

/-- `return_resource` returns -1, or `get_resource` NULL. -/
def fail (s : State τ) (t : τ) : Option ℕ → State τ
  | none => s.goto t (.ret none)
  | some id => (s.setHeld t (id :: s.held t)).goto t .idle

/-- The allocation of a `LocalPool`. As it stands `get_or_new_local_pool` does not store the
pool in `_local_pool` (`keeps = false`). -/
def newLocalPool (s : State τ) (keeps : Bool) (t : τ) (id : Option ℕ) : State τ :=
  { (s.setPool s.nextPool { curFree := [], curBlock := none, curBlockIndex := 0 }).goto t
      (.enter s.nextPool id) with
    alive := Function.update s.alive s.nextPool true
    localPool := if keeps = true then Function.update s.localPool t (some s.nextPool)
      else s.localPool
    nextPool := s.nextPool + 1 }

/-- `add_block` begins. -/
def fetchBlock (s : State τ) (t : τ) (lp : ℕ) : Option (State τ) :=
  (s.blocks.act (.fetchBlock t)).map fun blocks => { s.goto t (.fetch lp) with blocks := blocks }

/-- `add_block` goes on; at its end `_cur_block` is what it returns. -/
def addBlock (s : State τ) (t : τ) (lp : ℕ) (memory : Bool) : Option (State τ) :=
  (s.blocks.act (.step t memory)).map fun blocks =>
    match s.blocks.pc t with
    | .found index b =>
      { (s.setPool lp { s.pool lp with curBlock := some b, curBlockIndex := index }).goto t
          (.place lp) with blocks := blocks }
    | .null _ =>
      { (s.setPool lp { s.pool lp with curBlock := none }).goto t (.ret none) with
        blocks := blocks }
    | _ => { s with blocks := blocks }

def step (s : State τ) (keeps : Bool) (t : τ) (memory : Bool) : Option (State τ) :=
  match s.pc t with
  | .idle => none
  | .newPool id => some (if memory = true then s.newLocalPool keeps t id else s.fail t id)
  | .get lp =>
    match (s.pool lp).curFree with
    | id :: rest => some ((s.setPool lp { s.pool lp with curFree := rest }).goto t (.ret (some id)))
    | [] => some (s.goto t (.peek lp))
  | .peek lp => some (s.goto t (if s.freeChunks = [] then .bump lp else .pop lp))
  | .pop lp =>
    match s.freeChunks with
    | [] => some (s.goto t (.bump lp))
    | chunk :: rest => some { s.goto t (.fill lp chunk) with freeChunks := rest }
  | .fill lp chunk =>
    match chunk with
    | [] => none
    | id :: rest => some ((s.setPool lp { s.pool lp with curFree := rest }).goto t (.ret (some id)))
  | .bump lp =>
    match (s.pool lp).curBlock with
    | some b => if s.nitem b < blockNitem then some (s.goto t (.place lp)) else s.fetchBlock t lp
    | none => s.fetchBlock t lp
  | .fetch lp => s.addBlock t lp memory
  | .place lp =>
    match (s.pool lp).curBlock with
    | some b => some (s.goto t (.grow lp ((s.pool lp).curBlockIndex * blockNitem + s.nitem b)))
    | none => none
  | .grow lp id =>
    match (s.pool lp).curBlock with
    | some b =>
      some { s.goto t (.ret (some id)) with nitem := Function.update s.nitem b (s.nitem b + 1) }
    | none => none
  | .ret id => some ((s.setHeld t (id.toList ++ s.held t)).goto t .idle)
  | .put lp id =>
    if (s.pool lp).curFree.length < freeChunkNitem then
      some ((s.setPool lp { s.pool lp with curFree := id :: (s.pool lp).curFree }).goto t .idle)
    else some (s.goto t (.copy lp (some id)))
  | .destroy lp =>
    if (s.pool lp).curFree = [] then some ((s.die lp).goto t .idle)
    else some (s.goto t (.copy lp none))
  | .copy lp id =>
    if memory = true then some (s.goto t (.push lp id (s.pool lp).curFree))
    else match id with
      | some id => some (s.fail t (some id))
      | none => some ((s.die lp).goto t .idle)
  | .push lp id chunk =>
    let s := { s with freeChunks := chunk :: s.freeChunks }
    match id with
    | some id => some ((s.setPool lp { s.pool lp with curFree := [id] }).goto t .idle)
    | none => some ((s.die lp).goto t .idle)

variable [Fintype τ]

def act (s : State τ) (keeps : Bool) : Action τ → Option (State τ)
  | .getResource t => if s.pc t = .idle then some (s.getOrNewLocalPool t none) else none
  | .returnResource t id =>
    if s.pc t = .idle ∧ id ∈ s.held t then
      some ((s.setHeld t ((s.held t).erase id)).getOrNewLocalPool t (some id))
    else none
  | .give t u id =>
    if id ∈ s.held t then
      let s := s.setHeld t ((s.held t).erase id)
      some (s.setHeld u (id :: s.held u))
    else none
  | .exit t lp =>
    if s.pc t = .idle ∧ s.alive lp = true ∧ (∀ u, (s.pc u).pool ≠ some lp) ∧
        ∀ u, s.localPool u = some lp → u = t then
      some { s.goto t (.destroy lp) with
        localPool := if s.localPool t = some lp then Function.update s.localPool t none
          else s.localPool }
    else none
  | .step t memory => s.step keeps t memory

end State

def initial (τ : Type) : State τ where
  blocks := ResourcePool.initial τ
  nitem _ := 0
  freeChunks := []
  localPool _ := none
  pool _ := { curFree := [], curBlock := none, curBlockIndex := 0 }
  alive _ := false
  nextPool := 0
  pc _ := .idle
  held _ := []

def machine (keeps : Bool) (τ : Type) [Fintype τ] [DecidableEq τ] :
    Machine (State τ) (Action τ) where
  init s := s = initial τ
  next s a := s.act keeps a

end Codelab.LocalPool
