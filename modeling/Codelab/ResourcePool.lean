import Codelab.Theory.Machine
import Codelab.Theory.Census

/-! `ResourcePool::fetch_block` and `create_block_group`, one atomic operation a step. Blocks
and groups are named in the order of their allocation. -/

namespace Codelab.ResourcePool

/-- `RP_GROUP_NBLOCK`. -/
@[simp] def groupNblock : ℕ := 65536

/-- `RP_MAX_BLOCK_NGROUP`. -/
@[simp] def maxBlockNgroup : ℕ := 65536

/-- `lock` to `unlock` are `create_block_group`, called with the group count `ngroup`;
`found` and `null` are about to return. -/
inductive Pc
  | idle
  | newBlock
  | loadNgroup (b : ℕ)
  | loadGroup (b ngroup : ℕ)
  | fetchAdd (b ngroup g : ℕ)
  | storeBlock (b ngroup g blockIndex : ℕ)
  | fetchSub (b ngroup g : ℕ)
  | lock (b ngroup : ℕ)
  | compare (b ngroup : ℕ)
  | newGroup (b ngroup : ℕ)
  | storeGroup (b ngroup bg : ℕ)
  | storeNgroup (b ngroup : ℕ)
  | unlock (b : ℕ) (created : Bool)
  | deleteBlock (b : ℕ)
  | found (index b : ℕ)
  | null (b : Option ℕ)
  deriving DecidableEq

/-- The last four fields are the history: the blocks deleted, the indices that a `fetch_add`
has claimed and the results returned, each with the block of its call. No step reads them. -/
structure State (τ : Type) where
  ngroup : ℕ
  blockGroups : ℕ → Option ℕ
  nblock : ℕ → ℕ
  blocks : ℕ → ℕ → Option ℕ
  mutex : Option τ
  pc : τ → Pc
  nextBlock : ℕ
  nextGroup : ℕ
  freed : List ℕ
  claimed : List (ℕ × ℕ)
  returned : List (ℕ × ℕ)
  failed : List ℕ

/-- `memory` says whether an allocation succeeds. -/
inductive Action (τ : Type)
  | fetchBlock (t : τ)
  | step (t : τ) (memory : Bool)

variable {τ : Type} [DecidableEq τ]

namespace State

def goto (s : State τ) (t : τ) (pc : Pc) : State τ :=
  { s with pc := Function.update s.pc t pc }

def step (s : State τ) (t : τ) (memory : Bool) : Option (State τ) :=
  match s.pc t with
  | .idle => none
  | .newBlock =>
    if memory = true then
      some { s.goto t (.loadNgroup s.nextBlock) with nextBlock := s.nextBlock + 1 }
    else some (s.goto t (.null none))
  | .loadNgroup b =>
    some (s.goto t (if 1 ≤ s.ngroup then .loadGroup b s.ngroup else .lock b s.ngroup))
  | .loadGroup b ngroup =>
    match s.blockGroups (ngroup - 1) with
    | none => none
    | some g => some (s.goto t (.fetchAdd b ngroup g))
  | .fetchAdd b ngroup g =>
    let s' := { s with nblock := Function.update s.nblock g (s.nblock g + 1) }
    if s.nblock g < groupNblock then
      some { s'.goto t (.storeBlock b ngroup g (s.nblock g)) with
        claimed := s.claimed ++ [((ngroup - 1) * groupNblock + s.nblock g, b)] }
    else some (s'.goto t (.fetchSub b ngroup g))
  | .storeBlock b ngroup g blockIndex =>
    some { s.goto t (.found ((ngroup - 1) * groupNblock + blockIndex) b) with
      blocks := Function.update s.blocks g (Function.update (s.blocks g) blockIndex (some b)) }
  | .fetchSub b ngroup g =>
    some { s.goto t (.lock b ngroup) with nblock := Function.update s.nblock g (s.nblock g - 1) }
  | .lock b ngroup =>
    if s.mutex = none then some { s.goto t (.compare b ngroup) with mutex := some t } else none
  | .compare b ngroup =>
    some (s.goto t (if s.ngroup ≠ ngroup then .unlock b true
      else if s.ngroup < maxBlockNgroup then .newGroup b ngroup else .unlock b false))
  | .newGroup b ngroup =>
    if memory = true then
      some { s.goto t (.storeGroup b ngroup s.nextGroup) with
        nextGroup := s.nextGroup + 1
        nblock := Function.update s.nblock s.nextGroup 0
        blocks := Function.update s.blocks s.nextGroup fun _ => none }
    else some (s.goto t (.unlock b false))
  | .storeGroup b ngroup bg =>
    some { s.goto t (.storeNgroup b ngroup) with
      blockGroups := Function.update s.blockGroups ngroup (some bg) }
  | .storeNgroup b ngroup => some { s.goto t (.unlock b true) with ngroup := ngroup + 1 }
  | .unlock b created =>
    some { s.goto t (if created = true then .loadNgroup b else .deleteBlock b) with
      mutex := none }
  | .deleteBlock b => some { s.goto t (.null (some b)) with freed := s.freed ++ [b] }
  | .found index b => some { s.goto t .idle with returned := s.returned ++ [(index, b)] }
  | .null b => some { s.goto t .idle with failed := s.failed ++ b.toList }

def act (s : State τ) : Action τ → Option (State τ)
  | .fetchBlock t => if s.pc t = .idle then some (s.goto t .newBlock) else none
  | .step t memory => s.step t memory

end State

def initial (τ : Type) : State τ where
  ngroup := 0
  blockGroups _ := none
  nblock _ := 0
  blocks _ _ := none
  mutex := none
  pc _ := .idle
  nextBlock := 0
  nextGroup := 0
  freed := []
  claimed := []
  returned := []
  failed := []

def machine (τ : Type) [DecidableEq τ] : Machine (State τ) (Action τ) where
  init s := s = initial τ
  next := State.act

end Codelab.ResourcePool
