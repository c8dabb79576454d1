import Codelab.Theory.Machine
import Codelab.Theory.Census

/-! `shared_ptr` and `weak_ptr` variables of one program. The objects that `new` makes and
the control blocks are numbered in the order of their making; touching a destroyed block
is a fault. The counters are integers: fewer than 2^31 references to one block are assumed,
and with these no step of the code depends on their width. -/

namespace Codelab.SharedPtr

inductive Fault
  | destroyed
  | notConstructed
  deriving DecidableEq

/-- `sp_counted_impl_p`. -/
structure Block where
  useCount : Int
  weakCount : Int
  px : ℕ

/-- `objects` counts the raw pointers made, `deleted` lists those passed to `delete`,
`made` counts the control blocks, `destroyed` lists those that have deleted themselves. -/
structure Memory where
  block : ℕ → Block
  made : ℕ
  destroyed : List ℕ
  objects : ℕ
  deleted : List ℕ

namespace Memory

variable (m : Memory)

def load (b : ℕ) : Except Fault Block :=
  if b ∈ m.destroyed then .error .destroyed else .ok (m.block b)

def store (b : ℕ) (x : Block) : Except Fault Memory :=
  if b ∈ m.destroyed then .error .destroyed
  else .ok { m with block := Function.update m.block b x }

def addRefCopy (b : ℕ) : Except Fault Memory := do
  let x ← m.load b
  m.store b { x with useCount := x.useCount + 1 }

def weakAddRef (b : ℕ) : Except Fault Memory := do
  let x ← m.load b
  m.store b { x with weakCount := x.weakCount + 1 }

/-- `checked_delete` of the object. -/
def dispose (b : ℕ) : Except Fault Memory := do
  let x ← m.load b
  pure { m with deleted := x.px :: m.deleted }

/-- `delete this`. -/
def destroy (b : ℕ) : Except Fault Memory := do
  let _ ← m.load b
  pure { m with destroyed := b :: m.destroyed }

def weakRelease (b : ℕ) : Except Fault Memory := do
  let x ← m.load b
  let m ← m.store b { x with weakCount := x.weakCount - 1 }
  if x.weakCount = 1 then m.destroy b else pure m

def release (b : ℕ) : Except Fault Memory := do
  let x ← m.load b
  let m ← m.store b { x with useCount := x.useCount - 1 }
  if x.useCount = 1 then do
    let m ← m.dispose b
    m.weakRelease b
  else pure m

end Memory

/-- The member `pi_` of a `shared_count` or a `weak_count`. -/
abbrev Count := Option ℕ

namespace SharedCount

/-- The constructor from a raw pointer, where `new` may throw. -/
def construct (m : Memory) (p : ℕ) (throws : Bool) : Memory × Option Count :=
  if throws then ({ m with deleted := p :: m.deleted }, none)
  else
    ({ m with
        block := Function.update m.block m.made { useCount := 1, weakCount := 1, px := p }
        made := m.made + 1 }, some (some m.made))

def copy (m : Memory) : Count → Except Fault (Memory × Count)
  | none => pure (m, none)
  | some b => do
      let m ← m.addRefCopy b
      pure (m, some b)

def destruct (m : Memory) : Count → Except Fault Memory
  | none => pure m
  | some b => m.release b

end SharedCount

namespace WeakCount

/-- The constructors from a `shared_count` and from a `weak_count`. -/
def copy (m : Memory) : Count → Except Fault (Memory × Count)
  | none => pure (m, none)
  | some b => do
      let m ← m.weakAddRef b
      pure (m, some b)

def destruct (m : Memory) : Count → Except Fault Memory
  | none => pure m
  | some b => m.weakRelease b

/-- The assignments from a `shared_count` and from a `weak_count`. -/
def assign (m : Memory) (pi r : Count) : Except Fault (Memory × Count) := do
  let tmp := r
  if tmp ≠ pi then do
    let (m, _) ← copy m tmp
    let m ← destruct m pi
    pure (m, tmp)
  else pure (m, pi)

end WeakCount

/-- The members of a `shared_ptr` and of a `weak_ptr`. -/
structure Ptr where
  px : Option ℕ
  pn : Count

/-- `none` is a variable outside its lifetime. -/
structure State (σ ω : Type) where
  memory : Memory
  shared : σ → Option Ptr
  weak : ω → Option Ptr

inductive Action (σ ω : Type)
  | default (v : σ)
  | construct (v : σ) (throws : Bool)
  | copy (v r : σ)
  | move (v r : σ)
  | aliasing (v r : σ) (p : Option ℕ)
  | assign (v r : σ)
  | moveAssign (v r : σ)
  | reset (v : σ) (throws : Bool)
  | destruct (v : σ)
  | weakDefault (v : ω)
  | weakCopy (v r : ω)
  | weakShared (v : ω) (r : σ)
  | weakAssign (v r : ω)
  | weakAssignShared (v : ω) (r : σ)
  | weakDestruct (v : ω)

namespace State

variable {σ ω : Type} [DecidableEq σ] [DecidableEq ω] (s : State σ ω)

def getShared (v : σ) : Except Fault Ptr :=
  match s.shared v with
  | none => .error .notConstructed
  | some x => .ok x

def getWeak (v : ω) : Except Fault Ptr :=
  match s.weak v with
  | none => .error .notConstructed
  | some x => .ok x

def setShared (v : σ) (x : Option Ptr) : State σ ω :=
  { s with shared := Function.update s.shared v x }

def setWeak (v : ω) (x : Option Ptr) : State σ ω :=
  { s with weak := Function.update s.weak v x }

/-- The raw pointer of a fresh object. -/
def newObject : State σ ω × ℕ :=
  ({ s with memory := { s.memory with objects := s.memory.objects + 1 } }, s.memory.objects)

/-- `sp_pointer_construct` swaps the new count with the empty `pn`. -/
def construct (p : ℕ) (throws : Bool) : State σ ω × Option Ptr :=
  let (m, pn) := SharedCount.construct s.memory p throws
  ({ s with memory := m }, pn.map fun pn => { px := some p, pn := pn })

/-- `this_type(r)` and, with another pointer, the aliasing constructor. -/
def copy (r : σ) (px : Ptr → Option ℕ) : Except Fault (State σ ω × Ptr) := do
  let x ← s.getShared r
  let (m, pn) ← SharedCount.copy s.memory x.pn
  pure ({ s with memory := m }, { px := px x, pn := pn })

/-- The move constructor leaves `r` empty. -/
def move (r : σ) : Except Fault (State σ ω × Ptr) := do
  let x ← s.getShared r
  pure (s.setShared r (some { px := none, pn := none }), x)

/-- `tmp.swap(*this)`, and the end of `tmp`. -/
def swapIn (tmp : Ptr) (v : σ) : Except Fault (State σ ω) := do
  let x ← s.getShared v
  let s := s.setShared v (some tmp)
  let m ← SharedCount.destruct s.memory x.pn
  pure { s with memory := m }

def destruct (v : σ) : Except Fault (State σ ω) := do
  let x ← s.getShared v
  let m ← SharedCount.destruct s.memory x.pn
  pure ({ s with memory := m }.setShared v none)

def weakCopy (x : Ptr) (v : ω) : Except Fault (State σ ω) := do
  let (m, pn) ← WeakCount.copy s.memory x.pn
  pure ({ s with memory := m }.setWeak v (some { px := x.px, pn := pn }))

def weakAssign (x : Ptr) (v : ω) : Except Fault (State σ ω) := do
  let old ← s.getWeak v
  let (m, pn) ← WeakCount.assign s.memory old.pn x.pn
  pure ({ s with memory := m }.setWeak v (some { px := x.px, pn := pn }))

def weakDestruct (v : ω) : Except Fault (State σ ω) := do
  let x ← s.getWeak v
  let m ← WeakCount.destruct s.memory x.pn
  pure ({ s with memory := m }.setWeak v none)

def act : Action σ ω → Except Fault (State σ ω)
  | .default v => pure (s.setShared v (some { px := none, pn := none }))
  | .construct v throws =>
      let (s, p) := s.newObject
      let (s, x) := s.construct p throws
      match x with
      | none => pure s
      | some x => pure (s.setShared v (some x))
  | .copy v r => do
      let (s, x) ← s.copy r Ptr.px
      pure (s.setShared v (some x))
  | .move v r => do
      let (s, x) ← s.move r
      pure (s.setShared v (some x))
  | .aliasing v r p => do
      let (s, x) ← s.copy r fun _ => p
      pure (s.setShared v (some x))
  | .assign v r => do
      let (s, tmp) ← s.copy r Ptr.px
      s.swapIn tmp v
  | .moveAssign v r => do
      let (s, tmp) ← s.move r
      s.swapIn tmp v
  | .reset v throws =>
      let (s, p) := s.newObject
      let (s, tmp) := s.construct p throws
      match tmp with
      | none => pure s
      | some tmp => s.swapIn tmp v
  | .destruct v => s.destruct v
  | .weakDefault v => pure (s.setWeak v (some { px := none, pn := none }))
  | .weakCopy v r => do
      let x ← s.getWeak r
      s.weakCopy x v
  | .weakShared v r => do
      let x ← s.getShared r
      s.weakCopy x v
  | .weakAssign v r => do
      let x ← s.getWeak r
      s.weakAssign x v
  | .weakAssignShared v r => do
      let x ← s.getShared r
      s.weakAssign x v
  | .weakDestruct v => s.weakDestruct v

/-- A constructor runs on a variable outside its lifetime, every other member function on a
constructed one. -/
def proper : Action σ ω → Bool
  | .default v => (s.shared v).isNone
  | .construct v _ => (s.shared v).isNone
  | .copy v r => (s.shared v).isNone ∧ (s.shared r).isSome
  | .move v r => (s.shared v).isNone ∧ (s.shared r).isSome
  | .aliasing v r _ => (s.shared v).isNone ∧ (s.shared r).isSome
  | .assign v r => (s.shared v).isSome ∧ (s.shared r).isSome
  | .moveAssign v r => (s.shared v).isSome ∧ (s.shared r).isSome
  | .reset v _ => (s.shared v).isSome
  | .destruct v => (s.shared v).isSome
  | .weakDefault v => (s.weak v).isNone
  | .weakCopy v r => (s.weak v).isNone ∧ (s.weak r).isSome
  | .weakShared v r => (s.weak v).isNone ∧ (s.shared r).isSome
  | .weakAssign v r => (s.weak v).isSome ∧ (s.weak r).isSome
  | .weakAssignShared v r => (s.weak v).isSome ∧ (s.shared r).isSome
  | .weakDestruct v => (s.weak v).isSome

end State

/-- At the start no variable has been constructed. -/
def initial (σ ω : Type) (block : ℕ → Block) : State σ ω where
  memory := { block := block, made := 0, destroyed := [], objects := 0, deleted := [] }
  shared := fun _ => none
  weak := fun _ => none

def machine (σ ω : Type) [DecidableEq σ] [DecidableEq ω] : Machine (State σ ω) (Action σ ω) where
  init s := s = initial σ ω s.memory.block
  next s a := (s.act a).toOption

end Codelab.SharedPtr
