import Codelab.Theory.Chain
import Mathlib.Logic.Function.Basic

/-! The skip list. Nodes are numbered in the order of their allocation, `head_` first, and
are never freed. The slots of a node's `next_` are those for which `NewNode` reserves memory,
which depends on the sizes of the types: reading one that was never written and touching one
that does not exist are faults. `RandomHeight` is an argument of `insert`, for every value it
may draw. -/

namespace Codelab.SkipList

def kMaxHeight : ℕ := 12

inductive Fault
  | null
  | outOfBounds
  | unwritten
  | unfinished
  deriving DecidableEq

/-- `sizeof(int)` and `sizeof(Node*)`. -/
structure Layout where
  sizeofInt : ℕ
  sizeofPtr : ℕ
  positive : 0 < sizeofPtr

/-- How many pointers there is room for in the memory that `NewNode` gets: one in `next_` itself,
and behind it an `int` for each other level. -/
def Layout.slots (layout : Layout) (height : ℕ) : ℕ :=
  (layout.sizeofPtr + layout.sizeofInt * (height - 1)) / layout.sizeofPtr

/-- A slot of `next` is `none` until it is written. `height` is what the node was made with; no
step reads it. -/
structure Node where
  key : Int
  height : ℕ
  slots : ℕ
  next : ℕ → Option (Option ℕ)

/-- The array `prev` of `kMaxHeight` node pointers, or null for the whole of it. -/
abbrev Prev := Option (ℕ → Option ℕ)

namespace Prev

def set (prev : Prev) (level x : ℕ) : Except Fault Prev :=
  match prev with
  | none => .error .null
  | some slots =>
      if level < kMaxHeight then .ok (some (Function.update slots level (some x)))
      else .error .outOfBounds

def get (prev : Prev) (level : ℕ) : Except Fault ℕ :=
  match prev with
  | none => .error .null
  | some slots =>
      match slots level with
      | none => .error .unwritten
      | some x => .ok x

/-- `if (prev != NULL) prev[level] = x`. -/
def record (prev : Prev) (level x : ℕ) : Except Fault Prev :=
  if prev.isSome then prev.set level x else .ok prev

end Prev

structure State where
  heap : ℕ → Node
  made : ℕ
  head : ℕ
  maxHeight : ℕ

namespace State

variable (s : State)

def next (x n : ℕ) : Except Fault (Option ℕ) :=
  if n < (s.heap x).slots then
    match (s.heap x).next n with
    | none => .error .unwritten
    | some p => .ok p
  else .error .outOfBounds

def setNext (x n : ℕ) (p : Option ℕ) : Except Fault State :=
  if n < (s.heap x).slots then
    .ok { s with
      heap := Function.update s.heap x
        { s.heap x with next := Function.update (s.heap x).next n (some p) } }
  else .error .outOfBounds

def newNode (layout : Layout) (key : Int) (height : ℕ) : State × ℕ :=
  ({ s with
      heap := Function.update s.heap s.made
        { key := key, height := height, slots := layout.slots height, next := fun _ => none }
      made := s.made + 1 }, s.made)

/-- The loop of `FindGreaterOrEqual`, for at most `rounds` rounds. -/
def search (key : Int) : ℕ → ℕ → ℕ → Prev → Except Fault (Option ℕ × Prev)
  | 0, _, _, _ => .error .unfinished
  | rounds + 1, x, level, prev => do
      let next ← s.next x level
      match next.filter fun n => key ≥ (s.heap n).key with
      | some n => search key rounds n level prev
      | none => do
          let prev ← prev.record level x
          if level = 0 then pure (next, prev) else search key rounds x (level - 1) prev

/-- On each level the loop passes each node at most once. -/
def findGreaterOrEqual (key : Int) (prev : Prev) : Except Fault (Option ℕ × Prev) :=
  s.search key (s.made * s.maxHeight) s.head (s.maxHeight - 1) prev

/-- `count` rounds of the loop that lets `prev` name `head_`, from level `i` on. -/
def fillHead : ℕ → ℕ → Prev → Except Fault Prev
  | 0, _, prev => pure prev
  | count + 1, i, prev => do
      let prev ← prev.set i s.head
      fillHead count (i + 1) prev

/-- `count` rounds of the loop that links `x` in, from level `i` on. -/
def link (x : ℕ) (prev : Prev) : ℕ → ℕ → State → Except Fault State
  | 0, _, s => pure s
  | count + 1, i, s => do
      let before ← prev.get i
      let after ← s.next before i
      let s ← s.setNext x i after
      let s ← s.setNext before i (some x)
      link x prev count (i + 1) s

def insert (layout : Layout) (key : Int) (height : ℕ) : Except Fault State := do
  let (_, prev) ← s.findGreaterOrEqual key (some fun _ => none)
  let (s, prev) ←
    if height > s.maxHeight then do
      let prev ← s.fillHead (height - s.maxHeight) s.maxHeight prev
      pure ({ s with maxHeight := height }, prev)
    else pure (s, prev)
  let (s, x) := s.newNode layout key height
  link x prev height 0 s

def contains (key : Int) : Except Fault Bool := do
  let (x, _) ← s.findGreaterOrEqual key none
  match x with
  | none => pure false
  | some n => pure (key = (s.heap n).key)

/-- `count` rounds of the constructor's loop, from level `i` on. -/
def clear : ℕ → ℕ → State → Except Fault State
  | 0, _, s => pure s
  | count + 1, i, s => do
      let s ← s.setNext s.head i none
      clear count (i + 1) s

end State

/-- The constructor, in empty memory. -/
def new (layout : Layout) : Except Fault State :=
  let empty : State :=
    { heap := fun _ => { key := 0, height := 0, slots := 0, next := fun _ => none }
      made := 0, head := 0, maxHeight := 0 }
  let (s, x) := empty.newNode layout 0 kMaxHeight
  State.clear kMaxHeight 0 { s with head := x, maxHeight := 1 }

/-- A call of `Insert` with the height that it draws. -/
structure Insertion where
  key : Int
  height : ℕ

/-- `RandomHeight` returns a height in [1, kMaxHeight]. -/
def Insertion.drawn (c : Insertion) : Prop := 1 ≤ c.height ∧ c.height ≤ kMaxHeight

/-- The list after a sequence of calls. -/
def after (layout : Layout) (calls : List Insertion) : Except Fault State := do
  let s ← new layout
  calls.foldlM (fun s c => s.insert layout c.key c.height) s

variable {layout : Layout}

theorem after_nil : after layout [] = new layout := by
  cases made : new layout <;> simp only [after, made] <;> rfl

theorem after_append (calls : List Insertion) (c : Insertion) :
    after layout (calls ++ [c]) =
      (after layout calls).bind fun s => s.insert layout c.key c.height := by
  cases made : new layout <;>
    simp only [after, made, List.foldlM_append, List.foldlM_cons, List.foldlM_nil, bind_pure] <;>
    rfl

theorem after_of_error {f : Fault} (fails : new layout = .error f) (calls : List Insertion) :
    after layout calls = .error f := by
  simp only [after, fails]
  rfl

/-- Where a pointer is no wider than an `int`, a node has a slot for each of its levels. -/
theorem Layout.le_slots {height : ℕ} (narrow : layout.sizeofPtr ≤ layout.sizeofInt) :
    height ≤ layout.slots height := by
  rw [slots, Nat.le_div_iff_mul_le layout.positive]
  have room := Nat.mul_le_mul_left (height - 1) narrow
  rw [Nat.mul_comm (height - 1) layout.sizeofInt] at room
  cases height with
  | zero => simp
  | succ height =>
    rw [Nat.succ_mul, Nat.add_comm]
    exact Nat.add_le_add_left room _

/-- Where it is wider, already `head_` lacks slots. -/
theorem Layout.slots_lt (wide : layout.sizeofInt < layout.sizeofPtr) :
    layout.slots kMaxHeight < kMaxHeight := by
  rw [slots, Nat.div_lt_iff_lt_mul layout.positive, kMaxHeight]
  omega

end Codelab.SkipList
