import Codelab.Theory.Machine
import Mathlib.Data.BitVec
import Mathlib.Data.List.Basic

/-! The single-producer single-consumer ring of `circular_queue.h` (the file is
the same under `idea/` and `atomic/`, up to `MayEmpty` and `MayFull`).
`int` members are 32-bit words. Each load, slot access and store of `Push`,
`Pop`, `MayFull` and `MayEmpty` is one step; `spsc` interleaves one pushing and
one popping thread. -/

namespace Codelab

/-- `queue` is the storage behind `queue_`, indexed by `int`. -/
structure CircularQueue (α : Type*) where
  queue : BitVec 32 → α
  capacity : BitVec 32
  capacityMask : BitVec 32
  head : BitVec 32
  tail : BitVec 32

namespace CircularQueue

variable {α : Type*}

/-- `Init`, returning the object when it returns true. `storage` is the result of
`new (std::nothrow) T[capacity]`. -/
def init (q : CircularQueue α) (capacity : BitVec 32) (storage : Option (BitVec 32 → α)) :
    Option (CircularQueue α) :=
  if capacity &&& (capacity - 1) ≠ 0 then none
  else match storage with
    | none => none
    | some slots =>
      some { q with queue := slots, capacity := capacity, capacityMask := capacity - 1 }

/-- Where the producer stands inside `Push` or its own `MayFull`. -/
inductive PushPc (α : Type*) where
  | idle
  | loadTail (item : α)
  | loadHead (item : α) (currTail nextTail : BitVec 32)
  | write (item : α) (currTail nextTail : BitVec 32)
  | storeTail (item : α) (nextTail : BitVec 32)
  | done (result : Bool)
  | mayFullTail
  | mayFullHead (nextTail : BitVec 32)
  | mayFull (answer : Bool)

/-- Where the consumer stands inside `Pop` or its own `MayEmpty`. -/
inductive PopPc (α : Type*) where
  | idle
  | loadHead
  | loadTail (currHead : BitVec 32)
  | read (currHead : BitVec 32)
  | storeHead (currHead : BitVec 32) (item : α)
  | done (result : Bool)
  | mayEmptyHead
  | mayEmptyTail (currHead : BitVec 32)
  | mayEmpty (answer : Bool)

/-- No call in progress. -/
def PushPc.resting : PushPc α → Bool
  | .idle | .done _ | .mayFull _ => true
  | _ => false

def PopPc.resting : PopPc α → Bool
  | .idle | .done _ | .mayEmpty _ => true
  | _ => false

/-- The object, both threads, and two histories: the items whose `tail_` store
happened and the items handed out by pops whose `head_` store happened. -/
structure Spsc (α : Type*) where
  q : CircularQueue α
  producer : PushPc α
  consumer : PopPc α
  pushed : List α
  popped : List α

/-- Calls, and one atomic step of the call in progress on either side. -/
inductive Action (α : Type*) where
  | push (item : α)
  | askFull
  | producer
  | pop
  | askEmpty
  | consumer

namespace Spsc

def stepProducer (s : Spsc α) : Option (Spsc α) :=
  match s.producer with
  | .loadTail item =>
    some { s with producer := .loadHead item s.q.tail (s.q.capacityMask &&& (s.q.tail + 1)) }
  | .loadHead item currTail nextTail =>
    if nextTail ≠ s.q.head then some { s with producer := .write item currTail nextTail }
    else some { s with producer := .done false }
  | .write item currTail nextTail =>
    some { s with
      q := { s.q with queue := Function.update s.q.queue currTail item }
      producer := .storeTail item nextTail }
  | .storeTail item nextTail =>
    some { s with
      q := { s.q with tail := nextTail }
      producer := .done true
      pushed := s.pushed ++ [item] }
  | .mayFullTail =>
    some { s with producer := .mayFullHead ((s.q.tail + 1) &&& s.q.capacityMask) }
  | .mayFullHead nextTail =>
    some { s with producer := .mayFull (decide (nextTail = s.q.head)) }
  | .idle | .done _ | .mayFull _ => none

def stepConsumer (s : Spsc α) : Option (Spsc α) :=
  match s.consumer with
  | .loadHead => some { s with consumer := .loadTail s.q.head }
  | .loadTail currHead =>
    if currHead = s.q.tail then some { s with consumer := .done false }
    else some { s with consumer := .read currHead }
  | .read currHead => some { s with consumer := .storeHead currHead (s.q.queue currHead) }
  | .storeHead currHead item =>
    some { s with
      q := { s.q with head := (currHead + 1) &&& s.q.capacityMask }
      consumer := .done true
      popped := s.popped ++ [item] }
  | .mayEmptyHead => some { s with consumer := .mayEmptyTail s.q.head }
  | .mayEmptyTail currHead =>
    some { s with consumer := .mayEmpty (decide (currHead = s.q.tail)) }
  | .idle | .done _ | .mayEmpty _ => none

def next (s : Spsc α) : Action α → Option (Spsc α)
  | .push item => if s.producer.resting then some { s with producer := .loadTail item } else none
  | .askFull => if s.producer.resting then some { s with producer := .mayFullTail } else none
  | .producer => s.stepProducer
  | .pop => if s.consumer.resting then some { s with consumer := .loadHead } else none
  | .askEmpty => if s.consumer.resting then some { s with consumer := .mayEmptyHead } else none
  | .consumer => s.stepConsumer

/-- Items pushed and not yet popped. -/
def stored (s : Spsc α) : ℕ := s.pushed.length - s.popped.length

end Spsc

/-- All runs after a successful `Init(capacity)` of a fresh object. -/
def spsc (α : Type*) (capacity : BitVec 32) : Machine (Spsc α) (Action α) where
  init s := ∃ (fresh : CircularQueue α) (storage : BitVec 32 → α), fresh.head = 0 ∧ fresh.tail = 0 ∧
    fresh.init capacity (some storage) = some s.q ∧
    s.producer = .idle ∧ s.consumer = .idle ∧ s.pushed = [] ∧ s.popped = []
  next := Spsc.next

/-- `i` is an index of the storage allocated for `capacity` items. -/
def InBounds (capacity i : BitVec 32) : Prop := 0 ≤ i.toInt ∧ i.toInt < capacity.toInt

end CircularQueue
end Codelab
