import Codelab.Theory.Machine
import Codelab.Theory.Ring
import Mathlib.Algebra.Group.Int.Defs
import Mathlib.Algebra.Group.Nat.Defs
import Mathlib.Data.Finset.Card
import Mathlib.Data.Finset.Range

/-! The LRU cache: two circular doubly linked lists threaded through the handles, an
index from keys to handles, and a reference count in every handle. Memory is explicit:
every access through a pointer is a `load` or a `store`, which fault on a null and on a
deleted handle. `new` numbers the handles it makes and never reuses a number. -/

namespace Codelab.LRUCache

/-- The objects of type `LRUHandle`: the heads `lru_` and `in_use_` inside the cache and
the handles. -/
inductive Addr
  | lru
  | inUse
  | handle (n : ℕ)
  deriving DecidableEq

/-- A pointer is `none` where it is null or has not been set. -/
structure LRUHandle (Value : Type*) where
  next : Option Addr
  prev : Option Addr
  value : Value
  key : Int
  ref : Int
  valid : Bool

/-- The largest `int`, of which type `ref` is. -/
def intMax : Int := 2 ^ 31 - 1

inductive Fault
  | null
  | deleted
  | notAllocated
  | unfinished
  | overflow
  deriving DecidableEq

/-- The hash table, which never holds a null. -/
structure LRUCacheIndex where
  index : Int → Option Addr

namespace LRUCacheIndex

def lookup (i : LRUCacheIndex) (key : Int) : Option Addr := i.index key

def insert (i : LRUCacheIndex) (key : Int) (handle : Addr) : LRUCacheIndex × Option Addr :=
  let oldHandle := i.lookup key
  let index := if oldHandle.isSome then Function.update i.index key none else i.index
  ({ index := Function.update index key (some handle) }, oldHandle)

def erase (i : LRUCacheIndex) (key : Int) : LRUCacheIndex × Option Addr :=
  let oldHandle := i.lookup key
  ({ index := Function.update i.index key none }, oldHandle)

end LRUCacheIndex

/-- `made` and `deleted` are the allocator's: how many handles `new` has made, and which
of them have been deleted. `pins` counts the Lookups of a handle that have not been
released; no step reads it. -/
structure State (Value : Type*) where
  memory : Addr → LRUHandle Value
  made : ℕ
  deleted : List ℕ
  usage : ℕ
  capacity : ℕ
  cacheIndex : LRUCacheIndex
  pins : ℕ → ℕ

/-- The constructor, in whatever memory. -/
def initial {Value : Type*} (memory : Addr → LRUHandle Value) (capacity : ℕ) : State Value where
  memory
    | .lru => { memory .lru with next := some .lru, prev := some .lru }
    | .inUse => { memory .inUse with next := some .inUse, prev := some .inUse }
    | .handle n => memory (.handle n)
  made := 0
  deleted := []
  usage := 0
  capacity := capacity
  cacheIndex := { index := fun _ => none }
  pins := fun _ => 0

inductive Action (Value : Type*)
  | insert (key : Int) (value : Value)
  | lookup (key : Int)
  | release (n : ℕ)
  | erase (key : Int)

namespace State

variable {Value : Type*} (s : State Value)

/-- The handles that have been made and not deleted. -/
def undeleted : Finset ℕ := {n ∈ Finset.range s.made | n ∉ s.deleted}

def alive : Addr → Bool
  | .lru => true
  | .inUse => true
  | .handle n => n ∈ s.undeleted

def load : Option Addr → Except Fault (LRUHandle Value)
  | none => .error .null
  | some a => if s.alive a then .ok (s.memory a) else .error .deleted

def modify (a : Addr) (change : LRUHandle Value → LRUHandle Value) : State Value :=
  { s with memory := Function.update s.memory a (change (s.memory a)) }

def store (e : Option Addr) (change : LRUHandle Value → LRUHandle Value) :
    Except Fault (State Value) :=
  match e with
  | none => .error .null
  | some a => if s.alive a then .ok (s.modify a change) else .error .deleted

/-- `new LRUHandle`, which sets no field. -/
def new : State Value :=
  { s.modify (.handle s.made) ({ · with next := none, prev := none }) with made := s.made + 1 }

def delete : Option Addr → Except Fault (State Value)
  | none => .ok s
  | some (.handle n) =>
      if n ∈ s.undeleted then .ok { s with deleted := n :: s.deleted } else .error .deleted
  | some _ => .error .notAllocated

def linkRemove (e : Option Addr) : Except Fault (State Value) := do
  let h ← s.load e
  let s ← s.store h.next ({ · with prev := h.prev })
  let h ← s.load e
  s.store h.prev ({ · with next := h.next })

def linkAppend (list e : Option Addr) : Except Fault (State Value) := do
  let s ← s.store e ({ · with next := list })
  let head ← s.load list
  let s ← s.store e ({ · with prev := head.prev })
  let h ← s.load e
  let s ← s.store h.prev ({ · with next := e })
  let h ← s.load e
  s.store h.next ({ · with prev := e })

def ref (e : Option Addr) : Except Fault (State Value) := do
  let h ← s.load e
  let s ←
    if h.ref = 1 ∧ h.valid then do
      let s ← s.linkRemove e
      s.linkAppend (some .inUse) e
    else pure s
  let h ← s.load e
  if h.ref = intMax then .error .overflow
  else s.store e fun h => { h with ref := h.ref + 1 }

def unref (e : Option Addr) : Except Fault (State Value) := do
  let s ← s.store e fun h => { h with ref := h.ref - 1 }
  let h ← s.load e
  if h.ref = 0 then
    delete { s with usage := s.usage - 1 } e
  else if h.valid ∧ h.ref = 1 then do
    let s ← s.linkRemove e
    s.linkAppend (some .lru) e
  else pure s

def removeFromLRU (e : Option Addr) : Except Fault (State Value × Bool) :=
  match e with
  | none => pure (s, false)
  | some _ => do
    let s ← s.linkRemove e
    let s ← s.store e ({ · with valid := false })
    let s ← s.unref e
    pure (s, true)

/-- The loop of `Insert`, for at most `rounds` tests of its condition. -/
def evict : ℕ → State Value → Except Fault (State Value)
  | 0, _ => .error .unfinished
  | rounds + 1, s =>
      if s.capacity ≤ s.usage ∧ (s.memory .lru).next ≠ some .lru then do
        let old ← s.load (s.memory .lru).next
        let (index, e) := s.cacheIndex.erase old.key
        let (s, _) ← { s with cacheIndex := index }.removeFromLRU e
        evict rounds s
      else pure s

/-- `Insert`, where `afterRelease` is what the `unique_ptr` `e` points to once it has
released the new handle. Each round of the loop frees one unit of `usage_`. -/
def insertVia (afterRelease : Addr → Option Addr) (key : Int) (value : Value) :
    Except Fault (State Value × Bool) := do
  let e := Addr.handle s.made
  let s ← s.new.store (some e) ({ · with value := value })
  let s ← s.store (some e) ({ · with key := key })
  let s ← evict (s.usage + 1) s
  if s.usage < s.capacity then do
    let s ← { s with usage := s.usage + 1 }.linkAppend (some .lru) (some e)
    let (index, oldHandle) := s.cacheIndex.insert key e
    let (s, _) ← { s with cacheIndex := index }.removeFromLRU oldHandle
    let s ← s.store (afterRelease e) ({ · with valid := true })
    let s ← s.store (afterRelease e) ({ · with ref := 1 })
    pure (s, true)
  else do
    let s ← s.delete (some e)
    pure (s, false)

/-- `Insert` with its last two stores going to the handle just inserted. -/
def insert (key : Int) (value : Value) : Except Fault (State Value × Bool) :=
  s.insertVia some key value

def lookup (key : Int) : Except Fault (State Value × Option Addr) :=
  match s.cacheIndex.lookup key with
  | none => pure (s, none)
  | some a => do
    let s ← s.ref (some a)
    pure (s, some a)

def release (handle : Option Addr) : Except Fault (State Value) := s.unref handle

def erase (key : Int) : Except Fault (State Value) := do
  let (index, e) := s.cacheIndex.erase key
  let (s, _) ← { s with cacheIndex := index }.removeFromLRU e
  pure s

/-- A Lookup has returned `e`. -/
def pin : Option Addr → State Value
  | some (.handle n) => { s with pins := Function.update s.pins n (s.pins n + 1) }
  | _ => s

/-- A Lookup of handle `n` has been released. -/
def unpin (n : ℕ) : State Value :=
  { s with pins := Function.update s.pins n (s.pins n - 1) }

def act : Action Value → Except Fault (State Value)
  | .insert key value => do
      let (s, _) ← s.insert key value
      pure s
  | .lookup key => do
      let (s, e) ← s.lookup key
      pure (s.pin e)
  | .release n => do
      let s ← s.release (some (.handle n))
      pure (s.unpin n)
  | .erase key => s.erase key

/-- Release is called on a handle got from Lookup, once for each Lookup. -/
def balanced : Action Value → Bool
  | .release n => 0 < s.pins n
  | _ => true

/-- A Lookup leaves the handle with 2^31 - 2 unreleased Lookups at most: `ref` counts these and the
index. -/
def bounded : Action Value → Bool
  | .lookup key =>
      match s.cacheIndex.lookup key with
      | some (.handle n) => s.pins n + 2 < 2 ^ 31
      | _ => true
  | _ => true

def proper (a : Action Value) : Bool := s.balanced a && s.bounded a

end State

def machine (Value : Type*) : Machine (State Value) (Action Value) where
  init s := s = initial s.memory s.capacity
  next s a := (s.act a).toOption

end Codelab.LRUCache
