import Codelab.CircularQueueInterleaving

/-! Calls that nothing interrupts. Each function of the source as a whole, with the index it
accesses, and the same call as a run of the machine. -/

namespace Codelab.CircularQueue

variable {α : Type*} {capacity : BitVec 32} {s : Spsc α}

section calls

variable (q : CircularQueue α)

def nextTail : BitVec 32 := q.capacityMask &&& (q.tail + 1)

def push (item : α) : CircularQueue α × Bool :=
  if q.nextTail ≠ q.head then
    ({ q with queue := Function.update q.queue q.tail item, tail := q.nextTail }, true)
  else (q, false)

/-- `Pop`, which returns true with an item and false without. -/
def pop : CircularQueue α × Option α :=
  if q.head = q.tail then (q, none)
  else ({ q with head := (q.head + 1) &&& q.capacityMask }, some (q.queue q.head))

def mayEmpty : Bool := decide (q.head = q.tail)

def mayFull : Bool := decide ((q.tail + 1) &&& q.capacityMask = q.head)

def pushSlot : Option (BitVec 32) := if q.nextTail ≠ q.head then some q.tail else none

def popSlot : Option (BitVec 32) := if q.head = q.tail then none else some q.head

/-- `MayFull` computes the next tail with the operands the other way round. -/
theorem push_succeeds (item : α) : (q.push item).2 = !q.mayFull := by
  rw [push, mayFull, BitVec.and_comm, ← nextTail]
  by_cases full : q.nextTail = q.head
  · rw [if_neg (not_not.mpr full), decide_eq_true full]
    rfl
  · rw [if_pos full, decide_eq_false full]
    rfl

theorem pop_succeeds : q.pop.2.isSome = !q.mayEmpty := by
  rw [pop, mayEmpty]
  by_cases empty : q.head = q.tail
  · rw [if_pos empty, decide_eq_true empty]
    rfl
  · rw [if_neg empty, decide_eq_false empty]
    rfl

end calls

theorem push_run (ready : s.producer.resting = true) (item : α) :
    (spsc α capacity).run s
        (.push item :: List.replicate (if (s.q.push item).2 then 4 else 2) .producer) =
      some { s with
        q := (s.q.push item).1
        producer := .done (s.q.push item).2
        pushed := if (s.q.push item).2 then s.pushed ++ [item] else s.pushed } := by
  by_cases full : s.q.nextTail = s.q.head
  · have refused : s.q.push item = (s.q, false) := if_neg (not_not.mpr full)
    simp only [nextTail, BitVec.ofNat_eq_ofNat] at full
    simp [refused, Machine.run, spsc, Spsc.next, Spsc.stepProducer, ready, full,
      List.replicate_succ]
  · have pushed : s.q.push item = ({ s.q with
        queue := Function.update s.q.queue s.q.tail item, tail := s.q.nextTail }, true) :=
      if_pos full
    simp only [nextTail, BitVec.ofNat_eq_ofNat] at full
    simp [pushed, Machine.run, spsc, Spsc.next, Spsc.stepProducer, ready, full,
      List.replicate_succ, nextTail]

/-- Where `Push` stands when it accesses a slot, if it does. -/
theorem push_slot (ready : s.producer.resting = true) (item : α) :
    ((spsc α capacity).run s [.push item, .producer, .producer]).map
      (fun s => s.producer.slotAccessed) = some s.q.pushSlot := by
  by_cases full : s.q.nextTail = s.q.head
  · rw [pushSlot, if_neg (not_not.mpr full)]
    simp only [nextTail, BitVec.ofNat_eq_ofNat] at full
    simp [Machine.run, spsc, Spsc.next, Spsc.stepProducer, ready, full, PushPc.slotAccessed]
  · rw [pushSlot, if_pos full]
    simp only [nextTail, BitVec.ofNat_eq_ofNat] at full
    simp [Machine.run, spsc, Spsc.next, Spsc.stepProducer, ready, full, PushPc.slotAccessed]

theorem pop_run (ready : s.consumer.resting = true) :
    (spsc α capacity).run s
        (.pop :: List.replicate (if s.q.pop.2.isSome then 4 else 2) .consumer) =
      some { s with
        q := s.q.pop.1
        consumer := .done s.q.pop.2.isSome
        popped := s.popped ++ s.q.pop.2.toList } := by
  by_cases empty : s.q.head = s.q.tail
  · have refused : s.q.pop = (s.q, none) := if_pos empty
    simp [refused, Machine.run, spsc, Spsc.next, Spsc.stepConsumer, ready, empty,
      List.replicate_succ]
  · have popped : s.q.pop = ({ s.q with head := (s.q.head + 1) &&& s.q.capacityMask },
        some (s.q.queue s.q.head)) := if_neg empty
    simp [popped, Machine.run, spsc, Spsc.next, Spsc.stepConsumer, ready, empty,
      List.replicate_succ]

theorem pop_slot (ready : s.consumer.resting = true) :
    ((spsc α capacity).run s [.pop, .consumer, .consumer]).map
      (fun s => s.consumer.slotAccessed) = some s.q.popSlot := by
  by_cases empty : s.q.head = s.q.tail
  · rw [popSlot, if_pos empty]
    simp [Machine.run, spsc, Spsc.next, Spsc.stepConsumer, ready, empty, PopPc.slotAccessed]
  · rw [popSlot, if_neg empty]
    simp [Machine.run, spsc, Spsc.next, Spsc.stepConsumer, ready, empty, PopPc.slotAccessed]

theorem mayFull_run (ready : s.producer.resting = true) :
    (spsc α capacity).run s [.askFull, .producer, .producer] =
      some { s with producer := .mayFull s.q.mayFull } := by
  simp [Machine.run, spsc, Spsc.next, Spsc.stepProducer, ready, mayFull]

theorem mayEmpty_run (ready : s.consumer.resting = true) :
    (spsc α capacity).run s [.askEmpty, .consumer, .consumer] =
      some { s with consumer := .mayEmpty s.q.mayEmpty } := by
  simp [Machine.run, spsc, Spsc.next, Spsc.stepConsumer, ready, mayEmpty]

end Codelab.CircularQueue
