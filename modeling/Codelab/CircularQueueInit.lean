import Codelab.CircularQueueSequential

/-! Which capacities `Init` accepts, and which of them the ring can use. The test by
`capacity & (capacity - 1)` lets zero through, whose mask has all bits set. -/

namespace Codelab.CircularQueue

variable {α : Type*} {capacity : BitVec 32}

inductive Call (α : Type*) where
  | push (item : α)
  | pop

inductive Answer (α : Type*) where
  | pushed (result : Bool)
  | popped (item : Option α)
  deriving DecidableEq

/-- The queue after a call, what the call returns and the index of `queue_` it accesses. -/
def call (q : CircularQueue α) : Call α → CircularQueue α × Answer α × Option (BitVec 32)
  | .push item => ((q.push item).1, .pushed (q.push item).2, q.pushSlot)
  | .pop => (q.pop.1, .popped q.pop.2, q.popSlot)

def calls (q : CircularQueue α) : List (Call α) → List (Answer α × Option (BitVec 32))
  | [] => []
  | c :: cs => (q.call c).2 :: (q.call c).1.calls cs

/-- A call on a FIFO queue of at most `bound` items. -/
def boundedCall (bound : Int) (l : List α) : Call α → List α × Answer α
  | .push item => if l.length < bound then (l ++ [item], .pushed true) else (l, .pushed false)
  | .pop => (l.tail, .popped l.head?)

def boundedCalls (bound : Int) (l : List α) : List (Call α) → List (Answer α)
  | [] => []
  | c :: cs => (boundedCall bound l c).2 :: boundedCalls bound (boundedCall bound l c).1 cs

/-- Calls access the array only, and answer like a queue of `capacity - 1` items. -/
def Usable (q : CircularQueue α) (capacity : BitVec 32) : Prop :=
  ∀ cs, (q.calls cs).map Prod.fst = boundedCalls (capacity.toInt - 1) [] cs ∧
    ∀ a ∈ q.calls cs, ∀ i, a.2 = some i → InBounds capacity i

/-- `new (std::nothrow) T[capacity]`, which fails for a negative number. -/
def newArray (capacity : BitVec 32) (slots : BitVec 32 → α) : Option (BitVec 32 → α) :=
  if 0 ≤ capacity.toInt then some slots else none

theorem init_eq {fresh q : CircularQueue α} {slots : BitVec 32 → α}
    (accepted : fresh.init capacity (newArray capacity slots) = some q) :
    capacity &&& (capacity - 1) = 0 ∧ 0 ≤ capacity.toInt ∧
      q = { fresh with queue := slots, capacity := capacity, capacityMask := capacity - 1 } := by
  unfold init at accepted
  split_ifs at accepted with bits
  rw [newArray] at accepted
  split_ifs at accepted with sign
  · exact ⟨not_not.mp bits, sign, (Option.some.inj accepted).symm⟩

theorem validCapacity (bits : capacity &&& (capacity - 1) = 0) (sign : 0 ≤ capacity.toInt)
    (nonzero : capacity ≠ 0) : ValidCapacity capacity := by
  have positive : capacity.toNat ≠ 0 := fun zero => nonzero (BitVec.eq_of_toNat_eq zero)
  have low : (capacity - 1).toNat = capacity.toNat - 1 := by bv_omega
  have values := congrArg BitVec.toNat bits
  rw [BitVec.toNat_and, low] at values
  refine ⟨?_, (Nat.and_sub_one_eq_zero_iff_isPowerOfTwo positive).mp values⟩
  refine sign.lt_of_ne fun zero => nonzero ?_
  exact BitVec.eq_of_toInt_eq zero.symm

/-- The ring at rest holds the items `l`. -/
structure Holds (capacity : BitVec 32) (s : Spsc α) (l : List α) : Prop where
  inv : SpscInv capacity.toNat s
  producer : s.producer.resting = true
  consumer : s.consumer.resting = true
  items : l = s.pushed.drop s.popped.length

theorem Holds.length {s : Spsc α} {l : List α} (h : Holds capacity s l) :
    s.popped.length + l.length = s.pushed.length := by
  have le := h.inv.delivered.length_le
  rw [h.items, List.length_drop]
  omega

theorem Holds.push (valid : ValidCapacity capacity) {s : Spsc α} {l : List α}
    (h : Holds capacity s l) (item : α) :
    .pushed (s.q.push item).2 = (boundedCall (capacity.toInt - 1) l (.push item)).2 ∧
      ∃ s', s'.q = (s.q.push item).1 ∧
        Holds capacity s' (boundedCall (capacity.toInt - 1) l (.push item)).1 := by
  obtain ⟨pos, small, toInt⟩ := valid.bounds
  have total := h.length
  have room := h.inv.room
  have full : s.q.nextTail = s.q.head ↔ ¬ (l.length : Int) < capacity.toInt - 1 := by
    rw [nextTail, BitVec.and_comm, h.inv.tail, slot_succ valid h.inv.mask, h.inv.full_iff valid,
      toInt]
    omega
  have inv := Machine.run_invariant (M := spsc α capacity) (SpscInv capacity.toNat)
    (fun _ _ _ inv next => inv.next valid next) h.inv (push_run h.producer item)
  by_cases free : (l.length : Int) < capacity.toInt - 1
  · have pushed : (s.q.push item).2 = true := by
      rw [CircularQueue.push, if_pos fun same => full.mp same free]
    rw [boundedCall, if_pos free]
    refine ⟨by rw [pushed], _, rfl, inv, rfl, h.consumer, ?_⟩
    simp only [pushed, if_true]
    rw [List.drop_append_of_le_length (by omega), ← h.items]
  · have refused : (s.q.push item).2 = false := by
      rw [CircularQueue.push, if_neg (not_not.mpr (full.mpr free))]
    rw [boundedCall, if_neg free]
    refine ⟨by rw [refused], _, rfl, inv, rfl, h.consumer, ?_⟩
    simp only [refused, Bool.false_eq_true, if_false]
    exact h.items

theorem Holds.pop (valid : ValidCapacity capacity) {s : Spsc α} {l : List α}
    (h : Holds capacity s l) (bound : Int) :
    .popped s.q.pop.2 = (boundedCall bound l .pop).2 ∧
      ∃ s', s'.q = s.q.pop.1 ∧ Holds capacity s' (boundedCall bound l .pop).1 := by
  have total := h.length
  have inv := Machine.run_invariant (M := spsc α capacity) (SpscInv capacity.toNat)
    (fun _ _ _ inv next => inv.next valid next) h.inv (pop_run h.consumer)
  by_cases empty : s.q.head = s.q.tail
  · have none : s.q.pop = (s.q, none) := if_pos empty
    have nil : l = [] := by
      rw [h.inv.empty_iff valid] at empty
      exact List.eq_nil_of_length_eq_zero (by omega)
    refine ⟨by rw [none, nil]; rfl, _, rfl, inv, h.producer, rfl, ?_⟩
    rw [none, boundedCall, nil]
    simpa [nil] using h.items
  · have item : s.q.pop = ({ s.q with head := (s.q.head + 1) &&& s.q.capacityMask },
        some (s.q.queue s.q.head)) := if_neg empty
    have some : s.popped.length < s.pushed.length := by
      rw [h.inv.empty_iff valid] at empty
      omega
    have oldest : l.head? = .some (s.q.queue s.q.head) := by
      rw [h.items, List.head?_drop, List.getElem?_eq_getElem some, h.inv.head,
        h.inv.held _ le_rfl some]
    refine ⟨by rw [item, boundedCall, oldest], _, rfl, inv, h.producer, rfl, ?_⟩
    rw [boundedCall, h.items, List.tail_drop, item]
    simp

theorem Holds.call (valid : ValidCapacity capacity) {s : Spsc α} {l : List α}
    (h : Holds capacity s l) (c : Call α) :
    (s.q.call c).2.1 = (boundedCall (capacity.toInt - 1) l c).2 ∧
      (∀ i, (s.q.call c).2.2 = some i → InBounds capacity i) ∧
      ∃ s', s'.q = (s.q.call c).1 ∧
        Holds capacity s' (boundedCall (capacity.toInt - 1) l c).1 := by
  cases c with
  | push item =>
    obtain ⟨answer, after⟩ := h.push valid item
    refine ⟨answer, fun i access => ?_, after⟩
    rw [CircularQueue.call, pushSlot] at access
    split_ifs at access
    rw [← Option.some.inj access, h.inv.tail]
    exact slot_inBounds valid _
  | pop =>
    obtain ⟨answer, after⟩ := h.pop valid (capacity.toInt - 1)
    refine ⟨answer, fun i access => ?_, after⟩
    rw [CircularQueue.call, popSlot] at access
    split_ifs at access
    rw [← Option.some.inj access, h.inv.head]
    exact slot_inBounds valid _

theorem Holds.calls (valid : ValidCapacity capacity) {s : Spsc α} {l : List α}
    (h : Holds capacity s l) (cs : List (Call α)) :
    (s.q.calls cs).map Prod.fst = boundedCalls (capacity.toInt - 1) l cs ∧
      ∀ a ∈ s.q.calls cs, ∀ i, a.2 = some i → InBounds capacity i := by
  induction cs generalizing s l with
  | nil => exact ⟨rfl, List.forall_mem_nil _⟩
  | cons c cs ih =>
    obtain ⟨answer, bounds, s', same, after⟩ := h.call valid c
    obtain ⟨answers, rest⟩ := ih after
    rw [same] at answers rest
    refine ⟨?_, List.forall_mem_cons.mpr ⟨bounds, rest⟩⟩
    rw [CircularQueue.calls, boundedCalls, List.map_cons, answer, answers]

/-- A capacity that `Init` accepts makes a usable ring if and only if it is not zero. -/
theorem init_usable_iff [Nonempty α] {fresh q : CircularQueue α} {slots : BitVec 32 → α}
    (head : fresh.head = 0) (tail : fresh.tail = 0)
    (accepted : fresh.init capacity (newArray capacity slots) = some q) :
    q.Usable capacity ↔ capacity ≠ 0 := by
  obtain ⟨bits, sign, rfl⟩ := init_eq accepted
  constructor
  · rintro usable rfl
    obtain ⟨item⟩ := ‹Nonempty α›
    have accesses := (usable [.push item]).2 _ (List.mem_singleton_self _) 0
    have slot : ({ fresh with queue := slots, capacity := 0, capacityMask := 0 - 1 } :
        CircularQueue α).pushSlot = some 0 := by
      rw [pushSlot, nextTail, head, tail]
      exact if_pos (show (0 - 1 : BitVec 32) &&& (0 + 1) ≠ 0 by decide)
    exact absurd (accesses slot).2 (by decide)
  · intro nonzero
    have valid := validCapacity bits sign nonzero
    have start : (spsc α capacity).init ⟨{ fresh with
        queue := slots, capacity := capacity, capacityMask := capacity - 1 },
        .idle, .idle, [], []⟩ :=
      ⟨fresh, slots, head, tail, by simpa only [newArray, if_pos sign] using accepted, rfl, rfl,
        rfl, rfl⟩
    have holds : Holds capacity _ [] := ⟨spsc_init valid start, rfl, rfl, rfl⟩
    exact fun cs => holds.calls valid cs

/-- A ring of four slots. -/
theorem init_usable_four : Usable (⟨fun _ => 0, 4, 3, 0, 0⟩ : CircularQueue ℕ) 4 := by
  have accepted : (⟨fun _ => 0, 0, 0, 0, 0⟩ : CircularQueue ℕ).init 4 (newArray 4 fun _ => 0) =
      some ⟨fun _ => 0, 4, 3, 0, 0⟩ := rfl
  exact (init_usable_iff (by rfl) (by rfl) accepted).mpr (by decide)

/-- `Init(0)` returns true, and the first `Push` writes to `queue_[0]`. -/
theorem init_zero : ¬ ∀ (capacity : BitVec 32) (fresh q : CircularQueue ℕ)
    (slots : BitVec 32 → ℕ), fresh.head = 0 → fresh.tail = 0 →
      fresh.init capacity (newArray capacity slots) = some q → q.Usable capacity := by
  intro usable
  have zero := usable 0 ⟨fun _ => 0, 0, 0, 0, 0⟩ ⟨fun _ => 0, 0, -1, 0, 0⟩ (fun _ => 0) rfl rfl rfl
  have accesses := (zero [.push 7]).2 (.pushed true, some 0) (List.mem_singleton_self _) 0 rfl
  exact absurd accesses.2 (by decide)

end Codelab.CircularQueue
