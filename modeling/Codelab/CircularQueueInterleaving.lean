import Codelab.CircularQueue
import Mathlib.Data.Nat.ModEq
import Mathlib.Tactic.IntervalCases

/-! One producer and one consumer under any interleaving. The `i`-th item pushed
lives in slot `i % capacity`; the invariant keeps the window of stored items
shorter than the capacity, so neither side can meet the other's slot. -/

namespace Codelab.CircularQueue

variable {α : Type*} {n : ℕ} {capacity : BitVec 32}

/-- A positive power of two. -/
structure ValidCapacity (capacity : BitVec 32) : Prop where
  pos : 0 < capacity.toInt
  pow : ∃ k, capacity.toNat = 2 ^ k

theorem ValidCapacity.bounds (h : ValidCapacity capacity) :
    0 < capacity.toNat ∧ capacity.toNat < 2 ^ 31 ∧ capacity.toInt = capacity.toNat := by
  have pos := h.pos
  have small := capacity.isLt
  rw [BitVec.toInt_eq_toNat_cond] at pos ⊢
  split_ifs at pos ⊢ <;> omega

theorem ValidCapacity.mask_toNat (h : ValidCapacity capacity) :
    (capacity - 1).toNat = capacity.toNat - 1 := by
  have := h.bounds
  bv_omega

theorem ValidCapacity.accepted (h : ValidCapacity capacity) (q : CircularQueue α)
    (slots : BitVec 32 → α) : (q.init capacity (some slots)).isSome := by
  obtain ⟨k, hk⟩ := h.pow
  have zero : capacity &&& (capacity - 1) = 0 := by
    apply BitVec.eq_of_toNat_eq
    rw [BitVec.toNat_and, h.mask_toNat, hk, Nat.and_two_pow_sub_one_eq_mod, Nat.mod_self]
    rfl
  rw [init, if_neg (not_not.mpr zero)]
  rfl

/-- The slot of the `i`-th item. -/
def slot (n i : ℕ) : BitVec 32 := BitVec.ofNat 32 (i % n)

theorem slot_toNat (pos : 0 < n) (small : n < 2 ^ 31) (i : ℕ) : (slot n i).toNat = i % n := by
  have := Nat.mod_lt i pos
  rw [slot, BitVec.toNat_ofNat, Nat.mod_eq_of_lt]
  omega

theorem slot_inBounds (h : ValidCapacity capacity) (i : ℕ) :
    InBounds capacity (slot capacity.toNat i) := by
  obtain ⟨pos, small, toInt⟩ := h.bounds
  have val := slot_toNat pos small i
  have lt := Nat.mod_lt i pos
  rw [InBounds, toInt, BitVec.toInt_eq_toNat_of_lt (by omega), val]
  omega

/-- Two items less than a full turn apart share a slot only if they are the same,
and two items exactly one turn apart always do. -/
theorem slot_eq_iff (pos : 0 < n) (small : n < 2 ^ 31) {i j : ℕ} (le : i ≤ j) (near : j ≤ i + n) :
    slot n i = slot n j ↔ j = i ∨ j = i + n := by
  have values : slot n i = slot n j ↔ i % n = j % n := by
    rw [← BitVec.toNat_inj, slot_toNat pos small, slot_toNat pos small]
  rw [values]
  constructor
  · intro same
    obtain ⟨c, hc⟩ := (Nat.modEq_iff_dvd' le).mp same
    rcases Nat.lt_or_ge c 2 with hlt | hge
    · interval_cases c <;> omega
    · have := Nat.mul_le_mul_left n hge
      omega
  · rintro (rfl | rfl) <;> simp

/-- The masked increment of the source is the slot of the next item. -/
theorem slot_succ (h : ValidCapacity capacity) {mask : BitVec 32}
    (hmask : mask.toNat + 1 = capacity.toNat) (i : ℕ) :
    (slot capacity.toNat i + 1) &&& mask = slot capacity.toNat (i + 1) := by
  obtain ⟨pos, small, -⟩ := h.bounds
  obtain ⟨k, hk⟩ := h.pow
  have lt := Nat.mod_lt i pos
  apply BitVec.eq_of_toNat_eq
  have sum : (slot capacity.toNat i + 1).toNat = i % capacity.toNat + 1 := by
    have val := slot_toNat pos small i
    bv_omega
  have maskVal : mask.toNat = 2 ^ k - 1 := by omega
  rw [BitVec.toNat_and, sum, maskVal, Nat.and_two_pow_sub_one_eq_mod, ← hk,
    slot_toNat pos small, Nat.mod_add_mod]

/-- What the producer's local variables mean at each point of its call. -/
def ProducerOk (n : ℕ) (s : Spsc α) : Prop :=
  match s.producer with
  | .loadHead _ currTail nextTail =>
    currTail = s.q.tail ∧ nextTail = slot n (s.pushed.length + 1)
  | .write _ currTail nextTail =>
    currTail = s.q.tail ∧ nextTail = slot n (s.pushed.length + 1) ∧
      s.pushed.length + 1 < s.popped.length + n
  | .storeTail item nextTail =>
    nextTail = slot n (s.pushed.length + 1) ∧
      s.pushed.length + 1 < s.popped.length + n ∧ s.q.queue s.q.tail = item
  | .mayFullHead nextTail => nextTail = slot n (s.pushed.length + 1)
  | .mayFull answer => answer = false → s.pushed.length + 1 < s.popped.length + n
  | .idle | .loadTail _ | .done _ | .mayFullTail => True

/-- What the consumer's local variables mean at each point of its call. -/
def ConsumerOk (s : Spsc α) : Prop :=
  match s.consumer with
  | .loadTail currHead | .mayEmptyTail currHead => currHead = s.q.head
  | .read currHead => currHead = s.q.head ∧ s.popped.length < s.pushed.length
  | .storeHead currHead item =>
    currHead = s.q.head ∧ s.pushed[s.popped.length]? = some item
  | .mayEmpty answer => answer = false → s.popped.length < s.pushed.length
  | .idle | .loadHead | .done _ | .mayEmptyHead => True

structure SpscInv (n : ℕ) (s : Spsc α) : Prop where
  mask : s.q.capacityMask.toNat + 1 = n
  tail : s.q.tail = slot n s.pushed.length
  head : s.q.head = slot n s.popped.length
  delivered : s.popped <+: s.pushed
  room : s.pushed.length < s.popped.length + n
  held : ∀ i, s.popped.length ≤ i → ∀ hi : i < s.pushed.length,
    s.q.queue (slot n i) = s.pushed[i]
  producer : ProducerOk n s
  consumer : ConsumerOk s

theorem spsc_init (h : ValidCapacity capacity) {s : Spsc α}
    (hs : (spsc α capacity).init s) : SpscInv capacity.toNat s := by
  obtain ⟨fresh, storage, head, tail, ready, producer, consumer, pushed, popped⟩ := hs
  obtain ⟨pos, small, -⟩ := h.bounds
  have accepted := h.accepted fresh storage
  unfold init at ready accepted
  split_ifs at ready with bad
  injection ready with ready
  refine ⟨?_, ?_, ?_, ?_, ?_, ?_, ?_, ?_⟩
  · rw [← ready]
    simp only [h.mask_toNat]
    omega
  · rw [← ready, pushed]
    simp [slot, tail]
  · rw [← ready, popped]
    simp [slot, head]
  · rw [popped]
    exact List.nil_prefix
  · simp [pushed, popped, pos]
  · intro i _ hi
    simp [pushed] at hi
  · simp [ProducerOk, producer]
  · simp [ConsumerOk, consumer]

/-- A producer step that leaves the object and the histories alone. -/
theorem SpscInv.setProducer {s : Spsc α} (inv : SpscInv n s) {pc : PushPc α}
    (ok : ProducerOk n { s with producer := pc }) : SpscInv n { s with producer := pc } :=
  { inv with producer := ok, consumer := inv.consumer }

theorem SpscInv.setConsumer {s : Spsc α} (inv : SpscInv n s) {pc : PopPc α}
    (ok : ConsumerOk { s with consumer := pc }) : SpscInv n { s with consumer := pc } :=
  { inv with producer := inv.producer, consumer := ok }

/-- `head_` seen equal to the next tail means full, seen different means room. -/
theorem SpscInv.full_iff (h : ValidCapacity capacity) {s : Spsc α}
    (inv : SpscInv capacity.toNat s) :
    slot capacity.toNat (s.pushed.length + 1) = s.q.head ↔
      s.pushed.length + 1 = s.popped.length + capacity.toNat := by
  obtain ⟨pos, small, -⟩ := h.bounds
  have le := inv.delivered.length_le
  have room := inv.room
  rw [inv.head, eq_comm, slot_eq_iff pos small (by omega) (by omega)]
  omega

theorem SpscInv.empty_iff (h : ValidCapacity capacity) {s : Spsc α}
    (inv : SpscInv capacity.toNat s) :
    s.q.head = s.q.tail ↔ s.popped.length = s.pushed.length := by
  obtain ⟨pos, small, -⟩ := h.bounds
  have le := inv.delivered.length_le
  have room := inv.room
  rw [inv.head, inv.tail, slot_eq_iff pos small le (by omega)]
  omega

/-- Writing the slot after the window keeps every stored item. -/
theorem SpscInv.write (h : ValidCapacity capacity) {s : Spsc α}
    (inv : SpscInv capacity.toNat s) {item : α} {nextTail : BitVec 32}
    (pc : s.producer = .write item s.q.tail nextTail) :
    SpscInv capacity.toNat { s with
      q := { s.q with queue := Function.update s.q.queue s.q.tail item }
      producer := .storeTail item nextTail } := by
  obtain ⟨pos, small, -⟩ := h.bounds
  have ok := inv.producer
  simp only [ProducerOk, pc] at ok
  refine ⟨inv.mask, inv.tail, inv.head, inv.delivered, inv.room, ?_, ?_, inv.consumer⟩
  · intro i (low : s.popped.length ≤ i) (hi : i < s.pushed.length)
    change Function.update s.q.queue s.q.tail item (slot capacity.toNat i) = s.pushed[i]
    have other : slot capacity.toNat i ≠ s.q.tail := by
      have room := inv.room
      rw [inv.tail, Ne, slot_eq_iff pos small hi.le (by omega)]
      omega
    rw [Function.update_of_ne other]
    exact inv.held i low hi
  · exact ⟨ok.2.1, ok.2.2, Function.update_self ..⟩

/-- Publishing `tail_` turns the written slot into the newest stored item. -/
theorem SpscInv.storeTail {s : Spsc α} (inv : SpscInv n s) {item : α} {nextTail : BitVec 32}
    (pc : s.producer = .storeTail item nextTail) :
    SpscInv n { s with
      q := { s.q with tail := nextTail }
      producer := .done true
      pushed := s.pushed ++ [item] } := by
  have ok := inv.producer
  simp only [ProducerOk, pc] at ok
  obtain ⟨next, room, written⟩ := ok
  have le := inv.delivered.length_le
  refine ⟨inv.mask, ?_, inv.head, inv.delivered.trans (List.prefix_append _ _), ?_, ?_, trivial, ?_⟩
  · simpa using next
  · simpa using room
  · intro i low hi
    rw [List.length_append, List.length_singleton] at hi
    by_cases last : i = s.pushed.length
    · subst last
      simpa [← inv.tail] using written
    · have hi' : i < s.pushed.length := by omega
      simpa [List.getElem_append_left hi'] using inv.held i low hi'
  · have ok := inv.consumer
    revert ok
    simp only [ConsumerOk]
    cases s.consumer with
    | read currHead => exact fun ok => ⟨ok.1, by simpa using ok.2.le.trans_lt (Nat.lt_succ_self _)⟩
    | storeHead currHead popping =>
      intro ok
      have lt := (List.getElem?_eq_some_iff.mp ok.2).1
      exact ⟨ok.1, by rw [List.getElem?_append_left lt]; exact ok.2⟩
    | mayEmpty answer =>
      exact fun ok no => by simpa using (ok no).le.trans_lt (Nat.lt_succ_self _)
    | _ => exact id

/-- Publishing `head_` hands the oldest stored item over and frees its slot. -/
theorem SpscInv.storeHead (h : ValidCapacity capacity) {s : Spsc α}
    (inv : SpscInv capacity.toNat s) {currHead : BitVec 32} {item : α}
    (pc : s.consumer = .storeHead currHead item) :
    SpscInv capacity.toNat { s with
      q := { s.q with head := (currHead + 1) &&& s.q.capacityMask }
      consumer := .done true
      popped := s.popped ++ [item] } := by
  have ok := inv.consumer
  simp only [ConsumerOk, pc] at ok
  obtain ⟨headEq, oldest⟩ := ok
  obtain ⟨lt, itemEq⟩ := List.getElem?_eq_some_iff.mp oldest
  have room := inv.room
  refine ⟨inv.mask, inv.tail, ?_, ?_, ?_, ?_, ?_, trivial⟩
  · rw [headEq, inv.head, slot_succ h inv.mask]
    simp
  · rw [List.prefix_iff_eq_take.mp inv.delivered, ← itemEq]
    simpa using List.take_prefix (s.popped.length + 1) s.pushed
  · simp only [List.length_append, List.length_singleton]
    omega
  · intro i low hi
    rw [List.length_append, List.length_singleton] at low
    exact inv.held i (by omega) hi
  · have ok := inv.producer
    revert ok
    simp only [ProducerOk, List.length_append, List.length_singleton]
    cases s.producer with
    | write item currTail nextTail => exact fun ok => ⟨ok.1, ok.2.1, by omega⟩
    | storeTail item nextTail => exact fun ok => ⟨ok.1, by omega, ok.2.2⟩
    | mayFull answer => exact fun ok no => by have := ok no; omega
    | _ => exact id

theorem SpscInv.stepProducer (h : ValidCapacity capacity) {s s' : Spsc α}
    (inv : SpscInv capacity.toNat s) (hs : s.stepProducer = some s') :
    SpscInv capacity.toNat s' := by
  have ok := inv.producer
  have full := inv.full_iff h
  have room := inv.room
  cases pc : s.producer <;> simp only [Spsc.stepProducer, pc] at hs <;>
    simp only [ProducerOk, pc] at ok
  case loadTail =>
    obtain rfl := Option.some.inj hs
    refine inv.setProducer ⟨rfl, ?_⟩
    rw [BitVec.and_comm, inv.tail, slot_succ h inv.mask]
  case loadHead =>
    obtain ⟨rfl, rfl⟩ := ok
    split_ifs at hs with differ
    · obtain rfl := Option.some.inj hs
      refine inv.setProducer ⟨rfl, rfl, ?_⟩
      rw [Ne, full] at differ
      simp only
      omega
    · obtain rfl := Option.some.inj hs
      exact inv.setProducer trivial
  case write =>
    obtain ⟨rfl, -⟩ := ok
    obtain rfl := Option.some.inj hs
    exact inv.write h pc
  case storeTail =>
    obtain rfl := Option.some.inj hs
    exact inv.storeTail pc
  case mayFullTail =>
    obtain rfl := Option.some.inj hs
    refine inv.setProducer ?_
    simp only [ProducerOk, inv.tail, slot_succ h inv.mask]
  case mayFullHead =>
    obtain rfl := Option.some.inj hs
    refine inv.setProducer fun no => ?_
    rw [decide_eq_false_iff_not, ok, full] at no
    simp only
    omega
  all_goals cases hs

theorem SpscInv.stepConsumer (h : ValidCapacity capacity) {s s' : Spsc α}
    (inv : SpscInv capacity.toNat s) (hs : s.stepConsumer = some s') :
    SpscInv capacity.toNat s' := by
  have ok := inv.consumer
  have empty := inv.empty_iff h
  have le := inv.delivered.length_le
  cases pc : s.consumer <;> simp only [Spsc.stepConsumer, pc] at hs <;>
    simp only [ConsumerOk, pc] at ok
  case loadHead =>
    obtain rfl := Option.some.inj hs
    exact inv.setConsumer rfl
  case loadTail =>
    subst ok
    split_ifs at hs with same
    · obtain rfl := Option.some.inj hs
      exact inv.setConsumer trivial
    · obtain rfl := Option.some.inj hs
      refine inv.setConsumer ⟨rfl, ?_⟩
      rw [empty] at same
      simp only
      omega
  case read =>
    obtain ⟨rfl, lt⟩ := ok
    obtain rfl := Option.some.inj hs
    refine inv.setConsumer ⟨rfl, ?_⟩
    rw [inv.head, inv.held _ (Nat.le_refl _) lt]
    exact List.getElem?_eq_getElem lt
  case storeHead =>
    obtain rfl := Option.some.inj hs
    exact inv.storeHead h pc
  case mayEmptyHead =>
    obtain rfl := Option.some.inj hs
    exact inv.setConsumer rfl
  case mayEmptyTail =>
    obtain rfl := Option.some.inj hs
    refine inv.setConsumer fun no => ?_
    rw [decide_eq_false_iff_not, ok, empty] at no
    simp only
    omega
  all_goals cases hs

theorem SpscInv.next (h : ValidCapacity capacity) {s s' : Spsc α} {a : Action α}
    (inv : SpscInv capacity.toNat s) (hs : s.next a = some s') : SpscInv capacity.toNat s' := by
  cases a with
  | producer => exact inv.stepProducer h hs
  | consumer => exact inv.stepConsumer h hs
  | push item | askFull =>
    simp only [Spsc.next] at hs
    split_ifs at hs
    obtain rfl := Option.some.inj hs
    exact inv.setProducer trivial
  | pop | askEmpty =>
    simp only [Spsc.next] at hs
    split_ifs at hs
    obtain rfl := Option.some.inj hs
    exact inv.setConsumer trivial

/-- The slot the producer is accessing. -/
def PushPc.slotAccessed : PushPc α → Option (BitVec 32)
  | .write _ currTail _ => some currTail
  | _ => none

/-- The slot the consumer is accessing. -/
def PopPc.slotAccessed : PopPc α → Option (BitVec 32)
  | .read currHead => some currHead
  | _ => none

/-- A push is refused only by its load of `head_`, and only on a full ring. -/
theorem SpscInv.refused_push (h : ValidCapacity capacity) {s s' : Spsc α}
    (inv : SpscInv capacity.toNat s) (hs : s.next .producer = some s')
    (refused : s'.producer = .done false) :
    (∃ item currTail nextTail, s.producer = .loadHead item currTail nextTail) ∧
      s.stored = capacity.toNat - 1 := by
  have ok := inv.producer
  have full := inv.full_iff h
  cases pc : s.producer <;> simp only [Spsc.next, Spsc.stepProducer, pc] at hs <;>
    simp only [ProducerOk, pc] at ok
  case loadHead item currTail nextTail =>
    split_ifs at hs with differ
    · obtain rfl := Option.some.inj hs
      cases refused
    · rw [not_not, ok.2, full] at differ
      refine ⟨⟨item, currTail, nextTail, rfl⟩, ?_⟩
      unfold Spsc.stored
      omega
  all_goals simp only [Option.some.injEq, reduceCtorEq] at hs
  all_goals subst hs; cases refused

/-- A pop is refused only by its load of `tail_`, and only on an empty ring. -/
theorem SpscInv.refused_pop (h : ValidCapacity capacity) {s s' : Spsc α}
    (inv : SpscInv capacity.toNat s) (hs : s.next .consumer = some s')
    (refused : s'.consumer = .done false) :
    (∃ currHead, s.consumer = .loadTail currHead) ∧ s.stored = 0 := by
  have ok := inv.consumer
  have empty := inv.empty_iff h
  cases pc : s.consumer <;> simp only [Spsc.next, Spsc.stepConsumer, pc] at hs <;>
    simp only [ConsumerOk, pc] at ok
  case loadTail currHead =>
    split_ifs at hs with same
    · rw [ok, empty] at same
      refine ⟨⟨currHead, rfl⟩, ?_⟩
      unfold Spsc.stored
      omega
    · obtain rfl := Option.some.inj hs
      cases refused
  all_goals simp only [Option.some.injEq, reduceCtorEq] at hs
  all_goals subst hs; cases refused

end Codelab.CircularQueue
