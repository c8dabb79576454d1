import Codelab.CircularQueueOrders

/-! The threads of the ring under the memory orders of the file: items come out in their order,
though each thread works with what it knows of the other. -/

namespace Codelab.CircularQueue

open ReleaseAcquire

variable {α : Type*} {n i : ℕ} {m' : RingMemory α}

/-- A slot is written and `tail_` not yet stored. -/
def PushPc.wrote : PushPc α → ℕ
  | .storeTail .. => 1
  | _ => 0

def PopPc.took : PopPc α → ℕ
  | .storeHead .. => 1
  | _ => 0

/-- What the producer's local variables mean; it counts with the pops that it knows of. -/
def Weak.ProducerOk (n : ℕ) (s : Weak α) : Prop :=
  match s.producer with
  | .loadHead _ currTail nextTail =>
    currTail = slot n s.pushed.length ∧ nextTail = slot n (s.pushed.length + 1)
  | .write _ currTail nextTail =>
    currTail = slot n s.pushed.length ∧ nextTail = slot n (s.pushed.length + 1) ∧
      s.pushed.length + 1 < (s.memory.known .producer).view .head + n
  | .storeTail item nextTail =>
    nextTail = slot n (s.pushed.length + 1) ∧
      (s.memory.plain (slot n s.pushed.length)).value = item
  | .mayFullHead nextTail => nextTail = slot n (s.pushed.length + 1)
  | .idle | .loadTail _ | .done _ | .mayFullTail | .mayFull _ => True

/-- The consumer counts with the pushes that it knows of. -/
def Weak.ConsumerOk (n : ℕ) (s : Weak α) : Prop :=
  match s.consumer with
  | .loadTail currHead | .mayEmptyTail currHead => currHead = slot n s.popped.length
  | .read currHead =>
    currHead = slot n s.popped.length ∧
      s.popped.length < (s.memory.known .consumer).view .tail
  | .storeHead currHead item =>
    currHead = slot n s.popped.length ∧ s.pushed[s.popped.length]? = some item
  | .idle | .loadHead | .done _ | .mayEmptyHead | .mayEmpty _ => True

structure WeakInv (n : ℕ) (s : Weak α) : Prop where
  mask : s.capacityMask.toNat + 1 = n
  ring : Ring n s.memory s.pushed s.popped (s.pushed.length + s.producer.wrote)
    (s.popped.length + s.consumer.took)
  producer : s.ProducerOk n
  consumer : s.ConsumerOk n

variable {capacity : BitVec 32} {s s' : Weak α}

theorem ring_initial (pos : 0 < n) (storage : BitVec 32 → α) :
    Ring n (ringMemory storage) [] [] 0 0 where
  tails := rfl
  heads := rfl
  tail j message there := by
    obtain ⟨inside, rfl⟩ := List.getElem?_eq_some_iff.mp there
    obtain rfl : j = 0 := Nat.lt_one_iff.mp inside
    exact ⟨by simp [slot, ringMemory], Nat.le_refl 0, Nat.le_refl 0⟩
  head j message there := by
    obtain ⟨inside, rfl⟩ := List.getElem?_eq_some_iff.mp there
    obtain rfl : j = 0 := Nat.lt_one_iff.mp inside
    exact ⟨by simp [slot, ringMemory], Nat.le_refl 0, Nat.le_refl 0⟩
  sound := by
    refine ⟨fun t => sound_empty, fun a message mem => ?_⟩
    rw [List.mem_singleton.mp mem]
    exact sound_empty
  ownTail := rfl
  ownHead := rfl
  ownWrites := rfl
  ownReads := rfl
  writes _ := ⟨rfl, Nat.le_refl 0⟩
  reads _ := ⟨rfl, .inl rfl⟩
  held j _ no := absurd no (Nat.not_lt_zero j)
  delivered := List.nil_prefix
  taken := Nat.le_refl 0
  room := by
    rw [show ((ringMemory storage).known .producer).view .head = 0 from rfl]
    omega

theorem weakInv_init {o : Orders} (h : ValidCapacity capacity)
    (start : (weak o α capacity).init s) :
    WeakInv capacity.toNat s := by
  obtain ⟨fresh, q, storage, ready, mask, memory, producer, consumer, pushed, popped⟩ := start
  obtain ⟨pos, small, -⟩ := h.bounds
  have accepted := h.accepted fresh storage
  unfold init at ready accepted
  split_ifs at ready with bad
  injection ready with ready
  refine ⟨?_, ?_, ?_, ?_⟩
  · rw [mask, ← ready, h.mask_toNat]
    omega
  · rw [memory, producer, consumer, pushed, popped]
    exact ring_initial pos storage
  · simp [Weak.ProducerOk, producer]
  · simp [Weak.ConsumerOk, consumer]

namespace WeakInv

theorem setProducer {pc : PushPc α} (inv : WeakInv n s)
    (ring : Ring n m' s.pushed s.popped (s.pushed.length + pc.wrote)
      (s.popped.length + s.consumer.took))
    (other : m'.known .consumer = s.memory.known .consumer)
    (ok : Weak.ProducerOk n { s with memory := m', producer := pc }) :
    WeakInv n { s with memory := m', producer := pc } := by
  refine ⟨inv.mask, ring, ok, ?_⟩
  have before := inv.consumer
  revert before
  simp only [Weak.ConsumerOk, other]
  exact id

theorem setConsumer {pc : PopPc α} (inv : WeakInv n s)
    (ring : Ring n m' s.pushed s.popped (s.pushed.length + s.producer.wrote)
      (s.popped.length + pc.took))
    (other : m'.known .producer = s.memory.known .producer)
    (values : ∀ x, (m'.plain x).value = (s.memory.plain x).value)
    (ok : Weak.ConsumerOk n { s with memory := m', consumer := pc }) :
    WeakInv n { s with memory := m', consumer := pc } := by
  refine ⟨inv.mask, ring, ?_, ok⟩
  have before := inv.producer
  revert before
  simp only [Weak.ProducerOk, other, values]
  exact id

theorem stepProducer (h : ValidCapacity capacity) (inv : WeakInv capacity.toNat s)
    (next : s.stepProducer .source i = some s') : WeakInv capacity.toNat s' := by
  obtain ⟨pos, small, -⟩ := h.bounds
  have ok := inv.producer
  have ring := inv.ring
  cases pc : s.producer <;> simp only [Weak.stepProducer, pc] at next <;>
    simp only [Weak.ProducerOk, pc] at ok <;> simp only [PushPc.wrote, pc] at ring
  case loadTail item =>
    obtain ⟨⟨currTail, m'⟩, loaded, rfl⟩ := Option.map_eq_some_iff.mp next
    obtain ⟨rfl, ring'⟩ := ring.load_tail_producer loaded
    refine inv.setProducer ring' (load_known_of_ne loaded (by decide)) ⟨rfl, ?_⟩
    rw [BitVec.and_comm, slot_succ h inv.mask]
  case loadHead item currTail nextTail =>
    obtain ⟨⟨head, m'⟩, loaded, rfl⟩ := Option.map_eq_some_iff.mp next
    obtain ⟨rfl, old, stored, view, ring'⟩ := ring.load_head_producer loaded
    have other : m'.known .consumer = s.memory.known .consumer :=
      load_known_of_ne loaded (by decide)
    obtain ⟨rfl, rfl⟩ := ok
    by_cases room : slot capacity.toNat (s.pushed.length + 1) ≠ slot capacity.toNat i
    · simp only [if_pos room]
      refine inv.setProducer ring' other ⟨rfl, rfl, ?_⟩
      have before := ring.room
      have le := ring.delivered.length_le
      rw [Ne, eq_comm, slot_eq_iff pos small (by omega) (by omega)] at room
      simp only [view]
      omega
    · simp only [if_neg room]
      exact inv.setProducer ring' other trivial
  case write item currTail nextTail =>
    obtain ⟨rfl, rfl, room⟩ := ok
    obtain rfl := Option.some.inj next
    refine inv.setProducer (ring.write pos small room item) ?_ ⟨rfl, ?_⟩
    · exact write_known_of_ne (by decide)
    · rw [write_plain_self]
  case storeTail item nextTail =>
    obtain ⟨rfl, value⟩ := ok
    obtain rfl := Option.some.inj next
    have stored := ring.storeTail value
    refine ⟨inv.mask, ?_, trivial, ?_⟩
    · change Ring _ _ (s.pushed ++ [item]) _ ((s.pushed ++ [item]).length + 0) _
      rwa [List.length_append, List.length_singleton]
    · have before := inv.consumer
      revert before
      simp only [Weak.ConsumerOk]
      cases s.consumer with
      | storeHead currHead popping =>
        intro before
        have lt := (List.getElem?_eq_some_iff.mp before.2).1
        exact ⟨before.1, by rw [List.getElem?_append_left lt]; exact before.2⟩
      | _ => exact id
  case mayFullTail =>
    obtain ⟨⟨currTail, m'⟩, loaded, rfl⟩ := Option.map_eq_some_iff.mp next
    obtain ⟨rfl, ring'⟩ := ring.load_tail_producer loaded
    refine inv.setProducer ring' (load_known_of_ne loaded (by decide)) ?_
    exact slot_succ h inv.mask _
  case mayFullHead nextTail =>
    obtain ⟨⟨head, m'⟩, loaded, rfl⟩ := Option.map_eq_some_iff.mp next
    obtain ⟨rfl, old, stored, view, ring'⟩ := ring.load_head_producer loaded
    exact inv.setProducer ring' (load_known_of_ne loaded (by decide)) trivial
  all_goals cases next

theorem stepConsumer (h : ValidCapacity capacity) (inv : WeakInv capacity.toNat s)
    (next : s.stepConsumer .source i = some s') : WeakInv capacity.toNat s' := by
  obtain ⟨pos, small, -⟩ := h.bounds
  have ok := inv.consumer
  have ring := inv.ring
  cases pc : s.consumer <;> simp only [Weak.stepConsumer, pc] at next <;>
    simp only [Weak.ConsumerOk, pc] at ok <;> simp only [PopPc.took, pc] at ring
  case loadHead =>
    obtain ⟨⟨currHead, m'⟩, loaded, rfl⟩ := Option.map_eq_some_iff.mp next
    obtain ⟨rfl, -, ring'⟩ := ring.load_head_consumer loaded
    refine inv.setConsumer ring' (load_known_of_ne loaded (by decide)) (fun x => ?_) rfl
    rw [load_plain loaded]
  case loadTail currHead =>
    obtain ⟨⟨tail, m'⟩, loaded, rfl⟩ := Option.map_eq_some_iff.mp next
    obtain ⟨rfl, old, stored, view, ring'⟩ := ring.load_tail_consumer loaded
    have other : m'.known .producer = s.memory.known .producer :=
      load_known_of_ne loaded (by decide)
    have values : ∀ x, (m'.plain x).value = (s.memory.plain x).value := fun x => by
      rw [load_plain loaded]
    obtain rfl := ok
    by_cases none : slot capacity.toNat s.popped.length = slot capacity.toNat i
    · simp only [if_pos none]
      exact inv.setConsumer ring' other values trivial
    · simp only [if_neg none]
      refine inv.setConsumer ring' other values ⟨rfl, ?_⟩
      simp only [view]
      have known : s.popped.length ≠ i := fun same => none (congrArg _ same)
      have behind := ring.taken
      omega
  case read currHead =>
    obtain ⟨rfl, some⟩ := ok
    obtain rfl := Option.some.inj next
    obtain ⟨item, ring'⟩ := ring.read some
    refine inv.setConsumer ring' ?_ (fun x => ?_) ⟨rfl, item⟩
    · exact read_known_of_ne (by decide)
    · by_cases same : x = slot capacity.toNat s.popped.length
      · rw [← same, read_plain_self]
      · rw [read_plain_of_ne same]
  case storeHead currHead item =>
    obtain ⟨rfl, oldest⟩ := ok
    obtain rfl := Option.some.inj next
    have stored := ring.storeHead oldest
    refine ⟨inv.mask, ?_, ?_, trivial⟩
    · change Ring _ (s.memory.store _ _ ((slot _ _ + 1) &&& _) _) _ (s.popped ++ [item]) _
        ((s.popped ++ [item]).length + 0)
      rwa [slot_succ h inv.mask, List.length_append, List.length_singleton]
    · have before := inv.producer
      revert before
      simp only [Weak.ProducerOk]
      exact id
  case mayEmptyHead =>
    obtain ⟨⟨currHead, m'⟩, loaded, rfl⟩ := Option.map_eq_some_iff.mp next
    obtain ⟨rfl, -, ring'⟩ := ring.load_head_consumer loaded
    refine inv.setConsumer ring' (load_known_of_ne loaded (by decide)) (fun x => ?_) rfl
    rw [load_plain loaded]
  case mayEmptyTail currHead =>
    obtain ⟨⟨tail, m'⟩, loaded, rfl⟩ := Option.map_eq_some_iff.mp next
    obtain ⟨rfl, old, stored, view, ring'⟩ := ring.load_tail_consumer loaded
    refine inv.setConsumer ring' (load_known_of_ne loaded (by decide)) (fun x => ?_) trivial
    rw [load_plain loaded]
  all_goals cases next

theorem next (h : ValidCapacity capacity) (inv : WeakInv capacity.toNat s) {a : WeakAction α}
    (next : s.next .source a = some s') : WeakInv capacity.toNat s' := by
  cases a with
  | producer i => exact inv.stepProducer h next
  | consumer i => exact inv.stepConsumer h next
  | push item | askFull =>
    simp only [Weak.next] at next
    split_ifs at next with resting
    obtain rfl := Option.some.inj next
    refine inv.setProducer ?_ rfl trivial
    have ring := inv.ring
    have idle : s.producer.wrote = 0 := by
      revert resting
      cases s.producer <;> simp [PushPc.resting, PushPc.wrote]
    rwa [idle] at ring
  | pop | askEmpty =>
    simp only [Weak.next] at next
    split_ifs at next with resting
    obtain rfl := Option.some.inj next
    refine inv.setConsumer ?_ rfl (fun x => rfl) trivial
    have ring := inv.ring
    have idle : s.consumer.took = 0 := by
      revert resting
      cases s.consumer <;> simp [PopPc.resting, PopPc.took]
    rwa [idle] at ring

/-- What the producer knows to be popped is a full ring behind what it has pushed. -/
theorem refused_push (h : ValidCapacity capacity) (inv : WeakInv capacity.toNat s)
    (next : s.stepProducer .source i = some s') (refused : s'.producer = .done false) :
    s'.pushed.length + 1 = (s'.memory.known .producer).view .head + capacity.toNat := by
  obtain ⟨pos, small, -⟩ := h.bounds
  have ok := inv.producer
  have ring := inv.ring
  cases pc : s.producer <;> simp only [Weak.stepProducer, pc] at next <;>
    simp only [Weak.ProducerOk, pc] at ok <;> simp only [PushPc.wrote, pc] at ring
  case loadHead item currTail nextTail =>
    obtain ⟨⟨head, m'⟩, loaded, rfl⟩ := Option.map_eq_some_iff.mp next
    obtain ⟨rfl, old, stored, view, ring'⟩ := ring.load_head_producer loaded
    obtain ⟨rfl, rfl⟩ := ok
    by_cases room : slot capacity.toNat (s.pushed.length + 1) ≠ slot capacity.toNat i
    · simp only [if_pos room] at refused
      cases refused
    · have before := ring.room
      have le := ring.delivered.length_le
      rw [not_not, eq_comm, slot_eq_iff pos small (by omega) (by omega)] at room
      simp only [view]
      omega
  all_goals
    first
    | obtain ⟨⟨v, m'⟩, loaded, rfl⟩ := Option.map_eq_some_iff.mp next
      cases refused
    | obtain rfl := Option.some.inj next
      cases refused
    | cases next

/-- All that the consumer knows to be pushed is popped. -/
theorem refused_pop (h : ValidCapacity capacity) (inv : WeakInv capacity.toNat s)
    (next : s.stepConsumer .source i = some s') (refused : s'.consumer = .done false) :
    s'.popped.length = (s'.memory.known .consumer).view .tail := by
  obtain ⟨pos, small, -⟩ := h.bounds
  have ok := inv.consumer
  have ring := inv.ring
  cases pc : s.consumer <;> simp only [Weak.stepConsumer, pc] at next <;>
    simp only [Weak.ConsumerOk, pc] at ok <;> simp only [PopPc.took, pc] at ring
  case loadTail currHead =>
    obtain ⟨⟨tail, m'⟩, loaded, rfl⟩ := Option.map_eq_some_iff.mp next
    obtain ⟨rfl, old, stored, view, ring'⟩ := ring.load_tail_consumer loaded
    obtain rfl := ok
    by_cases none : slot capacity.toNat s.popped.length = slot capacity.toNat i
    · have behind := ring.taken
      have before := ring.room
      have popped := (ring.sound.known .producer).popped
      rw [slot_eq_iff pos small (by omega) (by omega)] at none
      simp only [view]
      omega
    · simp only [if_neg none] at refused
      cases refused
  all_goals
    first
    | obtain ⟨⟨v, m'⟩, loaded, rfl⟩ := Option.map_eq_some_iff.mp next
      cases refused
    | obtain rfl := Option.some.inj next
      cases refused
    | cases next

theorem not_races (h : ValidCapacity capacity) (inv : WeakInv capacity.toNat s) : ¬ s.Races := by
  obtain ⟨pos, small, -⟩ := h.bounds
  rintro (⟨i, here, race⟩ | ⟨i, here, race⟩)
  · have ok := inv.producer
    cases pc : s.producer <;> simp only [pc, PushPc.slotAccessed, reduceCtorEq] at here
    simp only [Weak.ProducerOk, pc] at ok
    obtain ⟨rfl, -, room⟩ := ok
    exact race (Option.some.inj here ▸ inv.ring.write_ordered pos small room)
  · have ok := inv.consumer
    cases pc : s.consumer <;> simp only [pc, PopPc.slotAccessed, reduceCtorEq] at here
    simp only [Weak.ConsumerOk, pc] at ok
    obtain ⟨rfl, known⟩ := ok
    exact race (Option.some.inj here ▸ inv.ring.read_ordered known)

end WeakInv

theorem weakInv_reachable (h : ValidCapacity capacity)
    (hs : (weak .source α capacity).Reachable s) : WeakInv capacity.toNat s :=
  hs.invariant (WeakInv capacity.toNat) (fun _ start => weakInv_init h start)
    fun _ _ _ inv next => inv.next h next

/-- Items come out as they went in, under the memory orders of the file. Between the indices that
the two threads know of, the ring is never over full, and a call is refused only if the ring is full
or empty as far as its thread knows. -/
theorem weak_fifo (h : ValidCapacity capacity) (hs : (weak .source α capacity).Reachable s) :
    s.popped <+: s.pushed ∧ s.pushed.length < s.popped.length + capacity.toNat ∧
      (∀ i s', s.stepProducer .source i = some s' → s'.producer = .done false →
        s'.pushed.length + 1 = (s'.memory.known .producer).view .head + capacity.toNat) ∧
      ∀ i s', s.stepConsumer .source i = some s' → s'.consumer = .done false →
        s'.popped.length = (s'.memory.known .consumer).view .tail := by
  have inv := weakInv_reachable h hs
  have room := inv.ring.room
  have known := (inv.ring.sound.known .producer).popped
  exact ⟨inv.ring.delivered, by omega, fun i s' => inv.refused_push h,
    fun i s' => inv.refused_pop h⟩

/-- The pop takes an old `tail_` first and finds nothing. -/
theorem weak_fifo_two : ∃ s, (weak .source ℕ 2).Reachable s ∧ s.popped = [7] ∧
    s.popped <+: s.pushed := by
  have two : ValidCapacity 2 := ⟨by decide, 1, by decide⟩
  obtain ⟨s, hrun, popped⟩ : ∃ s, (weak .source ℕ 2).run
      ⟨1, ringMemory fun _ => 0, .idle, .idle, [], []⟩
      [.push 7, .producer 0, .producer 0, .producer 0, .producer 0, .pop, .consumer 0, .consumer 0,
        .pop, .consumer 0, .consumer 1, .consumer 0, .consumer 0] = some s ∧ s.popped = [7] :=
    ⟨_, rfl, rfl⟩
  have reached : (weak .source ℕ 2).Reachable s := Machine.run_reachable
    (.init ⟨⟨fun _ => 0, 0, 0, 0, 0⟩, _, fun _ => 0, rfl, rfl, rfl, rfl, rfl, rfl, rfl⟩) hrun
  exact ⟨s, reached, popped, (weak_fifo two reached).1⟩

end Codelab.CircularQueue
