import Codelab.CircularQueueWeak

/-! Which memory orders the ring needs. -/

namespace Codelab.CircularQueue

open ReleaseAcquire

variable {α : Type*} {capacity : BitVec 32} {s s' : Weak α} {o : Orders} {n p c i : ℕ}
  {m m' : RingMemory α} {k : Knowledge Party Var}

/-- What is stored to `tail_` tells of the writes before, and the loads of `tail_` listen. -/
def Orders.TailOrdered (o : Orders) : Prop := o.pushStore = true ∧ o.popLoad = true

def Orders.HeadOrdered (o : Orders) : Prop := o.popStore = true ∧ o.pushLoad = true

theorem Orders.eq_source (tail : o.TailOrdered) (head : o.HeadOrdered) : o = .source := by
  obtain ⟨pushStore, popLoad⟩ := tail
  obtain ⟨popStore, pushLoad⟩ := head
  cases o
  simp_all [Orders.source]

/-- The producer has pushed `p` items and the consumer has popped `c`. Where an index is not
ordered, its loads have taught nothing. -/
structure Blind (o : Orders) (n p c : ℕ) (m : RingMemory α) : Prop where
  tails : (m.messages .tail).length = p + 1
  heads : (m.messages .head).length = c + 1
  tail : ∃ k, (m.messages .tail)[p]? = some ⟨slot n p, k⟩
  head : ∃ k, (m.messages .head)[c]? = some ⟨slot n c, k⟩
  views : All (fun k => k.view .tail ≤ p ∧ k.view .head ≤ c) m
  producer : ¬ o.HeadOrdered → (m.known .producer).clock .consumer = 0
  consumer : ¬ o.TailOrdered → (m.known .consumer).clock .producer = 0
  headTold : ¬ o.HeadOrdered → o.pushLoad = true → ∀ message ∈ m.messages .head,
    message.knowledge = .empty
  tailTold : ¬ o.TailOrdered → o.popLoad = true → ∀ message ∈ m.messages .tail,
    message.knowledge = .empty
  written : 0 < p → 0 < (m.plain (slot n 0)).writes .producer
  read : 0 < c → 0 < (m.plain (slot n 0)).reads .consumer

theorem blind_initial (storage : BitVec 32 → α) : Blind o n 0 0 (ringMemory storage) where
  tails := rfl
  heads := rfl
  tail := ⟨.empty, by simp [ringMemory, slot]⟩
  head := ⟨.empty, by simp [ringMemory, slot]⟩
  views := by
    refine ⟨fun t => ⟨Nat.le_refl 0, Nat.le_refl 0⟩, fun a message mem => ?_⟩
    rw [List.mem_singleton.mp mem]
    exact ⟨Nat.le_refl 0, Nat.le_refl 0⟩
  producer _ := rfl
  consumer _ := rfl
  headTold _ _ message mem := by rw [List.mem_singleton.mp mem]
  tailTold _ _ message mem := by rw [List.mem_singleton.mp mem]
  written no := absurd no (Nat.lt_irrefl 0)
  read no := absurd no (Nat.lt_irrefl 0)

namespace Blind

theorem learn_producer (h : Blind o n p c m) (views : k.view .tail ≤ p ∧ k.view .head ≤ c)
    (blind : ¬ o.HeadOrdered → k.clock .consumer = 0) : Blind o n p c (m.learn .producer k) :=
  { h with
    views := h.views.learn views
    producer := by rwa [learn_known_self] }

theorem learn_consumer (h : Blind o n p c m) (views : k.view .tail ≤ p ∧ k.view .head ≤ c)
    (blind : ¬ o.TailOrdered → k.clock .producer = 0) : Blind o n p c (m.learn .consumer k) :=
  { h with
    views := h.views.learn views
    consumer := by rwa [learn_known_self] }

/-- The producer takes the newest message of `tail_`, which is its own. -/
theorem load_own_tail (h : Blind o n p c m) : ∃ m',
    m.load .producer .tail false p = some (slot n p, m') ∧ Blind o n p c m' := by
  obtain ⟨k, there⟩ := h.tail
  obtain ⟨view, stored⟩ := h.views.known .producer
  exact ⟨_, load_newest view there, h.learn_producer ⟨Nat.le_refl p, stored⟩ h.producer⟩

theorem load_own_head (h : Blind o n p c m) : ∃ m',
    m.load .consumer .head false c = some (slot n c, m') ∧ Blind o n p c m' := by
  obtain ⟨k, there⟩ := h.head
  obtain ⟨stored, view⟩ := h.views.known .consumer
  exact ⟨_, load_newest view there, h.learn_consumer ⟨stored, Nat.le_refl c⟩ h.consumer⟩

/-- The consumer takes the newest message of `tail_`. -/
theorem load_tail (h : Blind o n p c m) : ∃ m',
    m.load .consumer .tail o.popLoad p = some (slot n p, m') ∧ Blind o n p c m' := by
  obtain ⟨k, there⟩ := h.tail
  have mem := List.mem_of_getElem? there
  obtain ⟨view, stored⟩ := h.views.known .consumer
  obtain ⟨told, told'⟩ := h.views.told .tail _ mem
  refine ⟨_, load_newest view there, h.learn_consumer ?_ fun missing => ?_⟩
  · cases o.popLoad with
    | false => exact ⟨Nat.le_refl p, stored⟩
    | true => exact ⟨max_le (Nat.le_refl p) told, max_le stored told'⟩
  · cases flag : o.popLoad with
    | false => exact h.consumer missing
    | true =>
      have empty : k = .empty := h.tailTold missing flag _ mem
      rw [empty]
      exact (Nat.max_eq_left (Nat.zero_le _)).trans (h.consumer missing)

/-- The producer takes the newest message of `head_`. -/
theorem load_head (h : Blind o n p c m) : ∃ m',
    m.load .producer .head o.pushLoad c = some (slot n c, m') ∧ Blind o n p c m' := by
  obtain ⟨k, there⟩ := h.head
  have mem := List.mem_of_getElem? there
  obtain ⟨stored, view⟩ := h.views.known .producer
  obtain ⟨told, told'⟩ := h.views.told .head _ mem
  refine ⟨_, load_newest view there, h.learn_producer ?_ fun missing => ?_⟩
  · cases o.pushLoad with
    | false => exact ⟨stored, Nat.le_refl c⟩
    | true => exact ⟨max_le stored told, max_le (Nat.le_refl c) told'⟩
  · cases flag : o.pushLoad with
    | false => exact h.producer missing
    | true =>
      have empty : k = .empty := h.headTold missing flag _ mem
      rw [empty]
      exact (Nat.max_eq_left (Nat.zero_le _)).trans (h.producer missing)

/-- A write leaves its mark. -/
theorem write (h : Blind o n p c m) (item : α) :
    Blind o n p c (m.write .producer (slot n p) item) ∧
      0 < ((m.write .producer (slot n p) item).plain (slot n 0)).writes .producer := by
  have views := h.views.learn (t := .producer) (k := (m.known .producer).tick .producer)
    (h.views.known .producer)
  have marked : 0 < ((m.write .producer (slot n p) item).plain (slot n 0)).writes .producer := by
    by_cases same : slot n 0 = slot n p
    · rw [same, write_plain_self]
      exact Nat.succ_pos _
    · rw [write_plain_of_ne same]
      exact h.written (Nat.pos_of_ne_zero fun zero => same (congrArg _ zero.symm))
  refine ⟨?_, marked⟩
  exact
    { h with
      views := ⟨views.known, views.told⟩
      producer := by
        rw [write_known_self]
        exact h.producer
      written := fun _ => marked
      read := fun some => by
        by_cases same : slot n 0 = slot n p
        · rw [same, write_plain_self, ← same]
          exact h.read some
        · rw [write_plain_of_ne same]
          exact h.read some }

theorem storeTail (h : Blind o n p c m)
    (written : 0 < (m.plain (slot n 0)).writes .producer) :
    Blind o n (p + 1) c (m.store .producer .tail (slot n (p + 1)) o.pushStore) where
  tails := by simp [store_messages_self, h.tails]
  heads := h.heads
  tail := ⟨_, by rw [store_messages_self, ← h.tails, List.getElem?_concat_length]⟩
  head := h.head
  views := by
    refine (h.views.mono fun k hk => ⟨hk.1.trans (Nat.le_succ p), hk.2⟩).store ?_
      ⟨Nat.zero_le _, Nat.zero_le _⟩
    exact ⟨h.tails.le, (h.views.known .producer).2⟩
  producer := by
    rw [store_known_self]
    exact h.producer
  consumer := h.consumer
  headTold := h.headTold
  tailTold missing acquire message mem := by
    have relaxed : o.pushStore = false :=
      Bool.not_eq_true _ ▸ fun release => missing ⟨release, acquire⟩
    rw [store_messages_self, relaxed] at mem
    rcases List.mem_append.mp mem with old | new
    · exact h.tailTold missing acquire message old
    · rw [List.mem_singleton.mp new]
      rfl
  written _ := written
  read := h.read

/-- A read leaves its mark. -/
theorem read_slot (h : Blind o n p c m) : Blind o n p c (m.read .consumer (slot n c)).2 ∧
    0 < ((m.read .consumer (slot n c)).2.plain (slot n 0)).reads .consumer := by
  have views := h.views.learn (t := .consumer) (k := (m.known .consumer).tick .consumer)
    (h.views.known .consumer)
  have marked : 0 < ((m.read .consumer (slot n c)).2.plain (slot n 0)).reads .consumer := by
    by_cases same : slot n 0 = slot n c
    · rw [same, read_plain_self]
      exact Nat.succ_pos _
    · rw [read_plain_of_ne same]
      exact h.read (Nat.pos_of_ne_zero fun zero => same (congrArg _ zero.symm))
  refine ⟨?_, marked⟩
  exact
    { h with
      views := ⟨views.known, views.told⟩
      consumer := by
        rw [read_known_self]
        exact h.consumer
      written := fun some => by
        by_cases same : slot n 0 = slot n c
        · rw [same, read_plain_self, ← same]
          exact h.written some
        · rw [read_plain_of_ne same]
          exact h.written some
      read := fun _ => marked }

theorem storeHead (h : Blind o n p c m) (read : 0 < (m.plain (slot n 0)).reads .consumer) :
    Blind o n p (c + 1) (m.store .consumer .head (slot n (c + 1)) o.popStore) where
  tails := h.tails
  heads := by simp [store_messages_self, h.heads]
  tail := h.tail
  head := ⟨_, by rw [store_messages_self, ← h.heads, List.getElem?_concat_length]⟩
  views := by
    refine (h.views.mono fun k hk => ⟨hk.1, hk.2.trans (Nat.le_succ c)⟩).store ?_
      ⟨Nat.zero_le _, Nat.zero_le _⟩
    exact ⟨(h.views.known .consumer).1, h.heads.le⟩
  producer := h.producer
  consumer := by
    rw [store_known_self]
    exact h.consumer
  headTold missing acquire message mem := by
    have relaxed : o.popStore = false :=
      Bool.not_eq_true _ ▸ fun release => missing ⟨release, acquire⟩
    rw [store_messages_self, relaxed] at mem
    rcases List.mem_append.mp mem with old | new
    · exact h.headTold missing acquire message old
    · rw [List.mem_singleton.mp new]
      rfl
  tailTold := h.tailTold
  written := h.written
  read _ := read

/-- A write of the first slot again races with a read that the producer does not know of. -/
theorem write_races (h : Blind o n p c m) (missing : ¬ o.HeadOrdered) (some : 0 < c) :
    ¬ m.WriteOrdered .producer (slot n 0) := by
  intro ordered
  have known := (ordered .consumer).2
  rw [h.producer missing] at known
  exact absurd (h.read some) (Nat.not_lt.mpr known)

/-- A read of the first slot races with a write that the consumer does not know of. -/
theorem read_races (h : Blind o n p c m) (missing : ¬ o.TailOrdered) (some : 0 < p) :
    ¬ m.ReadOrdered .consumer (slot n 0) := by
  intro ordered
  have known := ordered .producer
  rw [h.consumer missing] at known
  exact absurd (h.written some) (Nat.not_lt.mpr known)

end Blind

/-- The producer and the consumer have nothing to do, in a state that some run comes to. -/
structure Quiet (o : Orders) (capacity : BitVec 32) (p c : ℕ) (s : Weak α) : Prop where
  reached : (weak o α capacity).Reachable s
  mask : s.capacityMask.toNat + 1 = capacity.toNat
  producer : s.producer.resting = true
  consumer : s.consumer.resting = true
  memory : Blind o capacity.toNat p c s.memory

theorem exists_quiet (h : ValidCapacity capacity) [Nonempty α] :
    ∃ s : Weak α, Quiet o capacity 0 0 s := by
  obtain ⟨item⟩ := ‹Nonempty α›
  have fresh : CircularQueue α := ⟨fun _ => item, 0, 0, 0, 0⟩
  have accepted := h.accepted fresh fun _ => item
  obtain ⟨q, ready⟩ := Option.isSome_iff_exists.mp accepted
  refine ⟨⟨q.capacityMask, ringMemory fun _ => item, .idle, .idle, [], []⟩, .init
    ⟨fresh, q, fun _ => item, ready, rfl, rfl, rfl, rfl, rfl, rfl⟩, ?_, rfl, rfl,
    blind_initial _⟩
  unfold init at ready
  split_ifs at ready with bad
  injection ready with ready
  have bounds := h.bounds
  rw [← ready, h.mask_toNat]
  omega

namespace Quiet

/-- A push that finds room comes to the write of its slot. -/
theorem write (h : ValidCapacity capacity) (quiet : Quiet o capacity p c s) (item : α)
    (room : slot capacity.toNat (p + 1) ≠ slot capacity.toNat c) :
    ∃ s', (weak o α capacity).Reachable s' ∧
      s'.producer = .write item (slot capacity.toNat p) (slot capacity.toNat (p + 1)) ∧
      s'.consumer = s.consumer ∧ s'.capacityMask = s.capacityMask ∧
      Blind o capacity.toNat p c s'.memory := by
  obtain ⟨m₁, loaded₁, blind₁⟩ := quiet.memory.load_own_tail
  obtain ⟨m₂, loaded₂, blind₂⟩ := blind₁.load_head
  have called : (weak o α capacity).next s (.push item) =
      some { s with producer := .loadTail item } := if_pos quiet.producer
  have masked : s.capacityMask &&& (slot capacity.toNat p + 1) = slot capacity.toNat (p + 1) := by
    rw [BitVec.and_comm, slot_succ h quiet.mask]
  have tail : (weak o α capacity).next { s with producer := .loadTail item } (.producer p) =
      some { s with
        memory := m₁
        producer := .loadHead item (slot capacity.toNat p) (slot capacity.toNat (p + 1)) } := by
    rw [← masked]
    simp [weak, Weak.next, Weak.stepProducer, loaded₁]
  have head : (weak o α capacity).next { s with
        memory := m₁
        producer := .loadHead item (slot capacity.toNat p) (slot capacity.toNat (p + 1)) }
      (.producer c) = some { s with
        memory := m₂
        producer := .write item (slot capacity.toNat p) (slot capacity.toNat (p + 1)) } := by
    simp [weak, Weak.next, Weak.stepProducer, loaded₂, room]
  exact ⟨_, ((quiet.reached.step called).step tail).step head, rfl, rfl, rfl, blind₂⟩

theorem push (h : ValidCapacity capacity) (quiet : Quiet o capacity p c s) (item : α)
    (room : slot capacity.toNat (p + 1) ≠ slot capacity.toNat c) :
    ∃ s' : Weak α, Quiet o capacity (p + 1) c s' := by
  obtain ⟨s₁, reached, producer, consumer, mask, blind⟩ := quiet.write h item room
  obtain ⟨blind', marked⟩ := blind.write item
  let m := s₁.memory.write .producer (slot capacity.toNat p) item
  have written : (weak o α capacity).next s₁ (.producer 0) = some { s₁ with
      memory := m
      producer := .storeTail item (slot capacity.toNat (p + 1)) } := by
    simp [weak, Weak.next, Weak.stepProducer, producer, m]
  have stored : (weak o α capacity).next { s₁ with
        memory := m
        producer := .storeTail item (slot capacity.toNat (p + 1)) } (.producer 0) =
      some { s₁ with
        memory := m.store .producer .tail (slot capacity.toNat (p + 1)) o.pushStore
        producer := .done true
        pushed := s₁.pushed ++ [item] } := rfl
  refine ⟨_, (reached.step written).step stored, ?_, rfl, ?_, blind'.storeTail marked⟩
  · exact mask ▸ quiet.mask
  · exact consumer ▸ quiet.consumer

/-- A pop that finds an item comes to the read of its slot. -/
theorem read (quiet : Quiet o capacity p c s)
    (some : slot capacity.toNat c ≠ slot capacity.toNat p) :
    ∃ m, (weak o α capacity).Reachable
        { s with memory := m, consumer := .read (slot capacity.toNat c) } ∧
      Blind o capacity.toNat p c m := by
  obtain ⟨m₁, loaded₁, blind₁⟩ := quiet.memory.load_own_head
  obtain ⟨m₂, loaded₂, blind₂⟩ := blind₁.load_tail
  have called : (weak o α capacity).next s .pop = .some { s with consumer := .loadHead } :=
    if_pos quiet.consumer
  have head : (weak o α capacity).next { s with consumer := .loadHead } (.consumer c) =
      .some { s with memory := m₁, consumer := .loadTail (slot capacity.toNat c) } := by
    simp [weak, Weak.next, Weak.stepConsumer, loaded₁]
  have tail : (weak o α capacity).next
      { s with memory := m₁, consumer := .loadTail (slot capacity.toNat c) } (.consumer p) =
      .some { s with memory := m₂, consumer := .read (slot capacity.toNat c) } := by
    simp [weak, Weak.next, Weak.stepConsumer, loaded₂, some]
  exact ⟨m₂, ((quiet.reached.step called).step head).step tail, blind₂⟩

theorem pop (h : ValidCapacity capacity) (quiet : Quiet o capacity p c s)
    (some : slot capacity.toNat c ≠ slot capacity.toNat p) :
    ∃ s' : Weak α, Quiet o capacity p (c + 1) s' := by
  obtain ⟨m, reached, blind⟩ := quiet.read some
  obtain ⟨blind', marked⟩ := blind.read_slot
  let item := (m.read .consumer (slot capacity.toNat c)).1
  let m' := (m.read .consumer (slot capacity.toNat c)).2
  have taken : (weak o α capacity).next
      { s with memory := m, consumer := .read (slot capacity.toNat c) } (.consumer 0) =
      .some { s with memory := m', consumer := .storeHead (slot capacity.toNat c) item } := rfl
  have stored : (weak o α capacity).next
      { s with memory := m', consumer := .storeHead (slot capacity.toNat c) item }
      (.consumer 0) = .some { s with
        memory := m'.store .consumer .head (slot capacity.toNat (c + 1)) o.popStore
        consumer := .done true
        popped := s.popped ++ [item] } := by
    rw [← slot_succ h quiet.mask]
    rfl
  exact ⟨_, (reached.step taken).step stored, quiet.mask, quiet.producer, rfl,
    blind'.storeHead marked⟩

end Quiet

theorem slot_succ_ne (h : ValidCapacity capacity) (several : 1 < capacity.toNat) (j : ℕ) :
    slot capacity.toNat (j + 1) ≠ slot capacity.toNat j := by
  obtain ⟨pos, small, -⟩ := h.bounds
  rw [Ne, eq_comm, slot_eq_iff pos small (Nat.le_succ j) (by omega)]
  omega

/-- One item after the other goes through the ring. -/
theorem exists_quiet_after (h : ValidCapacity capacity) [Nonempty α]
    (several : 1 < capacity.toNat) (k : ℕ) : ∃ s : Weak α, Quiet o capacity k k s := by
  obtain ⟨item⟩ := ‹Nonempty α›
  induction k with
  | zero => exact exists_quiet h
  | succ k ih =>
    obtain ⟨s, quiet⟩ := ih
    obtain ⟨s₁, quiet₁⟩ := quiet.push h item (slot_succ_ne h several k)
    exact quiet₁.pop h (slot_succ_ne h several k).symm

/-- If the stores and loads of `head_` do not order the accesses, the push that comes to the first
slot again writes it without knowing that it was read. -/
theorem write_races (h : ValidCapacity capacity) [Nonempty α] (several : 1 < capacity.toNat)
    (missing : ¬ o.HeadOrdered) : ∃ s : Weak α, (weak o α capacity).Reachable s ∧ s.Races := by
  obtain ⟨item⟩ := ‹Nonempty α›
  obtain ⟨s, quiet⟩ : ∃ s : Weak α, Quiet o capacity capacity.toNat capacity.toNat s :=
    exists_quiet_after h several _
  obtain ⟨s', reached, producer, -, -, blind⟩ := quiet.write h item (slot_succ_ne h several _)
  have again : slot capacity.toNat capacity.toNat = slot capacity.toNat 0 := by simp [slot]
  refine ⟨s', reached, .inl ⟨slot capacity.toNat 0, ?_, ?_⟩⟩
  · rw [producer, again]
    rfl
  · exact blind.write_races missing (by omega)

/-- If those of `tail_` do not, the first pop reads without knowing that the slot was written. -/
theorem read_races (h : ValidCapacity capacity) [Nonempty α] (several : 1 < capacity.toNat)
    (missing : ¬ o.TailOrdered) : ∃ s : Weak α, (weak o α capacity).Reachable s ∧ s.Races := by
  obtain ⟨item⟩ := ‹Nonempty α›
  obtain ⟨s, quiet⟩ : ∃ s : Weak α, Quiet o capacity 0 0 s := exists_quiet h
  obtain ⟨s₁, quiet₁⟩ := quiet.push h item (slot_succ_ne h several 0)
  obtain ⟨m, reached, blind⟩ := quiet₁.read (slot_succ_ne h several 0).symm
  exact ⟨_, reached, .inr ⟨slot capacity.toNat 0, rfl, blind.read_races missing Nat.one_pos⟩⟩

/-- No two accesses of a slot race just if all four memory orders are those in the file. -/
theorem race_free_iff (h : ValidCapacity capacity) [Nonempty α] (several : 1 < capacity.toNat) :
    (∀ s, (weak o α capacity).Reachable s → ¬ s.Races) ↔ o = .source := by
  constructor
  · intro free
    apply Orders.eq_source
    · by_contra missing
      obtain ⟨s, reached, races⟩ := read_races (α := α) h several missing
      exact free s reached races
    · by_contra missing
      obtain ⟨s, reached, races⟩ := write_races (α := α) h several missing
      exact free s reached races
  · rintro rfl s reached
    exact (weakInv_reachable h reached).not_races h

/-- With two slots: the file's orders, and a relaxed load of `head_` in `Push`. -/
theorem race_free_iff_two :
    (∀ s, (weak .source ℕ 2).Reachable s → ¬ s.Races) ∧
      ¬ ∀ s, (weak ⟨false, true, true, true⟩ ℕ 2).Reachable s → ¬ s.Races := by
  have two : ValidCapacity 2 := ⟨by decide, 1, by decide⟩
  have several : 1 < (2 : BitVec 32).toNat := by decide
  refine ⟨(race_free_iff two several).mpr rfl, fun free => ?_⟩
  cases (race_free_iff two several).mp free

end Codelab.CircularQueue
