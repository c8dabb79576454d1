import Codelab.CircularQueueInterleaving
import Codelab.Theory.ReleaseAcquire

/-! The ring as the memory orders of `circular_queue.h` leave it: a load may take a value that is no
longer there, and the slots are plain storage, where two accesses race unless they are ordered. -/

namespace Codelab.CircularQueue

open ReleaseAcquire

inductive Party
  | producer
  | consumer
  deriving DecidableEq

inductive Var
  | head
  | tail
  deriving DecidableEq

/-- Whether the load of the other side's index in `Push` and in `Pop` is an acquire one, and whether
the store of the own index is a release one. -/
structure Orders where
  pushLoad : Bool
  pushStore : Bool
  popLoad : Bool
  popStore : Bool
  deriving DecidableEq

/-- The memory orders in the file. -/
def Orders.source : Orders := ⟨true, true, true, true⟩

abbrev RingMemory (α : Type*) := ReleaseAcquire Party Var (BitVec 32) (BitVec 32) α

/-- What `Spsc` is with one memory that both threads see at once. -/
structure Weak (α : Type*) where
  capacityMask : BitVec 32
  memory : RingMemory α
  producer : PushPc α
  consumer : PopPc α
  pushed : List α
  popped : List α

/-- A step that loads tells which message it takes. -/
inductive WeakAction (α : Type*) where
  | push (item : α)
  | askFull
  | producer (message : ℕ)
  | pop
  | askEmpty
  | consumer (message : ℕ)

namespace Weak

variable {α : Type*}

def stepProducer (o : Orders) (s : Weak α) (i : ℕ) : Option (Weak α) :=
  match s.producer with
  | .loadTail item =>
    (s.memory.load .producer .tail false i).map fun (currTail, m) =>
      { s with
        memory := m
        producer := .loadHead item currTail (s.capacityMask &&& (currTail + 1)) }
  | .loadHead item currTail nextTail =>
    (s.memory.load .producer .head o.pushLoad i).map fun (head, m) =>
      { s with
        memory := m
        producer := if nextTail ≠ head then .write item currTail nextTail else .done false }
  | .write item currTail nextTail =>
    some { s with
      memory := s.memory.write .producer currTail item
      producer := .storeTail item nextTail }
  | .storeTail item nextTail =>
    some { s with
      memory := s.memory.store .producer .tail nextTail o.pushStore
      producer := .done true
      pushed := s.pushed ++ [item] }
  | .mayFullTail =>
    (s.memory.load .producer .tail true i).map fun (currTail, m) =>
      { s with memory := m, producer := .mayFullHead ((currTail + 1) &&& s.capacityMask) }
  | .mayFullHead nextTail =>
    (s.memory.load .producer .head true i).map fun (head, m) =>
      { s with memory := m, producer := .mayFull (decide (nextTail = head)) }
  | .idle | .done _ | .mayFull _ => none

def stepConsumer (o : Orders) (s : Weak α) (i : ℕ) : Option (Weak α) :=
  match s.consumer with
  | .loadHead =>
    (s.memory.load .consumer .head false i).map fun (currHead, m) =>
      { s with memory := m, consumer := .loadTail currHead }
  | .loadTail currHead =>
    (s.memory.load .consumer .tail o.popLoad i).map fun (tail, m) =>
      { s with
        memory := m
        consumer := if currHead = tail then .done false else .read currHead }
  | .read currHead =>
    let (item, m) := s.memory.read .consumer currHead
    some { s with memory := m, consumer := .storeHead currHead item }
  | .storeHead currHead item =>
    some { s with
      memory := s.memory.store .consumer .head ((currHead + 1) &&& s.capacityMask) o.popStore
      consumer := .done true
      popped := s.popped ++ [item] }
  | .mayEmptyHead =>
    (s.memory.load .consumer .head true i).map fun (currHead, m) =>
      { s with memory := m, consumer := .mayEmptyTail currHead }
  | .mayEmptyTail currHead =>
    (s.memory.load .consumer .tail true i).map fun (tail, m) =>
      { s with memory := m, consumer := .mayEmpty (decide (currHead = tail)) }
  | .idle | .done _ | .mayEmpty _ => none

def next (o : Orders) (s : Weak α) : WeakAction α → Option (Weak α)
  | .push item => if s.producer.resting then some { s with producer := .loadTail item } else none
  | .askFull => if s.producer.resting then some { s with producer := .mayFullTail } else none
  | .producer i => s.stepProducer o i
  | .pop => if s.consumer.resting then some { s with consumer := .loadHead } else none
  | .askEmpty => if s.consumer.resting then some { s with consumer := .mayEmptyHead } else none
  | .consumer i => s.stepConsumer o i

/-- One of the threads is at an access of a slot that is not ordered with an earlier one. -/
def Races (s : Weak α) : Prop :=
  (∃ i, s.producer.slotAccessed = some i ∧ ¬ s.memory.WriteOrdered .producer i) ∨
    ∃ i, s.consumer.slotAccessed = some i ∧ ¬ s.memory.ReadOrdered .consumer i

end Weak

/-- The memory after `Init`: nothing but the constructor has stored to the indices, and the threads
start later. -/
def ringMemory {α : Type*} (storage : BitVec 32 → α) : RingMemory α where
  messages _ := [⟨0, .empty⟩]
  plain i := ⟨storage i, fun _ => 0, fun _ => 0⟩
  known _ := .empty

/-- All runs after a successful `Init(capacity)` of a fresh object, under memory orders `o`. -/
def weak (o : Orders) (α : Type*) (capacity : BitVec 32) : Machine (Weak α) (WeakAction α) where
  init s := ∃ (fresh q : CircularQueue α) (storage : BitVec 32 → α),
    fresh.init capacity (some storage) = some q ∧ s.capacityMask = q.capacityMask ∧
    s.memory = ringMemory storage ∧ s.producer = .idle ∧ s.consumer = .idle ∧ s.pushed = [] ∧
    s.popped = []
  next := Weak.next o

variable {α : Type*} {n p c w r i j : ℕ} {m m' : RingMemory α} {pushed popped : List α}
  {v : BitVec 32}

/-- What anyone knows of `p` stores of `tail_` after `w` writes, and of `c` stores of `head_` after
`r` reads. -/
structure Sound (p c w r : ℕ) (k : Knowledge Party Var) : Prop where
  tail : k.view .tail ≤ k.clock .producer
  head : k.view .head ≤ k.clock .consumer
  pushed : k.view .tail ≤ p
  popped : k.view .head ≤ c
  written : k.clock .producer ≤ w
  taken : k.clock .consumer ≤ r

theorem sound_empty : Sound p c w r .empty :=
  ⟨Nat.le_refl 0, Nat.le_refl 0, Nat.zero_le _, Nat.zero_le _, Nat.zero_le _, Nat.zero_le _⟩

theorem Sound.join {k l : Knowledge Party Var} (hk : Sound p c w r k) (hl : Sound p c w r l) :
    Sound p c w r (k.join l) where
  tail := max_le_max hk.tail hl.tail
  head := max_le_max hk.head hl.head
  pushed := max_le hk.pushed hl.pushed
  popped := max_le hk.popped hl.popped
  written := max_le hk.written hl.written
  taken := max_le hk.taken hl.taken

theorem Sound.mono {p' c' w' r' : ℕ} {k : Knowledge Party Var} (h : Sound p c w r k) (hp : p ≤ p')
    (hc : c ≤ c') (hw : w ≤ w') (hr : r ≤ r') : Sound p' c' w' r' k :=
  { h with
    pushed := h.pushed.trans hp
    popped := h.popped.trans hc
    written := h.written.trans hw
    taken := h.taken.trans hr }

theorem Sound.tick_producer {k : Knowledge Party Var} (h : Sound p c w r k) :
    Sound p c (w + 1) r (k.tick .producer) where
  tail := h.tail.trans (Nat.le_succ _)
  head := h.head
  pushed := h.pushed
  popped := h.popped
  written := Nat.succ_le_succ h.written
  taken := h.taken

theorem Sound.tick_consumer {k : Knowledge Party Var} (h : Sound p c w r k) :
    Sound p c w (r + 1) (k.tick .consumer) where
  tail := h.tail
  head := h.head.trans (Nat.le_succ _)
  pushed := h.pushed
  popped := h.popped
  written := h.written
  taken := Nat.succ_le_succ h.taken

/-- The thread stores to `tail_` itself. -/
theorem Sound.see_pushed {k : Knowledge Party Var} (h : Sound p c w r k)
    (written : p + 1 ≤ k.clock .producer) : Sound (p + 1) c w r (k.see .tail (p + 1)) where
  tail := written
  head := h.head
  pushed := Nat.le_refl _
  popped := h.popped
  written := h.written
  taken := h.taken

/-- The thread stores to `head_` itself. -/
theorem Sound.see_popped {k : Knowledge Party Var} (h : Sound p c w r k)
    (taken : c + 1 ≤ k.clock .consumer) : Sound p (c + 1) w r (k.see .head (c + 1)) where
  tail := h.tail
  head := taken
  pushed := h.pushed
  popped := Nat.le_refl _
  written := h.written
  taken := h.taken

/-- Message `i` of `head_` is taken. -/
theorem Sound.see_head {k l : Knowledge Party Var} (hk : Sound p c w r k) (hl : Sound p c w r l)
    (stored : i ≤ c) (clock : i ≤ l.clock .consumer) :
    Sound p c w r ((k.see .head i).join l) where
  tail := max_le_max hk.tail hl.tail
  head := max_le (clock.trans (le_max_right ..)) (hl.head.trans (le_max_right ..))
  pushed := max_le hk.pushed hl.pushed
  popped := max_le stored hl.popped
  written := max_le hk.written hl.written
  taken := max_le hk.taken hl.taken

/-- Message `i` of `tail_` is taken. -/
theorem Sound.see_tail {k l : Knowledge Party Var} (hk : Sound p c w r k) (hl : Sound p c w r l)
    (stored : i ≤ p) (clock : i ≤ l.clock .producer) :
    Sound p c w r ((k.see .tail i).join l) where
  tail := max_le (clock.trans (le_max_right ..)) (hl.tail.trans (le_max_right ..))
  head := max_le_max hk.head hl.head
  pushed := max_le stored hl.pushed
  popped := max_le hk.popped hl.popped
  written := max_le hk.written hl.written
  taken := max_le hk.taken hl.taken

/-- The `i`-th message of an index has slot `i` and tells of the accesses before it. The slots of
the items from number `popped.length` on hold them, and the room that the producer knows of is
left. -/
structure Ring (n : ℕ) (m : RingMemory α) (pushed popped : List α) (w r : ℕ) : Prop where
  tails : (m.messages .tail).length = pushed.length + 1
  heads : (m.messages .head).length = popped.length + 1
  tail : ∀ j message, (m.messages .tail)[j]? = some message →
    message.value = slot n j ∧ j ≤ message.knowledge.clock .producer ∧
      message.knowledge.view .tail ≤ j
  head : ∀ j message, (m.messages .head)[j]? = some message →
    message.value = slot n j ∧ j ≤ message.knowledge.clock .consumer ∧
      message.knowledge.view .head ≤ j
  sound : All (Sound pushed.length popped.length w r) m
  ownTail : (m.known .producer).view .tail = pushed.length
  ownHead : (m.known .consumer).view .head = popped.length
  ownWrites : (m.known .producer).clock .producer = w
  ownReads : (m.known .consumer).clock .consumer = r
  writes : ∀ x, (m.plain x).writes .consumer = 0 ∧ (m.plain x).writes .producer ≤ w
  reads : ∀ x, (m.plain x).reads .producer = 0 ∧ ((m.plain x).reads .consumer = 0 ∨
    ∃ j < r, x = slot n j ∧ (m.plain x).reads .consumer = j + 1)
  held : ∀ j, popped.length ≤ j → j < w → (m.plain (slot n j)).writes .producer = j + 1 ∧
    ∀ (low : j < pushed.length), (m.plain (slot n j)).value = pushed[j]
  delivered : popped <+: pushed
  taken : r ≤ (m.known .consumer).view .tail
  room : w < (m.known .producer).view .head + n

/-- A slot comes again after a full turn, not earlier. -/
theorem slot_far (pos : 0 < n) (small : n < 2 ^ 31) (same : slot n j = slot n p) (less : j < p) :
    j + n ≤ p := by
  by_contra near
  have here := (slot_eq_iff pos small less.le (by omega)).mp same
  omega

namespace Ring

/-- The producer learns of more stores of `head_`, and nothing new about itself. -/
theorem learn_producer {k : Knowledge Party Var} (h : Ring n m pushed popped w r)
    (sound : Sound pushed.length popped.length w r k) (own : k.view .tail = pushed.length)
    (writes : k.clock .producer = w) (more : (m.known .producer).view .head ≤ k.view .head) :
    Ring n (m.learn .producer k) pushed popped w r where
  tails := h.tails
  heads := h.heads
  tail := h.tail
  head := h.head
  sound := h.sound.learn sound
  ownTail := by rwa [learn_known_self]
  ownHead := h.ownHead
  ownWrites := by rwa [learn_known_self]
  ownReads := h.ownReads
  writes := h.writes
  reads := h.reads
  held := h.held
  delivered := h.delivered
  taken := h.taken
  room := by
    have room := h.room
    rw [learn_known_self]
    omega

theorem learn_consumer {k : Knowledge Party Var} (h : Ring n m pushed popped w r)
    (sound : Sound pushed.length popped.length w r k) (own : k.view .head = popped.length)
    (reads : k.clock .consumer = r) (more : (m.known .consumer).view .tail ≤ k.view .tail) :
    Ring n (m.learn .consumer k) pushed popped w r where
  tails := h.tails
  heads := h.heads
  tail := h.tail
  head := h.head
  sound := h.sound.learn sound
  ownTail := h.ownTail
  ownHead := by rwa [learn_known_self]
  ownWrites := h.ownWrites
  ownReads := by rwa [learn_known_self]
  writes := h.writes
  reads := h.reads
  held := h.held
  delivered := h.delivered
  taken := by
    rw [learn_known_self]
    exact h.taken.trans more
  room := h.room

theorem load_tail_producer {acquire : Bool} (h : Ring n m pushed popped w r)
    (loaded : m.load .producer .tail acquire i = some (v, m')) :
    v = slot n pushed.length ∧ Ring n m' pushed popped w r := by
  obtain ⟨old, message, there, rfl, rfl⟩ := load_eq_some loaded
  have inside := (List.getElem?_eq_some_iff.mp there).1
  obtain rfl : i = pushed.length := by
    rw [h.tails] at inside
    rw [h.ownTail] at old
    omega
  obtain ⟨value, -, -⟩ := h.tail _ _ there
  have same : (m.known .producer).see .tail pushed.length = m.known .producer := by
    rw [← h.ownTail, Knowledge.see_view]
  have told := h.sound.told .tail message (List.mem_of_getElem? there)
  have own := h.sound.known .producer
  rw [same]
  refine ⟨value, ?_⟩
  cases acquire with
  | false => exact h.learn_producer own h.ownTail h.ownWrites (Nat.le_refl _)
  | true =>
    refine h.learn_producer (own.join told) ?_ ?_ (Nat.le_max_left ..)
    · exact (Nat.max_eq_left (told.pushed.trans_eq h.ownTail.symm)).trans h.ownTail
    · exact (Nat.max_eq_left (told.written.trans_eq h.ownWrites.symm)).trans h.ownWrites

/-- What `Push` and `MayFull` take for `head_` may be old. -/
theorem load_head_producer (h : Ring n m pushed popped w r)
    (loaded : m.load .producer .head true i = some (v, m')) :
    v = slot n i ∧ (m.known .producer).view .head ≤ i ∧ i ≤ popped.length ∧
      (m'.known .producer).view .head = i ∧ Ring n m' pushed popped w r := by
  obtain ⟨old, message, there, rfl, rfl⟩ := load_eq_some loaded
  have inside := (List.getElem?_eq_some_iff.mp there).1
  rw [h.heads] at inside
  obtain ⟨value, clock, view⟩ := h.head _ _ there
  have told := h.sound.told .head message (List.mem_of_getElem? there)
  have own := h.sound.known .producer
  have stored : i ≤ popped.length := Nat.le_of_lt_succ inside
  have seen : (((m.known .producer).see .head i).join message.knowledge).view .head = i :=
    Nat.max_eq_left view
  refine ⟨value, old, stored, ?_, h.learn_producer (own.see_head told stored clock) ?_ ?_ ?_⟩
  · rw [if_pos rfl, learn_known_self, seen]
  · exact (Nat.max_eq_left (told.pushed.trans_eq h.ownTail.symm)).trans h.ownTail
  · exact (Nat.max_eq_left (told.written.trans_eq h.ownWrites.symm)).trans h.ownWrites
  · exact old.trans_eq seen.symm

theorem load_head_consumer {acquire : Bool} (h : Ring n m pushed popped w r)
    (loaded : m.load .consumer .head acquire i = some (v, m')) :
    v = slot n popped.length ∧ (m.known .consumer).view .tail ≤ (m'.known .consumer).view .tail ∧
      Ring n m' pushed popped w r := by
  obtain ⟨old, message, there, rfl, rfl⟩ := load_eq_some loaded
  have inside := (List.getElem?_eq_some_iff.mp there).1
  obtain rfl : i = popped.length := by
    rw [h.heads] at inside
    rw [h.ownHead] at old
    omega
  obtain ⟨value, -, -⟩ := h.head _ _ there
  have same : (m.known .consumer).see .head popped.length = m.known .consumer := by
    rw [← h.ownHead, Knowledge.see_view]
  have told := h.sound.told .head message (List.mem_of_getElem? there)
  have own := h.sound.known .consumer
  rw [same, learn_known_self]
  refine ⟨value, ?_⟩
  cases acquire with
  | false => exact ⟨Nat.le_refl _, h.learn_consumer own h.ownHead h.ownReads (Nat.le_refl _)⟩
  | true =>
    refine ⟨Nat.le_max_left .., h.learn_consumer (own.join told) ?_ ?_ (Nat.le_max_left ..)⟩
    · exact (Nat.max_eq_left (told.popped.trans_eq h.ownHead.symm)).trans h.ownHead
    · exact (Nat.max_eq_left (told.taken.trans_eq h.ownReads.symm)).trans h.ownReads

/-- What `Pop` and `MayEmpty` take for `tail_` may be old. -/
theorem load_tail_consumer (h : Ring n m pushed popped w r)
    (loaded : m.load .consumer .tail true i = some (v, m')) :
    v = slot n i ∧ (m.known .consumer).view .tail ≤ i ∧ i ≤ pushed.length ∧
      (m'.known .consumer).view .tail = i ∧ Ring n m' pushed popped w r := by
  obtain ⟨old, message, there, rfl, rfl⟩ := load_eq_some loaded
  have inside := (List.getElem?_eq_some_iff.mp there).1
  rw [h.tails] at inside
  obtain ⟨value, clock, view⟩ := h.tail _ _ there
  have told := h.sound.told .tail message (List.mem_of_getElem? there)
  have own := h.sound.known .consumer
  have stored : i ≤ pushed.length := Nat.le_of_lt_succ inside
  have seen : (((m.known .consumer).see .tail i).join message.knowledge).view .tail = i :=
    Nat.max_eq_left view
  refine ⟨value, old, stored, ?_, h.learn_consumer (own.see_tail told stored clock) ?_ ?_ ?_⟩
  · rw [if_pos rfl, learn_known_self, seen]
  · exact (Nat.max_eq_left (told.popped.trans_eq h.ownHead.symm)).trans h.ownHead
  · exact (Nat.max_eq_left (told.taken.trans_eq h.ownReads.symm)).trans h.ownReads
  · exact old.trans_eq seen.symm

/-- The write of the item after the last is ordered with all accesses of its slot. -/
theorem write_ordered (pos : 0 < n) (small : n < 2 ^ 31) (h : Ring n m pushed popped w r)
    (room : pushed.length + 1 < (m.known .producer).view .head + n) :
    m.WriteOrdered .producer (slot n pushed.length) := by
  rintro (_ | _)
  · rw [h.ownWrites, (h.reads _).1]
    exact ⟨(h.writes _).2, Nat.zero_le _⟩
  · refine ⟨(h.writes _).1.trans_le (Nat.zero_le _), ?_⟩
    rcases (h.reads (slot n pushed.length)).2 with none | ⟨j, before, same, last⟩
    · exact none.trans_le (Nat.zero_le _)
    · have pushes := h.taken.trans (h.sound.known .consumer).pushed
      have far := slot_far pos small same.symm (before.trans_le pushes)
      have known := (h.sound.known .producer).head
      omega

/-- The read of an item that the consumer knows to be pushed is ordered with all writes. -/
theorem read_ordered (h : Ring n m pushed popped w r)
    (some : popped.length < (m.known .consumer).view .tail) :
    m.ReadOrdered .consumer (slot n popped.length) := by
  have sound := h.sound.known .consumer
  have own := (h.sound.known .consumer).written
  rintro (_ | _)
  · have written := (h.held popped.length (Nat.le_refl _) (by have := sound.tail; omega)).1
    rw [written]
    exact some.trans_le sound.tail
  · exact (h.writes _).1.trans_le (Nat.zero_le _)

theorem sound_write (h : Ring n m pushed popped w r) (x : BitVec 32) (item : α) :
    All (Sound pushed.length popped.length (w + 1) r) (m.write .producer x item) := by
  have weaker := h.sound.mono fun k hk =>
    hk.mono (Nat.le_refl _) (Nat.le_refl _) (Nat.le_succ w) (Nat.le_refl _)
  have own := weaker.learn (t := .producer) (h.sound.known .producer).tick_producer
  exact ⟨own.known, own.told⟩

theorem sound_read (h : Ring n m pushed popped w r) (x : BitVec 32) :
    All (Sound pushed.length popped.length w (r + 1)) (m.read .consumer x).2 := by
  have weaker := h.sound.mono fun k hk =>
    hk.mono (Nat.le_refl _) (Nat.le_refl _) (Nat.le_refl _) (Nat.le_succ r)
  have own := weaker.learn (t := .consumer) (h.sound.known .consumer).tick_consumer
  exact ⟨own.known, own.told⟩

theorem write (pos : 0 < n) (small : n < 2 ^ 31) (h : Ring n m pushed popped pushed.length r)
    (room : pushed.length + 1 < (m.known .producer).view .head + n) (item : α) :
    Ring n (m.write .producer (slot n pushed.length) item) pushed popped (pushed.length + 1) r where
  tails := h.tails
  heads := h.heads
  tail := h.tail
  head := h.head
  sound := h.sound_write _ item
  ownTail := by
    rw [write_known_self]
    exact h.ownTail
  ownHead := h.ownHead
  ownWrites := by
    rw [write_known_self]
    exact congrArg (· + 1) h.ownWrites
  ownReads := h.ownReads
  writes x := by
    obtain ⟨none, le⟩ := h.writes x
    by_cases same : x = slot n pushed.length
    · rw [← same, write_plain_self]
      exact ⟨none, (congrArg (· + 1) h.ownWrites).le⟩
    · rw [write_plain_of_ne same]
      exact ⟨none, le.trans (Nat.le_succ _)⟩
  reads x := by
    by_cases same : x = slot n pushed.length
    · rw [← same, write_plain_self]
      exact h.reads x
    · rw [write_plain_of_ne same]
      exact h.reads x
  held j low before := by
    by_cases last : j = pushed.length
    · subst last
      rw [write_plain_self]
      exact ⟨congrArg (· + 1) h.ownWrites, fun no => absurd no (Nat.lt_irrefl _)⟩
    · have inside : j < pushed.length := by omega
      have apart : slot n j ≠ slot n pushed.length := by
        intro same
        have far := slot_far pos small same inside
        have known := (h.sound.known .producer).popped
        omega
      rw [write_plain_of_ne apart]
      exact h.held j low inside
  delivered := h.delivered
  taken := h.taken
  room := by
    rw [write_known_self]
    exact room

theorem storeTail {item : α} (h : Ring n m pushed popped (pushed.length + 1) r)
    (value : (m.plain (slot n pushed.length)).value = item) :
    Ring n (m.store .producer .tail (slot n (pushed.length + 1)) true) (pushed ++ [item]) popped
      (pushed.length + 1) r where
  tails := by simp [store_messages_self, h.tails]
  heads := h.heads
  tail j message there := by
    rcases store_message there with old | ⟨rfl, rfl⟩
    · exact h.tail j message old
    · rw [h.tails]
      exact ⟨rfl, h.ownWrites.ge, Nat.le_refl _⟩
  head := h.head
  sound := by
    have weaker := h.sound.mono fun k hk =>
      hk.mono (Nat.le_succ pushed.length) (Nat.le_refl popped.length) (Nat.le_refl _)
        (Nat.le_refl r)
    have own := (h.sound.known .producer).see_pushed h.ownWrites.ge
    rw [List.length_append, List.length_singleton]
    refine weaker.store ?_ sound_empty
    rwa [h.tails]
  ownTail := by
    rw [store_known_self, h.tails, List.length_append, List.length_singleton]
    rfl
  ownHead := h.ownHead
  ownWrites := by
    rw [store_known_self]
    exact h.ownWrites
  ownReads := h.ownReads
  writes := h.writes
  reads := h.reads
  held j low before := by
    obtain ⟨written, there⟩ := h.held j low before
    refine ⟨written, fun inside => ?_⟩
    by_cases last : j = pushed.length
    · subst last
      exact value.trans (List.getElem_concat_length rfl inside).symm
    · have old : j < pushed.length := by omega
      exact (there old).trans (List.getElem_append_left old).symm
  delivered := h.delivered.trans (List.prefix_append ..)
  taken := h.taken
  room := by
    rw [store_known_self]
    exact h.room

theorem read (h : Ring n m pushed popped w popped.length)
    (some : popped.length < (m.known .consumer).view .tail) :
    pushed[popped.length]? = .some (m.read .consumer (slot n popped.length)).1 ∧
      Ring n (m.read .consumer (slot n popped.length)).2 pushed popped w (popped.length + 1) := by
  have sound := h.sound.known .consumer
  have inside : popped.length < pushed.length := some.trans_le sound.pushed
  have value := (h.held popped.length (Nat.le_refl _)
    (some.trans_le (sound.tail.trans sound.written))).2 inside
  refine ⟨(List.getElem?_eq_getElem inside).trans (congrArg _ value.symm), ?_⟩
  exact
    { tails := h.tails
      heads := h.heads
      tail := h.tail
      head := h.head
      sound := h.sound_read _
      ownTail := h.ownTail
      ownHead := by
        rw [read_known_self]
        exact h.ownHead
      ownWrites := h.ownWrites
      ownReads := by
        rw [read_known_self]
        exact congrArg (· + 1) h.ownReads
      writes := fun x => by
        by_cases same : x = slot n popped.length
        · rw [← same, read_plain_self]
          exact h.writes x
        · rw [read_plain_of_ne same]
          exact h.writes x
      reads := fun x => by
        obtain ⟨none, last⟩ := h.reads x
        by_cases same : x = slot n popped.length
        · rw [← same, read_plain_self]
          exact ⟨none, .inr ⟨popped.length, Nat.lt_succ_self _, same, congrArg (· + 1) h.ownReads⟩⟩
        · rw [read_plain_of_ne same]
          refine ⟨none, last.imp_right fun ⟨j, before, there⟩ => ⟨j, before.trans ?_, there⟩⟩
          exact Nat.lt_succ_self _
      held := fun j low before => by
        by_cases same : slot n j = slot n popped.length
        · rw [← same, read_plain_self]
          exact h.held j low before
        · rw [read_plain_of_ne same]
          exact h.held j low before
      delivered := h.delivered
      taken := by
        rw [read_known_self]
        exact some
      room := h.room }

theorem storeHead {item : α} (h : Ring n m pushed popped w (popped.length + 1))
    (oldest : pushed[popped.length]? = some item) :
    Ring n (m.store .consumer .head (slot n (popped.length + 1)) true) pushed (popped ++ [item]) w
      (popped.length + 1) where
  tails := h.tails
  heads := by simp [store_messages_self, h.heads]
  tail := h.tail
  head j message there := by
    rcases store_message there with old | ⟨rfl, rfl⟩
    · exact h.head j message old
    · rw [h.heads]
      exact ⟨rfl, h.ownReads.ge, Nat.le_refl _⟩
  sound := by
    have weaker := h.sound.mono fun k hk =>
      hk.mono (Nat.le_refl pushed.length) (Nat.le_succ popped.length) (Nat.le_refl w)
        (Nat.le_refl _)
    have own := (h.sound.known .consumer).see_popped h.ownReads.ge
    rw [List.length_append, List.length_singleton]
    refine weaker.store ?_ sound_empty
    rwa [h.heads]
  ownTail := h.ownTail
  ownHead := by
    rw [store_known_self, h.heads, List.length_append, List.length_singleton]
    rfl
  ownWrites := h.ownWrites
  ownReads := by
    rw [store_known_self]
    exact h.ownReads
  writes := h.writes
  reads := h.reads
  held j low before := by
    rw [List.length_append, List.length_singleton] at low
    exact h.held j (by omega) before
  delivered := by
    obtain ⟨lt, itemEq⟩ := List.getElem?_eq_some_iff.mp oldest
    rw [List.prefix_iff_eq_take.mp h.delivered, ← itemEq]
    simpa using List.take_prefix (popped.length + 1) pushed
  taken := by
    rw [store_known_self]
    exact h.taken
  room := h.room

end Ring

end Codelab.CircularQueue
