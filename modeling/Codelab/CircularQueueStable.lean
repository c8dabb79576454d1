import Codelab.CircularQueueSequential
import Codelab.Theory.History

/-! What a negative answer of `MayFull` or `MayEmpty` is worth to the thread that asked. The
other side can only make room or add items, so the answer holds until the thread's next call
that succeeds. -/

namespace Codelab.CircularQueue

variable {α : Type*} {capacity : BitVec 32} {s s' : Spsc α}

/-- `room`: a `MayFull` has returned false and no `Push` has returned since. `item` is the same
for `MayEmpty` and `Pop`. -/
structure Promise where
  room : Bool
  item : Bool

namespace Promise

def start (_ : Spsc α) : Promise where
  room := false
  item := false

def note (_ : Spsc α) (a : Action α) (s' : Spsc α) (past : Promise) : Promise :=
  match a with
  | .producer =>
    match s'.producer with
    | .mayFull false => { past with room := true }
    | .done _ => { past with room := false }
    | _ => past
  | .consumer =>
    match s'.consumer with
    | .mayEmpty false => { past with item := true }
    | .done _ => { past with item := false }
    | _ => past
  | _ => past

end Promise

/-- The runs of the ring with the answers that still count. -/
def promised (α : Type*) (capacity : BitVec 32) : Machine (Spsc α × Promise) (Action α) :=
  (spsc α capacity).recorded Promise.start Promise.note

/-- The steps that are left of a `Push`. -/
def PushPc.left : PushPc α → ℕ
  | .loadTail _ => 4
  | .loadHead _ _ _ => 3
  | .write _ _ _ => 2
  | .storeTail _ _ => 1
  | _ => 0

/-- The steps that are left of a `Pop`. -/
def PopPc.left : PopPc α → ℕ
  | .loadHead => 4
  | .loadTail _ => 3
  | .read _ => 2
  | .storeHead _ _ => 1
  | _ => 0

/-- A promise is kept: there is room, or an item. -/
structure Kept (n : ℕ) (s : Spsc α) (past : Promise) : Prop where
  room : past.room = true → s.pushed.length + 1 < s.popped.length + n
  item : past.item = true → s.popped.length < s.pushed.length

/-- What a step of the producer does to the histories. -/
theorem producer_effect (next : s.next .producer = some s') :
    s'.consumer = s.consumer ∧ s'.popped = s.popped ∧ s.pushed.length ≤ s'.pushed.length ∧
      (s'.pushed = s.pushed ∨ s'.producer = .done true) := by
  cases pc : s.producer with
  | loadHead item currTail nextTail =>
    simp only [Spsc.next, Spsc.stepProducer, pc] at next
    split_ifs at next <;> obtain rfl := Option.some.inj next <;> exact ⟨rfl, rfl, le_rfl, .inl rfl⟩
  | storeTail item nextTail =>
    simp only [Spsc.next, Spsc.stepProducer, pc] at next
    obtain rfl := Option.some.inj next
    exact ⟨rfl, rfl, by simp, .inr rfl⟩
  | idle | done r | mayFull answer =>
    simp only [Spsc.next, Spsc.stepProducer, pc, reduceCtorEq] at next
  | _ =>
    simp only [Spsc.next, Spsc.stepProducer, pc] at next
    obtain rfl := Option.some.inj next
    exact ⟨rfl, rfl, le_rfl, .inl rfl⟩

theorem consumer_effect (next : s.next .consumer = some s') :
    s'.producer = s.producer ∧ s'.pushed = s.pushed ∧ s.popped.length ≤ s'.popped.length ∧
      (s'.popped = s.popped ∨ s'.consumer = .done true) := by
  cases pc : s.consumer with
  | loadTail currHead =>
    simp only [Spsc.next, Spsc.stepConsumer, pc] at next
    split_ifs at next <;> obtain rfl := Option.some.inj next <;> exact ⟨rfl, rfl, le_rfl, .inl rfl⟩
  | storeHead currHead item =>
    simp only [Spsc.next, Spsc.stepConsumer, pc] at next
    obtain rfl := Option.some.inj next
    exact ⟨rfl, rfl, by simp, .inr rfl⟩
  | idle | done r | mayEmpty answer =>
    simp only [Spsc.next, Spsc.stepConsumer, pc, reduceCtorEq] at next
  | _ =>
    simp only [Spsc.next, Spsc.stepConsumer, pc] at next
    obtain rfl := Option.some.inj next
    exact ⟨rfl, rfl, le_rfl, .inl rfl⟩

theorem Kept.next {n : ℕ} {past : Promise} {a : Action α} (h : Kept n s past)
    (inv' : SpscInv n s') (next : s.next a = some s') : Kept n s' (past.note s a s') := by
  cases a with
  | producer =>
    obtain ⟨-, popped, grow, pushed⟩ := producer_effect next
    have item (some : past.item = true) : s'.popped.length < s'.pushed.length := by
      rw [popped]
      exact (h.item some).trans_le grow
    have ok := inv'.producer
    simp only [Promise.note]
    split
    next here =>
      rw [ProducerOk, here] at ok
      exact ⟨fun _ => ok rfl, item⟩
    next => exact ⟨by simp, item⟩
    next none unfinished =>
      have same : s'.pushed = s.pushed := pushed.resolve_right (unfinished true)
      refine ⟨fun some => ?_, item⟩
      rw [same, popped]
      exact h.room some
  | consumer =>
    obtain ⟨-, pushed, grow, popped⟩ := consumer_effect next
    have room (some : past.room = true) : s'.pushed.length + 1 < s'.popped.length + n := by
      have before := h.room some
      rw [pushed]
      omega
    have ok := inv'.consumer
    simp only [Promise.note]
    split
    next here =>
      rw [ConsumerOk, here] at ok
      exact ⟨room, fun _ => ok rfl⟩
    next => exact ⟨room, by simp⟩
    next none unfinished =>
      have same : s'.popped = s.popped := popped.resolve_right (unfinished true)
      refine ⟨room, fun some => ?_⟩
      rw [same, pushed]
      exact h.item some
  | push item | askFull | pop | askEmpty =>
    simp only [Spsc.next] at next
    split_ifs at next
    obtain rfl := Option.some.inj next
    exact ⟨h.room, h.item⟩

theorem promised_inv (h : ValidCapacity capacity) {p : Spsc α × Promise}
    (hs : (promised α capacity).Reachable p) :
    SpscInv capacity.toNat p.1 ∧ Kept capacity.toNat p.1 p.2 := by
  refine hs.recorded_invariant
    (fun s past => SpscInv capacity.toNat s ∧ Kept capacity.toNat s past) (fun s start => ?_)
    fun s a s' past before _ next => ?_
  · exact ⟨spsc_init h start, by simp [Promise.start], by simp [Promise.start]⟩
  · have inv' := before.1.next h next
    exact ⟨inv', before.2.next inv' next⟩

/-- A `Push` with `k` steps to go that is going to return true. -/
structure Pushing (n : ℕ) (s : Spsc α) (k : ℕ) : Prop where
  inv : SpscInv n s
  left : s.producer.left = k
  room : 0 < k → s.pushed.length + 1 < s.popped.length + n
  done : k = 0 → s.producer = .done true

/-- A `Pop` with `k` steps to go that is going to return true. -/
structure Popping (n : ℕ) (s : Spsc α) (k : ℕ) : Prop where
  inv : SpscInv n s
  left : s.consumer.left = k
  item : 0 < k → s.popped.length < s.pushed.length
  done : k = 0 → s.consumer = .done true

/-- The actions of the thread that pops. -/
def Action.consumes : Action α → Bool
  | .pop | .askEmpty | .consumer => true
  | _ => false

theorem Pushing.step (h : ValidCapacity capacity) {k : ℕ}
    (going : Pushing capacity.toNat s (k + 1)) :
    ∃ s', s.next .producer = some s' ∧ Pushing capacity.toNat s' k := by
  have inv := going.inv
  have ok := inv.producer
  have room := going.room (Nat.succ_pos k)
  have more := going.left
  suffices moves : ∃ s', s.next .producer = some s' ∧ s'.producer.left = k ∧
      (0 < k → s'.pushed = s.pushed ∧ s'.popped = s.popped) ∧
      (k = 0 → s'.producer = .done true) by
    obtain ⟨s', next, left, same, done⟩ := moves
    refine ⟨s', next, inv.next h next, left, fun some => ?_, done⟩
    rw [(same some).1, (same some).2]
    exact room
  cases pc : s.producer with
  | loadTail item =>
    rw [pc, PushPc.left] at more
    obtain rfl : k = 3 := by omega
    exact ⟨{ s with
      producer := .loadHead item s.q.tail (s.q.capacityMask &&& (s.q.tail + 1)) },
      by simp only [Spsc.next, Spsc.stepProducer, pc], rfl, fun _ => ⟨rfl, rfl⟩, by simp⟩
  | loadHead item currTail nextTail =>
    rw [pc, PushPc.left] at more
    rw [ProducerOk, pc] at ok
    obtain rfl : k = 2 := by omega
    have differ : nextTail ≠ s.q.head := by
      rw [ok.2, Ne, inv.full_iff h]
      omega
    exact ⟨{ s with producer := .write item currTail nextTail },
      by simp only [Spsc.next, Spsc.stepProducer, pc, if_pos differ], rfl, fun _ => ⟨rfl, rfl⟩,
      by simp⟩
  | write item currTail nextTail =>
    rw [pc, PushPc.left] at more
    obtain rfl : k = 1 := by omega
    exact ⟨{ s with
      q := { s.q with queue := Function.update s.q.queue currTail item }
      producer := .storeTail item nextTail },
      by simp only [Spsc.next, Spsc.stepProducer, pc], rfl, fun _ => ⟨rfl, rfl⟩, by simp⟩
  | storeTail item nextTail =>
    rw [pc, PushPc.left] at more
    obtain rfl : k = 0 := by omega
    exact ⟨{ s with
      q := { s.q with tail := nextTail }
      producer := .done true
      pushed := s.pushed ++ [item] },
      by simp only [Spsc.next, Spsc.stepProducer, pc], rfl, by simp, fun _ => rfl⟩
  | _ =>
    rw [pc] at more
    cases more

theorem Popping.step (h : ValidCapacity capacity) {k : ℕ}
    (going : Popping capacity.toNat s (k + 1)) :
    ∃ s', s.next .consumer = some s' ∧ Popping capacity.toNat s' k := by
  have inv := going.inv
  have ok := inv.consumer
  have item := going.item (Nat.succ_pos k)
  have more := going.left
  suffices moves : ∃ s', s.next .consumer = some s' ∧ s'.consumer.left = k ∧
      (0 < k → s'.pushed = s.pushed ∧ s'.popped = s.popped) ∧
      (k = 0 → s'.consumer = .done true) by
    obtain ⟨s', next, left, same, done⟩ := moves
    refine ⟨s', next, inv.next h next, left, fun some => ?_, done⟩
    rw [(same some).1, (same some).2]
    exact item
  cases pc : s.consumer with
  | loadHead =>
    rw [pc, PopPc.left] at more
    obtain rfl : k = 3 := by omega
    exact ⟨{ s with consumer := .loadTail s.q.head },
      by simp only [Spsc.next, Spsc.stepConsumer, pc], rfl, fun _ => ⟨rfl, rfl⟩, by simp⟩
  | loadTail currHead =>
    rw [pc, PopPc.left] at more
    rw [ConsumerOk, pc] at ok
    obtain rfl : k = 2 := by omega
    have differ : currHead ≠ s.q.tail := by
      rw [ok, Ne, inv.empty_iff h]
      omega
    exact ⟨{ s with consumer := .read currHead },
      by simp only [Spsc.next, Spsc.stepConsumer, pc, if_neg differ], rfl, fun _ => ⟨rfl, rfl⟩,
      by simp⟩
  | read currHead =>
    rw [pc, PopPc.left] at more
    obtain rfl : k = 1 := by omega
    exact ⟨{ s with consumer := .storeHead currHead (s.q.queue currHead) },
      by simp only [Spsc.next, Spsc.stepConsumer, pc], rfl, fun _ => ⟨rfl, rfl⟩, by simp⟩
  | storeHead currHead item =>
    rw [pc, PopPc.left] at more
    obtain rfl : k = 0 := by omega
    exact ⟨{ s with
      q := { s.q with head := (currHead + 1) &&& s.q.capacityMask }
      consumer := .done true
      popped := s.popped ++ [item] },
      by simp only [Spsc.next, Spsc.stepConsumer, pc], rfl, by simp, fun _ => rfl⟩
  | _ =>
    rw [pc] at more
    cases more

/-- What the other thread does meanwhile makes no difference. -/
theorem Pushing.wait (h : ValidCapacity capacity) {k : ℕ} (going : Pushing capacity.toNat s k)
    {a : Action α} (other : a.consumes = true) (next : s.next a = some s') :
    Pushing capacity.toNat s' k := by
  suffices same : s'.producer = s.producer ∧ s'.pushed = s.pushed ∧
      s.popped.length ≤ s'.popped.length by
    obtain ⟨pc, pushed, grow⟩ := same
    refine ⟨going.inv.next h next, pc ▸ going.left, fun some => ?_, fun none => ?_⟩
    · have before := going.room some
      rw [pushed]
      omega
    · rw [pc]
      exact going.done none
  cases a with
  | consumer =>
    obtain ⟨pc, pushed, grow, -⟩ := consumer_effect next
    exact ⟨pc, pushed, grow⟩
  | pop | askEmpty =>
    simp only [Spsc.next] at next
    split_ifs at next
    obtain rfl := Option.some.inj next
    exact ⟨rfl, rfl, le_rfl⟩
  | _ => cases other

theorem Popping.wait (h : ValidCapacity capacity) {k : ℕ} (going : Popping capacity.toNat s k)
    {a : Action α} (other : a.consumes = false) (next : s.next a = some s') :
    Popping capacity.toNat s' k := by
  suffices same : s'.consumer = s.consumer ∧ s'.popped = s.popped ∧
      s.pushed.length ≤ s'.pushed.length by
    obtain ⟨pc, popped, grow⟩ := same
    refine ⟨going.inv.next h next, pc ▸ going.left, fun some => ?_, fun none => ?_⟩
    · have before := going.item some
      rw [popped]
      omega
    · rw [pc]
      exact going.done none
  cases a with
  | producer =>
    obtain ⟨pc, popped, grow, -⟩ := producer_effect next
    exact ⟨pc, popped, grow⟩
  | push item | askFull =>
    simp only [Spsc.next] at next
    split_ifs at next
    obtain rfl := Option.some.inj next
    exact ⟨rfl, rfl, le_rfl⟩
  | _ => cases other

theorem Pushing.turn (h : ValidCapacity capacity) {k : ℕ} (going : Pushing capacity.toNat s k)
    (next : s.next .producer = some s') : ∃ k', k = k' + 1 ∧ Pushing capacity.toNat s' k' := by
  cases k with
  | zero =>
    have ended := going.done rfl
    simp only [Spsc.next, Spsc.stepProducer, ended, reduceCtorEq] at next
  | succ k =>
    obtain ⟨s₁, moved, going'⟩ := going.step h
    obtain rfl := Option.some.inj (moved.symm.trans next)
    exact ⟨k, rfl, going'⟩

theorem Popping.turn (h : ValidCapacity capacity) {k : ℕ} (going : Popping capacity.toNat s k)
    (next : s.next .consumer = some s') : ∃ k', k = k' + 1 ∧ Popping capacity.toNat s' k' := by
  cases k with
  | zero =>
    have ended := going.done rfl
    simp only [Spsc.next, Spsc.stepConsumer, ended, reduceCtorEq] at next
  | succ k =>
    obtain ⟨s₁, moved, going'⟩ := going.step h
    obtain rfl := Option.some.inj (moved.symm.trans next)
    exact ⟨k, rfl, going'⟩

/-- Each turn of its thread brings a `Push` nearer to its end. -/
theorem Pushing.run (h : ValidCapacity capacity) {k : ℕ} (going : Pushing capacity.toNat s k)
    {as : List (Action α)} (turns : ∀ a ∈ as, a = .producer ∨ a.consumes = true)
    (ran : (spsc α capacity).run s as = some s') :
    ∃ left, left + as.countP (fun a => !a.consumes) = k ∧ Pushing capacity.toNat s' left := by
  refine Machine.run_countdown (fun a => !a.consumes) (fun a => a = .producer ∨ a.consumes = true)
    (Pushing capacity.toNat) (fun s a s' k going admitted mine next => ?_)
    (fun s a s' k going _ other next => going.wait h (by simpa using other) next) going turns ran
  rcases admitted with rfl | other
  · exact going.turn h next
  · simp [other] at mine

theorem Popping.run (h : ValidCapacity capacity) {k : ℕ} (going : Popping capacity.toNat s k)
    {as : List (Action α)} (turns : ∀ a ∈ as, a = .consumer ∨ a.consumes = false)
    (ran : (spsc α capacity).run s as = some s') :
    ∃ left, left + as.countP Action.consumes = k ∧ Popping capacity.toNat s' left := by
  refine Machine.run_countdown Action.consumes (fun a => a = .consumer ∨ a.consumes = false)
    (Popping capacity.toNat) (fun s a s' k going admitted mine next => ?_)
    (fun s a s' k going _ other next => going.wait h other next) going turns ran
  rcases admitted with rfl | other
  · exact going.turn h next
  · simp [other] at mine

/-- A thread that has been told that there is room succeeds with its next `Push`, and one that
has been told that there is an item with its next `Pop`, in four of its own steps and whatever
the other thread does; and while no call is in progress the answers are exact. -/
theorem may_stable (h : ValidCapacity capacity) {past : Promise}
    (hs : (promised α capacity).Reachable (s, past)) :
    (past.room = true → ∀ item as s', (∀ a ∈ as, a = .producer ∨ a.consumes = true) →
      (spsc α capacity).run s (.push item :: as) = some s' →
      s'.producer.left + as.countP (fun a => !a.consumes) = 4 ∧
      (s'.producer.left = 0 → s'.producer = .done true) ∧
      (0 < s'.producer.left → (s'.next .producer).isSome)) ∧
    (past.item = true → ∀ as s', (∀ a ∈ as, a = .consumer ∨ a.consumes = false) →
      (spsc α capacity).run s (.pop :: as) = some s' →
      s'.consumer.left + as.countP Action.consumes = 4 ∧
      (s'.consumer.left = 0 → s'.consumer = .done true) ∧
      (0 < s'.consumer.left → (s'.next .consumer).isSome)) ∧
    (s.producer.resting = true → s.consumer.resting = true →
      (∃ full, ((spsc α capacity).run s [.askFull, .producer, .producer]).map Spsc.producer =
          some (.mayFull full) ∧
        ∀ item, ((spsc α capacity).run s
          (.push item :: List.replicate (if full then 2 else 4) .producer)).map Spsc.producer =
            some (.done !full)) ∧
      ∃ empty, ((spsc α capacity).run s [.askEmpty, .consumer, .consumer]).map Spsc.consumer =
          some (.mayEmpty empty) ∧
        ((spsc α capacity).run s
          (.pop :: List.replicate (if empty then 2 else 4) .consumer)).map Spsc.consumer =
            some (.done !empty)) := by
  obtain ⟨inv, kept⟩ := promised_inv h hs
  refine ⟨fun told item as s' turns ran => ?_, fun told as s' turns ran => ?_,
    fun ready ready' => ⟨?_, ?_⟩⟩
  · obtain ⟨s₁, next, rest⟩ := Option.bind_eq_some_iff.mp ran
    have going : Pushing capacity.toNat s₁ 4 := by
      have begun : s.next (.push item) = some s₁ := next
      have inv₁ := inv.next h begun
      simp only [Spsc.next] at begun
      split_ifs at begun
      obtain rfl := Option.some.inj begun
      exact ⟨inv₁, rfl, fun _ => kept.room told, by simp⟩
    obtain ⟨left, count, at_end⟩ := going.run h turns rest
    rw [at_end.left]
    refine ⟨count, at_end.done, fun some => ?_⟩
    obtain ⟨k, rfl⟩ := Nat.exists_eq_add_one_of_ne_zero some.ne'
    obtain ⟨s₂, moves, -⟩ := at_end.step h
    rw [moves]
    rfl
  · obtain ⟨s₁, next, rest⟩ := Option.bind_eq_some_iff.mp ran
    have going : Popping capacity.toNat s₁ 4 := by
      have begun : s.next .pop = some s₁ := next
      have inv₁ := inv.next h begun
      simp only [Spsc.next] at begun
      split_ifs at begun
      obtain rfl := Option.some.inj begun
      exact ⟨inv₁, rfl, fun _ => kept.item told, by simp⟩
    obtain ⟨left, count, at_end⟩ := going.run h turns rest
    rw [at_end.left]
    refine ⟨count, at_end.done, fun some => ?_⟩
    obtain ⟨k, rfl⟩ := Nat.exists_eq_add_one_of_ne_zero some.ne'
    obtain ⟨s₂, moves, -⟩ := at_end.step h
    rw [moves]
    rfl
  · refine ⟨s.q.mayFull, by rw [mayFull_run ready]; rfl, fun item => ?_⟩
    have steps : (if s.q.mayFull then 2 else 4) = if (s.q.push item).2 then 4 else 2 := by
      rw [push_succeeds]
      cases s.q.mayFull <;> rfl
    rw [steps, push_run ready, ← push_succeeds s.q item]
    rfl
  · refine ⟨s.q.mayEmpty, by rw [mayEmpty_run ready']; rfl, ?_⟩
    have steps : (if s.q.mayEmpty then 2 else 4) = if s.q.pop.2.isSome then 4 else 2 := by
      rw [pop_succeeds]
      cases s.q.mayEmpty <;> rfl
    rw [steps, pop_run ready', ← pop_succeeds]
    rfl

/-- A ring with room for one item, which the producer has been told of; the consumer finds
nothing while the item is on its way. -/
theorem told_run : ∃ p : Spsc ℕ × Promise, (promised ℕ 2).Reachable p ∧ p.2.room = true ∧
    ∃ s', (spsc ℕ 2).run p.1 (.push 7 :: [.producer, .pop, .producer, .consumer, .consumer,
      .producer, .producer]) = some s' := by
  let fresh : CircularQueue ℕ := ⟨fun _ => 0, 2, 1, 0, 0⟩
  have start : (promised ℕ 2).init (⟨fresh, .idle, .idle, [], []⟩, ⟨false, false⟩) :=
    ⟨⟨fresh, fun _ => 0, rfl, rfl, rfl, rfl, rfl, rfl, rfl⟩, rfl⟩
  have ran : (((promised ℕ 2).run (⟨fresh, .idle, .idle, [], []⟩, ⟨false, false⟩)
      [.askFull, .producer, .producer]).map fun p => (p.2.room,
        ((spsc ℕ 2).run p.1 (.push 7 :: [.producer, .pop, .producer, .consumer, .consumer,
          .producer, .producer])).isSome)) = some (true, true) := by decide
  obtain ⟨p, run, told⟩ := Option.map_eq_some_iff.mp ran
  obtain ⟨room, carried⟩ := Prod.mk.inj told
  exact ⟨p, Machine.run_reachable (.init start) run, room, Option.isSome_iff_exists.mp carried⟩

/-- The item arrives. -/
theorem may_stable_told : ∃ (p : Spsc ℕ × Promise) (s' : Spsc ℕ), p.2.room = true ∧
    (spsc ℕ 2).run p.1 (.push 7 :: [.producer, .pop, .producer, .consumer, .consumer,
      .producer, .producer]) = some s' ∧ s'.producer = .done true := by
  obtain ⟨p, reached, room, s', ran⟩ := told_run
  obtain ⟨pushes, -⟩ := may_stable ⟨by decide, 1, rfl⟩ reached
  obtain ⟨count, ended, -⟩ := pushes room 7 [.producer, .pop, .producer, .consumer, .consumer,
    .producer, .producer] s' (by simp [Action.consumes]) ran
  have four : List.countP (fun a : Action ℕ => !a.consumes) [.producer, .pop, .producer,
    .consumer, .consumer, .producer, .producer] = 4 := rfl
  exact ⟨p, s', room, ran, ended (by omega)⟩

end Codelab.CircularQueue
