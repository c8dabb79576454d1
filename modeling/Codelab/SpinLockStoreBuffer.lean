import Codelab.SpinLockCounter
import Codelab.Theory.StoreBuffer
import Mathlib.Tactic.Common

/-! `cpu_order.cpp` on processors with store buffers. The store in `Lock` is the one of the source,
`memory_order_release`, which waits in the buffer like every other store, or the one in the comment
below it, `memory_order_seq_cst`, which does not. -/

namespace Codelab.SpinLock

open Census

inductive Cell (maxLocks : ℕ)
  | flag (t : Fin maxLocks)
  | counter
  deriving DecidableEq

inductive MemoryOrder
  | release
  | seqCst
  deriving DecidableEq

structure BufferedState (maxLocks : ℕ) where
  cells : Buffered (Fin maxLocks) (Cell maxLocks) (BitVec 32)
  pc : Fin maxLocks → Pc maxLocks
  body : Fin maxLocks → Body
  added : Fin maxLocks → ℕ

/-- A thread goes on, or the oldest store in its buffer reaches the memory. -/
inductive BufferedAction (maxLocks : ℕ)
  | step (t : Fin maxLocks)
  | flush (t : Fin maxLocks)

variable {maxLocks : ℕ}

namespace BufferedState

def goto (s : BufferedState maxLocks) (t : Fin maxLocks) (pc : Pc maxLocks) :
    BufferedState maxLocks :=
  { s with pc := Function.update s.pc t pc }

def setBody (s : BufferedState maxLocks) (t : Fin maxLocks) (b : Body) : BufferedState maxLocks :=
  { s with body := Function.update s.body t b }

def load (s : BufferedState maxLocks) (t : Fin maxLocks) (x : Cell maxLocks) : BitVec 32 :=
  s.cells.load t x

def store (s : BufferedState maxLocks) (t : Fin maxLocks) (x : Cell maxLocks) (v : BitVec 32) :
    BufferedState maxLocks :=
  { s with cells := s.cells.store t x v }

def storeDrained (s : BufferedState maxLocks) (t : Fin maxLocks) (x : Cell maxLocks)
    (v : BitVec 32) : Option (BufferedState maxLocks) :=
  (s.cells.storeDrained t x v).map fun cells => { s with cells := cells }

/-- The loop of `Lock` goes on behind flag `i`, or ends. -/
def loadNext (s : BufferedState maxLocks) (t i : Fin maxLocks) : BufferedState maxLocks :=
  s.goto t (if more : i.val + 1 < maxLocks then .load ⟨i.val + 1, more⟩ else .held)

/-- The first store of `Lock`. -/
def storeFlag (order : MemoryOrder) (s : BufferedState maxLocks) (t : Fin maxLocks) :
    Option (BufferedState maxLocks) :=
  match order with
  | .release => some (s.store t (.flag t) 1)
  | .seqCst => s.storeDrained t (.flag t) 1

/-- The next step of `Accumulate` in thread `t`. -/
def accumulate (order : MemoryOrder) (s : BufferedState maxLocks) (t : Fin maxLocks) :
    Option (BufferedState maxLocks) :=
  match s.pc t with
  | .idle => if s.added t < Accumulation.rounds then some (s.goto t .store) else none
  | .failed => some (s.goto t .store)
  | .store => (s.storeFlag order t).map fun s => s.goto t (.load ⟨0, t.pos⟩)
  | .load i =>
    some (if (s.load t (.flag i)).toInt > 0 ∧ i ≠ t then s.goto t .undo else s.loadNext t i)
  | .undo => some ((s.store t (.flag t) 0).goto t .failed)
  | .held =>
    match s.body t with
    | .load => some (s.setBody t (.store (s.load t .counter)))
    | .store value =>
      some { (s.store t .counter (value + 1)).setBody t .unlock with
        added := Function.update s.added t (s.added t + 1) }
    | .unlock => some ((s.setBody t .load).goto t .unlock)
  | .unlock => some ((s.store t (.flag t) 0).goto t .idle)

def act (order : MemoryOrder) (s : BufferedState maxLocks) :
    BufferedAction maxLocks → Option (BufferedState maxLocks)
  | .step t => s.accumulate order t
  | .flush t => (s.cells.flush t).map fun cells => { s with cells := cells }

end BufferedState

def bufferedInitial (maxLocks : ℕ) : BufferedState maxLocks where
  cells := ⟨fun _ => 0, fun _ => []⟩
  pc _ := .idle
  body _ := .load
  added _ := 0

def buffered (order : MemoryOrder) (maxLocks : ℕ) :
    Machine (BufferedState maxLocks) (BufferedAction maxLocks) where
  init s := s = bufferedInitial maxLocks
  next := BufferedState.act order

/-- A thread whose flag still has to go down in the memory has not left `Lock` or `Unlock` yet, as
the others see it. -/
def Released (s : BufferedState maxLocks) (r : Accumulation maxLocks) (t : Fin maxLocks) : Prop :=
  r.lock.pc t = .undo ∧ (s.pc t = .failed ∨ s.pc t = .store) ∨
    r.lock.pc t = .unlock ∧ (s.pc t = .idle ∨ s.pc t = .store ∧ s.added t < Accumulation.rounds)

/-- What can wait in the buffer of `t`, and where `t` stands then. -/
inductive Waiting (s : BufferedState maxLocks) (r : Accumulation maxLocks) (t : Fin maxLocks) :
    List (Cell maxLocks × BitVec 32) → Prop
  | nothing : r.lock.pc t = s.pc t → Waiting s r t []
  | counter : r.lock.pc t = s.pc t →
      (s.pc t = .held ∧ s.body t = .unlock ∨ s.pc t = .unlock) →
      Waiting s r t [(.counter, r.counter)]
  | flag : Released s r t → Waiting s r t [(.flag t, 0)]
  | both : Released s r t → r.lock.pc t = .unlock →
      Waiting s r t [(.counter, r.counter), (.flag t, 0)]

/-- `s` with buffers and `r` without them, in which flags go down when the memory has it and
additions count at once. -/
structure Delays (s : BufferedState maxLocks) (r : Accumulation maxLocks) : Prop where
  reached : (accumulation maxLocks).Reachable r
  body : r.body = s.body
  added : r.added = s.added
  flags : ∀ t, (s.cells.memory (.flag t)).toInt = r.lock.locks t
  counter : s.cells.memory .counter = r.counter ∨
    ∃ t, (Cell.counter, r.counter) ∈ s.cells.buffer t
  waiting : ∀ t, Waiting s r t (s.cells.buffer t)

variable {s s' : BufferedState maxLocks} {r r' : Accumulation maxLocks} {t u : Fin maxLocks}
  {entries : List (Cell maxLocks × BitVec 32)} {order : MemoryOrder} {pc : Pc maxLocks}

theorem delays_initial : Delays (bufferedInitial maxLocks)
    ⟨initial maxLocks, 0, fun _ => .load, fun _ => 0⟩ where
  reached := .init rfl
  body := rfl
  added := rfl
  flags _ := rfl
  counter := .inl rfl
  waiting _ := .nothing rfl

theorem Released.out (h : Released s r t) : (s.pc t).flag = 0 := by
  rcases h with ⟨-, out | out⟩ | ⟨-, out | ⟨out, -⟩⟩ <;> rw [out] <;> rfl

theorem Released.congr (h : Released s r t) (pc : s'.pc t = s.pc t)
    (added : s'.added t = s.added t) (there : r'.lock.pc t = r.lock.pc t) : Released s' r' t := by
  rwa [Released, pc, added, there]

/-- What one thread does leaves the others where they are. -/
theorem Waiting.congr (h : Waiting s r t entries) (pc : s'.pc t = s.pc t)
    (body : s'.body t = s.body t) (added : s'.added t = s.added t)
    (there : r'.lock.pc t = r.lock.pc t) (counter : r'.counter = r.counter ∨ ¬ (r.lock.pc t).Owns) :
    Waiting s' r' t entries := by
  have kept (owns : (r.lock.pc t).Owns) : r.counter = r'.counter :=
    (counter.resolve_right (not_not_intro owns)).symm
  cases h with
  | nothing same => exact .nothing (by rw [there, pc, same])
  | counter same stands =>
    rw [kept (by rw [same]; rcases stands with ⟨at_end, -⟩ | at_end <;> rw [at_end] <;> trivial)]
    exact .counter (by rw [there, pc, same]) (by rwa [pc, body])
  | flag released => exact .flag (released.congr pc added there)
  | both released unlock =>
    rw [kept (by rw [unlock]; trivial)]
    exact .both (released.congr pc added there) (by rw [there, unlock])

/-- An addition that waits is the last one, of the thread with the lock. -/
theorem Waiting.owns (h : Waiting s r t entries) {value : BitVec 32}
    (waits : (Cell.counter, value) ∈ entries) : (r.lock.pc t).Owns ∧ value = r.counter := by
  cases h with
  | nothing same => cases waits
  | counter same stands =>
    obtain ⟨-, rfl⟩ := Prod.mk.inj (List.mem_singleton.mp waits)
    rw [same]
    rcases stands with ⟨held, -⟩ | unlock
    · exact ⟨by rw [held]; trivial, rfl⟩
    · exact ⟨by rw [unlock]; trivial, rfl⟩
  | flag released => simp at waits
  | both released unlock =>
    simp only [List.mem_cons, Prod.mk.injEq, true_and, reduceCtorEq, false_and,
      List.not_mem_nil, or_false] at waits
    exact ⟨by rw [unlock]; trivial, waits⟩

/-- A thread whose flag is up stands where it stands without buffers. -/
theorem Waiting.same (h : Waiting s r t entries) (up : (s.pc t).flag = 1) :
    r.lock.pc t = s.pc t := by
  cases h with
  | nothing same => exact same
  | counter same => exact same
  | flag released | both released =>
    rw [released.out] at up
    cases up

theorem Waiting.drained (h : Waiting s r t entries) (up : (s.pc t).flag = 1)
    (before : s.pc t = .held → s.body t ≠ .unlock) (stays : s.pc t ≠ .unlock) : entries = [] := by
  cases h with
  | nothing => rfl
  | counter same stands =>
    rcases stands with ⟨held, unlock⟩ | unlock
    · exact absurd unlock (before held)
    · exact absurd unlock stays
  | flag released | both released =>
    rw [released.out] at up
    cases up

theorem Delays.owns (h : Delays s r) (mine : (s.pc t).Owns) : (r.lock.pc t).Owns := by
  rwa [(h.waiting t).same (mine.passed t).flag]

theorem Delays.single (h : Delays s r) (mine : (r.lock.pc t).Owns) (other : (r.lock.pc u).Owns) :
    t = u := (inv_reachable (counted_reachable h.reached).lock).single mine other

/-- With no addition waiting elsewhere, the memory has the last one. -/
theorem Delays.memory (h : Delays s r) (mine : (r.lock.pc t).Owns)
    (drained : s.cells.buffer t = []) : s.cells.memory .counter = r.counter := by
  refine h.counter.resolve_right ?_
  rintro ⟨u, waits⟩
  obtain rfl := h.single mine ((h.waiting u).owns waits).1
  rw [drained] at waits
  cases waits

/-- Thread `t` takes a step which the others do not notice. -/
theorem Delays.move (h : Delays s r) (reached : (accumulation maxLocks).Reachable r')
    (body : r'.body = s'.body) (added : r'.added = s'.added)
    (flags : ∀ u, (s'.cells.memory (.flag u)).toInt = r'.lock.locks u)
    (counter : s'.cells.memory .counter = r'.counter ∨
      ∃ t, (Cell.counter, r'.counter) ∈ s'.cells.buffer t)
    (mine : Waiting s' r' t (s'.cells.buffer t))
    (count : ∀ u, u ≠ t → r'.counter = r.counter ∨ ¬ (r.lock.pc u).Owns)
    (others : ∀ u, u ≠ t → s'.cells.buffer u = s.cells.buffer u ∧ s'.pc u = s.pc u ∧
      s'.body u = s.body u ∧ s'.added u = s.added u ∧ r'.lock.pc u = r.lock.pc u) :
    Delays s' r' := by
  refine ⟨reached, body, added, flags, counter, fun u => ?_⟩
  by_cases same : u = t
  · rwa [same]
  · obtain ⟨buffer, pc, body, added, there⟩ := others u same
    rw [buffer]
    exact (h.waiting u).congr pc body added there (count u same)

theorem State.goto_goto (l : State maxLocks) (pc pc' : Pc maxLocks) :
    (l.goto t pc).goto t pc' = l.goto t pc' := by
  rw [State.goto, State.goto, State.goto, Function.update_idem]

/-- With and without buffers, the thread gets to the same place. -/
theorem Delays.together (h : Delays s r) (drained : s.cells.buffer t = [])
    (step : r.accumulate t = some { r with lock := r.lock.goto t pc }) :
    Delays (s.goto t pc) { r with lock := r.lock.goto t pc } := by
  refine h.move (h.reached.step step) h.body h.added h.flags h.counter ?_ (fun _ _ => .inl rfl)
    fun u apart => ⟨rfl, Function.update_of_ne apart .., rfl, rfl, Function.update_of_ne apart ..⟩
  change Waiting _ _ t (s.cells.buffer t)
  rw [drained]
  refine .nothing ?_
  change Function.update r.lock.pc t pc t = Function.update s.pc t pc t
  rw [Function.update_self, Function.update_self]

/-- A thread that goes into `Lock` again does so while its flag may still have to go down. -/
theorem Delays.enter (h : Delays s r)
    (out : s.pc t = .failed ∨ s.pc t = .idle ∧ s.added t < Accumulation.rounds) :
    ∃ r', Delays (s.goto t .store) r' := by
  have at_store : (s.goto t .store).pc t = .store := Function.update_self ..
  have same (now : Released (s.goto t .store) r t → Waiting (s.goto t .store) r t
      (s.cells.buffer t)) (released : Released s r t) : Delays (s.goto t .store) r := by
    refine h.move h.reached h.body h.added h.flags h.counter (now ?_) (fun _ _ => .inl rfl)
      fun u apart => ⟨rfl, Function.update_of_ne apart .., rfl, rfl, rfl⟩
    rcases released with ⟨undo, -⟩ | ⟨unlock, there⟩
    · exact .inl ⟨undo, .inr at_store⟩
    · refine .inr ⟨unlock, .inr ⟨at_store, ?_⟩⟩
      rcases out with failed | ⟨-, more⟩
      · simp [failed] at there
      · exact more
  have w := h.waiting t
  generalize waits : s.cells.buffer t = entries at w same
  cases w with
  | nothing there =>
    refine ⟨_, h.together waits ?_⟩
    rcases out with failed | ⟨idle, more⟩
    · simp [Accumulation.accumulate, Accumulation.call, State.act, there, failed]
    · simp [Accumulation.accumulate, Accumulation.call, State.act, there, idle, h.added, more]
  | counter there stands =>
    rcases out with failed | ⟨idle, -⟩
    · simp [failed] at stands
    · simp [idle] at stands
  | flag released => exact ⟨r, same .flag released⟩
  | both released unlock => exact ⟨r, same (fun now => .both now unlock) released⟩

theorem Delays.storeFlag (h : Delays s r) (here : s.pc t = .store)
    (drained : s.cells.buffer t = []) : ∃ r', Delays { s with
      cells := { s.cells with memory := Function.update s.cells.memory (.flag t) 1 }
      pc := Function.update s.pc t (.load ⟨0, t.pos⟩) } r' := by
  have w := h.waiting t
  rw [drained] at w
  cases w with
  | nothing there =>
    have step : r.accumulate t =
        some { r with lock := (r.lock.store t 1).goto t (.load ⟨0, t.pos⟩) } := by
      simp [Accumulation.accumulate, Accumulation.call, State.act, State.step, there, here]
    refine ⟨_, h.move (h.reached.step step) h.body h.added (fun u => ?_) ?_ ?_ (fun _ _ => .inl rfl)
      fun u apart => ⟨rfl, Function.update_of_ne apart .., rfl, rfl,
        Function.update_of_ne apart ..⟩⟩
    · change (Function.update s.cells.memory (.flag t) 1 (.flag u)).toInt =
        Function.update r.lock.locks t 1 u
      by_cases same : u = t
      · rw [same, Function.update_self, Function.update_self]
        rfl
      · rw [Function.update_of_ne same, Function.update_of_ne (by simpa using same), h.flags]
    · rcases h.counter with now | waits
      · left
        change Function.update s.cells.memory (.flag t) 1 .counter = _
        rw [Function.update_of_ne (by simp), now]
      · exact .inr waits
    · change Waiting _ _ t (s.cells.buffer t)
      rw [drained]
      refine .nothing ?_
      change Function.update r.lock.pc t _ t = Function.update s.pc t _ t
      rw [Function.update_self, Function.update_self]

/-- In the scan nothing waits, and the memory has the flags. -/
theorem Delays.load (h : Delays s r) {i : Fin maxLocks} (here : s.pc t = .load i) :
    ∃ r', Delays (if (s.load t (.flag i)).toInt > 0 ∧ i ≠ t then s.goto t .undo
      else s.loadNext t i) r' := by
  have there : r.lock.pc t = .load i := by
    rw [(h.waiting t).same (by rw [here]; rfl), here]
  have drained := (h.waiting t).drained (by rw [here]; rfl) (by simp [here]) (by simp [here])
  rw [BufferedState.load, Buffered.load_drained drained, h.flags]
  by_cases up : r.lock.locks i > 0 ∧ i ≠ t
  · rw [if_pos up]
    refine ⟨_, h.together drained ?_⟩
    simp only [Accumulation.accumulate, Accumulation.call, State.act, State.step, there, if_pos up,
      Option.map_some]
  · rw [if_neg up]
    refine ⟨_, h.together drained ?_⟩
    simp only [Accumulation.accumulate, Accumulation.call, State.act, State.step, there, if_neg up,
      Option.map_some]
    rfl

/-- The flag is set to go down. Without buffers the thread is still at that. -/
theorem Delays.release (h : Delays s r)
    (out : s.pc t = .undo ∧ pc = .failed ∨ s.pc t = .unlock ∧ pc = .idle) :
    Delays ((s.store t (.flag t) 0).goto t pc) r := by
  have up : (s.pc t).flag = 1 := by rcases out with ⟨here, -⟩ | ⟨here, -⟩ <;> rw [here] <;> rfl
  have there := (h.waiting t).same up
  have released : Released ((s.store t (.flag t) 0).goto t pc) r t := by
    have now : ((s.store t (.flag t) 0).goto t pc).pc t = pc := Function.update_self ..
    rw [Released, now, there]
    rcases out with ⟨undo, rfl⟩ | ⟨unlock, rfl⟩
    · exact .inl ⟨undo, .inl rfl⟩
    · exact .inr ⟨unlock, .inl rfl⟩
  have buffer : ((s.store t (.flag t) 0).goto t pc).cells.buffer t =
      s.cells.buffer t ++ [(.flag t, 0)] := Function.update_self ..
  refine h.move h.reached h.body h.added h.flags ?_ ?_ (fun _ _ => .inl rfl) fun u apart =>
    ⟨Function.update_of_ne apart .., Function.update_of_ne apart .., rfl, rfl, rfl⟩
  · rcases h.counter with now | ⟨u, waits⟩
    · exact .inl now
    · refine .inr ⟨u, ?_⟩
      by_cases same : u = t
      · rw [same, buffer]
        rw [same] at waits
        exact List.mem_append_left _ waits
      · change _ ∈ Function.update s.cells.buffer t _ u
        rwa [Function.update_of_ne same]
  · rw [buffer]
    have w := h.waiting t
    generalize s.cells.buffer t = entries at w
    cases w with
    | nothing => exact .flag released
    | counter same stands =>
      refine .both released ?_
      rcases out with ⟨undo, -⟩ | ⟨unlock, -⟩
      · simp [undo] at stands
      · rw [there, unlock]
    | flag before | both before =>
      rw [before.out] at up
      cases up

/-- The three steps of the loop body, with the lock. -/
theorem Delays.held (h : Delays s r) (here : s.pc t = .held)
    (next : s.accumulate order t = some s') : ∃ r', Delays s' r' := by
  have up : (s.pc t).flag = 1 := by rw [here]; rfl
  have there : r.lock.pc t = .held := by rw [(h.waiting t).same up, here]
  have owns : (r.lock.pc t).Owns := by rw [there]; trivial
  cases stands : s.body t with
  | load =>
    have drained := (h.waiting t).drained up (by simp [stands]) (by simp [here])
    simp only [BufferedState.accumulate, here, stands, Option.some.injEq] at next
    subst next
    rw [BufferedState.load, Buffered.load_drained drained, h.memory owns drained]
    have step : r.accumulate t = some (r.setBody t (.store r.counter)) := by
      simp only [Accumulation.accumulate, there, h.body, stands]
    refine ⟨_, h.move (h.reached.step step) ?_ h.added h.flags h.counter ?_ (fun _ _ => .inl rfl)
      fun u apart => ⟨rfl, rfl, Function.update_of_ne apart .., rfl, rfl⟩⟩
    · rw [Accumulation.setBody, BufferedState.setBody, h.body]
    · change Waiting _ _ t (s.cells.buffer t)
      rw [drained]
      exact .nothing (there.trans here.symm)
  | store value =>
    have drained := (h.waiting t).drained up (by simp [stands]) (by simp [here])
    simp only [BufferedState.accumulate, here, stands, Option.some.injEq] at next
    subst next
    have step : r.accumulate t = some { r.setBody t .unlock with
        counter := value + 1
        added := Function.update r.added t (r.added t + 1) } := by
      simp only [Accumulation.accumulate, there, h.body, stands]
    have buffer : (s.store t .counter (value + 1)).cells.buffer t = [(.counter, value + 1)] := by
      change Function.update s.cells.buffer t _ t = _
      rw [Function.update_self, drained]
      rfl
    refine ⟨_, h.move (h.reached.step step) ?_ ?_ h.flags (.inr ⟨t, ?_⟩) ?_
      (fun u apart => .inr fun other => apart (h.single other owns)) fun u apart =>
        ⟨Function.update_of_ne apart .., rfl, Function.update_of_ne apart ..,
          Function.update_of_ne apart .., rfl⟩⟩
    · change Function.update r.body t _ = Function.update s.body t _
      rw [h.body]
    · change Function.update r.added t _ = Function.update s.added t _
      rw [h.added]
    · change _ ∈ (s.store t .counter (value + 1)).cells.buffer t
      rw [buffer]
      exact List.mem_singleton_self _
    · change Waiting _ _ t ((s.store t .counter (value + 1)).cells.buffer t)
      rw [buffer]
      exact .counter (there.trans here.symm) (.inl ⟨here, Function.update_self ..⟩)
  | unlock =>
    simp only [BufferedState.accumulate, here, stands, Option.some.injEq] at next
    subst next
    have step : r.accumulate t = some { r.setBody t .load with lock := r.lock.goto t .unlock } := by
      simp [Accumulation.accumulate, Accumulation.call, State.act, there, h.body, stands,
        Accumulation.setBody]
    refine ⟨_, h.move (h.reached.step step) ?_ h.added h.flags h.counter ?_ (fun _ _ => .inl rfl)
      fun u apart => ⟨rfl, Function.update_of_ne apart .., Function.update_of_ne apart .., rfl,
        Function.update_of_ne apart ..⟩⟩
    · change Function.update r.body t _ = Function.update s.body t _
      rw [h.body]
    · have now : ((s.setBody t .load).goto t .unlock).pc t = .unlock := Function.update_self ..
      have same : (r.lock.goto t .unlock).pc t = .unlock := Function.update_self ..
      have w := h.waiting t
      change Waiting _ _ t (s.cells.buffer t)
      generalize s.cells.buffer t = entries at w
      cases w with
      | nothing => exact .nothing (same.trans now.symm)
      | counter => exact .counter (same.trans now.symm) (.inr now)
      | flag before | both before =>
        rw [before.out] at up
        cases up

/-- The flag goes down without buffers, and the thread goes on to where it stands with them. -/
theorem Delays.follow (h : Delays s r) (released : Released s r t) :
    (accumulation maxLocks).Reachable
      { r with lock := (r.lock.store t 0).goto t (s.pc t) } := by
  have at_pc (l : State maxLocks) (pc : Pc maxLocks) : (l.goto t pc).pc t = pc :=
    Function.update_self ..
  have enter (pc : Pc maxLocks)
      (out : pc = .failed ∨ pc = .idle ∧ r.added t < Accumulation.rounds) :
      Accumulation.accumulate { r with lock := (r.lock.store t 0).goto t pc } t =
        some { r with lock := (r.lock.store t 0).goto t .store } := by
    rcases out with rfl | ⟨rfl, more⟩
    · simp [Accumulation.accumulate, Accumulation.call, State.act, at_pc, State.goto_goto]
    · simp [Accumulation.accumulate, Accumulation.call, State.act, at_pc, State.goto_goto, more]
  rcases released with ⟨undo, there⟩ | ⟨unlock, there⟩
  · have first : r.accumulate t =
        some { r with lock := (r.lock.store t 0).goto t .failed } := by
      simp only [Accumulation.accumulate, Accumulation.call, State.act, State.step, undo,
        Option.map_some]
    rcases there with there | there
    · rw [there]
      exact h.reached.step first
    · rw [there]
      exact (h.reached.step first).step (enter .failed (.inl rfl))
  · have first : r.accumulate t =
        some { r with lock := (r.lock.store t 0).goto t .idle } := by
      simp only [Accumulation.accumulate, Accumulation.call, State.act, State.step, unlock,
        Option.map_some]
    rcases there with there | ⟨there, more⟩
    · rw [there]
      exact h.reached.step first
    · rw [there]
      exact (h.reached.step first).step (enter .idle (.inr ⟨rfl, by rwa [h.added]⟩))

theorem Delays.flush (h : Delays s r) {cells : Buffered (Fin maxLocks) (Cell maxLocks) (BitVec 32)}
    (flushed : s.cells.flush t = some cells) : ∃ r', Delays { s with cells := cells } r' := by
  obtain ⟨entry, rest, waits, rfl⟩ := Buffered.flush_some flushed
  have others (u : Fin maxLocks) (apart : u ≠ t) :
      Function.update s.cells.buffer t rest u = s.cells.buffer u := Function.update_of_ne apart ..
  have counted : Function.update s.cells.memory .counter r.counter .counter = r.counter :=
    Function.update_self ..
  have w := h.waiting t
  rw [waits] at w
  cases w with
  | counter same stands =>
    refine ⟨r, h.move h.reached h.body h.added (fun u => ?_) (.inl counted) ?_
      (fun _ _ => .inl rfl) fun u apart => ⟨others u apart, rfl, rfl, rfl, rfl⟩⟩
    · change (Function.update s.cells.memory .counter r.counter (.flag u)).toInt = _
      rw [Function.update_of_ne (by simp), h.flags]
    · change Waiting _ _ t (Function.update s.cells.buffer t [] t)
      rw [Function.update_self]
      exact .nothing same
  | flag released =>
    refine ⟨_, h.move (h.follow released) h.body h.added (fun u => ?_) ?_ ?_ (fun _ _ => .inl rfl)
      fun u apart => ⟨others u apart, rfl, rfl, rfl, Function.update_of_ne apart ..⟩⟩
    · change (Function.update s.cells.memory (.flag t) 0 (.flag u)).toInt =
        Function.update r.lock.locks t 0 u
      by_cases same : u = t
      · rw [same, Function.update_self, Function.update_self]
        rfl
      · rw [Function.update_of_ne same, Function.update_of_ne (by simpa using same), h.flags]
    · rcases h.counter with now | ⟨u, mem⟩
      · left
        change Function.update s.cells.memory (.flag t) 0 .counter = _
        rw [Function.update_of_ne (by simp), now]
      · refine .inr ⟨u, ?_⟩
        change _ ∈ Function.update s.cells.buffer t [] u
        rwa [others u fun same => by simp [same, waits] at mem]
    · change Waiting _ _ t (Function.update s.cells.buffer t [] t)
      rw [Function.update_self]
      exact .nothing (Function.update_self ..)
  | both released unlock =>
    refine ⟨r, h.move h.reached h.body h.added (fun u => ?_) (.inl counted) ?_
      (fun _ _ => .inl rfl) fun u apart => ⟨others u apart, rfl, rfl, rfl, rfl⟩⟩
    · change (Function.update s.cells.memory .counter r.counter (.flag u)).toInt = _
      rw [Function.update_of_ne (by simp), h.flags]
    · change Waiting _ _ t (Function.update s.cells.buffer t [(.flag t, 0)] t)
      rw [Function.update_self]
      exact .flag (released.congr rfl rfl rfl)

/-- The step lemma: one case for each place in `Accumulate` and `Lock`. -/
theorem Delays.accumulate (h : Delays s r) (next : s.accumulate .seqCst t = some s') :
    ∃ r', Delays s' r' := by
  cases here : s.pc t with
  | idle =>
    simp only [BufferedState.accumulate, here] at next
    split_ifs at next with more
    obtain rfl := Option.some.inj next
    exact h.enter (.inr ⟨here, more⟩)
  | failed =>
    simp only [BufferedState.accumulate, here, Option.some.injEq] at next
    subst next
    exact h.enter (.inl here)
  | store =>
    simp only [BufferedState.accumulate, here] at next
    obtain ⟨s₁, stored, rfl⟩ := Option.map_eq_some_iff.mp next
    obtain ⟨cells, done, rfl⟩ := Option.map_eq_some_iff.mp stored
    obtain ⟨drained, rfl⟩ := Buffered.storeDrained_some done
    exact h.storeFlag here drained
  | load i =>
    simp only [BufferedState.accumulate, here, Option.some.injEq] at next
    subst next
    exact h.load here
  | undo =>
    simp only [BufferedState.accumulate, here, Option.some.injEq] at next
    subst next
    exact ⟨r, h.release (.inl ⟨here, rfl⟩)⟩
  | held => exact h.held here next
  | unlock =>
    simp only [BufferedState.accumulate, here, Option.some.injEq] at next
    subst next
    exact ⟨r, h.release (.inr ⟨here, rfl⟩)⟩

/-- With the sequentially consistent store, buffers do no more than delay. -/
theorem delays_reachable (h : (buffered .seqCst maxLocks).Reachable s) : ∃ r, Delays s r := by
  refine h.invariant (fun s => ∃ r, Delays s r) (fun s start => ?_) ?_
  · rw [show s = bufferedInitial maxLocks from start]
    exact ⟨_, delays_initial⟩
  · rintro s a s' ⟨r, h⟩ next
    cases a with
    | step t => exact h.accumulate next
    | flush t =>
      obtain ⟨cells, flushed, rfl⟩ := Option.map_eq_some_iff.mp next
      exact h.flush flushed

/-- The thread with the lock sees the last addition. -/
theorem Delays.load_counter (h : Delays s r) (mine : (s.pc t).Owns) :
    s.load t .counter = r.counter := by
  have up := (mine.passed t).flag
  have memory := h.memory (h.owns mine)
  have w := h.waiting t
  rw [BufferedState.load, Buffered.load]
  generalize s.cells.buffer t = entries at w memory
  cases w with
  | nothing same => exact memory rfl
  | counter same stands =>
    change Function.update s.cells.memory .counter r.counter .counter = _
    rw [Function.update_self]
  | flag released | both released =>
    rw [released.out] at up
    cases up

theorem Delays.drained_counter (h : Delays s r) (drained : ∀ t, s.cells.buffer t = []) :
    s.cells.memory .counter = r.counter := by
  refine h.counter.resolve_right ?_
  rintro ⟨t, waits⟩
  rw [drained t] at waits
  cases waits

theorem BufferedState.goto_goto (pc pc' : Pc maxLocks) :
    (s.goto t pc).goto t pc' = s.goto t pc' := by
  rw [goto, goto, goto, Function.update_idem]

theorem load_step {i : Fin maxLocks} (here : s.pc t = .load i)
    (down : ∀ j, j ≠ t → s.load t (.flag j) = 0) :
    (buffered order maxLocks).next s (.step t) = some (s.loadNext t i) := by
  change s.accumulate order t = _
  simp only [BufferedState.accumulate, here, Option.some.injEq]
  refine if_neg ?_
  rintro ⟨up, apart⟩
  rw [down i apart] at up
  exact absurd up (by decide)

/-- A scan that sees no flag up gets the lock. -/
theorem scan_reachable {k : ℕ} {i : Fin maxLocks} (h : (buffered order maxLocks).Reachable s)
    (here : s.pc t = .load i) (left : i.val + k + 1 = maxLocks)
    (down : ∀ j, j ≠ t → s.load t (.flag j) = 0) :
    (buffered order maxLocks).Reachable (s.goto t .held) := by
  induction k generalizing s i with
  | zero =>
    have next := h.step (load_step here down)
    rwa [BufferedState.loadNext, dif_neg (by omega)] at next
  | succ k ih =>
    have next := h.step (load_step here down)
    rw [BufferedState.loadNext, dif_pos (by omega)] at next
    have last := ih next (Function.update_self ..) (by change i.val + 1 + k + 1 = _; omega) down
    rwa [BufferedState.goto_goto] at last

/-- A released store leaves the memory as it is, so whoever finds all flags down there gets the
lock. -/
theorem lock_reachable (h : (buffered .release maxLocks).Reachable s) (here : s.pc t = .idle)
    (more : s.added t < Accumulation.rounds) (drained : s.cells.buffer t = [])
    (down : ∀ j, s.cells.memory (.flag j) = 0) :
    (buffered .release maxLocks).Reachable ((s.store t (.flag t) 1).goto t .held) := by
  have entered : (buffered .release maxLocks).next s (.step t) = some (s.goto t .store) := by
    change s.accumulate .release t = _
    simp only [BufferedState.accumulate, here, if_pos more]
  have at_store : (s.goto t .store).pc t = .store := Function.update_self ..
  have stored : (buffered .release maxLocks).next (s.goto t .store) (.step t) =
      some ((s.store t (.flag t) 1).goto t (.load ⟨0, t.pos⟩)) := by
    change (s.goto t .store).accumulate .release t = _
    simp only [BufferedState.accumulate, at_store, BufferedState.storeFlag, Option.map_some]
    exact congrArg some (BufferedState.goto_goto (s := s.store t (.flag t) 1) _ _)
  have whole : 0 + (maxLocks - 1) + 1 = maxLocks := by
    have pos := t.pos
    omega
  have scanned := scan_reachable ((h.step entered).step stored) (Function.update_self ..) whole
    fun j apart => ?_
  · rwa [BufferedState.goto_goto] at scanned
  · refine (Buffered.load_apart fun entry waits => ?_).trans (down j)
    change entry ∈ Function.update s.cells.buffer t _ t at waits
    rw [Function.update_self, drained, List.nil_append, List.mem_singleton] at waits
    rw [waits]
    simpa using apart.symm

theorem add_reachable (h : (buffered order maxLocks).Reachable s) (here : s.pc t = .held)
    (body : s.body t = .load) :
    (buffered order maxLocks).Reachable
      { (s.store t .counter (s.load t .counter + 1)).setBody t .unlock with
        added := Function.update s.added t (s.added t + 1) } := by
  have loaded : (buffered order maxLocks).next s (.step t) =
      some (s.setBody t (.store (s.load t .counter))) := by
    change s.accumulate order t = _
    simp only [BufferedState.accumulate, here, body]
  have at_store : (s.setBody t (.store (s.load t .counter))).body t = .store (s.load t .counter) :=
    Function.update_self ..
  have at_held : (s.setBody t (.store (s.load t .counter))).pc t = .held := here
  refine (h.step loaded).step (a := .step t) ?_
  change (s.setBody t (.store (s.load t .counter))).accumulate order t = _
  simp only [BufferedState.accumulate, at_held, at_store]
  simp only [BufferedState.setBody, BufferedState.store, Function.update_idem]

theorem flushed_reachable (h : (buffered order maxLocks).Reachable s) :
    (buffered order maxLocks).Reachable { s with
      cells := ⟨Buffered.replay s.cells.memory (s.cells.buffer t),
        Function.update s.cells.buffer t []⟩ } := by
  generalize waits : s.cells.buffer t = entries
  induction entries generalizing s with
  | nil =>
    rw [← waits, Function.update_eq_self, waits]
    exact h
  | cons entry entries ih =>
    have flush : (buffered order maxLocks).next s (.flush t) = some { s with
        cells := ⟨Function.update s.cells.memory entry.1 entry.2,
          Function.update s.cells.buffer t entries⟩ } := by
      change (s.cells.flush t).map _ = _
      rw [Buffered.flush_eq waits]
      rfl
    have rest := ih (h.step flush) (Function.update_self ..)
    rwa [Function.update_idem] at rest

/-- Two threads with the lock, whose flags are still in their buffers. -/
def contended (t u : Fin maxLocks) : BufferedState maxLocks :=
  ((((bufferedInitial maxLocks).store t (.flag t) 1).goto t .held).store u (.flag u) 1).goto u .held

theorem contended_pc (apart : t ≠ u) :
    (contended t u).pc t = .held ∧ (contended t u).pc u = .held :=
  ⟨(Function.update_of_ne apart ..).trans (Function.update_self ..), Function.update_self ..⟩

theorem contended_reachable (apart : t ≠ u) :
    (buffered .release maxLocks).Reachable (contended t u) := by
  have more : 0 < Accumulation.rounds := by decide
  have first := lock_reachable (t := t) (.init rfl) rfl more rfl fun _ => rfl
  exact lock_reachable first (Function.update_of_ne apart.symm ..) more
    (Function.update_of_ne apart.symm ..) fun _ => rfl

/-- Both threads add to what they find in the memory, and one addition gets lost. -/
theorem lost_addition (apart : t ≠ u) : ∃ s, (buffered .release maxLocks).Reachable s ∧
    (∀ v, s.cells.buffer v = []) ∧ s.cells.memory .counter = 1 ∧ census s.added id = 2 := by
  have reached := contended_reachable apart
  obtain ⟨mine, other⟩ := contended_pc apart
  have first := add_reachable reached mine rfl
  have second := add_reachable (t := u) first other (Function.update_of_ne apart.symm ..)
  have twice : census (Function.update (Function.update (fun _ => 0) t 1) u 1) id = 2 := by
    have one : census (Function.update (fun _ => 0) t 1) id + id 0 =
        census (fun _ : Fin maxLocks => 0) id + id 1 := census_update
    have two : census (Function.update (Function.update (fun _ => 0) t 1) u 1) id +
        id (Function.update (fun _ => 0) t 1 u) =
          census (Function.update (fun _ => 0) t 1) id + id 1 := census_update
    have zero : census (fun _ : Fin maxLocks => 0) id = 0 := census_eq_zero.mpr fun _ => rfl
    rw [Function.update_of_ne apart.symm] at two
    simp only [id] at one two
    omega
  refine ⟨_, flushed_reachable (t := u) (flushed_reachable (t := t) second), fun v => ?_, ?_, ?_⟩
  · by_cases v = u <;> by_cases v = t <;>
      simp_all [contended, bufferedInitial, BufferedState.store, BufferedState.goto,
        BufferedState.setBody, Buffered.store]
  · simp [contended, bufferedInitial, BufferedState.store, BufferedState.goto,
      BufferedState.setBody, BufferedState.load, Buffered.store, Buffered.load, Buffered.replay,
      apart, apart.symm]
  · simpa [contended, bufferedInitial, BufferedState.store, BufferedState.goto, Buffered.store,
      apart.symm] using twice

/-- At most one thread has the lock, however long stores wait: just with the store that is in the
comment. -/
theorem exclusion_iff (two : 2 ≤ maxLocks) :
    (∀ s, (buffered order maxLocks).Reachable s →
      ∀ t u, (s.pc t).Owns → (s.pc u).Owns → t = u) ↔ order = .seqCst := by
  constructor
  · intro exclusive
    cases order with
    | seqCst => rfl
    | release =>
      have apart : (⟨0, by omega⟩ : Fin maxLocks) ≠ ⟨1, by omega⟩ := by simp
      obtain ⟨mine, other⟩ := contended_pc apart
      refine absurd (exclusive _ (contended_reachable apart) _ _ ?_ ?_) apart
      · rw [mine]
        trivial
      · rw [other]
        trivial
  · rintro rfl s reached t u mine other
    obtain ⟨r, h⟩ := delays_reachable reached
    exact h.single (h.owns mine) (h.owns other)

/-- The five flags of the source. -/
theorem exclusion_iff_five :
    (∀ s, (buffered .seqCst 5).Reachable s → ∀ t u, (s.pc t).Owns → (s.pc u).Owns → t = u) ∧
      ¬ ∀ s, (buffered .release 5).Reachable s → ∀ t u, (s.pc t).Owns → (s.pc u).Owns → t = u := by
  have two : 2 ≤ 5 := by decide
  refine ⟨(exclusion_iff two).mpr rfl, fun exclusive => ?_⟩
  cases (exclusion_iff two).mp exclusive

/-- No addition gets lost, neither for the thread with the lock nor in the memory when it has all
that was stored: again just with the store that is in the comment. -/
theorem additions_iff (two : 2 ≤ maxLocks) :
    (∀ s, (buffered order maxLocks).Reachable s →
      (∀ t, (s.pc t).Owns → s.load t .counter = BitVec.ofNat 32 (census s.added id)) ∧
      ((∀ t, s.cells.buffer t = []) →
        s.cells.memory .counter = BitVec.ofNat 32 (census s.added id))) ↔ order = .seqCst := by
  constructor
  · intro exact_count
    cases order with
    | seqCst => rfl
    | release =>
      have apart : (⟨0, by omega⟩ : Fin maxLocks) ≠ ⟨1, by omega⟩ := by simp
      obtain ⟨s, reached, drained, counter, added⟩ := lost_addition apart
      have same := (exact_count s reached).2 drained
      rw [counter, added] at same
      exact absurd same (by decide)
  · rintro rfl s reached
    obtain ⟨r, h⟩ := delays_reachable reached
    have total := (counted_reachable h.reached).total
    rw [h.added] at total
    exact ⟨fun t owns => (h.load_counter owns).trans total,
      fun drained => (h.drained_counter drained).trans total⟩

theorem additions_iff_five :
    (∀ s, (buffered .seqCst 5).Reachable s → (∀ t, s.cells.buffer t = []) →
      s.cells.memory .counter = BitVec.ofNat 32 (census s.added id)) ∧
    ¬ ∀ s, (buffered .release 5).Reachable s →
      (∀ t, (s.pc t).Owns → s.load t .counter = BitVec.ofNat 32 (census s.added id)) ∧
      ((∀ t, s.cells.buffer t = []) →
        s.cells.memory .counter = BitVec.ofNat 32 (census s.added id)) := by
  have two : 2 ≤ 5 := by decide
  refine ⟨fun s reached => ((additions_iff two).mpr rfl s reached).2, fun exact_count => ?_⟩
  cases (additions_iff two).mp exact_count

end Codelab.SpinLock
