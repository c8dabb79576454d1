import Codelab.SpinLock
import Codelab.Theory.Census
import Mathlib.Data.BitVec

/-! `Accumulate` of `cpu_order.cpp`, in any number of threads at once. `++counter` is a load and
a store; the lock sees to it that no store overwrites an addition that its load has missed. -/

namespace Codelab.SpinLock

open Census

/-- Where a thread with the lock stands in the loop body. -/
inductive Body
  | load
  | store (value : BitVec 32)
  | unlock

/-- `added t` is how often thread `t` has stored, which is its `i` at each test of the loop. -/
structure Accumulation (maxLocks : ℕ) where
  lock : State maxLocks
  counter : BitVec 32
  body : Fin maxLocks → Body
  added : Fin maxLocks → ℕ

variable {maxLocks : ℕ}

namespace Accumulation

def rounds : ℕ := 100000

def call (s : Accumulation maxLocks) (a : Action maxLocks) : Option (Accumulation maxLocks) :=
  (s.lock.act a).map fun lock => { s with lock := lock }

def setBody (s : Accumulation maxLocks) (t : Fin maxLocks) (b : Body) : Accumulation maxLocks :=
  { s with body := Function.update s.body t b }

/-- The next step of `Accumulate` in thread `t`. -/
def accumulate (s : Accumulation maxLocks) (t : Fin maxLocks) : Option (Accumulation maxLocks) :=
  match s.lock.pc t with
  | .idle => if s.added t < rounds then s.call (.lock t) else none
  | .failed => s.call (.lock t)
  | .held =>
    match s.body t with
    | .load => some (s.setBody t (.store s.counter))
    | .store value =>
      some { s.setBody t .unlock with
        counter := value + 1
        added := Function.update s.added t (s.added t + 1) }
    | .unlock => (s.setBody t .load).call (.unlock t)
  | .store | .load _ | .undo | .unlock => s.call (.step t)

end Accumulation

def accumulation (maxLocks : ℕ) : Machine (Accumulation maxLocks) (Fin maxLocks) where
  init s := s = ⟨initial maxLocks, 0, fun _ => .load, fun _ => 0⟩
  next := Accumulation.accumulate

/-- A thread between its load and its store has the lock and the current value. -/
structure Counted (s : Accumulation maxLocks) : Prop where
  lock : (machine maxLocks).Reachable s.lock
  loaded : ∀ t value, s.body t = .store value → s.lock.pc t = .held ∧ value = s.counter
  total : s.counter = BitVec.ofNat 32 (census s.added id)

variable {s s' : Accumulation maxLocks} {t u : Fin maxLocks} {a : Action maxLocks}

theorem counted_initial :
    Counted (⟨initial maxLocks, 0, fun _ => .load, fun _ => 0⟩ : Accumulation maxLocks) where
  lock := .init rfl
  loaded := by rintro t value ⟨⟩
  total := by
    have none : census (fun _ : Fin maxLocks => 0) id = 0 := census_eq_zero.mpr fun _ => rfl
    rw [none]
    rfl

/-- The thread that an action belongs to. -/
def Action.thread : Action maxLocks → Fin maxLocks
  | .lock t | .unlock t | .step t => t

theorem State.act_pc {l l' : State maxLocks} (next : l.act a = some l') (apart : u ≠ a.thread) :
    l'.pc u = l.pc u := by
  have moved : ∃ pc, l'.pc = Function.update l.pc a.thread pc := by
    cases a with
    | lock t | unlock t =>
      simp only [State.act] at next
      split_ifs at next
      obtain rfl := Option.some.inj next
      exact ⟨_, rfl⟩
    | step t =>
      simp only [State.act] at next
      cases here : l.pc t with
      | idle | held | failed =>
        rw [State.step, here] at next
        cases next
      | load i =>
        simp only [State.step, here, Option.some.injEq] at next
        subst next
        split_ifs <;> exact ⟨_, rfl⟩
      | _ =>
        simp only [State.step, here, Option.some.injEq] at next
        subst next
        exact ⟨_, rfl⟩
  obtain ⟨pc, moved⟩ := moved
  rw [moved, Function.update_of_ne apart]

/-- A step of the lock, by a thread that is not between its load and its store. -/
theorem Counted.call (h : Counted s) (next : s.call a = some s')
    (between : ∀ value, s.body a.thread ≠ .store value) : Counted s' := by
  obtain ⟨lock, ran, rfl⟩ := Option.map_eq_some_iff.mp next
  refine ⟨h.lock.step ran, fun u value stored => ?_, h.total⟩
  obtain ⟨held, current⟩ := h.loaded u value stored
  have apart : u ≠ a.thread := fun same => between value (same ▸ stored)
  exact ⟨(State.act_pc ran apart).trans held, current⟩

theorem Counted.setBody (h : Counted s) {b : Body}
    (loaded : ∀ value, b = .store value → s.lock.pc t = .held ∧ value = s.counter) :
    Counted (s.setBody t b) := by
  refine ⟨h.lock, fun u value stored => ?_, h.total⟩
  change Function.update s.body t b u = .store value at stored
  by_cases same : u = t
  · rw [same, Function.update_self] at stored
    rw [same]
    exact loaded value stored
  · rw [Function.update_of_ne same] at stored
    exact h.loaded u value stored

theorem Counted.accumulate (h : Counted s) (next : s.accumulate t = some s') : Counted s' := by
  have out (apart : s.lock.pc t ≠ .held) (value : BitVec 32) : s.body t ≠ .store value :=
    fun stored => apart (h.loaded t value stored).1
  cases here : s.lock.pc t with
  | idle =>
    simp only [Accumulation.accumulate, here] at next
    split_ifs at next
    exact h.call next (out (by simp [here]))
  | failed | store | load i | undo | unlock =>
    simp only [Accumulation.accumulate, here] at next
    exact h.call next (out (by simp [here]))
  | held =>
    cases stands : s.body t with
    | load =>
      simp only [Accumulation.accumulate, here, stands, Option.some.injEq] at next
      subst next
      refine h.setBody fun value same => ⟨here, ?_⟩
      exact (Body.store.inj same).symm
    | store value =>
      simp only [Accumulation.accumulate, here, stands, Option.some.injEq] at next
      subst next
      obtain ⟨-, rfl⟩ := h.loaded t value stands
      refine ⟨h.lock, fun u value stored => ?_, ?_⟩
      · -- Nobody else has the lock, so nobody else has loaded.
        change Function.update s.body t .unlock u = .store value at stored
        by_cases same : u = t
        · rw [same, Function.update_self] at stored
          cases stored
        · rw [Function.update_of_ne same] at stored
          have owns := (h.loaded u value stored).1
          refine absurd ((inv_reachable h.lock).single ?_ ?_) same
          · rw [owns]
            trivial
          · rw [here]
            trivial
      · have more : census (Function.update s.added t (s.added t + 1)) id + id (s.added t) =
            census s.added id + id (s.added t + 1) := census_update
        have sum : census (Function.update s.added t (s.added t + 1)) id =
            census s.added id + 1 := by
          simp only [id] at more ⊢
          omega
        change s.counter + 1 = _
        rw [sum, h.total, BitVec.ofNat_add]
        rfl
    | unlock =>
      simp only [Accumulation.accumulate, here, stands] at next
      refine (h.setBody (by rintro value ⟨⟩)).call next fun value stored => ?_
      change Function.update s.body t .load t = .store value at stored
      rw [Function.update_self] at stored
      cases stored

theorem counted_reachable (h : (accumulation maxLocks).Reachable s) : Counted s := by
  refine h.invariant Counted (fun s start => ?_) fun s t s' hs next => hs.accumulate next
  rw [show s = _ from start]
  exact counted_initial

/-- No addition gets lost. -/
theorem counter_exact (h : (accumulation maxLocks).Reachable s) :
    s.counter = BitVec.ofNat 32 (census s.added id) := (counted_reachable h).total

/-- What `main` prints for two threads, in any number. -/
theorem counter_finished (h : (accumulation maxLocks).Reachable s)
    (finished : ∀ t, s.added t = Accumulation.rounds) :
    s.counter = BitVec.ofNat 32 (maxLocks * Accumulation.rounds) := by
  have all : census s.added id = maxLocks * Accumulation.rounds := by
    simp [census, finished]
  rw [counter_exact h, all]

end Codelab.SpinLock
