import Codelab.Theory.Machine
import Codelab.Theory.Mutex
import Codelab.Theory.StoreBuffer

/-! `ResourcePool::singleton` on processors with store buffers. The first load is made without the
lock; locking and unlocking a mutex wait until the buffer of the thread is empty. -/

namespace Codelab.ResourcePoolSingleton

def rpInitialFreeListSize : ℕ := 1024

/-- `_singleton`, which is 0 for null, and what the constructor of pool `p` reserves. -/
inductive Cell
  | singleton
  | reserved (p : ℕ)
  deriving DecidableEq

/-- Where a thread stands in `singleton`; `p` is the local `p`. -/
inductive Pc
  | idle
  | firstLoad
  | lock
  | secondLoad
  | new
  | construct (p : ℕ)
  | store (p : ℕ)
  | unlock (p : ℕ)
  | returned (p : ℕ)
  deriving DecidableEq

/-- `made` counts the pools that `new` has made, which are numbered from 1. -/
structure State (τ : Type*) where
  cells : Buffered τ Cell ℕ
  mutex : Option τ
  made : ℕ
  pc : τ → Pc

inductive Action (τ : Type*)
  | call (t : τ)
  | step (t : τ)
  | flush (t : τ)

variable {τ : Type*}

section

variable [DecidableEq τ]

namespace State

def goto (s : State τ) (t : τ) (pc : Pc) : State τ :=
  { s with pc := Function.update s.pc t pc }

def write (s : State τ) (t : τ) (x : Cell) (v : ℕ) : State τ :=
  { s with cells := s.cells.store t x v }

def step (s : State τ) (t : τ) : Option (State τ) :=
  match s.pc t with
  | .firstLoad =>
    let p := s.cells.load t .singleton
    some (s.goto t (if p = 0 then .lock else .returned p))
  | .lock =>
    if s.mutex.isNone ∧ (s.cells.buffer t).isEmpty then
      some { s.goto t .secondLoad with mutex := some t }
    else none
  | .secondLoad =>
    let p := s.cells.load t .singleton
    some (s.goto t (if p = 0 then .new else .unlock p))
  | .new => some { s.goto t (.construct (s.made + 1)) with made := s.made + 1 }
  | .construct p => some ((s.write t (.reserved p) rpInitialFreeListSize).goto t (.store p))
  | .store p => some ((s.write t .singleton p).goto t (.unlock p))
  | .unlock p =>
    if (s.cells.buffer t).isEmpty then some { s.goto t (.returned p) with mutex := none } else none
  | .idle | .returned _ => none

def act (s : State τ) : Action τ → Option (State τ)
  | .call t =>
    match s.pc t with
    | .idle | .returned _ => some (s.goto t .firstLoad)
    | _ => none
  | .step t => s.step t
  | .flush t => (s.cells.flush t).map fun cells => { s with cells := cells }

end State

end

def initial (τ : Type*) : State τ where
  cells := ⟨fun _ => 0, fun _ => []⟩
  mutex := none
  made := 0
  pc _ := .idle

def machine (τ : Type*) [DecidableEq τ] : Machine (State τ) (Action τ) where
  init s := s = initial τ
  next := State.act

def Pc.holds : Pc → Prop
  | .secondLoad | .new | .construct _ | .store _ | .unlock _ => True
  | _ => False

/-- Has made the pool and not unlocked yet. -/
def Pc.making : Pc → Prop
  | .construct _ | .store _ | .unlock _ => True
  | _ => False

/-- The pool is constructed and known to all threads. -/
def State.Published (s : State τ) : Prop :=
  s.made = 1 ∧ s.cells.memory .singleton = 1 ∧
    s.cells.memory (.reserved 1) = rpInitialFreeListSize

/-- What the place of a thread says about its buffer and the memory. -/
def State.Ok (s : State τ) (entries : List (Cell × ℕ)) : Pc → Prop
  | .idle | .firstLoad | .lock | .secondLoad => entries = []
  | .new => entries = [] ∧ s.made = 0
  | .construct p => p = 1 ∧ s.made = 1 ∧ s.cells.memory .singleton = 0 ∧ entries = []
  | .store p => p = 1 ∧ s.made = 1 ∧ s.cells.memory .singleton = 0 ∧
      (entries = [(.reserved 1, rpInitialFreeListSize)] ∨
        entries = [] ∧ s.cells.memory (.reserved 1) = rpInitialFreeListSize)
  | .unlock p => p = 1 ∧ s.made = 1 ∧
      (s.cells.memory .singleton = 0 ∧
          entries = [(.reserved 1, rpInitialFreeListSize), (.singleton, 1)] ∨
        s.cells.memory .singleton = 0 ∧ entries = [(.singleton, 1)] ∧
          s.cells.memory (.reserved 1) = rpInitialFreeListSize ∨
        entries = [] ∧ s.Published)
  | .returned p => p = 1 ∧ entries = [] ∧ s.Published

structure Inv (s : State τ) : Prop where
  guards : Mutex.Guards s.mutex fun t => (s.pc t).holds
  ok : ∀ t, s.Ok (s.cells.buffer t) (s.pc t)
  known : s.cells.memory .singleton = 0 ∨ s.Published
  settled : (∀ t, ¬ (s.pc t).making) → s.made = 0 ∨ s.Published

variable {s s' : State τ} {t u : τ} {entries : List (Cell × ℕ)} {pc : Pc}

theorem inv_initial : Inv (initial τ) where
  guards := Mutex.guards_none fun _ => id
  ok _ := rfl
  known := .inl rfl
  settled _ := .inl rfl

theorem Pc.making.holds (h : pc.making) : pc.holds := by
  cases pc with
  | construct p | store p | unlock p => trivial
  | _ => exact h.elim

/-- The stores of the holder of the mutex matter to the others only when they publish. -/
theorem State.Ok.free (h : s.Ok entries pc) (out : ¬ pc.holds)
    (published : s.Published → s'.Published) : s'.Ok entries pc := by
  cases pc with
  | idle | firstLoad | lock => exact h
  | returned p => exact ⟨h.1, h.2.1, published h.2.2⟩
  | _ => exact absurd trivial out

theorem State.Ok.congr (h : s.Ok entries pc) (made : s'.made = s.made)
    (memory : s'.cells.memory = s.cells.memory) : s'.Ok entries pc := by
  cases pc with
  | _ => simpa only [Ok, Published, made, memory] using h

/-- A thread that does not hold the mutex has nothing in its buffer. -/
theorem State.Ok.drained (h : s.Ok entries pc) (out : ¬ pc.making) : entries = [] := by
  cases pc with
  | idle | firstLoad | lock | secondLoad => exact h
  | new => exact h.1
  | returned p => exact h.2.1
  | _ => exact absurd trivial out

/-- What a load of `_singleton` gives outside the making of the pool. -/
theorem Inv.load (h : Inv s) (out : ¬ (s.pc t).making) :
    s.cells.load t .singleton = 0 ∨ s.cells.load t .singleton = 1 ∧ s.Published := by
  rw [Buffered.load_drained ((h.ok t).drained out)]
  rcases h.known with null | published
  · exact .inl null
  · exact .inr ⟨published.2.1, published⟩

/-- Behind the second load nobody else makes a pool. -/
theorem Inv.unmade (h : Inv s) (holds : (s.pc t).holds) (out : ¬ (s.pc t).making) :
    s.made = 0 ∨ s.Published := by
  refine h.settled fun u making => out ?_
  rwa [h.guards.exclusive holds making.holds]

variable [DecidableEq τ]

/-- A step of thread `t`: it leaves made and memory alone, or `t` has the mutex. -/
theorem Inv.move (h : Inv s) (pcs : s'.pc = Function.update s.pc t pc)
    (turn : Mutex.Turn s.mutex s'.mutex t (s.pc t).holds pc.holds)
    (buffers : ∀ u, u ≠ t → s'.cells.buffer u = s.cells.buffer u)
    (mine : s'.Ok (s'.cells.buffer t) pc)
    (rest : s'.made = s.made ∧ s'.cells.memory = s.cells.memory ∨
      (s.pc t).holds ∧ (s.Published → s'.Published))
    (known : s'.cells.memory .singleton = 0 ∨ s'.Published)
    (settled : pc.making ∨ ¬ (s.pc t).making ∧ s'.made = s.made ∧
      s'.cells.memory = s.cells.memory ∨ s'.Published) : Inv s' := by
  have here : s'.pc t = pc := by rw [pcs, Function.update_self]
  have other (u : τ) (apart : u ≠ t) : s'.pc u = s.pc u := by rw [pcs, Function.update_of_ne apart]
  refine ⟨?_, fun u => ?_, known, fun none => ?_⟩
  · refine h.guards.turn (t := t) ?_ fun u apart => by rw [other u apart]
    rwa [here]
  · by_cases same : u = t
    · rw [same, here]
      exact mine
    · rw [buffers u same, other u same]
      rcases rest with ⟨made, memory⟩ | ⟨holds, published⟩
      · exact (h.ok u).congr made memory
      · exact (h.ok u).free (fun also => same (h.guards.exclusive also holds)) published
  · rcases settled with making | ⟨out, made, memory⟩ | published
    · exact absurd (here ▸ making) (none t)
    · have before : ∀ u, ¬ (s.pc u).making := by
        intro u
        by_cases same : u = t
        · rwa [same]
        · rw [← other u same]
          exact none u
      rw [State.Published, made, memory]
      exact h.settled before
    · exact .inr published

/-- A step on the way that changes neither the memory nor the buffer. -/
theorem Inv.goto (h : Inv s) (same : pc.holds ↔ (s.pc t).holds)
    (mine : s.Ok (s.cells.buffer t) pc) (out : pc.making ∨ ¬ (s.pc t).making) :
    Inv (s.goto t pc) := by
  refine h.move rfl (.inl ⟨rfl, same⟩) (fun _ _ => rfl) ?_ (.inl ⟨rfl, rfl⟩) h.known ?_
  · exact mine.congr rfl rfl
  · rcases out with making | out
    · exact .inl making
    · exact .inr (.inl ⟨out, rfl, rfl⟩)

theorem Inv.step (h : Inv s) (next : s.step t = some s') : Inv s' := by
  have ok := h.ok t
  cases here : s.pc t with
  | idle | returned p => simp only [State.step, here, reduceCtorEq] at next
  | firstLoad =>
    simp only [State.step, here, Option.some.injEq] at next
    subst next
    rw [here] at ok
    rcases h.load (by rw [here]; exact id) with null | ⟨one, published⟩
    · rw [if_pos null]
      exact h.goto (by rw [here]; exact Iff.rfl) ok (.inr (by rw [here]; exact id))
    · rw [one, if_neg Nat.one_ne_zero]
      exact h.goto (by rw [here]; exact Iff.rfl) ⟨rfl, ok, published⟩
        (.inr (by rw [here]; exact id))
  | lock =>
    simp only [State.step, here] at next
    split_ifs at next with free
    obtain rfl := Option.some.inj next
    rw [here] at ok
    refine h.move rfl (.inr (.inl ⟨Option.isNone_iff_eq_none.mp free.1, rfl, trivial⟩))
      (fun _ _ => rfl) ok (.inl ⟨rfl, rfl⟩) h.known (.inr (.inl ⟨?_, rfl, rfl⟩))
    rw [here]
    exact id
  | secondLoad =>
    simp only [State.step, here, Option.some.injEq] at next
    subst next
    rw [here] at ok
    rcases h.load (by rw [here]; exact id) with null | ⟨one, published⟩
    · have unmade := h.unmade (by rw [here]; trivial) (by rw [here]; exact id)
      rw [if_pos null]
      refine h.goto (by rw [here]; exact Iff.rfl) ⟨ok, unmade.resolve_right fun published => ?_⟩
        (.inr (by rw [here]; exact id))
      rw [Buffered.load_drained ok, published.2.1] at null
      cases null
    · rw [one, if_neg Nat.one_ne_zero]
      exact h.goto (by rw [here]; exact Iff.rfl)
        ⟨rfl, published.1, .inr (.inr ⟨ok, published⟩)⟩ (.inl trivial)
  | new =>
    simp only [State.step, here, Option.some.injEq] at next
    subst next
    rw [here] at ok
    obtain ⟨drained, unmade⟩ := ok
    have null : s.cells.memory .singleton = 0 := by
      refine h.known.resolve_right fun published => ?_
      rw [published.1] at unmade
      cases unmade
    refine h.move rfl (.inl ⟨rfl, by rw [here]; exact Iff.rfl⟩) (fun _ _ => rfl) ?_
      (.inr ⟨by rw [here]; trivial, fun published => ?_⟩) (.inl null) (.inl trivial)
    · exact ⟨congrArg (· + 1) unmade, congrArg (· + 1) unmade, null, drained⟩
    · rw [published.1] at unmade
      cases unmade
  | construct p =>
    simp only [State.step, here, Option.some.injEq] at next
    subst next
    rw [here] at ok
    obtain ⟨rfl, made, null, drained⟩ := ok
    have buffer : Function.update s.cells.buffer t
        (s.cells.buffer t ++ [(.reserved 1, rpInitialFreeListSize)]) t =
          [(.reserved 1, rpInitialFreeListSize)] := by
      rw [Function.update_self, drained]
      rfl
    exact h.move rfl (.inl ⟨rfl, by rw [here]; exact Iff.rfl⟩)
      (fun u apart => Function.update_of_ne apart ..) ⟨rfl, made, null, .inl buffer⟩
      (.inl ⟨rfl, rfl⟩) (.inl null) (.inl trivial)
  | store p =>
    simp only [State.step, here, Option.some.injEq] at next
    subst next
    rw [here] at ok
    obtain ⟨rfl, made, null, waits⟩ := ok
    have buffer : Function.update s.cells.buffer t (s.cells.buffer t ++ [(.singleton, 1)]) t =
        s.cells.buffer t ++ [(.singleton, 1)] := Function.update_self ..
    refine h.move rfl (.inl ⟨rfl, by rw [here]; exact Iff.rfl⟩)
      (fun u apart => Function.update_of_ne apart ..) ⟨rfl, made, ?_⟩
      (.inl ⟨rfl, rfl⟩) (.inl null) (.inl trivial)
    rcases waits with first | ⟨drained, reserved⟩
    · exact .inl ⟨null, buffer.trans (by rw [first]; rfl)⟩
    · exact .inr (.inl ⟨null, buffer.trans (by rw [drained]; rfl), reserved⟩)
  | unlock p =>
    simp only [State.step, here] at next
    split_ifs at next with drained
    obtain rfl := Option.some.inj next
    rw [here] at ok
    have empty := List.isEmpty_iff.mp drained
    obtain ⟨rfl, -, ⟨-, waits⟩ | ⟨-, waits, -⟩ | ⟨-, published⟩⟩ := ok
    · rw [empty] at waits
      cases waits
    · rw [empty] at waits
      cases waits
    · exact h.move rfl (.inr (.inr ⟨by rw [here]; trivial, rfl, id⟩)) (fun _ _ => rfl)
        ⟨rfl, empty, published⟩ (.inl ⟨rfl, rfl⟩) (.inr published) (.inr (.inr published))

/-- The stores of the maker reach the memory, the pointer last. -/
theorem Inv.flush (h : Inv s) {cells : Buffered τ Cell ℕ} (flushed : s.cells.flush t = some cells) :
    Inv { s with cells := cells } := by
  obtain ⟨entry, rest, waits, rfl⟩ := Buffered.flush_some flushed
  have same : s.pc = Function.update s.pc t (s.pc t) := (Function.update_eq_self ..).symm
  have others (u : τ) (apart : u ≠ t) :
      Function.update s.cells.buffer t rest u = s.cells.buffer u := Function.update_of_ne apart ..
  have mine : Function.update s.cells.buffer t rest t = rest := Function.update_self ..
  have apart : Cell.reserved 1 ≠ .singleton := by rintro ⟨⟩
  have making : (s.pc t).making := by
    by_contra out
    rw [(h.ok t).drained out] at waits
    cases waits
  have ok := h.ok t
  rw [waits] at ok
  -- The first entry is either the reservation or the pointer.
  have cases : entry = (.reserved 1, rpInitialFreeListSize) ∧ s.made = 1 ∧
        s.cells.memory .singleton = 0 ∧ (s.pc t = .store 1 ∧ rest = [] ∨
          s.pc t = .unlock 1 ∧ rest = [(.singleton, 1)]) ∨
      entry = (.singleton, 1) ∧ s.made = 1 ∧ s.pc t = .unlock 1 ∧ rest = [] ∧
        s.cells.memory (.reserved 1) = rpInitialFreeListSize := by
    cases here : s.pc t with
    | store p =>
      rw [here] at ok
      obtain ⟨rfl, made, null, first | ⟨none, -⟩⟩ := ok
      · obtain ⟨rfl, rfl⟩ := List.cons.inj first
        exact .inl ⟨rfl, made, null, .inl ⟨rfl, rfl⟩⟩
      · cases none
    | unlock p =>
      rw [here] at ok
      obtain ⟨rfl, made, ⟨null, both⟩ | ⟨null, last, reserved⟩ | ⟨none, -⟩⟩ := ok
      · obtain ⟨rfl, rfl⟩ := List.cons.inj both
        exact .inl ⟨rfl, made, null, .inr ⟨rfl, rfl⟩⟩
      · obtain ⟨rfl, rfl⟩ := List.cons.inj last
        exact .inr ⟨rfl, made, rfl, rfl, reserved⟩
      · cases none
    | construct p =>
      rw [here] at ok
      cases ok.2.2.2
    | _ =>
      rw [here] at making
      exact making.elim
  rcases cases with ⟨rfl, made, null, stands⟩ | ⟨rfl, made, here, rfl, reserved⟩
  · have null' : Function.update s.cells.memory (.reserved 1) rpInitialFreeListSize
        .singleton = 0 :=
      (Function.update_of_ne apart.symm ..).trans null
    have reserved' : Function.update s.cells.memory (.reserved 1) rpInitialFreeListSize
        (.reserved 1) = rpInitialFreeListSize := Function.update_self ..
    refine h.move same (.inl ⟨rfl, Iff.rfl⟩) others ?_ (.inr ⟨making.holds, fun published => ?_⟩)
      (.inl null') (.inl making)
    · change State.Ok _ (Function.update s.cells.buffer t rest t) _
      rw [mine]
      rcases stands with ⟨here, rfl⟩ | ⟨here, rfl⟩
      · rw [here]
        exact ⟨rfl, made, null', .inr ⟨rfl, reserved'⟩⟩
      · rw [here]
        exact ⟨rfl, made, .inr (.inl ⟨null', rfl, reserved'⟩)⟩
    · rw [published.2.1] at null
      cases null
  · have pointer : Function.update s.cells.memory .singleton 1 .singleton = 1 :=
      Function.update_self ..
    have reserved' : Function.update s.cells.memory .singleton 1 (.reserved 1) =
        rpInitialFreeListSize := (Function.update_of_ne apart ..).trans reserved
    have published : State.Published { s with cells := ⟨Function.update s.cells.memory .singleton 1,
        Function.update s.cells.buffer t []⟩ } :=
      ⟨made, pointer, reserved'⟩
    refine h.move same (.inl ⟨rfl, Iff.rfl⟩) others ?_ (.inr ⟨making.holds, fun _ => published⟩)
      (.inr published) (.inl making)
    change State.Ok _ (Function.update s.cells.buffer t [] t) _
    rw [mine, here]
    exact ⟨rfl, made, .inr (.inr ⟨rfl, published⟩)⟩

theorem Inv.act (h : Inv s) {a : Action τ} (next : s.act a = some s') : Inv s' := by
  cases a with
  | call t =>
    cases here : s.pc t with
    | idle | returned p =>
      simp only [State.act, here, Option.some.injEq] at next
      subst next
      have out : ¬ (s.pc t).making := by rw [here]; exact id
      exact h.goto (by rw [here]; exact Iff.rfl) ((h.ok t).drained out) (.inr out)
    | _ => simp only [State.act, here, reduceCtorEq] at next
  | step t => exact h.step next
  | flush t =>
    obtain ⟨cells, flushed, rfl⟩ := Option.map_eq_some_iff.mp next
    exact h.flush flushed

theorem inv_reachable (h : (machine τ).Reachable s) : Inv s := by
  refine h.invariant Inv (fun s start => ?_) fun _ _ _ hs next => hs.act next
  rw [show s = initial τ from start]
  exact inv_initial

omit [DecidableEq τ] in
theorem Inv.made_le (h : Inv s) : s.made ≤ 1 := by
  by_cases quiet : ∀ t, ¬ (s.pc t).making
  · rcases h.settled quiet with none | ⟨one, -⟩
    · exact none ▸ Nat.zero_le 1
    · exact Nat.le_of_eq one
  · obtain ⟨t, making⟩ := not_forall_not.mp quiet
    have ok := h.ok t
    cases here : s.pc t with
    | construct p | store p | unlock p =>
      rw [here] at ok
      exact Nat.le_of_eq ok.2.1
    | _ =>
      rw [here] at making
      exact making.elim

/-- However the threads are scheduled and however long stores wait, one pool at most is made, and
every call of `singleton` in every thread returns it, and constructed. -/
theorem singleton_once (h : (machine τ).Reachable s) : s.made ≤ 1 ∧
    ∀ t p, s.pc t = .returned p → p = 1 ∧ s.made = 1 ∧
      s.cells.load t (.reserved p) = rpInitialFreeListSize := by
  have inv := inv_reachable h
  refine ⟨inv.made_le, fun t p here => ?_⟩
  have ok := inv.ok t
  rw [here] at ok
  obtain ⟨rfl, drained, made, -, reserved⟩ := ok
  exact ⟨rfl, made, (Buffered.load_drained drained).trans reserved⟩

/-- The second thread finds `_singleton` null, waits for the mutex and then finds the pool; the
first one finds it without the lock when it calls again. -/
theorem singleton_once_two : ∃ s : State (Fin 2), s.pc 0 = .returned 1 ∧ s.pc 1 = .returned 1 ∧
    s.made = 1 ∧ s.cells.load 1 (.reserved 1) = 1024 := by
  have ran : ((machine (Fin 2)).run (initial (Fin 2)) [.call 0, .call 1, .step 0, .step 1, .step 0,
      .step 0, .step 0, .step 0, .step 0, .flush 0, .flush 0, .step 0, .step 1, .step 1, .step 1,
      .call 0, .step 0]).map (fun s => (s.pc 0, s.pc 1)) = some (.returned 1, .returned 1) := by
    decide +kernel
  obtain ⟨s, run, result⟩ := Option.map_eq_some_iff.mp ran
  obtain ⟨first, second⟩ := Prod.mk.inj result
  have start : (machine (Fin 2)).init (initial (Fin 2)) := rfl
  obtain ⟨-, made, constructed⟩ :=
    (singleton_once (Machine.run_reachable (.init start) run)).2 1 1 second
  exact ⟨s, first, second, made, constructed⟩

end Codelab.ResourcePoolSingleton
