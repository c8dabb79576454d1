import Codelab.SocketPool

/-! How many sockets a pool makes. `pool_count_` is changed apart from what it counts, so
between a test or a push and the increment that follows it is too small. As long as no
test falls into such a gap, the sockets made, and so the live ones, never exceed
`pool_size_`. -/

namespace Codelab.SocketPool

open Census

namespace Pc

/-- Between the `pop_back` and the decrement. -/
@[simp] def leaving : Pc → ℕ
  | .subtract _ => 1
  | _ => 0

/-- Between the `push_back` and the increment. -/
@[simp] def entering : Pc → ℕ
  | .addReturned => 1
  | _ => 0

/-- Between the test and the increment. -/
@[simp] def tested : Pc → ℕ
  | .add => 1
  | _ => 0

/-- Between the increment and the making of the socket. -/
@[simp] def creating : Pc → ℕ
  | .create => 1
  | _ => 0

end Pc

variable {τ : Type*} [Fintype τ] {size : Int} {s s' : State τ} {t : τ}

/-- The increments of `pool_count_` that calls in progress have still to make. -/
def State.owed (s : State τ) : ℕ := census s.pc Pc.tested + census s.pc Pc.entering

/-- The test of `GetSocket` does not pass for the sole reason that increments are missing. -/
def State.timely (size : Int) (s : State τ) : Action τ → Prop
  | .step t _ => s.pc t = .test → s.poolCount < size → s.poolCount + s.owed < size
  | _ => True

instance [DecidableEq τ] (s : State τ) : DecidablePred (s.timely size)
  | .step t _ => inferInstanceAs (Decidable (s.pc t = .test → s.poolCount < size →
      s.poolCount + s.owed < size))
  | .getSocket _ | .returnSocket .. | .destruct => inferInstanceAs (Decidable True)

/-- `pool_count_` counts every socket made, and every pooled one once more. -/
structure Inv (size : Int) (s : State τ) : Prop where
  count : s.destroyed = false → s.poolCount + census s.pc Pc.entering =
    s.made + s.pool.length + census s.pc Pc.leaving + census s.pc Pc.creating
  bound : s.made + census s.pc Pc.creating + census s.pc Pc.tested ≤ size
  quiet : s.destroyed = true → ∀ t, s.pc t = .idle

theorem census_initial {weight : Pc → ℕ} (idle : weight .idle = 0) :
    census (initial τ).pc weight = 0 := census_eq_zero.mpr fun _ => idle

theorem inv_initial (nonneg : 0 ≤ size) : Inv size (initial τ) where
  count _ := by
    rw [census_initial rfl, census_initial rfl, census_initial rfl]
    rfl
  bound := by
    rw [census_initial rfl, census_initial rfl]
    exact nonneg
  quiet _ _ := rfl

theorem Inv.working (h : Inv size s) (busy : s.pc t ≠ .idle) : s.destroyed = false := by
  by_contra destroyed
  exact busy (h.quiet (by simpa using destroyed) t)

variable [DecidableEq τ]

/-- A thread moves from `p` to `p'`: what `pool_count_` gains and what it counts. -/
theorem Inv.move (h : Inv size s) {p p' : Pc} (here : s.pc t = p) (working : s.destroyed = false)
    (pc : s'.pc = Function.update s.pc t p') (destroyed : s'.destroyed = s.destroyed)
    (count : s'.poolCount + p'.entering + s.made + s.pool.length + p.leaving + p.creating =
      s.poolCount + p.entering + s'.made + s'.pool.length + p'.leaving + p'.creating)
    (bound : s.made + census s.pc Pc.creating + census s.pc Pc.tested +
      (s'.made + p'.creating + p'.tested - (s.made + p.creating + p.tested)) ≤ size) :
    Inv size s' := by
  subst here
  have leaving : census (Function.update s.pc t p') Pc.leaving + _ = _ := census_update
  have entering : census (Function.update s.pc t p') Pc.entering + _ = _ := census_update
  have tested : census (Function.update s.pc t p') Pc.tested + _ = _ := census_update
  have creating : census (Function.update s.pc t p') Pc.creating + _ = _ := census_update
  rw [← pc] at leaving entering tested creating
  have before := h.count working
  refine ⟨fun _ => ?_, ?_, fun no => ?_⟩
  · omega
  · omega
  · rw [destroyed, working] at no
    cases no

/-- One case for each place of the thread. -/
theorem Inv.step (h : Inv size s) {valid : Bool} (timely : s.timely size (.step t valid))
    (next : s.step size t valid = some s') : Inv size s' := by
  have bound := h.bound
  have working : s.destroyed = false := h.working (t := t) fun idle => by
    simp only [State.step, idle, reduceCtorEq] at next
  cases here : s.pc t with
  | idle => simp only [State.step, here, reduceCtorEq] at next
  | take =>
    cases pool : s.pool with
    | nil =>
      simp only [State.step, here, pool, Option.some.injEq] at next
      subst next
      exact h.move here working rfl rfl (by simp [State.goto]) (by simpa [State.goto] using bound)
    | cons n rest =>
      simp only [State.step, here, pool, Option.some.injEq] at next
      subst next
      refine h.move here working rfl rfl ?_ (by simpa [State.goto] using bound)
      simp [State.goto, pool]
      omega
  | subtract n =>
    simp only [State.step, here, Option.some.injEq] at next
    subst next
    refine h.move here working rfl rfl ?_ (by simpa [State.goto] using bound)
    simp [State.goto]
    omega
  | check n =>
    cases valid with
    | true =>
      simp only [State.step, here, if_true, Option.some.injEq] at next
      subst next
      exact h.move here working rfl rfl (by simp [State.goto, State.give])
        (by simpa [State.goto, State.give] using bound)
    | false =>
      simp only [State.step, here, Bool.false_eq_true, if_false, Option.some.injEq] at next
      subst next
      exact h.move here working rfl rfl (by simp [State.goto]) (by simpa [State.goto] using bound)
  | discard n =>
    simp only [State.step, here, Option.some.injEq] at next
    subst next
    exact h.move here working rfl rfl (by simp [State.goto]) (by simpa [State.goto] using bound)
  | test =>
    simp only [State.step, here] at next
    by_cases below : s.poolCount < size
    · rw [if_pos below, Option.some.injEq] at next
      subst next
      -- What the counter misses is owed, so what it counts leaves room for one more.
      have room := timely here below
      have count := h.count working
      simp only [State.owed] at room
      refine h.move here working rfl rfl (by simp [State.goto]) ?_
      simp [State.goto]
      omega
    · rw [if_neg below, Option.some.injEq] at next
      subst next
      exact h.move here working rfl rfl (by simp [State.goto]) (by simpa [State.goto] using bound)
  | add =>
    simp only [State.step, here, Option.some.injEq] at next
    subst next
    refine h.move here working rfl rfl ?_ (by simpa [State.goto] using bound)
    simp [State.goto]
    omega
  | create =>
    simp only [State.step, here, Option.some.injEq] at next
    subst next
    refine h.move here working rfl rfl ?_ (by simpa [State.goto, State.give] using bound)
    simp [State.goto, State.give]
    omega
  | push n =>
    simp only [State.step, here, Option.some.injEq] at next
    subst next
    refine h.move here working rfl rfl ?_ (by simpa [State.goto] using bound)
    simp [State.goto]
    omega
  | addReturned =>
    simp only [State.step, here, Option.some.injEq] at next
    subst next
    refine h.move here working rfl rfl ?_ (by simpa [State.goto] using bound)
    simp [State.goto]

theorem Inv.act (h : Inv size s) {a : Action τ} (timely : s.timely size a)
    (next : s.act size a = some s') : Inv size s' := by
  have bound := h.bound
  cases a with
  | getSocket t =>
    simp only [State.act] at next
    split_ifs at next with admitted
    obtain rfl := Option.some.inj next
    exact h.move admitted.1 admitted.2 rfl rfl (by simp [State.goto])
      (by simpa [State.goto] using bound)
  | returnSocket t sock =>
    cases sock with
    | none =>
      simp only [State.act] at next
      split_ifs at next with admitted
      exact Option.some.inj next ▸ h
    | some n =>
      simp only [State.act] at next
      split_ifs at next with admitted
      obtain rfl := Option.some.inj next
      exact h.move admitted.1 admitted.2.1 rfl rfl (by simp [State.goto])
        (by simpa [State.goto] using bound)
  | step t valid => exact h.step timely next
  | destruct =>
    simp only [State.act] at next
    split_ifs at next with admitted
    obtain rfl := Option.some.inj next
    exact ⟨by rintro ⟨⟩, h.bound, fun _ => admitted.1⟩

/-- As long as no test passes for the sole reason that increments are missing, a pool of
nonnegative size respects it. -/
theorem live_le_size (nonneg : 0 ≤ size)
    (h : (machine size τ).ReachableBy (State.timely size) s) : (s.live.card : Int) ≤ size := by
  have inv : Inv size s := by
    refine h.invariant (Inv size) (fun s start => ?_)
      fun s a s' hs timely next => hs.act timely next
    rw [show s = initial τ from start]
    exact inv_initial nonneg
  have live := s.live_card_le
  have bound := inv.bound
  omega

/-- One thread gets, returns and gets again while another finds the pool exhausted. -/
theorem live_le_size_one : ∃ s : State (Fin 2), s.held 0 = [0] ∧ (s.live.card : Int) ≤ 1 := by
  have ran : ((machine 1 (Fin 2)).runBy (fun s a => s.timely 1 a) (initial (Fin 2))
      [.getSocket 0, .step 0 true, .step 0 true, .step 0 true, .step 0 true, .getSocket 1,
        .step 1 true, .step 1 true, .returnSocket 0 (some 0), .step 0 true, .step 0 true,
        .getSocket 0, .step 0 true, .step 0 true, .step 0 true]).map (fun s => s.held 0) =
      some [0] := by decide +kernel
  obtain ⟨s, run, held⟩ := Option.map_eq_some_iff.mp ran
  have start : (machine 1 (Fin 2)).init (initial (Fin 2)) := rfl
  have reached := (Machine.runBy_reachable (.init start) run).mono fun s a admitted =>
    of_decide_eq_true admitted
  exact ⟨s, held, live_le_size (by decide) reached⟩

/-- Two calls of `GetSocket` test the count of an empty pool of size one before either of
them has incremented it. -/
theorem size_exceeded : ¬∀ (size : Int) (s : State (Fin 2)), 0 ≤ size →
    (machine size (Fin 2)).Reachable s → (s.live.card : Int) ≤ size := by
  intro respects
  have ran : ((machine 1 (Fin 2)).run (initial (Fin 2))
      [.getSocket 0, .getSocket 1, .step 0 true, .step 1 true, .step 0 true, .step 1 true,
        .step 0 true, .step 1 true, .step 0 true, .step 1 true]).map (fun s => s.live.card) =
      some 2 := by decide +kernel
  obtain ⟨s, run, live⟩ := Option.map_eq_some_iff.mp ran
  have start : (machine 1 (Fin 2)).init (initial (Fin 2)) := rfl
  have bound := respects 1 s (by decide) (Machine.run_reachable (.init start) run)
  rw [live] at bound
  exact absurd bound (by decide)

end Codelab.SocketPool
