import Codelab.SocketPoolSize
import Codelab.SocketPoolOwners

/-! When the pool refuses a socket. `pool_count_` is not decremented for a socket that is
deleted because it is invalid, so from then on the pool gives out fewer than `pool_size_`. -/

namespace Codelab.SocketPool

open Census

/-- A call begins when no other is in progress. -/
def State.sequential {τ : Type*} (s : State τ) : Action τ → Prop
  | .getSocket _ | .returnSocket .. => ∀ t, s.pc t = .idle
  | _ => True

instance {τ : Type*} [Fintype τ] (s : State τ) : DecidablePred s.sequential
  | .getSocket _ | .returnSocket .. => inferInstanceAs (Decidable (∀ t, s.pc t = .idle))
  | .step .. | .destruct => inferInstanceAs (Decidable True)

variable {τ : Type*} [Fintype τ] {size : Int} {s s' : State τ} {t : τ}

/-- The sockets that callers have and that have not been deleted. -/
def State.checkedOut [DecidableEq τ] (s : State τ) : Finset ℕ :=
  {n ∈ s.live | ∃ t, n ∈ s.held t}

/-- The next step of `t` is to return a null pointer from `GetSocket`. -/
def State.refusesCall (size : Int) (s : State τ) (t : τ) : Prop :=
  s.pc t = .test ∧ ¬s.poolCount < size

/-- At most one call is in progress, and it comes to the test with an empty pool. -/
structure Lone (s : State τ) : Prop where
  single : ∀ t u, s.pc t ≠ .idle → u ≠ t → s.pc u = .idle
  empty : ∀ t, s.pc t = .test → s.pool = []

omit [Fintype τ] in
theorem lone_initial : Lone (initial τ) where
  single _ _ busy := absurd rfl busy
  empty := by rintro t ⟨⟩

/-- A sum over the threads is the weight of the one that is in a call. -/
theorem Lone.census_eq (h : Lone s) {weight : Pc → ℕ} (idle : weight .idle = 0)
    (busy : s.pc t ≠ .idle) : census s.pc weight = weight (s.pc t) := by
  refine Finset.sum_eq_single t (fun u _ apart => ?_) fun no => absurd (Finset.mem_univ t) no
  rw [h.single t u busy apart, idle]

variable [DecidableEq τ]

omit [Fintype τ] in
theorem Lone.of_move {p' : Pc} (alone : ∀ u, u ≠ t → s.pc u = .idle)
    (pc : s'.pc = Function.update s.pc t p') (empty : p' = .test → s'.pool = []) : Lone s' := by
  have others {u : τ} (apart : u ≠ t) : s'.pc u = .idle := by
    rw [pc, Function.update_of_ne apart, alone u apart]
  refine ⟨fun u v busy apart => ?_, fun u here => ?_⟩
  · by_cases same : u = t
    · exact others (same ▸ apart)
    · exact absurd (others same) busy
  · by_cases same : u = t
    · rw [same, pc, Function.update_self] at here
      exact empty here
    · rw [others same] at here
      cases here

omit [Fintype τ] in
/-- A step moves its thread only, and to the test only from an empty pool. -/
theorem State.step_pc {valid : Bool} (next : s.step size t valid = some s') :
    s.pc t ≠ .idle ∧ ∃ p', s'.pc = Function.update s.pc t p' ∧ (p' = .test → s'.pool = []) := by
  cases here : s.pc t with
  | idle => simp only [State.step, here, reduceCtorEq] at next
  | take =>
    cases pool : s.pool with
    | nil =>
      simp only [State.step, here, pool, Option.some.injEq] at next
      exact ⟨by simp, .test, next ▸ rfl, fun _ => next ▸ pool⟩
    | cons n rest =>
      simp only [State.step, here, pool, Option.some.injEq] at next
      exact ⟨by simp, .subtract n, next ▸ rfl, by simp⟩
  | check n =>
    simp only [State.step, here] at next
    split_ifs at next
    · exact ⟨by simp, .idle, Option.some.inj next ▸ rfl, by simp⟩
    · exact ⟨by simp, .discard n, Option.some.inj next ▸ rfl, by simp⟩
  | test =>
    simp only [State.step, here] at next
    split_ifs at next
    · exact ⟨by simp, .add, Option.some.inj next ▸ rfl, by simp⟩
    · exact ⟨by simp, .idle, Option.some.inj next ▸ rfl, by simp⟩
  | _ =>
    simp only [State.step, here, Option.some.injEq] at next
    subst next
    exact ⟨by simp, _, rfl, by simp⟩

theorem Lone.act (h : Lone s) {a : Action τ} (sequential : s.sequential a)
    (next : s.act size a = some s') : Lone s' := by
  cases a with
  | getSocket t =>
    simp only [State.act] at next
    split_ifs at next
    obtain rfl := Option.some.inj next
    exact .of_move (t := t) (fun u _ => sequential u) rfl (by simp)
  | returnSocket t sock =>
    cases sock with
    | none =>
      simp only [State.act] at next
      split_ifs at next
      exact Option.some.inj next ▸ h
    | some n =>
      simp only [State.act] at next
      split_ifs at next
      obtain rfl := Option.some.inj next
      exact .of_move (t := t) (fun u _ => sequential u) rfl (by simp)
  | step t valid =>
    obtain ⟨busy, p', pc, empty⟩ := State.step_pc next
    exact .of_move (fun u apart => h.single t u busy apart) pc empty
  | destruct =>
    simp only [State.act] at next
    split_ifs at next with admitted
    obtain rfl := Option.some.inj next
    exact ⟨h.single, fun t _ => rfl⟩

omit [Fintype τ] in
/-- A pool of negative size is like one of size zero. -/
theorem State.step_max {valid : Bool} (counted : s.pc t = .test → 0 ≤ s.poolCount) :
    s.step size t valid = s.step (max size 0) t valid := by
  rcases le_total 0 size with nonneg | neg
  · rw [max_eq_left nonneg]
  · rw [max_eq_right neg]
    cases here : s.pc t with
    | test =>
      have count := counted here
      simp only [State.step, here]
      rw [if_neg (by omega), if_neg (by omega)]
    | _ => simp only [State.step, here]

omit [DecidableEq τ] in
/-- At the test nothing is owed, so the counter is the number of sockets made. -/
theorem Lone.count (h : Lone s) (inv : Inv (max size 0) s) (here : s.pc t = .test) :
    s.poolCount = s.made := by
  have busy : s.pc t ≠ .idle := by
    simp [here]
  have count := inv.count (inv.working busy)
  rw [h.census_eq rfl busy, h.census_eq rfl busy, h.census_eq rfl busy, here,
    h.empty t here] at count
  simpa using count

omit [DecidableEq τ] in
/-- No test passes for the sole reason that increments are missing. -/
theorem Lone.timely (h : Lone s) {valid : Bool} : s.timely size (.step t valid) := by
  intro here below
  have busy : s.pc t ≠ .idle := by
    simp [here]
  rw [State.owed, h.census_eq rfl busy, h.census_eq rfl busy, here]
  simpa using below

theorem Lone.inv_act (h : Lone s) (inv : Inv (max size 0) s) {a : Action τ}
    (next : s.act size a = some s') : Inv (max size 0) s' := by
  cases a with
  | step t valid =>
    have counted (here : s.pc t = .test) : 0 ≤ s.poolCount := by
      rw [h.count inv here]
      exact Int.natCast_nonneg s.made
    have moved : s.step (max size 0) t valid = some s' := (State.step_max counted).symm.trans next
    exact inv.step h.timely moved
  | getSocket t => exact inv.act (a := .getSocket t) trivial next
  | returnSocket t sock =>
    cases sock with
    | none => exact inv.act (a := .returnSocket t none) trivial next
    | some n => exact inv.act (a := .returnSocket t (some n)) trivial next
  | destruct => exact inv.act (a := .destruct) trivial next

/-- One induction for what a sequential run keeps. -/
theorem sequential_inv {refused : List ℕ}
    (h : (logged size τ).ReachableBy (fun p a => p.1.sequential a) (s, refused)) :
    Lone s ∧ Inv (max size 0) s := by
  have reached : (machine size τ).ReachableBy State.sequential s := h.forget
  refine reached.invariant (fun s => Lone s ∧ Inv (max size 0) s) (fun s start => ?_)
    fun s a s' before sequential next => ?_
  · rw [show s = initial τ from start]
    exact ⟨lone_initial, inv_initial (le_max_right size 0)⟩
  · exact ⟨before.1.act sequential next, before.1.inv_act before.2 next⟩

/-- At the test a socket is deleted or a caller has it. -/
theorem Lone.checkedOut_eq (h : Lone s) (owned : Owned s) (here : s.pc t = .test) :
    s.checkedOut = s.live := by
  refine Finset.filter_true_of_mem fun n live => ?_
  obtain ⟨made, kept⟩ := Finset.mem_filter.mp live
  obtain ⟨place, only⟩ := owned.somewhere (Finset.mem_range.mp made)
  have there : 0 < s.occurs n place := by
    rw [only place, if_pos rfl]
    exact Nat.one_pos
  cases place with
  | held u => exact ⟨u, List.count_pos_iff.mp there⟩
  | pooled =>
    rw [State.occurs, h.empty t here] at there
    exact absurd there (lt_irrefl 0)
  | transit u =>
    by_cases same : u = t
    · rw [State.occurs, same, here] at there
      exact absurd there (lt_irrefl 0)
    · have idle := h.single t u (by simp [here]) same
      rw [State.occurs, idle] at there
      exact absurd there (lt_irrefl 0)
  | deleted => exact absurd (List.count_pos_iff.mp there) kept

omit [DecidableEq τ] in
/-- The live sockets are all that were made when none has been deleted, and fewer else. -/
theorem Owned.live_card_eq (owned : Owned s) : s.live.card = s.made ↔ s.deleted = [] := by
  constructor
  · intro all
    by_contra some
    obtain ⟨n, deleted⟩ := List.exists_mem_of_ne_nil s.deleted some
    have made : n ∈ Finset.range s.made := by
      by_contra unmade
      have none := owned.nowhere (not_lt.mp fun lt => unmade (Finset.mem_range.mpr lt))
        (Place.deleted : Place τ)
      exact List.count_eq_zero.mp none deleted
    have fewer : s.live ⊂ Finset.range s.made := by
      refine Finset.filter_ssubset.mpr ⟨n, made, fun kept => kept deleted⟩
    have less := Finset.card_lt_card fewer
    rw [Finset.card_range] at less
    omega
  · intro none
    rw [State.live, none, Finset.filter_true_of_mem fun n _ => List.not_mem_nil,
      Finset.card_range]

/-- In a sequential run a null pointer means that `pool_size_` sockets are checked out if and
only if no `IsValid` has refused a socket. -/
theorem exhausted_iff {refused : List ℕ}
    (h : (logged size τ).ReachableBy (fun p a => p.1.sequential a) (s, refused))
    (null : s.refusesCall size t) :
    (size ≤ s.checkedOut.card ↔ refused = []) ∧
      (0 ≤ size → ((s.checkedOut.card : Int) = size ↔ refused = [])) := by
  obtain ⟨lone, inv⟩ := sequential_inv h
  obtain ⟨owned, refusals⟩ := logged_inv h.reachable
  obtain ⟨here, full⟩ := null
  have count := lone.count inv here
  have bound := inv.bound
  have le := s.live_card_le
  have busy : s.pc t ≠ .idle := by
    simp [here]
  have same : refused.Perm s.deleted := by
    refine List.perm_iff_count.mpr fun n => ?_
    rw [refusals.count (inv.working busy) n, lone.census_eq rfl busy, here]
    rfl
  have deleted : refused = [] ↔ s.deleted = [] :=
    ⟨fun none => (none ▸ same).symm.eq_nil, fun none => (none ▸ same).eq_nil⟩
  rw [lone.checkedOut_eq owned here, deleted, ← owned.live_card_eq]
  omega

/-- A second call while the only socket is out. -/
theorem exhausted_iff_one :
    ∃ s : State (Fin 1), s.refusesCall 1 0 ∧ (1 : Int) ≤ s.checkedOut.card := by
  have ran : ((logged 1 (Fin 1)).runBy (fun p a => p.1.sequential a) (initial (Fin 1), [])
      [.getSocket 0, .step 0 true, .step 0 true, .step 0 true, .step 0 true, .getSocket 0,
        .step 0 true]).map (fun p => (p.1.pc 0, p.1.poolCount, p.2)) =
      some (.test, 1, []) := by decide +kernel
  obtain ⟨⟨s, refused⟩, run, results⟩ := Option.map_eq_some_iff.mp ran
  obtain ⟨here, rest⟩ := Prod.ext_iff.mp results
  obtain ⟨count, none⟩ := Prod.ext_iff.mp rest
  dsimp only at here count none
  have start : (logged 1 (Fin 1)).init (initial (Fin 1), []) := ⟨rfl, rfl⟩
  have reached := (Machine.runBy_reachable (.init start) run).mono fun p a admitted =>
    of_decide_eq_true admitted
  have null : s.refusesCall 1 0 := ⟨here, by omega⟩
  exact ⟨s, null, (exhausted_iff reached null).1.mpr none⟩

/-- The only socket becomes invalid in the pool. The call that deletes it returns a null
pointer, with no socket checked out. -/
theorem refused_unexhausted : ¬∀ (size : Int) (s : State (Fin 1)) (refused : List ℕ) (t : Fin 1),
    (logged size (Fin 1)).ReachableBy (fun p a => p.1.sequential a) (s, refused) →
    s.refusesCall size t → size ≤ s.checkedOut.card := by
  intro exhausted
  have ran : ((logged 1 (Fin 1)).runBy (fun p a => p.1.sequential a) (initial (Fin 1), [])
      [.getSocket 0, .step 0 true, .step 0 true, .step 0 true, .step 0 true,
        .returnSocket 0 (some 0), .step 0 true, .step 0 true, .getSocket 0, .step 0 true,
        .step 0 true, .step 0 false, .step 0 true, .step 0 true]).map
        (fun p => (p.1.pc 0, p.1.poolCount, p.1.checkedOut.card)) =
      some (.test, 1, 0) := by decide +kernel
  obtain ⟨⟨s, refused⟩, run, results⟩ := Option.map_eq_some_iff.mp ran
  obtain ⟨here, rest⟩ := Prod.ext_iff.mp results
  obtain ⟨count, none⟩ := Prod.ext_iff.mp rest
  dsimp only at here count none
  have start : (logged 1 (Fin 1)).init (initial (Fin 1), []) := ⟨rfl, rfl⟩
  have reached := (Machine.runBy_reachable (.init start) run).mono fun p a admitted =>
    of_decide_eq_true admitted
  have enough := exhausted 1 s refused 0 reached ⟨here, by omega⟩
  rw [none] at enough
  exact absurd enough (by decide)

end Codelab.SocketPool
