import Codelab.SocketPoolSize
import Mathlib.Data.Finset.Insert

/-! How many sockets a pool makes in its life. Deleted ones are never made up for, so apart from
calls that test `pool_count_` at the same time there are `pool_size_` of them, invalid or not. -/

namespace Codelab.SocketPool

open Census

variable {τ : Type*} [Fintype τ] {size : Int} {s s' : State τ} {t : τ}

/-- Every call can pass the test on the last free place, but one of them fills it by right. -/
def lifetime (size : Int) (τ : Type*) [Fintype τ] : Int := max 0 (size + Fintype.card τ - 1)

/-- An increment is still to be made. -/
def Pc.owes (pc : Pc) : ℕ := pc.tested + pc.entering

theorem Pc.owes_le (pc : Pc) : pc.owes ≤ 1 := by
  cases pc <;> simp [owes]

theorem owed_eq : s.owed = census s.pc Pc.owes := Finset.sum_add_distrib.symm

variable [DecidableEq τ]

/-- Other threads than the one at the test owe increments. -/
theorem owed_lt (here : s.pc t = .test) : s.owed < Fintype.card τ := by
  have moved : census (Function.update s.pc t .add) Pc.owes + Pc.owes (s.pc t) =
      census s.pc Pc.owes + Pc.owes .add := census_update
  have each : census (Function.update s.pc t .add) Pc.owes ≤
      census (Function.update s.pc t .add) fun _ => 1 :=
    census_mono fun u => Pc.owes_le _
  have ones : census (Function.update s.pc t .add) (fun _ => 1) = Fintype.card τ :=
    census_eq_card fun _ => rfl
  rw [here, show Pc.owes .test = 0 from rfl, show Pc.owes .add = 1 from rfl] at moved
  rw [owed_eq]
  omega

omit [Fintype τ] in
/-- `pool_size_` matters to the test alone. -/
theorem step_size {size' : Int} {valid : Bool} (here : s.pc t ≠ .test) :
    s.step size t valid = s.step size' t valid := by
  cases pc : s.pc t with
  | test => exact absurd pc here
  | _ => simp only [State.step, pc]

theorem Inv.lifetime_step (h : Inv (lifetime size τ) s) {valid : Bool}
    (next : s.step size t valid = some s') : Inv (lifetime size τ) s' := by
  by_cases here : s.pc t = .test
  · have working := h.working (t := t) (by rw [here]; rintro ⟨⟩)
    simp only [State.step, here] at next
    split_ifs at next with below
    · obtain rfl := Option.some.inj next
      have count := h.count working
      have others := owed_lt here
      refine h.move here working rfl rfl (by simp [State.goto]) ?_
      simp [State.goto, State.owed, lifetime] at others ⊢
      omega
    · obtain rfl := Option.some.inj next
      have bound := h.bound
      exact h.move here working rfl rfl (by simp [State.goto]) (by simpa [State.goto] using bound)
  · rw [step_size here] at next
    exact h.step (fun test => absurd test here) next

theorem Inv.lifetime_act (h : Inv (lifetime size τ) s) {a : Action τ}
    (next : s.act size a = some s') : Inv (lifetime size τ) s' := by
  cases a with
  | step t valid => exact h.lifetime_step next
  | getSocket t => exact h.act (a := .getSocket t) trivial next
  | destruct => exact h.act (a := .destruct) trivial next
  | returnSocket t sock =>
    cases sock with
    | none => exact h.act (a := .returnSocket t none) trivial next
    | some n => exact h.act (a := .returnSocket t (some n)) trivial next

theorem lifetime_reachable (h : (machine size τ).Reachable s) : Inv (lifetime size τ) s := by
  refine h.invariant (Inv (lifetime size τ)) (fun s start => ?_) fun _ _ _ hs next =>
    hs.lifetime_act next
  rw [show s = initial τ from start]
  exact inv_initial (le_max_left ..)

/-- All sockets made so far are in use, and the threads stand at `pc`. -/
structure Taken (made : ℕ) (pc : τ → Pc) (s : State τ) : Prop where
  pool : s.pool = []
  count : s.poolCount = made
  made : s.made = made
  deleted : s.deleted = []
  working : s.destroyed = false
  pc : s.pc = pc

/-- Some run makes `made` sockets and brings the threads to `pc`. -/
def Makes (size : Int) (made : ℕ) (pc : τ → Pc) : Prop :=
  ∃ s, (machine size τ).Reachable s ∧ Taken made pc s

theorem makes_none : Makes size 0 (fun _ : τ => Pc.idle) :=
  ⟨initial τ, .init rfl, rfl, rfl, rfl, rfl, rfl, rfl⟩

variable {made : ℕ} {pc : τ → Pc}

/-- While the count is below the size, a thread can pass the test. -/
theorem Makes.test (h : Makes size made pc) (idle : pc t = .idle)
    (room : (made : Int) < size) :
    Makes size made (Function.update pc t .add) := by
  obtain ⟨s, reached, taken⟩ := h
  have here : s.pc t = .idle := by rw [taken.pc, idle]
  have entered : (machine size τ).next s (.getSocket t) = some (s.goto t .take) :=
    if_pos ⟨here, taken.working⟩
  have at_take : (s.goto t .take).pc t = .take := Function.update_self ..
  have empty : (s.goto t .take).pool = [] := taken.pool
  have took : (machine size τ).next (s.goto t .take) (.step t true) =
      some ((s.goto t .take).goto t .test) := by
    change (s.goto t .take).step size t true = _
    simp only [State.step, at_take, empty]
  have at_test : ((s.goto t .take).goto t .test).pc t = .test := Function.update_self ..
  have below : ((s.goto t .take).goto t .test).poolCount < size := by
    change s.poolCount < size
    rwa [taken.count]
  have tested : (machine size τ).next ((s.goto t .take).goto t .test) (.step t true) =
      some (((s.goto t .take).goto t .test).goto t .add) := by
    change ((s.goto t .take).goto t .test).step size t true = _
    simp only [State.step, at_test, if_pos below]
  refine ⟨_, ((reached.step entered).step took).step tested, taken.pool, taken.count, taken.made,
    taken.deleted, taken.working, ?_⟩
  change Function.update (Function.update (Function.update s.pc t _) t _) t _ = _
  rw [Function.update_idem, Function.update_idem, taken.pc]

/-- A thread behind the test makes its socket, whatever has been counted since. -/
theorem Makes.create (h : Makes size made pc) (passed : pc t = .add) :
    Makes size (made + 1) (Function.update pc t .idle) := by
  obtain ⟨s, reached, taken⟩ := h
  have here : s.pc t = .add := by rw [taken.pc, passed]
  have added : (machine size τ).next s (.step t true) =
      some { s.goto t .create with poolCount := s.poolCount + 1 } := by
    change s.step size t true = _
    simp only [State.step, here]
  have at_create : (s.goto t .create).pc t = .create := Function.update_self ..
  have created : (machine size τ).next { s.goto t .create with poolCount := s.poolCount + 1 }
      (.step t true) = some { ((s.goto t .create).give t s.made).goto t .idle with
        poolCount := s.poolCount + 1, made := s.made + 1 } := by
    change State.step size _ t true = _
    simp only [State.step, at_create]
    rfl
  refine ⟨_, (reached.step added).step created, taken.pool, ?_, congrArg (· + 1) taken.made,
    taken.deleted, taken.working, ?_⟩
  · change s.poolCount + 1 = _
    rw [taken.count]
    rfl
  · change Function.update (Function.update s.pc t _) t _ = _
    rw [Function.update_idem, taken.pc]

/-- One after the other. -/
theorem makes_alone (t : τ) (within : (made : Int) ≤ size) :
    Makes size made fun _ : τ => .idle := by
  induction made with
  | zero => exact makes_none
  | succ made ih =>
    have before := (ih (by omega)).test (t := t) rfl (by omega)
    have after := before.create (Function.update_self ..)
    rwa [Function.update_idem, show Function.update (fun _ : τ => Pc.idle) t .idle = _ from
      Function.update_eq_self t fun _ => Pc.idle] at after

/-- All threads pass the test on the same place. -/
theorem makes_tested (h : Makes size made fun _ : τ => .idle) (room : (made : Int) < size)
    (S : Finset τ) : Makes size made fun t => if t ∈ S then .add else .idle := by
  induction S using Finset.induction_on with
  | empty => simpa using h
  | insert t S new ih =>
    have after := ih.test (t := t) (if_neg new) room
    convert after using 1
    funext u
    by_cases same : u = t
    · simp [same]
    · simp [same]

theorem makes_created (h : Makes size made fun _ : τ => .add) (S : Finset τ) :
    Makes size (made + S.card) fun t => if t ∈ S then .idle else .add := by
  induction S using Finset.induction_on with
  | empty => simpa using h
  | insert t S new ih =>
    have after := ih.create (t := t) (if_neg new)
    rw [Finset.card_insert_of_notMem new, ← Nat.add_assoc]
    convert after using 1
    funext u
    by_cases same : u = t
    · simp [same]
    · simp [same]

/-- A pool makes at most `pool_size_ + n - 1` sockets for `n` threads, however long it is used and
however many sockets get invalid and are deleted; and that many can be in use at once. -/
theorem made_at_most (size : Int) (τ : Type*) [Fintype τ] [DecidableEq τ] :
    (∀ s, (machine size τ).Reachable s → (s.made : Int) ≤ max 0 (size + Fintype.card τ - 1)) ∧
      (1 ≤ size → 0 < Fintype.card τ →
        ∃ s, (machine size τ).Reachable s ∧ (s.live.card : Int) = size + Fintype.card τ - 1) := by
  constructor
  · intro s reached
    have bound := (lifetime_reachable reached).bound
    rw [lifetime] at bound
    omega
  · intro positive inhabited
    obtain ⟨t⟩ := Fintype.card_pos_iff.mp inhabited
    obtain ⟨k, rfl⟩ : ∃ k : ℕ, size = k + 1 := ⟨(size - 1).toNat, by omega⟩
    have alone : Makes ((k : Int) + 1) k fun _ : τ => .idle := makes_alone t (by omega)
    have tested := makes_tested alone (by omega) Finset.univ
    simp only [Finset.mem_univ, if_true] at tested
    obtain ⟨s, reached, taken⟩ := makes_created tested Finset.univ
    refine ⟨s, reached, ?_⟩
    have all : s.live = Finset.range s.made := by simp [State.live, taken.deleted]
    rw [all, Finset.card_range, taken.made, Finset.card_univ]
    omega

/-- A pool of one socket and two threads. -/
theorem made_at_most_two : ∃ s, (machine 1 (Fin 2)).Reachable s ∧ (s.live.card : Int) = 2 :=
  (made_at_most 1 (Fin 2)).2 (by decide) (by decide)

end Codelab.SocketPool
