import Codelab.SocketPool
import Codelab.Theory.History
import Mathlib.Data.Fintype.BigOperators

/-! Who has a socket. A socket that has been made is held by one caller, lies once in
`pool_`, is in the hands of one call or has been deleted once. The record of a run are the
sockets that `IsValid` has refused. -/

namespace Codelab.SocketPool

open Census

namespace Pc

/-- The socket that a call has taken out of the pool, or has yet to put into it. -/
@[simp] def sock : Pc → Option ℕ
  | .subtract n | .check n | .discard n | .push n => some n
  | _ => none

@[simp] def carries (n : ℕ) (p : Pc) : ℕ := if p.sock = some n then 1 else 0

@[simp] def discards (n : ℕ) (p : Pc) : ℕ := if p = .discard n then 1 else 0

end Pc

inductive Place (τ : Type*)
  | held (t : τ)
  | pooled
  | transit (t : τ)
  | deleted
  deriving DecidableEq

/-- The places as a sum, for their number. -/
def Place.equiv {τ : Type*} : Place τ ≃ (τ ⊕ τ) ⊕ Bool where
  toFun
    | .held t => .inl (.inl t)
    | .transit t => .inl (.inr t)
    | .pooled => .inr true
    | .deleted => .inr false
  invFun
    | .inl (.inl t) => .held t
    | .inl (.inr t) => .transit t
    | .inr true => .pooled
    | .inr false => .deleted
  left_inv := by rintro (_ | _ | _ | _) <;> rfl
  right_inv := by rintro ((_ | _) | _ | _) <;> rfl

instance {τ : Type*} [Fintype τ] : Fintype (Place τ) := .ofEquiv _ Place.equiv.symm

variable {τ : Type*} {size : Int} {s s' : State τ} {t : τ} {n : ℕ}

/-- How often the socket `n` is at a place. -/
def State.occurs (s : State τ) (n : ℕ) : Place τ → ℕ
  | .held t => (s.held t).count n
  | .pooled => s.pool.count n
  | .transit t => (s.pc t).carries n
  | .deleted => s.deleted.count n

/-- `n` is at `place` once and nowhere else. -/
def State.only [DecidableEq τ] (s : State τ) (n : ℕ) (place : Place τ) : Prop :=
  ∀ p, s.occurs n p = if p = place then 1 else 0

variable [Fintype τ]

/-- How often the socket `n` is anywhere. -/
def State.places (s : State τ) (n : ℕ) : ℕ := census id (s.occurs n)

theorem State.places_eq (s : State τ) (n : ℕ) : s.places n = census s.held (List.count n) +
    census s.pc (Pc.carries n) + (s.pool.count n + s.deleted.count n) := by
  rw [State.places, census, Fintype.sum_equiv Place.equiv _ fun p =>
    s.occurs n (Place.equiv.symm p),
    Fintype.sum_sum_type, Fintype.sum_sum_type,
    Fintype.sum_bool]
  · rfl
  · intro p
    rw [Equiv.symm_apply_apply, id_eq]

/-- Every socket that has been made is somewhere once, and no other is anywhere. -/
def Owned (s : State τ) : Prop := ∀ n, s.places n = if n < s.made then 1 else 0

theorem owned_initial : Owned (initial τ) := by
  intro n
  have held : census (initial τ).held (List.count n) = 0 := census_eq_zero.mpr fun _ => rfl
  have carried : census (initial τ).pc (Pc.carries n) = 0 := census_eq_zero.mpr fun _ => rfl
  rw [State.places_eq, held, carried]
  rfl

/-- The socket that `IsValid` refuses in this step. -/
def State.refuses (s : State τ) : Action τ → Option ℕ
  | .step t false =>
    match s.pc t with
    | .check n => some n
    | _ => none
  | _ => none

variable [DecidableEq τ]

/-- The pool with the record of the refused sockets, the last one first. -/
def logged (size : Int) (τ : Type*) [DecidableEq τ] [Fintype τ] :
    Machine (State τ × List ℕ) (Action τ) :=
  (machine size τ).recorded (fun _ => []) fun s a _ refused => (s.refuses a).toList ++ refused

/-- A thread moves from `p` to `p'` and holds the sockets `l` from then on. -/
theorem Owned.move (h : Owned s) {p p' : Pc} {l : List ℕ} (here : s.pc t = p)
    (pc : s'.pc = Function.update s.pc t p') (held : s'.held = Function.update s.held t l)
    (balance : ∀ n, l.count n + s'.pool.count n + p'.carries n + s'.deleted.count n +
        (if n < s.made then 1 else 0) =
      (s.held t).count n + s.pool.count n + p.carries n + s.deleted.count n +
        if n < s'.made then 1 else 0) : Owned s' := by
  intro n
  subst here
  have carried : census (Function.update s.pc t p') (Pc.carries n) + _ = _ := census_update
  have holding : census (Function.update s.held t l) (List.count n) + _ = _ := census_update
  rw [← pc] at carried
  rw [← held] at holding
  have before := h n
  have balance := balance n
  rw [State.places_eq] at before ⊢
  omega

/-- The same when no socket is made. -/
theorem Owned.trade (h : Owned s) {p p' : Pc} {l : List ℕ} (here : s.pc t = p)
    (pc : s'.pc = Function.update s.pc t p') (held : s'.held = Function.update s.held t l)
    (made : s'.made = s.made)
    (balance : ∀ n, l.count n + s'.pool.count n + p'.carries n + s'.deleted.count n =
      (s.held t).count n + s.pool.count n + p.carries n + s.deleted.count n) : Owned s' := by
  refine h.move here pc held fun n => ?_
  rw [made, balance n]

/-- The same when the thread gets and gives up nothing. -/
theorem Owned.pass (h : Owned s) {p p' : Pc} (here : s.pc t = p)
    (pc : s'.pc = Function.update s.pc t p') (held : s'.held = s.held) (made : s'.made = s.made)
    (balance : ∀ n, s'.pool.count n + p'.carries n + s'.deleted.count n =
      s.pool.count n + p.carries n + s.deleted.count n) : Owned s' := by
  have kept : s'.held = Function.update s.held t (s.held t) := by
    rw [held, Function.update_eq_self]
  refine h.trade here pc kept made fun n => ?_
  have balance := balance n
  omega

/-- One case for each place of the thread. -/
theorem Owned.step (h : Owned s) {valid : Bool} (next : s.step size t valid = some s') :
    Owned s' := by
  cases here : s.pc t with
  | idle => simp only [State.step, here, reduceCtorEq] at next
  | take =>
    cases pool : s.pool with
    | nil =>
      simp only [State.step, here, pool, Option.some.injEq] at next
      subst next
      exact h.pass here rfl rfl rfl fun n => rfl
    | cons n rest =>
      simp only [State.step, here, pool, Option.some.injEq] at next
      subst next
      refine h.pass here rfl rfl rfl fun m => ?_
      simp [State.goto, pool, List.count_cons]
  | subtract n =>
    simp only [State.step, here, Option.some.injEq] at next
    subst next
    exact h.pass here rfl rfl rfl fun m => rfl
  | check n =>
    cases valid with
    | true =>
      simp only [State.step, here, if_true, Option.some.injEq] at next
      subst next
      refine h.trade here rfl rfl rfl fun m => ?_
      simp [State.goto, State.give, List.count_cons]
      omega
    | false =>
      simp only [State.step, here, Bool.false_eq_true, if_false, Option.some.injEq] at next
      subst next
      exact h.pass here rfl rfl rfl fun m => rfl
  | discard n =>
    simp only [State.step, here, Option.some.injEq] at next
    subst next
    refine h.pass here rfl rfl rfl fun m => ?_
    simp [State.goto, List.count_cons]
    omega
  | test =>
    simp only [State.step, here] at next
    split_ifs at next with below
    · obtain rfl := Option.some.inj next
      exact h.pass here rfl rfl rfl fun m => rfl
    · obtain rfl := Option.some.inj next
      exact h.pass here rfl rfl rfl fun m => rfl
  | add =>
    simp only [State.step, here, Option.some.injEq] at next
    subst next
    exact h.pass here rfl rfl rfl fun m => rfl
  | create =>
    simp only [State.step, here, Option.some.injEq] at next
    subst next
    refine h.move here rfl rfl fun m => ?_
    simp [State.goto, State.give, List.count_cons]
    split_ifs <;> omega
  | push n =>
    simp only [State.step, here, Option.some.injEq] at next
    subst next
    refine h.pass here rfl rfl rfl fun m => ?_
    simp [State.goto, List.count_cons]
  | addReturned =>
    simp only [State.step, here, Option.some.injEq] at next
    subst next
    exact h.pass here rfl rfl rfl fun m => rfl

theorem Owned.act (h : Owned s) {a : Action τ} (next : s.act size a = some s') : Owned s' := by
  cases a with
  | getSocket t =>
    simp only [State.act] at next
    split_ifs at next with admitted
    obtain rfl := Option.some.inj next
    exact h.pass admitted.1 rfl rfl rfl fun n => rfl
  | returnSocket t sock =>
    cases sock with
    | none =>
      simp only [State.act] at next
      split_ifs at next with admitted
      exact Option.some.inj next ▸ h
    | some n =>
      simp only [State.act] at next
      split_ifs at next with admitted
      obtain rfl := Option.some.inj next
      refine h.trade admitted.1 rfl rfl rfl fun m => ?_
      have holds : 0 < (s.held t).count n := List.count_pos_iff.mpr admitted.2.2
      by_cases same : n = m
      · subst same
        simp [State.goto, List.count_erase_self]
        omega
      · simp [State.goto, List.count_erase_of_ne (Ne.symm same), same]
  | step t valid => exact h.step next
  | destruct =>
    simp only [State.act] at next
    split_ifs at next with admitted
    obtain rfl := Option.some.inj next
    intro n
    rw [← h n, State.places_eq, State.places_eq, List.count_append, List.count_reverse]
    simp only [List.count_nil]
    omega

omit [DecidableEq τ] in
theorem Owned.nowhere (h : Owned s) (unmade : s.made ≤ n) (place : Place τ) :
    s.occurs n place = 0 := by
  have none := h n
  rw [if_neg (by omega)] at none
  exact census_eq_zero.mp none place

theorem Owned.somewhere (h : Owned s) (made : n < s.made) : ∃ place, s.only n place := by
  have one := h n
  rw [if_pos made] at one
  obtain ⟨place, once, others⟩ := census_eq_one one
  refine ⟨place, fun p => ?_⟩
  split_ifs with same
  · rw [same]
    exact once
  · exact others p same

theorem Owned.apart (h : Owned s) {p q : Place τ} (hp : 0 < s.occurs n p) (hq : 0 < s.occurs n q) :
    p = q := by
  by_cases made : n < s.made
  · obtain ⟨place, only⟩ := h.somewhere made
    rw [only p] at hp
    rw [only q] at hq
    split_ifs at hp hq with atP atQ
    · exact atP.trans atQ.symm
    · exact absurd hq (lt_irrefl 0)
    · exact absurd hp (lt_irrefl 0)
    · exact absurd hp (lt_irrefl 0)
  · rw [h.nowhere (not_lt.mp made)] at hp
    exact absurd hp (lt_irrefl 0)

omit [Fintype τ] in
/-- What a step does to the sockets that its thread holds. -/
theorem State.step_held {valid : Bool} (next : s.step size t valid = some s') :
    s'.held = s.held ∨ ∃ n, s'.held = Function.update s.held t (n :: s.held t) ∧
      (s.pc t = .check n ∧ valid = true ∨ s.pc t = .create ∧ n = s.made) := by
  cases here : s.pc t with
  | idle => simp only [State.step, here, reduceCtorEq] at next
  | take =>
    simp only [State.step, here] at next
    split at next <;> exact .inl (Option.some.inj next ▸ rfl)
  | check n =>
    simp only [State.step, here] at next
    split_ifs at next with passed
    · exact .inr ⟨n, Option.some.inj next ▸ rfl, .inl ⟨rfl, passed⟩⟩
    · exact .inl (Option.some.inj next ▸ rfl)
  | test =>
    simp only [State.step, here] at next
    split_ifs at next <;> exact .inl (Option.some.inj next ▸ rfl)
  | create =>
    simp only [State.step, here] at next
    exact .inr ⟨s.made, Option.some.inj next ▸ rfl, .inr ⟨rfl, rfl⟩⟩
  | _ =>
    simp only [State.step, here] at next
    exact .inl (Option.some.inj next ▸ rfl)

/-- A thread gets a socket that has passed `IsValid` in this call or that it has made. -/
theorem State.handed_out {a : Action τ} (next : s.act size a = some s') (got : n ∈ s'.held t)
    (new : n ∉ s.held t) : ∃ valid, a = .step t valid ∧
      (s.pc t = .check n ∧ valid = true ∨ s.pc t = .create ∧ n = s.made) := by
  cases a with
  | getSocket u =>
    simp only [State.act] at next
    split_ifs at next
    obtain rfl := Option.some.inj next
    exact absurd got new
  | returnSocket u sock =>
    cases sock with
    | none =>
      simp only [State.act] at next
      split_ifs at next
      obtain rfl := Option.some.inj next
      exact absurd got new
    | some m =>
      simp only [State.act] at next
      split_ifs at next
      obtain rfl := Option.some.inj next
      by_cases same : t = u
      · subst same
        have kept : n ∈ (s.held t).erase m := by simpa only [Function.update_self] using got
        exact absurd (List.mem_of_mem_erase kept) new
      · have kept : n ∈ s.held t := by simpa only [Function.update_of_ne same] using got
        exact absurd kept new
  | step u valid =>
    rcases State.step_held next with same | ⟨m, held, from_⟩
    · rw [same] at got
      exact absurd got new
    · by_cases same : t = u
      · subst same
        rw [held, Function.update_self] at got
        rcases List.mem_cons.mp got with rfl | old
        · exact ⟨valid, rfl, from_⟩
        · exact absurd old new
      · rw [held, Function.update_of_ne same] at got
        exact absurd got new
  | destruct =>
    simp only [State.act] at next
    split_ifs at next
    obtain rfl := Option.some.inj next
    exact absurd got new

/-- A socket that `IsValid` has refused is deleted, or its call deletes it next. Before the
destructor no others are. -/
structure Refusals (s : State τ) (refused : List ℕ) : Prop where
  count : s.destroyed = false → ∀ n,
    refused.count n = s.deleted.count n + census s.pc (Pc.discards n)
  final : s.destroyed = true → (∀ t, s.pc t = .idle) ∧ refused ⊆ s.deleted

omit [DecidableEq τ] in
theorem Refusals.done {refused : List ℕ} (h : Refusals s refused) (mem : n ∈ refused) :
    n ∈ s.deleted ∨ ∃ t, s.pc t = .discard n := by
  cases working : s.destroyed with
  | true => exact .inl ((h.final working).2 mem)
  | false =>
    have counted := h.count working n
    have noted : 0 < refused.count n := List.count_pos_iff.mpr mem
    by_cases deleted : n ∈ s.deleted
    · exact .inl deleted
    · rw [List.count_eq_zero.mpr deleted] at counted
      obtain ⟨t, pos⟩ : ∃ t, 0 < (s.pc t).discards n := census_pos.mp (by omega)
      refine .inr ⟨t, ?_⟩
      by_contra other
      rw [Pc.discards, if_neg other] at pos
      exact absurd pos (lt_irrefl 0)

theorem Refusals.move {refused refused' : List ℕ} (h : Refusals s refused) {p p' : Pc}
    (here : s.pc t = p) (working : s.destroyed = false)
    (pc : s'.pc = Function.update s.pc t p') (destroyed : s'.destroyed = s.destroyed)
    (balance : ∀ n, refused'.count n + s.deleted.count n + p.discards n =
      refused.count n + s'.deleted.count n + p'.discards n) : Refusals s' refused' := by
  refine ⟨fun _ n => ?_, fun no => ?_⟩
  · subst here
    have moved : census (Function.update s.pc t p') (Pc.discards n) + _ = _ := census_update
    rw [← pc] at moved
    have before := h.count working n
    have balance := balance n
    omega
  · rw [destroyed, working] at no
    cases no

/-- One case for each place of the thread. -/
theorem Refusals.step {refused : List ℕ} (h : Refusals s refused) {valid : Bool}
    (next : s.step size t valid = some s') :
    Refusals s' ((s.refuses (.step t valid)).toList ++ refused) := by
  have working : s.destroyed = false := by
    by_contra destroyed
    have idle := (h.final (by simpa using destroyed)).1 t
    simp only [State.step, idle, reduceCtorEq] at next
  cases here : s.pc t with
  | idle => simp only [State.step, here, reduceCtorEq] at next
  | take =>
    simp only [State.step, here] at next
    split at next <;> obtain rfl := Option.some.inj next <;>
      exact h.move here working rfl rfl fun n => by
        cases valid <;> simp [State.goto, State.refuses, here]
  | check n =>
    cases valid with
    | true =>
      simp only [State.step, here, if_true, Option.some.injEq] at next
      subst next
      exact h.move here working rfl rfl fun m => by simp [State.goto, State.give, State.refuses]
    | false =>
      simp only [State.step, here, Bool.false_eq_true, if_false, Option.some.injEq] at next
      subst next
      refine h.move here working rfl rfl fun m => ?_
      simp [State.goto, State.refuses, here, List.count_cons]
      omega
  | discard n =>
    simp only [State.step, here, Option.some.injEq] at next
    subst next
    refine h.move here working rfl rfl fun m => ?_
    cases valid <;> simp [State.refuses, here, List.count_cons] <;> omega
  | test =>
    simp only [State.step, here] at next
    split_ifs at next <;> obtain rfl := Option.some.inj next <;>
      exact h.move here working rfl rfl fun n => by
        cases valid <;> simp [State.goto, State.refuses, here]
  | _ =>
    simp only [State.step, here, Option.some.injEq] at next
    subst next
    exact h.move here working rfl rfl fun n => by
      cases valid <;> simp [State.goto, State.give, State.refuses, here]

theorem Refusals.act {refused : List ℕ} (h : Refusals s refused) {a : Action τ}
    (next : s.act size a = some s') : Refusals s' ((s.refuses a).toList ++ refused) := by
  cases a with
  | getSocket t =>
    simp only [State.act] at next
    split_ifs at next with admitted
    obtain rfl := Option.some.inj next
    exact h.move admitted.1 admitted.2 rfl rfl fun n => by simp [State.goto, State.refuses]
  | returnSocket t sock =>
    cases sock with
    | none =>
      simp only [State.act] at next
      split_ifs at next with admitted
      exact Option.some.inj next ▸ h
    | some n =>
      simp only [State.act] at next
      split_ifs at next with admitted
      obtain rfl := Option.some.inj next
      exact h.move admitted.1 admitted.2.1 rfl rfl fun n => by simp [State.goto, State.refuses]
  | step t valid => exact h.step next
  | destruct =>
    simp only [State.act] at next
    split_ifs at next with admitted
    obtain rfl := Option.some.inj next
    refine ⟨by rintro ⟨⟩, fun _ => ⟨admitted.1, fun n mem => ?_⟩⟩
    rcases h.done mem with deleted | ⟨t, here⟩
    · exact List.mem_append_right _ deleted
    · rw [admitted.1 t] at here
      cases here

omit [DecidableEq τ] in
theorem refusals_initial : Refusals (initial τ) [] where
  count _ n := by
    have none : census (initial τ).pc (Pc.discards n) = 0 := census_eq_zero.mpr fun _ => rfl
    rw [none]
    rfl
  final := by rintro ⟨⟩

theorem logged_inv {refused : List ℕ} (h : (logged size τ).Reachable (s, refused)) :
    Owned s ∧ Refusals s refused := by
  refine Machine.ReachableBy.recorded_invariant (fun s refused => Owned s ∧ Refusals s refused)
    (fun s start => ?_) (fun s a s' refused before _ next => ?_) h
  · rw [show s = initial τ from start]
    exact ⟨owned_initial, refusals_initial⟩
  · exact ⟨before.1.act next, before.2.act next⟩

/-- The destructor deletes what is pooled, once each, and nothing else. -/
theorem Owned.destruct (h : Owned s) (next : s.act size .destruct = some s') :
    s'.pool = [] ∧ ∀ n, s'.deleted.count n = s.deleted.count n + if n ∈ s.pool then 1 else 0 := by
  simp only [State.act] at next
  split_ifs at next
  obtain rfl := Option.some.inj next
  refine ⟨rfl, fun n => ?_⟩
  rw [List.count_append, List.count_reverse, Nat.add_comm, Nat.add_left_cancel_iff]
  have once : s.places n ≤ 1 := by
    rw [h n]
    split_ifs <;> omega
  rw [State.places_eq] at once
  split_ifs with mem
  · have pos : 0 < s.pool.count n := List.count_pos_iff.mpr mem
    omega
  · exact List.count_eq_zero.mpr mem

/-- In every state of every run each socket made is in one place, once, and a socket that
`IsValid` has refused is deleted or about to be. A socket got in a step has passed `IsValid`
in that call or is new, and has not been deleted. -/
theorem one_owner {refused : List ℕ} (h : (logged size τ).Reachable (s, refused)) :
    (∀ n < s.made, ∃ place, s.only n place) ∧
    (∀ n, s.made ≤ n → ∀ place, s.occurs n place = 0) ∧ s.deleted.Nodup ∧
    (∀ n ∈ refused, n ∈ s.deleted ∨ ∃ t, s.pc t = .discard n) ∧
    ∀ a s', s.act size a = some s' →
      (∀ t n, n ∈ s'.held t → n ∉ s.held t → n ∉ s.deleted ∧ ∃ valid, a = .step t valid ∧
        (s.pc t = .check n ∧ valid = true ∨ s.pc t = .create ∧ n = s.made)) ∧
      (a = .destruct → s'.pool = [] ∧
        ∀ n, s'.deleted.count n = s.deleted.count n + if n ∈ s.pool then 1 else 0) := by
  obtain ⟨owned, refusals⟩ := logged_inv h
  refine ⟨fun n made => owned.somewhere made, fun n unmade => owned.nowhere unmade, ?_,
    fun n mem => refusals.done mem, fun a s' next => ⟨fun t n got new => ?_, ?_⟩⟩
  · refine List.nodup_iff_count_le_one.mpr fun n => ?_
    by_cases made : n < s.made
    · obtain ⟨place, only⟩ := owned.somewhere made
      have once := only .deleted
      rw [State.occurs] at once
      split_ifs at once <;> omega
    · have none := owned.nowhere (not_lt.mp made) (Place.deleted : Place τ)
      rw [State.occurs] at none
      omega
  · obtain ⟨valid, rfl, source⟩ := State.handed_out next got new
    refine ⟨fun deleted => ?_, valid, rfl, source⟩
    have gone : 0 < s.occurs n .deleted := List.count_pos_iff.mpr deleted
    rcases source with ⟨here, -⟩ | ⟨-, rfl⟩
    · have carried : 0 < s.occurs n (.transit t) := by
        simp [State.occurs, here]
      cases owned.apart gone carried
    · rw [owned.nowhere le_rfl] at gone
      exact absurd gone (lt_irrefl 0)
  · rintro rfl
    exact owned.destruct next

/-- A thread returns its socket, finds it invalid when it gets one again and makes another. -/
theorem one_owner_refused : ∃ s : State (Fin 2), s.held 0 = [1] ∧ s.deleted = [0] ∧
    (∃ place, s.only 0 place) ∧ ∃ place, s.only 1 place := by
  have ran : ((logged 2 (Fin 2)).run (initial (Fin 2), [])
      [.getSocket 0, .step 0 true, .step 0 true, .step 0 true, .step 0 true,
        .returnSocket 0 (some 0), .step 0 true, .step 0 true, .getSocket 0, .step 0 true,
        .step 0 true, .step 0 false, .step 0 true, .step 0 true, .step 0 true, .step 0 true,
        .step 0 true]).map (fun p => (p.1.held 0, p.1.deleted, p.1.made)) =
      some ([1], [0], 2) := by decide +kernel
  obtain ⟨⟨s, refused⟩, run, results⟩ := Option.map_eq_some_iff.mp ran
  obtain ⟨held, rest⟩ := Prod.ext_iff.mp results
  obtain ⟨deleted, made⟩ := Prod.ext_iff.mp rest
  dsimp only at held deleted made
  have start : (logged 2 (Fin 2)).init (initial (Fin 2), []) := ⟨rfl, rfl⟩
  obtain ⟨placed, -⟩ := one_owner (Machine.run_reachable (.init start) run)
  exact ⟨s, held, deleted, placed 0 (by omega), placed 1 (by omega)⟩

end Codelab.SocketPool
