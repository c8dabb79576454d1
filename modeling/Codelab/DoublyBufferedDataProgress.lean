import Codelab.DoublyBufferedDataLocks
import Codelab.Theory.Census
import Codelab.Theory.Progress

/-! No deadlock in `DoublyBufferedData`. `Modify` waits for the readers while it holds
`wrapper_mutex_`, and a new reader waits for that mutex, but a thread that is waited for never waits
itself. -/

namespace Codelab.DoublyBufferedData

open Census

section moves

variable {T τ : Type*} [DecidableEq τ] {initial : T} {s s' : State T τ} {t : τ}

/-- The calls in progress go on and the pointers are given back, but no call begins. -/
def finishing : Action T τ → Bool
  | .endRead _ | .step .. => true
  | .read _ | .modify .. => false

theorem lockInv_reachable (h : (machine initial τ).Reachable s) : LockInv s :=
  h.invariant LockInv (fun _ start => lockInv_init start) fun _ _ _ inv next => inv.act next

/-- Someone can go on. -/
def Moves (s : State T τ) : Prop := ∃ a, finishing a = true ∧ ∃ s', s.act a = some s'

theorem moves_of_step (t : τ) (step : ∃ s', s.step t false = some s') : Moves s :=
  ⟨.step t false, rfl, step⟩

/-- Whoever holds the mutex of a wrapper waits for nobody. -/
theorem LockInv.mtx_moves (inv : LockInv s) {w : ℕ} (held : s.mtx w = some t) : Moves s := by
  have stands := (inv.mtx w t).mp held
  cases pc : s.pc t with
  | loadIndex v => exact moves_of_step t ⟨_, by simp only [State.step, pc]; rfl⟩
  | holding v i => exact ⟨.endRead t, rfl, _, by simp only [State.act, pc]; rfl⟩
  | modWaited c bg i v => exact moves_of_step t ⟨_, by simp only [State.step, pc]; rfl⟩
  | _ => simp [pc, Pc.mtxHeld] at stands

/-- Whoever holds `wrapper_mutex_` waits for the holders of wrapper mutexes at most. -/
theorem LockInv.list_moves (inv : LockInv s) (held : s.wrapperMutex = some t) : Moves s := by
  have stands := (inv.list t).mp held
  cases pc : s.pc t with
  | addPush v | addUnlock v => exact moves_of_step t ⟨_, by simp only [State.step, pc]; rfl⟩
  | modWaited c bg i v => exact moves_of_step t ⟨_, by simp only [State.step, pc]; rfl⟩
  | modUnlock c bg => exact moves_of_step t ⟨_, by simp only [State.step, pc]; rfl⟩
  | modWait c bg i =>
    cases found : s.wrappers[i]? with
    | none => exact moves_of_step t ⟨_, by simp only [State.step, pc, found]; rfl⟩
    | some w =>
      cases owner : s.mtx w with
      | none =>
        have free : (s.mtx w).isNone = true := by rw [owner]; rfl
        exact moves_of_step t ⟨_, by simp only [State.step, pc, found, if_pos free]; rfl⟩
      | some u => exact inv.mtx_moves owner
  | _ => simp [pc, Pc.listHeld] at stands

theorem LockInv.moves (inv : LockInv s) (busy : (s.pc t).resting = false) : Moves s := by
  cases pc : s.pc t with
  | idle | readFailed | modDone result => simp [pc, Pc.resting] at busy
  | holding w i => exact ⟨.endRead t, rfl, _, by simp only [State.act, pc]; rfl⟩
  | addLock w | modLock c bg =>
    cases owner : s.wrapperMutex with
    | none =>
      have free : s.wrapperMutex.isNone = true := by rw [owner]; rfl
      exact moves_of_step t ⟨_, by simp only [State.step, pc, if_pos free]; rfl⟩
    | some u => exact inv.list_moves owner
  | modWait c bg i =>
    have stands : (s.pc t).listHeld = true := by rw [pc]; rfl
    exact inv.list_moves ((inv.list t).mpr stands)
  | beginRead w =>
    cases owner : s.mtx w with
    | none =>
      have free : (s.mtx w).isNone = true := by rw [owner]; rfl
      exact moves_of_step t ⟨_, by simp only [State.step, pc, if_pos free]; rfl⟩
    | some u => exact inv.mtx_moves owner
  | getKey =>
    cases key : s.wrapperKey t with
    | none | some w => exact moves_of_step t ⟨_, by simp only [State.step, pc, key]; rfl⟩
  | newWrapper | setKey w =>
    exact moves_of_step t ⟨_, by simp only [State.step, pc, Bool.false_eq_true, if_false]; rfl⟩
  | modFirst c bg =>
    cases ret : (c.fn.run (s.data bg)).1 with
    | true => exact moves_of_step t ⟨_, by simp only [State.step, pc, ret, if_true]; rfl⟩
    | false =>
      exact moves_of_step t
        ⟨_, by simp only [State.step, pc, ret, Bool.false_eq_true, if_false]; rfl⟩
  | _ => exact moves_of_step t ⟨_, by simp only [State.step, pc]; rfl⟩

end moves

variable {T τ : Type*} [Fintype τ] {initial : T} {s s' : State T τ} {t : τ}

/-- A wrapper that the call in progress may still add. -/
def Pc.adds : Pc T → ℕ
  | .getKey | .newWrapper | .addLock _ | .addPush _ => 1
  | _ => 0

/-- The steps before the call in progress is over and its `ScopedPtr` is gone, where the list comes
to no more than `wrappers` wrappers. -/
def Pc.remaining (wrappers : ℕ) : Pc T → ℕ
  | .idle | .readFailed | .modDone _ => 0
  | .holding .. => 1
  | .loadIndex _ => 2
  | .beginRead _ => 3
  | .setKey _ => 4
  | .addUnlock _ => 5
  | .addPush _ => 6
  | .addLock _ => 7
  | .newWrapper => 8
  | .getKey => 9
  | .modSecond .. => 2
  | .modUnlock .. => 3
  | .modWait _ _ i => 2 * (wrappers - i) + 4
  | .modWaited _ _ i _ => 2 * (wrappers - (i + 1)) + 5
  | .modLock .. => 2 * wrappers + 5
  | .modStore .. => 2 * wrappers + 6
  | .modFirst .. => 2 * wrappers + 7
  | .modLoad _ => 2 * wrappers + 8

theorem Pc.remaining_le (pc : Pc T) (wrappers : ℕ) : pc.remaining wrappers ≤ 2 * wrappers + 9 := by
  cases pc <;> simp only [Pc.remaining] <;> omega

theorem Pc.remaining_mono (pc : Pc T) {fewer wrappers : ℕ} (le : fewer ≤ wrappers) :
    pc.remaining fewer ≤ pc.remaining wrappers := by
  cases pc <;> simp only [Pc.remaining] <;> omega

namespace State

/-- The wrappers that are on the list or still on their way to it. -/
def ahead (s : State T τ) : ℕ := s.wrappers.length + census s.pc Pc.adds

def remaining (s : State T τ) : ℕ := census s.pc (Pc.remaining s.ahead)

theorem ahead_le (s : State T τ) : s.ahead ≤ s.wrappers.length + Fintype.card τ := by
  have each : census s.pc Pc.adds ≤ census s.pc fun _ => 1 :=
    census_mono fun t => by cases s.pc t <;> simp [Pc.adds]
  have ones : census s.pc (fun _ => 1) = Fintype.card τ := census_eq_card fun _ => rfl
  rw [ahead]
  omega

theorem remaining_le (s : State T τ) : s.remaining ≤
    Fintype.card τ * (2 * (s.wrappers.length + Fintype.card τ) + 9) := by
  have each : s.remaining ≤ census s.pc fun _ => 2 * s.ahead + 9 :=
    census_mono fun t => (s.pc t).remaining_le _
  have sum : census s.pc (fun _ => 2 * s.ahead + 9) = Fintype.card τ * (2 * s.ahead + 9) := by
    simp [census]
  have bound := s.ahead_le
  rw [sum] at each
  exact each.trans (Nat.mul_le_mul_left _ (by omega))

end State

variable [DecidableEq τ]

/-- A thread moves on, and adds no more wrappers than it was about to. -/
theorem remaining_move {pc : Pc T} (moved : s'.pc = Function.update s.pc t pc)
    (wrappers : s'.wrappers.length + pc.adds ≤ s.wrappers.length + (s.pc t).adds)
    (less : pc.remaining s'.ahead < (s.pc t).remaining s'.ahead) : s'.remaining < s.remaining := by
  have adds : census (Function.update s.pc t pc) Pc.adds + _ = _ := census_update
  have fewer : s'.ahead ≤ s.ahead := by
    rw [State.ahead, State.ahead, moved]
    omega
  have sum : census (Function.update s.pc t pc) (Pc.remaining s'.ahead) + _ = _ := census_update
  have others : census s.pc (Pc.remaining s'.ahead) ≤ census s.pc (Pc.remaining s.ahead) :=
    census_mono fun u => (s.pc u).remaining_mono fewer
  rw [State.remaining, State.remaining, moved]
  omega

/-- A step that leaves the list of wrappers as it is. -/
theorem remaining_goto {pc : Pc T} (moved : s'.pc = Function.update s.pc t pc)
    (wrappers : s'.wrappers = s.wrappers) (adds : pc.adds ≤ (s.pc t).adds)
    (less : ∀ n, s.wrappers.length ≤ n → pc.remaining n < (s.pc t).remaining n) :
    s'.remaining < s.remaining := by
  refine remaining_move moved (by rw [wrappers]; omega) (less _ ?_)
  rw [State.ahead, wrappers]
  exact Nat.le_add_right ..

theorem remaining_step {fails : Bool} (h : s.step t fails = some s') :
    s'.remaining < s.remaining := by
  cases pc : s.pc t <;> simp only [State.step, pc] at h
  case getKey =>
    split at h <;> obtain rfl := Option.some.inj h <;>
      exact remaining_goto rfl rfl (by simp [pc, Pc.adds]) fun n _ => by simp [pc, Pc.remaining]
  case newWrapper =>
    split_ifs at h <;> obtain rfl := Option.some.inj h <;>
      exact remaining_goto rfl rfl (by simp [pc, Pc.adds]) fun n _ => by simp [pc, Pc.remaining]
  case addLock w =>
    split_ifs at h
    obtain rfl := Option.some.inj h
    exact remaining_goto rfl rfl (by simp [pc, Pc.adds]) fun n _ => by simp [pc, Pc.remaining]
  case addPush w =>
    obtain rfl := Option.some.inj h
    refine remaining_move rfl ?_ (by simp [pc, Pc.remaining])
    simp [pc, Pc.adds]
  case setKey w =>
    split_ifs at h <;> obtain rfl := Option.some.inj h <;>
      exact remaining_goto rfl rfl (by simp [pc, Pc.adds]) fun n _ => by simp [pc, Pc.remaining]
  case beginRead w =>
    split_ifs at h
    obtain rfl := Option.some.inj h
    exact remaining_goto rfl rfl (by simp [pc, Pc.adds]) fun n _ => by simp [pc, Pc.remaining]
  case modFirst c bg =>
    split_ifs at h <;> obtain rfl := Option.some.inj h <;>
      exact remaining_goto rfl rfl (by simp [pc, Pc.adds]) fun n _ => by simp [pc, Pc.remaining]
  case modLock c bg =>
    split_ifs at h
    obtain rfl := Option.some.inj h
    exact remaining_goto rfl rfl (by simp [pc, Pc.adds]) fun n _ => by simp [pc, Pc.remaining]
  case modWait c bg i =>
    split at h
    · obtain rfl := Option.some.inj h
      exact remaining_goto rfl rfl (by simp [pc, Pc.adds]) fun n _ => by
        simp only [pc, Pc.remaining]
        omega
    · rename_i w found
      split_ifs at h
      obtain rfl := Option.some.inj h
      -- The wrapper is on the list, so there is one less to come.
      have inside : i < s.wrappers.length := (List.getElem?_eq_some_iff.mp found).1
      exact remaining_goto rfl rfl (by simp [pc, Pc.adds]) fun n enough => by
        simp only [pc, Pc.remaining]
        omega
  case modWaited c bg i w =>
    obtain rfl := Option.some.inj h
    exact remaining_goto rfl rfl (by simp [pc, Pc.adds]) fun n _ => by simp [pc, Pc.remaining]
  case addUnlock | loadIndex | modLoad | modStore | modUnlock | modSecond =>
    obtain rfl := Option.some.inj h
    exact remaining_goto rfl rfl (by simp [pc, Pc.adds]) fun n _ => by simp [pc, Pc.remaining]
  all_goals cases h

theorem remaining_act {a : Action T τ} (ends : finishing a = true) (h : s.act a = some s') :
    s'.remaining < s.remaining := by
  cases a with
  | read t | modify t fn => cases ends
  | step t fails => exact remaining_step h
  | endRead t =>
    simp only [State.act] at h
    split at h
    · rename_i pc
      obtain rfl := Option.some.inj h
      exact remaining_goto rfl rfl (by simp [pc, Pc.adds]) fun n _ => by simp [pc, Pc.remaining]
    · cases h

theorem finishes : (machine initial τ).Finishes (fun _ a => finishing a) LockInv
    (fun s => ∀ t, (s.pc t).resting = true) State.remaining where
  down s a s' inv ends next := ⟨inv.act next, remaining_act ends next⟩
  moves s inv on := by
    obtain ⟨t, busy⟩ := not_forall.mp on
    exact inv.moves (Bool.not_eq_true _ ▸ busy)

/-- If no more calls begin and every `ScopedPtr` is destroyed sooner or later, the threads take a
bounded number of steps, in whatever order, and when none is left all calls have returned. -/
theorem calls_complete (h : (machine initial τ).Reachable s) {as : List (Action T τ)}
    (run : (machine initial τ).runBy (fun _ a => finishing a) s as = some s') :
    as.length ≤ Fintype.card τ * (2 * (s.wrappers.length + Fintype.card τ) + 9) ∧
      ((∀ a, finishing a = true → s'.act a = none) → ∀ t, (s'.pc t).resting = true) := by
  have inv := lockInv_reachable h
  refine ⟨?_, fun stuck => finishes.goal_of_stuck inv run stuck⟩
  have paid := (finishes.length_le inv run).2
  have bound := s.remaining_le
  omega

/-- The reader of thread 1 registers, holds its pointer while thread 0 begins to wait for it, and
gives it back. -/
def lastSteps : List (Action ℕ (Fin 2)) :=
  [.step 1 false, .step 1 false, .step 1 false, .step 1 false, .step 1 false, .step 1 false,
    .step 0 false, .endRead 1, .step 0 false, .step 0 false, .step 0 false, .step 0 false,
    .step 0 false]

theorem calls_complete_two : ∃ s s' : State ℕ (Fin 2),
    (machine 0 (Fin 2)).runBy (fun _ a => finishing a) s lastSteps = some s' ∧
      s'.data false = 1 ∧ s'.data true = 1 ∧
        lastSteps.length ≤ 2 * (2 * (s.wrappers.length + 2) + 9) := by
  let increment : Update ℕ := ⟨fun n => (true, n + 1), by rintro _ ⟨⟩⟩
  let start : State ℕ (Fin 2) :=
    ⟨fun _ => 0, false, fun _ => none, none, [], fun _ => none, 0, fun _ => .idle, [], fun _ => [],
      [], [], fun _ => [], fun _ => []⟩
  have ran : (((machine 0 (Fin 2)).run start [.modify 0 increment, .read 1, .step 1 false,
      .step 1 false, .step 0 false, .step 0 false, .step 0 false]).bind fun s =>
      ((machine 0 (Fin 2)).runBy (fun _ a => finishing a) s lastSteps).map fun s' =>
        (s'.data false, s'.data true)) = some (1, 1) := by rfl
  obtain ⟨s, first, rest⟩ := Option.bind_eq_some_iff.mp ran
  obtain ⟨s', last, result⟩ := Option.map_eq_some_iff.mp rest
  obtain ⟨front, back⟩ := Prod.mk.inj result
  have new : (machine 0 (Fin 2)).init start :=
    ⟨fun _ => rfl, rfl, fun _ => rfl, rfl, rfl, fun _ => rfl, rfl, fun _ => rfl, rfl,
      fun _ => rfl, rfl, rfl, fun _ => rfl, fun _ => rfl⟩
  exact ⟨s, s', last, front, back, (calls_complete
    (Machine.run_reachable (.init new) first) last).1⟩

end Codelab.DoublyBufferedData
