import Codelab.DoublyBufferedData
import Codelab.Theory.Mutex

/-! The locks in every run of `DoublyBufferedData`, whoever writes: the mutexes are
held by the threads that stand between their lock and unlock, and a wrapper is on
the list before its thread reads through it. -/

namespace Codelab.DoublyBufferedData

open Mutex

variable {T τ : Type*} [DecidableEq τ] {initial : T} {s s' : State T τ} {t : τ}

/-- The wrapper whose mutex a thread holds. -/
def Pc.mtxHeld : Pc T → Option ℕ
  | .loadIndex w | .holding w _ | .modWaited _ _ _ w => some w
  | _ => none

/-- The thread holds `wrapper_mutex_`. -/
def Pc.listHeld : Pc T → Bool
  | .addPush _ | .addUnlock _ | .modWait .. | .modWaited .. | .modUnlock .. => true
  | _ => false

/-- The wrapper a reader has already registered. -/
def Pc.wrapper : Pc T → Option ℕ
  | .addUnlock w | .setKey w | .beginRead w | .loadIndex w | .holding w _ => some w
  | _ => none

theorem unregistered {T : Type*} {pc : Pc T} {P : ℕ → Prop} (h : pc.wrapper = none) :
    ∀ w, pc.wrapper = some w → P w :=
  fun w hw => absurd (hw.symm.trans h) (Option.some_ne_none w)

structure LockInv (s : State T τ) : Prop where
  mtx : ∀ w, Guards (s.mtx w) fun t => (s.pc t).mtxHeld = some w
  list : Guards s.wrapperMutex fun t => (s.pc t).listHeld = true
  registered : ∀ t w, (s.pc t).wrapper = some w → w ∈ s.wrappers
  keyed : ∀ t w, s.wrapperKey t = some w → w ∈ s.wrappers

/-- A step of thread `t` to the control point `pc` keeps the locks in order if it
treats each mutex as a thread may, and only adds wrappers. -/
theorem LockInv.move (inv : LockInv s) {pc : Pc T} (hpc : s'.pc = Function.update s.pc t pc)
    (mtx : ∀ w, Turn (s.mtx w) (s'.mtx w) t ((s.pc t).mtxHeld = some w) (pc.mtxHeld = some w))
    (list : Turn s.wrapperMutex s'.wrapperMutex t ((s.pc t).listHeld = true) (pc.listHeld = true))
    (grow : s.wrappers ⊆ s'.wrappers) (registered : ∀ w, pc.wrapper = some w → w ∈ s'.wrappers)
    (keyed : ∀ u w, s'.wrapperKey u = some w → w ∈ s'.wrappers) : LockInv s' := by
  have self : s'.pc t = pc := by rw [hpc, Function.update_self]
  have others : ∀ u, u ≠ t → s'.pc u = s.pc u := fun u e => by rw [hpc, Function.update_of_ne e]
  refine ⟨fun w => ?_, ?_, ?_, keyed⟩
  · refine (inv.mtx w).turn ?_ fun u e => by rw [others u e]
    rw [self]
    exact mtx w
  · refine inv.list.turn ?_ fun u e => by rw [others u e]
    rw [self]
    exact list
  · intro u w hw
    by_cases e : u = t
    · rw [e, self] at hw
      exact registered w hw
    · rw [others u e] at hw
      exact grow (inv.registered u w hw)

/-- A step that touches no mutex and no list. -/
theorem LockInv.goto (inv : LockInv s) {pc : Pc T} (hpc : s'.pc = Function.update s.pc t pc)
    (mtx : s'.mtx = s.mtx) (list : s'.wrapperMutex = s.wrapperMutex)
    (wrappers : s'.wrappers = s.wrappers) (key : s'.wrapperKey = s.wrapperKey)
    (mtxHeld : pc.mtxHeld = (s.pc t).mtxHeld) (listHeld : pc.listHeld = (s.pc t).listHeld)
    (registered : ∀ w, pc.wrapper = some w → w ∈ s.wrappers) : LockInv s' := by
  refine inv.move hpc (fun w => .inl ⟨by rw [mtx], by rw [mtxHeld]⟩)
    (.inl ⟨list, by rw [listHeld]⟩) (by rw [wrappers]; exact List.Subset.refl _) ?_ ?_
  · rw [wrappers]
    exact registered
  · rw [wrappers, key]
    exact inv.keyed

/-- Taking the mutex of wrapper `w`. -/
theorem LockInv.lockWrapper (inv : LockInv s) {pc : Pc T} {w : ℕ}
    (hpc : s'.pc = Function.update s.pc t pc) (free : s.mtx w = none)
    (mtx : s'.mtx = Function.update s.mtx w (some t)) (list : s'.wrapperMutex = s.wrapperMutex)
    (wrappers : s'.wrappers = s.wrappers) (key : s'.wrapperKey = s.wrapperKey)
    (before : (s.pc t).mtxHeld = none) (after : pc.mtxHeld = some w)
    (listHeld : pc.listHeld = (s.pc t).listHeld)
    (registered : ∀ w, pc.wrapper = some w → w ∈ s.wrappers) : LockInv s' := by
  refine inv.move hpc (fun v => ?_) (.inl ⟨list, by rw [listHeld]⟩)
    (by rw [wrappers]; exact List.Subset.refl _) ?_ ?_
  · rw [mtx, before, after]
    by_cases e : v = w
    · subst e
      exact .inr (.inl ⟨free, Function.update_self .., rfl⟩)
    · exact .inl ⟨Function.update_of_ne e .., by simp [Ne.symm e]⟩
  · rw [wrappers]
    exact registered
  · rw [wrappers, key]
    exact inv.keyed

/-- Giving the mutex of wrapper `w` back. -/
theorem LockInv.unlockWrapper (inv : LockInv s) {pc : Pc T} {w : ℕ}
    (hpc : s'.pc = Function.update s.pc t pc)
    (mtx : s'.mtx = Function.update s.mtx w none) (list : s'.wrapperMutex = s.wrapperMutex)
    (wrappers : s'.wrappers = s.wrappers) (key : s'.wrapperKey = s.wrapperKey)
    (before : (s.pc t).mtxHeld = some w) (after : pc.mtxHeld = none)
    (listHeld : pc.listHeld = (s.pc t).listHeld)
    (registered : ∀ w, pc.wrapper = some w → w ∈ s.wrappers) : LockInv s' := by
  refine inv.move hpc (fun v => ?_) (.inl ⟨list, by rw [listHeld]⟩)
    (by rw [wrappers]; exact List.Subset.refl _) ?_ ?_
  · rw [mtx, before, after]
    by_cases e : v = w
    · subst e
      exact .inr (.inr ⟨rfl, Function.update_self .., by simp⟩)
    · exact .inl ⟨Function.update_of_ne e .., by simp [Ne.symm e]⟩
  · rw [wrappers]
    exact registered
  · rw [wrappers, key]
    exact inv.keyed

/-- Taking or giving back `wrapper_mutex_`. -/
theorem LockInv.turnList (inv : LockInv s) {pc : Pc T} (hpc : s'.pc = Function.update s.pc t pc)
    (list : Turn s.wrapperMutex s'.wrapperMutex t ((s.pc t).listHeld = true) (pc.listHeld = true))
    (mtx : s'.mtx = s.mtx) (wrappers : s'.wrappers = s.wrappers)
    (key : s'.wrapperKey = s.wrapperKey) (mtxHeld : pc.mtxHeld = (s.pc t).mtxHeld)
    (registered : ∀ w, pc.wrapper = some w → w ∈ s.wrappers) : LockInv s' := by
  refine inv.move hpc (fun w => .inl ⟨by rw [mtx], by rw [mtxHeld]⟩) list
    (by rw [wrappers]; exact List.Subset.refl _) ?_ ?_
  · rw [wrappers]
    exact registered
  · rw [wrappers, key]
    exact inv.keyed

theorem lockInv_init (h : (machine initial τ).init s) : LockInv s := by
  obtain ⟨-, -, key, list, -, mtx, -, pc, -⟩ := h
  refine ⟨fun w => ?_, ?_, ?_, ?_⟩
  · rw [mtx]
    exact guards_none fun t => by simp [pc, Pc.mtxHeld]
  · rw [list]
    exact guards_none fun t => by simp [pc, Pc.listHeld]
  · intro t w hw
    simp [pc, Pc.wrapper] at hw
  · intro t w hw
    simp [key] at hw

theorem LockInv.step (inv : LockInv s) {fails : Bool} (h : s.step t fails = some s') :
    LockInv s' := by
  have mine : ∀ {pc w}, s.pc t = pc → pc.wrapper = some w → w ∈ s.wrappers :=
    fun e hw => inv.registered t _ (e ▸ hw)
  cases pc : s.pc t <;> simp only [State.step, pc] at h
  case getKey =>
    split at h <;> rename_i key <;> obtain rfl := Option.some.inj h
    · refine inv.goto rfl rfl rfl rfl rfl (by rw [pc]; rfl) (by rw [pc]; rfl) ?_
      rintro w ⟨⟩
      exact inv.keyed t _ key
    · exact inv.goto rfl rfl rfl rfl rfl (by rw [pc]; rfl) (by rw [pc]; rfl) (unregistered rfl)
  case newWrapper =>
    split_ifs at h <;> obtain rfl := Option.some.inj h
    · exact inv.goto rfl rfl rfl rfl rfl (by rw [pc]; rfl) (by rw [pc]; rfl) (unregistered rfl)
    · exact inv.goto rfl rfl rfl rfl rfl (by rw [pc]; rfl) (by rw [pc]; rfl) (unregistered rfl)
  case addLock =>
    split_ifs at h with free
    obtain rfl := Option.some.inj h
    exact inv.turnList rfl (.inr (.inl ⟨Option.isNone_iff_eq_none.mp free, rfl, rfl⟩))
      rfl rfl rfl (by rw [pc]; rfl) (unregistered rfl)
  case addPush w =>
    obtain rfl := Option.some.inj h
    refine inv.move rfl (fun v => .inl ⟨rfl, by rw [pc]; rfl⟩) (.inl ⟨rfl, by rw [pc]; rfl⟩)
      (List.subset_append_left _ _) ?_ fun u v hv => List.mem_append_left _ (inv.keyed u v hv)
    rintro v ⟨⟩
    exact List.mem_append_right _ (List.mem_singleton_self w)
  case addUnlock =>
    obtain rfl := Option.some.inj h
    exact inv.turnList rfl (.inr (.inr ⟨by rw [pc]; rfl, rfl, Bool.false_ne_true⟩)) rfl rfl rfl
      (by rw [pc]; rfl) fun v hv => mine pc hv
  case setKey w =>
    split_ifs at h <;> obtain rfl := Option.some.inj h
    · exact inv.goto rfl rfl rfl rfl rfl (by rw [pc]; rfl) (by rw [pc]; rfl) (unregistered rfl)
    · refine inv.move rfl (fun v => .inl ⟨rfl, by rw [pc]; rfl⟩) (.inl ⟨rfl, by rw [pc]; rfl⟩)
        (List.Subset.refl _) (fun v hv => mine pc hv) fun u v hv => ?_
      change Function.update s.wrapperKey t (some w) u = some v at hv
      rw [Function.update_apply] at hv
      split_ifs at hv
      · exact mine pc hv
      · exact inv.keyed u v hv
  case beginRead w =>
    split_ifs at h with free
    obtain rfl := Option.some.inj h
    exact inv.lockWrapper rfl (Option.isNone_iff_eq_none.mp free) rfl rfl rfl rfl
      (by rw [pc]; rfl) rfl (by rw [pc]; rfl) fun v hv => mine pc hv
  case loadIndex =>
    obtain rfl := Option.some.inj h
    exact inv.goto rfl rfl rfl rfl rfl (by rw [pc]; rfl) (by rw [pc]; rfl) fun v hv => mine pc hv
  case modFirst =>
    split_ifs at h <;> obtain rfl := Option.some.inj h
    · exact inv.goto rfl rfl rfl rfl rfl (by rw [pc]; rfl) (by rw [pc]; rfl) (unregistered rfl)
    · exact inv.goto rfl rfl rfl rfl rfl (by rw [pc]; rfl) (by rw [pc]; rfl) (unregistered rfl)
  case modLock =>
    split_ifs at h with free
    obtain rfl := Option.some.inj h
    exact inv.turnList rfl (.inr (.inl ⟨Option.isNone_iff_eq_none.mp free, rfl, rfl⟩))
      rfl rfl rfl (by rw [pc]; rfl) (unregistered rfl)
  case modWait =>
    split at h
    · obtain rfl := Option.some.inj h
      exact inv.goto rfl rfl rfl rfl rfl (by rw [pc]; rfl) (by rw [pc]; rfl) (unregistered rfl)
    · split_ifs at h with free
      obtain rfl := Option.some.inj h
      exact inv.lockWrapper rfl (Option.isNone_iff_eq_none.mp free) rfl rfl rfl rfl
        (by rw [pc]; rfl) rfl (by rw [pc]; rfl) (unregistered rfl)
  case modWaited =>
    obtain rfl := Option.some.inj h
    exact inv.unlockWrapper rfl rfl rfl rfl rfl (by rw [pc]; rfl) rfl (by rw [pc]; rfl)
      (unregistered rfl)
  case modUnlock =>
    obtain rfl := Option.some.inj h
    exact inv.turnList rfl (.inr (.inr ⟨by rw [pc]; rfl, rfl, Bool.false_ne_true⟩)) rfl rfl rfl
      (by rw [pc]; rfl) (unregistered rfl)
  case modLoad | modStore | modSecond =>
    obtain rfl := Option.some.inj h
    exact inv.goto rfl rfl rfl rfl rfl (by rw [pc]; rfl) (by rw [pc]; rfl) (unregistered rfl)
  all_goals cases h

theorem LockInv.act (inv : LockInv s) {a : Action T τ} (h : s.act a = some s') : LockInv s' := by
  cases a with
  | step t fails => exact inv.step h
  | read t | modify t fn =>
    simp only [State.act] at h
    split_ifs at h with rest
    obtain rfl := Option.some.inj h
    have quiet : (s.pc t).mtxHeld = none ∧ (s.pc t).listHeld = false := by
      cases pc : s.pc t <;> simp_all [Pc.resting, Pc.mtxHeld, Pc.listHeld]
    exact inv.goto rfl rfl rfl rfl rfl quiet.1.symm quiet.2.symm (unregistered rfl)
  | endRead t =>
    simp only [State.act] at h
    split at h
    · rename_i pc
      obtain rfl := Option.some.inj h
      exact inv.unlockWrapper rfl rfl rfl rfl rfl (by rw [pc]; rfl) rfl (by rw [pc]; rfl)
        (unregistered rfl)
    · cases h

end Codelab.DoublyBufferedData
