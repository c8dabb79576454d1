import Codelab.TimerThreadLocks
import Codelab.TimerThreadPlaces

/-! Runs without `unschedule`: `try_delete` never finds a task removed, and so no slot
goes back to the pool while the timer thread still has to read its `next`. -/

namespace Codelab.TimerThread

open TimerTaskId

variable {τ : Type*}

namespace TimerPc

/-- The task a `try_delete` is about to look at, with its id's version. -/
def trying : TimerPc → Option (Slot × Version)
  | .tryLoad _ p v => some (p, v)
  | _ => none

/-- The task `run_and_delete` is about to start, with its id's version. -/
def starting : TimerPc → Option (Slot × Version)
  | .runCas p v => some (p, v)
  | _ => none

/-- Inside a `try_delete` that has found its task removed. -/
def removing : TimerPc → Bool
  | .tryCheck _ _ _ => true
  | .tryReturn _ _ => true
  | _ => false

def advancing : TimerPc → Option Slot
  | .advance _ p => some p
  | _ => none

end TimerPc

/-- The version a call has read and not yet put into its task's id. -/
def Pc.loaded : Pc → Option (Slot × Version)
  | .schedMake c v => some (c.slot, v)
  | _ => none

def Pc.removing : Pc → Bool
  | .unschedCas _ => true
  | _ => false

/-- The action is not a call of `unschedule`. -/
def Action.keepsTasks : Action τ → Bool
  | .unschedule _ _ => false
  | _ => true

/-- Without `unschedule` no task is removed: a task's version is that of its id, from
the making of the id to the run. -/
structure Unremoved (s : State τ) : Prop where
  version : ∀ p, s.allocated p = true →
    (∀ t, (s.pc t).holds = some p → (s.pc t).made = some p) → s.timer.view ≠ .hand p →
    (s.node p).version = versionOfTaskId (s.node p).taskId
  loaded : ∀ t p v, (s.pc t).loaded = some (p, v) → (s.node p).version = v
  trying : ∀ p v, s.timer.trying = some (p, v) → v = versionOfTaskId (s.node p).taskId
  starting : ∀ p v, s.timer.starting = some (p, v) → (s.node p).version = v
  kept : s.timer.removing = false
  advancing : ∀ p, s.timer.advancing = some p → s.allocated p = true
  calm : ∀ t, (s.pc t).removing = false

namespace Unremoved

variable [DecidableEq τ] {s s₁ s' : State τ} {queues : ℕ → List Slot}
  {t : τ} {pc : Pc} {timer : TimerPc} {p : Slot}

/-- What a step of a thread leaves alone. -/
theorem goto (h : Unremoved s) (hpc : s₁.pc = s.pc) (node : s₁.node = s.node)
    (allocated : s₁.allocated = s.allocated) (view : s₁.timer.view = s.timer.view)
    (trying : s₁.timer.trying = s.timer.trying) (starting : s₁.timer.starting = s.timer.starting)
    (kept : s₁.timer.removing = s.timer.removing)
    (advancing : s₁.timer.advancing = s.timer.advancing) (holds : pc.holds = (s.pc t).holds)
    (made : pc.made = (s.pc t).made) (loaded : pc.loaded = none) (calm : pc.removing = false) :
    Unremoved (s₁.goto t pc) := by
  have pcs : ∀ u, (s₁.goto t pc).pc u = if u = t then pc else s.pc u := by
    intro u
    simp only [State.goto, hpc, Function.update_apply]
  have same : ∀ u, ((s₁.goto t pc).pc u).holds = (s.pc u).holds ∧
      ((s₁.goto t pc).pc u).made = (s.pc u).made := by
    intro u
    rw [pcs]
    split_ifs with e
    · exact ⟨e ▸ holds, e ▸ made⟩
    · exact ⟨rfl, rfl⟩
  exact
  { version := by
      intro p hp makers hand
      change (s₁.node p).version = versionOfTaskId (s₁.node p).taskId
      rw [node]
      refine h.version p (allocated ▸ hp) (fun u hu => ?_) (view ▸ hand)
      rw [← (same u).2]
      exact makers u ((same u).1.trans hu)
    loaded := by
      intro u p v hu
      change (s₁.node p).version = v
      rw [node]
      rw [pcs] at hu
      split_ifs at hu
      · exact absurd (hu.symm.trans loaded) (Option.some_ne_none _)
      · exact h.loaded u p v hu
    trying := by
      change ∀ p v, s₁.timer.trying = some (p, v) → v = versionOfTaskId (s₁.node p).taskId
      rw [trying, node]
      exact h.trying
    starting := by
      change ∀ p v, s₁.timer.starting = some (p, v) → (s₁.node p).version = v
      rw [starting, node]
      exact h.starting
    kept := kept.trans h.kept
    advancing := by
      change ∀ p, s₁.timer.advancing = some p → s₁.allocated p = true
      rw [advancing, allocated]
      exact h.advancing
    calm := by
      intro u
      rw [pcs]
      split_ifs
      · exact calm
      · exact h.calm u }

omit [DecidableEq τ] in
theorem wakeUp_look (s : State τ) : ∃ timer, s.wakeUp = s.toTimer timer ∧
    timer.view = s.timer.view ∧ timer.trying = s.timer.trying ∧
      timer.starting = s.timer.starting ∧ timer.removing = s.timer.removing ∧
        timer.advancing = s.timer.advancing ∧ timer.asleep = none := by
  unfold State.wakeUp
  split <;> rename_i timer
  · refine ⟨_, rfl, ?_⟩
    rw [timer]
    exact ⟨rfl, rfl, rfl, rfl, rfl, rfl⟩
  · refine ⟨s.timer, rfl, rfl, rfl, rfl, rfl, rfl, ?_⟩
    cases h : s.timer with
    | blocked deadline woken => exact absurd h (timer deadline woken)
    | _ => rfl

theorem holds_of_loaded {v : Version} (h : pc.loaded = some (p, v)) : pc.holds = some p := by
  cases pc <;> cases h
  rfl

omit [DecidableEq τ] in
theorem busy_of_trying {v : Version} (placed : Placed s queues)
    (h : s.timer.trying = some (p, v)) : ∀ t, (s.pc t).holds ≠ some p := by
  cases timer : s.timer <;> rw [timer] at h <;> cases h
  rename_i site
  cases site with
  | chain i => exact (placed.busy (.inr (.inl (by rw [timer]; rfl)))).2
  | heap => exact (placed.busy (.inl (placed.mem_of_top (by rw [timer]; rfl)))).2

omit [DecidableEq τ] in
theorem busy_of_starting {v : Version} (placed : Placed s queues)
    (h : s.timer.starting = some (p, v)) : ∀ t, (s.pc t).holds ≠ some p := by
  cases timer : s.timer <;> rw [timer] at h <;> cases h
  exact (placed.busy (.inr (.inr (by rw [timer]; rfl)))).2

/-- A thread works on the node it holds. -/
theorem work (h : Unremoved s) (placed : Placed s queues) (mine : (s.pc t).holds = some p)
    (hpc : s₁.pc = s.pc) (other : ∀ q, q ≠ p → s₁.node q = s.node q)
    (htimer : s₁.timer = s.timer) (allocated : s₁.allocated = s.allocated)
    (holds : pc.holds = some p)
    (new : pc.made = some p → (s₁.node p).version = versionOfTaskId (s₁.node p).taskId)
    (loaded : ∀ q v, pc.loaded = some (q, v) → (s₁.node q).version = v)
    (calm : pc.removing = false) : Unremoved (s₁.goto t pc) := by
  have pcs : ∀ u, (s₁.goto t pc).pc u = if u = t then pc else s.pc u := by
    intro u
    simp only [State.goto, hpc, Function.update_apply]
  obtain ⟨-, -, unique⟩ := placed.apart mine
  exact
  { version := by
      intro q hq makers hand
      change (s₁.node q).version = versionOfTaskId (s₁.node q).taskId
      have maker := makers t
      rw [pcs, if_pos rfl] at maker
      by_cases e : q = p
      · rw [e] at maker ⊢
        exact new (maker holds)
      · rw [other q e]
        refine h.version q (allocated ▸ hq) (fun u hu => ?_) (htimer ▸ hand)
        have differ : u ≠ t := by
          rintro rfl
          exact e (Option.some.inj (hu.symm.trans mine))
        have made := makers u
        rw [pcs, if_neg differ] at made
        exact made hu
    loaded := by
      intro u q v hu
      rw [pcs] at hu
      split_ifs at hu with e
      · exact loaded q v hu
      · change (s₁.node q).version = v
        rw [other]
        · exact h.loaded u q v hu
        · rintro rfl
          exact e (unique u (holds_of_loaded hu))
    trying := by
      intro q v hv
      have trying : s.timer.trying = some (q, v) := htimer ▸ hv
      change v = versionOfTaskId (s₁.node q).taskId
      rw [other]
      · exact h.trying q v trying
      · rintro rfl
        exact busy_of_trying placed trying t mine
    starting := by
      intro q v hv
      have starting : s.timer.starting = some (q, v) := htimer ▸ hv
      change (s₁.node q).version = v
      rw [other]
      · exact h.starting q v starting
      · rintro rfl
        exact busy_of_starting placed starting t mine
    kept := (congrArg TimerPc.removing htimer).trans h.kept
    advancing := by
      change ∀ q, s₁.timer.advancing = some q → s₁.allocated q = true
      rw [htimer, allocated]
      exact h.advancing
    calm := by
      intro u
      rw [pcs]
      split_ifs
      · exact calm
      · exact h.calm u }

/-- The pool hands out a slot. -/
theorem schedule {c : Call} (h : Unremoved s) (idle : s.pc t = .idle) :
    Unremoved ({ s with allocated := Function.update s.allocated c.slot true }.goto t
      (.schedWrite c)) where
  version := by
    intro q hq makers hand
    have e : q ≠ c.slot := by
      rintro rfl
      have made := makers t
      simp only [State.goto, Function.update_self] at made
      cases made rfl
    refine h.version q ?_ (fun u hu => ?_) hand
    · simpa only [State.goto, Function.update_of_ne e] using hq
    · have differ : u ≠ t := by
        rintro rfl
        rw [idle] at hu
        cases hu
      have made := makers u
      simp only [State.goto, Function.update_of_ne differ] at made
      exact made hu
  loaded := by
    intro u q v hu
    by_cases e : u = t
    · subst e
      simp only [State.goto, Function.update_self] at hu
      cases hu
    · simp only [State.goto, Function.update_of_ne e] at hu
      exact h.loaded u q v hu
  trying := h.trying
  starting := h.starting
  kept := h.kept
  advancing := by
    intro q hq
    change Function.update s.allocated c.slot true q = true
    rw [Function.update_apply]
    split_ifs
    · rfl
    · exact h.advancing q hq
  calm := by
    intro u
    by_cases e : u = t
    · subst e
      simp only [State.goto, Function.update_self]
      rfl
    · simp only [State.goto, Function.update_of_ne e]
      exact h.calm u

/-- A linked task has the version of its id. -/
theorem schedLink {c : Call} {id : TaskId} (h : Unremoved s)
    (hpc : s.pc t = .schedLink c id) (same : s₁.pc = s.pc)
    (node : ∀ q, (s₁.node q).version = (s.node q).version ∧ (s₁.node q).taskId = (s.node q).taskId)
    (htimer : s₁.timer = s.timer) (allocated : s₁.allocated = s.allocated) :
    Unremoved (s₁.goto t (.schedCompare c id)) := by
  have pcs : ∀ u, (s₁.goto t (.schedCompare c id)).pc u =
      if u = t then .schedCompare c id else s.pc u := by
    intro u
    simp only [State.goto, same, Function.update_apply]
  exact
  { version := by
      intro q hq makers hand
      change (s₁.node q).version = versionOfTaskId (s₁.node q).taskId
      rw [(node q).1, (node q).2]
      refine h.version q (allocated ▸ hq) (fun u hu => ?_) (htimer ▸ hand)
      by_cases e : u = t
      · subst e
        rw [hpc] at hu ⊢
        exact hu
      · have made := makers u
        rw [pcs, if_neg e] at made
        exact made hu
    loaded := by
      intro u q v hu
      change (s₁.node q).version = v
      rw [(node q).1]
      rw [pcs] at hu
      split_ifs at hu
      · cases hu
      · exact h.loaded u q v hu
    trying := by
      intro q v hv
      change v = versionOfTaskId (s₁.node q).taskId
      rw [(node q).2]
      exact h.trying q v (htimer ▸ hv)
    starting := by
      intro q v hv
      change (s₁.node q).version = v
      rw [(node q).1]
      exact h.starting q v (htimer ▸ hv)
    kept := (congrArg TimerPc.removing htimer).trans h.kept
    advancing := by
      change ∀ q, s₁.timer.advancing = some q → s₁.allocated q = true
      rw [htimer, allocated]
      exact h.advancing
    calm := by
      intro u
      rw [pcs]
      split_ifs
      · rfl
      · exact h.calm u }

theorem stepThread (h : Unremoved s) (placed : Placed s queues)
    (hstep : s.stepThread t = some s') : Unremoved s' := by
  cases pc : s.pc t <;> simp only [State.stepThread, pc] at hstep
  case idle => cases hstep
  case schedWrite c | schedAdd c =>
    cases hstep
    exact h.work placed (congrArg Pc.holds pc) rfl
      (fun q e => Function.update_of_ne e ..) rfl rfl rfl
      (fun no => absurd no.symm (Option.some_ne_none _))
      (fun q v no => absurd no.symm (Option.some_ne_none _)) rfl
  case schedLoad c =>
    cases hstep
    refine h.work placed (congrArg Pc.holds pc) rfl (fun _ _ => rfl) rfl rfl rfl
      (fun no => absurd no.symm (Option.some_ne_none _)) ?_ rfl
    rintro q v ⟨⟩
    rfl
  case schedMake c version =>
    cases hstep
    have loaded := h.loaded t c.slot version (congrArg Pc.loaded pc)
    refine h.work placed (congrArg Pc.holds pc) rfl
      (fun q e => Function.update_of_ne e ..) rfl rfl rfl
      (fun _ => ?_) (fun q v no => absurd no.symm (Option.some_ne_none _)) rfl
    simp only [State.onNode, Function.update_self,
      versionOfTaskId_makeTaskId (placed.fits (congrArg Pc.holds pc))]
    exact loaded
  case schedLock c id =>
    obtain ⟨s₁, lock, rfl⟩ := Option.map_eq_some_iff.mp hstep
    obtain rfl := lockBucket_eq lock
    exact h.goto rfl rfl rfl rfl rfl rfl rfl rfl (congrArg Pc.holds pc).symm
      (congrArg Pc.made pc).symm rfl rfl
  case schedLink c id =>
    cases hstep
    refine h.schedLink pc rfl (fun q => ?_) rfl rfl
    simp only [State.onBucket, State.onNode, Function.update_apply]
    split_ifs with e
    · rw [e]
      exact ⟨rfl, rfl⟩
    · exact ⟨rfl, rfl⟩
  case schedCompare =>
    split_ifs at hstep <;> cases hstep <;>
      exact h.goto rfl rfl rfl rfl rfl rfl rfl rfl (congrArg Pc.holds pc).symm
        (congrArg Pc.made pc).symm rfl rfl
  case schedUnlock c id earlier | nearUnlock c id earlier =>
    cases hstep
    cases earlier <;> exact h.goto rfl rfl rfl rfl rfl rfl rfl rfl (congrArg Pc.holds pc).symm
      (congrArg Pc.made pc).symm rfl rfl
  case nearLock | stopLock =>
    obtain ⟨s₁, lock, rfl⟩ := Option.map_eq_some_iff.mp hstep
    obtain rfl := lock_eq lock
    exact h.goto rfl rfl rfl rfl rfl rfl rfl rfl (congrArg Pc.holds pc).symm
      (congrArg Pc.made pc).symm rfl rfl
  case nearCompare =>
    split_ifs at hstep <;> cases hstep <;>
      exact h.goto rfl rfl rfl rfl rfl rfl rfl rfl (congrArg Pc.holds pc).symm
        (congrArg Pc.made pc).symm rfl rfl
  case wake c id =>
    cases hstep
    obtain ⟨timer, woken, view, trying, starting, kept, advancing, -⟩ := wakeUp_look s
    rw [woken]
    exact h.goto rfl rfl rfl view trying starting kept advancing (congrArg Pc.holds pc).symm
      (congrArg Pc.made pc).symm rfl rfl
  case unschedCas id =>
    have calm := h.calm t
    rw [pc] at calm
    cases calm
  case stopWake =>
    cases hstep
    obtain ⟨timer, woken, view, trying, starting, kept, advancing, -⟩ := wakeUp_look s
    rw [woken]
    exact h.goto rfl rfl rfl view trying starting kept advancing (congrArg Pc.holds pc).symm
      (congrArg Pc.made pc).symm rfl rfl
  case schedReturn | stopSet | stopZero | stopUnlock =>
    cases hstep
    exact h.goto rfl rfl rfl rfl rfl rfl rfl rfl (congrArg Pc.holds pc).symm
      (congrArg Pc.made pc).symm rfl rfl
  case stopJoin =>
    split at hstep <;> cases hstep
    exact h.goto rfl rfl rfl rfl rfl rfl rfl rfl (congrArg Pc.holds pc).symm
      (congrArg Pc.made pc).symm rfl rfl

omit [DecidableEq τ] in
/-- The timer thread moves on; `advance` is left to its own case. -/
theorem move {before : TimerPc} (h : Unremoved s) (htimer : s.timer = before)
    (hpc : s₁.pc = s.pc) (node : s₁.node = s.node) (allocated : s₁.allocated = s.allocated)
    (hand : ∀ p, before.view = .hand p → timer.view = .hand p) (kept : timer.removing = false)
    (advancing : timer.advancing = none)
    (trying : ∀ p v, timer.trying = some (p, v) → v = versionOfTaskId (s.node p).taskId)
    (starting : ∀ p v, timer.starting = some (p, v) → (s.node p).version = v) :
    Unremoved (s₁.toTimer timer) where
  version := by
    intro q hq makers off
    change (s₁.node q).version = versionOfTaskId (s₁.node q).taskId
    rw [node]
    refine h.version q (allocated ▸ hq) (fun u hu => ?_) fun on => off ?_
    · have made := makers u
      change (s₁.pc u).holds = some q → (s₁.pc u).made = some q at made
      rw [hpc] at made
      exact made hu
    · exact hand q (htimer ▸ on)
  loaded := by
    change ∀ t p v, (s₁.pc t).loaded = some (p, v) → (s₁.node p).version = v
    rw [hpc, node]
    exact h.loaded
  trying := by
    change ∀ p v, timer.trying = some (p, v) → v = versionOfTaskId (s₁.node p).taskId
    rw [node]
    exact trying
  starting := by
    change ∀ p v, timer.starting = some (p, v) → (s₁.node p).version = v
    rw [node]
    exact starting
  kept := kept
  advancing := fun p no => absurd (no.symm.trans advancing) (Option.some_ne_none p)
  calm := by
    change ∀ t, (s₁.pc t).removing = false
    rw [hpc]
    exact h.calm

omit [DecidableEq τ] in
/-- The task at hand is neither with a thread nor with the pool, so its version is that
of its id until it is run. -/
theorem version_of_busy (h : Unremoved s) (placed : Placed s queues)
    (busy : p ∈ s.heap ∨ s.timer.view = .cursor p) (off : s.timer.view ≠ .hand p) :
    s.allocated p = true ∧ (s.node p).version = versionOfTaskId (s.node p).taskId := by
  obtain ⟨owned, unheld⟩ := placed.busy (busy.imp_right .inl)
  exact ⟨owned, h.version p owned (fun t held => absurd held (unheld t)) off⟩

omit [DecidableEq τ] in
/-- A step that neither starts on a task nor leaves one. -/
theorem walk {before : TimerPc} (h : Unremoved s) (htimer : s.timer = before)
    (hpc : s₁.pc = s.pc) (node : s₁.node = s.node) (allocated : s₁.allocated = s.allocated)
    (hand : ∀ p, before.view = .hand p → timer.view = .hand p) (kept : timer.removing = false)
    (advancing : timer.advancing = none) (trying : timer.trying = none)
    (starting : timer.starting = none) : Unremoved (s₁.toTimer timer) :=
  h.move htimer hpc node allocated hand kept advancing
    (fun _ _ no => absurd (no.symm.trans trying) (Option.some_ne_none _))
    fun _ _ no => absurd (no.symm.trans starting) (Option.some_ne_none _)

omit [DecidableEq τ] in
/-- The timer thread starts on a task: the version it carries is that of the id. -/
theorem tryTask {before : TimerPc} {site : Site} (h : Unremoved s) (htimer : s.timer = before)
    (off : ∀ q, before.view ≠ .hand q) :
    Unremoved (s.toTimer (.tryLoad site p (versionOfTaskId (s.node p).taskId))) := by
  refine h.move htimer rfl rfl rfl (fun q on => absurd on (off q)) rfl rfl ?_
    fun _ _ no => by cases no
  rintro q v ⟨⟩
  rfl

omit [DecidableEq τ] in
/-- `try_delete` finds the version of the id, so it keeps the task. -/
theorem tryLoad {site : Site} {v : Version} (h : Unremoved s) (placed : Placed s queues)
    (htimer : s.timer = .tryLoad site p v) : (s.node p).version = v := by
  rw [h.trying p v (by rw [htimer]; rfl)]
  cases site with
  | chain i =>
    have view : s.timer.view = .cursor p := by rw [htimer]; rfl
    exact (h.version_of_busy placed (.inr view) (by rw [view]; rintro ⟨⟩)).2
  | heap =>
    have view : s.timer.view = .top p := by rw [htimer]; rfl
    exact (h.version_of_busy placed (.inl (placed.mem_of_top view)) (by rw [view]; rintro ⟨⟩)).2

omit [DecidableEq τ] in
/-- The timer thread works on the task in its hand. -/
theorem run (h : Unremoved s) (hand : s.timer.view = .hand p) (hpc : s₁.pc = s.pc)
    (other : ∀ q, q ≠ p → s₁.node q = s.node q)
    (allocated : ∀ q, s₁.allocated q = true → s.allocated q = true)
    (loose : timer.view = .hand p ∨ s₁.allocated p = false) (placed : Placed s queues)
    (kept : timer.removing = false) (advancing : timer.advancing = none)
    (trying : timer.trying = none) (starting : timer.starting = none) :
    Unremoved (s₁.toTimer timer) where
  version := by
    intro q hq makers off
    have e : q ≠ p := by
      rintro rfl
      rcases loose with on | no
      · exact off on
      · exact Bool.false_ne_true (no.symm.trans hq)
    change (s₁.node q).version = versionOfTaskId (s₁.node q).taskId
    rw [other q e]
    refine h.version q (allocated q hq) (fun u hu => ?_) ?_
    · have made := makers u
      change (s₁.pc u).holds = some q → (s₁.pc u).made = some q at made
      rw [hpc] at made
      exact made hu
    · rw [hand]
      rintro ⟨⟩
      exact e rfl
  loaded := by
    intro t q v hq
    change (s₁.pc t).loaded = some (q, v) at hq
    rw [hpc] at hq
    change (s₁.node q).version = v
    rw [other]
    · exact h.loaded t q v hq
    · rintro rfl
      exact (placed.busy (.inr (.inr hand))).2 t (holds_of_loaded hq)
  trying := fun _ _ no => absurd (no.symm.trans trying) (Option.some_ne_none _)
  starting := fun _ _ no => absurd (no.symm.trans starting) (Option.some_ne_none _)
  kept := kept
  advancing := fun _ no => absurd (no.symm.trans advancing) (Option.some_ne_none _)
  calm := by
    change ∀ t, (s₁.pc t).removing = false
    rw [hpc]
    exact h.calm

theorem stepTimer {num : ℕ} (h : Unremoved s) (placed : Placed s queues)
    (hstep : s.stepTimer num = some s') : Unremoved s' := by
  cases pc : s.timer <;> simp only [State.stepTimer, pc] at hstep
  case push | popDeleted | due | popRun | clock | exited | aborted => cases hstep
  case loopHead =>
    cases hstep
    split_ifs <;> exact h.walk pc rfl rfl rfl (by rintro _ ⟨⟩) rfl rfl rfl rfl
  case resetLock | waitLock | relock =>
    obtain ⟨s₁, lock, rfl⟩ := Option.map_eq_some_iff.mp hstep
    obtain rfl := lock_eq lock
    exact h.walk pc rfl rfl rfl (by rintro _ ⟨⟩) rfl rfl rfl rfl
  case peek i =>
    cases hstep
    split_ifs
    · cases (s.bucket i).head <;> exact h.walk pc rfl rfl rfl (by rintro _ ⟨⟩) rfl rfl rfl rfl
    · exact h.walk pc rfl rfl rfl (by rintro _ ⟨⟩) rfl rfl rfl rfl
  case takeLock =>
    obtain ⟨s₁, lock, rfl⟩ := Option.map_eq_some_iff.mp hstep
    obtain rfl := lockBucket_eq lock
    exact h.walk pc rfl rfl rfl (by rintro _ ⟨⟩) rfl rfl rfl rfl
  case take | waitCompare =>
    split at hstep <;> cases hstep <;>
      exact h.walk pc rfl rfl rfl (by rintro _ ⟨⟩) rfl rfl rfl rfl
  case visit i p =>
    cases p with
    | none => cases hstep; exact h.walk pc rfl rfl rfl (by rintro _ ⟨⟩) rfl rfl rfl rfl
    | some p => cases hstep; exact h.tryTask pc (by rintro q ⟨⟩)
  case tryLoad site p v =>
    cases hstep
    rw [if_neg (not_not_intro (h.tryLoad placed pc))]
    cases site <;> exact h.walk pc rfl rfl rfl (by rintro _ ⟨⟩) rfl rfl rfl rfl
  case tryCheck | tryReturn =>
    have kept := h.kept
    rw [pc] at kept
    cases kept
  case drain =>
    split at hstep <;> cases hstep
    · exact h.walk pc rfl rfl rfl (by rintro _ ⟨⟩) rfl rfl rfl rfl
    · exact h.tryTask pc (by rintro q ⟨⟩)
  case runCas p v =>
    rw [if_pos (h.starting p v (by rw [pc]; rfl))] at hstep
    cases hstep
    exact h.run (by rw [pc]; rfl) rfl (fun q e => Function.update_of_ne e ..) (fun _ same => same)
      (.inl rfl) placed rfl rfl rfl rfl
  case runCall p v => cases hstep; exact h.walk pc rfl rfl rfl (fun _ same => same) rfl rfl rfl rfl
  case runStore p v =>
    cases hstep
    exact h.run (by rw [pc]; rfl) rfl (fun q e => Function.update_of_ne e ..) (fun _ same => same)
      (.inl rfl) placed rfl rfl rfl rfl
  case runReturn p =>
    cases hstep
    have hand : s.timer.view = .hand p := by rw [pc]; rfl
    have own : s.idSlot p = p := placed.id_of_hand hand
    refine h.run hand rfl (fun _ _ => rfl) (fun q hq => ?_) (.inr ?_) placed rfl rfl rfl rfl
    · simp only [State.returnResource, own, Function.update_apply] at hq
      split_ifs at hq
      exact hq
    · simp only [State.returnResource, own, Function.update_self]
  case blocked deadline woken =>
    cases woken <;> cases hstep
    exact h.walk pc rfl rfl rfl (by rintro _ ⟨⟩) rfl rfl rfl rfl
  case reset | resetUnlock | takeReset | takeUnlock | advance | nextRun | continueUnlock | wait |
      waitUnlock =>
    cases hstep
    exact h.walk pc rfl rfl rfl (by rintro _ ⟨⟩) rfl rfl rfl rfl

omit [DecidableEq τ] in
theorem arrange {tasks : List Slot} (h : Unremoved s) (placed : Placed s queues)
    (hstep : s.arrange tasks = some s') : Unremoved s' := by
  obtain ⟨-, ⟨i, p, pc, -, rfl⟩ | ⟨pc, -, rfl⟩ | ⟨p, pc, -, rfl⟩⟩ := State.arrange_cases hstep
  · have away : Unremoved ({ s with tasks := tasks }.toTimer .drain) :=
      h.walk pc rfl rfl rfl (by rintro _ ⟨⟩) rfl rfl rfl rfl
    have owned := (placed.busy (.inr (.inl (by rw [pc]; rfl)))).1
    exact
    { away with
      version := fun q hq makers _ => away.version q hq makers (by rintro ⟨⟩)
      trying := fun _ _ no => by cases no
      starting := fun _ _ no => by cases no
      kept := rfl
      advancing := by
        rintro q ⟨⟩
        exact owned }
  · exact h.walk pc rfl rfl rfl (by rintro _ ⟨⟩) rfl rfl rfl rfl
  · have view : s.timer.view = .top p := by rw [pc]; rfl
    refine h.move pc rfl rfl rfl (by rintro _ ⟨⟩) rfl rfl (fun _ _ no => by cases no) ?_
    rintro q v ⟨⟩
    exact (h.version_of_busy placed (.inl (placed.mem_of_top view)) (by rw [view]; rintro ⟨⟩)).2

theorem act {num : ℕ} {a : Action τ} (h : Unremoved s) (placed : Placed s queues)
    (keeps : a.keepsTasks = true) (hstep : s.act num a = some s') : Unremoved s' := by
  cases a with
  | schedule t c =>
    obtain ⟨pc, -, -, -, rfl⟩ := State.act_schedule hstep
    exact h.schedule pc
  | unschedule t id => cases keeps
  | stop t =>
    obtain ⟨pc, rfl⟩ := State.act_stop hstep
    exact h.goto rfl rfl rfl rfl rfl rfl rfl rfl (congrArg Pc.holds pc).symm
      (congrArg Pc.made pc).symm rfl rfl
  | step t => exact h.stepThread placed hstep
  | timer => exact h.stepTimer placed hstep
  | arrange tasks => exact h.arrange placed hstep
  | clock now =>
    obtain ⟨p, pc, rfl⟩ | ⟨next, pc, rfl⟩ := State.readClock_cases hstep
    · split_ifs <;> exact h.walk pc rfl rfl rfl (by rintro _ ⟨⟩) rfl rfl rfl rfl
    · exact h.walk pc rfl rfl rfl (by rintro _ ⟨⟩) rfl rfl rfl rfl
  | timeout =>
    obtain ⟨deadline, woken, pc, rfl⟩ := State.act_timeout hstep
    exact h.walk pc rfl rfl rfl (by rintro _ ⟨⟩) rfl rfl rfl rfl

/-- Without `unschedule` no slot goes back to the pool while its `next` is to be read. -/
theorem settled {a : Action τ} {num : ℕ} (h : Unremoved s) (hstep : s.act num a = some s') :
    s.settled a = true := by
  cases a with
  | schedule t c =>
    obtain ⟨-, available, -⟩ := State.act_schedule hstep
    simp only [State.settled]
    cases timer : s.timer with
    | advance i p =>
      have other : p ≠ c.slot := by
        rintro rfl
        have owned := h.advancing c.slot (by rw [timer]; rfl)
        exact Bool.false_ne_true (available.symm.trans owned)
      exact decide_eq_true other
    | _ => rfl
  | _ => rfl

omit [DecidableEq τ] in
theorem init (node : Slot → Node) : Unremoved (initial τ node) where
  version := fun _ no => absurd no Bool.false_ne_true
  loaded := fun _ _ _ no => absurd no.symm (Option.some_ne_none _)
  trying := fun _ _ no => absurd no.symm (Option.some_ne_none _)
  starting := fun _ _ no => absurd no.symm (Option.some_ne_none _)
  kept := rfl
  advancing := fun _ no => absurd no.symm (Option.some_ne_none _)
  calm := fun _ => rfl

end Unremoved

end Codelab.TimerThread
