import Codelab.DoublyBufferedDataCalls
import Codelab.DoublyBufferedDataLocks
import Mathlib.Data.List.Infix

/-! Readers against one writer. Between two calls of `Modify` both buffers carry
all successful updates. During a call one buffer lags behind by that call: the
back buffer until `index_` is flipped, the old front buffer afterwards. A reader
holds the current front buffer, or the old one while the writer has yet to pass
its wrapper in the sweep. -/

namespace Codelab.DoublyBufferedData

open Mutex

variable {T τ : Type*} [DecidableEq τ] {initial : T} {s s' : State T τ} {t writer : τ}

/-- Both buffers carry every successful update. -/
def Settled (s : State T τ) : Prop :=
  (∀ b, s.log b = s.succeeded) ∧ s.finished = s.succeeded

/-- Only the buffer `b` carries the update of the call in progress. -/
structure Split (initial : T) (s : State T τ) (c : Call T) (b : Bool) : Prop where
  fresh : s.log b = s.succeeded
  stale : s.log (!b) = s.finished
  grown : s.succeeded = s.finished ++ [c]
  accepted : (c.fn.run (applyAll s.finished initial)).1 = true

omit [DecidableEq τ] in
theorem Split.congr {c : Call T} {b : Bool} (h : Split initial s c b) (log : s'.log = s.log)
    (succeeded : s'.succeeded = s.succeeded) (finished : s'.finished = s.finished) :
    Split initial s' c b := by
  refine ⟨?_, ?_, ?_, ?_⟩
  · rw [log, succeeded]
    exact h.fresh
  · rw [log, finished]
    exact h.stale
  · rw [succeeded, finished]
    exact h.grown
  · rw [finished]
    exact h.accepted

def WriterOk (initial : T) (s : State T τ) : Pc T → Prop
  | .modFirst _ bg => bg = !s.index ∧ Settled s
  | .modStore c bg => bg = !s.index ∧ Split initial s c bg
  | .modLock c bg | .modWait c bg _ | .modWaited c bg _ _ | .modUnlock c bg | .modSecond c bg =>
    bg = !s.index ∧ Split initial s c s.index
  | _ => Settled s

/-- The writer's sweep has not passed wrapper `w` yet. -/
def Draining (wrappers : List ℕ) (w : ℕ) : Pc T → Prop
  | .modLock .. => True
  | .modWait _ _ i => ∃ j, i ≤ j ∧ wrappers[j]? = some w
  | .modWaited _ _ i _ => ∃ j, i + 1 ≤ j ∧ wrappers[j]? = some w
  | _ => False

/-- A wrapper added meanwhile goes behind those the sweep looks at. -/
theorem Draining.grow {ws ws' : List ℕ} {w : ℕ} {pc : Pc T} (h : Draining ws w pc)
    (grow : ws <+: ws') : Draining ws' w pc := by
  have keep : ∀ j : ℕ, ws[j]? = some w → ws'[j]? = some w := by
    intro j hj
    obtain ⟨more, rfl⟩ := grow
    obtain ⟨lt, -⟩ := List.getElem?_eq_some_iff.mp hj
    rw [List.getElem?_append_left lt, hj]
  cases pc with
  | modLock c bg => trivial
  | modWait c bg i | modWaited c bg i v =>
    obtain ⟨j, le, hj⟩ := h
    exact ⟨j, le, keep j hj⟩
  | _ => exact h.elim

structure ReadersInv (initial : T) (writer : τ) (s : State T τ) : Prop where
  locks : LockInv s
  values : Values initial s
  alone : ∀ t, (s.pc t).modifying → t = writer
  phase : WriterOk initial s (s.pc writer)
  begun : ∀ t, s.begun t <+: s.finished
  seen : ∀ t, s.seen t <+: s.log s.index
  holding : ∀ t w i, s.pc t = .holding w i → s.seen t = s.log i ∧ s.begun t <+: s.log i ∧
    (i = s.index ∨ Draining s.wrappers w (s.pc writer))

omit [DecidableEq τ] in
theorem writerOk_rest {pc : Pc T} (rest : pc.modifying = false) :
    WriterOk initial s pc ↔ Settled s := by
  cases pc <;> first | rfl | cases rest

omit [DecidableEq τ] in
/-- The front buffer carries at least the updates of the calls that returned. -/
theorem WriterOk.finished_in_front {pc : Pc T} (h : WriterOk initial s pc) :
    s.finished <+: s.log s.index := by
  have settled : Settled s → s.finished <+: s.log s.index := fun h => by
    rw [h.1, h.2]
  have split : ∀ {c}, Split initial s c s.index → s.finished <+: s.log s.index := fun h => by
    rw [h.fresh, h.grown]
    exact List.prefix_append ..
  cases pc with
  | modStore c bg =>
    obtain ⟨rfl, h⟩ := h
    have stale := h.stale
    rw [Bool.not_not] at stale
    rw [stale]
  | modFirst c bg => exact settled h.2
  | modLock c bg | modWait c bg i | modWaited c bg i w | modUnlock c bg | modSecond c bg =>
    exact split h.2
  | _ => exact settled h

omit [DecidableEq τ] in
/-- One of the buffers carries every successful update. -/
theorem WriterOk.fresh {pc : Pc T} (h : WriterOk initial s pc) : ∃ b, s.log b = s.succeeded := by
  cases pc with
  | modStore c bg | modLock c bg | modWait c bg i | modWaited c bg i w | modUnlock c bg
  | modSecond c bg => exact ⟨_, h.2.fresh⟩
  | modFirst c bg => exact ⟨true, h.2.1 true⟩
  | _ => exact ⟨true, h.1 true⟩

/-- A step outside `Modify`: nothing a reader sees changes, and the thread itself
holds at most the current front buffer. -/
theorem ReadersInv.read (inv : ReadersInv initial writer s) {pc : Pc T} (locks : LockInv s')
    (hpc : s'.pc = Function.update s.pc t pc) (before : (s.pc t).modifying = false)
    (after : pc.modifying = false) (data : s'.data = s.data) (index : s'.index = s.index)
    (log : s'.log = s.log) (succeeded : s'.succeeded = s.succeeded)
    (finished : s'.finished = s.finished) (grow : s.wrappers <+: s'.wrappers)
    (others : ∀ u, u ≠ t → s'.begun u = s.begun u ∧ s'.seen u = s.seen u)
    (begun : s'.begun t <+: s.finished) (seen : s'.seen t <+: s.log s.index)
    (mine : ∀ w i, pc = .holding w i → s'.seen t = s.log i ∧ s'.begun t <+: s.log i ∧
      i = s.index) : ReadersInv initial writer s' := by
  have self : s'.pc t = pc := by rw [hpc, Function.update_self]
  have other : ∀ u, u ≠ t → s'.pc u = s.pc u := fun u e => by rw [hpc, Function.update_of_ne e]
  have sameSettled : Settled s' ↔ Settled s := by
    simp only [Settled, log, succeeded, finished]
  refine ⟨locks, ?_, ?_, ?_, ?_, ?_, ?_⟩
  · intro b
    rw [data, log]
    exact inv.values b
  · intro u busy
    by_cases e : u = t
    · rw [e, self, after] at busy
      cases busy
    · rw [other u e] at busy
      exact inv.alone u busy
  · by_cases e : writer = t
    · have ok := inv.phase
      rw [e, writerOk_rest before] at ok
      rw [e, self, writerOk_rest after, sameSettled]
      exact ok
    · rw [other writer e]
      have ok := inv.phase
      revert ok
      cases s.pc writer <;> simp only [WriterOk, sameSettled, index] <;>
        first
        | exact id
        | (rintro ⟨flip, split⟩; exact ⟨flip, split.congr log succeeded finished⟩)
  · intro u
    rw [finished]
    by_cases e : u = t
    · exact e ▸ begun
    · exact (others u e).1 ▸ inv.begun u
  · intro u
    rw [log, index]
    by_cases e : u = t
    · exact e ▸ seen
    · exact (others u e).2 ▸ inv.seen u
  · intro u w i hu
    rw [log, index]
    by_cases e : u = t
    · subst e
      obtain ⟨sees, knows, front⟩ := mine w i (self.symm.trans hu)
      exact ⟨sees, knows, .inl front⟩
    · rw [other u e] at hu
      obtain ⟨sees, knows, which⟩ := inv.holding u w i hu
      rw [(others u e).1, (others u e).2]
      refine ⟨sees, knows, which.imp_right fun draining => ?_⟩
      by_cases e' : writer = t
      · rw [e'] at draining
        revert draining before
        cases s.pc t <;> simp [Draining, Pc.modifying]
      · rw [other writer e']
        exact draining.grow grow

/-- A step of the writer: the front buffer only grows, and what the other threads
hold keeps its log and stays either in front or ahead of the sweep. -/
theorem ReadersInv.write (inv : ReadersInv initial writer s) {pc : Pc T} (locks : LockInv s')
    (values : Values initial s') (hpc : s'.pc = Function.update s.pc writer pc)
    (phase : WriterOk initial s' pc) (after : ∀ w i, pc ≠ .holding w i)
    (begun : s'.begun = s.begun) (seen : s'.seen = s.seen) (finished : s.finished <+: s'.finished)
    (front : s.log s.index <+: s'.log s'.index)
    (holding : ∀ u w i, s.pc u = .holding w i → i = s.index ∨ Draining s.wrappers w (s.pc writer) →
      s'.log i = s.log i ∧ (i = s'.index ∨ Draining s'.wrappers w pc)) :
    ReadersInv initial writer s' := by
  have self : s'.pc writer = pc := by rw [hpc, Function.update_self]
  have other : ∀ u, u ≠ writer → s'.pc u = s.pc u := fun u e => by
    rw [hpc, Function.update_of_ne e]
  refine ⟨locks, values, ?_, self.symm ▸ phase, ?_, ?_, ?_⟩
  · intro u busy
    by_contra e
    rw [other u e] at busy
    exact e (inv.alone u busy)
  · intro u
    rw [begun]
    exact (inv.begun u).trans finished
  · intro u
    rw [seen]
    exact (inv.seen u).trans front
  · intro u w i hu
    have e : u ≠ writer := by
      rintro rfl
      exact after w i (self.symm.trans hu)
    rw [other u e] at hu
    obtain ⟨sees, knows, which⟩ := inv.holding u w i hu
    obtain ⟨same, which'⟩ := holding u w i hu which
    rw [begun, seen, same, self]
    exact ⟨sees, knows, which'⟩

/-- A step of the writer that leaves both buffers and `index_` alone. -/
theorem ReadersInv.writeQuiet (inv : ReadersInv initial writer s) {pc : Pc T} (locks : LockInv s')
    (hpc : s'.pc = Function.update s.pc writer pc) (phase : WriterOk initial s' pc)
    (after : ∀ w i, pc ≠ .holding w i) (data : s'.data = s.data) (index : s'.index = s.index)
    (log : s'.log = s.log) (begun : s'.begun = s.begun) (seen : s'.seen = s.seen)
    (finished : s'.finished = s.finished)
    (sweep : ∀ u w i, s.pc u = .holding w i → Draining s.wrappers w (s.pc writer) →
      Draining s'.wrappers w pc) : ReadersInv initial writer s' := by
  refine inv.write locks (fun b => ?_) hpc phase after begun seen ?_ ?_ fun u w i hu which => ?_
  · rw [data, log]
    exact inv.values b
  · rw [finished]
  · rw [log, index]
  · rw [log, index]
    exact ⟨rfl, which.imp_right (sweep u w i hu)⟩

/-- The first application: only the back buffer changes. -/
theorem ReadersInv.modFirst (inv : ReadersInv initial writer s) {c : Call T} {bg : Bool}
    {fails : Bool} (pc : s.pc writer = .modFirst c bg) (h : s.step writer fails = some s')
    (locks : LockInv s') (values : Values initial s') : ReadersInv initial writer s' := by
  have phase := inv.phase
  rw [pc] at phase
  obtain ⟨back, settled⟩ := phase
  have front : ∀ {w i}, i = s.index ∨ Draining s.wrappers w (s.pc writer) → i = s.index := by
    rw [pc]
    exact fun which => which.resolve_right id
  simp only [State.step, pc] at h
  split_ifs at h with accepted <;> obtain rfl := Option.some.inj h
  · have apart : s.index ≠ bg := by simp [back]
    have keep : (s.applyTo c bg).log s.index = s.log s.index := by
      simp [State.applyTo, accepted, Function.update_of_ne apart]
    refine inv.write locks values rfl ⟨back, ?_, ?_, ?_, ?_⟩
      (by rintro _ _ ⟨⟩) rfl rfl List.prefix_rfl ?_ ?_
    · change (s.applyTo c bg).log bg = s.succeeded ++ [c]
      simp [State.applyTo, accepted, settled.1]
    · change (s.applyTo c bg).log (!bg) = s.finished
      rw [back, Bool.not_not, ← back, keep, settled.1, settled.2]
    · change s.succeeded ++ [c] = s.finished ++ [c]
      rw [settled.2]
    · change (c.fn.run (applyAll s.finished initial)).1 = true
      rw [settled.2, ← settled.1 bg, ← inv.values bg]
      exact accepted
    · exact keep ▸ List.prefix_rfl
    · intro u w i _ which
      obtain rfl := front which
      exact ⟨keep, .inl rfl⟩
  · have log : (s.applyTo c bg).log = s.log := by simp [State.applyTo, accepted]
    refine inv.write locks values rfl ?_ (by rintro _ _ ⟨⟩) rfl rfl List.prefix_rfl ?_ ?_
    · exact ⟨fun b => (congrFun log b).trans (settled.1 b), settled.2⟩
    · exact (congrFun log s.index) ▸ List.prefix_rfl
    · intro u w i _ which
      obtain rfl := front which
      exact ⟨congrFun log _, .inl rfl⟩

/-- The second application: it succeeds like the first, on a buffer nobody holds. -/
theorem ReadersInv.modSecond (inv : ReadersInv initial writer s) {c : Call T} {bg : Bool}
    {fails : Bool} (pc : s.pc writer = .modSecond c bg) (h : s.step writer fails = some s')
    (locks : LockInv s') (values : Values initial s') : ReadersInv initial writer s' := by
  have phase := inv.phase
  rw [pc] at phase
  obtain ⟨back, split⟩ := phase
  have behind : s.log bg = s.finished := back ▸ split.stale
  have accepted : (c.fn.run (s.data bg)).1 = true := by
    rw [inv.values bg, behind]
    exact split.accepted
  have apart : s.index ≠ bg := by simp [back]
  have keep : (s.applyTo c bg).log s.index = s.log s.index := by
    simp [State.applyTo, accepted, Function.update_of_ne apart]
  simp only [State.step, pc, accepted, if_true] at h
  obtain rfl := Option.some.inj h
  refine inv.write locks values rfl ⟨fun b => ?_, ?_⟩ (by rintro _ _ ⟨⟩) rfl rfl
    (List.prefix_append ..) ?_ ?_
  · change (s.applyTo c bg).log b = s.succeeded
    by_cases e : b = bg
    · subst e
      simp [State.applyTo, accepted, behind, split.grown]
    · obtain rfl : b = s.index := by rw [Bool.eq_not.mpr e, back, Bool.not_not]
      rw [keep, split.fresh]
  · exact split.grown.symm
  · exact keep ▸ List.prefix_rfl
  · intro u w i _ which
    rw [pc] at which
    obtain rfl := which.resolve_right id
    exact ⟨keep, .inl rfl⟩

/-- The steps of a `Modify` call. -/
theorem ReadersInv.stepModify (inv : ReadersInv initial writer s) {fails : Bool}
    (busy : (s.pc writer).modifying = true) (h : s.step writer fails = some s')
    (locks : LockInv s') (values : Values initial s') : ReadersInv initial writer s' := by
  have phase := inv.phase
  have registered : ∀ {u w i}, s.pc u = .holding w i → ∃ j : ℕ, s.wrappers[j]? = some w :=
    fun hu => List.mem_iff_getElem?.mp (inv.locks.registered _ _ (by rw [hu]; rfl))
  cases pc : s.pc writer with
  | modFirst c bg => exact inv.modFirst pc h locks values
  | modSecond c bg => exact inv.modSecond pc h locks values
  | modLoad c =>
    rw [pc] at phase
    simp only [State.step, pc] at h
    obtain rfl := Option.some.inj h
    refine inv.writeQuiet locks rfl ⟨rfl, phase⟩ (by rintro _ _ ⟨⟩) rfl rfl rfl rfl rfl rfl ?_
    rw [pc]
    exact fun u w i _ no => no.elim
  | modStore c bg =>
    rw [pc] at phase
    obtain ⟨back, split⟩ := phase
    simp only [State.step, pc] at h
    obtain rfl := Option.some.inj h
    refine inv.write locks values rfl ⟨rfl, split.congr rfl rfl rfl⟩ (by rintro _ _ ⟨⟩)
      rfl rfl List.prefix_rfl ?_ ?_
    · have old : s.log s.index = s.finished := by
        rw [← split.stale, back, Bool.not_not]
      change s.log s.index <+: s.log bg
      rw [old, split.fresh, split.grown]
      exact List.prefix_append ..
    · exact fun u w i _ _ => ⟨rfl, .inr trivial⟩
  | modLock c bg =>
    rw [pc] at phase
    simp only [State.step, pc] at h
    split_ifs at h
    obtain rfl := Option.some.inj h
    refine inv.writeQuiet locks rfl ⟨phase.1, phase.2.congr rfl rfl rfl⟩ (by rintro _ _ ⟨⟩)
      rfl rfl rfl rfl rfl rfl ?_
    intro u w i hu _
    obtain ⟨j, hj⟩ := registered hu
    exact ⟨j, Nat.zero_le j, hj⟩
  | modWait c bg i =>
    rw [pc] at phase
    simp only [State.step, pc] at h
    split at h
    · -- the sweep is over: every index at or past `i` is off the list
      rename_i passed
      obtain rfl := Option.some.inj h
      refine inv.writeQuiet locks rfl ⟨phase.1, phase.2.congr rfl rfl rfl⟩ (by rintro _ _ ⟨⟩)
        rfl rfl rfl rfl rfl rfl ?_
      rw [pc]
      rintro u w b hu ⟨j, le, hj⟩
      rw [List.getElem?_eq_none (Nat.le_trans (List.getElem?_eq_none_iff.mp passed) le)] at hj
      cases hj
    · -- the mutex of the `i`-th wrapper is free, so its reader is elsewhere
      rename_i v hv
      split_ifs at h with free
      obtain rfl := Option.some.inj h
      refine inv.writeQuiet locks rfl ⟨phase.1, phase.2.congr rfl rfl rfl⟩ (by rintro _ _ ⟨⟩)
        rfl rfl rfl rfl rfl rfl ?_
      rw [pc]
      rintro u w b hu ⟨j, le, hj⟩
      have passed : j ≠ i := by
        rintro rfl
        obtain rfl := Option.some.inj (hv.symm.trans hj)
        exact (inv.locks.mtx v).free (Option.isNone_iff_eq_none.mp free) (by rw [hu]; rfl)
      exact ⟨j, by omega, hj⟩
  | modWaited c bg i v =>
    rw [pc] at phase
    simp only [State.step, pc] at h
    obtain rfl := Option.some.inj h
    refine inv.writeQuiet locks rfl ⟨phase.1, phase.2.congr rfl rfl rfl⟩ (by rintro _ _ ⟨⟩)
      rfl rfl rfl rfl rfl rfl ?_
    rw [pc]
    exact fun u w b _ draining => draining
  | modUnlock c bg =>
    rw [pc] at phase
    simp only [State.step, pc] at h
    obtain rfl := Option.some.inj h
    refine inv.writeQuiet locks rfl ⟨phase.1, phase.2.congr rfl rfl rfl⟩ (by rintro _ _ ⟨⟩)
      rfl rfl rfl rfl rfl rfl ?_
    rw [pc]
    exact fun u w i _ no => no.elim
  | _ => rw [pc] at busy; cases busy

/-- The steps of a `Read` call. -/
theorem ReadersInv.stepRead (inv : ReadersInv initial writer s) {fails : Bool}
    (quiet : (s.pc t).modifying = false) (h : s.step t fails = some s') (locks : LockInv s') :
    ReadersInv initial writer s' := by
  have plain : ∀ {pc : Pc T}, s'.pc = Function.update s.pc t pc → pc.modifying = false →
      (∀ w i, pc ≠ .holding w i) → s'.data = s.data → s'.index = s.index → s'.log = s.log →
      s'.succeeded = s.succeeded → s'.finished = s.finished → s.wrappers <+: s'.wrappers →
      s'.begun = s.begun → s'.seen = s.seen → ReadersInv initial writer s' := by
    intro pc hpc after notHolding data index log succeeded finished grow begun seen
    refine inv.read locks hpc quiet after data index log succeeded finished grow
      (fun u _ => by rw [begun, seen]; exact ⟨rfl, rfl⟩) ?_ ?_ fun w i e =>
        absurd e (notHolding w i)
    · rw [begun]
      exact inv.begun t
    · rw [seen]
      exact inv.seen t
  cases pc : s.pc t with
  | loadIndex w =>
    simp only [State.step, pc] at h
    obtain rfl := Option.some.inj h
    refine inv.read locks rfl quiet rfl rfl rfl rfl rfl rfl List.prefix_rfl
      (fun u e => ⟨rfl, Function.update_of_ne e ..⟩) (inv.begun t) ?_ ?_
    · change Function.update s.seen t (s.log s.index) t <+: _
      rw [Function.update_self]
    · rintro v i ⟨⟩
      refine ⟨Function.update_self .., ?_, rfl⟩
      exact (inv.begun t).trans inv.phase.finished_in_front
  | addPush w =>
    simp only [State.step, pc] at h
    obtain rfl := Option.some.inj h
    exact plain rfl rfl (by rintro _ _ ⟨⟩) rfl rfl rfl rfl rfl (List.prefix_append ..) rfl rfl
  | addUnlock w =>
    simp only [State.step, pc] at h
    obtain rfl := Option.some.inj h
    exact plain rfl rfl (by rintro _ _ ⟨⟩) rfl rfl rfl rfl rfl List.prefix_rfl rfl rfl
  | getKey | newWrapper | addLock w | setKey w | beginRead w =>
    simp only [State.step, pc] at h
    split at h <;> first
      | (obtain rfl := Option.some.inj h
         exact plain rfl rfl (by rintro _ _ ⟨⟩) rfl rfl rfl rfl rfl List.prefix_rfl rfl rfl)
      | cases h
  | idle | holding w i | readFailed | modDone r =>
    simp only [State.step, pc] at h
    cases h
  | _ => rw [pc] at quiet; cases quiet

theorem ReadersInv.act (inv : ReadersInv initial writer s) {a : Action T τ}
    (only : ∀ t fn, a = .modify t fn → t = writer) (h : s.act a = some s') :
    ReadersInv initial writer s' := by
  have locks := inv.locks.act h
  have values := inv.values.act h
  cases a with
  | step t fails =>
    by_cases busy : (s.pc t).modifying = true
    · obtain rfl := inv.alone t busy
      exact inv.stepModify busy h locks values
    · exact inv.stepRead (Bool.eq_false_iff.mpr busy) h locks
  | read t =>
    simp only [State.act] at h
    split_ifs at h with rest
    obtain rfl := Option.some.inj h
    have quiet : (s.pc t).modifying = false := by
      cases pc : s.pc t <;> simp_all [Pc.resting, Pc.modifying]
    refine inv.read locks rfl quiet rfl rfl rfl rfl rfl rfl List.prefix_rfl
      (fun u e => ⟨Function.update_of_ne e .., rfl⟩) ?_ (inv.seen t) (by rintro _ _ ⟨⟩)
    change Function.update s.begun t s.finished t <+: _
    rw [Function.update_self]
  | modify t fn =>
    obtain rfl := only t fn rfl
    simp only [State.act] at h
    split_ifs at h with rest
    obtain rfl := Option.some.inj h
    have quiet : (s.pc t).modifying = false := by
      cases pc : s.pc t <;> simp_all [Pc.resting, Pc.modifying]
    have settled := (writerOk_rest quiet).mp inv.phase
    refine inv.writeQuiet locks rfl settled (by rintro _ _ ⟨⟩) rfl rfl rfl rfl rfl rfl ?_
    intro u w i _ draining
    revert draining quiet
    cases s.pc t <;> simp [Draining, Pc.modifying]
  | endRead t =>
    simp only [State.act] at h
    split at h
    · rename_i w i pc
      obtain rfl := Option.some.inj h
      exact inv.read locks rfl (by rw [pc]; rfl) rfl rfl rfl rfl rfl rfl List.prefix_rfl
        (fun u _ => ⟨rfl, rfl⟩) (inv.begun t) (inv.seen t) (by rintro _ _ ⟨⟩)
    · cases h

omit [DecidableEq τ] in
theorem ReadersInv.apart (inv : ReadersInv initial writer s) {u : τ} {c : Call T} {w : ℕ}
    {k : Bool} (ht : s.pc t = .modFirst c k ∨ s.pc t = .modSecond c k) :
    s.pc u ≠ .holding w k := by
  intro hu
  have busy : (s.pc t).modifying = true := by rcases ht with h | h <;> rw [h] <;> rfl
  obtain rfl := inv.alone t busy
  have phase := inv.phase
  have which := (inv.holding u w k hu).2.2
  rcases ht with h | h <;> rw [h] at phase which
  all_goals
    have front := phase.1.symm.trans (which.resolve_right id)
    simp at front

end Codelab.DoublyBufferedData
