import Codelab.TimerTaskStages

/-! The version protocol of the timer's tasks. Each slot is always at one stage of
its life; the control points of the threads and of the timer thread say at which.
A step works on one slot and takes it from one stage to the next, so the invariant
is kept slot by slot. -/

namespace Codelab.TimerTask

open TimerTaskId

namespace Pc

/-- The slot a thread's control point is about. -/
def slot : Pc → Option Slot
  | idle => none
  | schedAdd x => some x
  | schedLoad x => some x
  | schedMake x _ => some x
  | schedLink x _ => some x
  | schedReturn x _ _ => some x
  | unschedCas x _ _ => some x

end Pc

namespace TimerPc

def slot : TimerPc → Option Slot
  | tryLoad x _ => some x
  | tryCheck x _ => some x
  | tryReturn x => some x
  | kept x => some x
  | runCas x _ => some x
  | runCall x _ => some x
  | runStore x _ => some x
  | runReturn x => some x
  | _ => none

theorem slot_of_running {x : Slot} {timer : TimerPc} (h : timer.running x = true) :
    timer.slot = some x := by
  cases timer <;> first | cases h | exact congrArg some (of_decide_eq_true h)

theorem slot_of_holds {x : Slot} {timer : TimerPc} (h : timer.holds x = true) :
    timer.slot = some x := by
  cases timer <;> first | cases h | exact congrArg some (of_decide_eq_true h)

end TimerPc

theorem Pc.slot_of_holds {x : Slot} {pc : Pc} (h : pc.holds x = true) : pc.slot = some x := by
  cases pc <;> first | cases h | exact congrArg some (of_decide_eq_true h)

variable {τ : Type*}

/-- What the control point of thread `t` says about slot `x`. -/
def PcAt (t : τ) (x : Slot) (k : Task) (stage : Stage τ) : Pc → Prop
  | .idle => True
  | .schedAdd y => y = x → stage = .adding t
  | .schedLoad y => y = x → stage = .fresh t
  | .schedMake y version => y = x → stage = .fresh t ∧ version = k.version
  | .schedLink y id => y = x → stage = .fresh t ∧ k.taskId = id ∧ id = idOf x k.life
  | .schedReturn y n id => y = x → Issued x k stage n id
  | .unschedCas y n id => y = x → Issued x k stage n id

/-- What the control point of the timer thread says about slot `x`. -/
def TimerAt (x : Slot) (k : Task) (stage : Stage τ) : TimerPc → Prop
  | .idle => True
  | .tryLoad y v => y = x → k.pending = true ∧ v = code k.life 0
  | .tryCheck y v => y = x → k.pending = true ∧ v = code k.life 0 ∧ stage = .removed
  | .tryReturn y => y = x → k.pending = true ∧ stage = .removed
  | .kept y => y = x → k.pending = true
  | .runCas y v => y = x → k.pending = false ∧ v = code k.life 0 ∧
      (stage = .waiting ∨ stage = .removed)
  | .runCall y v => y = x → k.pending = false ∧ v = code k.life 0 ∧ stage = .calling
  | .runStore y v => y = x → k.pending = false ∧ v = code k.life 0 ∧ stage = .called
  | .runReturn y => y = x → k.pending = false ∧ (stage = .finished ∨ stage = .removed)
  | .aborted => False

structure SlotInv (timer : TimerPc) (pc : τ → Pc) (x : Slot) (k : Task) (stage : Stage τ) :
    Prop where
  facts : TaskFacts x k stage
  threads : ∀ t, PcAt t x k stage (pc t)
  scheduler : ∀ t, stage.scheduler = some t → (pc t).holds x = true
  timerAt : TimerAt x k stage timer
  linked : stage.linked = true → k.pending = true ∨ timer.holds x = true
  calling : stage.phase = 1 → timer.running x = true

variable {x : Slot} {k k' : Task} {stage stage' : Stage τ} {pc : τ → Pc} {p : Pc} {t u : τ}
  {timer timer' : TimerPc}

theorem PcAt.elsewhere (away : p.slot ≠ some x) : PcAt t x k stage p := by
  cases p with
  | idle => trivial
  | _ => exact fun e => absurd (congrArg some e) away

theorem TimerAt.elsewhere (away : timer.slot ≠ some x) (alive : timer ≠ .aborted) :
    TimerAt x k stage timer := by
  cases timer with
  | idle => trivial
  | aborted => exact alive rfl
  | _ => exact fun e => absurd (congrArg some e) away

theorem TimerAt.alive (h : TimerAt x k stage timer) : timer ≠ .aborted := by
  rintro rfl
  exact h

/-- The timer thread works on linked tasks only. -/
theorem TimerAt.linked (h : TimerAt x k stage timer) (facts : TaskFacts x k stage)
    (here : timer.slot = some x) : stage.linked = true := by
  have bucket : k.pending = true → stage.linked = true := by
    intro linked
    rcases facts.pending linked with rfl | rfl <;> rfl
  cases timer with
  | idle => cases here
  | aborted => cases here
  | tryLoad y v => exact bucket (h (Option.some.inj here)).1
  | tryCheck y v => exact bucket (h (Option.some.inj here)).1
  | tryReturn y => exact bucket (h (Option.some.inj here)).1
  | kept y => exact bucket (h (Option.some.inj here))
  | runCas y v => rcases (h (Option.some.inj here)).2.2 with rfl | rfl <;> rfl
  | runCall y v => rcases (h (Option.some.inj here)).2.2 with rfl; rfl
  | runStore y v => rcases (h (Option.some.inj here)).2.2 with rfl; rfl
  | runReturn y => rcases (h (Option.some.inj here)).2 with rfl | rfl <;> rfl

/-- A thread that is not scheduling the slot keeps what it knows. -/
theorem PcAt.keep (h : PcAt u x k stage p) (other : stage.scheduler ≠ some u)
    (grows : Grows k stage k' stage') : PcAt u x k' stage' p := by
  cases p with
  | idle => trivial
  | schedAdd y => exact fun e => absurd (congrArg Stage.scheduler (h e)) other
  | schedLoad y => exact fun e => absurd (congrArg Stage.scheduler (h e)) other
  | schedMake y v => exact fun e => absurd (congrArg Stage.scheduler (h e).1) other
  | schedLink y id => exact fun e => absurd (congrArg Stage.scheduler (h e).1) other
  | schedReturn y n id => exact fun e => (h e).grows grows
  | unschedCas y n id => exact fun e => (h e).grows grows

theorem PcAt.keep_all [DecidableEq τ] (h : ∀ u, PcAt u x k stage (pc u))
    (mine : ∀ u, stage.scheduler = some u → u = t) (grows : Grows k stage k' stage')
    (new : PcAt t x k' stage' p) : ∀ u, PcAt u x k' stage' (Function.update pc t p u) := by
  intro u
  by_cases e : u = t
  · subst e
    rw [Function.update_self]
    exact new
  · rw [Function.update_of_ne e]
    exact (h u).keep (fun hu => e (mine u hu)) grows

theorem Grows.refl : Grows k stage k stage := .inr ⟨rfl, fun no => no⟩

theorem Stage.scheduler_of_linked (linked : stage.linked = true) : stage.scheduler = none := by
  cases stage <;> first | rfl | cases linked

namespace SlotInv

/-- A step of a thread whose control point, before and after, is about other slots. -/
theorem thread_away [DecidableEq τ] (h : SlotInv timer pc x k stage) (before : (pc t).slot ≠ some x)
    (after : p.slot ≠ some x) : SlotInv timer (Function.update pc t p) x k stage :=
  { h with
    threads := by
      intro u
      by_cases e : u = t
      · rw [e, Function.update_self]
        exact PcAt.elsewhere after
      · rw [Function.update_of_ne e]
        exact h.threads u
    scheduler := by
      intro u hu
      have holds := h.scheduler u hu
      have e : u ≠ t := by
        rintro rfl
        exact before (Pc.slot_of_holds holds)
      rw [Function.update_of_ne e]
      exact holds }

theorem timer_away (h : SlotInv timer pc x k stage) (before : timer.slot ≠ some x)
    (after : timer'.slot ≠ some x) (alive : timer' ≠ .aborted) : SlotInv timer' pc x k stage :=
  { h with
    timerAt := TimerAt.elsewhere after alive
    linked := fun l => (h.linked l).imp_right fun no => absurd (TimerPc.slot_of_holds no) before
    calling := fun c => absurd (TimerPc.slot_of_running (h.calling c)) before }

/-- A step of the thread that schedules the slot, up to the linking. -/
theorem schedule [DecidableEq τ] (h : SlotInv timer pc x k stage) (unlinked : stage.linked = false)
    (mine : ∀ u, stage.scheduler = some u → u = t) (facts : TaskFacts x k' stage')
    (grows : Grows k stage k' stage') (new : PcAt t x k' stage' p)
    (scheduler : stage'.scheduler = none ∨ stage'.scheduler = some t ∧ p.holds x = true)
    (linked : stage'.linked = true → k'.pending = true) (phase : stage'.phase ≠ 1) :
    SlotInv timer (Function.update pc t p) x k' stage' where
  facts := facts
  threads := PcAt.keep_all h.threads mine grows new
  scheduler := by
    intro u hu
    rcases scheduler with no | ⟨me, holds⟩
    · exact absurd (hu.symm.trans no) (Option.some_ne_none u)
    · have e : t = u := Option.some.inj (me.symm.trans hu)
      rw [← e, Function.update_self]
      exact holds
  timerAt := by
    refine TimerAt.elsewhere (fun here => ?_) h.timerAt.alive
    exact Bool.false_ne_true (unlinked.symm.trans (h.timerAt.linked h.facts here))
  linked := fun l => .inl (linked l)
  calling := fun c => absurd c phase

/-- A step of the timer thread on the slot. -/
theorem handle (h : SlotInv timer pc x k stage) (linked : stage.linked = true)
    (facts : TaskFacts x k' stage') (grows : Grows k stage k' stage')
    (scheduler : stage'.scheduler = none) (new : TimerAt x k' stage' timer')
    (linked' : stage'.linked = true → k'.pending = true ∨ timer'.holds x = true)
    (calling : stage'.phase = 1 → timer'.running x = true) : SlotInv timer' pc x k' stage' where
  facts := facts
  threads := by
    have none := Stage.scheduler_of_linked linked
    exact fun u => (h.threads u).keep (fun hu => Option.some_ne_none u (hu.symm.trans none)) grows
  scheduler := fun u hu => absurd (hu.symm.trans scheduler) (Option.some_ne_none u)
  timerAt := new
  linked := linked'
  calling := calling

/-- A thread that does not hold the slot moves to a control point about it. -/
theorem pass [DecidableEq τ] (h : SlotInv timer pc x k stage) (apart : (pc t).holds x = false)
    (new : PcAt t x k stage p) : SlotInv timer (Function.update pc t p) x k stage :=
  { h with
    threads := by
      intro u
      by_cases e : u = t
      · subst e
        rw [Function.update_self]
        exact new
      · rw [Function.update_of_ne e]
        exact h.threads u
    scheduler := by
      intro u hu
      have holds := h.scheduler u hu
      have e : u ≠ t := by
        rintro rfl
        exact Bool.false_ne_true (apart.symm.trans holds)
      rw [Function.update_of_ne e]
      exact holds }

theorem issue {n : ℕ} {id : TaskId} (h : SlotInv timer pc x k stage)
    (new : Issued x k stage n id) : SlotInv timer pc x (k.issue n id) stage where
  facts := h.facts.issue new
  threads := by
    intro u
    have known := h.threads u
    revert known
    cases pc u with
    | schedReturn y m id' => exact fun known e => (known e).grows .refl
    | unschedCas y m id' => exact fun known e => (known e).grows .refl
    | _ => exact fun known => known
  scheduler := h.scheduler
  timerAt := by
    have known := h.timerAt
    cases timer <;> exact known
  linked := h.linked
  calling := h.calling

/-- The compare-and-swap of `unschedule` on a waiting task. -/
theorem remove (h : SlotInv timer pc x k .waiting) :
    SlotInv timer pc x ((k.store (code k.life 2)).note k.life Record.remove) .removed where
  facts := h.facts.advance rfl rfl rfl rfl fun _ => .inr rfl
  threads := fun u => (h.threads u).keep (fun no => Option.some_ne_none u no.symm)
    (.inr ⟨rfl, fun _ => rfl⟩)
  scheduler := fun u no => absurd no.symm (Option.some_ne_none u)
  timerAt := by
    have known := h.timerAt
    cases timer with
    | tryCheck y v => exact fun e => absurd (known e).2.2 (by rintro ⟨⟩)
    | tryReturn y => exact fun e => absurd (known e).2 (by rintro ⟨⟩)
    | runCas y v => exact fun e => ⟨(known e).1, (known e).2.1, .inr rfl⟩
    | runCall y v => exact fun e => absurd (known e).2.2 (by rintro ⟨⟩)
    | runStore y v => exact fun e => absurd (known e).2.2 (by rintro ⟨⟩)
    | runReturn y => exact fun e => ⟨(known e).1, .inr rfl⟩
    | _ => exact known
  linked := fun _ => h.linked rfl
  calling := fun no => absurd no (Nat.succ_ne_self 1)

end SlotInv

/-- The invariant, for the stages the slots are at. -/
structure Inv (s : State τ) (stage : Slot → Stage τ) : Prop where
  slots : ∀ x, SlotInv s.timer s.pc x (s.task x) (stage x)
  answers : ∀ a ∈ s.answers, (a.result = 1 → a.running = true) ∧ (a.result = -1 → a.ended = true)
  possible : s.impossible = false

namespace Inv

variable {s s' : State τ} {stages : Slot → Stage τ}

theorem init : Inv (initial τ) fun _ => .free where
  slots := fun x =>
    { facts := TaskFacts.initial x
      threads := fun _ => trivial
      scheduler := fun _ no => absurd no.symm (Option.some_ne_none _)
      timerAt := trivial
      linked := fun no => absurd no Bool.false_ne_true
      calling := fun no => absurd no (Nat.succ_ne_self 1) }
  answers := fun _ no => absurd no List.not_mem_nil
  possible := rfl

variable [DecidableEq τ]

/-- A thread's step on one slot. -/
theorem threadStep (inv : Inv s stages) (htask : s'.task = Function.update s.task x k')
    (hpc : s'.pc = Function.update s.pc t p) (htimer : s'.timer = s.timer)
    (himpossible : s'.impossible = s.impossible)
    (hanswers : ∀ a ∈ s'.answers, (a.result = 1 → a.running = true) ∧
      (a.result = -1 → a.ended = true))
    (before : ∀ y, (s.pc t).slot = some y → y = x) (after : ∀ y, p.slot = some y → y = x)
    (here : SlotInv s.timer (Function.update s.pc t p) x k' stage') :
    Inv s' (Function.update stages x stage') where
  slots := by
    intro y
    rw [htask, hpc, htimer]
    by_cases e : y = x
    · subst e
      simpa only [Function.update_self] using here
    · simp only [Function.update_of_ne e]
      exact (inv.slots y).thread_away (fun no => e (before y no)) fun no => e (after y no)
  answers := hanswers
  possible := himpossible.trans inv.possible

omit [DecidableEq τ] in
/-- A step of the timer thread on one slot. -/
theorem timerStep (inv : Inv s stages) (htask : s'.task = Function.update s.task x k')
    (hpc : s'.pc = s.pc) (htimer : s'.timer = timer') (himpossible : s'.impossible = s.impossible)
    (hanswers : s'.answers = s.answers) (before : ∀ y, s.timer.slot = some y → y = x)
    (after : ∀ y, timer'.slot = some y → y = x)
    (here : SlotInv timer' s.pc x k' stage') : Inv s' (Function.update stages x stage') where
  slots := by
    intro y
    rw [htask, hpc, htimer]
    by_cases e : y = x
    · subst e
      simpa only [Function.update_self] using here
    · simp only [Function.update_of_ne e]
      exact (inv.slots y).timer_away (fun no => e (before y no)) (fun no => e (after y no))
        here.timerAt.alive
  answers := by rw [hanswers]; exact inv.answers
  possible := himpossible.trans inv.possible

omit [DecidableEq τ] in
theorem about_self : ∀ y, some x = some y → y = x := fun _ same => (Option.some.inj same).symm

omit [DecidableEq τ] in
theorem about_none : ∀ y, (none : Option Slot) = some y → y = x :=
  fun y no => absurd no.symm (Option.some_ne_none y)

omit [DecidableEq τ] in
theorem task_same (s : State τ) (x : Slot) : s.task = Function.update s.task x (s.task x) :=
  (Function.update_eq_self x s.task).symm

theorem schedule (inv : Inv s stages) (hpc : s.pc t = .idle)
    (available : (s.task x).allocated = false) (fits : Fits x) :
    Inv ((s.onTask x (·.setAllocated true)).goto t (.schedAdd x))
      (Function.update stages x (.adding t)) := by
  have slot := inv.slots x
  have stage : stages x = .free := slot.facts.allocated available
  rw [stage] at slot
  refine inv.threadStep rfl rfl rfl rfl inv.answers (by rw [hpc]; exact about_none) about_self ?_
  exact slot.schedule rfl (fun u no => absurd no.symm (Option.some_ne_none u))
    (slot.facts.take fits) (.inr ⟨rfl, fun _ => rfl⟩) (fun _ => rfl)
    (.inr ⟨rfl, decide_eq_true rfl⟩) (fun no => absurd no Bool.false_ne_true) (Nat.succ_ne_self 1)

theorem schedAdd (inv : Inv s stages) (hpc : s.pc t = .schedAdd x) :
    Inv ((s.onTask x Task.fetchAdd).goto t (.schedLoad x))
      (Function.update stages x (.fresh t)) := by
  have slot := inv.slots x
  have known := slot.threads t
  rw [hpc] at known
  rw [known rfl] at slot
  refine inv.threadStep rfl rfl rfl rfl inv.answers (by rw [hpc]; exact about_self) about_self ?_
  exact slot.schedule rfl (fun u hu => (Option.some.inj hu).symm) slot.facts.fetchAdd
    (.inl (Nat.lt_succ_self _)) (fun _ => rfl) (.inr ⟨rfl, decide_eq_true rfl⟩)
    (fun no => absurd no Bool.false_ne_true) Nat.zero_ne_one

theorem schedLoad (inv : Inv s stages) (hpc : s.pc t = .schedLoad x) :
    Inv (s.goto t (.schedMake x (s.task x).version)) (Function.update stages x (.fresh t)) := by
  have slot := inv.slots x
  have known := slot.threads t
  rw [hpc] at known
  rw [known rfl] at slot
  refine inv.threadStep (task_same s x) rfl rfl rfl inv.answers (by rw [hpc]; exact about_self)
    about_self ?_
  exact slot.schedule rfl (fun u hu => (Option.some.inj hu).symm) slot.facts .refl
    (fun _ => ⟨rfl, rfl⟩) (.inr ⟨rfl, decide_eq_true rfl⟩)
    (fun no => absurd no Bool.false_ne_true) Nat.zero_ne_one

theorem schedMake {version : Version} (inv : Inv s stages)
    (hpc : s.pc t = .schedMake x version) :
    Inv ((s.onTask x (·.setTaskId (makeTaskId x version))).goto t
      (.schedLink x (makeTaskId x version))) (Function.update stages x (.fresh t)) := by
  have slot := inv.slots x
  have known := slot.threads t
  rw [hpc] at known
  obtain ⟨stage, loaded⟩ := known rfl
  rw [stage] at slot
  have id_eq : makeTaskId x version = idOf x (s.task x).life := by
    rw [loaded, slot.facts.version]
    rfl
  refine inv.threadStep rfl rfl rfl rfl inv.answers (by rw [hpc]; exact about_self) about_self ?_
  exact slot.schedule rfl (fun u hu => (Option.some.inj hu).symm) slot.facts.setTaskId .refl
    (fun _ => ⟨rfl, rfl, id_eq⟩) (.inr ⟨rfl, decide_eq_true rfl⟩)
    (fun no => absurd no Bool.false_ne_true) Nat.zero_ne_one

theorem schedLink {id : TaskId} (inv : Inv s stages) (hpc : s.pc t = .schedLink x id) :
    Inv ((s.onTask x (·.setPending true)).goto t (.schedReturn x (s.task x).life id))
      (Function.update stages x .waiting) := by
  have slot := inv.slots x
  have known := slot.threads t
  rw [hpc] at known
  obtain ⟨stage, made, id_eq⟩ := known rfl
  rw [stage] at slot
  have issued : Issued x ((s.task x).setPending true) (.waiting : Stage τ) (s.task x).life id :=
    { pos := slot.facts.opened rfl
      le := Nat.le_refl _
      linked := fun _ => rfl
      fits := slot.facts.fits (by rintro ⟨⟩)
      id_eq := id_eq }
  refine inv.threadStep rfl rfl rfl rfl inv.answers (by rw [hpc]; exact about_self) about_self ?_
  exact slot.schedule rfl (fun u hu => (Option.some.inj hu).symm)
    (slot.facts.link (made.trans id_eq)) (.inr ⟨rfl, fun _ => rfl⟩) (fun _ => issued) (.inl rfl)
    (fun _ => rfl) Nat.zero_ne_one

theorem schedReturn {n : ℕ} {id : TaskId} (inv : Inv s stages)
    (hpc : s.pc t = .schedReturn x n id) :
    Inv ((s.onTask x (·.issue n id)).goto t .idle) (Function.update stages x (stages x)) := by
  have slot := inv.slots x
  have known := slot.threads t
  rw [hpc] at known
  refine inv.threadStep rfl rfl rfl rfl inv.answers (by rw [hpc]; exact about_self) about_none ?_
  exact (slot.issue (known rfl)).pass (by rw [hpc]; rfl) trivial

theorem unschedule {n : ℕ} {id : TaskId} (inv : Inv s stages) (hpc : s.pc t = .idle)
    (issued : (s.task x).issued n = some id) :
    Inv (s.goto t (.unschedCas x n id)) (Function.update stages x (stages x)) := by
  have slot := inv.slots x
  refine inv.threadStep (task_same s x) rfl rfl rfl inv.answers (by rw [hpc]; exact about_none)
    about_self ?_
  exact slot.pass (by rw [hpc]; rfl) fun _ => slot.facts.issued n id issued

end Inv

theorem Done.ended {r : Record} (done : Done r) : r.finished ≠ 0 ∨ r.removed ≠ 0 := by
  rcases done with rfl | rfl
  · exact .inl Nat.one_ne_zero
  · exact .inr Nat.one_ne_zero

theorem Task.ended_iff {n : ℕ} :
    k.ended n = true ↔ (k.history n).finished ≠ 0 ∨ (k.history n).removed ≠ 0 := by
  simp only [Task.ended, Bool.or_eq_true, decide_eq_true_eq]

/-- An issued id in its window meets the life it was issued for, or a later one when
that life is over. -/
theorem SlotInv.cancel_cases {n : ℕ} {id : TaskId} (h : SlotInv timer pc x k stage)
    (issued : Issued x k stage n id) (recent : k.life < n + 2 ^ 30) :
    (k.version = code n 0 → k.life = n ∧ stage = .waiting) ∧
      (k.version ≠ code n 0 → k.version = code n 1 → k.life = n ∧ timer.running x = true) ∧
      (k.version ≠ code n 0 → k.version ≠ code n 1 → k.ended n = true) := by
  have le : stage.phase ≤ 2 := stage.phase_le
  have version := h.facts.version
  refine ⟨fun hit => ?_, fun miss running => ?_, fun miss past => ?_⟩
  · obtain ⟨life, phase⟩ := code_inj issued.le recent le (fun _ => Nat.zero_le _) (by omega)
      (version.symm.trans hit)
    refine ⟨life, ?_⟩
    have linked := issued.linked life.symm
    cases stage with
    | waiting => rfl
    | fresh t => cases linked
    | _ => cases phase
  · have later : n = k.life → 1 ≤ stage.phase := by
      intro e
      rcases Nat.eq_zero_or_pos stage.phase with zero | pos
      · exact absurd (version.trans (by rw [zero, e])) miss
      · exact pos
    obtain ⟨life, phase⟩ := code_inj issued.le recent le later (by omega)
      (version.symm.trans running)
    exact ⟨life, h.calling phase⟩
  · rw [Task.ended_iff]
    rcases Nat.eq_or_lt_of_le issued.le with rfl | lt
    · have current := h.facts.current
      cases stage with
      | free => exact (h.facts.last rfl issued.pos).ended
      | adding t => exact (h.facts.last rfl issued.pos).ended
      | fresh t => cases issued.linked rfl
      | waiting => exact absurd version miss
      | removed => rw [current rfl]; exact .inr Nat.one_ne_zero
      | calling => exact absurd version past
      | called => exact absurd version past
      | finished => rw [current rfl]; exact .inl Nat.one_ne_zero
    · exact (h.facts.past n issued.pos lt).ended

namespace Inv

variable {s s' : State τ} {stages : Slot → Stage τ} [DecidableEq τ]

theorem unschedCas {n : ℕ} {id : TaskId} (inv : Inv s stages)
    (hpc : s.pc t = .unschedCas x n id) (recent : (s.task x).life < n + 2 ^ 30) :
    ∃ stage, Inv ((s.answer x n id).goto t .idle) (Function.update stages x stage) := by
  have slot := inv.slots x
  have known := slot.threads t
  rw [hpc] at known
  have issued := known rfl
  have target : slotOfTaskId id = x := issued.id_eq ▸ slotOfTaskId_makeTaskId issued.fits _
  have idVersion : versionOfTaskId id = code n 0 :=
    issued.id_eq ▸ versionOfTaskId_makeTaskId issued.fits _
  obtain ⟨hit, running, ended⟩ := slot.cancel_cases issued recent
  have about : ∀ y, (s.pc t).slot = some y → y = x := by rw [hpc]; exact about_self
  have apart : (s.pc t).holds x = false := by rw [hpc]; rfl
  by_cases waiting : (s.task x).version = code n 0
  · obtain ⟨life, stage⟩ := hit waiting
    have swap : s.cancel x n id =
        (s.onTask x fun k => (k.store (code k.life 2)).note k.life Record.remove, 0) := by
      simp only [State.cancel, target, idVersion, waiting, if_true, code_two, State.onTask, life,
        Function.update_self, Function.update_idem]
    rw [State.answer, swap]
    rw [stage] at slot
    refine ⟨.removed, inv.threadStep (x := x) (p := .idle) (t := t) rfl rfl rfl rfl ?_ about
      about_none (slot.remove.pass apart trivial)⟩
    intro a new
    rcases List.mem_cons.mp new with rfl | old
    · have zero : (0 : Int) ≠ 1 ∧ (0 : Int) ≠ -1 := by decide
      exact ⟨fun no => absurd no zero.1, fun no => absurd no zero.2⟩
    · exact inv.answers a old
  · have stay : (s.cancel x n id).1 = s := by
      simp only [State.cancel, target, idVersion, if_neg waiting]
    have result : (s.cancel x n id).2 = if (s.task x).version = code n 1 then 1 else -1 := by
      simp only [State.cancel, target, idVersion, if_neg waiting, code_one]
    rw [State.answer, stay, result]
    refine ⟨stages x, inv.threadStep (x := x) (p := .idle) (t := t) (task_same s x) rfl rfl rfl ?_
      about about_none (slot.pass apart trivial)⟩
    intro a new
    rcases List.mem_cons.mp new with rfl | old
    · by_cases one : (s.task x).version = code n 1
      · obtain ⟨life, runs⟩ := running waiting one
        simp only [one, if_true, State.running, runs, life, Bool.true_and]
        exact ⟨fun _ => decide_eq_true trivial, fun no => absurd no (by decide)⟩
      · simp only [one, if_false]
        exact ⟨fun no => absurd no (by decide), fun _ => ended waiting one⟩
    · exact inv.answers a old

omit [DecidableEq τ]

theorem known (inv : Inv s stages) (htimer : s.timer = timer) :
    TimerAt x (s.task x) (stages x) timer := htimer ▸ (inv.slots x).timerAt

theorem id_of_linked (inv : Inv s stages) (linked : (stages x).linked = true) :
    slotOfTaskId (s.task x).taskId = x ∧
      versionOfTaskId (s.task x).taskId = code (s.task x).life 0 := by
  have facts := (inv.slots x).facts
  have fits := facts.fits (Stage.ne_free_of_linked linked)
  rw [facts.taskId linked]
  exact ⟨slotOfTaskId_makeTaskId fits _, versionOfTaskId_makeTaskId fits _⟩

theorem linked_of_pending (inv : Inv s stages) (pending : (s.task x).pending = true) :
    (stages x).linked = true := by
  rcases (inv.slots x).facts.pending pending with e | e <;> rw [e] <;> rfl

/-- A step of the timer thread that leaves the tasks as they are. -/
theorem look (inv : Inv s stages) (before : ∀ y, s.timer.slot = some y → y = x)
    (after : ∀ y, timer'.slot = some y → y = x) (new : TimerAt x (s.task x) (stages x) timer')
    (linked : (stages x).linked = true → (s.task x).pending = true ∨ timer'.holds x = true)
    (calling : (stages x).phase = 1 → timer'.running x = true) :
    Inv (s.toTimer timer') (Function.update stages x (stages x)) :=
  inv.timerStep (task_same s x) rfl rfl rfl rfl before after
    { inv.slots x with
      timerAt := new
      linked := linked
      calling := calling }

theorem about_timer (htimer : s.timer = timer) (h : ∀ y, timer.slot = some y → y = x) :
    ∀ y, s.timer.slot = some y → y = x := htimer ▸ h

theorem not_calling (inv : Inv s stages) (htimer : s.timer = timer)
    (quiet : timer.running x = false) : (stages x).phase ≠ 1 := fun c =>
  Bool.false_ne_true (quiet.symm.trans (htimer ▸ (inv.slots x).calling c))

theorem tryDelete (inv : Inv s stages) (htimer : s.timer = .idle)
    (pending : (s.task x).pending = true) :
    Inv (s.toTimer (.tryLoad x (versionOfTaskId (s.task x).taskId)))
      (Function.update stages x (stages x)) :=
  inv.look (about_timer htimer about_none) about_self
    (fun _ => ⟨pending, (inv.id_of_linked (inv.linked_of_pending pending)).2⟩)
    (fun _ => .inl pending) fun c => absurd c (inv.not_calling htimer rfl)

theorem tryLoad {v : Version} (inv : Inv s stages) (htimer : s.timer = .tryLoad x v) :
    Inv (s.toTimer (if (s.task x).version ≠ v then .tryCheck x v else .kept x))
      (Function.update stages x (stages x)) := by
  obtain ⟨pending, rfl⟩ := inv.known htimer rfl
  have quiet := inv.not_calling htimer (x := x) rfl
  split_ifs with other
  · have removed : stages x = .removed := by
      refine ((inv.slots x).facts.pending pending).resolve_left fun waiting => other ?_
      rw [(inv.slots x).facts.version, waiting]
      rfl
    exact inv.look (about_timer htimer about_self) about_self (fun _ => ⟨pending, rfl, removed⟩)
      (fun _ => .inl pending) fun c => absurd c quiet
  · exact inv.look (about_timer htimer about_self) about_self (fun _ => pending)
      (fun _ => .inl pending) fun c => absurd c quiet

theorem tryCheck {v : Version} (inv : Inv s stages) (htimer : s.timer = .tryCheck x v) :
    Inv (s.toTimer (if (s.task x).version = v + 2 then .tryReturn x else .aborted))
      (Function.update stages x (stages x)) := by
  obtain ⟨pending, rfl, removed⟩ := inv.known htimer rfl
  have version : (s.task x).version = code (s.task x).life 0 + 2 := by
    rw [(inv.slots x).facts.version, removed, code_two]
    rfl
  rw [if_pos version]
  exact inv.look (about_timer htimer about_self) about_self (fun _ => ⟨pending, removed⟩)
    (fun _ => .inl pending) fun c => absurd c (inv.not_calling htimer rfl)

theorem keep (inv : Inv s stages) (htimer : s.timer = .kept x) :
    Inv (s.toTimer .idle) (Function.update stages x (stages x)) :=
  inv.look (about_timer htimer about_self) about_none trivial (fun _ => .inl (inv.known htimer rfl))
    fun c => absurd c (inv.not_calling htimer rfl)

theorem tryReturn (inv : Inv s stages) (htimer : s.timer = .tryReturn x) :
    Inv (((s.returnResource (slotOfTaskId (s.task x).taskId)).onTask x
      (·.setPending false)).toTimer .idle) (Function.update stages x .free) := by
  obtain ⟨pending, removed⟩ := inv.known htimer rfl
  have linked := inv.linked_of_pending pending
  have slot := inv.slots x
  rw [(inv.id_of_linked linked).1]
  refine inv.timerStep ?_ rfl rfl rfl rfl (about_timer htimer about_self) about_none
    (slot.handle linked (slot.facts.setPending.giveBack (.inr removed) rfl)
      (.inr ⟨rfl, fun _ => rfl⟩) rfl trivial (fun no => absurd no Bool.false_ne_true)
      fun no => absurd no (Nat.succ_ne_self 1))
  simp only [State.toTimer, State.onTask, State.returnResource, Function.update_self,
    Function.update_idem]
  rfl

theorem runAndDelete (inv : Inv s stages) (htimer : s.timer = .kept x) :
    Inv ((s.onTask x (·.setPending false)).toTimer (.runCas x (versionOfTaskId (s.task x).taskId)))
      (Function.update stages x (stages x)) := by
  have pending := inv.known htimer rfl
  have linked := inv.linked_of_pending pending
  have slot := inv.slots x
  refine inv.timerStep rfl rfl rfl rfl rfl (about_timer htimer about_self) about_self
    (slot.handle linked slot.facts.setPending (.inr ⟨rfl, fun no => no⟩)
      (Stage.scheduler_of_linked linked) ?_ (fun _ => .inr (decide_eq_true rfl))
      fun c => absurd c (inv.not_calling htimer rfl))
  exact fun _ => ⟨rfl, (inv.id_of_linked linked).2, slot.facts.pending pending⟩

theorem note_self (k : Task) (n : ℕ) : k.note n (fun r => r) = k := by
  simp only [Task.note, Function.update_eq_self]

theorem runCas {v : Version} (inv : Inv s stages) (htimer : s.timer = .runCas x v) :
    (s.task x).version = v ∧ Inv ((s.onTask x (·.store (v + 1))).toTimer (.runCall x v))
        (Function.update stages x .calling) ∨
      (s.task x).version ≠ v ∧ (s.task x).version = v + 2 ∧
        Inv (s.toTimer (.runReturn x)) (Function.update stages x (stages x)) := by
  obtain ⟨apart, rfl, waiting | removed⟩ := inv.known htimer rfl
  · have slot := inv.slots x
    have version := slot.facts.version
    rw [waiting] at slot version
    refine .inl ⟨version, inv.timerStep rfl rfl rfl rfl rfl (about_timer htimer about_self)
      about_self ?_⟩
    have facts : TaskFacts x (((s.task x).store (code (s.task x).life 0 + 1)).note
        (s.task x).life fun r => r) (.calling : Stage τ) :=
      slot.facts.advance rfl rfl (code_one _) rfl
        fun no => absurd (apart.symm.trans no) Bool.false_ne_true
    rw [note_self] at facts
    exact slot.handle rfl facts (.inr ⟨rfl, fun _ => rfl⟩) rfl (fun _ => ⟨apart, rfl, rfl⟩)
      (fun _ => .inr (decide_eq_true rfl)) fun _ => decide_eq_true rfl
  · have version := (inv.slots x).facts.version
    rw [removed] at version
    have differ : (s.task x).version ≠ code (s.task x).life 0 := by
      rw [version]
      exact fun e => absurd ((code_phase (le_refl 2) (Nat.zero_le 2)).mp e) (by decide)
    refine .inr ⟨differ, version.trans (code_two _).symm,
      inv.look (about_timer htimer about_self) about_self (fun _ => ⟨apart, .inr removed⟩)
        (fun _ => .inr (decide_eq_true rfl)) fun c => absurd c (inv.not_calling htimer rfl)⟩

theorem runCall {v : Version} (inv : Inv s stages) (htimer : s.timer = .runCall x v) :
    Inv ((s.onTask x fun k => k.note k.life Record.call).toTimer (.runStore x v))
      (Function.update stages x .called) := by
  obtain ⟨apart, id_eq, calling⟩ := inv.known htimer rfl
  have slot := inv.slots x
  rw [calling] at slot
  have facts : TaskFacts x ((s.task x).note (s.task x).life Record.call) (.called : Stage τ) :=
    slot.facts.advance rfl rfl slot.facts.version rfl
      fun no => absurd (apart.symm.trans no) Bool.false_ne_true
  refine inv.timerStep rfl rfl rfl rfl rfl (about_timer htimer about_self) about_self ?_
  exact slot.handle rfl facts (.inr ⟨rfl, fun _ => rfl⟩) rfl (fun _ => ⟨apart, id_eq, rfl⟩)
    (fun _ => .inr (decide_eq_true rfl)) fun _ => decide_eq_true rfl

theorem runStore {v : Version} (inv : Inv s stages) (htimer : s.timer = .runStore x v) :
    Inv ((s.onTask x fun k => (k.store (v + 2)).note k.life Record.finish).toTimer (.runReturn x))
      (Function.update stages x .finished) := by
  obtain ⟨apart, rfl, called⟩ := inv.known htimer rfl
  have slot := inv.slots x
  rw [called] at slot
  have facts : TaskFacts x (((s.task x).store (code (s.task x).life 0 + 2)).note (s.task x).life
      Record.finish) (.finished : Stage τ) :=
    slot.facts.advance rfl rfl (code_two _) rfl
      fun no => absurd (apart.symm.trans no) Bool.false_ne_true
  refine inv.timerStep rfl rfl rfl rfl rfl (about_timer htimer about_self) about_self ?_
  exact slot.handle rfl facts (.inr ⟨rfl, fun _ => rfl⟩) rfl (fun _ => ⟨apart, .inl rfl⟩)
    (fun _ => .inr (decide_eq_true rfl)) fun no => absurd no (Nat.succ_ne_self 1)

theorem runReturn (inv : Inv s stages) (htimer : s.timer = .runReturn x) :
    Inv ((s.returnResource (slotOfTaskId (s.task x).taskId)).toTimer .idle)
      (Function.update stages x .free) := by
  obtain ⟨apart, through⟩ := inv.known htimer rfl
  have linked : (stages x).linked = true := by
    rcases through with e | e <;> rw [e] <;> rfl
  have slot := inv.slots x
  rw [(inv.id_of_linked linked).1]
  refine inv.timerStep rfl rfl rfl rfl rfl (about_timer htimer about_self) about_none ?_
  exact slot.handle linked (slot.facts.giveBack through apart) (.inr ⟨rfl, fun _ => rfl⟩) rfl
    trivial (fun no => absurd no Bool.false_ne_true) fun no => absurd no (Nat.succ_ne_self 1)

theorem stepTimer (inv : Inv s stages) (h : s.stepTimer = some s') : ∃ stages', Inv s' stages' := by
  cases pc : s.timer <;> simp only [State.stepTimer, pc] at h
  case tryLoad =>
    cases h
    exact ⟨_, inv.tryLoad pc⟩
  case tryCheck =>
    cases h
    exact ⟨_, inv.tryCheck pc⟩
  case tryReturn =>
    cases h
    exact ⟨_, inv.tryReturn pc⟩
  case runCas =>
    rcases inv.runCas pc with ⟨hit, next⟩ | ⟨miss, past, next⟩
    · rw [if_pos hit] at h
      cases h
      exact ⟨_, next⟩
    · rw [if_neg miss, if_pos past] at h
      cases h
      exact ⟨_, next⟩
  case runCall =>
    cases h
    exact ⟨_, inv.runCall pc⟩
  case runStore =>
    cases h
    exact ⟨_, inv.runStore pc⟩
  case runReturn =>
    cases h
    exact ⟨_, inv.runReturn pc⟩
  case idle | kept | aborted => cases h

variable [DecidableEq τ]

theorem stepThread (inv : Inv s stages) (recent : recentUse s (.step t) = true)
    (h : s.stepThread t = some s') : ∃ stages', Inv s' stages' := by
  cases pc : s.pc t <;> simp only [State.stepThread, pc] at h
  case idle => cases h
  case schedAdd =>
    cases h
    exact ⟨_, inv.schedAdd pc⟩
  case schedLoad =>
    cases h
    exact ⟨_, inv.schedLoad pc⟩
  case schedMake =>
    cases h
    exact ⟨_, inv.schedMake pc⟩
  case schedLink =>
    cases h
    exact ⟨_, inv.schedLink pc⟩
  case schedReturn =>
    cases h
    exact ⟨_, inv.schedReturn pc⟩
  case unschedCas slot n id =>
    cases h
    simp only [recentUse, pc, decide_eq_true_eq] at recent
    obtain ⟨stage, next⟩ := inv.unschedCas pc recent
    exact ⟨_, next⟩

theorem act {a : Action τ} (inv : Inv s stages) (recent : recentUse s a = true)
    (fits : slotFits a = true)
    (h : s.act a = some s') : ∃ stages', Inv s' stages' := by
  cases a with
  | schedule t x =>
    rw [State.act] at h
    split_ifs at h with ready
    cases h
    exact ⟨_, inv.schedule ready.1 ready.2 (of_decide_eq_true fits)⟩
  | unschedule t x n =>
    rw [State.act] at h
    split at h
    · split_ifs at h with ready
      cases h
      exact ⟨_, inv.unschedule ready (by assumption)⟩
    · cases h
  | step t => exact inv.stepThread recent h
  | tryDelete x =>
    rw [State.act] at h
    split_ifs at h with ready
    cases h
    exact ⟨_, inv.tryDelete ready.1 ready.2⟩
  | keep =>
    rw [State.act] at h
    split at h
    · cases h
      exact ⟨_, inv.keep (by assumption)⟩
    · cases h
  | runAndDelete =>
    rw [State.act] at h
    split at h
    · cases h
      exact ⟨_, inv.runAndDelete (by assumption)⟩
    · cases h
  | timer => exact inv.stepTimer h

end Inv

namespace TaskFacts

end TaskFacts

theorem Done.returned {r : Record} (done : Done r) : r.returned = 1 := by
  rcases done with rfl | rfl <;> rfl

namespace Inv

variable {s : State τ} {stages : Slot → Stage τ}

end Inv

end Codelab.TimerTask
