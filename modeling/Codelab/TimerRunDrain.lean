import Codelab.Theory.History
import Codelab.TimerRun

/-! The loop over the heap, while other threads call `unschedule`: the tasks that are due are
run in the order of their times, and each task taken out has its slot given back once. -/

namespace Codelab.TimerRun

open TimerTaskId

variable {τ : Type}

namespace TimerPc

/-- The tasks that have neither been run nor been found unscheduled. -/
@[simp] def pending (tasks : List Slot) : TimerPc → List Slot
  | .tryReturn _ _ | .popDeleted => tasks.tail
  | .runCas p _ => p :: tasks
  | _ => tasks

/-- The task whose callback is about to be called. -/
@[simp] def calling : TimerPc → List Slot
  | .runCall p _ => [p]
  | _ => []

/-- The task taken off the heap to be run. -/
@[simp] def chosen : TimerPc → List Slot
  | .runCas p _ | .runCall p _ => [p]
  | _ => []

/-- The task whose slot is still to be given back. -/
@[simp] def owed : TimerPc → List Slot
  | .tryReturn _ p | .runStore p _ | .runReturn p => [p]
  | _ => []

end TimerPc

/-- What the loop has done: the tasks it has run, each with the clock reading before, in the
order of time; those it has found unscheduled, and the slots it has given back. `unscheduled`
are the tasks that have been unscheduled before either, `reading` is the last clock reading and
`steps` counts the steps of the loop. -/
structure Log where
  ran : List (Slot × Option Int)
  removed : List Slot
  unscheduled : List Slot
  returned : List Slot
  reading : Option Int
  steps : ℕ

namespace Log

def start (gone : Slot → Bool) (s : State τ) : Log where
  ran := []
  removed := []
  unscheduled := s.tasks.filter gone
  returned := []
  reading := none
  steps := 0

def tick (l : Log) : Log := { l with steps := l.steps + 1 }

def remove (l : Log) (p : Slot) : Log := { l with removed := p :: l.removed }

def giveBack (l : Log) (p : Slot) : Log := { l with returned := p :: l.returned }

def run (l : Log) (p : Slot) : Log := { l with ran := l.ran ++ [(p, l.reading)] }

end Log

/-- The compare-and-swap of `unschedule` succeeds, on a task that is pending. -/
def State.unschedules (s : State τ) (id : TaskId) : Prop :=
  (s.task (slotOfTaskId id)).version = versionOfTaskId id ∧
    slotOfTaskId id ∈ s.timer.pending s.tasks

instance (s : State τ) (id : TaskId) : Decidable (s.unschedules id) :=
  inferInstanceAs (Decidable (_ ∧ _))

def Log.note (s : State τ) (a : Action τ) (_ : State τ) (l : Log) : Log :=
  match a with
  | .unschedule id =>
    if s.unschedules id then { l with unscheduled := slotOfTaskId id :: l.unscheduled } else l
  | .timer =>
    match s.timer with
    | .tryCheck _ p idVersion =>
      if (s.task p).version = idVersion + 2 then l.tick.remove p else l.tick
    | .tryReturn _ p => l.tick.giveBack (slotOfTaskId (s.task p).taskId)
    | .runCas p idVersion => if (s.task p).version = idVersion then l.tick else l.tick.remove p
    | .runCall p _ => l.tick.run p
    | .runReturn p => l.tick.giveBack (slotOfTaskId (s.task p).taskId)
    | _ => l.tick
  | .arrange _ => l.tick
  | .clock now => { l.tick with reading := some now }
  | _ => l

def drainMachine [DecidableEq τ] (start : State τ) (gone : Slot → Bool) :
    Machine (State τ × Log) (Action τ) :=
  (machine start).recorded (Log.start gone) Log.note

theorem drain_begins [DecidableEq τ] (start : State τ) (gone : Slot → Bool) :
    (drainMachine start gone).init (start, Log.start gone start) := ⟨rfl, rfl⟩

/-- `run` comes to the loop with a heap of distinct tasks that have been scheduled, with the
versions `made`, and not been run; those that are `gone` have been unscheduled. -/
structure Ready (start : State τ) (made : Slot → Version) (gone : Slot → Bool) : Prop where
  timer : start.timer = .drain
  nodup : start.tasks.Nodup
  heap : Heap.IsHeap start.taskGreater start.tasks
  taskId : ∀ p ∈ start.tasks, (start.task p).taskId = makeTaskId p (made p)
  version : ∀ p ∈ start.tasks, (start.task p).version = if gone p then made p + 2 else made p

/-- Other threads do no more than unschedule. -/
def Action.cancels : Action τ → Bool
  | .schedule _ _ _ _ | .step _ => false
  | _ => true

/-- The loop reads the version from the id of the front that was packed into it, and the slot
when it gives that back. No `unschedule` succeeds on a task that has been unscheduled. -/
def genuine (made : Slot → Version) (s : State τ) (l : Log) : Action τ → Bool
  | .unschedule id => ¬ (s.unschedules id ∧ slotOfTaskId id ∈ l.unscheduled)
  | .timer =>
    match s.timer with
    | .drain =>
      match s.tasks with
      | [] => true
      | p :: _ => s.idVersion p = made p
    | .tryReturn _ p | .runReturn p => slotOfTaskId (s.task p).taskId = p
    | _ => true
  | _ => true

/-- What the loop is there for. -/
structure Drained [DecidableEq τ] (start s : State τ) (l : Log) : Prop where
  ordered : l.ran.Pairwise fun a b => start.runTime a.1 ≤ start.runTime b.1
  due : ∀ r ∈ l.ran, ∃ now, r.2 = some now ∧ start.runTime r.1 ≤ now
  scheduled : ∀ r ∈ l.ran, r.1 ∉ l.unscheduled
  removed : ∀ p ∈ l.removed, p ∈ l.unscheduled
  remaining : s.timer = .stopped →
    (s.tasks ++ (l.ran.map Prod.fst ++ l.removed)).Perm start.tasks
  left : s.timer = .stopped →
    s.tasks = [] ∨ ∃ now, l.reading = some now ∧ ∀ p ∈ s.tasks, now < start.runTime p
  returned : s.timer = .stopped → l.returned.Perm (l.ran.map Prod.fst ++ l.removed)
  once : l.returned.Nodup ∧ (l.ran.map Prod.fst ++ l.removed).Nodup
  steps : l.steps ≤ 10 * start.tasks.length + 1
  goesOn : s.timer ≠ .stopped → ∃ a : Action τ, a.run = true ∧ (s.act a).isSome = true

/-- What the loop knows where it stands. -/
def At (start : State τ) (made : Slot → Version) (tasks : List Slot) (l : Log) : TimerPc → Prop
  | .drain | .runReturn _ => True
  | .tryLoad .heap p v => tasks.head? = some p ∧ v = made p ∧ start.idVersion p = made p
  | .tryCheck .heap p v => tasks.head? = some p ∧ v = made p ∧ p ∈ l.unscheduled
  | .tryReturn .heap p => tasks.head? = some p
  | .popDeleted => tasks ≠ []
  | .due p => tasks.head? = some p ∧ start.idVersion p = made p
  | .popRun p => tasks.head? = some p ∧ start.idVersion p = made p ∧
      ∃ now, l.reading = some now ∧ start.runTime p ≤ now
  | .runCas p v => v = made p ∧ ∃ now, l.reading = some now ∧ start.runTime p ≤ now
  | .runCall p _ => ∃ now, l.reading = some now ∧ start.runTime p ≤ now
  | .runStore p _ => p ∈ l.ran.map Prod.fst
  | .stopped => tasks = [] ∨ ∃ now, l.reading = some now ∧ ∀ p ∈ tasks, now < start.runTime p
  | _ => False

/-- A bound on the steps that the loop has yet to take. -/
def roundsLeft (tasks : List Slot) : TimerPc → ℕ
  | .drain => 10 * tasks.length + 1
  | .tryLoad _ _ _ => 10 * tasks.length
  | .tryCheck _ _ _ | .due _ => 10 * tasks.length - 1
  | .tryReturn _ _ | .popRun _ => 10 * tasks.length - 2
  | .popDeleted => 10 * tasks.length - 3
  | .runCas _ _ => 10 * tasks.length + 5
  | .runCall _ _ => 10 * tasks.length + 4
  | .runStore _ _ => 10 * tasks.length + 3
  | .runReturn _ => 10 * tasks.length + 2
  | _ => 0

structure Draining (start : State τ) (made : Slot → Version) (task : Slot → Task)
    (tasks : List Slot) (timer : TimerPc) (l : Log) : Prop where
  taskId : ∀ p, (task p).taskId = (start.task p).taskId
  runTime : ∀ p, (task p).runTime = (start.task p).runTime
  heap : Heap.IsHeap start.taskGreater tasks
  account : ∀ p, (timer.pending tasks).count p + timer.calling.count p +
    (l.ran.map Prod.fst).count p + l.removed.count p = start.tasks.count p
  owes : ∀ p, l.returned.count p + timer.owed.count p =
    (l.ran.map Prod.fst).count p + l.removed.count p
  version : ∀ p ∈ timer.pending tasks,
    (task p).version = if p ∈ l.unscheduled then made p + 2 else made p
  scheduled : ∀ p ∈ timer.calling ++ l.ran.map Prod.fst, p ∉ l.unscheduled
  removed : ∀ p ∈ l.removed, p ∈ l.unscheduled
  ordered : (l.ran.map Prod.fst ++ timer.chosen).Pairwise
    fun a b => start.runTime a ≤ start.runTime b
  below : ∀ a ∈ l.ran.map Prod.fst ++ timer.chosen, ∀ b ∈ tasks,
    start.runTime a ≤ start.runTime b
  due : ∀ r ∈ l.ran, ∃ now, r.2 = some now ∧ start.runTime r.1 ≤ now
  stands : At start made tasks l timer
  steps : l.steps + roundsLeft tasks timer ≤ 10 * start.tasks.length + 1

variable {start s s' : State τ} {made : Slot → Version} {gone : Slot → Bool} {l : Log}
  {task task' : Slot → Task} {tasks tasks' : List Slot} {timer timer' : TimerPc} {p : Slot}
  {v : Version}

theorem taskGreater_eq (taskId : ∀ p, (s.task p).runTime = (start.task p).runTime) :
    s.taskGreater = start.taskGreater := by
  funext a b
  rw [State.taskGreater, State.taskGreater, State.runTime, State.runTime, taskId a, taskId b]
  rfl

namespace Draining

/-- A step that takes nothing out and runs nothing. -/
theorem quiet (h : Draining start made task tasks timer l) {l' : Log}
    (pending : timer'.pending tasks = timer.pending tasks)
    (calling : timer'.calling = timer.calling) (chosen : timer'.chosen = timer.chosen)
    (owed : timer'.owed = timer.owed)
    (ran : l'.ran = l.ran) (removed : l'.removed = l.removed)
    (unscheduled : l'.unscheduled = l.unscheduled) (returned : l'.returned = l.returned)
    (stands : At start made tasks l' timer') (steps : l'.steps = l.steps + 1)
    (less : roundsLeft tasks timer' < roundsLeft tasks timer) :
    Draining start made task tasks timer' l' := by
  refine ⟨h.taskId, h.runTime, h.heap, ?_, ?_, ?_, ?_, ?_, ?_, ?_, ?_, stands, ?_⟩
  · rw [pending, calling, ran, removed]
    exact h.account
  · rw [owed, ran, removed, returned]
    exact h.owes
  · rw [pending, unscheduled]
    exact h.version
  · rw [calling, ran, unscheduled]
    exact h.scheduled
  · rw [removed, unscheduled]
    exact h.removed
  · rw [ran, chosen]
    exact h.ordered
  · rw [ran, chosen]
    exact h.below
  · rw [ran]
    exact h.due
  · have bound := h.steps
    omega

theorem count_le_one (h : Draining start made task tasks timer l) (ready : Ready start made gone)
    (q : Slot) : (timer.pending tasks).count q + timer.calling.count q +
      (l.ran.map Prod.fst).count q + l.removed.count q ≤ 1 := by
  rw [h.account q]
  exact List.nodup_iff_count_le_one.mp ready.nodup q

/-- The front has been found unscheduled. -/
theorem remove (h : Draining start made task (p :: tasks) timer l)
    (pending : timer.pending (p :: tasks) = p :: tasks) (calling : timer.calling = [])
    (chosen : timer.chosen = []) (owed : timer.owed = []) (gone : p ∈ l.unscheduled)
    (less : 10 * tasks.length + 9 ≤ roundsLeft (p :: tasks) timer) :
    Draining start made task (p :: tasks) (.tryReturn .heap p) (l.tick.remove p) := by
  obtain ⟨taskId, runTime, heap, account, owes, version, scheduled, removed, ordered, below, due, -,
    steps⟩ := h
  rw [pending] at version
  rw [chosen] at ordered below
  refine ⟨taskId, runTime, heap, fun q => ?_, fun q => ?_, fun q hq => ?_, fun q hq => ?_, ?_,
    ordered, below, due, rfl, ?_⟩
  · have before := account q
    rw [pending, calling] at before
    change tasks.count q + 0 + (l.ran.map Prod.fst).count q + (p :: l.removed).count q = _
    simp only [List.count_cons, List.count_nil] at before ⊢
    omega
  · have before := owes q
    rw [owed] at before
    change l.returned.count q + [p].count q =
      (l.ran.map Prod.fst).count q + (p :: l.removed).count q
    simp only [List.count_cons, List.count_nil] at before ⊢
    omega
  · exact version q (List.mem_cons_of_mem p hq)
  · rw [calling] at scheduled
    exact scheduled q hq
  · intro q hq
    rcases List.mem_cons.mp hq with rfl | old
    · exact gone
    · exact removed q old
  · change l.steps + 1 + (10 * (tasks.length + 1) - 2) ≤ _
    omega

/-- A slot is given back. -/
theorem giveBack (h : Draining start made task tasks timer l)
    (pending : timer'.pending tasks = timer.pending tasks)
    (calling : timer'.calling = timer.calling) (chosen : timer'.chosen = timer.chosen)
    (owed : timer.owed = [p]) (paid : timer'.owed = [])
    (stands : At start made tasks (l.tick.giveBack p) timer')
    (less : roundsLeft tasks timer' < roundsLeft tasks timer) :
    Draining start made task tasks timer' (l.tick.giveBack p) := by
  refine ⟨h.taskId, h.runTime, h.heap, ?_, fun q => ?_, ?_, ?_, h.removed, ?_, ?_, h.due, stands,
    ?_⟩
  · rw [pending, calling]
    exact h.account
  · have before := h.owes q
    rw [owed] at before
    rw [paid]
    change (p :: l.returned).count q + 0 = (l.ran.map Prod.fst).count q + l.removed.count q
    simp only [List.count_cons, List.count_nil] at before ⊢
    omega
  · rw [pending]
    exact h.version
  · rw [calling]
    exact h.scheduled
  · rw [chosen]
    exact h.ordered
  · rw [chosen]
    exact h.below
  · have bound := h.steps
    change l.steps + 1 + _ ≤ _
    omega

/-- `pop_heap` takes the front away. -/
theorem popDeleted (h : Draining start made task tasks .popDeleted l)
    (perm : tasks'.Perm tasks.tail) (heap : Heap.IsHeap start.taskGreater tasks') :
    Draining start made task tasks' .drain l.tick := by
  obtain ⟨p, tail, rfl⟩ := List.exists_cons_of_ne_nil h.stands
  have size : tasks'.length = tail.length := perm.length_eq
  refine ⟨h.taskId, h.runTime, heap, fun q => ?_, h.owes, fun q hq => ?_, h.scheduled, h.removed,
    h.ordered, fun a ha b hb => ?_, h.due, trivial, ?_⟩
  · change tasks'.count q + _ + _ + _ = _
    rw [perm.count_eq]
    exact h.account q
  · exact h.version q (perm.mem_iff.mp hq)
  · exact h.below a ha b (List.mem_of_mem_tail (perm.mem_iff.mp hb))
  · have bound := h.steps
    change l.steps + (10 * (tail.length + 1) - 3) ≤ _ at bound
    change l.steps + 1 + (10 * tasks'.length + 1) ≤ _
    omega

/-- `pop_heap` takes the front away to be run. -/
theorem popRun (h : Draining start made task tasks (.popRun p) l)
    (perm : tasks'.Perm tasks.tail) (heap : Heap.IsHeap start.taskGreater tasks') :
    Draining start made task tasks' (.runCas p (made p)) l.tick := by
  obtain ⟨front, -, reading⟩ := h.stands
  obtain ⟨tail, rfl⟩ := List.head?_eq_some_iff.mp front
  have size : tasks'.length = tail.length := perm.length_eq
  have ordered := h.ordered
  have below := h.below
  rw [show (TimerPc.popRun p).chosen = [] from rfl, List.append_nil] at ordered below
  have least (b : Slot) (hb : b ∈ tail) : start.runTime p ≤ start.runTime b :=
    Int.not_lt.mp (h.heap.front b (List.mem_cons_of_mem p hb))
  refine ⟨h.taskId, h.runTime, heap, fun q => ?_, h.owes, fun q hq => ?_, h.scheduled, h.removed,
    ?_, fun a ha b hb => ?_, h.due, ⟨rfl, reading⟩, ?_⟩
  · change (p :: tasks').count q + _ + _ + _ = _
    rw [(perm.cons p).count_eq]
    exact h.account q
  · exact h.version q ((perm.cons p).mem_iff.mp hq)
  · refine List.pairwise_append.mpr ⟨ordered, List.pairwise_singleton _ _, fun a ha b hb => ?_⟩
    obtain rfl := List.mem_singleton.mp hb
    exact below a ha b List.mem_cons_self
  · have there := perm.mem_iff.mp hb
    rcases List.mem_append.mp ha with old | new
    · exact below a old b (List.mem_cons_of_mem p there)
    · obtain rfl := List.mem_singleton.mp new
      exact least b there
  · have bound := h.steps
    change l.steps + (10 * (tail.length + 1) - 2) ≤ _ at bound
    change l.steps + 1 + (10 * tasks'.length + 5) ≤ _
    omega

theorem not_pending (h : Draining start made task tasks timer l) (ready : Ready start made gone)
    (through : p ∈ timer.calling ++ l.ran.map Prod.fst) : p ∉ timer.pending tasks := by
  intro there
  have one := List.count_pos_iff.mpr there
  have two := List.count_pos_iff.mpr through
  have all := h.count_le_one ready p
  rw [List.count_append] at two
  omega

/-- The compare-and-swap of `run_and_delete` succeeds: no one has unscheduled the task. -/
theorem runCas (h : Draining start made task tasks (.runCas p (made p)) l)
    (ready : Ready start made gone) (same : (task p).version = made p)
    (taskId : (task' p).taskId = (task p).taskId) (runTime : (task' p).runTime = (task p).runTime)
    (other : ∀ q, q ≠ p → task' q = task q) :
    Draining start made task' tasks (.runCall p (made p)) l.tick := by
  have fresh : p ∉ tasks := by
    intro there
    have all := h.count_le_one ready p
    have some := List.count_pos_iff.mpr there
    have twice : (p :: tasks).count p ≤ 1 := by
      change (p :: tasks).count p + _ + _ + _ ≤ 1 at all
      omega
    rw [List.count_cons_self] at twice
    omega
  refine ⟨fun q => ?_, fun q => ?_, h.heap, fun q => ?_, h.owes, fun q hq => ?_, fun q hq => ?_,
    h.removed, h.ordered, h.below, h.due, h.stands.2, ?_⟩
  · by_cases e : q = p
    · rw [e, taskId, h.taskId]
    · rw [other q e, h.taskId]
  · by_cases e : q = p
    · rw [e, runTime, h.runTime]
    · rw [other q e, h.runTime]
  · have before := h.account q
    change (p :: tasks).count q + 0 + _ + _ = _ at before
    change tasks.count q + [p].count q + (l.ran.map Prod.fst).count q + l.removed.count q = _
    rw [← before]
    simp only [List.count_cons, List.count_nil]
    omega
  · have apart : q ≠ p := by
      rintro rfl
      exact fresh hq
    rw [other q apart]
    exact h.version q (List.mem_cons_of_mem p hq)
  · rcases List.mem_cons.mp hq with rfl | old
    · intro gone
      have version := h.version q List.mem_cons_self
      rw [if_pos (show q ∈ l.unscheduled from gone), same] at version
      exact add_two_ne _ version.symm
    · exact h.scheduled q old
  · have bound := h.steps
    change l.steps + (10 * tasks.length + 5) ≤ _ at bound
    change l.steps + 1 + (10 * tasks.length + 4) ≤ _
    omega

/-- It fails: the task has been unscheduled after `try_delete`. -/
theorem runGone (h : Draining start made task tasks (.runCas p (made p)) l)
    (other : (task p).version ≠ made p) :
    (task p).version = made p + 2 ∧
      Draining start made task tasks (.runReturn p) (l.tick.remove p) := by
  have version := h.version p List.mem_cons_self
  have gone : p ∈ l.unscheduled := by
    by_contra not
    rw [if_neg not] at version
    exact other version
  rw [if_pos gone] at version
  refine ⟨version, h.taskId, h.runTime, h.heap, fun q => ?_, fun q => ?_, fun q hq => ?_,
    h.scheduled, fun q hq => ?_, ?_, fun a ha => ?_, h.due, trivial, ?_⟩
  · have before := h.account q
    change (p :: tasks).count q + 0 + _ + _ = _ at before
    change tasks.count q + 0 + (l.ran.map Prod.fst).count q + (p :: l.removed).count q = _
    rw [← before]
    simp only [List.count_cons]
    omega
  · have before := h.owes q
    change l.returned.count q + 0 = _ at before
    change l.returned.count q + [p].count q =
      (l.ran.map Prod.fst).count q + (p :: l.removed).count q
    simp only [List.count_cons, List.count_nil] at before ⊢
    omega
  · exact h.version q (List.mem_cons_of_mem p hq)
  · rcases List.mem_cons.mp hq with rfl | old
    · exact gone
    · exact h.removed q old
  · have ordered := (List.pairwise_append.mp h.ordered).1
    rwa [← List.append_nil (l.ran.map Prod.fst)] at ordered
  · have ran : a ∈ l.ran.map Prod.fst ++ [] := ha
    rw [List.append_nil] at ran
    exact h.below a (List.mem_append_left _ ran)
  · have bound := h.steps
    change l.steps + (10 * tasks.length + 5) ≤ _ at bound
    change l.steps + 1 + (10 * tasks.length + 2) ≤ _
    omega

/-- The callback is called. -/
theorem runCall (h : Draining start made task tasks (.runCall p v) l) :
    Draining start made task tasks (.runStore p v) (l.tick.run p) := by
  have ran : ((l.tick.run p).ran.map Prod.fst) = l.ran.map Prod.fst ++ [p] := List.map_append
  refine ⟨h.taskId, h.runTime, h.heap, fun q => ?_, fun q => ?_, h.version, fun q hq => ?_,
    h.removed, ?_, fun a ha => ?_, fun r hr => ?_, ?_, ?_⟩
  · have before := h.account q
    change tasks.count q + [p].count q + _ + _ = _ at before
    rw [ran, List.count_append, ← before]
    change tasks.count q + 0 + ((l.ran.map Prod.fst).count q + [p].count q) + l.removed.count q = _
    omega
  · have before := h.owes q
    change l.returned.count q + 0 = _ at before
    rw [ran, List.count_append]
    change l.returned.count q + [p].count q =
      (l.ran.map Prod.fst).count q + [p].count q + l.removed.count q
    omega
  · rw [ran] at hq
    refine h.scheduled q (List.mem_append.mpr (.symm ?_))
    exact List.mem_append.mp hq
  · rw [ran]
    change (l.ran.map Prod.fst ++ [p] ++ []).Pairwise _
    rw [List.append_nil]
    exact h.ordered
  · rw [ran] at ha
    change a ∈ l.ran.map Prod.fst ++ [p] ++ [] at ha
    rw [List.append_nil] at ha
    exact h.below a ha
  · rcases List.mem_append.mp hr with old | new
    · exact h.due r old
    · obtain rfl := List.mem_singleton.mp new
      exact h.stands
  · change p ∈ (l.tick.run p).ran.map Prod.fst
    rw [ran]
    exact List.mem_append_right _ (List.mem_singleton_self p)
  · have bound := h.steps
    change l.steps + (10 * tasks.length + 4) ≤ _ at bound
    change l.steps + 1 + (10 * tasks.length + 3) ≤ _
    omega

/-- `run_and_delete` marks the end of the task. -/
theorem runStore (h : Draining start made task tasks (.runStore p v) l)
    (ready : Ready start made gone) (taskId : (task' p).taskId = (task p).taskId)
    (runTime : (task' p).runTime = (task p).runTime) (other : ∀ q, q ≠ p → task' q = task q) :
    Draining start made task' tasks (.runReturn p) l.tick := by
  have through : p ∉ tasks := h.not_pending ready h.stands
  refine ⟨fun q => ?_, fun q => ?_, h.heap, h.account, h.owes, fun q hq => ?_, h.scheduled,
    h.removed, h.ordered, h.below, h.due, trivial, ?_⟩
  · by_cases e : q = p
    · rw [e, taskId, h.taskId]
    · rw [other q e, h.taskId]
  · by_cases e : q = p
    · rw [e, runTime, h.runTime]
    · rw [other q e, h.runTime]
  · have apart : q ≠ p := by
      rintro rfl
      exact through hq
    rw [other q apart]
    exact h.version q hq
  · have bound := h.steps
    change l.steps + (10 * tasks.length + 3) ≤ _ at bound
    change l.steps + 1 + (10 * tasks.length + 2) ≤ _
    omega

/-- Only the versions of pending tasks matter. -/
theorem retask (h : Draining start made task tasks timer l)
    (taskId : ∀ q, (task' q).taskId = (task q).taskId)
    (runTime : ∀ q, (task' q).runTime = (task q).runTime)
    (same : ∀ q ∈ timer.pending tasks, (task' q).version = (task q).version) :
    Draining start made task' tasks timer l :=
  { h with
    taskId := fun q => (taskId q).trans (h.taskId q)
    runTime := fun q => (runTime q).trans (h.runTime q)
    version := fun q hq => (same q hq).trans (h.version q hq) }

/-- A pending task is unscheduled. -/
theorem cancel (h : Draining start made task tasks timer l) (ready : Ready start made gone)
    (there : p ∈ timer.pending tasks) (fresh : p ∉ l.unscheduled)
    (taskId : ∀ q, (task' q).taskId = (task q).taskId)
    (runTime : ∀ q, (task' q).runTime = (task q).runTime)
    (own : (task' p).version = (task p).version + 2)
    (other : ∀ q, q ≠ p → (task' q).version = (task q).version) :
    Draining start made task' tasks timer { l with unscheduled := p :: l.unscheduled } := by
  refine ⟨fun q => (taskId q).trans (h.taskId q), fun q => (runTime q).trans (h.runTime q), h.heap,
    h.account, h.owes, fun q hq => ?_, fun q hq gone => ?_, fun q hq => ?_, h.ordered, h.below,
    h.due, ?_, h.steps⟩
  · have version := h.version q hq
    by_cases e : q = p
    · rw [e] at version ⊢
      rw [own, version, if_neg fresh, if_pos List.mem_cons_self]
    · rw [other q e, version]
      simp only [List.mem_cons, e, false_or]
  · rcases List.mem_cons.mp gone with rfl | old
    · exact h.not_pending ready hq there
    · exact h.scheduled q hq old
  · exact List.mem_cons_of_mem p (h.removed q hq)
  · have stands := h.stands
    cases timer with
    | tryCheck site q v =>
      cases site with
      | chain => exact stands
      | heap => exact ⟨stands.1, stands.2.1, List.mem_cons_of_mem p stands.2.2⟩
    | tryLoad site q v => cases site <;> exact stands
    | tryReturn site q => cases site <;> exact stands
    | _ => exact stands

end Draining

/-- What a change of one task's version leaves as it was. -/
theorem version_only (s : State τ) (p : Slot) (v : Version) (q : Slot) :
    ((s.onTask p ({ · with version := v })).task q).taskId = (s.task q).taskId ∧
      ((s.onTask p ({ · with version := v })).task q).runTime = (s.task q).runTime := by
  by_cases e : q = p
  · simp [State.onTask, e]
  · simp [State.onTask, e]

theorem version_own (s : State τ) (p : Slot) (v : Version) :
    ((s.onTask p ({ · with version := v })).task p).version = v :=
  congrArg Task.version (Function.update_self p _ s.task)

theorem version_other (s : State τ) {p q : Slot} (v : Version) (apart : q ≠ p) :
    (s.onTask p ({ · with version := v })).task q = s.task q := Function.update_of_ne apart _ _

theorem unschedule_draining (h : Draining start made s.task s.tasks s.timer l)
    (ready : Ready start made gone) {id : TaskId}
    (kept : genuine made s l (.unschedule id) = true) :
    Draining start made (s.unschedule id).task s.tasks s.timer
      (Log.note s (.unschedule id) s' l) := by
  simp only [genuine, decide_eq_true_eq] at kept
  have only := version_only s (slotOfTaskId id) (versionOfTaskId id + 2)
  by_cases cas : (s.task (slotOfTaskId id)).version = versionOfTaskId id
  · rw [State.unschedule, if_pos cas]
    by_cases there : slotOfTaskId id ∈ s.timer.pending s.tasks
    · have fresh : slotOfTaskId id ∉ l.unscheduled := fun old => kept ⟨⟨cas, there⟩, old⟩
      rw [Log.note, if_pos ⟨cas, there⟩]
      refine h.cancel ready there fresh (fun q => (only q).1) (fun q => (only q).2) ?_
        fun q apart => congrArg Task.version (version_other s _ apart)
      rw [version_own, cas]
    · rw [Log.note, if_neg fun both => there both.2]
      refine h.retask (fun q => (only q).1) (fun q => (only q).2) fun q hq => ?_
      refine congrArg Task.version (version_other s _ ?_)
      rintro rfl
      exact there hq
  · rw [State.unschedule, if_neg cas, Log.note, if_neg fun both => cas both.1]
    exact h

theorem stepTimer_draining (h : Draining start made s.task s.tasks s.timer l)
    (ready : Ready start made gone) (kept : genuine made s l (.timer : Action τ) = true)
    (next : s.stepTimer = some s') :
    Draining start made s'.task s'.tasks s'.timer (Log.note s (.timer : Action τ) s' l) := by
  have stands := h.stands
  cases here : s.timer <;> rw [here] at h stands
  case visit q => cases stands
  case push q => cases stands
  case advance q => cases stands
  case aborted => cases stands
  all_goals simp only [State.stepTimer, here] at next
  all_goals simp only [genuine, here] at kept; simp only [Log.note, here]
  case drain =>
    cases front : s.tasks with
    | nil =>
      simp only [front, Option.some.injEq] at next
      subst next
      refine h.quiet rfl rfl rfl rfl rfl rfl rfl rfl (.inl front) rfl ?_
      exact Nat.succ_pos _
    | cons p tail =>
      simp only [front, Option.some.injEq] at next
      simp only [front, decide_eq_true_eq] at kept
      subst next
      refine h.quiet rfl rfl rfl rfl rfl rfl rfl rfl ⟨?_, kept, ?_⟩ rfl (Nat.lt_succ_self _)
      · exact congrArg List.head? front
      · rw [← kept, State.idVersion, State.idVersion, h.taskId]
  case tryLoad site p v =>
    cases site with
    | chain => cases stands
    | heap =>
      obtain ⟨front, rfl, id⟩ := stands
      obtain ⟨tail, tasks⟩ := List.head?_eq_some_iff.mp front
      have there : p ∈ s.tasks := tasks ▸ List.mem_cons_self
      have version := h.version p there
      have less : 10 * s.tasks.length - 1 < 10 * s.tasks.length := by
        rw [tasks, List.length_cons]
        omega
      simp only [Option.some.injEq] at next
      subst next
      by_cases gone : p ∈ l.unscheduled
      · have other : (s.task p).version ≠ made p := by
          rw [version, if_pos gone]
          exact add_two_ne (made p)
        rw [if_pos other]
        exact h.quiet rfl rfl rfl rfl rfl rfl rfl rfl ⟨front, rfl, gone⟩ rfl less
      · rw [if_neg gone] at version
        rw [if_neg (not_not.mpr version)]
        exact h.quiet rfl rfl rfl rfl rfl rfl rfl rfl ⟨front, id⟩ rfl less
  case tryCheck site p v =>
    cases site with
    | chain => cases stands
    | heap =>
      obtain ⟨front, rfl, gone⟩ := stands
      obtain ⟨tail, tasks⟩ := List.head?_eq_some_iff.mp front
      have version := h.version p (show p ∈ s.tasks from tasks ▸ List.mem_cons_self)
      rw [if_pos gone] at version
      simp only [Option.some.injEq] at next
      subst next
      rw [if_pos version, if_pos version]
      rw [tasks] at h
      change Draining start made s.task s.tasks (.tryReturn .heap p) _
      rw [tasks]
      exact h.remove rfl rfl rfl rfl gone (show 10 * tail.length + 9 ≤ 10 * (tail.length + 1) - 1 by
        omega)
  case tryReturn site p =>
    cases site with
    | chain => cases stands
    | heap =>
      obtain ⟨tail, tasks⟩ := List.head?_eq_some_iff.mp stands
      simp only [decide_eq_true_eq] at kept
      simp only [Option.some.injEq] at next
      subst next
      rw [kept]
      refine h.giveBack rfl rfl rfl rfl rfl (show s.tasks ≠ [] from ?_) ?_
      · rw [tasks]
        exact List.cons_ne_nil p tail
      · change 10 * s.tasks.length - 3 < 10 * s.tasks.length - 2
        rw [tasks, List.length_cons]
        omega
  case runCas p v =>
    obtain ⟨rfl, reading⟩ := stands
    by_cases same : (s.task p).version = made p
    · rw [if_pos same] at next ⊢
      obtain rfl := Option.some.inj next
      have only := version_only s p (made p + 1) p
      exact h.runCas ready same only.1 only.2 fun q apart => version_other s _ apart
    · obtain ⟨version, through⟩ := h.runGone same
      rw [if_neg same, if_pos version] at next
      obtain rfl := Option.some.inj next
      rw [if_neg same]
      exact through
  case runCall p v =>
    obtain rfl := Option.some.inj next
    exact h.runCall
  case runStore p v =>
    obtain rfl := Option.some.inj next
    have only := version_only s p (v + 2) p
    exact h.runStore ready only.1 only.2 fun q apart => version_other s _ apart
  case runReturn p =>
    simp only [decide_eq_true_eq] at kept
    obtain rfl := Option.some.inj next
    rw [kept]
    exact h.giveBack rfl rfl rfl rfl rfl trivial (Nat.lt_succ_self _)
  all_goals cases next

theorem arrange_draining (h : Draining start made s.task s.tasks s.timer l)
    (next : s.arrange tasks = some s') :
    Draining start made s'.task s'.tasks s'.timer
    (Log.note s (.arrange tasks : Action τ) s' l) := by
  obtain ⟨heap, ⟨p, here, -, -⟩ | ⟨here, perm, rfl⟩ | ⟨p, here, perm, rfl⟩⟩ :=
    State.arrange_cases next
  · have stands := h.stands
    rw [here] at stands
    cases stands
  · rw [taskGreater_eq h.runTime] at heap
    rw [here] at h
    exact h.popDeleted perm heap
  · rw [taskGreater_eq h.runTime] at heap
    rw [here] at h
    have id : s.idVersion p = made p := by
      rw [← h.stands.2.1, State.idVersion, State.idVersion, h.taskId]
    change Draining start made s.task tasks (.runCas p (s.idVersion p)) l.tick
    rw [id]
    exact h.popRun perm heap

theorem readClock_draining (h : Draining start made s.task s.tasks s.timer l) {now : Int}
    (next : s.readClock now = some s') :
    Draining start made s'.task s'.tasks s'.timer (Log.note s (.clock now : Action τ) s' l) := by
  obtain ⟨p, here, rfl⟩ := State.readClock_due next
  rw [here] at h
  obtain ⟨front, id⟩ := h.stands
  obtain ⟨tail, tasks⟩ := List.head?_eq_some_iff.mp front
  have runTime : s.runTime p = start.runTime p := h.runTime p
  have heap := h.heap
  rw [tasks] at heap
  have size : s.tasks.length = tail.length + 1 := by rw [tasks, List.length_cons]
  change Draining start made s.task s.tasks (if now < s.runTime p then .stopped else .popRun p) _
  by_cases early : now < s.runTime p
  · rw [if_pos early]
    refine h.quiet rfl rfl rfl rfl rfl rfl rfl rfl (.inr ⟨now, rfl, fun q hq => ?_⟩) rfl ?_
    · rw [tasks] at hq
      have least : start.runTime p ≤ start.runTime q := Int.not_lt.mp (heap.front q hq)
      omega
    · change 0 < 10 * s.tasks.length - 1
      omega
  · rw [if_neg early]
    refine h.quiet rfl rfl rfl rfl rfl rfl rfl rfl ⟨front, id, now, rfl, ?_⟩ rfl ?_
    · omega
    · change 10 * s.tasks.length - 2 < 10 * s.tasks.length - 1
      omega

theorem act_draining [DecidableEq τ] (h : Draining start made s.task s.tasks s.timer l)
    (ready : Ready start made gone) {a : Action τ} (only : a.cancels = true)
    (kept : genuine made s l a = true) (next : s.act a = some s') :
    Draining start made s'.task s'.tasks s'.timer (Log.note s a s' l) := by
  cases a with
  | schedule t b p r => cases only
  | step t => cases only
  | unschedule id =>
    simp only [State.act, Option.some.injEq] at next
    have timer : (s.unschedule id).timer = s.timer := by
      rw [State.unschedule]
      split_ifs <;> rfl
    have tasks : (s.unschedule id).tasks = s.tasks := by
      rw [State.unschedule]
      split_ifs <;> rfl
    subst next
    rw [timer, tasks]
    exact unschedule_draining h ready kept
  | timer => exact stepTimer_draining h ready kept next
  | arrange tasks => exact arrange_draining h next
  | clock now => exact readClock_draining h next

theorem Ready.begin (ready : Ready start made gone) :
    Draining start made start.task start.tasks start.timer (Log.start gone start) := by
  rw [ready.timer]
  refine ⟨fun _ => rfl, fun _ => rfl, ready.heap, fun p => rfl, fun p => rfl, fun p hp => ?_,
    fun p hp => ?_, fun p hp => ?_, List.Pairwise.nil, fun a ha => ?_, fun r hr => ?_, trivial, ?_⟩
  · rw [ready.version p hp]
    refine if_congr ?_ rfl rfl
    exact ⟨fun was => List.mem_filter.mpr ⟨hp, was⟩, fun mem => (List.mem_filter.mp mem).2⟩
  · cases hp
  · cases hp
  · cases ha
  · cases hr
  · exact (Nat.zero_add _).le

theorem drain_goes_on [DecidableEq τ] (h : Draining start made s.task s.tasks s.timer l)
    (more : s.timer ≠ .stopped) : ∃ a : Action τ, a.run = true ∧ (s.act a).isSome = true := by
  have stands := h.stands
  cases here : s.timer <;> rw [here] at stands
  case stopped => exact absurd here more
  case popDeleted =>
    obtain ⟨tasks, perm, heap⟩ := s.exists_arrange s.tasks.tail
    refine ⟨.arrange tasks, rfl, ?_⟩
    simp only [State.act, State.arrange, here, if_pos (And.intro perm heap), Option.isSome_some]
  case popRun p =>
    obtain ⟨tasks, perm, heap⟩ := s.exists_arrange s.tasks.tail
    refine ⟨.arrange tasks, rfl, ?_⟩
    simp only [State.act, State.arrange, here, if_pos (And.intro perm heap), Option.isSome_some]
  case due p =>
    exact ⟨.clock 0, rfl, by simp only [State.act, State.readClock, here, Option.isSome_some]⟩
  case drain =>
    refine ⟨.timer, rfl, ?_⟩
    cases front : s.tasks <;>
      simp only [State.act, State.stepTimer, here, front, Option.isSome_some]
  case runCas p v =>
    refine ⟨.timer, rfl, ?_⟩
    simp only [State.act, State.stepTimer, here]
    split_ifs <;> rfl
  case tryLoad | tryCheck | tryReturn | runCall | runStore | runReturn =>
    exact ⟨.timer, rfl, by simp only [State.act, State.stepTimer, here, Option.isSome_some]⟩
  all_goals cases stands

theorem Draining.drained [DecidableEq τ] (h : Draining start made s.task s.tasks s.timer l)
    (ready : Ready start made gone) : Drained start s l := by
  have once (q : Slot) : (l.ran.map Prod.fst ++ l.removed).count q ≤ 1 := by
    have all := h.count_le_one ready q
    rw [List.count_append]
    omega
  refine ⟨?_, h.due, fun r hr => ?_, h.removed, fun ended => ?_, fun ended => ?_, fun ended => ?_,
    ⟨?_, List.nodup_iff_count_le_one.mpr once⟩, (Nat.le_add_right _ _).trans h.steps,
    drain_goes_on h⟩
  · have ran := (List.pairwise_append.mp h.ordered).1
    rwa [List.pairwise_map] at ran
  · exact h.scheduled r.1 (List.mem_append_right _ (List.mem_map_of_mem hr))
  · refine List.perm_iff_count.mpr fun q => ?_
    have account := h.account q
    rw [ended] at account
    rw [List.count_append, List.count_append, ← account]
    change s.tasks.count q + _ = s.tasks.count q + 0 + _ + _
    omega
  · have stands := h.stands
    rwa [ended] at stands
  · refine List.perm_iff_count.mpr fun q => ?_
    have owes := h.owes q
    rw [ended] at owes
    rw [List.count_append, ← owes]
    rfl
  · refine List.nodup_iff_count_le_one.mpr fun q => ?_
    have owes := h.owes q
    have all := once q
    rw [List.count_append] at all
    omega

theorem draining_reachable [DecidableEq τ] (ready : Ready start made gone) {p : State τ × Log}
    (h : (drainMachine start gone).ReachableBy
      (fun p a => a.cancels && genuine made p.1 p.2 a) p) :
    Draining start made p.1.task p.1.tasks p.1.timer p.2 := by
  refine h.recorded_invariant (fun s l => Draining start made s.task s.tasks s.timer l)
    (fun s begins => ?_) fun s a s' l before kept next => ?_
  · obtain rfl : s = start := begins
    exact ready.begin
  · obtain ⟨only, kept⟩ := Bool.and_eq_true_iff.mp kept
    exact act_draining before ready only kept next

/-- In every run in which the ids read back and no `unschedule` hits a task twice, the loop
over the heap runs what is due. -/
theorem due_run [DecidableEq τ] (ready : Ready start made gone) {p : State τ × Log}
    (h : (drainMachine start gone).ReachableBy
      (fun p a => a.cancels && genuine made p.1 p.2 a) p) : Drained start p.1 p.2 :=
  (draining_reachable ready h).drained ready

/-- Three tasks on the heap, of which the second has been unscheduled. -/
def threeTasks : State (Fin 1) where
  task p :=
    if p = 1 then { next := none, runTime := 10, taskId := makeTaskId 1 4, version := 4 }
    else if p = 2 then { next := none, runTime := 20, taskId := makeTaskId 2 4, version := 6 }
    else { next := none, runTime := 30, taskId := makeTaskId 3 4, version := 4 }
  allocated _ := true
  head _ := none
  tasks := [1, 3, 2]
  pc _ := .idle
  timer := .drain

theorem threeTasks_ready : Ready threeTasks (fun _ => 4) (· = 2) where
  timer := rfl
  nodup := by decide
  heap := by decide
  taskId p hp := by
    simp only [threeTasks, List.mem_cons, List.not_mem_nil, or_false] at hp
    rcases hp with rfl | rfl | rfl <;> rfl
  version p hp := by
    simp only [threeTasks, List.mem_cons, List.not_mem_nil, or_false] at hp
    rcases hp with rfl | rfl | rfl <;> rfl

/-- The first task is run at 15, the second is removed, and at 20 the third is not due. -/
theorem due_run_three : ∃ p : State (Fin 1) × Log, p.1.timer = .stopped ∧ p.1.tasks = [3] ∧
    p.2.ran = [(1, some 15)] ∧ Drained threeTasks p.1 p.2 := by
  have ran : ((drainMachine threeTasks (· = 2)).runBy
      (fun p a => a.cancels && genuine (fun _ => 4) p.1 p.2 a)
      (threeTasks, Log.start (· = 2) threeTasks)
      ([.timer, .timer, .clock 15, .arrange [2, 3], .unschedule (makeTaskId 2 4)] ++
        List.replicate 8 .timer ++ [.arrange [3], .timer, .timer, .clock 20])).map
      (fun p => (p.1.timer, p.1.tasks, p.2.ran)) = some (.stopped, [3], [(1, some 15)]) := by
    decide +kernel
  obtain ⟨p, run, seen⟩ := Option.map_eq_some_iff.mp ran
  obtain ⟨ended, rest⟩ := Prod.mk.inj seen
  obtain ⟨tasks, log⟩ := Prod.mk.inj rest
  exact ⟨p, ended, tasks, log,
    due_run threeTasks_ready (Machine.runBy_reachable (.init (drain_begins threeTasks _)) run)⟩

/-- A task in slot `2 ^ 34` in its first use; the version 4 has the bit of the slot as well. -/
def largeSlot : State (Fin 1) where
  task _ := { next := none, runTime := 0, taskId := makeTaskId 0x400000000 4, version := 4 }
  allocated _ := true
  head _ := none
  tasks := [0x400000000]
  pc _ := .idle
  timer := .drain

/-- The task is run, and slot 0 is given back in the place of its own. -/
theorem other_returned : Ready largeSlot (fun _ => 4) (fun _ => false) ∧
    ¬ ∀ p, (drainMachine largeSlot fun _ => false).ReachableBy (fun _ a => a.cancels) p →
      Drained largeSlot p.1 p.2 := by
  refine ⟨⟨rfl, by decide, by decide, fun p hp => ?_, fun p hp => rfl⟩, fun always => ?_⟩
  · obtain rfl := List.mem_singleton.mp hp
    rfl
  have ran : ((drainMachine largeSlot fun _ => false).runBy (fun _ a => a.cancels)
      (largeSlot, Log.start (fun _ => false) largeSlot)
      ([.timer, .timer, .clock 0, .arrange []] ++ List.replicate 5 .timer)).map
      (fun p => (p.1.timer, p.2.ran, p.2.removed, p.2.returned)) =
      some (.stopped, [(0x400000000, some 0)], [], [0]) := by decide +kernel
  obtain ⟨p, run, seen⟩ := Option.map_eq_some_iff.mp ran
  obtain ⟨ended, rest⟩ := Prod.mk.inj seen
  obtain ⟨log, rest⟩ := Prod.mk.inj rest
  obtain ⟨removed, returned⟩ := Prod.mk.inj rest
  have drained := always p (Machine.runBy_reachable (.init (drain_begins largeSlot _)) run)
  have own := drained.returned ended
  rw [log, removed, returned] at own
  have same := List.singleton_perm_singleton.mp own
  cases same

/-- No `unschedule` succeeds on a task that has been unscheduled. -/
def hitsOnce (s : State τ) (l : Log) : Action τ → Bool
  | .unschedule id => ¬ (s.unschedules id ∧ slotOfTaskId id ∈ l.unscheduled)
  | _ => true

/-- Ids of slots that fit in their half read back. -/
theorem Draining.genuine_of_fits (h : Draining start made s.task s.tasks s.timer l)
    (ready : Ready start made gone) (fits : ∀ p ∈ start.tasks, Fits p) {a : Action τ}
    (hits : hitsOnce s l a = true) : genuine made s l a = true := by
  have reads (p : Slot) (hp : p ∈ start.tasks) :
      s.idVersion p = made p ∧ slotOfTaskId (s.task p).taskId = p := by
    rw [State.idVersion, h.taskId p, ready.taskId p hp]
    exact ⟨versionOfTaskId_makeTaskId (fits p hp) _, slotOfTaskId_makeTaskId (fits p hp) _⟩
  have owing (p : Slot) (owed : s.timer.owed = [p]) : p ∈ start.tasks := by
    have owes := h.owes p
    rw [owed, List.count_singleton_self] at owes
    rw [← List.count_pos_iff, ← h.account p]
    omega
  cases a with
  | unschedule id => exact hits
  | timer =>
    cases here : s.timer
    case drain =>
      cases front : s.tasks with
      | nil => simp only [genuine, here, front]
      | cons p tail =>
        have there : 0 < (s.timer.pending s.tasks).count p := by
          rw [here, front]
          exact List.count_pos_iff.mpr List.mem_cons_self
        simp only [genuine, here, front, decide_eq_true_eq]
        refine (reads p (List.count_pos_iff.mp ?_)).1
        rw [← h.account p]
        omega
    case tryReturn site p =>
      simp only [genuine, here, decide_eq_true_eq]
      exact (reads p (owing p (congrArg TimerPc.owed here))).2
    case runReturn p =>
      simp only [genuine, here, decide_eq_true_eq]
      exact (reads p (owing p (congrArg TimerPc.owed here))).2
    all_goals simp only [genuine, here]
  | _ => rfl

/-- For slots below `2 ^ 32` it is enough that no `unschedule` hits a task twice. -/
theorem due_run_of_fits [DecidableEq τ] (ready : Ready start made gone)
    (fits : ∀ p ∈ start.tasks, Fits p) {p : State τ × Log}
    (h : (drainMachine start gone).ReachableBy
      (fun p a => a.cancels && hitsOnce p.1 p.2 a) p) : Drained start p.1 p.2 := by
  have reads : (drainMachine start gone).ReachableBy
      (fun p a => a.cancels && genuine made p.1 p.2 a) p := by
    refine h.strengthen fun p reached a hits => ?_
    obtain ⟨only, hits⟩ := Bool.and_eq_true_iff.mp hits
    exact Bool.and_eq_true_iff.mpr
      ⟨only, (draining_reachable ready reached).genuine_of_fits ready fits hits⟩
  exact (draining_reachable ready reads).drained ready

end Codelab.TimerRun
