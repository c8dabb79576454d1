import Codelab.Theory.Chain
import Codelab.Theory.History
import Codelab.TimerRun

/-! The loop over a chain of tasks, while other threads schedule. It gives the slot of an
unscheduled task back and reads the task's `next` after that, when the slot may have been
handed out again. -/

namespace Codelab.TimerRun

open TimerTaskId Chain

variable {τ : Type}

/-- In the loop over the chain. -/
def TimerPc.walking : TimerPc → Bool
  | .visit _ | .push _ | .advance _ => true
  | .tryLoad site _ _ | .tryCheck site _ _ | .tryReturn site _ => site = .chain
  | _ => false

/-- What the loop over the chain has done, each list in the order of time: the tasks it has
called `try_delete` on, those it has pushed and the slots it has given back; and how many steps
it has taken. -/
structure Walk where
  visited : List Slot
  pushed : List Slot
  returned : List Slot
  steps : ℕ

namespace Walk

def start (_ : State τ) : Walk where
  visited := []
  pushed := []
  returned := []
  steps := 0

def tick (w : Walk) : Walk := { w with steps := w.steps + 1 }

def note (s : State τ) (a : Action τ) (_ : State τ) (w : Walk) : Walk :=
  if a.run = true ∧ s.timer.walking = true then
    match s.timer with
    | .visit (some p) => { w.tick with visited := w.visited ++ [p] }
    | .push p => { w.tick with pushed := w.pushed ++ [p] }
    | .tryReturn _ p => { w.tick with returned := w.returned ++ [slotOfTaskId (s.task p).taskId] }
    | _ => w.tick
  else w

end Walk

def walkMachine [DecidableEq τ] (start : State τ) : Machine (State τ × Walk) (Action τ) :=
  (machine start).recorded Walk.start Walk.note

theorem walk_begins [DecidableEq τ] (start : State τ) :
    (walkMachine start).init (start, Walk.start start) := ⟨rfl, rfl⟩

/-- `run` has taken `chain` from a bucket. Its tasks have been scheduled, with the versions
`made`, and those that are `gone` have been unscheduled; no one else has their slots. -/
structure Taken (start : State τ) (chain : List Slot) (made : Slot → Version)
    (gone : Slot → Bool) : Prop where
  head : ∃ p, start.timer = .visit p ∧ Path (fun q => (start.task q).next) p chain
  taskId : ∀ p ∈ chain, (start.task p).taskId = makeTaskId p (made p)
  version : ∀ p ∈ chain, (start.task p).version = if gone p then made p + 2 else made p
  allocated : ∀ p ∈ chain, start.allocated p = true
  apart : ∀ t, ∀ p ∈ chain, (start.pc t).holds ≠ some p

/-- Other threads do no more than schedule. -/
def Action.schedules : Action τ → Bool
  | .unschedule _ => false
  | _ => true

/-- The loop reads the version from a task's id that was packed into it, the slot when it gives
that back, and the `next` that the task had in the chain. -/
def intact (start : State τ) (made : Slot → Version) (s : State τ) : Action τ → Bool
  | .timer =>
    match s.timer with
    | .visit (some p) => s.idVersion p = made p
    | .tryReturn .chain p => slotOfTaskId (s.task p).taskId = p
    | .advance p => (s.task p).next = (start.task p).next
    | _ => true
  | _ => true

/-- The tasks of the chain are visited in order and once, pushed unless they were unscheduled,
given back if they were, and no other task is; and the loop comes to its end. -/
structure Handled [DecidableEq τ] (chain : List Slot) (gone : Slot → Bool) (s : State τ)
    (w : Walk) : Prop where
  nodup : chain.Nodup
  visited : w.visited <+: chain
  pushed : w.pushed <+: chain.filter fun p => !gone p
  returned : w.returned <+: chain.filter gone
  ended : s.timer.walking = false → w.visited = chain ∧
    w.pushed = (chain.filter fun p => !gone p) ∧ w.returned = chain.filter gone
  steps : w.steps ≤ 6 * chain.length + 1
  goesOn : s.timer.walking = true → ∃ a : Action τ, a.run = true ∧ (s.act a).isSome = true

/-- Where the loop stands: it is done with the tasks `done` and has yet to deal with `rest`. -/
def Stands (start : State τ) (made : Slot → Version) (gone : Slot → Bool) (done rest : List Slot)
    (visited : List Slot) : TimerPc → Prop
  | .visit q => visited = done ∧ Path (fun q => (start.task q).next) q rest
  | .tryLoad .chain p v => visited = done ++ [p] ∧ rest.head? = some p ∧ v = made p
  | .tryCheck .chain p v => visited = done ++ [p] ∧ rest.head? = some p ∧ v = made p ∧ gone p = true
  | .tryReturn .chain p => visited = done ++ [p] ∧ rest.head? = some p ∧ gone p = true
  | .push p => visited = done ++ [p] ∧ rest.head? = some p ∧ gone p = false
  | .advance p => visited = done ∧ Path (fun q => (start.task q).next) (start.task p).next rest
  | _ => visited = done ∧ rest = []

/-- A bound on the steps that the loop has yet to take. -/
def stepsLeft (rest : List Slot) : TimerPc → ℕ
  | .visit _ => 6 * rest.length + 1
  | .tryLoad .chain _ _ => 6 * rest.length
  | .tryCheck .chain _ _ | .push _ => 6 * rest.length - 1
  | .tryReturn .chain _ => 6 * rest.length - 2
  | .advance _ => 6 * rest.length + 2
  | _ => 0

structure Progress (start : State τ) (made : Slot → Version) (gone : Slot → Bool)
    (done rest : List Slot) (s : State τ) (w : Walk) : Prop where
  task : ∀ p ∈ rest, s.task p = start.task p
  allocated : ∀ p ∈ rest, s.allocated p = true
  apart : ∀ t, ∀ p ∈ rest, (s.pc t).holds ≠ some p
  pushed : w.pushed = done.filter fun p => !gone p
  returned : w.returned = done.filter gone
  stands : Stands start made gone done rest w.visited s.timer
  steps : w.steps + stepsLeft rest s.timer ≤ 6 * (done ++ rest).length + 1

variable {start s s' : State τ} {chain done rest : List Slot} {made : Slot → Version}
  {gone : Slot → Bool} {w : Walk} {timer : TimerPc} {t : τ} {p : Slot}

theorem stands_over {visited : List Slot} (ended : timer.walking = false) :
    Stands start made gone done rest visited timer ↔ visited = done ∧ rest = [] := by
  cases timer with
  | tryLoad site p v => cases site <;> first | exact Iff.rfl | cases ended
  | tryCheck site p v => cases site <;> first | exact Iff.rfl | cases ended
  | tryReturn site p => cases site <;> first | exact Iff.rfl | cases ended
  | _ => first | exact Iff.rfl | cases ended

theorem stepsLeft_over (ended : timer.walking = false) : stepsLeft rest timer = 0 := by
  cases timer with
  | tryLoad site p v => cases site <;> first | rfl | cases ended
  | tryCheck site p v => cases site <;> first | rfl | cases ended
  | tryReturn site p => cases site <;> first | rfl | cases ended
  | _ => first | rfl | cases ended

theorem Walk.note_over {a : Action τ} (ended : s.timer.walking = false) :
    Walk.note s a s' w = w := if_neg fun both => by
  rw [ended] at both
  cases both.2

theorem arrange_over {tasks : List Slot} (ended : s.timer.walking = false)
    (next : s.arrange tasks = some s') : s'.timer.walking = false := by
  obtain ⟨-, ⟨p, here, -, -⟩ | ⟨-, -, rfl⟩ | ⟨p, -, -, rfl⟩⟩ := State.arrange_cases next
  · rw [here] at ended
    cases ended
  · rfl
  · rfl

theorem stepTimer_over (ended : s.timer.walking = false) (next : s.stepTimer = some s') :
    s'.timer.walking = false := by
  cases here : s.timer <;> rw [here] at ended
  case visit q => cases ended
  case push p => cases ended
  case advance p => cases ended
  all_goals simp only [State.stepTimer, here] at next
  case tryLoad site p v =>
    cases site with
    | chain => cases ended
    | heap =>
      obtain rfl := Option.some.inj next
      change (if _ then _ else _ : TimerPc).walking = false
      split_ifs <;> rfl
  case tryCheck site p v =>
    cases site with
    | chain => cases ended
    | heap =>
      obtain rfl := Option.some.inj next
      change (if _ then _ else _ : TimerPc).walking = false
      split_ifs <;> rfl
  case tryReturn site p =>
    cases site with
    | chain => cases ended
    | heap =>
      obtain rfl := Option.some.inj next
      rfl
  case drain => split at next <;> obtain rfl := Option.some.inj next <;> rfl
  case runCas p v => split_ifs at next <;> obtain rfl := Option.some.inj next <;> rfl
  case runCall p v => cases next; rfl
  case runStore p v => cases next; rfl
  case runReturn p => cases next; rfl
  all_goals cases next

theorem readClock_over {now : Int} (next : s.readClock now = some s') :
    s.timer.walking = false ∧ s'.timer.walking = false := by
  obtain ⟨p, here, rfl⟩ := State.readClock_due next
  refine ⟨by rw [here]; rfl, ?_⟩
  change (if _ then _ else _ : TimerPc).walking = false
  split_ifs <;> rfl

namespace Progress

/-- A step that leaves the rest of the chain alone. -/
theorem frame (h : Progress start made gone done rest s w) (timer : s'.timer = s.timer)
    (task : ∀ p ∈ rest, s'.task p = s.task p) (allocated : ∀ p ∈ rest, s'.allocated p = true)
    (apart : ∀ t, ∀ p ∈ rest, (s'.pc t).holds ≠ some p) :
    Progress start made gone done rest s' w := by
  refine ⟨fun p hp => (task p hp).trans (h.task p hp), allocated, apart, h.pushed, h.returned,
    ?_, ?_⟩
  · rw [timer]
    exact h.stands
  · rw [timer]
    exact h.steps

variable [DecidableEq τ] {pc : Pc}

/-- A `schedule` call goes on with the slot it holds. -/
theorem work (h : Progress start made gone done rest s w) (mine : (s.pc t).holds = some p)
    (turn : s'.pc = Function.update s.pc t pc) (holds : ∀ q, pc.holds = some q → q = p)
    (timer : s'.timer = s.timer) (allocated : s'.allocated = s.allocated)
    (task : ∀ q, q ≠ p → s'.task q = s.task q) : Progress start made gone done rest s' w := by
  have away (q : Slot) (hq : q ∈ rest) : q ≠ p := by
    rintro rfl
    exact h.apart t q hq mine
  refine h.frame timer (fun q hq => task q (away q hq)) (fun q hq => ?_) fun u q hq => ?_
  · rw [allocated]
    exact h.allocated q hq
  · rw [turn]
    by_cases same : u = t
    · rw [same, Function.update_self]
      exact fun held => away q hq (holds q held)
    · rw [Function.update_of_ne same]
      exact h.apart u q hq

theorem stepThread (h : Progress start made gone done rest s w)
    (next : s.stepThread t = some s') : Progress start made gone done rest s' w := by
  have same {p : Slot} {q : Slot} (held : some p = some q) : q = p := (Option.some.inj held).symm
  cases here : s.pc t <;> simp only [State.stepThread, here] at next
  case idle => cases next
  all_goals have mine := congrArg Pc.holds here; obtain rfl := Option.some.inj next
  case write b p r =>
    exact h.work mine rfl (fun q => same) rfl rfl fun _ apart => Function.update_of_ne apart _ _
  case add b p =>
    exact h.work mine rfl (fun q => same) rfl rfl fun _ apart => Function.update_of_ne apart _ _
  case load b p => exact h.work mine rfl (fun q => same) rfl rfl fun _ _ => rfl
  case make b p v =>
    exact h.work mine rfl (fun q => same) rfl rfl fun _ apart => Function.update_of_ne apart _ _
  case link b p =>
    exact h.work mine rfl (by rintro q ⟨⟩) rfl rfl fun _ apart => Function.update_of_ne apart _ _

theorem schedule (h : Progress start made gone done rest s w) {b : ℕ} {r : Int}
    (next : s.act (.schedule t b p r) = some s') : Progress start made gone done rest s' w := by
  simp only [State.act] at next
  split_ifs at next with ready
  obtain rfl := Option.some.inj next
  have away (q : Slot) (hq : q ∈ rest) : q ≠ p := by
    rintro rfl
    cases ready.2.symm.trans (h.allocated q hq)
  refine h.frame rfl (fun _ _ => rfl) (fun q hq => ?_) fun u q hq => ?_
  · exact (Function.update_of_ne (away q hq) _ _).trans (h.allocated q hq)
  · change (Function.update s.pc t _ u).holds ≠ some q
    by_cases same : u = t
    · rw [same, Function.update_self]
      exact fun held => away q hq (Option.some.inj held).symm
    · rw [Function.update_of_ne same]
      exact h.apart u q hq

end Progress

theorem Walk.note_walking [DecidableEq τ] {a : Action τ} (run : a.run = true)
    (walking : s.timer.walking = true) : Walk.note s a s' w =
      match s.timer with
      | .visit (some p) => { w.tick with visited := w.visited ++ [p] }
      | .push p => { w.tick with pushed := w.pushed ++ [p] }
      | .tryReturn _ p => { w.tick with returned := w.returned ++ [slotOfTaskId (s.task p).taskId] }
      | _ => w.tick := if_pos ⟨run, walking⟩

namespace Progress

/-- The timer thread moves on within one task. -/
theorem turn (h : Progress start made gone done rest s w) {w' : Walk}
    (pushed : w'.pushed = w.pushed) (returned : w'.returned = w.returned)
    (steps : w'.steps = w.steps + 1)
    (stands : Stands start made gone done rest w'.visited timer)
    (less : stepsLeft rest timer < stepsLeft rest s.timer) :
    Progress start made gone done rest (s.toTimer timer) w' := by
  refine ⟨h.task, h.allocated, h.apart, pushed.trans h.pushed, returned.trans h.returned, stands,
    ?_⟩
  have bound := h.steps
  rw [steps]
  change w.steps + 1 + stepsLeft rest timer ≤ _
  omega

/-- The timer thread is done with a task. -/
theorem finish (h : Progress start made gone done (p :: rest) s w) {w' : Walk}
    (path : Path (fun q => (start.task q).next) (start.task p).next rest)
    (task : s'.task = s.task) (pc : s'.pc = s.pc)
    (allocated : ∀ q ∈ rest, s'.allocated q = s.allocated q) (timer : s'.timer = .advance p)
    (visited : w'.visited = done ++ [p])
    (pushed : w'.pushed = w.pushed ++ [p].filter fun q => !gone q)
    (returned : w'.returned = w.returned ++ [p].filter gone) (steps : w'.steps = w.steps + 1)
    (left : 6 * rest.length + 3 ≤ stepsLeft (p :: rest) s.timer) :
    Progress start made gone (done ++ [p]) rest s' w' := by
  refine ⟨fun q hq => ?_, fun q hq => ?_, fun t q hq => ?_, ?_, ?_, ?_, ?_⟩
  · rw [task]
    exact h.task q (List.mem_cons_of_mem p hq)
  · rw [allocated q hq]
    exact h.allocated q (List.mem_cons_of_mem p hq)
  · rw [pc]
    exact h.apart t q (List.mem_cons_of_mem p hq)
  · rw [pushed, h.pushed, List.filter_append]
  · rw [returned, h.returned, List.filter_append]
  · rw [timer]
    exact ⟨visited, path⟩
  · have bound := h.steps
    rw [timer, steps, List.append_assoc]
    change w.steps + 1 + (6 * rest.length + 2) ≤ 6 * (done ++ p :: rest).length + 1
    omega

end Progress

theorem Taken.path (taken : Taken start (done ++ p :: rest) made gone) :
    Path (fun q => (start.task q).next) (start.task p).next rest := by
  obtain ⟨head, -, path⟩ := taken.head
  exact path.drop

theorem Taken.nodup (taken : Taken start chain made gone) : chain.Nodup := by
  obtain ⟨head, -, path⟩ := taken.head
  exact path.nodup

theorem Progress.stepTimer [DecidableEq τ] (h : Progress start made gone done rest s w)
    (taken : Taken start (done ++ rest) made gone) (walking : s.timer.walking = true)
    (kept : intact start made s .timer = true) (next : s.stepTimer = some s') :
    ∃ done' rest', done' ++ rest' = done ++ rest ∧
      Progress start made gone done' rest' s' (Walk.note s (.timer : Action τ) s' w) := by
  rw [Walk.note_walking rfl walking]
  have stands := h.stands
  cases here : s.timer <;> rw [here] at stands walking
  case visit q =>
    cases q with
    | none =>
      simp only [State.stepTimer, here, Option.some.injEq] at next
      subst next
      obtain ⟨visited, path⟩ := stands
      obtain rfl := path.eq_nil
      exact ⟨done, [], rfl, h.turn rfl rfl rfl ⟨visited, rfl⟩ (by rw [here]; exact Nat.zero_lt_one)⟩
    | some p =>
      simp only [State.stepTimer, here, Option.some.injEq] at next
      simp only [intact, here, decide_eq_true_eq] at kept
      subst next
      obtain ⟨visited, path⟩ := stands
      obtain ⟨tail, rfl, -⟩ := path.of_some
      refine ⟨done, p :: tail, rfl, h.turn rfl rfl rfl ⟨?_, rfl, kept⟩ ?_⟩
      · rw [visited]
      · rw [here]
        exact Nat.lt_succ_self _
  case advance p =>
    simp only [State.stepTimer, here, Option.some.injEq] at next
    simp only [intact, here, decide_eq_true_eq] at kept
    subst next
    obtain ⟨visited, path⟩ := stands
    refine ⟨done, rest, rfl, h.turn rfl rfl rfl ⟨visited, ?_⟩ ?_⟩
    · rw [kept]
      exact path
    · rw [here]
      exact Nat.lt_succ_self _
  case tryLoad site p v =>
    cases site with
    | heap => cases walking
    | chain =>
      simp only [State.stepTimer, here, Option.some.injEq] at next
      subst next
      obtain ⟨visited, front, rfl⟩ := stands
      obtain ⟨tail, rfl⟩ := List.head?_eq_some_iff.mp front
      have version := taken.version p (List.mem_append_right _ List.mem_cons_self)
      rw [← congrArg Task.version (h.task p List.mem_cons_self)] at version
      refine ⟨done, p :: tail, rfl, ?_⟩
      cases was : gone p with
      | true =>
        rw [was, if_pos rfl] at version
        have other : (s.task p).version ≠ made p := by
          rw [version]
          exact add_two_ne (made p)
        rw [if_pos other]
        refine h.turn rfl rfl rfl ⟨visited, rfl, rfl, was⟩ ?_
        rw [here]
        exact Nat.sub_lt (Nat.succ_pos _) Nat.one_pos
      | false =>
        rw [was, if_neg Bool.false_ne_true] at version
        rw [if_neg (not_not.mpr version)]
        refine h.turn rfl rfl rfl ⟨visited, rfl, was⟩ ?_
        rw [here]
        exact Nat.sub_lt (Nat.succ_pos _) Nat.one_pos
  case tryCheck site p v =>
    cases site with
    | heap => cases walking
    | chain =>
      simp only [State.stepTimer, here, Option.some.injEq] at next
      subst next
      obtain ⟨visited, front, rfl, was⟩ := stands
      obtain ⟨tail, rfl⟩ := List.head?_eq_some_iff.mp front
      have version := taken.version p (List.mem_append_right _ List.mem_cons_self)
      rw [was, if_pos rfl, ← congrArg Task.version (h.task p List.mem_cons_self)] at version
      rw [if_pos version]
      refine ⟨done, p :: tail, rfl, h.turn rfl rfl rfl ⟨visited, rfl, was⟩ ?_⟩
      rw [here]
      change 6 * (tail.length + 1) - 2 < 6 * (tail.length + 1) - 1
      omega
  case tryReturn site p =>
    cases site with
    | heap => cases walking
    | chain =>
      simp only [State.stepTimer, here, Option.some.injEq] at next
      simp only [intact, here, decide_eq_true_eq] at kept
      subst next
      obtain ⟨visited, front, was⟩ := stands
      obtain ⟨tail, rfl⟩ := List.head?_eq_some_iff.mp front
      refine ⟨done ++ [p], tail, (List.append_cons done p tail).symm, ?_⟩
      refine h.finish taken.path rfl rfl (fun q hq => ?_) rfl visited ?_ ?_ rfl ?_
      · change Function.update s.allocated (slotOfTaskId (s.task p).taskId) false q = s.allocated q
        rw [kept, Function.update_of_ne]
        rintro rfl
        exact (List.nodup_cons.mp (List.nodup_append.mp taken.nodup).2.1).1 hq
      · simp [was, Walk.tick]
      · simp [was, kept]
      · rw [here]
        change 6 * tail.length + 3 ≤ 6 * (tail.length + 1) - 2
        omega
  case push p =>
    simp only [State.stepTimer, here] at next
    cases next
  all_goals cases walking

theorem Progress.arrange [DecidableEq τ] (h : Progress start made gone done rest s w)
    (taken : Taken start (done ++ rest) made gone) (walking : s.timer.walking = true)
    {tasks : List Slot} (next : s.arrange tasks = some s') :
    ∃ done' rest', done' ++ rest' = done ++ rest ∧
      Progress start made gone done' rest' s' (Walk.note s (.arrange tasks : Action τ) s' w) := by
  rw [Walk.note_walking rfl walking]
  have stands := h.stands
  obtain ⟨-, ⟨p, here, -, rfl⟩ | ⟨here, -, -⟩ | ⟨p, here, -, -⟩⟩ := State.arrange_cases next
  · rw [here] at stands ⊢
    obtain ⟨visited, front, was⟩ := stands
    obtain ⟨tail, rfl⟩ := List.head?_eq_some_iff.mp front
    refine ⟨done ++ [p], tail, (List.append_cons done p tail).symm, ?_⟩
    refine h.finish taken.path rfl rfl (fun _ _ => rfl) rfl visited ?_ ?_ rfl ?_
    · simp [was]
    · simp [was, Walk.tick]
    · rw [here]
      change 6 * tail.length + 3 ≤ 6 * (tail.length + 1) - 1
      omega
  · rw [here] at walking
    cases walking
  · rw [here] at walking
    cases walking

/-- Once the loop is over, it is. -/
theorem Progress.ended [DecidableEq τ] (h : Progress start made gone done rest s w)
    (ended : s.timer.walking = false) {a : Action τ} (ended' : s'.timer.walking = false) :
    Progress start made gone done rest s' (Walk.note s a s' w) := by
  obtain ⟨visited, rfl⟩ := (stands_over ended).mp h.stands
  have nothing {P : Slot → Prop} : ∀ q ∈ ([] : List Slot), P q := fun q hq => by cases hq
  have bound := h.steps
  rw [stepsLeft_over ended] at bound
  rw [Walk.note_over ended]
  refine ⟨nothing, nothing, fun _ => nothing, h.pushed, h.returned,
    (stands_over ended').mpr ⟨visited, rfl⟩, ?_⟩
  rwa [stepsLeft_over ended']

theorem Progress.act [DecidableEq τ] (h : Progress start made gone done rest s w)
    (taken : Taken start (done ++ rest) made gone) {a : Action τ} (only : a.schedules = true)
    (kept : intact start made s a = true) (next : s.act a = some s') :
    ∃ done' rest', done' ++ rest' = done ++ rest ∧
      Progress start made gone done' rest' s' (Walk.note s a s' w) := by
  cases walking : s.timer.walking with
  | true =>
    cases a with
    | schedule t b p r => exact ⟨done, rest, rfl, h.schedule next⟩
    | unschedule id => cases only
    | step t => exact ⟨done, rest, rfl, h.stepThread next⟩
    | timer => exact h.stepTimer taken walking kept next
    | arrange tasks => exact h.arrange taken walking next
    | clock now => cases walking.symm.trans (readClock_over next).1
  | false =>
    cases a with
    | schedule t b p r => exact ⟨done, rest, rfl, h.schedule next⟩
    | unschedule id => cases only
    | step t => exact ⟨done, rest, rfl, h.stepThread next⟩
    | timer => exact ⟨done, rest, rfl, h.ended walking (stepTimer_over walking next)⟩
    | arrange tasks => exact ⟨done, rest, rfl, h.ended walking (arrange_over walking next)⟩
    | clock now => exact ⟨done, rest, rfl, h.ended walking (readClock_over next).2⟩

theorem goes_on [DecidableEq τ] (walking : s.timer.walking = true) :
    ∃ a : Action τ, a.run = true ∧ (s.act a).isSome = true := by
  cases here : s.timer <;> rw [here] at walking
  case push p =>
    obtain ⟨tasks, perm, heap⟩ := s.exists_arrange (p :: s.tasks)
    refine ⟨.arrange tasks, rfl, ?_⟩
    simp only [State.act, State.arrange, here, if_pos (And.intro perm heap), Option.isSome_some]
  case visit q =>
    refine ⟨.timer, rfl, ?_⟩
    cases q <;> simp only [State.act, State.stepTimer, here, Option.isSome_some]
  case advance | tryLoad | tryCheck | tryReturn =>
    refine ⟨.timer, rfl, ?_⟩
    simp only [State.act, State.stepTimer, here, Option.isSome_some]
  all_goals cases walking

theorem Progress.visited (h : Progress start made gone done rest s w) :
    w.visited <+: done ++ rest := by
  have stands := h.stands
  have more {p : Slot} (visited : w.visited = done ++ [p]) (front : rest.head? = some p) :
      w.visited <+: done ++ rest := by
    obtain ⟨tail, rfl⟩ := List.head?_eq_some_iff.mp front
    exact ⟨tail, by rw [visited, List.append_assoc, List.singleton_append]⟩
  cases here : s.timer <;> rw [here] at stands
  case push p => exact more stands.1 stands.2.1
  case tryLoad site p v =>
    cases site with
    | chain => exact more stands.1 stands.2.1
    | heap => exact ⟨rest, congrArg (· ++ rest) stands.1⟩
  case tryCheck site p v =>
    cases site with
    | chain => exact more stands.1 stands.2.1
    | heap => exact ⟨rest, congrArg (· ++ rest) stands.1⟩
  case tryReturn site p =>
    cases site with
    | chain => exact more stands.1 stands.2.1
    | heap => exact ⟨rest, congrArg (· ++ rest) stands.1⟩
  all_goals exact ⟨rest, congrArg (· ++ rest) stands.1⟩

theorem Taken.begin (taken : Taken start chain made gone) :
    Progress start made gone [] chain start (Walk.start start) := by
  obtain ⟨head, here, path⟩ := taken.head
  refine ⟨fun _ _ => rfl, taken.allocated, taken.apart, rfl, rfl, ?_, ?_⟩
  · rw [here]
    exact ⟨rfl, path⟩
  · rw [here]
    exact (Nat.zero_add _).le

theorem progress_reachable [DecidableEq τ] (taken : Taken start chain made gone)
    {p : State τ × Walk} (h : (walkMachine start).ReachableBy
      (fun p a => a.schedules && intact start made p.1 a) p) :
    ∃ done rest, done ++ rest = chain ∧ Progress start made gone done rest p.1 p.2 := by
  refine h.recorded_invariant (fun s w => ∃ done rest, done ++ rest = chain ∧
    Progress start made gone done rest s w) (fun s begins => ?_) fun s a s' w before kept next => ?_
  · obtain rfl : s = start := begins
    exact ⟨[], chain, rfl, taken.begin⟩
  · obtain ⟨done, rest, rfl, progress⟩ := before
    obtain ⟨only, kept⟩ := Bool.and_eq_true_iff.mp kept
    exact progress.act taken only kept next

theorem Progress.handled [DecidableEq τ] (h : Progress start made gone done rest s w)
    (taken : Taken start (done ++ rest) made gone) : Handled (done ++ rest) gone s w := by
  refine ⟨taken.nodup, h.visited, ?_, ?_, fun ended => ?_, ?_, goes_on⟩
  · rw [h.pushed, List.filter_append]
    exact List.prefix_append _ _
  · rw [h.returned, List.filter_append]
    exact List.prefix_append _ _
  · obtain ⟨visited, rfl⟩ := (stands_over ended).mp h.stands
    rw [List.append_nil]
    exact ⟨visited, h.pushed, h.returned⟩
  · exact (Nat.le_add_right _ _).trans h.steps

/-- In every run in which the ids read back, and `schedule` calls leave the link of a task alone
until the loop has read it, the loop handles the chain. -/
theorem chain_handled [DecidableEq τ] (taken : Taken start chain made gone) {p : State τ × Walk}
    (h : (walkMachine start).ReachableBy
      (fun p a => a.schedules && intact start made p.1 a) p) : Handled chain gone p.1 p.2 := by
  obtain ⟨done, rest, rfl, progress⟩ := progress_reachable taken h
  exact progress.handled taken

/-- Two tasks in the chain, of which the first has been unscheduled. -/
def oneGone : State (Fin 1) where
  task p :=
    if p = 1 then { next := some 2, runTime := 10, taskId := makeTaskId 1 4, version := 6 }
    else { next := none, runTime := 20, taskId := makeTaskId 2 4, version := 4 }
  allocated p := p = 1 ∨ p = 2
  head _ := none
  tasks := []
  pc _ := .idle
  timer := .visit (some 1)

theorem oneGone_taken : Taken oneGone [1, 2] (fun _ => 4) (· = 1) where
  head := ⟨some 1, rfl, by simp [oneGone]⟩
  taskId p hp := by
    rcases List.mem_pair.mp hp with rfl | rfl
    · rfl
    · rfl
  version p hp := by
    rcases List.mem_pair.mp hp with rfl | rfl
    · rfl
    · rfl
  allocated p hp := by
    rcases List.mem_pair.mp hp with rfl | rfl
    · rfl
    · rfl
  apart := by rintro t p - ⟨⟩

/-- The slot is handed out again after its link has been read. -/
theorem chain_handled_reused : ∃ p : State (Fin 1) × Walk, p.1.timer = .drain ∧
    p.1.allocated 1 = true ∧ p.2.visited = [1, 2] ∧ p.2.pushed = [2] ∧ p.2.returned = [1] := by
  have ran : ((walkMachine oneGone).runBy
      (fun p a => a.schedules && intact oneGone (fun _ => 4) p.1 a) (oneGone, Walk.start oneGone)
      (List.replicate 5 .timer ++ [.schedule 0 0 1 50, .step 0] ++ List.replicate 2 .timer ++
        [.arrange [2], .timer, .timer])).map (fun p => (p.1.timer, p.1.allocated 1)) =
      some (.drain, true) := by decide +kernel
  obtain ⟨p, run, seen⟩ := Option.map_eq_some_iff.mp ran
  obtain ⟨ended, again⟩ := Prod.mk.inj seen
  have handled := chain_handled oneGone_taken
    (Machine.runBy_reachable (.init (walk_begins oneGone)) run)
  obtain ⟨visited, pushed, returned⟩ := handled.ended (by rw [ended]; rfl)
  exact ⟨p, ended, again, visited, pushed, returned⟩

/-- The slot is handed out again before: the second task is never visited. -/
theorem task_skipped : Taken oneGone [1, 2] (fun _ => 4) (· = 1) ∧
    ¬ ∀ p, (walkMachine oneGone).ReachableBy (fun _ a => a.schedules) p →
      Handled [1, 2] (· = 1) p.1 p.2 := by
  refine ⟨oneGone_taken, fun always => ?_⟩
  have ran : ((walkMachine oneGone).runBy (fun _ a => a.schedules) (oneGone, Walk.start oneGone)
      (List.replicate 4 .timer ++ [.schedule 0 0 1 50, .step 0, .timer, .timer])).map
      (fun p => (p.1.timer, p.2.visited)) = some (.drain, [1]) := by decide +kernel
  obtain ⟨p, run, seen⟩ := Option.map_eq_some_iff.mp ran
  obtain ⟨ended, visited⟩ := Prod.mk.inj seen
  have handled := always p (Machine.runBy_reachable (.init (walk_begins oneGone)) run)
  have all := (handled.ended (by rw [ended]; rfl)).1
  rw [visited] at all
  cases all

/-- The link that the loop reads is the one that the task had in the chain. -/
def linked (start s : State τ) : Action τ → Bool
  | .timer =>
    match s.timer with
    | .advance p => (s.task p).next = (start.task p).next
    | _ => true
  | _ => true

/-- Ids of slots that fit in their half read back. -/
theorem Progress.intact_of_fits (h : Progress start made gone done rest s w)
    (taken : Taken start (done ++ rest) made gone) (fits : ∀ p ∈ done ++ rest, Fits p)
    {a : Action τ} (link : linked start s a = true) : intact start made s a = true := by
  have reads (p : Slot) (hp : p ∈ rest) :
      s.idVersion p = made p ∧ slotOfTaskId (s.task p).taskId = p := by
    have there := List.mem_append_right done hp
    rw [State.idVersion, h.task p hp, taken.taskId p there]
    exact ⟨versionOfTaskId_makeTaskId (fits p there) _, slotOfTaskId_makeTaskId (fits p there) _⟩
  have stands := h.stands
  cases a with
  | timer =>
    cases here : s.timer <;> rw [here] at stands <;> simp only [linked, here] at link
    case visit q =>
      cases q with
      | none => simp only [intact, here]
      | some p =>
        obtain ⟨tail, rfl, -⟩ := stands.2.of_some
        simp only [intact, here, decide_eq_true_eq]
        exact (reads p List.mem_cons_self).1
    case tryReturn site p =>
      cases site with
      | heap => simp only [intact, here]
      | chain =>
        obtain ⟨tail, rfl⟩ := List.head?_eq_some_iff.mp stands.2.1
        simp only [intact, here, decide_eq_true_eq]
        exact (reads p List.mem_cons_self).2
    case advance p => simpa only [intact, here] using link
    all_goals simp only [intact, here]
  | _ => rfl

/-- For slots below `2 ^ 32` it is the links alone that matter. -/
theorem chain_handled_of_fits [DecidableEq τ] (taken : Taken start chain made gone)
    (fits : ∀ p ∈ chain, Fits p) {p : State τ × Walk}
    (h : (walkMachine start).ReachableBy (fun p a => a.schedules && linked start p.1 a) p) :
    Handled chain gone p.1 p.2 := by
  have reads : (walkMachine start).ReachableBy
      (fun p a => a.schedules && intact start made p.1 a) p := by
    refine h.strengthen fun p reached a link => ?_
    obtain ⟨done, rest, rfl, progress⟩ := progress_reachable taken reached
    obtain ⟨only, link⟩ := Bool.and_eq_true_iff.mp link
    exact Bool.and_eq_true_iff.mpr ⟨only, progress.intact_of_fits taken fits link⟩
  obtain ⟨done, rest, rfl, progress⟩ := progress_reachable taken reads
  exact progress.handled taken

end Codelab.TimerRun
