import Codelab.LinkedQueueFresh
import Codelab.Theory.Progress

/-! The calls of the queues that move a lagging `tail_` on come to their ends whichever threads go
on. A call begins an iteration again only because another one has linked a node, moved `tail_` or
moved `head_` meanwhile, and there are only so many of these changes for the calls in progress. -/

namespace Codelab.LinkedQueue

open Chain Census Machine

/-- The changes that a call is going to make: a push links its node, behind which `tail_` then has
to come, and a pop moves `head_`. -/
def Pc.changes {α δ : Type*} : Pc α δ → ℕ
  | .pushLoadTail _ | .pushLoadNext .. | .pushCasNext .. | .pushHelp .. => 2
  | .popLoadHead | .popLoadNext _ | .popLoadTail .. | .popHelp .. | .popCasHead .. => 1
  | _ => 0

/-- The steps to the end of the iteration, or of the call if the iteration is its last. -/
def Pc.left {α δ : Type*} : Pc α δ → ℕ
  | .pushLoadTail _ | .popLoadHead => 4
  | .pushLoadNext .. | .popLoadNext _ => 3
  | .pushCasNext .. | .pushHelp .. | .popLoadTail .. | .popRead _ => 2
  | .pushCasTail .. | .popHelp .. | .popCasHead .. | .popDelete .. => 1
  | .idle | .pushed | .popped _ => 0

/-- The next step reads through a `head_` that has become null. -/
def Pc.atNull {α δ : Type*} : Pc α δ → Bool
  | .popLoadNext oldHead | .popCasHead oldHead _ => oldHead.ptr.isNone
  | _ => false

/-- A call in progress goes on, and no compare-and-swap fails without a reason. -/
def Action.goesOn {α δ τ : Type*} : Action α δ τ → Bool
  | .step _ spurious => !spurious
  | _ => false

variable {α δ τ : Type*} [DecidableEq α] [DecidableEq τ] {v : Variant} {dummyData : Option δ}
  {s s' : State α δ τ} {past : Past α τ} {t : τ} {pc : Pc α δ} {gone rest back : List α}

namespace State

/-- What the iteration has read is no longer there. -/
def stale (s : State α δ τ) : Pc α δ → Bool
  | .pushLoadNext _ oldTail | .pushHelp _ oldTail _ | .popHelp _ _ oldTail => s.tail ≠ oldTail
  | .pushCasNext _ oldTail oldTailNext => oldTail.ptr.map s.next ≠ some oldTailNext
  | .popLoadNext oldHead | .popLoadTail oldHead _ | .popCasHead oldHead _ => s.head ≠ oldHead
  | _ => false

/-- An iteration that is out of date is followed by another one. -/
def cost (s : State α δ τ) (pc : Pc α δ) : ℕ := pc.left + if s.stale pc then 4 else 0

/-- Whether there is a node behind `tail_`. -/
def lag (s : State α δ τ) : ℕ := if s.tail.ptr.bind s.link = none then 0 else 1

def changes [Fintype τ] (s : State α δ τ) : ℕ := census s.pc Pc.changes + s.lag

def budget [Fintype τ] (s : State α δ τ) : ℕ := Machine.budget 7 s.changes s.pc s.cost

omit [DecidableEq τ] in
theorem cost_le (s : State α δ τ) (pc : Pc α δ) : s.cost pc ≤ 7 := by
  unfold cost
  split_ifs with stale
  · cases pc <;> first | cases stale | simp [Pc.left]
  · cases pc <;> simp [Pc.left]

omit [DecidableEq α] [DecidableEq τ] in
theorem lag_le : s.lag ≤ 1 := by
  unfold lag
  split_ifs <;> omega

omit [DecidableEq τ] in
theorem casTail_next (s : State α δ τ) (oldTail newTail : TagPtr α) :
    (s.casTail oldTail newTail).next = s.next := by
  unfold casTail
  split_ifs <;> rfl

variable [Fintype τ]

/-- A step that leaves the words of the others alone. -/
theorem budget_work (moved : s'.pc = Function.update s.pc t pc) (head : s'.head = s.head)
    (tail : s'.tail = s.tail) (next : s'.next = s.next) (few : pc.changes ≤ (s.pc t).changes)
    (less : s.cost pc < s.cost (s.pc t)) : s'.budget < s.budget := by
  have stale : s'.stale = s.stale := by
    funext pc
    cases pc <;> simp only [State.stale, head, tail, next]
  have cost : s'.cost = s.cost := by
    funext pc
    rw [State.cost, State.cost, stale]
  have lag : s'.lag = s.lag := by rw [State.lag, State.lag, tail, link_congr next]
  have count : census (Function.update s.pc t pc) Pc.changes + (s.pc t).changes = _ := census_update
  rw [State.budget, State.budget, State.changes, State.changes, moved, lag, cost]
  exact budget_lt_of_work (by omega) less

/-- A change of `head_` or `tail_` or the link of a node, after which others may have to begin
again. -/
theorem budget_change (moved : s'.pc = Function.update s.pc t pc)
    (less : pc.changes + s'.lag < (s.pc t).changes + s.lag) : s'.budget < s.budget := by
  have count : census (Function.update s.pc t pc) Pc.changes + (s.pc t).changes = _ := census_update
  refine budget_lt_of_change ?_ fun u => s'.cost_le (s'.pc u)
  rw [State.changes, State.changes, moved]
  omega

end State

omit [DecidableEq τ] in
/-- Where the compare-and-swap moves `tail_` there was a node behind it, and now there is none. -/
theorem Line.lag_casTail (line : Line s past gone rest back) {oldTail newTail : TagPtr α} {node : α}
    (follows : s.follows (gone ++ rest) oldTail node) (new : newTail.ptr = some node)
    (agree : s.tail = oldTail) : s.lag = 1 ∧ (s.casTail oldTail newTail).lag = 0 := by
  obtain ⟨x, -, ptr, link⟩ := follows
  have last : s.tail.ptr = some x := by rw [agree, ptr]
  have behind := line.shape.behind last
  rw [link] at behind
  obtain ⟨more, rfl, path⟩ := behind.of_some
  obtain rfl : more = [] := by
    have short := line.shape.short
    cases more with
    | nil => rfl
    | cons => simp at short
  refine ⟨?_, ?_⟩
  · rw [State.lag, last, Option.bind_some, link]
    rfl
  · have moved : s.casTail oldTail newTail =
        { s with tail := newTail, tailCount := s.tailCount + 1 } := if_pos agree
    have none : s.link node = none := path
    rw [moved, State.lag]
    dsimp only
    rw [new, Option.bind_some]
    exact if_pos none

variable [Fintype τ]

/-- A step with a compare-and-swap that moves `tail_` on if it is still what the thread has read. -/
theorem Line.budget_casTail (line : Line s past gone rest back) {oldTail newTail : TagPtr α}
    {node : α} (follows : s.follows (gone ++ rest) oldTail node) (new : newTail.ptr = some node)
    (moved : s'.pc = Function.update s.pc t pc) (head : s'.head = s.head)
    (tail : s'.tail = (s.casTail oldTail newTail).tail) (next : s'.next = s.next)
    (few : pc.changes ≤ (s.pc t).changes)
    (less : s.tail ≠ oldTail → s.cost pc < s.cost (s.pc t)) : s'.budget < s.budget := by
  by_cases agree : s.tail = oldTail
  · obtain ⟨one, zero⟩ := line.lag_casTail follows new agree
    have lag : s'.lag = (s.casTail oldTail newTail).lag := by
      rw [State.lag, State.lag, tail, State.link_congr next,
        State.link_congr (State.casTail_next ..)]
    exact State.budget_change moved (by omega)
  · have kept : s.casTail oldTail newTail = s := if_neg agree
    exact State.budget_work moved head (by rw [tail, kept]) next few (less agree)

/-- One case for each place: an iteration gets nearer to its end, makes its change, or begins again
out of date. -/
theorem Line.budget_step (line : Line s past gone rest back) (helps : v.helps = true)
    (next : s.step v t false = some s') : s'.budget < s.budget := by
  have known := line.known t
  cases here : s.pc t with
  | pushLoadTail newNode =>
    simp only [State.step, here] at next
    obtain rfl := Option.some.inj next
    refine State.budget_work rfl rfl rfl rfl (by rw [here]; rfl) ?_
    simp [here, State.cost, State.stale, Pc.left]
  | pushLoadNext newNode oldTail =>
    simp only [State.step, here] at next
    obtain ⟨x, ptr, next⟩ := Option.bind_eq_some_iff.mp next
    split_ifs at next with last <;> obtain rfl := Option.some.inj next
    · refine State.budget_work rfl rfl rfl rfl (by rw [here]; rfl) ?_
      simp only [here, State.cost, State.stale, Pc.left, ptr, Option.map_some, ne_eq,
        not_true_eq_false,
        decide_false, Bool.false_eq_true, if_false]
      omega
    · refine State.budget_work rfl rfl rfl rfl (by rw [here]; rfl) ?_
      rw [here]
      exact Nat.add_lt_add_right (show 2 < 3 by decide) _
  | pushCasNext newNode oldTail oldTailNext =>
    simp only [State.step, here] at next
    obtain ⟨x, ptr, next⟩ := Option.bind_eq_some_iff.mp next
    split_ifs at next with agree <;> obtain rfl := Option.some.inj next
    · refine State.budget_change rfl ?_
      rw [here]
      exact Nat.lt_of_le_of_lt (Nat.add_le_add_left State.lag_le _) (by simp [Pc.changes]; omega)
    · refine State.budget_work rfl rfl rfl rfl (by rw [here]; rfl) ?_
      have changed : s.next x ≠ oldTailNext := fun same => agree ⟨same, trivial⟩
      simp [here, State.cost, State.stale, Pc.left, ptr, changed]
  | pushCasTail newNode oldTail =>
    rw [here] at known
    simp only [State.step, here] at next
    obtain rfl := Option.some.inj next
    have moved : (((s.casTail oldTail ⟨some newNode, v.endTag oldTail⟩).goto t .pushed).ended
        .pushed).pc = Function.update s.pc t .pushed := by
      rw [State.ended, State.goto, State.casTail_pc]
    refine line.budget_casTail known rfl moved (State.casTail_head ..) rfl (State.casTail_next ..)
      (by rw [here]; rfl) fun changed => ?_
    simp [here, State.cost, State.stale, Pc.left]
  | pushHelp newNode oldTail oldTailNext =>
    rw [here] at known
    obtain ⟨node, ptr, follows⟩ := known
    simp only [State.step, here] at next
    obtain rfl := Option.some.inj next
    have new : (TagPtr.mk oldTailNext.ptr (v.endTag oldTail)).ptr = some node := ptr
    have moved : ((s.casTail oldTail ⟨oldTailNext.ptr, v.endTag oldTail⟩).goto t
        (.pushLoadTail newNode)).pc = Function.update s.pc t (.pushLoadTail newNode) := by
      rw [State.goto, State.casTail_pc]
    refine line.budget_casTail follows new moved (State.casTail_head ..) rfl (State.casTail_next ..)
      (by rw [here]; rfl) fun changed => ?_
    simp [here, State.cost, State.stale, Pc.left, changed]
  | popLoadHead =>
    simp only [State.step, here] at next
    obtain rfl := Option.some.inj next
    refine State.budget_work rfl rfl rfl rfl (by rw [here]; rfl) ?_
    simp [here, State.cost, State.stale, Pc.left]
  | popLoadNext oldHead =>
    simp only [State.step, here] at next
    obtain ⟨x, ptr, next⟩ := Option.bind_eq_some_iff.mp next
    obtain rfl := Option.some.inj next
    refine State.budget_work rfl rfl rfl rfl (by rw [here]; rfl) ?_
    rw [here]
    exact Nat.add_lt_add_right (show 2 < 3 by decide) _
  | popLoadTail oldHead oldHeadNext =>
    simp only [State.step, here] at next
    split_ifs at next with empty behind <;> obtain rfl := Option.some.inj next
    · refine State.budget_work rfl rfl rfl rfl (by rw [here]; rfl) ?_
      simp only [here, State.cost, State.stale, Pc.left, ne_eq, not_true_eq_false, decide_false,
        Bool.false_eq_true, if_false]
      omega
    · refine State.budget_work rfl rfl rfl rfl (by rw [here]; simp [Pc.changes]) ?_
      simp [here, State.cost, State.stale, Pc.left]
    · refine State.budget_work rfl rfl rfl rfl (by rw [here]; rfl) ?_
      rw [here]
      exact Nat.add_lt_add_right (show 1 < 2 by decide) _
  | popHelp oldHead oldHeadNext oldTail =>
    rw [here] at known
    obtain ⟨same, node, ptr, x, mem, first, link⟩ := known
    simp only [State.step, here] at next
    obtain rfl := Option.some.inj next
    have follows : s.follows (gone ++ rest) oldTail node := ⟨x, mem, same.trans first, link⟩
    have new : (TagPtr.mk oldHeadNext.ptr (v.endTag oldTail)).ptr = some node := ptr
    have moved : ((s.casTail oldTail ⟨oldHeadNext.ptr, v.endTag oldTail⟩).goto t .popLoadHead).pc =
        Function.update s.pc t .popLoadHead := by
      rw [State.goto, State.casTail_pc]
    refine line.budget_casTail follows new moved (State.casTail_head ..) rfl (State.casTail_next ..)
      (by rw [here]; rfl) fun changed => ?_
    simp [here, State.cost, State.stale, Pc.left, changed]
  | popCasHead oldHead oldHeadNext =>
    simp only [State.step, here] at next
    obtain ⟨x, ptr, next⟩ := Option.bind_eq_some_iff.mp next
    split_ifs at next with agree <;> obtain rfl := Option.some.inj next
    · refine State.budget_change rfl ?_
      rw [here]
      exact Nat.add_lt_add_right (show 0 < 1 by decide) s.lag
    · refine State.budget_work rfl rfl rfl rfl (by rw [here]; rfl) ?_
      have changed : s.head ≠ oldHead := fun same => agree ⟨same, trivial⟩
      simp [here, State.cost, State.stale, Pc.left, changed]
  | popRead oldHead =>
    simp only [State.step, here] at next
    obtain rfl := Option.some.inj next
    refine State.budget_work rfl rfl rfl rfl (by rw [here]; rfl) ?_
    simp [here, State.cost, State.stale, Pc.left]
  | popDelete oldHead ret =>
    simp only [State.step, here] at next
    obtain rfl := Option.some.inj next
    refine State.budget_work rfl rfl rfl rfl (by rw [here]; rfl) ?_
    simp [here, State.cost, State.stale, Pc.left]
  | idle | pushed | popped ret =>
    simp only [State.step, here] at next
    cases next

theorem finishes (helps : v.helps = true) :
    (machine v dummyData α τ).Finishes (fun _ a => a.goesOn)
      (fun s => ∃ past gone rest back, Line s past gone rest back)
      (fun s => ∀ t, (s.pc t).resting = true ∨ (s.pc t).atNull = true) State.budget where
  down s a s' h onward next := by
    obtain ⟨past, gone, rest, back, line⟩ := h
    cases a with
    | step t spurious =>
      obtain rfl : spurious = false := Bool.not_eq_true' _ |>.mp onward
      obtain ⟨gone', rest', back', line'⟩ := line.act (a := .step t false) trivial next
      exact ⟨⟨_, gone', rest', back', line'⟩, line.budget_step helps next⟩
    | _ => cases onward
  moves s h on := by
    obtain ⟨past, gone, rest, back, line⟩ := h
    obtain ⟨t, busy⟩ := not_forall.mp on
    refine ⟨.step t false, rfl, Option.ne_none_iff_exists'.mp fun stuck => busy ?_⟩
    have known := line.known t
    have stuck : s.step v t false = none := stuck
    cases here : s.pc t with
    | pushLoadNext newNode oldTail =>
      rw [here] at known
      obtain ⟨x, -, ptr⟩ := known
      simp only [State.step, here, ptr, Option.bind_some] at stuck
      split_ifs at stuck
    | pushCasNext newNode oldTail oldTailNext =>
      rw [here] at known
      obtain ⟨⟨x, -, ptr⟩, -⟩ := known
      simp only [State.step, here, ptr, Option.bind_some] at stuck
      split_ifs at stuck
    | popLoadNext oldHead =>
      cases ptr : oldHead.ptr with
      | none => exact .inr (by rw [Pc.atNull, ptr]; rfl)
      | some x =>
        simp only [State.step, here, ptr, Option.bind_some] at stuck
        cases stuck
    | popCasHead oldHead oldHeadNext =>
      cases ptr : oldHead.ptr with
      | none => exact .inr (by rw [Pc.atNull, ptr]; rfl)
      | some x =>
        simp only [State.step, here, ptr, Option.bind_some] at stuck
        split_ifs at stuck
    | popLoadTail oldHead oldHeadNext =>
      simp only [State.step, here] at stuck
      split_ifs at stuck
    | idle | pushed | popped => exact .inl rfl
    | _ =>
      simp only [State.step, here] at stuck
      cases stuck

/-- However the steps of the calls in progress interleave, and whichever threads stop on the way,
the calls take a bounded number of steps from any state of a queue of fresh nodes, and where none of
them can go on, each has returned or stands before a `head_` that has become null. -/
theorem queue_lockfree (helps : v.helps = true)
    (h : (recordedMachine v dummyData α τ).ReachableBy freshNodes (s, past))
    {as : List (Action α δ τ)}
    (run : (machine v dummyData α τ).runBy (fun _ a => a.goesOn) s as = some s') :
    as.length < (2 * Fintype.card τ + 2) * (7 * Fintype.card τ + 1) ∧
      ((∀ t, s'.step v t false = none) →
        ∀ t, (s'.pc t).resting = true ∨ (s'.pc t).atNull = true) := by
  obtain ⟨gone, rest, back, line⟩ := line_reachable h
  have start : ∃ past gone rest back, Line s past gone rest back := ⟨past, gone, rest, back, line⟩
  refine ⟨?_, fun stuck => ?_⟩
  · have paid := ((finishes helps).length_le start run).2
    have few : s.changes ≤ 2 * Fintype.card τ + 1 := by
      have each : census s.pc Pc.changes ≤ Fintype.card τ * 2 :=
        census_le_card fun t => by cases s.pc t <;> simp [Pc.changes]
      have lag := s.lag_le
      rw [State.changes]
      omega
    have bound := budget_lt few fun t => s.cost_le (s.pc t)
    rw [Nat.mul_comm 7]
    exact (Nat.le_of_add_right_le paid).trans_lt bound
  · refine (finishes helps).goal_of_stuck start run fun a onward => ?_
    cases a with
    | step t spurious =>
      obtain rfl : spurious = false := Bool.not_eq_true' _ |>.mp onward
      exact stuck t
    | _ => cases onward

/-- The first thread stops after the link of its node; the second one returns all the same. -/
theorem queue_lockfree_halted : ∃ s s' : State ℕ ℕ (Fin 2), s.pc 0 = .pushCasTail 1 ⟨some 0, 0⟩ ∧
    (machine queueVersion none ℕ (Fin 2)).runBy (fun _ a => a.goesOn) s
      (List.replicate 7 (.step 1 false)) = some s' ∧ s'.pc 1 = .pushed ∧
    (List.replicate 7 (Action.step (α := ℕ) (δ := ℕ) (1 : Fin 2) false)).length <
      (2 * Fintype.card (Fin 2) + 2) * (7 * Fintype.card (Fin 2) + 1) := by
  have ran : ((recordedMachine queueVersion none ℕ (Fin 2)).runBy (fun p a => freshNodes p a)
      (fresh (Fin 2) none, Past.start (fresh (Fin 2) none))
      [.push 0 1 none, .step 0 false, .step 0 false, .step 0 false, .push 1 2 none]).bind (fun p =>
        ((machine queueVersion none ℕ (Fin 2)).runBy (fun _ a => a.goesOn) p.1
          (List.replicate 7 (.step 1 false))).map fun s' => (p.1.pc 0, s'.pc 1)) =
      some (.pushCasTail 1 ⟨some 0, 0⟩, .pushed) := by decide +kernel
  obtain ⟨⟨s, past⟩, first, ran⟩ := Option.bind_eq_some_iff.mp ran
  obtain ⟨s', second, results⟩ := Option.map_eq_some_iff.mp ran
  obtain ⟨halted, pushed⟩ := Prod.ext_iff.mp results
  dsimp only at halted pushed second
  have start : (recordedMachine queueVersion (none : Option ℕ) ℕ (Fin 2)).init
      (fresh (Fin 2) none, Past.start (fresh (Fin 2) none)) := ⟨fresh_init, rfl⟩
  have reached := (Machine.runBy_reachable (.init start) first).mono fun p a admitted =>
    of_decide_eq_true admitted
  exact ⟨s, s', halted, second, pushed, (queue_lockfree rfl reached second).1⟩

end Codelab.LinkedQueue
