import Codelab.LinkedQueuePushes
import Codelab.LinkedQueueFreed

/-! The queue of `queue-nolockfree.hpp`, where nobody moves a lagging `tail_` for another thread: a
push that stops before it has moved `tail_` to its node stops all others, and nothing else does. -/

namespace Codelab.LinkedQueue

open Chain

variable {α δ τ : Type*} [DecidableEq α] [DecidableEq τ] {dummyData : Option δ}
  {s s' : State α δ τ} {past : Past α τ} {t u : τ} {a : Action α δ τ}

/-- A node is linked and `tail_` not yet moved to it. -/
def Pc.swings {α δ : Type*} : Pc α δ → Bool
  | .pushCasTail .. => true
  | _ => false

/-- About to move a lagging `tail_` for another thread. -/
def Pc.helping {α δ : Type*} : Pc α δ → Bool
  | .pushHelp .. | .popHelp .. => true
  | _ => false

/-- The word that a thread has read from `tail_`. -/
def Pc.oldTail {α δ : Type*} : Pc α δ → Option (TagPtr α)
  | .pushLoadNext _ oldTail | .pushCasNext _ oldTail _ | .pushCasTail _ oldTail => some oldTail
  | _ => none

/-- Behind `tail_` there is the node of the one thread that has linked it, or nothing. -/
structure Lag (s : State α δ τ) : Prop where
  tail : s.tail.tag = 0
  words : ∀ u w, (s.pc u).oldTail = some w → w.tag = 0
  helpless : ∀ u, (s.pc u).helping = false
  swinging : ∀ u node oldTail, s.pc u = .pushCasTail node oldTail → s.tail = oldTail
  single : ∀ u w, (s.pc u).swings = true → (s.pc w).swings = true → u = w
  lagging : ∀ x, s.tail.ptr = some x → s.link x ≠ none → ∃ u, (s.pc u).swings = true

theorem lag_init (start : (machine queueNolockfree dummyData α τ).init s) : Lag s := by
  obtain ⟨dummy, head, tail, last, -, -, -, idle, -⟩ := start
  refine ⟨by rw [tail], fun u w here => ?_, fun u => by rw [idle]; rfl,
    fun u node oldTail here => ?_, fun u w here => ?_, fun x here some => ?_⟩
  · rw [idle] at here
    cases here
  · rw [idle] at here
    cases here
  · rw [idle] at here
    cases here
  · rw [tail] at here
    obtain rfl := Option.some.inj here
    exact absurd last some

omit [DecidableEq α] in
/-- A thread moves on, and nothing happens at the end of the chain. -/
theorem Lag.move (h : Lag s) {pc : Pc α δ} (moved : s'.pc = Function.update s.pc t pc)
    (words : ∀ w, pc.oldTail = some w → w.tag = 0)
    (helpless : pc.helping = false)
    (before : (s.pc t).swings = false) (after : pc.swings = false) (tail : s'.tail = s.tail)
    (link : ∀ x, s.tail.ptr = some x → s'.link x = s.link x) : Lag s' := by
  have others {w : τ} (swings : (s'.pc w).swings = true) : w ≠ t ∧ s'.pc w = s.pc w := by
    by_cases e : w = t
    · rw [e, moved, Function.update_self, after] at swings
      cases swings
    · exact ⟨e, by rw [moved, Function.update_of_ne e]⟩
  refine ⟨tail ▸ h.tail, fun w word here => ?_, fun w => ?_,
    fun w node oldTail here => ?_, fun w x hw hx => ?_, fun x here some => ?_⟩
  · by_cases e : w = t
    · rw [e, moved, Function.update_self] at here
      exact words word here
    · rw [moved, Function.update_of_ne e] at here
      exact h.words w word here
  · by_cases e : w = t
    · rw [e, moved, Function.update_self, helpless]
    · rw [moved, Function.update_of_ne e, h.helpless w]
  · obtain ⟨-, same⟩ := others (w := w) (by rw [here]; rfl)
    rw [tail]
    exact h.swinging w node oldTail (same ▸ here)
  · exact h.single w x ((others hw).2 ▸ hw) ((others hx).2 ▸ hx)
  · rw [tail] at here
    rw [link x here] at some
    obtain ⟨w, swings⟩ := h.lagging x here some
    refine ⟨w, ?_⟩
    rw [moved, Function.update_of_ne]
    · exact swings
    · rintro rfl
      rw [before] at swings
      cases swings

variable {gone rest back : List α}

omit [DecidableEq α] [DecidableEq τ] in
/-- Where a thread may link its node nobody has linked one before. -/
theorem Lag.nobody (h : Lag s) (line : Line s past gone rest back) {x : α}
    (tail : s.tail.ptr = some x) (last : s.link x = none) (w : τ) : (s.pc w).swings = false := by
  cases here : s.pc w with
  | pushCasTail node oldTail =>
    have known := line.known w
    rw [here] at known
    obtain ⟨y, -, ptr, link⟩ := known
    rw [← h.swinging w node oldTail here, tail] at ptr
    obtain rfl := Option.some.inj ptr
    rw [last] at link
    cases link
  | _ => rfl

omit [DecidableEq α] in
/-- The thread that has linked its node comes before the move of `tail_`. -/
theorem Lag.link (h : Lag s) (line : Line s past gone rest back) {x newNode : α}
    {oldTail oldTailNext : TagPtr α} (here : s.pc t = .pushCasNext newNode oldTail oldTailNext)
    (ptr : oldTail.ptr = some x) (same : s.next x = oldTailNext)
    (moved : s'.pc = Function.update s.pc t (.pushCasTail newNode oldTail))
    (tail : s'.tail = s.tail) : Lag s' := by
  have known := line.known t
  rw [here] at known
  obtain ⟨⟨y, mem, ptr'⟩, last⟩ := known
  obtain rfl := Option.some.inj (ptr.symm.trans ptr')
  have atEnd : s.link x = none := by rw [State.link, same, last]
  obtain ⟨rfl, init, split⟩ := line.shape.at_end mem atEnd
  obtain ⟨front, z, parts, atTail⟩ := line.shape.tail
  obtain rfl : x = z := by
    have ends := line.shape.parts
    rw [split, parts, List.append_nil, ← List.append_assoc] at ends
    exact List.singleton_inj.mp (List.append_inj' ends rfl).2
  have read : s.tail = oldTail := by
    have tag := h.words t oldTail (by rw [here]; rfl)
    calc s.tail = ⟨s.tail.ptr, s.tail.tag⟩ := rfl
      _ = ⟨oldTail.ptr, oldTail.tag⟩ := by rw [atTail, ptr, h.tail, tag]
  have nobody := h.nobody line atTail atEnd
  have me {w : τ} (swings : (s'.pc w).swings = true) : w = t := by
    by_contra e
    rw [moved, Function.update_of_ne e, nobody w] at swings
    cases swings
  refine ⟨tail ▸ h.tail, fun w word at_w => ?_, fun w => ?_,
    fun w node old at_w => ?_, fun w u hw hu => (me hw).trans (me hu).symm,
    fun _ _ _ => ⟨t, by rw [moved, Function.update_self]; rfl⟩⟩
  · by_cases e : w = t
    · rw [e, moved, Function.update_self] at at_w
      rw [← Option.some.inj at_w, ← read]
      exact h.tail
    · rw [moved, Function.update_of_ne e] at at_w
      exact h.words w word at_w
  · by_cases e : w = t
    · rw [e, moved, Function.update_self]
      rfl
    · rw [moved, Function.update_of_ne e, h.helpless w]
  · obtain rfl := me (w := w) (by rw [at_w]; rfl)
    rw [moved, Function.update_self] at at_w
    cases at_w
    rw [tail, read]

omit [DecidableEq α] in
/-- `tail_` comes to the last node. -/
theorem Lag.swing (h : Lag s) (line : Line s past gone rest back) {newNode : α}
    {oldTail : TagPtr α} (here : s.pc t = .pushCasTail newNode oldTail)
    (moved : s'.pc = Function.update s.pc t .pushed) (tail : s'.tail = ⟨some newNode, oldTail.tag⟩)
    (next : s'.next = s.next) : Lag s' := by
  have known := line.known t
  rw [here] at known
  obtain ⟨x, -, ptr, link⟩ := known
  have word := h.swinging t newNode oldTail here
  have last : s.link newNode = none := by
    have behind := line.shape.behind (word ▸ ptr)
    rw [link] at behind
    obtain ⟨more, rfl, path⟩ := behind.of_some
    have short := line.shape.short
    cases more with
    | nil => exact path
    | cons => simp at short
  have away {w : τ} {node : α} {old : TagPtr α} (swings : s'.pc w = .pushCasTail node old) :
    False := by
    by_cases e : w = t
    · rw [e, moved, Function.update_self] at swings
      cases swings
    · rw [moved, Function.update_of_ne e] at swings
      exact e (h.single w t (by rw [swings]; rfl) (by rw [here]; rfl))
  have nobody (w : τ) : (s'.pc w).swings = false := by
    cases at_w : s'.pc w with
    | pushCasTail node old => exact (away at_w).elim
    | _ => rfl
  refine ⟨?_, fun w word' at_w => ?_, fun w => ?_,
    fun w node old at_w => (away at_w).elim, fun w u hw _ => ?_, fun y at_y some => ?_⟩
  · rw [tail]
    exact h.words t oldTail (by rw [here]; rfl)
  · by_cases e : w = t
    · rw [e, moved, Function.update_self] at at_w
      cases at_w
    · rw [moved, Function.update_of_ne e] at at_w
      exact h.words w word' at_w
  · by_cases e : w = t
    · rw [e, moved, Function.update_self]
      rfl
    · rw [moved, Function.update_of_ne e, h.helpless w]
  · rw [nobody w] at hw
    cases hw
  · rw [tail] at at_y
    obtain rfl := Option.some.inj at_y
    rw [State.link_congr next] at some
    exact absurd last some

omit [DecidableEq α] in
theorem untagged_of_none {pc : Pc α δ} (none : pc.oldTail = none) (w : TagPtr α)
    (word : pc.oldTail = some w) : w.tag = 0 := by
  rw [none] at word
  cases word

theorem Lag.act (h : Lag s) (line : Line s past gone rest back) (fresh : freshNodes (s, past) a)
    (next : s.act queueNolockfree a = some s') : Lag s' := by
  have same {s' : State α δ τ} (next : s'.next = s.next) (x : α) (_ : s.tail.ptr = some x) :
      s'.link x = s.link x := congrFun (State.link_congr next) x
  have resting {t : τ} (resting : (s.pc t).resting = true) : (s.pc t).swings = false := by
    cases here : s.pc t <;> rw [here] at resting <;> first | rfl | cases resting
  cases a with
  | push t newNode data =>
    simp only [State.act] at next
    split_ifs at next with allowed
    obtain rfl := Option.some.inj next
    obtain ⟨front, x, split, atTail⟩ := line.shape.tail
    have inChain : x ∈ past.chain := by
      rw [line.shape.parts, split]
      simp
    refine h.move (t := t) rfl (untagged_of_none rfl) rfl
      (resting allowed.1) rfl rfl fun y here => ?_
    obtain rfl := Option.some.inj (here.symm.trans atTail)
    have apart : y ≠ newNode := by
      rintro rfl
      exact fresh.1 inChain
    exact congrArg TagPtr.ptr (Function.update_of_ne apart ..)
  | pop t =>
    simp only [State.act] at next
    split_ifs at next with allowed
    obtain rfl := Option.some.inj next
    exact h.move (t := t) rfl (untagged_of_none rfl) rfl (resting allowed) rfl rfl (same rfl)
  | step t spurious =>
    have helpless := h.helpless t
    cases pc : s.pc t with
    | pushLoadTail newNode =>
      simp only [State.act, State.step, pc] at next
      obtain rfl := Option.some.inj next
      refine h.move rfl (fun w word => ?_) rfl (by rw [pc]; rfl) rfl rfl (same rfl)
      rw [← Option.some.inj word]
      exact h.tail
    | pushLoadNext newNode oldTail =>
      have words := h.words t
      rw [pc] at words
      simp only [State.act, State.step, pc] at next
      obtain ⟨x, -, next⟩ := Option.bind_eq_some_iff.mp next
      split_ifs at next with last helps
      · obtain rfl := Option.some.inj next
        exact h.move rfl words rfl (by rw [pc]; rfl) rfl rfl (same rfl)
      · cases helps
      · obtain rfl := Option.some.inj next
        exact h.move rfl (untagged_of_none rfl) rfl (by rw [pc]; rfl) rfl rfl (same rfl)
    | pushCasNext newNode oldTail oldTailNext =>
      simp only [State.act, State.step, pc] at next
      obtain ⟨x, ptr, next⟩ := Option.bind_eq_some_iff.mp next
      split_ifs at next with agree
      · obtain rfl := Option.some.inj next
        exact h.link line pc ptr agree.1 rfl rfl
      · obtain rfl := Option.some.inj next
        exact h.move rfl (untagged_of_none rfl) rfl (by rw [pc]; rfl) rfl rfl (same rfl)
    | pushCasTail newNode oldTail =>
      have word := h.swinging t newNode oldTail pc
      simp only [State.act, State.step, pc] at next
      obtain rfl := Option.some.inj next
      have moved : s.casTail oldTail ⟨some newNode, queueNolockfree.endTag oldTail⟩ =
          { s with tail := ⟨some newNode, oldTail.tag⟩, tailCount := s.tailCount + 1 } :=
        if_pos word
      rw [moved]
      exact h.swing line pc rfl rfl rfl
    | popLoadHead =>
      simp only [State.act, State.step, pc] at next
      obtain rfl := Option.some.inj next
      exact h.move rfl (untagged_of_none rfl) rfl (by rw [pc]; rfl) rfl rfl (same rfl)
    | popLoadNext oldHead =>
      simp only [State.act, State.step, pc] at next
      obtain ⟨x, -, next⟩ := Option.bind_eq_some_iff.mp next
      obtain rfl := Option.some.inj next
      exact h.move rfl (untagged_of_none rfl) rfl (by rw [pc]; rfl) rfl rfl (same rfl)
    | popLoadTail oldHead oldHeadNext =>
      simp only [State.act, State.step, pc] at next
      split_ifs at next with empty helps
      · cases helps.1
      · obtain rfl := Option.some.inj next
        exact h.move rfl (untagged_of_none rfl) rfl (by rw [pc]; rfl) rfl rfl (same rfl)
      · obtain rfl := Option.some.inj next
        exact h.move rfl (untagged_of_none rfl) rfl (by rw [pc]; rfl) rfl rfl (same rfl)
    | popCasHead oldHead oldHeadNext =>
      simp only [State.act, State.step, pc] at next
      obtain ⟨x, -, next⟩ := Option.bind_eq_some_iff.mp next
      split_ifs at next <;> obtain rfl := Option.some.inj next <;>
        exact h.move rfl (untagged_of_none rfl) rfl (by rw [pc]; rfl) rfl rfl (same rfl)
    | popRead oldHead =>
      simp only [State.act, State.step, pc] at next
      obtain rfl := Option.some.inj next
      exact h.move rfl (untagged_of_none rfl) rfl (by rw [pc]; rfl) rfl rfl (same rfl)
    | popDelete oldHead ret =>
      simp only [State.act, State.step, pc] at next
      obtain rfl := Option.some.inj next
      exact h.move rfl (untagged_of_none rfl) rfl (by rw [pc]; rfl) rfl rfl (same rfl)
    | pushHelp | popHelp => rw [pc] at helpless; cases helpless
    | idle | pushed | popped ret =>
      simp only [State.act, State.step, pc] at next
      cases next

theorem lag_reachable
    (h : (recordedMachine queueNolockfree dummyData α τ).ReachableBy freshNodes (s, past)) :
    (∃ gone rest back, Line s past gone rest back) ∧ Lag s := by
  refine ⟨line_reachable h, ?_⟩
  have lined : (recordedMachine queueNolockfree dummyData α τ).ReachableBy (fun p a =>
      freshNodes p a ∧ ∃ gone rest back, Line p.1 p.2 gone rest back) (s, past) :=
    h.strengthen fun p reached a fresh =>
      ⟨fresh, line_reachable (reached.mono fun _ _ both => both.1)⟩
  refine lined.recorded_invariant (fun s _ => Lag s) (fun s start => lag_init start)
    fun s a s' past lag both next => ?_
  obtain ⟨fresh, gone, rest, back, line⟩ := both
  exact lag.act line fresh next

omit [DecidableEq α] in
/-- The step at which a push returns is that of a thread that has linked its node. -/
theorem Past.note_returned (a : Action α δ τ) (idle : ∀ t spurious, a = .step t spurious →
    (s.pc t).swings = false) : (past.note s a s').returned = past.returned := by
  cases a with
  | step t spurious =>
    have quiet := idle t spurious rfl
    cases pc : s.pc t with
    | pushCasTail newNode oldTail => rw [pc] at quiet; cases quiet
    | pushCasNext newNode oldTail oldTailNext =>
      simp only [Past.note, pc]
      cases s'.pc t <;> rfl
    | _ => simp only [Past.note, pc]
  | _ => rfl

/-- A step moves its own thread only. -/
theorem State.act_others (next : s.act v a = some s') (other : u ≠ a.thread) :
    s'.pc u = s.pc u := by
  have away {pc : Pc α δ} (moved : s'.pc = Function.update s.pc a.thread pc) :
    s'.pc u = s.pc u := by
    rw [moved, Function.update_of_ne other]
  cases a with
  | push t newNode data | pop t =>
    simp only [State.act] at next
    split_ifs at next
    obtain rfl := Option.some.inj next
    exact away rfl
  | step t spurious =>
    cases pc : s.pc t with
    | pushLoadTail | popLoadHead | popRead | popDelete =>
      simp only [State.act, State.step, pc] at next
      obtain rfl := Option.some.inj next
      exact away rfl
    | pushLoadNext | pushCasNext | popLoadNext | popCasHead =>
      simp only [State.act, State.step, pc] at next
      obtain ⟨x, -, next⟩ := Option.bind_eq_some_iff.mp next
      (try split_ifs at next) <;> obtain rfl := Option.some.inj next <;> exact away rfl
    | pushCasTail =>
      simp only [State.act, State.step, pc] at next
      obtain rfl := Option.some.inj next
      exact away (by rw [State.ended, State.goto, State.casTail_pc]; rfl)
    | pushHelp | popHelp =>
      simp only [State.act, State.step, pc] at next
      obtain rfl := Option.some.inj next
      exact away (by rw [State.goto, State.casTail_pc]; rfl)
    | popLoadTail =>
      simp only [State.act, State.step, pc] at next
      split_ifs at next <;> obtain rfl := Option.some.inj next <;> exact away rfl
    | idle | pushed | popped =>
      simp only [State.act, State.step, pc] at next
      cases next

/-- As long as a thread stands between the link of its node and the move of `tail_`, no push of
another thread returns, whatever the others do. When no thread stands there, a push that runs alone
from its start returns in its first iteration. -/
theorem nolockfree_blocks
    (h : (recordedMachine queueNolockfree dummyData α τ).ReachableBy freshNodes (s, past)) :
    (∀ u, (s.pc u).swings = true → ∀ s' past',
      ((recordedMachine queueNolockfree dummyData α τ).startingAt (s, past)).ReachableBy
        (fun p a => freshNodes p a ∧ a.thread ≠ u) (s', past') →
      s'.pc u = s.pc u ∧ past'.returned = past.returned) ∧
    ((∀ u, (s.pc u).swings = false) → ∀ t newNode data s',
      s.act queueNolockfree (.push t newNode data) = some s' → past.fresh newNode →
      ∃ n last, alone queueNolockfree dummyData t n (s', 0) = some (last, 1) ∧
        last.pc t = .pushed) := by
  constructor
  · intro u swings s' past' run
    have along : ((recordedMachine queueNolockfree dummyData α τ).startingAt (s, past)).ReachableBy
        (fun p a => (freshNodes p a ∧ a.thread ≠ u) ∧ Lag p.1) (s', past') :=
      run.strengthen fun p reached a both => ⟨both, (lag_reachable
        (h.continued (reached.mono fun _ _ both => both.1.1))).2⟩
    refine along.invariant (fun p => p.1.pc u = s.pc u ∧ p.2.returned = past.returned)
      (fun p start => ?_) fun p a p' before both next => ?_
    · rw [show p = (s, past) from start]
      exact ⟨rfl, rfl⟩
    · obtain ⟨⟨-, other⟩, lag⟩ := both
      have step : (recordedMachine queueNolockfree dummyData α τ).next p a = some p' := next
      obtain ⟨moved, noted⟩ := Machine.recorded_next.mp step
      refine ⟨?_, ?_⟩
      · rw [State.act_others moved other.symm, before.1]
      · rw [noted, Past.note_returned, before.2]
        rintro t spurious rfl
        by_contra also
        refine other (lag.single t u ?_ (before.1 ▸ swings))
        simpa using also
  · intro nobody t newNode data s' begun fresh
    obtain ⟨-, lag⟩ := lag_reachable h
    have next : (recordedMachine queueNolockfree dummyData α τ).next (s, past)
      (.push t newNode data) = some (s', past.note s (.push t newNode data) s') :=
        Machine.recorded_next.mpr ⟨begun, rfl⟩
    have new : freshNodes (s, past) (.push t newNode data) := fresh
    obtain ⟨⟨gone, rest, back, line⟩, lag'⟩ := lag_reachable (h.step new next)
    have here : s'.pc t = .pushLoadTail newNode := by
      simp only [State.act] at begun
      split_ifs at begun
      obtain rfl := Option.some.inj begun
      exact Function.update_self ..
    obtain ⟨front, x, -, tail⟩ := line.shape.tail
    have last : s'.link x = none := by
      by_contra some
      obtain ⟨w, swings⟩ := lag'.lagging x tail some
      by_cases e : w = t
      · rw [e, here] at swings
        cases swings
      · rw [State.act_others begun e, nobody w] at swings
        cases swings
    obtain ⟨end', ran, pushed⟩ := alone_links 0 here tail last
    exact ⟨4, end', ran, pushed⟩

/-- A producer halted after the link of its node: no push of the other thread returns any more. -/
theorem nolockfree_blocks_halted : ∃ (s : State ℕ ℕ (Fin 2)) (past : Past ℕ (Fin 2)),
    s.tail.ptr = some 0 ∧ past.chain = [0, 1] ∧ ∀ s' past',
      ((recordedMachine queueNolockfree none ℕ (Fin 2)).startingAt (s, past)).ReachableBy
        (fun p a => freshNodes p a ∧ a.thread ≠ 0) (s', past') → past'.returned = [] := by
  have ran : ((recordedMachine queueNolockfree none ℕ (Fin 2)).runBy (fun p a => freshNodes p a)
      (fresh (Fin 2) none, Past.start (fresh (Fin 2) none))
      [.push 0 1 none, .step 0 false, .step 0 false, .step 0 false]).map
        (fun p => (p.1.tail.ptr, (p.1.pc 0).swings, p.2.chain, p.2.returned)) =
      some (some 0, true, [0, 1], []) := by decide +kernel
  obtain ⟨⟨s, past⟩, run, results⟩ := Option.map_eq_some_iff.mp ran
  obtain ⟨tail, rest⟩ := Prod.ext_iff.mp results
  obtain ⟨swings, rest⟩ := Prod.ext_iff.mp rest
  obtain ⟨chain, returned⟩ := Prod.ext_iff.mp rest
  dsimp only at tail swings chain returned
  have start : (recordedMachine queueNolockfree (none : Option ℕ) ℕ (Fin 2)).init
      (fresh (Fin 2) none, Past.start (fresh (Fin 2) none)) := ⟨fresh_init, rfl⟩
  have reached := (Machine.runBy_reachable (.init start) run).mono fun p a admitted =>
    of_decide_eq_true admitted
  refine ⟨s, past, tail, chain, fun s' past' others => ?_⟩
  exact ((nolockfree_blocks reached).1 0 swings s' past' others).2.trans returned

end Codelab.LinkedQueue
