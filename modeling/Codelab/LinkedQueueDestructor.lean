import Codelab.LinkedQueueSequential

/-! `~queue`: it pops until a pop returns null and deletes the node that is then at `head_`. A
pop hands out the data of the dummy node it deletes, so a null among them ends the loop with
nodes left behind. -/

namespace Codelab.LinkedQueue

open Chain

variable {α δ : Type*} [DecidableEq α] {v : Variant} {dummyData : Option δ}
  {s : State α δ Unit} {t : Unit}

/-- The destructor in progress: the queue with the thread's current `pop`, and the nodes deleted
so far, the last one first. -/
structure Teardown (α δ : Type*) where
  queue : State α δ Unit
  deleted : List α
  done : Bool

namespace Teardown

/-- A step of the current `pop`; or, when it has returned, the next one or the end. -/
def step (v : Variant) (d : Teardown α δ) (spurious : Bool) : Option (Teardown α δ) :=
  if d.done then none
  else match d.queue.pc () with
    | .popped none =>
      some { d with deleted := d.queue.head.ptr.toList ++ d.deleted, done := true }
    | .popped (some _) => (d.queue.act v (.pop ())).map fun queue => { d with queue := queue }
    | .popDelete node _ => (d.queue.step v () spurious).map fun queue =>
      { d with queue := queue, deleted := node :: d.deleted }
    | _ => (d.queue.step v () spurious).map fun queue => { d with queue := queue }

end Teardown

/-- `~queue` on the queue `s`, which begins with a call of `pop`. -/
def teardown (v : Variant) (s : State α δ Unit) : Machine (Teardown α δ) Bool where
  init d := s.act v (.pop ()) = some d.queue ∧ d.deleted = [] ∧ d.done = false
  next := Teardown.step v

/-- What the nodes deleted so far and the others have to do with each other while the destructor
stands at a place in `pop`: the data handed out were not null, but for the last one when the
loop ends. -/
def Drained (data : α → Option δ) (deleted rest : List α) : Pc α δ → Prop
  | .popLoadHead | .popLoadNext _ | .popLoadTail .. | .popCasHead .. | .popRead _
  | .popped (some _) => ∀ node ∈ deleted, data node ≠ none
  | .popDelete node ret => ret = data node ∧ ∀ node ∈ deleted, data node ≠ none
  | .popped none => (∃ x, rest = [x]) ∧ (∀ node ∈ deleted, data node ≠ none) ∨
    ∃ last before, deleted = last :: before ∧ data last = none ∧ ∀ node ∈ before, data node ≠ none
  | _ => False

/-- The destructor of a queue with the nodes `l` in its loop. -/
structure Draining (dummyData : Option δ) (data : α → Option δ) (l : List α) (d : Teardown α δ)
    (rest : List α) : Prop where
  inv : SeqInv dummyData d.queue
  same : d.queue.data = data
  path : Path d.queue.link d.queue.head.ptr rest
  split : l = d.deleted.reverse ++ ((d.queue.pc ()).removed.toList ++ rest)
  drained : Drained data d.deleted rest (d.queue.pc ())

/-- What is left of the nodes `l` when the destructor has ended. -/
def Finished (data : α → Option δ) (l deleted : List α) : Prop :=
  ∃ left, l = deleted.reverse ++ left ∧
    (left = [] ↔ ∀ node ∈ l.dropLast.dropLast, data node ≠ none)

variable {data : α → Option δ} {l rest : List α} {d d' : Teardown α δ}

omit [DecidableEq α] in
/-- A step of `pop` that takes no node off. -/
theorem Draining.quiet (h : Draining dummyData data l d rest) {queue : State α δ Unit}
    (inv : SeqInv dummyData queue) (same : queue.data = d.queue.data)
    (next : queue.next = d.queue.next) (head : queue.head = d.queue.head)
    (removed : (queue.pc ()).removed = (d.queue.pc ()).removed)
    (drained : Drained data d.deleted rest (queue.pc ())) :
    Draining dummyData data l { d with queue := queue } rest := by
  refine ⟨inv, same.trans h.same, ?_, ?_, drained⟩
  · rw [State.link_congr next, head]
    exact h.path
  · rw [removed]
    exact h.split

omit [DecidableEq α] in
/-- Nothing has been lost if the pop that ends the loop found the queue empty. -/
theorem finished_empty {deleted : List α} {x : α} (split : l = deleted.reverse ++ [x])
    (some : ∀ node ∈ deleted, data node ≠ none) : Finished data l (x :: deleted) := by
  refine ⟨[], by rw [split, List.reverse_cons, List.append_nil], fun _ node mem => ?_,
    fun _ => rfl⟩
  rw [split, List.dropLast_concat] at mem
  exact some node (List.mem_reverse.mp (List.mem_of_mem_dropLast mem))

omit [DecidableEq α] in
/-- A pop that ends the loop with a null that it has handed out loses what is behind the next
node. -/
theorem finished_null {before more : List α} {last x : α}
    (split : l = (last :: before).reverse ++ x :: more) (null : data last = none)
    (some : ∀ node ∈ before, data node ≠ none) : Finished data l (x :: last :: before) := by
  have split' : l = before.reverse ++ last :: x :: more := by
    rw [split, List.reverse_cons, List.append_assoc]
    rfl
  refine ⟨more, by rw [split', List.reverse_cons, List.reverse_cons]; simp, fun none node mem => ?_,
    fun all => ?_⟩
  · rw [split', none] at mem
    exact some node (by simpa using mem)
  · cases more with
    | nil => rfl
    | cons y more =>
      have mem : last ∈ l.dropLast.dropLast := by
        rw [split', List.dropLast_append_cons, List.dropLast_cons_cons, List.dropLast_append_cons,
          List.dropLast_cons_cons]
        simp
      exact absurd null (all last mem)

/-- A step of `pop` before it deletes its node. -/
theorem Draining.pop (h : Draining dummyData data l d rest) {queue : State α δ Unit}
    {spurious : Bool} (next : d.queue.step v () spurious = some queue)
    (keeps : ∀ node ret, d.queue.pc () ≠ .popDelete node ret) :
    ∃ rest', Draining dummyData data l { d with queue := queue } rest' := by
  have inv : SeqInv dummyData queue := h.inv.act (v := v) (a := .step () spurious) next
  obtain ⟨first, nodes, done, -, phase⟩ := h.inv
  have drained := h.drained
  cases pc : d.queue.pc () with
  | popLoadHead =>
    rw [pc] at drained
    simp only [State.step, pc] at next
    obtain rfl := Option.some.inj next
    exact ⟨rest, h.quiet inv rfl rfl rfl (by rw [pc]; rfl) drained⟩
  | popLoadNext oldHead =>
    rw [pc] at drained
    simp only [State.step, pc] at next
    obtain ⟨x, -, next⟩ := Option.bind_eq_some_iff.mp next
    obtain rfl := Option.some.inj next
    exact ⟨rest, h.quiet inv rfl rfl rfl (by rw [pc]; rfl) drained⟩
  | popLoadTail oldHead oldHeadNext =>
    rw [pc] at drained phase
    obtain ⟨popping, rfl, rfl⟩ := phase
    obtain rfl := popping.path.unique h.path
    have empty := popping.atEnd.empty_iff popping.path
    simp only [State.step, pc] at next
    split_ifs at next with same helping <;> obtain rfl := Option.some.inj next
    · obtain rfl := empty.mp same
      exact absurd popping.path.2 helping.2
    · obtain rfl := empty.mp same
      exact ⟨[first], h.quiet inv rfl rfl rfl (by rw [pc]; rfl) (.inl ⟨⟨first, rfl⟩, drained⟩)⟩
    · exact ⟨_, h.quiet inv rfl rfl rfl (by rw [pc]; rfl) drained⟩
  | popCasHead oldHead oldHeadNext =>
    rw [pc] at drained phase
    obtain ⟨popping, rfl, rfl, -⟩ := phase
    obtain rfl := popping.path.unique h.path
    simp only [State.step, pc, popping.path.1, Option.bind_some] at next
    split_ifs at next <;> obtain rfl := Option.some.inj next
    · have split := h.split
      rw [pc] at split
      exact ⟨nodes, inv, h.same, popping.path.2, split, drained⟩
    · exact ⟨_, h.quiet inv rfl rfl rfl (by rw [pc]; rfl) drained⟩
  | popRead oldHead =>
    rw [pc] at drained
    simp only [State.step, pc] at next
    obtain rfl := Option.some.inj next
    exact ⟨rest, h.quiet inv rfl rfl rfl (by rw [pc]; rfl) ⟨congrFun h.same oldHead, drained⟩⟩
  | popDelete node ret => exact absurd pc (keeps node ret)
  | popped ret =>
    simp only [State.step, pc] at next
    cases next
  | _ => rw [pc] at drained; exact drained.elim

/-- One step of the destructor. -/
theorem Draining.step (h : Draining dummyData data l d rest) (working : d.done = false)
    {spurious : Bool} (next : d.step v spurious = some d') :
    d'.done = false ∧ (∃ rest', Draining dummyData data l d' rest') ∨
      d'.done = true ∧ Finished data l d'.deleted := by
  have drained := h.drained
  have split := h.split
  rw [Teardown.step, if_neg (by simp [working])] at next
  cases pc : d.queue.pc () with
  | popped ret =>
    rw [pc] at drained split
    cases ret with
    | none =>
      simp only [pc] at next
      obtain rfl := Option.some.inj next
      refine .inr ⟨rfl, ?_⟩
      obtain ⟨first, nodes, done, -, phase⟩ := h.inv
      rw [pc] at phase
      obtain ⟨-, holds, -⟩ := phase
      obtain rfl := holds.path.unique h.path
      simp only [holds.path.1, Option.toList_some, List.singleton_append]
      rcases drained with ⟨⟨x, one⟩, some⟩ | ⟨last, before, deleted, null, some⟩
      · rw [one] at split
        rw [(List.cons_eq_cons.mp one).1]
        exact finished_empty split some
      · rw [deleted] at split ⊢
        exact finished_null split null some
    | some value =>
      simp only [pc] at next
      obtain ⟨queue, called, rfl⟩ := Option.map_eq_some_iff.mp next
      have inv : SeqInv dummyData queue := h.inv.act (v := v) (a := .pop ()) called
      simp only [State.act] at called
      split_ifs at called
      obtain rfl := Option.some.inj called
      exact .inl ⟨working, rest, h.quiet inv rfl rfl rfl (by rw [pc]; rfl) drained⟩
  | popDelete node ret =>
    rw [pc] at drained split
    obtain ⟨rfl, some⟩ := drained
    simp only [pc] at next
    obtain ⟨queue, deletes, rfl⟩ := Option.map_eq_some_iff.mp next
    have inv : SeqInv dummyData queue := h.inv.act (v := v) (a := .step () spurious) deletes
    simp only [State.step, pc] at deletes
    obtain rfl := Option.some.inj deletes
    refine .inl ⟨working, rest, inv, h.same, h.path, ?_, ?_⟩
    · rw [split, List.reverse_cons, List.append_assoc]
      rfl
    · simp only [State.ended, State.goto, Function.update_self]
      cases value : data node with
      | none => exact .inr ⟨node, d.deleted, rfl, value, some⟩
      | some datum =>
        refine fun x mem => ?_
        rcases List.mem_cons.mp mem with rfl | before
        · rw [value]
          exact Option.some_ne_none datum
        · exact some x before
  | popLoadHead | popLoadNext | popLoadTail | popCasHead | popRead =>
    simp only [pc] at next
    obtain ⟨queue, popping, rfl⟩ := Option.map_eq_some_iff.mp next
    exact .inl ⟨working, h.pop popping fun node ret no => by rw [pc] at no; cases no⟩
  | _ => rw [pc] at drained; exact drained.elim

/-- The destructor is in its loop or has ended. -/
def TornDown (dummyData : Option δ) (data : α → Option δ) (l : List α) (d : Teardown α δ) : Prop :=
  d.done = false ∧ (∃ rest, Draining dummyData data l d rest) ∨
    d.done = true ∧ Finished data l d.deleted

/-- A step of `pop` that deletes nothing returns no datum. -/
theorem Draining.no_datum (h : Draining dummyData data l d rest) {queue : State α δ Unit}
    {spurious : Bool} (next : d.queue.step v () spurious = some queue)
    (keeps : ∀ node ret, d.queue.pc () ≠ .popDelete node ret) (value : δ) :
    queue.pc () ≠ .popped (some value) := by
  have drained := h.drained
  intro returned
  have moved {pc : Pc α δ} (hpc : queue.pc = Function.update d.queue.pc () pc) :
      pc = .popped (some value) := by
    rw [hpc, Function.update_self] at returned
    exact returned
  cases pc : d.queue.pc () with
  | popLoadHead | popRead oldHead =>
    simp only [State.step, pc] at next
    obtain rfl := Option.some.inj next
    cases moved rfl
  | popLoadNext oldHead =>
    simp only [State.step, pc] at next
    obtain ⟨x, -, next⟩ := Option.bind_eq_some_iff.mp next
    obtain rfl := Option.some.inj next
    cases moved rfl
  | popLoadTail oldHead oldHeadNext =>
    simp only [State.step, pc] at next
    split_ifs at next <;> obtain rfl := Option.some.inj next <;> cases moved rfl
  | popCasHead oldHead oldHeadNext =>
    simp only [State.step, pc] at next
    obtain ⟨x, -, next⟩ := Option.bind_eq_some_iff.mp next
    split_ifs at next <;> obtain rfl := Option.some.inj next <;> cases moved rfl
  | popDelete node ret => exact keeps node ret pc
  | popped ret =>
    simp only [State.step, pc] at next
    cases next
  | _ => rw [pc] at drained; exact drained

/-- How many steps the loop takes at most up to the next deletion, from a place in `pop`. -/
def Pc.roundLeft : Pc α δ → ℕ
  | .popped (some _) => 7
  | .popped none => 1
  | pc => pc.stepsLeft

omit [DecidableEq α] in
theorem roundLeft_le {pc : Pc α δ} (none : ∀ value, pc ≠ .popped (some value)) :
    pc.roundLeft ≤ max 1 pc.stepsLeft := by
  cases pc with
  | popped ret =>
    cases ret with
    | none => exact le_max_left ..
    | some value => exact absurd rfl (none value)
  | _ => exact le_max_right ..

/-- How many steps the destructor still takes at most if no compare-and-swap fails. -/
def Teardown.stepsLeft (size : ℕ) (d : Teardown α δ) : ℕ :=
  8 * (size - d.deleted.length) + if d.done then 0 else (d.queue.pc ()).roundLeft

omit [DecidableEq α] in
theorem Teardown.stepsLeft_eq (size : ℕ) (working : d.done = false) :
    d.stepsLeft size = 8 * (size - d.deleted.length) + (d.queue.pc ()).roundLeft := by
  rw [stepsLeft, working]
  rfl

theorem Draining.progress (v : Variant) (h : Draining dummyData data l d rest)
    (working : d.done = false) : ∃ d', d.step v false = some d' ∧
      d'.stepsLeft l.length < d.stepsLeft l.length := by
  have drained := h.drained
  have size := congrArg List.length h.split
  simp only [List.length_append, List.length_reverse] at size
  rw [Teardown.step, if_neg (by simp [working]), d.stepsLeft_eq _ working]
  cases pc : d.queue.pc () with
  | popped ret =>
    cases ret with
    | none =>
      refine ⟨_, rfl, ?_⟩
      simp only [Teardown.stepsLeft, if_true, List.length_append]
      have round : (Pc.popped none : Pc α δ).roundLeft = 1 := rfl
      omega
    | some value =>
      simp only [State.act, pc, Pc.resting, if_true, Option.map_some]
      refine ⟨_, rfl, (Teardown.stepsLeft_eq _ ?_).trans_lt ?_⟩
      · exact working
      simp only [State.goto, Function.update_self]
      exact Nat.add_lt_add_left (show 6 < 7 by decide) _
  | popDelete node ret =>
    rw [pc] at size
    simp only [Pc.removed, Option.toList_some, List.length_singleton] at size
    simp only [State.step, pc, Option.map_some]
    refine ⟨_, rfl, (Teardown.stepsLeft_eq _ ?_).trans_lt ?_⟩
    · exact working
    have before : (Pc.popDelete node ret : Pc α δ).roundLeft = 1 := rfl
    have after : (Pc.popped ret : Pc α δ).roundLeft ≤ 7 := by
      cases ret with
      | none => exact Nat.succ_le_succ (Nat.zero_le 6)
      | some value => exact le_rfl
    simp only [State.ended, State.goto, Function.update_self, List.length_cons]
    omega
  | popLoadHead | popLoadNext | popLoadTail | popCasHead | popRead =>
    obtain ⟨queue, next, less⟩ := h.inv.progress v (by rw [pc]; rfl)
    have datum := h.no_datum next fun node ret no => by rw [pc] at no; cases no
    have round := roundLeft_le datum
    simp only [next, Option.map_some]
    refine ⟨_, rfl, (Teardown.stepsLeft_eq _ ?_).trans_lt ?_⟩
    · exact working
    refine Nat.add_lt_add_left (round.trans_lt ?_) _
    rw [pc] at less
    exact max_lt (by simp [Pc.roundLeft, Pc.stepsLeft]) less
  | _ => rw [pc] at drained; exact drained.elim

/-- The destructor begins with the first pop of its loop. -/
theorem Draining.init (hs : (machine v dummyData α Unit).Reachable s)
    (begun : (teardown v s).init d) :
    ∃ l, Path s.link s.head.ptr l ∧ d.done = false ∧ Draining dummyData s.data l d l := by
  obtain ⟨called, deleted, working⟩ := begun
  have inv : SeqInv dummyData d.queue :=
    (seqInv_reachable hs).act (v := v) (a := .pop ()) called
  obtain ⟨queue, old, done⟩ := d
  obtain rfl : old = [] := deleted
  simp only [State.act] at called
  split_ifs at called
  obtain rfl := Option.some.inj called
  obtain ⟨first, nodes, calls, -, phase⟩ := id inv
  simp only [State.goto, Function.update_self] at phase
  have path : Path s.link s.head.ptr (first :: nodes) := phase.path
  exact ⟨first :: nodes, path, working, inv, rfl, path, rfl, List.forall_mem_nil _⟩

theorem tornDown_reachable (hs : (machine v dummyData α Unit).Reachable s)
    (h : (teardown v s).Reachable d) :
    ∃ l, Path s.link s.head.ptr l ∧ TornDown dummyData s.data l d := by
  refine h.invariant (fun d => ∃ l, Path s.link s.head.ptr l ∧ TornDown dummyData s.data l d)
    (fun d begun => ?_) fun d spurious d' before next => ?_
  · obtain ⟨l, path, working, draining⟩ := Draining.init hs begun
    exact ⟨l, path, .inl ⟨working, l, draining⟩⟩
  · obtain ⟨l, path, ⟨working, rest, draining⟩ | ⟨done, -⟩⟩ := before
    · exact ⟨l, path, draining.step working next⟩
    · have moved : d.step v spurious = some d' := next
      rw [Teardown.step, if_pos done] at moved
      cases moved

/-- The loop ends and the destructor with it once the compare-and-swaps stop failing. -/
theorem TornDown.ends (h : TornDown dummyData data l d) : ∃ n d',
    (teardown v s).run d (List.replicate n false) = some d' ∧ d'.done = true := by
  induction left : d.stepsLeft l.length using Nat.strong_induction_on generalizing d with
  | _ left ih =>
    rcases h with ⟨working, rest, draining⟩ | ⟨done, -⟩
    · obtain ⟨mid, next, less⟩ := draining.progress v working
      have moved : (teardown v s).next d false = some mid := next
      obtain ⟨n, d', ran, done⟩ := ih _ (left ▸ less) (draining.step working next) rfl
      refine ⟨n + 1, d', ?_, done⟩
      rw [List.replicate_succ, Machine.run, moved]
      exact ran
    · exact ⟨0, d, rfl, done⟩

/-- The destructor ends, deletes no node twice and none that is not linked, and deletes all
that are if and only if no pop before the last two nodes hands out a null. -/
theorem destroyed_iff (hs : (machine v dummyData α Unit).Reachable s)
    (h : (teardown v s).Reachable d) :
    ∃ l, Path s.link s.head.ptr l ∧ d.deleted.Nodup ∧ d.deleted ⊆ l ∧
      (∃ n d', (teardown v s).run d (List.replicate n false) = some d' ∧ d'.done = true) ∧
      (d.done = true → ((∀ node ∈ l, node ∈ d.deleted) ↔
        ∀ node ∈ l.dropLast.dropLast, s.data node ≠ none)) := by
  obtain ⟨l, path, torn⟩ := tornDown_reachable hs h
  obtain ⟨left, split⟩ : ∃ left, l = d.deleted.reverse ++ left := by
    rcases torn with ⟨-, rest, draining⟩ | ⟨-, left, split, -⟩
    · exact ⟨_, draining.split⟩
    · exact ⟨left, split⟩
  have distinct := path.nodup
  rw [split] at distinct
  refine ⟨l, path, List.nodup_reverse.mp (List.nodup_append.mp distinct).1, fun node mem => ?_,
    torn.ends, fun done => ?_⟩
  · rw [split]
    exact List.mem_append_left _ (List.mem_reverse.mpr mem)
  · rcases torn with ⟨working, -⟩ | ⟨-, left, split, finished⟩
    · rw [done] at working
      cases working
    · rw [← finished]
      constructor
      · intro all
        by_contra some
        obtain ⟨node, mem⟩ := List.exists_mem_of_ne_nil left some
        have deleted := all node (split ▸ List.mem_append_right _ mem)
        have distinct := path.nodup
        rw [split] at distinct
        exact (List.nodup_append.mp distinct).2.2 node (List.mem_reverse.mpr deleted) node mem rfl
      · rintro rfl node mem
        rw [split, List.append_nil] at mem
        exact List.mem_reverse.mp mem

/-- A dummy node with data and one node behind it. -/
theorem destroyed_iff_one : ∃ (s : State ℕ ℕ Unit) (d : Teardown ℕ ℕ) (l : List ℕ),
    d.done = true ∧ Path s.link s.head.ptr l ∧ d.deleted ⊆ l ∧ d.deleted = [1, 0] := by
  have ran : (((machine queueLockfreeHasAba (some 5) ℕ Unit).run (fresh Unit (some 5))
      (.push () 1 (some 6) :: List.replicate 4 (.step () false))).bind fun s =>
        (s.act queueLockfreeHasAba (.pop ())).bind fun queue =>
          (teardown queueLockfreeHasAba s).run ⟨queue, [], false⟩ (List.replicate 11 false)).map
        (fun d => (d.deleted, d.done)) = some ([1, 0], true) := by decide +kernel
  obtain ⟨d, run, results⟩ := Option.map_eq_some_iff.mp ran
  obtain ⟨s, filled, run⟩ := Option.bind_eq_some_iff.mp run
  obtain ⟨queue, called, run⟩ := Option.bind_eq_some_iff.mp run
  obtain ⟨deleted, done⟩ := Prod.ext_iff.mp results
  dsimp only at deleted done
  have start : (teardown queueLockfreeHasAba s).init ⟨queue, [], false⟩ := ⟨called, rfl, rfl⟩
  obtain ⟨l, path, -, subset, -⟩ := destroyed_iff (Machine.run_reachable (.init fresh_init) filled)
    (Machine.run_reachable (.init start) run)
  exact ⟨s, d, l, done, path, subset, deleted⟩

/-- The dummy node's data is null and there are two nodes behind it: the last one stays. -/
theorem node_leaked : ¬∀ (s : State ℕ ℕ Unit) (d : Teardown ℕ ℕ) (l : List ℕ),
    (machine queueLockfreeHasAba none ℕ Unit).Reachable s →
    (teardown queueLockfreeHasAba s).Reachable d → d.done = true →
    Path s.link s.head.ptr l → ∀ node ∈ l, node ∈ d.deleted := by
  intro all
  have ran : (((machine queueLockfreeHasAba none ℕ Unit).run (fresh Unit none)
      (.push () 1 (some 6) :: List.replicate 4 (.step () false) ++
        .push () 2 (some 7) :: List.replicate 4 (.step () false))).bind fun s =>
        (s.act queueLockfreeHasAba (.pop ())).bind fun queue =>
          ((teardown queueLockfreeHasAba s).run ⟨queue, [], false⟩ (List.replicate 7 false)).map
        fun d => ([s.head.ptr, s.link 0, s.link 1, s.link 2], d.deleted, d.done)) =
      some ([some 0, some 1, some 2, none], [1, 0], true) := by decide +kernel
  obtain ⟨s, filled, run⟩ := Option.bind_eq_some_iff.mp ran
  obtain ⟨queue, called, run⟩ := Option.bind_eq_some_iff.mp run
  obtain ⟨d, run, results⟩ := Option.map_eq_some_iff.mp run
  simp only [Prod.mk.injEq, List.cons.injEq, and_true] at results
  obtain ⟨⟨head, first, second, third⟩, deleted, done⟩ := results
  have start : (teardown queueLockfreeHasAba s).init ⟨queue, [], false⟩ := ⟨called, rfl, rfl⟩
  have path : Path s.link s.head.ptr [0, 1, 2] := ⟨head, first, second, third⟩
  have mem := all s d [0, 1, 2] (Machine.run_reachable (.init fresh_init) filled)
    (Machine.run_reachable (.init start) run) done path 2 (by simp)
  rw [deleted] at mem
  exact absurd mem (by decide)

end Codelab.LinkedQueue
