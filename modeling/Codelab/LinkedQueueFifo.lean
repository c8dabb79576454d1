import Codelab.LinkedQueueFreed

/-! The order in which the pops of any number of threads take nodes off a queue of fresh nodes. -/

namespace Codelab.LinkedQueue

open Chain

variable {α δ τ : Type*} [DecidableEq α] [DecidableEq τ] {v : Variant} {dummyData : Option δ}
  {s s' : State α δ τ} {past : Past α τ} {removed : List α} {a : Action α δ τ}

/-- The node that the step takes off the queue. -/
def State.removes (s : State α δ τ) : Action α δ τ → Option α
  | .step t spurious =>
    match s.pc t with
    | .popCasHead oldHead _ => if s.head = oldHead ∧ spurious = false then oldHead.ptr else none
    | _ => none
  | _ => none

/-- The queue with its record, and besides the nodes that have been taken off, in their order. -/
def removalMachine (v : Variant) (dummyData : Option δ) (α τ : Type*) [DecidableEq α]
    [DecidableEq τ] : Machine ((State α δ τ × Past α τ) × List α) (Action α δ τ) :=
  (recordedMachine v dummyData α τ).recorded (fun _ => [])
    fun p a _ removed => removed ++ (p.1.removes a).toList

omit [DecidableEq τ] in
@[simp] theorem State.casTail_data (s : State α δ τ) (oldTail newTail : TagPtr α) :
    (s.casTail oldTail newTail).data = s.data := by
  unfold casTail
  split_ifs <;> rfl

omit [DecidableEq τ] in
@[simp] theorem State.casTail_calls (s : State α δ τ) (oldTail newTail : TagPtr α) :
    (s.casTail oldTail newTail).calls = s.calls := by
  unfold casTail
  split_ifs <;> rfl

omit [DecidableEq α] in
theorem Past.note_chain (a : Action α δ τ) :
    ∃ linked, (past.note s a s').chain = past.chain ++ linked := by
  cases a with
  | step t spurious =>
    cases pc : s.pc t with
    | pushCasNext newNode oldTail oldTailNext =>
      simp only [Past.note, pc]
      cases s'.pc t with
      | pushCasTail node word => exact ⟨[newNode], rfl⟩
      | _ => exact ⟨[], (List.append_nil _).symm⟩
    | _ => exact ⟨[], by simp [Past.note, pc]⟩
  | _ => exact ⟨[], by simp [Past.note]⟩

omit [DecidableEq α] in
theorem Past.note_program (t : τ) (spurious : Bool) :
    (past.note s (.step t spurious) s').program = past.program := by
  cases pc : s.pc t with
  | pushCasNext newNode oldTail oldTailNext =>
    simp only [Past.note, pc]
    cases s'.pc t <;> rfl
  | _ => simp only [Past.note, pc]

/-- `head_` changes when a node is taken off, and at no other time. -/
theorem State.head_cases (next : s.act v a = some s') :
    s'.head = s.head ∧ s.removes a = none ∨
      ∃ t spurious oldHead oldHeadNext first, a = .step t spurious ∧
        s.pc t = .popCasHead oldHead oldHeadNext ∧ s.head = oldHead ∧ oldHead.ptr = some first ∧
        s'.head.ptr = oldHeadNext.ptr ∧ s.removes a = some first := by
  cases a with
  | push t newNode data =>
    simp only [State.act] at next
    split_ifs at next
    obtain rfl := Option.some.inj next
    exact .inl ⟨rfl, rfl⟩
  | pop t =>
    simp only [State.act] at next
    split_ifs at next
    obtain rfl := Option.some.inj next
    exact .inl ⟨rfl, rfl⟩
  | step t spurious =>
    cases pc : s.pc t with
    | popCasHead oldHead oldHeadNext =>
      simp only [State.act, State.step, pc] at next
      obtain ⟨first, here, next⟩ := Option.bind_eq_some_iff.mp next
      by_cases success : s.head = oldHead ∧ spurious = false
      · rw [if_pos success] at next
        obtain rfl := Option.some.inj next
        refine .inr ⟨t, spurious, oldHead, oldHeadNext, first, rfl, pc, success.1, here, rfl, ?_⟩
        simp only [State.removes, pc]
        rw [if_pos success, here]
      · rw [if_neg success] at next
        obtain rfl := Option.some.inj next
        refine .inl ⟨rfl, ?_⟩
        simp only [State.removes, pc]
        rw [if_neg success]
    | pushLoadNext newNode oldTail =>
      simp only [State.act, State.step, pc] at next
      obtain ⟨x, ptr, next⟩ := Option.bind_eq_some_iff.mp next
      refine .inl ⟨?_, by simp only [State.removes, pc]⟩
      split_ifs at next <;> obtain rfl := Option.some.inj next <;> rfl
    | pushCasNext newNode oldTail oldTailNext =>
      simp only [State.act, State.step, pc] at next
      obtain ⟨x, ptr, next⟩ := Option.bind_eq_some_iff.mp next
      refine .inl ⟨?_, by simp only [State.removes, pc]⟩
      split_ifs at next <;> obtain rfl := Option.some.inj next <;> rfl
    | popLoadNext oldHead =>
      simp only [State.act, State.step, pc] at next
      obtain ⟨x, ptr, next⟩ := Option.bind_eq_some_iff.mp next
      obtain rfl := Option.some.inj next
      exact .inl ⟨rfl, by simp only [State.removes, pc]⟩
    | popLoadTail oldHead oldHeadNext =>
      simp only [State.act, State.step, pc] at next
      refine .inl ⟨?_, by simp only [State.removes, pc]⟩
      split_ifs at next <;> obtain rfl := Option.some.inj next <;> rfl
    | idle | pushed | popped ret =>
      simp only [State.act, State.step, pc] at next
      cases next
    | _ =>
      simp only [State.act, State.step, pc] at next
      obtain rfl := Option.some.inj next
      refine .inl ⟨?_, by simp only [State.removes, pc]⟩
      simp [State.goto, State.ended, State.sawHead, State.sawTail]

/-- Data are written by calls of `push` alone. -/
theorem State.step_data {t : τ} {spurious : Bool} (next : s.step v t spurious = some s') :
    s'.data = s.data ∧ s'.calls = s.calls := by
  cases pc : s.pc t with
  | pushLoadNext newNode oldTail =>
    simp only [State.step, pc] at next
    obtain ⟨x, ptr, next⟩ := Option.bind_eq_some_iff.mp next
    split_ifs at next <;> obtain rfl := Option.some.inj next <;> exact ⟨rfl, rfl⟩
  | pushCasNext newNode oldTail oldTailNext =>
    simp only [State.step, pc] at next
    obtain ⟨x, ptr, next⟩ := Option.bind_eq_some_iff.mp next
    split_ifs at next <;> obtain rfl := Option.some.inj next <;> exact ⟨rfl, rfl⟩
  | popLoadNext oldHead =>
    simp only [State.step, pc] at next
    obtain ⟨x, ptr, next⟩ := Option.bind_eq_some_iff.mp next
    obtain rfl := Option.some.inj next
    exact ⟨rfl, rfl⟩
  | popLoadTail oldHead oldHeadNext =>
    simp only [State.step, pc] at next
    split_ifs at next <;> obtain rfl := Option.some.inj next <;> exact ⟨rfl, rfl⟩
  | popCasHead oldHead oldHeadNext =>
    simp only [State.step, pc] at next
    obtain ⟨x, ptr, next⟩ := Option.bind_eq_some_iff.mp next
    split_ifs at next <;> obtain rfl := Option.some.inj next <;> exact ⟨rfl, rfl⟩
  | idle | pushed | popped ret =>
    simp only [State.step, pc] at next
    cases next
  | _ =>
    simp only [State.step, pc] at next
    obtain rfl := Option.some.inj next
    simp [State.goto, State.ended, State.sawHead, State.sawTail]

/-- The thread that moves. It gets a node by taking it off, and the value that it will return from
that node. -/
theorem State.move_cases (next : s.act v a = some s') :
    ∃ t pc, s'.pc = Function.update s.pc t pc ∧
      (∀ node, pc.removed = some node → s.removes a = some node ∨
        (s.pc t).removed = some node) ∧
      ∀ node ret, pc = .popDelete node ret → s.pc t = .popRead node ∧ ret = s.data node := by
  cases a with
  | push t newNode data =>
    simp only [State.act] at next
    split_ifs at next
    obtain rfl := Option.some.inj next
    exact ⟨t, _, rfl, by rintro _ ⟨⟩, by rintro _ _ ⟨⟩⟩
  | pop t =>
    simp only [State.act] at next
    split_ifs at next
    obtain rfl := Option.some.inj next
    exact ⟨t, _, rfl, by rintro _ ⟨⟩, by rintro _ _ ⟨⟩⟩
  | step t spurious =>
    cases pc : s.pc t with
    | popRead oldHead =>
      simp only [State.act, State.step, pc] at next
      obtain rfl := Option.some.inj next
      refine ⟨t, _, rfl, fun node here => .inr (by rw [pc]; exact here), ?_⟩
      rintro _ _ ⟨⟩
      exact ⟨pc, rfl⟩
    | popCasHead oldHead oldHeadNext =>
      simp only [State.act, State.step, pc] at next
      obtain ⟨first, here, next⟩ := Option.bind_eq_some_iff.mp next
      split_ifs at next with success <;> obtain rfl := Option.some.inj next
      · refine ⟨t, _, rfl, ?_, by rintro _ _ ⟨⟩⟩
        rintro _ ⟨⟩
        left
        simp only [State.removes, pc]
        rw [if_pos success, here]
      · exact ⟨t, _, rfl, by rintro _ ⟨⟩, by rintro _ _ ⟨⟩⟩
    | pushLoadNext newNode oldTail =>
      simp only [State.act, State.step, pc] at next
      obtain ⟨x, ptr, next⟩ := Option.bind_eq_some_iff.mp next
      split_ifs at next <;> obtain rfl := Option.some.inj next <;>
        exact ⟨t, _, rfl, by rintro _ ⟨⟩, by rintro _ _ ⟨⟩⟩
    | pushCasNext newNode oldTail oldTailNext =>
      simp only [State.act, State.step, pc] at next
      obtain ⟨x, ptr, next⟩ := Option.bind_eq_some_iff.mp next
      split_ifs at next <;> obtain rfl := Option.some.inj next <;>
        exact ⟨t, _, rfl, by rintro _ ⟨⟩, by rintro _ _ ⟨⟩⟩
    | popLoadNext oldHead =>
      simp only [State.act, State.step, pc] at next
      obtain ⟨x, ptr, next⟩ := Option.bind_eq_some_iff.mp next
      obtain rfl := Option.some.inj next
      exact ⟨t, _, rfl, by rintro _ ⟨⟩, by rintro _ _ ⟨⟩⟩
    | popLoadTail oldHead oldHeadNext =>
      simp only [State.act, State.step, pc] at next
      split_ifs at next <;> obtain rfl := Option.some.inj next <;>
        exact ⟨t, _, rfl, by rintro _ ⟨⟩, by rintro _ _ ⟨⟩⟩
    | pushCasTail newNode oldTail =>
      simp only [State.act, State.step, pc] at next
      obtain rfl := Option.some.inj next
      exact ⟨t, .pushed, by rw [State.ended, State.goto, State.casTail_pc], by rintro _ ⟨⟩,
        by rintro _ _ ⟨⟩⟩
    | pushHelp newNode oldTail oldTailNext =>
      simp only [State.act, State.step, pc] at next
      obtain rfl := Option.some.inj next
      exact ⟨t, .pushLoadTail newNode, by rw [State.goto, State.casTail_pc], by rintro _ ⟨⟩,
        by rintro _ _ ⟨⟩⟩
    | popHelp oldHead oldHeadNext oldTail =>
      simp only [State.act, State.step, pc] at next
      obtain rfl := Option.some.inj next
      exact ⟨t, .popLoadHead, by rw [State.goto, State.casTail_pc], by rintro _ ⟨⟩,
        by rintro _ _ ⟨⟩⟩
    | idle | pushed | popped ret =>
      simp only [State.act, State.step, pc] at next
      cases next
    | _ =>
      simp only [State.act, State.step, pc] at next
      obtain rfl := Option.some.inj next
      exact ⟨t, _, rfl, by rintro _ ⟨⟩, by rintro _ _ ⟨⟩⟩

/-- What has been taken off is the beginning of the chain, and `head_` stands behind it unless a pop
has set it to null. -/
structure Fifo (s : State α δ τ) (past : Past α τ) (removed : List α) : Prop where
  line : ∃ gone rest back, Line s past gone rest back
  order : removed <+: past.chain
  head : ∀ node, s.head.ptr = some node → ∃ more, past.chain = removed ++ node :: more
  taken : ∀ t node, (s.pc t).removed = some node → node ∈ removed
  values : ∀ t node ret, s.pc t = .popDelete node ret → ret = s.data node
  called : ∀ node data, .push node data ∈ s.calls →
    s.data node = data ∧ ∃ u, node ∈ past.program u

namespace Fifo

theorem start (start : (machine v dummyData α τ).init s) : Fifo s (Past.start s) [] := by
  obtain ⟨dummy, line⟩ := line_init start
  obtain ⟨dummy, head, -, -, -, -, -, idle, -, -, -, -, calls, -⟩ := start
  refine ⟨⟨_, _, _, line⟩, List.nil_prefix, fun node top => ⟨[], ?_⟩, fun t node here => ?_,
    fun t node ret here => ?_, fun node data mem => ?_⟩
  · rw [Past.start, top]
    rfl
  · rw [idle] at here
    cases here
  · rw [idle] at here
    cases here
  · rw [calls] at mem
    cases mem

omit [DecidableEq α] [DecidableEq τ] in
/-- What follows `first` in the chain is what it is linked to. -/
theorem head_next {gone rest back : List α} (line : Line s past gone rest back) {first y : α}
    {more : List α} (split : past.chain = removed ++ first :: more) (link : s.link first = some y) :
    ∃ more', more = y :: more' := by
  have path := line.shape.path
  rw [split] at path
  have behind := path.drop
  rw [link] at behind
  obtain ⟨more', same, -⟩ := behind.of_some
  exact ⟨more', same⟩

/-- A push of a fresh node leaves the data of all nodes alone that are or were in the queue. -/
theorem data_kept (h : Fifo s past removed) (fresh : freshNodes (s, past) a)
    (next : s.act v a = some s') :
    (∀ node ∈ past.chain, s'.data node = s.data node) ∧ ∀ node data, .push node data ∈ s'.calls →
      s'.data node = data ∧ ∃ u, node ∈ (past.note s a s').program u := by
  cases a with
  | push t newNode data =>
    simp only [State.act] at next
    split_ifs at next
    obtain rfl := Option.some.inj next
    refine ⟨fun node mem => ?_, fun node data' mem => ?_⟩
    · refine Function.update_of_ne ?_ ..
      rintro rfl
      exact fresh.1 mem
    rcases List.mem_append.mp mem with old | new
    · obtain ⟨value, u, called⟩ := h.called node data' old
      have apart : node ≠ newNode := by
        rintro rfl
        exact fresh.2 u called
      refine ⟨(Function.update_of_ne apart ..).trans value, u, ?_⟩
      change node ∈ Function.update past.program t _ u
      by_cases e : u = t
      · rw [e, Function.update_self]
        exact List.mem_append_left _ (e ▸ called)
      · rwa [Function.update_of_ne e]
    · obtain ⟨rfl, rfl⟩ := Call.push.inj (List.mem_singleton.mp new)
      refine ⟨Function.update_self .., t, ?_⟩
      change node ∈ Function.update past.program t _ t
      rw [Function.update_self]
      exact List.mem_append_right _ (List.mem_singleton_self _)
  | pop t =>
    simp only [State.act] at next
    split_ifs at next
    obtain rfl := Option.some.inj next
    refine ⟨fun node mem => rfl, fun node data mem => ?_⟩
    rcases List.mem_append.mp mem with old | new
    · exact h.called node data old
    · cases List.mem_singleton.mp new
  | step t spurious =>
    obtain ⟨data, calls⟩ := State.step_data next
    rw [data, calls, Past.note_program]
    exact ⟨fun node mem => rfl, h.called⟩

theorem act (h : Fifo s past removed) (fresh : freshNodes (s, past) a)
    (next : s.act v a = some s') :
    Fifo s' (past.note s a s') (removed ++ (s.removes a).toList) := by
  obtain ⟨gone, rest, back, line⟩ := h.line
  obtain ⟨kept, called⟩ := h.data_kept fresh next
  obtain ⟨linked, chain⟩ : ∃ linked, (past.note s a s').chain = past.chain ++ linked :=
    Past.note_chain a
  obtain ⟨order, head⟩ : removed ++ (s.removes a).toList <+: past.chain ∧
      ∀ node, s'.head.ptr = some node →
        ∃ more, past.chain = removed ++ (s.removes a).toList ++ node :: more := by
    rcases State.head_cases next with
      ⟨same, none⟩ | ⟨t, spurious, oldHead, oldHeadNext, first, rfl, pc, top, here, moved, taken⟩
    · rw [none, same, Option.toList_none, List.append_nil]
      exact ⟨h.order, h.head⟩
    · have known := line.known t
      rw [pc] at known
      obtain ⟨-, links, -⟩ := known
      obtain ⟨more, split⟩ := h.head first (by rw [top, here])
      rw [taken, Option.toList_some, split]
      refine ⟨⟨more, by simp⟩, fun node there => ?_⟩
      obtain ⟨x, -, here', link⟩ := links node (moved.symm.trans there)
      obtain rfl := Option.some.inj (here.symm.trans here')
      obtain ⟨more', rfl⟩ := head_next line split link
      exact ⟨more', by simp⟩
  refine ⟨line.act fresh next, ?_, fun node there => ?_, fun u node here => ?_,
    fun u node ret here => ?_, called⟩
  · rw [chain]
    exact order.trans (List.prefix_append ..)
  · obtain ⟨more, split⟩ := head node there
    exact ⟨more ++ linked, by rw [chain, split]; simp⟩
  · obtain ⟨t, pc, moved, got, -⟩ := State.move_cases next
    by_cases e : u = t
    · rw [e, moved, Function.update_self] at here
      rcases got node here with now | old
      · rw [now]
        exact List.mem_append_right _ (List.mem_singleton_self _)
      · exact List.mem_append_left _ (h.taken t node old)
    · rw [moved, Function.update_of_ne e] at here
      exact List.mem_append_left _ (h.taken u node here)
  · obtain ⟨t, pc, moved, -, read⟩ := State.move_cases next
    by_cases e : u = t
    · rw [e, moved, Function.update_self] at here
      obtain ⟨before, value⟩ := read node ret here
      rw [kept node (h.order.mem (h.taken t node (by rw [before]; rfl)))]
      exact value
    · rw [moved, Function.update_of_ne e] at here
      rw [kept node (h.order.mem (h.taken u node (by rw [here]; rfl)))]
      exact h.values u node ret here

end Fifo

theorem fifo_reachable {p : (State α δ τ × Past α τ) × List α}
    (h : (removalMachine v dummyData α τ).ReachableBy (fun p a => freshNodes p.1 a) p) :
    Fifo p.1.1 p.1.2 p.2 := by
  refine h.recorded_invariant (fun p removed => Fifo p.1 p.2 removed) (fun p start => ?_)
    fun p a p' removed before fresh next => ?_
  · rw [start.2]
    exact .start start.1
  · obtain ⟨moved, noted⟩ := Machine.recorded_next.mp next
    rw [noted]
    exact before.act fresh moved

/-- Any number of threads push fresh nodes and pop, in any order of their steps. Nodes are taken off
in the order in which they were linked, the first dummy node first; as long as no pop has set
`head_` to null, the queue has all the others, and each pop returns the data with which its node was
pushed. -/
theorem concurrent_fifo (h : (removalMachine v dummyData α τ).ReachableBy
      (fun p a => freshNodes p.1 a) ((s, past), removed)) :
    removed <+: past.chain ∧
      (∀ node, s.head.ptr = some node → ∃ more, past.chain = removed ++ node :: more ∧
        Path s.link (some node) (node :: more)) ∧
      (∀ t node ret, s.pc t = .popDelete node ret → node ∈ removed ∧ ret = s.data node) ∧
      ∀ node data, .push node data ∈ s.calls → s.data node = data := by
  have fifo := fifo_reachable h
  obtain ⟨gone, rest, back, line⟩ := fifo.line
  refine ⟨fifo.order, fun node top => ?_, fun t node ret here => ⟨?_, fifo.values t node ret here⟩,
    fun node data mem => (fifo.called node data mem).1⟩
  · obtain ⟨more, split⟩ := fifo.head node top
    have path := line.shape.path
    rw [split] at path
    exact ⟨more, split, rfl, path.drop⟩
  · exact fifo.taken t node (by rw [here]; rfl)

/-- The second producer moves `tail_` on for the first one; then both threads pop, and the second
has the data of the first node in its hands. -/
theorem concurrent_fifo_two : ∃ (s : State ℕ ℕ (Fin 2)) (past : Past ℕ (Fin 2)),
    past.chain = [0, 1, 2] ∧ s.pc 1 = .popDelete 1 (some 10) ∧ s.data 1 = some 10 ∧
      [0, 1] <+: past.chain := by
  have ran : ((removalMachine queueVersionNext none ℕ (Fin 2)).runBy
      (fun p a => freshNodes p.1 a) ((fresh (Fin 2) none, Past.start (fresh (Fin 2) none)), [])
      [.push 0 1 (some 10), .step 0 false, .step 0 false, .step 0 false, .push 1 2 (some 20),
        .step 1 false, .step 1 false, .step 1 false, .step 1 false, .step 1 false, .step 1 false,
        .step 1 false, .step 0 false, .pop 0, .pop 1, .step 0 false, .step 0 false, .step 0 false,
        .step 0 false, .step 1 false, .step 1 false, .step 1 false, .step 1 false,
        .step 1 false]).map (fun p => (p.1.2.chain, p.2, p.1.1.pc 1)) =
      some ([0, 1, 2], [0, 1], .popDelete 1 (some 10)) := by decide +kernel
  obtain ⟨⟨⟨s, past⟩, removed⟩, run, results⟩ := Option.map_eq_some_iff.mp ran
  obtain ⟨chain, rest⟩ := Prod.ext_iff.mp results
  obtain ⟨taken, pc⟩ := Prod.ext_iff.mp rest
  dsimp only at chain taken pc
  have start : (removalMachine queueVersionNext (none : Option ℕ) ℕ (Fin 2)).init
      ((fresh (Fin 2) none, Past.start (fresh (Fin 2) none)), []) := ⟨⟨fresh_init, rfl⟩, rfl⟩
  have reached := (Machine.runBy_reachable (.init start) run).mono fun p a admitted =>
    of_decide_eq_true admitted
  obtain ⟨order, -, values, -⟩ := concurrent_fifo reached
  exact ⟨s, past, chain, pc, (values 1 1 (some 10) pc).2.symm, taken ▸ order⟩

end Codelab.LinkedQueue
