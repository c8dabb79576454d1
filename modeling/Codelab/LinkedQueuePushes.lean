import Codelab.LinkedQueueFresh

/-! Concurrent pushes with no pop. The chain from the dummy node is the nodes in the order in
which they were linked, and `tail_` lags behind its end by at most one node. So a push that
helps a lagging `tail_` on needs two iterations at most when it runs alone. -/

namespace Codelab.LinkedQueue

open Chain

/-- In a call of `pop` or back from one. -/
@[simp] def Pc.popping {α δ : Type*} : Pc α δ → Bool
  | .popLoadHead | .popLoadNext _ | .popLoadTail .. | .popHelp .. | .popCasHead .. | .popRead _
  | .popDelete .. | .popped _ => true
  | _ => false

/-- Every call is a push. -/
@[simp] def Action.pushes {α δ τ : Type*} : Action α δ τ → Bool
  | .pop _ => false
  | _ => true

variable {α δ τ : Type*} [DecidableEq α] [DecidableEq τ] {v : Variant} {dummyData : Option δ}
  {s s' : State α δ τ} {past : Past α τ} {t : τ}

/-- Nobody pops, `head_` stays at the dummy node, and each thread has linked the nodes it has
called `push` with in this order, except for the one it is about to link. -/
structure PushesOnly (s : State α δ τ) (past : Past α τ) : Prop where
  popping : ∀ u, (s.pc u).popping = false
  deleted : past.deleted = []
  head : s.head.ptr = past.chain.head?
  returned : ∀ node ∈ past.returned, node ∈ past.chain.tail
  program : ∀ u, ∃ done, past.program u = done ++ (s.pc u).pushing.toList ∧
    done.Sublist past.chain.tail

omit [DecidableEq α] [DecidableEq τ] in
theorem PushesOnly.init (start : (s.head.ptr).isSome = true) (idle : ∀ u, s.pc u = .idle) :
    PushesOnly s (Past.start s) where
  popping u := by rw [idle u]; rfl
  deleted := rfl
  head := by
    obtain ⟨dummy, head⟩ := Option.isSome_iff_exists.mp start
    rw [Past.start, head]
    rfl
  returned := nofun
  program u := ⟨[], by rw [idle u]; rfl, List.nil_sublist _⟩

variable {pc : Pc α δ}

omit [DecidableEq α] in
/-- A thread moves on with the node it had to link. -/
theorem PushesOnly.move (h : PushesOnly s past) (hpc : s'.pc = Function.update s.pc t pc)
    (popping : pc.popping = false) (pushing : pc.pushing = (s.pc t).pushing)
    (head : s'.head = s.head) : PushesOnly s' past := by
  refine ⟨fun u => ?_, h.deleted, head ▸ h.head, h.returned, fun u => ?_⟩
  · by_cases e : u = t
    · rw [e, hpc, Function.update_self, popping]
    · rw [hpc, Function.update_of_ne e, h.popping u]
  · rw [kept_of_move hpc pushing u]
    exact h.program u

omit [DecidableEq α] in
theorem PushesOnly.begin (h : PushesOnly s past) {newNode : α} (quiet : (s.pc t).pushing = none)
    (hpc : s'.pc = Function.update s.pc t (.pushLoadTail newNode)) (head : s'.head = s.head) :
    PushesOnly s' { past with
      program := Function.update past.program t (past.program t ++ [newNode]) } := by
  refine ⟨fun u => ?_, h.deleted, head ▸ h.head, h.returned, fun u => ?_⟩
  · by_cases e : u = t
    · rw [e, hpc, Function.update_self]
      rfl
    · rw [hpc, Function.update_of_ne e, h.popping u]
  · dsimp only
    by_cases e : u = t
    · obtain ⟨done, program, linked⟩ := h.program t
      rw [quiet, Option.toList_none, List.append_nil] at program
      rw [e, hpc, Function.update_self, Function.update_self, program]
      exact ⟨done, rfl, linked⟩
    · rw [hpc, Function.update_of_ne e, Function.update_of_ne e]
      exact h.program u

omit [DecidableEq α] in
/-- A linked node comes to the end of the chain and of what its thread has linked. -/
theorem PushesOnly.link (h : PushesOnly s past) {newNode : α} {oldTail : TagPtr α}
    (pushing : (s.pc t).pushing = some newNode) (some : past.chain ≠ [])
    (hpc : s'.pc = Function.update s.pc t (.pushCasTail newNode oldTail))
    (head : s'.head = s.head) :
    PushesOnly s' { past with chain := past.chain ++ [newNode] } := by
  have more : (past.chain ++ [newNode]).tail = past.chain.tail ++ [newNode] :=
    List.tail_append_of_ne_nil some
  refine ⟨fun u => ?_, h.deleted, ?_, fun node mem => ?_, fun u => ?_⟩
  · by_cases e : u = t
    · rw [e, hpc, Function.update_self]
      rfl
    · rw [hpc, Function.update_of_ne e, h.popping u]
  · rw [head, h.head]
    exact (List.head?_append_of_ne_nil _ some).symm
  · dsimp only
    rw [more]
    exact List.mem_append_left _ (h.returned node mem)
  · obtain ⟨done, program, linked⟩ := h.program u
    dsimp only
    rw [more]
    by_cases e : u = t
    · subst e
      rw [pushing] at program
      rw [hpc, Function.update_self, program]
      exact ⟨done ++ [newNode], (List.append_nil _).symm, linked.append (.refl _)⟩
    · rw [hpc, Function.update_of_ne e]
      exact ⟨done, program, linked.trans (List.sublist_append_left ..)⟩

theorem PushesOnly.act {gone rest back : List α} (h : PushesOnly s past)
    (line : Line s past gone rest back) {a : Action α δ τ} (pushes : a.pushes = true)
    (next : s.act v a = some s') : PushesOnly s' (past.note s a s') := by
  cases a with
  | pop t => cases pushes
  | push t newNode data =>
    simp only [State.act] at next
    split_ifs at next with allowed
    obtain rfl := Option.some.inj next
    exact h.begin (resting_idle allowed.1).1 rfl rfl
  | step t spurious =>
    have quiet := h.popping t
    have known := line.known t
    cases pc : s.pc t with
    | pushLoadTail newNode =>
      simp only [State.act, State.step, pc] at next
      obtain rfl := Option.some.inj next
      simp only [Past.note, pc]
      exact h.move rfl rfl (by rw [pc]; rfl) rfl
    | pushLoadNext newNode oldTail =>
      simp only [State.act, State.step, pc] at next
      obtain ⟨x, -, next⟩ := Option.bind_eq_some_iff.mp next
      simp only [Past.note, pc]
      split_ifs at next <;> obtain rfl := Option.some.inj next <;>
        exact h.move rfl rfl (by rw [pc]; rfl) rfl
    | pushCasNext newNode oldTail oldTailNext =>
      simp only [State.act, State.step, pc] at next
      obtain ⟨x, ptr, next⟩ := Option.bind_eq_some_iff.mp next
      split_ifs at next <;> obtain rfl := Option.some.inj next
      · rw [pc] at known
        obtain ⟨⟨y, mem, -⟩, -⟩ := known
        simp only [Past.note, pc, State.goto, Function.update_self]
        refine h.link (t := t) (by rw [pc]; rfl) ?_ rfl rfl
        rw [line.shape.parts]
        exact List.ne_nil_of_mem (List.mem_append_left back mem)
      · simp only [Past.note, pc, State.goto, Function.update_self]
        exact h.move rfl rfl (by rw [pc]; rfl) rfl
    | pushHelp newNode oldTail oldTailNext =>
      simp only [State.act, State.step, pc] at next
      obtain rfl := Option.some.inj next
      simp only [Past.note, pc]
      have hpc : ((s.casTail oldTail ⟨oldTailNext.ptr, v.endTag oldTail⟩).goto t
          (.pushLoadTail newNode)).pc = Function.update s.pc t (.pushLoadTail newNode) := by
        rw [State.goto, State.casTail_pc]
      exact h.move hpc rfl (by rw [pc]; rfl) (State.casTail_head ..)
    | pushCasTail newNode oldTail =>
      rw [pc] at known
      obtain ⟨x, mem, ptr, link⟩ := known
      simp only [State.act, State.step, pc] at next
      obtain rfl := Option.some.inj next
      simp only [Past.note, pc]
      have hpc : (((s.casTail oldTail ⟨some newNode, v.endTag oldTail⟩).goto t .pushed).ended
          .pushed).pc = Function.update s.pc t .pushed := by
        rw [State.ended, State.goto, State.casTail_pc]
      have moved := h.move hpc rfl (by rw [pc]; rfl) (State.casTail_head ..)
      refine ⟨moved.popping, moved.deleted, moved.head, fun node returned => ?_, moved.program⟩
      rcases List.mem_append.mp returned with before | now
      · exact h.returned node before
      · -- The node hangs behind another one, so it is not the first of the chain.
        have path := line.shape.path
        have inChain : x ∈ past.chain := by
          rw [line.shape.parts]
          exact List.mem_append_left back mem
        rw [List.mem_singleton.mp now]
        dsimp only
        obtain ⟨first, linked, chain⟩ := List.exists_cons_of_ne_nil (List.ne_nil_of_mem inChain)
        rw [chain] at path inChain ⊢
        have behind := path.next_mem inChain link
        exact (List.mem_cons.mp behind).resolve_left (path.next_ne_head inChain link)
    | idle | pushed =>
      simp only [State.act, State.step, pc] at next
      cases next
    | _ => rw [pc] at quiet; cases quiet

omit [DecidableEq α] [DecidableEq τ] in
/-- With nothing deleted a node that is not in use is a fresh one. -/
theorem PushesOnly.fresh {gone rest back : List α} (h : PushesOnly s past)
    (line : Line s past gone rest back) {node : α} (free : s.free node = true) :
    past.fresh node := by
  refine (line.owners.unused node free).resolve_left fun dead => ?_
  rw [h.deleted] at dead
  cases dead

theorem pushes_inv
    (h : (recordedMachine v dummyData α τ).ReachableBy (fun _ a => a.pushes = true) (s, past)) :
    (∃ gone rest back, Line s past gone rest back) ∧ PushesOnly s past := by
  refine h.recorded_invariant
    (fun s past => (∃ gone rest back, Line s past gone rest back) ∧ PushesOnly s past)
    (fun s start => ?_) fun s a s' past before pushes next => ?_
  · obtain ⟨dummy, line⟩ := line_init start
    obtain ⟨dummy, head, -, -, -, -, -, idle, -⟩ := start
    exact ⟨⟨[], _, [], line⟩, .init (by rw [head]; rfl) idle⟩
  · obtain ⟨⟨gone, rest, back, line⟩, only⟩ := before
    have fresh : freshNodes (s, past) a := by
      cases a with
      | push t newNode data =>
        have begun : s.act v (.push t newNode data) = some s' := next
        simp only [State.act] at begun
        split_ifs at begun with allowed
        exact only.fresh line allowed.2
      | _ => trivial
    exact ⟨line.act fresh next, only.act line pushes next⟩

/-- Pushes of any number of threads lose nothing: in every state the chain from the dummy node
are the nodes linked so far, in the order of their links, and ends; `tail_` is its last node
or the one before; a node whose `push` has returned is in it; and each thread has linked the
nodes it has called `push` with in this order, but for the one it is about to link. -/
theorem push_chain
    (h : (recordedMachine v dummyData α τ).ReachableBy (fun _ a => a.pushes = true) (s, past)) :
    ∃ dummy linked, past.chain = dummy :: linked ∧ s.head.ptr = some dummy ∧
      Path s.link (some dummy) (dummy :: linked) ∧ (dummy :: linked).Nodup ∧
      (∃ front x back, dummy :: linked = front ++ x :: back ∧ s.tail.ptr = some x ∧
        back.length ≤ 1) ∧
      (∀ node ∈ past.returned, node ∈ linked) ∧
      ∀ u, ∃ done, past.program u = done ++ (s.pc u).pushing.toList ∧ done.Sublist linked := by
  obtain ⟨⟨gone, rest, back, line⟩, only⟩ := pushes_inv h
  obtain ⟨front, x, split, atTail⟩ := line.shape.tail
  have some : past.chain ≠ [] := by
    rw [line.shape.parts, split]
    simp
  obtain ⟨dummy, linked, chain⟩ := List.exists_cons_of_ne_nil some
  have path := line.shape.path
  have head := only.head
  have returned := only.returned
  have program := only.program
  have parts := line.shape.parts
  rw [chain] at path head returned program parts
  refine ⟨dummy, linked, chain, head, path, path.nodup, ⟨gone ++ front, x, back, ?_, atTail,
    line.shape.short⟩, returned, program⟩
  rw [parts, split]
  simp

/-- Two producers; the second links its node and swings a `tail_` that the first has left
behind. -/
theorem push_chain_helped : ∃ (s : State ℕ ℕ (Fin 2)) (past : Past ℕ (Fin 2)),
    past.chain = [0, 1, 2] ∧ past.returned = [2] ∧ s.tail.ptr = some 2 ∧
      Path s.link (some 0) [0, 1, 2] := by
  have ran : ((recordedMachine queueLockfreeHasAba none ℕ (Fin 2)).runBy (fun _ a => a.pushes)
      (fresh (Fin 2) none, Past.start (fresh (Fin 2) none))
      [.push 0 1 none, .step 0 false, .step 0 true, .step 0 false, .push 1 2 none, .step 1 false,
        .step 1 false, .step 1 false, .step 1 false, .step 1 false, .step 1 false,
        .step 1 false]).map (fun p => (p.1.head.ptr, p.1.tail.ptr, p.2.chain, p.2.returned)) =
      some (some 0, some 2, [0, 1, 2], [2]) := by decide +kernel
  obtain ⟨⟨s, past⟩, run, results⟩ := Option.map_eq_some_iff.mp ran
  obtain ⟨head, rest⟩ := Prod.ext_iff.mp results
  obtain ⟨tail, rest⟩ := Prod.ext_iff.mp rest
  obtain ⟨chain, returned⟩ := Prod.ext_iff.mp rest
  dsimp only at head tail chain returned
  have start : (recordedMachine queueLockfreeHasAba (none : Option ℕ) ℕ (Fin 2)).init
      (fresh (Fin 2) none, Past.start (fresh (Fin 2) none)) := ⟨fresh_init, rfl⟩
  obtain ⟨dummy, linked, same, -, path, -⟩ := push_chain (Machine.runBy_reachable (.init start) run)
  rw [chain] at same
  obtain ⟨rfl, rfl⟩ := List.cons_eq_cons.mp same
  exact ⟨s, past, chain, returned, tail, path⟩

/-- The first statement of the loop of `push`. -/
def Pc.loops {α δ : Type*} : Pc α δ → Bool
  | .pushLoadTail _ => true
  | _ => false

/-- The queue with a count of the iterations that `t` has begun. -/
def countedMachine (v : Variant) (dummyData : Option δ) (α : Type*) [DecidableEq α] (t : τ) :
    Machine (State α δ τ × ℕ) (Action α δ τ) :=
  (machine v dummyData α τ).recorded (fun _ => 0) fun s a _ count =>
    match a with
    | .step u _ => if u = t ∧ (s.pc t).loops = true then count + 1 else count
    | _ => count

/-- `n` steps of `t` alone, without spurious failures. -/
def alone (v : Variant) (dummyData : Option δ) (t : τ) (n : ℕ) (p : State α δ τ × ℕ) :
    Option (State α δ τ × ℕ) :=
  (countedMachine v dummyData α t).run p (List.replicate n (.step t false))

theorem alone_succ (dummyData : Option δ) (n count : ℕ) (next : s.step v t false = some s') :
    alone v dummyData t (n + 1) (s, count) =
      alone v dummyData t n (s', if (s.pc t).loops = true then count + 1 else count) := by
  have moved : (countedMachine v dummyData α t).next (s, count) (.step t false) =
      some (s', if (s.pc t).loops = true then count + 1 else count) := by
    refine Machine.recorded_next.mpr ⟨next, ?_⟩
    simp
  rw [alone, List.replicate_succ, Machine.run, moved]
  rfl

/-- With nothing behind `tail_` one iteration links the node and moves `tail_` to it. -/
theorem alone_links (count : ℕ) {newNode x : α} (here : s.pc t = .pushLoadTail newNode)
    (tail : s.tail.ptr = some x) (last : s.link x = none) :
    ∃ s', alone v dummyData t 4 (s, count) = some (s', count + 1) ∧ s'.pc t = .pushed := by
  let s₁ := (s.goto t (.pushLoadNext newNode s.tail)).sawTail t
  have here₁ : s₁.pc t = .pushLoadNext newNode s.tail := Function.update_self ..
  have loaded : s.step v t false = some s₁ := by simp only [State.step, here, s₁]
  let s₂ := s₁.goto t (.pushCasNext newNode s.tail (s.next x))
  have here₂ : s₂.pc t = .pushCasNext newNode s.tail (s.next x) := Function.update_self ..
  have read : s₁.step v t false = some s₂ := by
    simp only [State.step, here₁, tail, Option.bind_some]
    exact if_pos last
  let s₃ : State α δ τ := { s₂.goto t (.pushCasTail newNode s.tail) with
    next := Function.update s₂.next x ⟨some newNode, v.linkTag (s.next x)⟩ }
  have here₃ : s₃.pc t = .pushCasTail newNode s.tail := Function.update_self ..
  have linked : s₂.step v t false = some s₃ := by
    simp only [State.step, here₂, tail, Option.bind_some]
    exact if_pos ⟨rfl, trivial⟩
  let s₄ := ((s₃.casTail s.tail ⟨some newNode, v.endTag s.tail⟩).goto t .pushed).ended .pushed
  have swung : s₃.step v t false = some s₄ := by simp only [State.step, here₃, s₄]
  refine ⟨s₄, ?_, Function.update_self ..⟩
  rw [alone_succ _ 3 count loaded, alone_succ _ 2 _ read, alone_succ _ 1 _ linked,
    alone_succ _ 0 _ swung, here, here₁, here₂, here₃]
  rfl

/-- With a node behind `tail_` one iteration moves `tail_` to it. -/
theorem alone_helps (count : ℕ) {newNode x y : α} (helps : v.helps = true)
    (here : s.pc t = .pushLoadTail newNode) (tail : s.tail.ptr = some x)
    (behind : s.link x = some y) :
    ∃ s', alone v dummyData t 3 (s, count) = some (s', count + 1) ∧
      s'.pc t = .pushLoadTail newNode ∧ s'.tail.ptr = some y ∧ s'.link = s.link := by
  let s₁ := (s.goto t (.pushLoadNext newNode s.tail)).sawTail t
  have here₁ : s₁.pc t = .pushLoadNext newNode s.tail := Function.update_self ..
  have loaded : s.step v t false = some s₁ := by simp only [State.step, here, s₁]
  let s₂ := s₁.goto t (.pushHelp newNode s.tail (s.next x))
  have here₂ : s₂.pc t = .pushHelp newNode s.tail (s.next x) := Function.update_self ..
  have read : s₁.step v t false = some s₂ := by
    simp only [State.step, here₁, tail, Option.bind_some]
    refine (if_neg fun last => ?_).trans (if_pos helps)
    exact absurd (behind.symm.trans last) (Option.some_ne_none y)
  let s₃ := (s₂.casTail s.tail ⟨(s.next x).ptr, v.endTag s.tail⟩).goto t (.pushLoadTail newNode)
  have swung : s₂.step v t false = some s₃ := by simp only [State.step, here₂, s₃]
  have moved : s₂.casTail s.tail ⟨(s.next x).ptr, v.endTag s.tail⟩ =
      { s₂ with tail := ⟨(s.next x).ptr, v.endTag s.tail⟩, tailCount := s₂.tailCount + 1 } :=
    if_pos rfl
  refine ⟨s₃, ?_, Function.update_self .., ?_, ?_⟩
  · rw [alone_succ _ 2 count loaded, alone_succ _ 1 _ read, alone_succ _ 0 _ swung, here,
      here₁, here₂]
    rfl
  · simp only [s₃, moved]
    exact behind
  · simp only [s₃, moved]
    rfl

theorem alone_add (dummyData : Option δ) (m n : ℕ) (p : State α δ τ × ℕ) :
    alone v dummyData t (m + n) p = (alone v dummyData t m p).bind (alone v dummyData t n) := by
  rw [alone, ← List.replicate_append_replicate, Machine.run_append]
  rfl

/-- Whatever other pushers have left behind, a push that runs alone from its start without
spurious failures returns true in at most two iterations. -/
theorem push_returns (helps : v.helps = true) {newNode : α} {data : Option δ}
    (h : (machine v dummyData α τ).ReachableBy (fun _ a => a.pushes = true) s)
    (begun : s.act v (.push t newNode data) = some s') :
    ∃ n last count, alone v dummyData t n (s', 0) = some (last, count) ∧
      last.pc t = .pushed ∧ count ≤ 2 := by
  have reached : (machine v dummyData α τ).ReachableBy (fun _ a => a.pushes = true) s' :=
    .step (a := .push t newNode data) h rfl begun
  obtain ⟨past, recorded⟩ : ∃ past, (recordedMachine v dummyData α τ).ReachableBy
      (fun _ a => a.pushes = true) (s', past) := reached.recorded
  obtain ⟨⟨gone, rest, back, line⟩, -⟩ := pushes_inv recorded
  have here : s'.pc t = .pushLoadTail newNode := by
    simp only [State.act] at begun
    split_ifs at begun
    obtain rfl := Option.some.inj begun
    exact Function.update_self ..
  obtain ⟨front, x, -, tail⟩ := line.shape.tail
  have behind := line.shape.behind tail
  have short := line.shape.short
  cases back with
  | nil =>
    obtain ⟨last, ran, pushed⟩ := alone_links 0 here tail behind
    exact ⟨4, last, 1, ran, pushed, Nat.le_succ 1⟩
  | cons y back =>
    obtain rfl : back = [] := by
      cases back with
      | nil => rfl
      | cons => simp at short
    obtain ⟨mid, helped, again, moved, links⟩ := alone_helps 0 helps here tail behind.1
    obtain ⟨last, ran, pushed⟩ := alone_links 1 again moved (links ▸ behind.2)
    refine ⟨3 + 4, last, 2, ?_, pushed, le_rfl⟩
    rw [alone_add, helped]
    exact ran

/-- The other pusher has been halted between the link of its node and the move of `tail_`. -/
theorem push_returns_lagging : ∃ s' : State ℕ ℕ (Fin 2), s'.tail.ptr = some 0 ∧
    s'.link 0 = some 1 ∧ ∃ n last count, alone queueVersion none 1 n (s', 0) = some (last, count) ∧
      last.pc 1 = .pushed ∧ count ≤ 2 := by
  have ran : ((machine queueVersion none ℕ (Fin 2)).runBy (fun _ a => a.pushes)
      (fresh (Fin 2) none) [.push 0 1 none, .step 0 false, .step 0 false, .step 0 false]).map
        (fun s => (s.tail.ptr, s.link 0, s.pc 1, s.free 2)) =
      some (some 0, some 1, .idle, true) := by decide +kernel
  obtain ⟨s, run, results⟩ := Option.map_eq_some_iff.mp ran
  obtain ⟨tail, rest⟩ := Prod.ext_iff.mp results
  obtain ⟨link, rest⟩ := Prod.ext_iff.mp rest
  obtain ⟨idle, free⟩ := Prod.ext_iff.mp rest
  dsimp only at tail link idle free
  have reached := Machine.runBy_reachable (.init fresh_init) run
  obtain ⟨s', begun, tail', link'⟩ : ∃ s', s.act queueVersion (.push 1 2 none) = some s' ∧
      s'.tail = s.tail ∧ s'.link 0 = s.link 0 := by
    refine ⟨_, if_pos ⟨by rw [idle]; rfl, free⟩, rfl, congrArg TagPtr.ptr ?_⟩
    exact Function.update_of_ne (show (0 : ℕ) ≠ 2 by decide)
      (⟨none, (s.next 2).tag⟩ : TagPtr ℕ) s.next
  exact ⟨s', by rw [tail', tail], by rw [link', link], push_returns rfl reached begun⟩

end Codelab.LinkedQueue
