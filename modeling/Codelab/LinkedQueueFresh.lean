import Codelab.LinkedQueueSafety
import Codelab.Theory.History
import Mathlib.Data.Fintype.Basic

/-! Linked queues whose nodes are pushed once each. As no node comes back, the nodes that
have ever been linked form one chain from the first dummy node to the end: `head_` and
`tail_` move along it, and what a thread has read from them it has passed. -/

namespace Codelab.LinkedQueue

open Chain

/-- The record of a run: the first dummy node and after it the nodes in the order of the
successful compare-and-swaps that linked them, the nodes that each thread has called `push`
with, those whose `push` has returned and those that `pop` has deleted. -/
structure Past (α τ : Type*) where
  chain : List α
  program : τ → List α
  returned : List α
  deleted : List α

variable {α δ τ : Type*} [DecidableEq α] [DecidableEq τ] {v : Variant} {dummyData : Option δ}
  {s s' : State α δ τ} {past : Past α τ} {t : τ}

def Past.start (s : State α δ τ) : Past α τ where
  chain := s.head.ptr.toList
  program _ := []
  returned := []
  deleted := []

/-- The compare-and-swap of a link has succeeded when its thread goes on to `tail_`. -/
def Past.note (s : State α δ τ) (a : Action α δ τ) (s' : State α δ τ) (past : Past α τ) :
    Past α τ :=
  match a with
  | .push t newNode _ =>
    { past with program := Function.update past.program t (past.program t ++ [newNode]) }
  | .pop _ => past
  | .step t _ =>
    match s.pc t, s'.pc t with
    | .pushCasNext newNode _ _, .pushCasTail _ _ => { past with chain := past.chain ++ [newNode] }
    | .pushCasTail newNode _, _ => { past with returned := past.returned ++ [newNode] }
    | .popDelete oldHead _, _ => { past with deleted := past.deleted ++ [oldHead] }
    | _, _ => past

/-- The queue with its record. -/
def recordedMachine (v : Variant) (dummyData : Option δ) (α τ : Type*) [DecidableEq α]
    [DecidableEq τ] : Machine (State α δ τ × Past α τ) (Action α δ τ) :=
  (machine v dummyData α τ).recorded Past.start Past.note

/-- The node has not been in the queue and nobody has called `push` with it. -/
def Past.fresh (past : Past α τ) (node : α) : Prop :=
  node ∉ past.chain ∧ ∀ t, node ∉ past.program t

/-- Only fresh nodes are pushed. -/
def freshNodes (p : State α δ τ × Past α τ) : Action α δ τ → Prop
  | .push _ newNode _ => p.2.fresh newNode
  | _ => True

instance [Fintype τ] (p : State α δ τ × Past α τ) : DecidablePred (freshNodes p)
  | .push _ newNode _ =>
    inferInstanceAs (Decidable (newNode ∉ p.2.chain ∧ ∀ t, newNode ∉ p.2.program t))
  | .pop _ | .step .. => inferInstanceAs (Decidable True)

/-- `w` holds a node of `passed` that is linked to `node`. -/
def State.follows (s : State α δ τ) (passed : List α) (w : TagPtr α) (node : α) : Prop :=
  ∃ x ∈ passed, w.ptr = some x ∧ s.link x = some node

/-- `w` has been read from `head_`: it holds the node there or one that has gone. -/
def State.sawHeadIn (s : State α δ τ) (gone : List α) (w : TagPtr α) : Prop :=
  ∀ node, w.ptr = some node → node ∈ gone ∨ s.head.ptr = some node

/-- What a thread knows: `gone` are the nodes that `head_` has left, `passed` those that
`tail_` has come to. -/
def Known (s : State α δ τ) (gone passed : List α) : Pc α δ → Prop
  | .pushLoadNext _ oldTail => ∃ x ∈ passed, oldTail.ptr = some x
  | .pushCasNext _ oldTail oldTailNext =>
    (∃ x ∈ passed, oldTail.ptr = some x) ∧ oldTailNext.ptr = none
  | .pushCasTail newNode oldTail => s.follows passed oldTail newNode
  | .pushHelp _ oldTail oldTailNext =>
    ∃ node, oldTailNext.ptr = some node ∧ s.follows passed oldTail node
  | .popLoadNext oldHead => s.sawHeadIn gone oldHead
  | .popLoadTail oldHead oldHeadNext => s.sawHeadIn gone oldHead ∧
    ∀ node, oldHeadNext.ptr = some node → s.follows passed oldHead node
  | .popHelp oldHead oldHeadNext oldTail => oldTail.ptr = oldHead.ptr ∧
    ∃ node, oldHeadNext.ptr = some node ∧ s.follows passed oldHead node
  | .popCasHead oldHead oldHeadNext => s.sawHeadIn gone oldHead ∧
    (∀ node, oldHeadNext.ptr = some node → s.follows passed oldHead node) ∧
    (s.head.ptr = oldHead.ptr → s.tail.ptr ≠ s.head.ptr)
  | _ => True

/-- The chain of all nodes ever linked: those that `head_` has left, the ones from `head_` to
`tail_`, and at most one behind `tail_`. A `head_` that a pop has set to null stays so. -/
structure Shape (s : State α δ τ) (chain gone rest back : List α) : Prop where
  parts : chain = gone ++ rest ++ back
  path : Path s.link chain.head? chain
  short : back.length ≤ 1
  tail : ∃ front x, rest = front ++ [x] ∧ s.tail.ptr = some x
  head : s.head.ptr = none ∨ s.head.ptr = rest.head?

/-- Which threads have which nodes in their hands, and the nodes that nobody has. -/
structure Owners (s : State α δ τ) (past : Past α τ) (gone : List α) : Prop where
  pushing : ∀ u node, (s.pc u).pushing = some node →
    node ∉ past.chain ∧ s.link node = none ∧ node ∈ past.program u
  pushingOnce : ∀ u w node, (s.pc u).pushing = some node → (s.pc w).pushing = some node → u = w
  removed : ∀ u node, (s.pc u).removed = some node → node ∈ gone ∧ node ∉ past.deleted
  removedOnce : ∀ u w node, (s.pc u).removed = some node → (s.pc w).removed = some node → u = w
  deleted : past.deleted ⊆ gone
  unused : ∀ node, s.free node = true → node ∈ past.deleted ∨ past.fresh node

structure Line (s : State α δ τ) (past : Past α τ) (gone rest back : List α) : Prop where
  shape : Shape s past.chain gone rest back
  owners : Owners s past gone
  known : ∀ u, Known s gone (gone ++ rest) (s.pc u)

variable {chain gone rest back gone' passed passed' : List α} {pc : Pc α δ} {node : α}

section

omit [DecidableEq α] [DecidableEq τ]

theorem State.follows.mono {w : TagPtr α} (h : s.follows passed w node) (more : passed ⊆ passed')
    (links : ∀ x ∈ passed, ∀ y, s.link x = some y → s'.link x = some y) :
    s'.follows passed' w node := by
  obtain ⟨x, mem, ptr, link⟩ := h
  exact ⟨x, more mem, ptr, links x mem node link⟩

theorem State.sawHeadIn.mono {w : TagPtr α} (h : s.sawHeadIn gone w) (more : gone ⊆ gone')
    (head : ∀ x, s.head.ptr = some x → x ∈ gone' ∨ s'.head.ptr = some x) :
    s'.sawHeadIn gone' w := by
  intro x here
  rcases h x here with left | now
  · exact .inl (more left)
  · exact head x now

/-- What a thread knows survives the steps of others: links of passed nodes stay, `head_` and
`tail_` move forward, and `tail_` stays ahead of a `head_` that a thread has found unequal. -/
theorem Known.mono (h : Known s gone passed pc) (moreGone : gone ⊆ gone')
    (more : passed ⊆ passed')
    (links : ∀ x ∈ passed, ∀ y, s.link x = some y → s'.link x = some y)
    (head : ∀ x, s.head.ptr = some x → x ∈ gone' ∨ s'.head.ptr = some x)
    (ahead : ∀ w, s.sawHeadIn gone w → (s.head.ptr = w.ptr → s.tail.ptr ≠ s.head.ptr) →
      s'.head.ptr = w.ptr → s'.tail.ptr ≠ s'.head.ptr) : Known s' gone' passed' pc := by
  cases pc with
  | pushLoadNext newNode oldTail =>
    obtain ⟨x, mem, ptr⟩ := h
    exact ⟨x, more mem, ptr⟩
  | pushCasNext newNode oldTail oldTailNext =>
    obtain ⟨⟨x, mem, ptr⟩, none⟩ := h
    exact ⟨⟨x, more mem, ptr⟩, none⟩
  | pushCasTail newNode oldTail => exact State.follows.mono h more links
  | pushHelp newNode oldTail oldTailNext =>
    obtain ⟨y, next, follows⟩ := h
    exact ⟨y, next, follows.mono more links⟩
  | popLoadNext oldHead => exact State.sawHeadIn.mono h moreGone head
  | popLoadTail oldHead oldHeadNext =>
    exact ⟨h.1.mono moreGone head, fun y next => (h.2 y next).mono more links⟩
  | popHelp oldHead oldHeadNext oldTail =>
    obtain ⟨same, y, next, follows⟩ := h
    exact ⟨same, y, next, follows.mono more links⟩
  | popCasHead oldHead oldHeadNext =>
    exact ⟨h.1.mono moreGone head, fun y next => (h.2.1 y next).mono more links,
      ahead oldHead h.1 h.2.2⟩
  | _ => trivial

/-- Nothing but the thread's place has changed. -/
theorem Known.same (h : Known s gone passed pc) (next : s'.next = s.next)
    (head : s'.head = s.head) (tail : s'.tail = s.tail) : Known s' gone passed pc := by
  refine h.mono (List.Subset.refl _) (List.Subset.refl _) ?_ ?_ ?_
  · rw [State.link_congr next]
    exact fun _ _ _ => id
  · rw [head]
    exact fun _ => .inr
  · rw [head, tail]
    exact fun _ _ apart here => apart here

theorem Shape.same (h : Shape s chain gone rest back) (next : s'.next = s.next)
    (head : s'.head = s.head) (tail : s'.tail = s.tail) : Shape s' chain gone rest back where
  parts := h.parts
  path := State.link_congr next ▸ h.path
  short := h.short
  tail := tail ▸ h.tail
  head := head ▸ h.head

theorem Shape.nodup (h : Shape s chain gone rest back) : (gone ++ rest ++ back).Nodup :=
  h.parts ▸ h.path.nodup

/-- The node at `head_` is one of those from `head_` to `tail_`. -/
theorem Shape.head_mem (h : Shape s chain gone rest back) (top : s.head.ptr = some node) :
    ∃ more, rest = node :: more := by
  rcases h.head with none | first
  · rw [none] at top
    cases top
  · rw [top] at first
    exact List.head?_eq_some_iff.mp first.symm

/-- What hangs behind `tail_`. -/
theorem Shape.behind (h : Shape s chain gone rest back) (last : s.tail.ptr = some node) :
    Path s.link (s.link node) back := by
  obtain ⟨front, x, split, atTail⟩ := h.tail
  obtain rfl := Option.some.inj (last.symm.trans atTail)
  have path := h.path
  rw [h.parts, split, List.append_assoc, List.append_assoc, ← List.append_assoc] at path
  exact path.drop

end

omit [DecidableEq α] in
theorem Owners.move (h : Owners s past gone) (hpc : s'.pc = Function.update s.pc t pc)
    (pushing : ∀ node, pc.pushing = some node → (s.pc t).pushing = some node)
    (removed : ∀ node, pc.removed = some node → (s.pc t).removed = some node)
    (link : s'.link = s.link) (free : s'.free = s.free) : Owners s' past gone := by
  have samePushing {u : τ} {node : α} (hu : (s'.pc u).pushing = some node) :
      (s.pc u).pushing = some node := by
    by_cases e : u = t
    · rw [e, hpc, Function.update_self] at hu
      exact e ▸ pushing node hu
    · rwa [hpc, Function.update_of_ne e] at hu
  have sameRemoved {u : τ} {node : α} (hu : (s'.pc u).removed = some node) :
      (s.pc u).removed = some node := by
    by_cases e : u = t
    · rw [e, hpc, Function.update_self] at hu
      exact e ▸ removed node hu
    · rwa [hpc, Function.update_of_ne e] at hu
  refine ⟨fun u node hu => ?_, fun u w node hu hw => ?_, fun u node hu => ?_,
    fun u w node hu hw => ?_, h.deleted, ?_⟩
  · rw [link]
    exact h.pushing u node (samePushing hu)
  · exact h.pushingOnce u w node (samePushing hu) (samePushing hw)
  · exact h.removed u node (sameRemoved hu)
  · exact h.removedOnce u w node (sameRemoved hu) (sameRemoved hw)
  · rw [free]
    exact h.unused

omit [DecidableEq α] in
/-- A thread that takes nothing held what it holds. -/
theorem held_before {held held' : Option α} (less : held' = none ∨ held' = held) (node : α)
    (mine : held' = some node) : held = some node := by
  rcases less with none | same
  · rw [none] at mine
    cases mine
  · exact same ▸ mine

omit [DecidableEq α] in
/-- A thread moves on without changing a shared word. -/
theorem Line.quiet (h : Line s past gone rest back) (same : SameMemory s s')
    (hpc : s'.pc = Function.update s.pc t pc)
    (pushing : pc.pushing = none ∨ pc.pushing = (s.pc t).pushing)
    (removed : pc.removed = none ∨ pc.removed = (s.pc t).removed)
    (known : Known s gone (gone ++ rest) pc) : Line s' past gone rest back := by
  refine ⟨h.shape.same same.next same.head same.tail,
    h.owners.move hpc (held_before pushing) (held_before removed) same.link same.free, fun u => ?_⟩
  by_cases e : u = t
  · rw [e, hpc, Function.update_self]
    exact known.same same.next same.head same.tail
  · rw [hpc, Function.update_of_ne e]
    exact (h.known u).same same.next same.head same.tail

omit [DecidableEq α] in
/-- A thread that holds no node afterwards moves on. -/
theorem Line.pass (h : Line s past gone rest back) (same : SameMemory s s')
    (hpc : s'.pc = Function.update s.pc t pc) (pushing : pc.pushing = none)
    (removed : pc.removed = none) (known : Known s gone (gone ++ rest) pc) :
    Line s' past gone rest back :=
  h.quiet same hpc (.inl pushing) (.inl removed) known

omit [DecidableEq α] [DecidableEq τ] in
/-- `tail_` moves to the node behind it. -/
theorem Shape.advance (h : Shape s chain gone rest back) {x y : α} (last : s.tail.ptr = some x)
    (link : s.link x = some y) (next : s'.next = s.next) (tail : s'.tail.ptr = some y)
    (head : s'.head = s.head) : back = [y] ∧ Shape s' chain gone (rest ++ [y]) [] := by
  have behind := h.behind last
  rw [link] at behind
  obtain ⟨more, rfl, -⟩ := behind.of_some
  have short := h.short
  obtain rfl : more = [] := by
    cases more with
    | nil => rfl
    | cons => simp at short
  refine ⟨rfl, ?_, State.link_congr next ▸ h.path, Nat.zero_le 1, ⟨rest, y, rfl, tail⟩, ?_⟩
  · rw [h.parts, List.append_nil, List.append_assoc]
  · rw [head]
    refine h.head.imp_right fun first => ?_
    obtain ⟨front, z, split, -⟩ := h.tail
    rw [first, split]
    cases front <;> rfl

omit [DecidableEq τ] in
/-- A compare-and-swap that moves `tail_` on to a node that was behind the one read. -/
theorem Line.casTail (h : Line s past gone rest back) {oldTail newTail : TagPtr α}
    (follows : s.follows (gone ++ rest) oldTail node) (new : newTail.ptr = some node) :
    ∃ rest' back', Line (s.casTail oldTail newTail) past gone rest' back' ∧ rest ⊆ rest' := by
  unfold State.casTail
  split_ifs with agree
  · obtain ⟨x, -, ptr, link⟩ := follows
    have last : s.tail.ptr = some x := by rw [agree, ptr]
    let moved : State α δ τ := { s with tail := newTail, tailCount := s.tailCount + 1 }
    obtain ⟨rfl, shape⟩ : back = [node] ∧ Shape moved past.chain gone (rest ++ [node]) [] :=
      h.shape.advance last link rfl new rfl
    refine ⟨rest ++ [node], [], ⟨shape, ⟨h.owners.1, h.owners.2, h.owners.3, h.owners.4,
      h.owners.5, h.owners.6⟩, fun u => ?_⟩, List.subset_append_left ..⟩
    refine (h.known u).mono (List.Subset.refl _) ?_ (fun _ _ _ => id) (fun _ => .inr)
      fun w _ _ _ same => ?_
    · rw [← List.append_assoc]
      exact List.subset_append_left ..
    · -- The new node is not the one at `head_`.
      have top : s.head.ptr = some node := same.symm.trans new
      obtain ⟨more, rfl⟩ := h.shape.head_mem top
      exact (List.nodup_append.mp h.shape.nodup).2.2 node (by simp) node (by simp) rfl
  · exact ⟨rest, back, h, List.Subset.refl _⟩

omit [DecidableEq α] [DecidableEq τ] in
/-- A node that ends the chain and that `tail_` has come to is the one at `tail_`. -/
theorem Shape.at_end (h : Shape s chain gone rest back) {x : α} (mem : x ∈ gone ++ rest)
    (last : s.link x = none) : back = [] ∧ ∃ init, chain = init ++ [x] := by
  have inChain : x ∈ chain := by
    rw [h.parts]
    exact List.mem_append_left back mem
  obtain ⟨init, split⟩ := h.path.last_of_end inChain last
  refine ⟨?_, init, split⟩
  rcases List.eq_nil_or_concat' back with none | ⟨front, y, rfl⟩
  · exact none
  · -- Otherwise `x` would be behind `tail_` as well.
    have ends : gone ++ rest ++ front ++ [y] = init ++ [x] := by
      rw [List.append_assoc, ← h.parts, split]
    obtain rfl := List.singleton_inj.mp (List.append_inj' ends rfl).2
    exact absurd rfl ((List.nodup_append.mp h.nodup).2.2 y mem y (by simp))

omit [DecidableEq α] in
/-- The link of a new node behind the last one. -/
theorem Line.link (h : Line s past gone rest back) {x newNode : α} {oldTail : TagPtr α}
    (pushing : (s.pc t).pushing = some newNode) (mem : x ∈ gone ++ rest) (last : s.link x = none)
    (ptr : oldTail.ptr = some x)
    (hpc : s'.pc = Function.update s.pc t (.pushCasTail newNode oldTail))
    (link : s'.link x = some newNode) (others : ∀ y, y ≠ x → s'.link y = s.link y)
    (head : s'.head = s.head) (tail : s'.tail = s.tail) (free : s'.free = s.free) :
    Line s' { past with chain := past.chain ++ [newNode] } gone rest [newNode] := by
  obtain ⟨rfl, init, split⟩ := h.shape.at_end mem last
  obtain ⟨outside, unlinked, called⟩ := h.owners.pushing t newNode pushing
  have apart : x ≠ newNode := by
    rintro rfl
    rw [split] at outside
    exact outside (by simp)
  have others' {u : τ} {node : α} (hu : (s'.pc u).pushing = some node) :
      u ≠ t ∧ (s.pc u).pushing = some node := other_of_move hpc rfl hu
  have removed (u : τ) : (s'.pc u).removed = (s.pc u).removed := by
    refine kept_of_move hpc ?_ u
    cases here : s.pc t <;> rw [here] at pushing <;> first | rfl | cases pushing
  refine ⟨⟨?_, ?_, le_rfl, tail ▸ h.shape.tail, head ▸ h.shape.head⟩,
    ⟨fun u node hu => ?_, fun u w node hu hw => ?_, fun u node hu => ?_, fun u w node hu hw => ?_,
      h.owners.deleted, fun node unused => ?_⟩, fun u => ?_⟩
  · dsimp only
    rw [h.shape.parts, List.append_nil]
  · have path := h.shape.path
    have first : (past.chain ++ [newNode]).head? = past.chain.head? := by
      rw [split]
      cases init <;> rfl
    have alone : Path s.link (some newNode) [newNode] := ⟨rfl, unlinked⟩
    dsimp only
    rw [first]
    rw [split] at path ⊢
    rw [List.append_assoc]
    exact path.link alone (by simpa using apart) link others
  · obtain ⟨e, mine⟩ := others' hu
    obtain ⟨out, none, program⟩ := h.owners.pushing u node mine
    refine ⟨fun again => ?_, ?_, program⟩
    · rcases List.mem_append.mp again with old | new
      · exact out old
      · rw [List.mem_singleton.mp new] at mine
        exact e (h.owners.pushingOnce u t newNode mine pushing)
    · rw [others node, none]
      rintro rfl
      rw [split] at out
      exact out (by simp)
  · exact h.owners.pushingOnce u w node (others' hu).2 (others' hw).2
  · exact h.owners.removed u node (removed u ▸ hu)
  · exact h.owners.removedOnce u w node (removed u ▸ hu) (removed w ▸ hw)
  · rw [free] at unused
    refine (h.owners.unused node unused).imp_right fun fresh => ⟨fun again => ?_, fresh.2⟩
    rcases List.mem_append.mp again with old | new
    · exact fresh.1 old
    · rw [List.mem_singleton.mp new] at fresh
      exact fresh.2 t called
  · have links : ∀ y ∈ gone ++ rest, ∀ z, s.link y = some z → s'.link y = some z := by
      intro y _ z linked
      rw [others y, linked]
      rintro rfl
      rw [last] at linked
      cases linked
    by_cases e : u = t
    · rw [e, hpc, Function.update_self]
      exact ⟨x, mem, ptr, link⟩
    · rw [hpc, Function.update_of_ne e]
      refine (h.known u).mono (List.Subset.refl _) (List.Subset.refl _) links ?_ ?_
      · rw [head]
        exact fun _ => .inr
      · rw [head, tail]
        exact fun _ _ apart here => apart here

omit [DecidableEq α] in
/-- A pop moves `head_` on, or to null if it has read the link of the first node before a
second one was behind it. -/
theorem Line.takeHead (h : Line s past gone rest back) {first : α} {oldHeadNext : TagPtr α}
    (top : s.head.ptr = some first) (linked : ∀ y, oldHeadNext.ptr = some y → s.link first = some y)
    (apart : s.tail.ptr ≠ s.head.ptr) (quiet : (s.pc t).pushing = none)
    (hpc : s'.pc = Function.update s.pc t (.popRead first)) (head : s'.head.ptr = oldHeadNext.ptr)
    (next : s'.next = s.next) (tail : s'.tail = s.tail) (free : s'.free = s.free) :
    ∃ rest', Line s' past (gone ++ [first]) rest' back := by
  obtain ⟨rest', rfl⟩ := h.shape.head_mem top
  have whole : gone ++ first :: rest' = gone ++ [first] ++ rest' := by simp
  have distinct := h.shape.nodup
  have pushing : ∀ u, (s'.pc u).pushing = (s.pc u).pushing := kept_of_move hpc quiet.symm
  have removed {u : τ} {x : α} (hu : (s'.pc u).removed = some x) :
      u = t ∧ x = first ∨ (s.pc u).removed = some x := by
    by_cases e : u = t
    · rw [e, hpc, Function.update_self] at hu
      exact .inl ⟨e, (Option.some.inj hu).symm⟩
    · rw [hpc, Function.update_of_ne e] at hu
      exact .inr hu
  have firstNew : first ∉ gone := by
    intro again
    have apart := (List.nodup_append.mp (List.nodup_append.mp distinct).1).2.2
    exact apart first again first (by simp) rfl
  have tail' : ∃ front x, rest' = front ++ [x] ∧ s.tail.ptr = some x := by
    obtain ⟨front, x, split, atTail⟩ := h.shape.tail
    cases front with
    | nil =>
      obtain ⟨rfl, -⟩ := List.cons_eq_cons.mp split
      exact absurd (atTail.trans top.symm) apart
    | cons y front =>
      obtain ⟨-, split⟩ := List.cons_eq_cons.mp split
      exact ⟨front, x, split, atTail⟩
  have second {y : α} (ptr : oldHeadNext.ptr = some y) : ∃ more, rest' = y :: more := by
    have path := h.shape.path
    rw [h.shape.parts, List.append_assoc, List.cons_append] at path
    have behind := path.drop
    rw [linked y ptr] at behind
    obtain ⟨more, split, -⟩ := behind.of_some
    obtain ⟨front, x, here, -⟩ := tail'
    cases rest' with
    | nil => simp at here
    | cons z rest' => exact ⟨rest', by rw [(List.cons_eq_cons.mp split).1]⟩
  refine ⟨rest', ⟨?_, ?_, h.shape.short, ?_, ?_⟩, ⟨fun u node hu => ?_, fun u w node hu hw => ?_,
    fun u node hu => ?_, fun u w node hu hw => ?_, ?_, ?_⟩, fun u => ?_⟩
  · rw [h.shape.parts, whole]
  · rw [State.link_congr next]
    exact h.shape.path
  · exact tail ▸ tail'
  · rw [head]
    cases ptr : oldHeadNext.ptr with
    | none => exact .inl rfl
    | some y =>
      obtain ⟨more, rfl⟩ := second ptr
      exact .inr rfl
  · rw [State.link_congr next]
    exact h.owners.pushing u node (pushing u ▸ hu)
  · exact h.owners.pushingOnce u w node (pushing u ▸ hu) (pushing w ▸ hw)
  · rcases removed hu with ⟨-, rfl⟩ | old
    · exact ⟨by simp, fun dead => firstNew (h.owners.deleted dead)⟩
    · obtain ⟨left, alive⟩ := h.owners.removed u node old
      exact ⟨List.mem_append_left _ left, alive⟩
  · rcases removed hu with ⟨rfl, rfl⟩ | oldU <;> rcases removed hw with ⟨hwt, hwx⟩ | oldW
    · exact hwt.symm
    · exact absurd (h.owners.removed w node oldW).1 firstNew
    · exact absurd (hwx ▸ (h.owners.removed u node oldU).1) firstNew
    · exact h.owners.removedOnce u w node oldU oldW
  · exact fun node dead => List.mem_append_left _ (h.owners.deleted dead)
  · rw [free]
    exact h.owners.unused
  · rw [← whole]
    by_cases e : u = t
    · rw [e, hpc, Function.update_self]
      trivial
    · rw [hpc, Function.update_of_ne e]
      refine (h.known u).mono (List.subset_append_left ..) (List.Subset.refl _) ?_ ?_ ?_
      · rw [State.link_congr next]
        exact fun _ _ _ => id
      · rw [top]
        intro x same
        exact .inl (by simp [Option.some.inj same])
      · intro w saw _ here same
        obtain ⟨front, x, -, atTail⟩ := tail'
        rw [tail, atTail] at same
        -- A node that some thread has read from `head_` before does not come back.
        obtain ⟨more, rfl⟩ := second (head.symm.trans same.symm)
        rw [whole, List.append_assoc] at distinct
        refine (List.nodup_append.mp distinct).2.2 x ?_ x (by simp) rfl
        rcases saw x (here.symm.trans same.symm) with left | now
        · exact List.mem_append_left _ left
        · rw [Option.some.inj (top.symm.trans now)]
          simp

/-- A thread deletes the node that it has removed. -/
theorem Line.delete (h : Line s past gone rest back) {node : α} {ret : Option δ}
    (mine : (s.pc t).removed = some node) (quiet : (s.pc t).pushing = none)
    (hpc : s'.pc = Function.update s.pc t (.popped ret)) (next : s'.next = s.next)
    (head : s'.head = s.head) (tail : s'.tail = s.tail)
    (free : s'.free = Function.update s.free node true) :
    Line s' { past with deleted := past.deleted ++ [node] } gone rest back := by
  have pushing : ∀ u, (s'.pc u).pushing = (s.pc u).pushing := kept_of_move hpc quiet.symm
  have removed {u : τ} {x : α} (hu : (s'.pc u).removed = some x) :
      u ≠ t ∧ (s.pc u).removed = some x := other_of_move hpc rfl hu
  refine ⟨h.shape.same next head tail, ⟨fun u x hu => ?_, fun u w x hu hw => ?_, fun u x hu => ?_,
    fun u w x hu hw => ?_, fun x dead => ?_, fun x unused => ?_⟩, fun u => ?_⟩
  · rw [State.link_congr next]
    exact h.owners.pushing u x (pushing u ▸ hu)
  · exact h.owners.pushingOnce u w x (pushing u ▸ hu) (pushing w ▸ hw)
  · obtain ⟨e, old⟩ := removed hu
    obtain ⟨left, alive⟩ := h.owners.removed u x old
    refine ⟨left, fun dead => ?_⟩
    rcases List.mem_append.mp dead with before | now
    · exact alive before
    · rw [List.mem_singleton.mp now] at old
      exact e (h.owners.removedOnce u t node old mine)
  · exact h.owners.removedOnce u w x (removed hu).2 (removed hw).2
  · rcases List.mem_append.mp dead with before | now
    · exact h.owners.deleted before
    · rw [List.mem_singleton.mp now]
      exact (h.owners.removed t node mine).1
  · by_cases e : x = node
    · exact .inl (by simp [e])
    · rw [free, Function.update_of_ne e] at unused
      exact (h.owners.unused x unused).imp_left fun dead => List.mem_append_left _ dead
  · by_cases e : u = t
    · rw [e, hpc, Function.update_self]
      trivial
    · rw [hpc, Function.update_of_ne e]
      exact (h.known u).same next head tail

/-- A thread begins to push a fresh node. -/
theorem Line.begin (h : Line s past gone rest back) {newNode : α} (fresh : past.fresh newNode)
    (resting : (s.pc t).resting = true)
    (hpc : s'.pc = Function.update s.pc t (.pushLoadTail newNode))
    (link : s'.link newNode = none) (others : ∀ y, y ≠ newNode → s'.link y = s.link y)
    (head : s'.head = s.head) (tail : s'.tail = s.tail)
    (free : s'.free = Function.update s.free newNode false) :
    Line s' { past with
      program := Function.update past.program t (past.program t ++ [newNode]) } gone rest back := by
  have removed : ∀ u, (s'.pc u).removed = (s.pc u).removed :=
    kept_of_move hpc (resting_idle resting).2.symm
  have pushing {u : τ} {x : α} (hu : (s'.pc u).pushing = some x) :
      u = t ∧ x = newNode ∨ u ≠ t ∧ (s.pc u).pushing = some x := by
    by_cases e : u = t
    · rw [e, hpc, Function.update_self] at hu
      exact .inl ⟨e, (Option.some.inj hu).symm⟩
    · rw [hpc, Function.update_of_ne e] at hu
      exact .inr ⟨e, hu⟩
  have old {u : τ} {x : α} (hu : (s.pc u).pushing = some x) : x ≠ newNode := by
    rintro rfl
    exact fresh.2 u (h.owners.pushing u x hu).2.2
  have onChain {x : α} (mem : x ∈ past.chain) : s'.link x = s.link x := by
    refine others x ?_
    rintro rfl
    exact fresh.1 mem
  refine ⟨⟨h.shape.parts, h.shape.path.congr fun x mem => onChain mem, h.shape.short,
    tail ▸ h.shape.tail, head ▸ h.shape.head⟩, ⟨fun u x hu => ?_, fun u w x hu hw => ?_,
    fun u x hu => ?_, fun u w x hu hw => ?_, h.owners.deleted, fun x unused => ?_⟩, fun u => ?_⟩
  · rcases pushing hu with ⟨rfl, rfl⟩ | ⟨e, mine⟩
    · exact ⟨fresh.1, link, by simp⟩
    · obtain ⟨outside, unlinked, called⟩ := h.owners.pushing u x mine
      refine ⟨outside, (others x (old mine)).trans unlinked, ?_⟩
      dsimp only
      rwa [Function.update_of_ne e]
  · rcases pushing hu with ⟨rfl, rfl⟩ | ⟨-, mine⟩ <;> rcases pushing hw with ⟨hwt, hwx⟩ | ⟨-, its⟩
    · exact hwt.symm
    · exact absurd rfl (old its)
    · exact absurd hwx (old mine)
    · exact h.owners.pushingOnce u w x mine its
  · exact h.owners.removed u x (removed u ▸ hu)
  · exact h.owners.removedOnce u w x (removed u ▸ hu) (removed w ▸ hw)
  · by_cases e : x = newNode
    · rw [free, e, Function.update_self] at unused
      cases unused
    · rw [free, Function.update_of_ne e] at unused
      refine (h.owners.unused x unused).imp_right fun new => ⟨new.1, fun u called => ?_⟩
      dsimp only at called
      rw [Function.update_apply] at called
      split_ifs at called with same
      · rcases List.mem_append.mp called with before | now
        · exact new.2 t before
        · exact e (List.mem_singleton.mp now)
      · exact new.2 u called
  · by_cases e : u = t
    · rw [e, hpc, Function.update_self]
      trivial
    · rw [hpc, Function.update_of_ne e]
      refine (h.known u).mono (List.Subset.refl _) (List.Subset.refl _) (fun x mem y linked => ?_)
        ?_ ?_
      · rw [onChain, linked]
        rw [h.shape.parts]
        exact List.mem_append_left back mem
      · rw [head]
        exact fun _ => .inr
      · rw [head, tail]
        exact fun _ _ apart here => apart here

omit [DecidableEq α] [DecidableEq τ] in
/-- Which calls have returned matters for none of it. -/
theorem Line.ofReturned (h : Line s past gone rest back) (returned : List α) :
    Line s { past with returned := returned } gone rest back :=
  ⟨h.shape, ⟨h.owners.pushing, h.owners.pushingOnce, h.owners.removed, h.owners.removedOnce,
    h.owners.deleted, h.owners.unused⟩, h.known⟩

/-- One case for each place of a thread that has not linked its node. -/
theorem Line.stepPush (h : Line s past gone rest back) {newNode : α}
    (pushing : (s.pc t).pushing = some newNode) {spurious : Bool}
    (next : s.step v t spurious = some s') :
    ∃ rest' back', Line s' (past.note s (.step t spurious) s') gone rest' back' := by
  have known := h.known t
  cases pc : s.pc t with
  | pushLoadTail node =>
    simp only [State.step, pc] at next
    obtain rfl := Option.some.inj next
    simp only [Past.note, pc]
    refine ⟨rest, back, h.quiet ⟨rfl, rfl, rfl, rfl, rfl, rfl, rfl, le_rfl⟩ rfl
      (.inr (by rw [pc]; rfl)) (.inl rfl) ?_⟩
    obtain ⟨front, x, split, last⟩ := h.shape.tail
    exact ⟨x, by simp [split], last⟩
  | pushLoadNext node oldTail =>
    rw [pc] at known
    obtain ⟨x, mem, ptr⟩ := known
    simp only [State.step, pc, ptr, Option.bind_some] at next
    simp only [Past.note, pc]
    split_ifs at next with last helps <;> obtain rfl := Option.some.inj next
    · exact ⟨rest, back, h.quiet ⟨rfl, rfl, rfl, rfl, rfl, rfl, rfl, le_rfl⟩ rfl
        (.inr (by rw [pc]; rfl)) (.inl rfl) ⟨⟨x, mem, ptr⟩, last⟩⟩
    · obtain ⟨y, link⟩ := Option.ne_none_iff_exists'.mp last
      exact ⟨rest, back, h.quiet ⟨rfl, rfl, rfl, rfl, rfl, rfl, rfl, le_rfl⟩ rfl
        (.inr (by rw [pc]; rfl)) (.inl rfl) ⟨y, link, x, mem, ptr, link⟩⟩
    · exact ⟨rest, back, h.quiet ⟨rfl, rfl, rfl, rfl, rfl, rfl, rfl, le_rfl⟩ rfl
        (.inr (by rw [pc]; rfl)) (.inl rfl) trivial⟩
  | pushCasNext node oldTail oldTailNext =>
    rw [pc] at known pushing
    obtain ⟨⟨x, mem, ptr⟩, unlinked⟩ := known
    simp only [State.step, pc, ptr, Option.bind_some] at next
    split_ifs at next with success <;> obtain rfl := Option.some.inj next
    · have last : s.link x = none := by rw [State.link, success.1, unlinked]
      simp only [Past.note, pc, State.goto, Function.update_self]
      refine ⟨rest, [node], h.link (t := t) (by rw [pc]; rfl) mem last ptr rfl ?_ (fun y e => ?_)
        rfl rfl rfl⟩
      · simp [State.link]
      · simp only [State.link]
        rw [Function.update_of_ne e]
    · simp only [Past.note, pc, State.goto, Function.update_self]
      exact ⟨rest, back, h.quiet ⟨rfl, rfl, rfl, rfl, rfl, rfl, rfl, le_rfl⟩ rfl
        (.inr (by rw [pc]; rfl)) (.inl rfl) trivial⟩
  | pushHelp node oldTail oldTailNext =>
    rw [pc] at known
    obtain ⟨y, ptr, follows⟩ := known
    simp only [State.step, pc] at next
    obtain rfl := Option.some.inj next
    simp only [Past.note, pc]
    have new : (TagPtr.mk oldTailNext.ptr (v.endTag oldTail)).ptr = some y := ptr
    obtain ⟨rest', back', moved, -⟩ := h.casTail follows new
    refine ⟨rest', back', moved.quiet (t := t) ⟨rfl, rfl, rfl, rfl, rfl, rfl, rfl, le_rfl⟩ rfl
      (.inr ?_) (.inl rfl) trivial⟩
    rw [State.casTail_pc, pc]
    rfl
  | _ => rw [pc] at pushing; cases pushing

/-- One case for each place of a thread that is not pushing or has linked its node. -/
theorem Line.stepPop (h : Line s past gone rest back) (pushing : (s.pc t).pushing = none)
    {spurious : Bool} (next : s.step v t spurious = some s') :
    ∃ gone' rest' back', Line s' (past.note s (.step t spurious) s') gone' rest' back' := by
  have known := h.known t
  cases pc : s.pc t with
  | pushCasTail node oldTail =>
    rw [pc] at known
    simp only [State.step, pc] at next
    obtain rfl := Option.some.inj next
    simp only [Past.note, pc]
    have new : (TagPtr.mk (some node) (v.endTag oldTail)).ptr = some node := rfl
    obtain ⟨rest', back', moved, -⟩ := h.casTail known new
    refine ⟨gone, rest', back', Line.ofReturned ?_ _⟩
    exact moved.pass (t := t) ⟨rfl, rfl, rfl, rfl, rfl, rfl, rfl, le_rfl⟩ rfl rfl rfl trivial
  | popLoadHead =>
    simp only [State.step, pc] at next
    obtain rfl := Option.some.inj next
    simp only [Past.note, pc]
    exact ⟨gone, rest, back, h.pass ⟨rfl, rfl, rfl, rfl, rfl, rfl, rfl, le_rfl⟩ rfl rfl rfl
      fun x here => .inr here⟩
  | popLoadNext oldHead =>
    rw [pc] at known
    simp only [State.step, pc] at next
    obtain ⟨first, here, next⟩ := Option.bind_eq_some_iff.mp next
    obtain rfl := Option.some.inj next
    simp only [Past.note, pc]
    refine ⟨gone, rest, back, h.pass ⟨rfl, rfl, rfl, rfl, rfl, rfl, rfl, le_rfl⟩ rfl rfl rfl
      ⟨known, fun y link => ⟨first, ?_, here, link⟩⟩⟩
    rcases known first here with left | now
    · exact List.mem_append_left _ left
    · obtain ⟨more, rfl⟩ := h.shape.head_mem now
      simp
  | popLoadTail oldHead oldHeadNext =>
    rw [pc] at known
    obtain ⟨saw, links⟩ := known
    simp only [State.step, pc] at next
    simp only [Past.note, pc]
    split_ifs at next with lagging some <;> obtain rfl := Option.some.inj next
    · obtain ⟨y, ptr⟩ := Option.ne_none_iff_exists'.mp some.2
      exact ⟨gone, rest, back, h.pass ⟨rfl, rfl, rfl, rfl, rfl, rfl, rfl, le_rfl⟩ rfl rfl rfl
        ⟨lagging, y, ptr, links y ptr⟩⟩
    · exact ⟨gone, rest, back, h.pass ⟨rfl, rfl, rfl, rfl, rfl, rfl, rfl, le_rfl⟩ rfl rfl rfl
        trivial⟩
    · exact ⟨gone, rest, back, h.pass ⟨rfl, rfl, rfl, rfl, rfl, rfl, rfl, le_rfl⟩ rfl rfl rfl
        ⟨saw, links, fun top same => lagging (same.trans top)⟩⟩
  | popHelp oldHead oldHeadNext oldTail =>
    rw [pc] at known
    obtain ⟨same, y, ptr, x, mem, here, link⟩ := known
    simp only [State.step, pc] at next
    obtain rfl := Option.some.inj next
    simp only [Past.note, pc]
    have new : (TagPtr.mk oldHeadNext.ptr (v.endTag oldTail)).ptr = some y := ptr
    obtain ⟨rest', back', moved, -⟩ := h.casTail ⟨x, mem, same.trans here, link⟩ new
    exact ⟨gone, rest', back', moved.pass (t := t) ⟨rfl, rfl, rfl, rfl, rfl, rfl, rfl, le_rfl⟩ rfl
      rfl rfl trivial⟩
  | popCasHead oldHead oldHeadNext =>
    rw [pc] at known
    obtain ⟨-, links, apart⟩ := known
    simp only [State.step, pc] at next
    obtain ⟨first, here, next⟩ := Option.bind_eq_some_iff.mp next
    simp only [Past.note, pc]
    split_ifs at next with success <;> obtain rfl := Option.some.inj next
    · have top : s.head.ptr = some first := by rw [success.1, here]
      have linked : ∀ y, oldHeadNext.ptr = some y → s.link first = some y := by
        intro y ptr
        obtain ⟨x, -, here', link⟩ := links y ptr
        obtain rfl := Option.some.inj (here.symm.trans here')
        exact link
      let taken : State α δ τ := { s.goto t (.popRead first) with
        head := ⟨oldHeadNext.ptr, v.endTag oldHead⟩, headCount := s.headCount + 1 }
      obtain ⟨rest', moved⟩ : ∃ rest', Line taken past (gone ++ [first]) rest' back :=
        h.takeHead top linked (apart (top.trans here.symm)) pushing rfl rfl rfl rfl rfl
      exact ⟨gone ++ [first], rest', back, moved⟩
    · exact ⟨gone, rest, back, h.pass ⟨rfl, rfl, rfl, rfl, rfl, rfl, rfl, le_rfl⟩ rfl rfl rfl
        trivial⟩
  | popRead oldHead =>
    simp only [State.step, pc] at next
    obtain rfl := Option.some.inj next
    simp only [Past.note, pc]
    exact ⟨gone, rest, back, h.quiet ⟨rfl, rfl, rfl, rfl, rfl, rfl, rfl, le_rfl⟩ rfl (.inl rfl)
      (.inr (by rw [pc]; rfl)) trivial⟩
  | popDelete oldHead ret =>
    simp only [State.step, pc] at next
    obtain rfl := Option.some.inj next
    simp only [Past.note, pc]
    exact ⟨gone, rest, back, h.delete (t := t) (by rw [pc]; rfl) pushing rfl rfl rfl rfl rfl⟩
  | idle | pushed | popped ret =>
    simp only [State.step, pc] at next
    cases next
  | _ => rw [pc] at pushing; cases pushing

theorem Line.act (h : Line s past gone rest back) {a : Action α δ τ}
    (fresh : freshNodes (s, past) a) (next : s.act v a = some s') :
    ∃ gone' rest' back', Line s' (past.note s a s') gone' rest' back' := by
  cases a with
  | push t newNode data =>
    simp only [State.act] at next
    split_ifs at next with allowed
    obtain rfl := Option.some.inj next
    refine ⟨gone, rest, back, h.begin fresh allowed.1 rfl ?_ (fun y e => ?_) rfl rfl rfl⟩
    · simp [State.link]
    · simp only [State.link]
      rw [Function.update_of_ne e]
  | pop t =>
    simp only [State.act] at next
    split_ifs at next with allowed
    obtain rfl := Option.some.inj next
    exact ⟨gone, rest, back, h.pass ⟨rfl, rfl, rfl, rfl, rfl, rfl, rfl, by simp⟩ rfl rfl rfl
      trivial⟩
  | step t spurious =>
    cases pushing : (s.pc t).pushing with
    | some newNode => exact ⟨gone, h.stepPush pushing next⟩
    | none => exact h.stepPop pushing next

theorem line_init (start : (machine v dummyData α τ).init s) :
    ∃ dummy, Line s (Past.start s) [] [dummy] [] := by
  obtain ⟨dummy, head, tail, last, -, -, free, idle, -⟩ := start
  refine ⟨dummy, ⟨?_, ?_, Nat.zero_le 1, ⟨[], dummy, rfl, ?_⟩, ?_⟩,
    ⟨?_, ?_, ?_, ?_, List.Subset.refl _, fun node unused => .inr ⟨?_, nofun⟩⟩, fun u => ?_⟩
  · rw [Past.start, head]
    rfl
  · rw [Past.start, head]
    exact ⟨rfl, last⟩
  · rw [tail]
  · rw [head]
    exact .inr rfl
  · intro u node hu
    rw [idle] at hu
    cases hu
  · intro u w node hu
    rw [idle] at hu
    cases hu
  · intro u node hu
    rw [idle] at hu
    cases hu
  · intro u w node hu
    rw [idle] at hu
    cases hu
  · rw [Past.start, head]
    simpa using (free node).mp unused
  · rw [idle]
    trivial

/-- Every run that pushes fresh nodes only keeps the line. -/
theorem line_reachable {p : State α δ τ × Past α τ}
    (h : (recordedMachine v dummyData α τ).ReachableBy freshNodes p) :
    ∃ gone rest back, Line p.1 p.2 gone rest back := by
  refine h.recorded_invariant (fun s past => ∃ gone rest back, Line s past gone rest back)
    (fun s start => ?_) fun s a s' past before fresh next => ?_
  · obtain ⟨dummy, line⟩ := line_init start
    exact ⟨[], [dummy], [], line⟩
  · obtain ⟨gone, rest, back, line⟩ := before
    exact line.act fresh next

end Codelab.LinkedQueue
