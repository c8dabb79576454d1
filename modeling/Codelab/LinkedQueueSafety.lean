import Codelab.LinkedQueue
import Codelab.Theory.Window
import Mathlib.Data.List.Basic

/-! Structural safety of the tagged linked queues. A node in use lies in one
region: the chain from `head_`, or a chain that hangs behind a node some thread is
still pushing. The second kind arises when a stale `push` links its node behind a
node that has meanwhile been removed and taken up again. It cannot close into a
cycle, because whoever waits to link behind a node of such a chain began before the
owner of the chain. -/

namespace Codelab.LinkedQueue

open Chain

variable {α δ τ : Type*} [DecidableEq α] [DecidableEq τ] {v : Variant} {dummyData : Option δ}
  {s s' : State α δ τ} {t : τ}

/-- The node behind which a thread wants to link its own. -/
def Pc.waitsOn : Pc α δ → Option α
  | .pushLoadNext _ oldTail | .pushCasNext _ oldTail _ => oldTail.ptr
  | _ => none

omit [DecidableEq α] in
theorem pushing_of_waitsOn {pc : Pc α δ} {node : α} (h : pc.waitsOn = some node) :
    pc.pushing ≠ none := by
  cases pc <;> first | exact Option.some_ne_none _ | cases h

omit [DecidableEq α] in
theorem resting_idle {pc : Pc α δ} (h : pc.resting = true) :
    pc.pushing = none ∧ pc.removed = none := by
  cases pc <;> first | exact ⟨rfl, rfl⟩ | cases h

/-- Where a region starts: at `head_`, or at the node a thread is pushing. -/
def State.root (s : State α δ τ) : Option τ → Option α
  | none => s.head.ptr
  | some t => (s.pc t).pushing

/-- `w` is what `t` read from `head_`; an unchanged count means an unchanged word. -/
structure SawHead (s : State α δ τ) (t : τ) (w : TagPtr α) : Prop where
  le : s.headSeen t ≤ s.headCount
  tag : w.tag = BitVec.ofNat 16 (s.headSeen t)
  same : s.headSeen t = s.headCount → s.head = w

/-- `w` is what `t` read from `tail_`; an unchanged count means an unchanged word. -/
structure SawTail (s : State α δ τ) (t : τ) (w : TagPtr α) : Prop where
  le : s.tailSeen t ≤ s.tailCount
  tag : w.tag = BitVec.ofNat 16 (s.tailSeen t)
  same : s.tailSeen t = s.tailCount → s.tail = w

/-- The node in `w` is linked to `node`. -/
def State.linked (s : State α δ τ) (w : TagPtr α) (node : α) : Prop :=
  ∃ before, w.ptr = some before ∧ s.link before = some node

/-- What a thread's locals say about the state. -/
def ThreadOk (s : State α δ τ) (t : τ) : Prop :=
  match s.pc t with
  | .pushLoadNext _ oldTail => SawTail s t oldTail
  | .pushCasNext _ oldTail oldTailNext => SawTail s t oldTail ∧ oldTailNext.ptr = none
  | .pushHelp _ oldTail oldTailNext => SawTail s t oldTail ∧
    (s.tailSeen t = s.tailCount → ∃ node, oldTailNext.ptr = some node ∧ s.linked oldTail node)
  | .pushCasTail newNode oldTail => SawTail s t oldTail ∧
    (s.tailSeen t = s.tailCount → s.linked oldTail newNode)
  | .popLoadNext oldHead => SawHead s t oldHead
  | .popLoadTail oldHead oldHeadNext => SawHead s t oldHead ∧
    (s.headSeen t = s.headCount → ∀ node, oldHeadNext.ptr = some node → s.linked oldHead node)
  | .popHelp oldHead oldHeadNext oldTail => SawHead s t oldHead ∧
    (s.headSeen t = s.headCount → ∀ node, oldHeadNext.ptr = some node → s.linked oldHead node) ∧
    oldHeadNext.ptr ≠ none ∧ oldTail.ptr = oldHead.ptr
  | .popCasHead oldHead oldHeadNext => SawHead s t oldHead ∧
    (s.headSeen t = s.headCount →
      (∀ node, oldHeadNext.ptr = some node → s.linked oldHead node) ∧ s.tail.ptr ≠ s.head.ptr)
  | _ => True

/-- The regions: chains that end, apart from each other, of nodes in use. -/
structure Regions (s : State α δ τ) (region : Option τ → List α) : Prop where
  path : ∀ r, Path s.link (s.root r) (region r)
  apart : ∀ r r' node, node ∈ region r → node ∈ region r' → r = r'
  used : ∀ r node, node ∈ region r → s.free node = false

structure SafeInv (s : State α δ τ) (region : Option τ → List α) : Prop extends
    Regions s region where
  removed : ∀ t node, (s.pc t).removed = some node →
    s.free node = false ∧ ∀ r, node ∉ region r
  removedOnce : ∀ t u node, (s.pc t).removed = some node → (s.pc u).removed = some node → t = u
  known : ∀ t node, (s.pc t).waitsOn = some node → (∃ r, node ∈ region r) ∨ s.link node ≠ none
  behind : ∀ t u node, (s.pc t).waitsOn = some node → node ∈ region (some u) →
    s.began t < s.began u
  begun : ∀ t, (s.pc t).pushing ≠ none → s.began t < s.calls.length
  tailIn : ∃ node ∈ region none, s.tail.ptr = some node
  headTag : s.head.tag = BitVec.ofNat 16 s.headCount
  tailTag : s.tail.tag = BitVec.ofNat 16 s.tailCount
  threads : ∀ t, ThreadOk s t

variable {region : Option τ → List α}

omit [DecidableEq α] [DecidableEq τ] in
theorem State.linked.mono {w : TagPtr α} {node : α} (h : s.linked w node)
    (links : ∀ x y, w.ptr = some x → s.link x = some y → s'.link x = some y) :
    s'.linked w node := by
  obtain ⟨before, here, link⟩ := h
  exact ⟨before, here, links before node here link⟩

/-- What a step may do to the two words without disturbing the threads that do not
move: leave a word alone or count its change, keep the links of the two nodes, and
keep `tail_` away from an unchanged `head_`. -/
structure Frame (s s' : State α δ τ) : Prop where
  head : s'.headCount = s.headCount ∧ s'.head = s.head ∨ s'.headCount = s.headCount + 1
  tail : s'.tailCount = s.tailCount ∧ s'.tail = s.tail ∨ s'.tailCount = s.tailCount + 1
  links : ∀ x y, s.head.ptr = some x ∨ s.tail.ptr = some x → s.link x = some y →
    s'.link x = some y
  ahead : s'.headCount = s.headCount → s.tail.ptr ≠ s.head.ptr → s'.tail.ptr ≠ s'.head.ptr

omit [DecidableEq α] [DecidableEq τ] in
theorem Frame.sawHead (frame : Frame s s') {w : TagPtr α} (h : SawHead s t w)
    (seen : s'.headSeen t = s.headSeen t) :
    SawHead s' t w ∧ (s'.headSeen t = s'.headCount → s.headSeen t = s.headCount) := by
  have le := h.le
  rcases frame.head with ⟨count, word⟩ | count
  · refine ⟨⟨?_, ?_, fun e => ?_⟩, fun e => ?_⟩
    · omega
    · rw [seen]
      exact h.tag
    · rw [word]
      exact h.same (by omega)
    · omega
  · refine ⟨⟨?_, ?_, fun e => ?_⟩, fun e => ?_⟩
    · omega
    · rw [seen]
      exact h.tag
    · omega
    · omega

omit [DecidableEq α] [DecidableEq τ] in
theorem Frame.sawTail (frame : Frame s s') {w : TagPtr α} (h : SawTail s t w)
    (seen : s'.tailSeen t = s.tailSeen t) :
    SawTail s' t w ∧ (s'.tailSeen t = s'.tailCount → s.tailSeen t = s.tailCount) := by
  have le := h.le
  rcases frame.tail with ⟨count, word⟩ | count
  · refine ⟨⟨?_, ?_, fun e => ?_⟩, fun e => ?_⟩
    · omega
    · rw [seen]
      exact h.tag
    · rw [word]
      exact h.same (by omega)
    · omega
  · refine ⟨⟨?_, ?_, fun e => ?_⟩, fun e => ?_⟩
    · omega
    · rw [seen]
      exact h.tag
    · omega
    · omega

omit [DecidableEq α] [DecidableEq τ] in
theorem Frame.threadOk (frame : Frame s s') (ok : ThreadOk s t) (pc : s'.pc t = s.pc t)
    (headSeen : s'.headSeen t = s.headSeen t) (tailSeen : s'.tailSeen t = s.tailSeen t) :
    ThreadOk s' t := by
  have atTail : ∀ {w node}, SawTail s t w → s.tailSeen t = s.tailCount → s.linked w node →
      s'.linked w node := fun saw e linked =>
    linked.mono fun x y here => frame.links x y (.inr (by rw [saw.same e, here]))
  have atHead : ∀ {w node}, SawHead s t w → s.headSeen t = s.headCount → s.linked w node →
      s'.linked w node := fun saw e linked =>
    linked.mono fun x y here => frame.links x y (.inl (by rw [saw.same e, here]))
  unfold ThreadOk at ok ⊢
  rw [pc]
  cases pcs : s.pc t with
  | pushLoadNext node oldTail =>
    simp only [pcs] at ok ⊢
    exact (frame.sawTail ok tailSeen).1
  | pushCasNext node oldTail oldTailNext =>
    simp only [pcs] at ok ⊢
    exact ⟨(frame.sawTail ok.1 tailSeen).1, ok.2⟩
  | pushHelp node oldTail oldTailNext =>
    simp only [pcs] at ok ⊢
    obtain ⟨saw, back⟩ := frame.sawTail ok.1 tailSeen
    refine ⟨saw, fun e => ?_⟩
    obtain ⟨node, eq, linked⟩ := ok.2 (back e)
    exact ⟨node, eq, atTail ok.1 (back e) linked⟩
  | pushCasTail node oldTail =>
    simp only [pcs] at ok ⊢
    obtain ⟨saw, back⟩ := frame.sawTail ok.1 tailSeen
    exact ⟨saw, fun e => atTail ok.1 (back e) (ok.2 (back e))⟩
  | popLoadNext oldHead =>
    simp only [pcs] at ok ⊢
    exact (frame.sawHead ok headSeen).1
  | popLoadTail oldHead oldHeadNext =>
    simp only [pcs] at ok ⊢
    obtain ⟨saw, back⟩ := frame.sawHead ok.1 headSeen
    exact ⟨saw, fun e node eq => atHead ok.1 (back e) (ok.2 (back e) node eq)⟩
  | popHelp oldHead oldHeadNext oldTail =>
    simp only [pcs] at ok ⊢
    obtain ⟨saw, back⟩ := frame.sawHead ok.1 headSeen
    exact ⟨saw, fun e node eq => atHead ok.1 (back e) (ok.2.1 (back e) node eq), ok.2.2⟩
  | popCasHead oldHead oldHeadNext =>
    simp only [pcs] at ok ⊢
    obtain ⟨saw, back⟩ := frame.sawHead ok.1 headSeen
    refine ⟨saw, fun e => ⟨fun node eq => ?_, ?_⟩⟩
    · exact atHead ok.1 (back e) ((ok.2 (back e)).1 node eq)
    · have unchanged : s'.headCount = s.headCount := by
        have := back e
        omega
      exact frame.ahead unchanged (ok.2 (back e)).2
  | _ => trivial

omit [DecidableEq α] [DecidableEq τ] in
theorem root_congr {r : Option τ} (head : s'.head = s.head)
    (pushing : ∀ u, r = some u → (s'.pc u).pushing = (s.pc u).pushing) : s'.root r = s.root r := by
  cases r with
  | none => exact congrArg TagPtr.ptr head
  | some u => exact pushing u rfl

section

variable {pc : Pc α δ}

omit [DecidableEq α] in
/-- If a thread moves on and keeps a value of its locals, every thread does. -/
theorem kept_of_move {β : Type*} {f : Pc α δ → β} (hpc : s'.pc = Function.update s.pc t pc)
    (same : f pc = f (s.pc t)) (u : τ) : f (s'.pc u) = f (s.pc u) := by
  by_cases e : u = t
  · rw [e, hpc, Function.update_self, same]
  · rw [hpc, Function.update_of_ne e]

omit [DecidableEq α] in
/-- A node that the thread which moved does not have is one that another thread had before. -/
theorem other_of_move {f : Pc α δ → Option α} (hpc : s'.pc = Function.update s.pc t pc)
    (none : f pc = none) {u : τ} {node : α} (hu : f (s'.pc u) = some node) :
    u ≠ t ∧ f (s.pc u) = some node := by
  by_cases e : u = t
  · rw [e, hpc, Function.update_self, none] at hu
    cases hu
  · rw [hpc, Function.update_of_ne e] at hu
    exact ⟨e, hu⟩

omit [DecidableEq α] in
theorem Frame.threads (frame : Frame s s') (threads : ∀ u, ThreadOk s u)
    (hpc : s'.pc = Function.update s.pc t pc)
    (seen : ∀ u, u ≠ t → s'.headSeen u = s.headSeen u ∧ s'.tailSeen u = s.tailSeen u)
    (ok : ThreadOk s' t) (u : τ) : ThreadOk s' u := by
  by_cases e : u = t
  · exact e ▸ ok
  · refine frame.threadOk (threads u) ?_ (seen u e).1 (seen u e).2
    rw [hpc, Function.update_of_ne e]

end

/-- A step that changes no shared word. -/
structure SameMemory (s s' : State α δ τ) : Prop where
  head : s'.head = s.head
  tail : s'.tail = s.tail
  next : s'.next = s.next
  free : s'.free = s.free
  headCount : s'.headCount = s.headCount
  tailCount : s'.tailCount = s.tailCount
  began : s'.began = s.began
  calls : s.calls.length ≤ s'.calls.length

omit [DecidableEq α] [DecidableEq τ] in
theorem SameMemory.link (same : SameMemory s s') : s'.link = s.link := State.link_congr same.next

omit [DecidableEq α] [DecidableEq τ] in
theorem SameMemory.frame (same : SameMemory s s') : Frame s s' := by
  refine ⟨.inl ⟨same.headCount, same.head⟩, .inl ⟨same.tailCount, same.tail⟩, ?_, fun _ => ?_⟩
  · rw [same.link]
    exact fun _ _ _ => id
  · rw [same.tail, same.head]
    exact id

omit [DecidableEq α] in
/-- A thread moves on without touching shared memory; it may have read `tail_`. -/
theorem SafeInv.quiet (inv : SafeInv s region) {pc : Pc α δ} (same : SameMemory s s')
    (hpc : s'.pc = Function.update s.pc t pc) (pushing : pc.pushing = (s.pc t).pushing)
    (removed : pc.removed = (s.pc t).removed)
    (waits : ∀ node, pc.waitsOn = some node → s.tail.ptr = some node ∨
      (s.pc t).waitsOn = some node)
    (seen : ∀ u, u ≠ t → s'.headSeen u = s.headSeen u ∧ s'.tailSeen u = s.tailSeen u)
    (ok : ThreadOk s' t) : SafeInv s' region := by
  have self : s'.pc t = pc := by rw [hpc, Function.update_self]
  have other : ∀ u, u ≠ t → s'.pc u = s.pc u := fun u e => by rw [hpc, Function.update_of_ne e]
  have samePushing := kept_of_move hpc pushing
  have sameRemoved := kept_of_move hpc removed
  have sameWaits : ∀ u node, (s'.pc u).waitsOn = some node → s.tail.ptr = some node ∨
      (s.pc u).waitsOn = some node := by
    intro u node hu
    by_cases e : u = t
    · rw [e, self] at hu
      exact e ▸ waits node hu
    · rw [other u e] at hu
      exact .inr hu
  obtain ⟨last, lastIn, tail⟩ := inv.tailIn
  refine ⟨⟨fun r => ?_, inv.apart, ?_⟩, ?_, ?_, ?_, ?_, ?_, ?_, ?_, ?_,
    same.frame.threads inv.threads hpc seen ok⟩
  · rw [same.link, root_congr same.head fun u _ => samePushing u]
    exact inv.path r
  · rw [same.free]
    exact inv.used
  · intro u node hu
    rw [same.free]
    exact inv.removed u node (sameRemoved u ▸ hu)
  · intro u w node hu hw
    exact inv.removedOnce u w node (sameRemoved u ▸ hu) (sameRemoved w ▸ hw)
  · intro u node hu
    rw [same.link]
    rcases sameWaits u node hu with now | before
    · obtain rfl := Option.some.inj (now.symm.trans tail)
      exact .inl ⟨none, lastIn⟩
    · exact inv.known u node before
  · intro u w node hu hw
    rw [same.began]
    rcases sameWaits u node hu with now | before
    · obtain rfl := Option.some.inj (now.symm.trans tail)
      exact absurd (inv.apart none (some w) _ lastIn hw) (Option.some_ne_none w).symm
    · exact inv.behind u w node before hw
  · intro u hu
    rw [same.began]
    exact (inv.begun u (samePushing u ▸ hu)).trans_le same.calls
  · exact ⟨last, lastIn, same.tail ▸ tail⟩
  · rw [same.head, same.headCount]
    exact inv.headTag
  · rw [same.tail, same.tailCount]
    exact inv.tailTag

omit [DecidableEq τ] in
/-- `tail_` moves on to a node of the chain behind the head. -/
theorem SafeInv.casTail (inv : SafeInv s region) (tags : v.tagsEnds = true) {oldTail : TagPtr α}
    {p : Option α} (target : s.tail = oldTail → ∃ node, p = some node ∧ s.linked oldTail node) :
    SafeInv (s.casTail oldTail ⟨p, v.endTag oldTail⟩) region := by
  unfold State.casTail
  split_ifs with success
  · obtain ⟨node, rfl, before, here, linked⟩ := target success
    obtain ⟨last, lastIn, tail⟩ := inv.tailIn
    rw [← success, tail] at here
    obtain rfl := Option.some.inj here
    have nodeIn := (inv.path none).next_mem lastIn linked
    have frame : Frame s { s with
        tail := ⟨some node, v.endTag oldTail⟩, tailCount := s.tailCount + 1 } := by
      refine ⟨.inl ⟨rfl, rfl⟩, .inr rfl, fun _ _ _ => id, fun _ _ => ?_⟩
      have path := inv.path none
      cases chain : region none with
      | nil => simp [chain] at lastIn
      | cons first rest =>
        rw [chain] at path lastIn
        intro back
        have top : some node = s.head.ptr := back
        exact path.next_ne_head lastIn linked (Option.some.inj (top.trans path.1))
    refine ⟨⟨inv.path, inv.apart, inv.used⟩, inv.removed, inv.removedOnce, inv.known, inv.behind,
      inv.begun, ⟨node, nodeIn, rfl⟩, inv.headTag, ?_,
      fun u => frame.threadOk (inv.threads u) rfl rfl rfl⟩
    change v.endTag oldTail = BitVec.ofNat 16 (s.tailCount + 1)
    rw [Variant.endTag, if_pos tags, TagPtr.nextTag, ← success, inv.tailTag, Window.ofNat_succ]
  · exact inv

/-- A thread takes up a free node. -/
theorem SafeInv.callPush (inv : SafeInv s region) {node : α} (rest : (s.pc t).resting = true)
    (unused : s.free node = true)
    (hpc : s'.pc = Function.update s.pc t (.pushLoadTail node))
    (next : s'.next = Function.update s.next node ⟨none, (s.next node).tag⟩)
    (free : s'.free = Function.update s.free node false)
    (began : s'.began = Function.update s.began t s.calls.length)
    (calls : s'.calls.length = s.calls.length + 1)
    (head : s'.headCount = s.headCount ∧ s'.head = s.head)
    (tail : s'.tailCount = s.tailCount ∧ s'.tail = s.tail)
    (seen : s'.headSeen = s.headSeen ∧ s'.tailSeen = s.tailSeen) :
    SafeInv s' (Function.update region (some t) [node]) := by
  have self : s'.pc t = .pushLoadTail node := by rw [hpc, Function.update_self]
  have other : ∀ u, u ≠ t → s'.pc u = s.pc u := fun u e => by rw [hpc, Function.update_of_ne e]
  have linkSelf : s'.link node = none := by rw [State.link, next, Function.update_self]
  have linkOther : ∀ x, x ≠ node → s'.link x = s.link x := fun x e => by
    rw [State.link, State.link, next, Function.update_of_ne e]
  have outside : ∀ r, node ∉ region r := fun r h =>
    absurd (unused.symm.trans (inv.used r node h)) Bool.false_ne_true.symm
  have members : ∀ {r x}, x ∈ Function.update region (some t) [node] r →
      r = some t ∧ x = node ∨ x ∈ region r := by
    intro r x hx
    rw [Function.update_apply] at hx
    split_ifs at hx with e
    · exact .inl ⟨e, List.mem_singleton.mp hx⟩
    · exact .inr hx
  have empty : region (some t) = [] := by
    have path := inv.path (some t)
    rw [State.root, (resting_idle rest).1] at path
    exact path.eq_nil
  have keep : ∀ {r x}, x ∈ region r → x ∈ Function.update region (some t) [node] r := by
    intro r x hx
    have e : r ≠ some t := by
      rintro rfl
      rw [empty] at hx
      cases hx
    rw [Function.update_of_ne e]
    exact hx
  have waits : ∀ {u x}, (s'.pc u).waitsOn = some x → u ≠ t ∧ (s.pc u).waitsOn = some x :=
    other_of_move hpc rfl
  have removed : ∀ {u x}, (s'.pc u).removed = some x → (s.pc u).removed = some x :=
    fun hu => (other_of_move hpc rfl hu).2
  obtain ⟨last, lastIn, atTail⟩ := inv.tailIn
  have frame : Frame s s' := by
    refine ⟨.inl head, .inl tail, ?_, fun _ => by rw [head.2, tail.2]; exact id⟩
    intro x y here link
    have e : x ≠ node := by
      rintro rfl
      rcases here with here | here
      · have path := inv.path none
        rw [State.root, here] at path
        obtain ⟨more, chain, -⟩ := path.of_some
        exact outside none (chain ▸ List.mem_cons_self ..)
      · obtain rfl := Option.some.inj (here.symm.trans atTail)
        exact outside none lastIn
    rw [linkOther x e]
    exact link
  have ok : ThreadOk s' t := by
    rw [ThreadOk, self]
    trivial
  refine ⟨⟨fun r => ?_, ?_, ?_⟩, ?_, ?_, ?_, ?_, ?_, ?_, ?_, ?_, frame.threads inv.threads hpc
    (fun u _ => ⟨congrFun seen.1 u, congrFun seen.2 u⟩) ok⟩
  · by_cases e : r = some t
    · subst e
      rw [Function.update_self]
      exact ⟨congrArg Pc.pushing self, linkSelf⟩
    · have root : s'.root r = s.root r := root_congr head.2 fun u same =>
        congrArg Pc.pushing (other u fun mine => e (mine ▸ same))
      rw [Function.update_of_ne e, root]
      exact (inv.path r).congr fun x hx => linkOther x fun same => outside r (same ▸ hx)
  · intro r r' x hx hx'
    rcases members hx with ⟨rfl, rfl⟩ | old <;> rcases members hx' with ⟨rfl, e⟩ | old'
    · rfl
    · exact absurd old' (outside r')
    · exact absurd (e ▸ old) (outside r)
    · exact inv.apart r r' x old old'
  · intro r x hx
    rw [free]
    rcases members hx with ⟨-, rfl⟩ | old
    · exact Function.update_self ..
    · have e : x ≠ node := fun same => outside r (same ▸ old)
      rw [Function.update_of_ne e]
      exact inv.used r x old
  · intro u x hu
    obtain ⟨inUse, apart⟩ := inv.removed u x (removed hu)
    have e : x ≠ node := by
      rintro rfl
      exact absurd (unused.symm.trans inUse) Bool.false_ne_true.symm
    rw [free, Function.update_of_ne e]
    refine ⟨inUse, fun r hx => ?_⟩
    rcases members hx with ⟨-, same⟩ | old
    · exact e same
    · exact apart r old
  · exact fun u w x hu hw => inv.removedOnce u w x (removed hu) (removed hw)
  · intro u x hu
    by_cases e : x = node
    · exact .inl ⟨some t, by rw [Function.update_self, e]; exact List.mem_singleton_self node⟩
    · rw [linkOther x e]
      rcases inv.known u x (waits hu).2 with ⟨r, hx⟩ | linked
      · exact .inl ⟨r, keep hx⟩
      · exact .inr linked
  · intro u w x hu hw
    obtain ⟨notSelf, old⟩ := waits hu
    rw [began, Function.update_of_ne notSelf]
    by_cases e : w = t
    · rw [e, Function.update_self]
      exact inv.begun u (pushing_of_waitsOn old)
    · rw [Function.update_of_ne e]
      rcases members hw with ⟨same, -⟩ | inside
      · exact absurd (Option.some.inj same) e
      · exact inv.behind u w x old inside
  · intro u hu
    rw [began, calls]
    by_cases e : u = t
    · rw [e, Function.update_self]
      exact Nat.lt_succ_self _
    · rw [Function.update_of_ne e]
      exact Nat.lt_succ_of_lt (inv.begun u (other u e ▸ hu))
  · rw [tail.2]
    exact ⟨last, keep lastIn, atTail⟩
  · rw [head.1, head.2]
    exact inv.headTag
  · rw [tail.1, tail.2]
    exact inv.tailTag

omit [DecidableEq α] [DecidableEq τ] in
/-- The node behind which `t` links its own is the last one of a region other than
the chain of `t` itself. -/
theorem SafeInv.target (inv : SafeInv s region) {node before : α}
    (waits : (s.pc t).waitsOn = some before) (unlinked : s.link before = none)
    (pushing : (s.pc t).pushing = some node) :
    ∃ r init, r ≠ some t ∧ region r = init ++ [before] ∧ before ∉ region (some t) ∧
      Path s.link (some node) (region (some t)) := by
  obtain ⟨r, inside⟩ := (inv.known t before waits).resolve_right fun linked => linked unlinked
  have e : r ≠ some t := by
    rintro rfl
    exact absurd (inv.behind t t before waits inside) (Nat.lt_irrefl _)
  obtain ⟨init, last⟩ := (inv.path r).last_of_end inside unlinked
  have own := inv.path (some t)
  rw [State.root, pushing] at own
  exact ⟨r, init, e, last, fun own => e (inv.apart r (some t) before inside own), own⟩

/-- A successful compare-and-swap of `push` hangs the thread's chain behind the
last node of another region. -/
theorem SafeInv.link (inv : SafeInv s region) {node before : α} {oldTail : TagPtr α}
    {word : TagPtr α} (waits : (s.pc t).waitsOn = some before)
    (pushing : (s.pc t).pushing = some node) (target : oldTail.ptr = some before)
    (unlinked : s.link before = none) (saw : SawTail s t oldTail) (node_eq : word.ptr = some node)
    (hpc : s'.pc = Function.update s.pc t (.pushCasTail node oldTail))
    (next : s'.next = Function.update s.next before word) (free : s'.free = s.free)
    (began : s'.began = s.began) (calls : s'.calls = s.calls)
    (head : s'.headCount = s.headCount ∧ s'.head = s.head)
    (tail : s'.tailCount = s.tailCount ∧ s'.tail = s.tail)
    (seen : s'.headSeen = s.headSeen ∧ s'.tailSeen = s.tailSeen) :
    ∃ region', SafeInv s' region' := by
  obtain ⟨r, init, e, last, notOwn, own⟩ := inv.target waits unlinked pushing
  have self : s'.pc t = .pushCasTail node oldTail := by rw [hpc, Function.update_self]
  have other : ∀ u, u ≠ t → s'.pc u = s.pc u := fun u e => by rw [hpc, Function.update_of_ne e]
  have linkSelf : s'.link before = some node := by
    rw [State.link, next, Function.update_self, node_eq]
  have linkOther : ∀ x, x ≠ before → s'.link x = s.link x := fun x e => by
    rw [State.link, State.link, next, Function.update_of_ne e]
  have beforeIn : before ∈ region r := last ▸ List.mem_append_right _ (List.mem_singleton_self _)
  let region' := Function.update (Function.update region r (region r ++ region (some t)))
    (some t) []
  -- a node of the new regions lies where it lay, or has moved from the chain of `t` to `r`
  have members : ∀ {q x}, x ∈ region' q → q ≠ some t ∧
      (x ∈ region q ∨ q = r ∧ x ∈ region (some t)) := by
    intro q x hx
    simp only [region', Function.update_apply] at hx
    split_ifs at hx with own here
    · cases hx
    · exact ⟨own, (List.mem_append.mp hx).imp (fun h => here ▸ h) fun h => ⟨here, h⟩⟩
    · exact ⟨own, .inl hx⟩
  have keep : ∀ {q x}, x ∈ region q → ∃ q', x ∈ region' q' ∧ (q ≠ some t → q' = q) := by
    intro q x hx
    by_cases own : q = some t
    · refine ⟨r, ?_, fun no => absurd own no⟩
      simp only [region', Function.update_of_ne e, Function.update_self]
      exact List.mem_append_right _ (own ▸ hx)
    · refine ⟨q, ?_, fun _ => rfl⟩
      simp only [region', Function.update_of_ne own, Function.update_apply]
      split_ifs with here
      · exact List.mem_append_left _ (here ▸ hx)
      · exact hx
  have old : ∀ {u x}, (s'.pc u).waitsOn = some x → u ≠ t ∧ (s.pc u).waitsOn = some x :=
    other_of_move hpc rfl
  have removed : ∀ {u x}, (s'.pc u).removed = some x → (s.pc u).removed = some x :=
    fun hu => (other_of_move hpc rfl hu).2
  obtain ⟨lastNode, lastIn, atTail⟩ := inv.tailIn
  have frame : Frame s s' := by
    refine ⟨.inl head, .inl tail, fun x y _ link => ?_, fun _ => by rw [head.2, tail.2]; exact id⟩
    have e : x ≠ before := by
      rintro rfl
      exact Option.some_ne_none y (link.symm.trans unlinked)
    rw [linkOther x e]
    exact link
  have ok : ThreadOk s' t := by
    rw [ThreadOk, self]
    refine ⟨⟨?_, ?_, ?_⟩, fun _ => ⟨before, target, linkSelf⟩⟩
    · rw [seen.2, tail.1]
      exact saw.le
    · rw [seen.2]
      exact saw.tag
    · rw [seen.2, tail.1, tail.2]
      exact saw.same
  refine ⟨region', ⟨fun q => ?_, ?_, ?_⟩, ?_, ?_, ?_, ?_, ?_, ?_, ?_, ?_, frame.threads inv.threads
    hpc (fun u _ => ⟨congrFun seen.1 u, congrFun seen.2 u⟩) ok⟩
  · by_cases own' : q = some t
    · subst own'
      simp only [region', Function.update_self]
      exact congrArg Pc.pushing self
    · have root : s'.root q = s.root q := root_congr head.2 fun u same =>
        congrArg Pc.pushing (other u fun mine => own' (mine ▸ same))
      simp only [region', Function.update_of_ne own', Function.update_apply, root]
      split_ifs with here
      · subst here
        have path := inv.path q
        rw [last] at path ⊢
        rw [List.append_assoc]
        exact path.link own notOwn linkSelf linkOther
      · refine (inv.path q).congr fun x hx => linkOther x ?_
        rintro rfl
        exact here (inv.apart q r x hx beforeIn)
  · intro q q' x hx hx'
    obtain ⟨-, inQ⟩ := members hx
    obtain ⟨-, inQ'⟩ := members hx'
    have away : ∀ {p}, p ≠ some t → x ∈ region p → x ∈ region (some t) → False :=
      fun no hp ht => no (inv.apart _ _ x hp ht)
    rcases inQ with hq | ⟨rfl, hq⟩ <;> rcases inQ' with hq' | ⟨rfl, hq'⟩
    · exact inv.apart q q' x hq hq'
    · exact (away (members hx).1 hq hq').elim
    · exact (away (members hx').1 hq' hq).elim
    · rfl
  · intro q x hx
    rw [free]
    rcases (members hx).2 with hq | ⟨-, hq⟩
    · exact inv.used _ x hq
    · exact inv.used _ x hq
  · intro u x hu
    obtain ⟨inUse, apart⟩ := inv.removed u x (removed hu)
    rw [free]
    refine ⟨inUse, fun q hx => ?_⟩
    rcases (members hx).2 with hq | ⟨-, hq⟩
    · exact apart _ hq
    · exact apart _ hq
  · exact fun u w x hu hw => inv.removedOnce u w x (removed hu) (removed hw)
  · intro u x hu
    rcases inv.known u x (old hu).2 with ⟨q, hx⟩ | linked
    · obtain ⟨q', hx', -⟩ := keep hx
      exact .inl ⟨q', hx'⟩
    · have e : x ≠ before := fun same => linked (same ▸ unlinked)
      exact .inr (linkOther x e ▸ linked)
  · -- whoever waits on a moved node began before `t`, and `t` before the owner of `r`
    intro u w x hu hw
    rw [began]
    rcases (members hw).2 with inside | ⟨here, inside⟩
    · exact inv.behind u w x (old hu).2 inside
    · exact (inv.behind u t x (old hu).2 inside).trans
        (inv.behind t w before waits (here ▸ beforeIn))
  · intro u hu
    rw [began, calls]
    by_cases e : u = t
    · rw [e, self] at hu
      exact absurd rfl hu
    · exact inv.begun u (other u e ▸ hu)
  · obtain ⟨q, hx, same⟩ := keep lastIn
    exact ⟨lastNode, same (Option.some_ne_none t).symm ▸ hx, tail.2 ▸ atTail⟩
  · rw [head.1, head.2]
    exact inv.headTag
  · rw [tail.1, tail.2]
    exact inv.tailTag

omit [DecidableEq α] in
/-- A successful compare-and-swap of `pop` takes the first node off the chain. -/
theorem SafeInv.takeHead (inv : SafeInv s region) {first second : α}
    (top : s.head.ptr = some first) (linked : s.link first = some second)
    (apart : s.tail.ptr ≠ s.head.ptr) (quiet : (s.pc t).pushing = none)
    (hpc : s'.pc = Function.update s.pc t (.popRead first)) (head : s'.head.ptr = some second)
    (tag : s'.head.tag = BitVec.ofNat 16 (s.headCount + 1))
    (headCount : s'.headCount = s.headCount + 1)
    (next : s'.next = s.next) (free : s'.free = s.free) (began : s'.began = s.began)
    (calls : s'.calls = s.calls) (tail : s'.tailCount = s.tailCount ∧ s'.tail = s.tail)
    (seen : s'.headSeen = s.headSeen ∧ s'.tailSeen = s.tailSeen) :
    ∃ region', SafeInv s' region' := by
  have self : s'.pc t = .popRead first := by rw [hpc, Function.update_self]
  have other : ∀ u, u ≠ t → s'.pc u = s.pc u := fun u e => by rw [hpc, Function.update_of_ne e]
  have link : s'.link = s.link := State.link_congr next
  have path := inv.path none
  rw [State.root, top] at path
  obtain ⟨rest, chain, behind⟩ := path.of_some
  rw [linked] at behind
  have firstIn : first ∈ region none := chain ▸ List.mem_cons_self ..
  have gone : first ∉ rest := (List.nodup_cons.mp (chain ▸ path.nodup)).1
  have members : ∀ {r x}, x ∈ Function.update region none rest r → x ∈ region r ∧ x ≠ first := by
    intro r x hx
    rw [Function.update_apply] at hx
    split_ifs at hx with here
    · subst here
      exact ⟨chain ▸ List.mem_cons_of_mem _ hx, fun e => gone (e ▸ hx)⟩
    · exact ⟨hx, fun e => here (inv.apart r none x hx (e ▸ firstIn))⟩
  have keep : ∀ {r x}, x ∈ region r → x ≠ first → x ∈ Function.update region none rest r := by
    intro r x hx e
    rw [Function.update_apply]
    split_ifs with here
    · subst here
      rw [chain] at hx
      exact (List.mem_cons.mp hx).resolve_left e
    · exact hx
  have pushing : ∀ u, (s'.pc u).pushing = (s.pc u).pushing := kept_of_move hpc quiet.symm
  have waits : ∀ {u x}, (s'.pc u).waitsOn = some x → (s.pc u).waitsOn = some x :=
    fun hu => (other_of_move hpc rfl hu).2
  have removed : ∀ {u x}, (s'.pc u).removed = some x →
      u = t ∧ x = first ∨ u ≠ t ∧ (s.pc u).removed = some x := by
    intro u x hu
    by_cases e : u = t
    · rw [e, self] at hu
      exact .inl ⟨e, (Option.some.inj hu).symm⟩
    · exact .inr ⟨e, other u e ▸ hu⟩
  obtain ⟨lastNode, lastIn, atTail⟩ := inv.tailIn
  have frame : Frame s s' := by
    refine ⟨.inr headCount, .inl tail, ?_, fun same => by omega⟩
    rw [link]
    exact fun _ _ _ => id
  have ok : ThreadOk s' t := by
    rw [ThreadOk, self]
    trivial
  refine ⟨Function.update region none rest, ⟨fun r => ?_, ?_, ?_⟩, ?_, ?_, ?_, ?_, ?_, ?_, ?_, ?_,
    frame.threads inv.threads hpc (fun u _ => ⟨congrFun seen.1 u, congrFun seen.2 u⟩) ok⟩
  · rw [link]
    cases r with
    | none =>
      rw [Function.update_self, State.root, head]
      exact behind
    | some u =>
      rw [Function.update_of_ne (Option.some_ne_none u), State.root, pushing]
      exact inv.path (some u)
  · exact fun r r' x hx hx' => inv.apart r r' x (members hx).1 (members hx').1
  · intro r x hx
    rw [free]
    exact inv.used r x (members hx).1
  · intro u x hu
    rw [free]
    rcases removed hu with ⟨-, rfl⟩ | ⟨-, old⟩
    · exact ⟨inv.used none x firstIn, fun r hx => (members hx).2 rfl⟩
    · obtain ⟨inUse, outside⟩ := inv.removed u x old
      exact ⟨inUse, fun r hx => outside r (members hx).1⟩
  · intro u w x hu hw
    rcases removed hu with ⟨rfl, rfl⟩ | ⟨-, oldU⟩ <;> rcases removed hw with ⟨hwt, hwx⟩ | ⟨-, oldW⟩
    · exact hwt.symm
    · exact absurd firstIn ((inv.removed w x oldW).2 none)
    · exact absurd (hwx ▸ firstIn) ((inv.removed u x oldU).2 none)
    · exact inv.removedOnce u w x oldU oldW
  · intro u x hu
    rw [link]
    by_cases e : x = first
    · rw [e, linked]
      exact .inr (Option.some_ne_none second)
    · rcases inv.known u x (waits hu) with ⟨r, hx⟩ | linked
      · exact .inl ⟨r, keep hx e⟩
      · exact .inr linked
  · intro u w x hu hw
    rw [began]
    exact inv.behind u w x (waits hu) (members hw).1
  · intro u hu
    rw [began, calls]
    exact inv.begun u (pushing u ▸ hu)
  · refine ⟨lastNode, keep lastIn ?_, tail.2 ▸ atTail⟩
    rintro rfl
    exact apart (atTail.trans top.symm)
  · rw [tag, headCount]
  · rw [tail.1, tail.2]
    exact inv.tailTag

/-- A thread gives the node it removed back. -/
theorem SafeInv.delete (inv : SafeInv s region) {node : α} {ret : Option δ}
    (mine : (s.pc t).removed = some node) (quiet : (s.pc t).pushing = none)
    (hpc : s'.pc = Function.update s.pc t (.popped ret))
    (free : s'.free = Function.update s.free node true) (next : s'.next = s.next)
    (began : s'.began = s.began) (calls : s'.calls = s.calls)
    (head : s'.headCount = s.headCount ∧ s'.head = s.head)
    (tail : s'.tailCount = s.tailCount ∧ s'.tail = s.tail)
    (seen : s'.headSeen = s.headSeen ∧ s'.tailSeen = s.tailSeen) : SafeInv s' region := by
  have self : s'.pc t = .popped ret := by rw [hpc, Function.update_self]
  have link : s'.link = s.link := State.link_congr next
  have keep : ∀ {x}, x ≠ node → s'.free x = s.free x := fun e => by
    rw [free, Function.update_of_ne e]
  have pushing : ∀ u, (s'.pc u).pushing = (s.pc u).pushing := kept_of_move hpc quiet.symm
  have waits : ∀ {u x}, (s'.pc u).waitsOn = some x → (s.pc u).waitsOn = some x :=
    fun hu => (other_of_move hpc rfl hu).2
  have removed : ∀ {u x}, (s'.pc u).removed = some x → u ≠ t ∧ (s.pc u).removed = some x :=
    other_of_move hpc rfl
  obtain ⟨lastNode, lastIn, atTail⟩ := inv.tailIn
  have frame : Frame s s' := by
    refine ⟨.inl head, .inl tail, ?_, fun _ => by rw [head.2, tail.2]; exact id⟩
    rw [link]
    exact fun _ _ _ => id
  have ok : ThreadOk s' t := by
    rw [ThreadOk, self]
    trivial
  refine ⟨⟨fun r => ?_, inv.apart, ?_⟩, ?_, ?_, ?_, ?_, ?_, ⟨lastNode, lastIn, tail.2 ▸ atTail⟩, ?_,
    ?_, frame.threads inv.threads hpc (fun u _ => ⟨congrFun seen.1 u, congrFun seen.2 u⟩) ok⟩
  · rw [link, root_congr head.2 fun u _ => pushing u]
    exact inv.path r
  · intro r x hx
    rw [keep fun e => (inv.removed t node mine).2 r (e ▸ hx)]
    exact inv.used r x hx
  · intro u x hu
    obtain ⟨e, old⟩ := removed hu
    rw [keep fun same => e (inv.removedOnce u t x old (by rw [same]; exact mine))]
    exact inv.removed u x old
  · exact fun u w x hu hw => inv.removedOnce u w x (removed hu).2 (removed hw).2
  · intro u x hu
    rw [link]
    exact inv.known u x (waits hu)
  · intro u w x hu hw
    rw [began]
    exact inv.behind u w x (waits hu) hw
  · intro u hu
    rw [began, calls]
    exact inv.begun u (pushing u ▸ hu)
  · rw [head.1, head.2]
    exact inv.headTag
  · rw [tail.1, tail.2]
    exact inv.tailTag

/-- Fewer than 65536 changes of a word since the thread, in its present call, read it. -/
def State.inTagWindow (s : State α δ τ) : Action α δ τ → Bool
  | .step t _ =>
    match s.pc t with
    | .pushCasTail .. | .pushHelp .. => s.tailCount < s.tailSeen t + 65536
    | .popHelp .. | .popCasHead .. => s.headCount < s.headSeen t + 65536
    | _ => true
  | _ => true

/-- The two compare-and-swaps of `pop` that the source does not validate: `head_`
is not set to a null `next` that was read before the first push behind it, and
`tail_` is not moved after the node that was read has left the head. -/
def State.validated (s : State α δ τ) : Action α δ τ → Bool
  | .step t spurious =>
    match s.pc t with
    | .popHelp oldHead _ oldTail => s.tail ≠ oldTail ∨ s.head = oldHead
    | .popCasHead oldHead oldHeadNext => s.head ≠ oldHead ∨ spurious ∨ oldHeadNext.ptr ≠ none
    | _ => true
  | _ => true

omit [DecidableEq α] [DecidableEq τ] in
theorem SawHead.unchanged {w : TagPtr α} (saw : SawHead s t w)
    (tag : s.head.tag = BitVec.ofNat 16 s.headCount) (window : s.headCount < s.headSeen t + 65536)
    (equal : s.head = w) : s.headSeen t = s.headCount := by
  refine (@Window.eq_of_ofNat_eq 16 _ _ saw.le window ?_).symm
  rw [← tag, ← saw.tag, equal]

omit [DecidableEq α] [DecidableEq τ] in
theorem SawTail.unchanged {w : TagPtr α} (saw : SawTail s t w)
    (tag : s.tail.tag = BitVec.ofNat 16 s.tailCount) (window : s.tailCount < s.tailSeen t + 65536)
    (equal : s.tail = w) : s.tailSeen t = s.tailCount := by
  refine (@Window.eq_of_ofNat_eq 16 _ _ saw.le window ?_).symm
  rw [← tag, ← saw.tag, equal]

theorem SafeInv.stepPush (inv : SafeInv s region) (tags : v.tagsEnds = true)
    (helps : v.helps = true) {node : α} (pushing : (s.pc t).pushing = some node) {spurious : Bool}
    (window : s.inTagWindow (.step t spurious) = true) (h : s.step v t spurious = some s') :
    ∃ region', SafeInv s' region' := by
  have ok := inv.threads t
  unfold ThreadOk at ok
  cases pc : s.pc t with
  | pushLoadTail new =>
    simp only [State.step, pc] at h
    obtain rfl := Option.some.inj h
    refine ⟨region, inv.quiet ⟨rfl, rfl, rfl, rfl, rfl, rfl, rfl, le_rfl⟩ rfl (by rw [pc]; rfl)
      (by rw [pc]; rfl) (fun _ => .inl) (fun u e => ⟨rfl, Function.update_of_ne e ..⟩) ?_⟩
    simp only [ThreadOk, State.sawTail, State.goto, Function.update_self]
    exact ⟨by simp, by simp [inv.tailTag], fun _ => rfl⟩
  | pushLoadNext new oldTail =>
    simp only [pc] at ok
    simp only [State.step, pc] at h
    obtain ⟨before, here, h⟩ := Option.bind_eq_some_iff.mp h
    rw [if_pos helps] at h
    split_ifs at h with unlinked <;> obtain rfl := Option.some.inj h
    · refine ⟨region, inv.quiet ⟨rfl, rfl, rfl, rfl, rfl, rfl, rfl, le_rfl⟩ rfl (by rw [pc]; rfl)
        (by rw [pc]; rfl) (fun _ hn => .inr (by rw [pc]; exact hn)) (fun u e => ⟨rfl, rfl⟩) ?_⟩
      simp only [ThreadOk, State.goto, Function.update_self]
      exact ⟨⟨ok.le, ok.tag, ok.same⟩, unlinked⟩
    · refine ⟨region, inv.quiet ⟨rfl, rfl, rfl, rfl, rfl, rfl, rfl, le_rfl⟩ rfl (by rw [pc]; rfl)
        (by rw [pc]; rfl) (by rintro _ ⟨⟩) (fun u e => ⟨rfl, rfl⟩) ?_⟩
      simp only [ThreadOk, State.goto, Function.update_self]
      obtain ⟨after, link⟩ := Option.ne_none_iff_exists'.mp unlinked
      exact ⟨⟨ok.le, ok.tag, ok.same⟩, fun _ => ⟨after, link, before, here, link⟩⟩
  | pushCasNext new oldTail oldTailNext =>
    simp only [pc] at ok
    simp only [State.step, pc] at h
    obtain ⟨before, here, h⟩ := Option.bind_eq_some_iff.mp h
    split_ifs at h with success <;> obtain rfl := Option.some.inj h
    · exact inv.link (by rw [pc]; exact here) (by rw [pc]; rfl) here
        ((congrArg TagPtr.ptr success.1).trans ok.2) ok.1 rfl rfl rfl rfl rfl rfl ⟨rfl, rfl⟩
        ⟨rfl, rfl⟩ ⟨rfl, rfl⟩
    · refine ⟨region, inv.quiet ⟨rfl, rfl, rfl, rfl, rfl, rfl, rfl, le_rfl⟩ rfl (by rw [pc]; rfl)
        (by rw [pc]; rfl) (by rintro _ ⟨⟩) (fun u e => ⟨rfl, rfl⟩) ?_⟩
      simp [ThreadOk, State.goto]
  | pushHelp new oldTail oldTailNext =>
    simp only [pc] at ok
    simp only [State.inTagWindow, pc, decide_eq_true_eq] at window
    simp only [State.step, pc] at h
    obtain rfl := Option.some.inj h
    have moved : SafeInv (s.casTail oldTail ⟨oldTailNext.ptr, v.endTag oldTail⟩) region :=
      inv.casTail tags fun equal => ok.2 (ok.1.unchanged inv.tailTag window equal)
    refine ⟨region, moved.quiet ⟨rfl, rfl, rfl, rfl, rfl, rfl, rfl, le_rfl⟩ rfl ?_ ?_
      (by rintro _ ⟨⟩) (fun u e => ⟨rfl, rfl⟩) ?_⟩
    · rw [State.casTail_pc, pc]
      rfl
    · rw [State.casTail_pc, pc]
      rfl
    · simp [ThreadOk, State.goto]
  | _ => rw [pc] at pushing; cases pushing

theorem SafeInv.stepPop (inv : SafeInv s region) (tags : v.tagsEnds = true)
    (pushing : (s.pc t).pushing = none) {spurious : Bool}
    (window : s.inTagWindow (.step t spurious) = true)
    (valid : s.validated (.step t spurious) = true) (h : s.step v t spurious = some s') :
    ∃ region', SafeInv s' region' := by
  have ok := inv.threads t
  unfold ThreadOk at ok
  have plain : ∀ {pc : Pc α δ}, SameMemory s s' → s'.pc = Function.update s.pc t pc →
      pc.pushing = none → pc.removed = (s.pc t).removed → pc.waitsOn = none →
      (∀ u, u ≠ t → s'.headSeen u = s.headSeen u ∧ s'.tailSeen u = s.tailSeen u) →
      ThreadOk s' t → ∃ region', SafeInv s' region' := by
    intro pc same hpc quiet removed waits seen ok
    refine ⟨region,
      inv.quiet same hpc (quiet.trans pushing.symm) removed (fun node hn => ?_) seen ok⟩
    exact absurd (hn.symm.trans waits) (Option.some_ne_none node)
  cases pc : s.pc t with
  | pushCasTail new oldTail =>
    simp only [pc] at ok
    simp only [State.inTagWindow, pc, decide_eq_true_eq] at window
    simp only [State.step, pc] at h
    obtain rfl := Option.some.inj h
    have moved : SafeInv (s.casTail oldTail ⟨some new, v.endTag oldTail⟩) region :=
      inv.casTail tags fun equal => ⟨new, rfl, ok.2 (ok.1.unchanged inv.tailTag window equal)⟩
    refine ⟨region, moved.quiet ⟨rfl, rfl, rfl, rfl, rfl, rfl, rfl, le_rfl⟩ rfl ?_ ?_
      (by rintro _ ⟨⟩) (fun u e => ⟨rfl, rfl⟩) ?_⟩
    · rw [State.casTail_pc, pc]
      rfl
    · rw [State.casTail_pc, pc]
      rfl
    · simp [ThreadOk, State.goto, State.ended]
  | popLoadHead =>
    simp only [State.step, pc] at h
    obtain rfl := Option.some.inj h
    refine plain ⟨rfl, rfl, rfl, rfl, rfl, rfl, rfl, le_rfl⟩ rfl rfl (by rw [pc]; rfl) rfl
      (fun u e => ⟨Function.update_of_ne e .., rfl⟩) ?_
    simp only [ThreadOk, State.sawHead, State.goto, Function.update_self]
    exact ⟨by simp, by simp [inv.headTag], fun _ => rfl⟩
  | popLoadNext oldHead =>
    simp only [pc] at ok
    simp only [State.step, pc] at h
    obtain ⟨first, here, h⟩ := Option.bind_eq_some_iff.mp h
    obtain rfl := Option.some.inj h
    refine plain ⟨rfl, rfl, rfl, rfl, rfl, rfl, rfl, le_rfl⟩ rfl rfl (by rw [pc]; rfl) rfl
      (fun u e => ⟨rfl, rfl⟩) ?_
    simp only [ThreadOk, State.goto, Function.update_self]
    exact ⟨⟨ok.le, ok.tag, ok.same⟩, fun _ node link => ⟨first, here, link⟩⟩
  | popLoadTail oldHead oldHeadNext =>
    simp only [pc] at ok
    simp only [State.step, pc] at h
    have saw : SawHead s t oldHead := ok.1
    split_ifs at h with lagging some <;> obtain rfl := Option.some.inj h
    · refine plain ⟨rfl, rfl, rfl, rfl, rfl, rfl, rfl, le_rfl⟩ rfl rfl (by rw [pc]; rfl) rfl
        (fun u e => ⟨rfl, Function.update_of_ne e ..⟩) ?_
      simp only [ThreadOk, State.sawTail, State.goto, Function.update_self]
      exact ⟨⟨saw.le, saw.tag, saw.same⟩, ok.2, some.2, lagging⟩
    · refine plain ⟨rfl, rfl, rfl, rfl, rfl, rfl, rfl, le_rfl⟩ rfl rfl (by rw [pc]; rfl) rfl
        (fun u e => ⟨rfl, Function.update_of_ne e ..⟩) ?_
      simp [ThreadOk, State.ended, State.sawTail, State.goto]
    · refine plain ⟨rfl, rfl, rfl, rfl, rfl, rfl, rfl, le_rfl⟩ rfl rfl (by rw [pc]; rfl) rfl
        (fun u e => ⟨rfl, Function.update_of_ne e ..⟩) ?_
      simp only [ThreadOk, State.sawTail, State.goto, Function.update_self]
      exact ⟨⟨saw.le, saw.tag, saw.same⟩, fun e => ⟨ok.2 e, fun same =>
        lagging (same.trans (congrArg TagPtr.ptr (saw.same e)))⟩⟩
  | popHelp oldHead oldHeadNext oldTail =>
    simp only [pc] at ok
    obtain ⟨saw, links, notNull, lagging⟩ := ok
    simp only [State.inTagWindow, pc, decide_eq_true_eq] at window
    simp only [State.validated, pc, decide_eq_true_eq] at valid
    simp only [State.step, pc] at h
    obtain rfl := Option.some.inj h
    obtain ⟨second, next⟩ := Option.ne_none_iff_exists'.mp notNull
    have moved : SafeInv (s.casTail oldTail ⟨oldHeadNext.ptr, v.endTag oldTail⟩) region := by
      refine inv.casTail tags fun equal => ⟨second, next, ?_⟩
      have unmoved := saw.unchanged inv.headTag window (valid.resolve_left fun no => no equal)
      obtain ⟨first, here, link⟩ := links unmoved second next
      exact ⟨first, lagging.trans here, link⟩
    refine ⟨region, moved.quiet ⟨rfl, rfl, rfl, rfl, rfl, rfl, rfl, le_rfl⟩ rfl ?_ ?_
      (by rintro _ ⟨⟩) (fun u e => ⟨rfl, rfl⟩) ?_⟩
    · rw [State.casTail_pc, pc]
      rfl
    · rw [State.casTail_pc, pc]
      rfl
    · simp [ThreadOk, State.goto]
  | popCasHead oldHead oldHeadNext =>
    simp only [pc] at ok
    obtain ⟨saw, facts⟩ := ok
    simp only [State.inTagWindow, pc, decide_eq_true_eq] at window
    simp only [State.validated, pc, decide_eq_true_eq] at valid
    simp only [State.step, pc] at h
    obtain ⟨first, here, h⟩ := Option.bind_eq_some_iff.mp h
    split_ifs at h with success <;> obtain rfl := Option.some.inj h
    · obtain ⟨equal, sound⟩ := success
      have notNull : oldHeadNext.ptr ≠ none := by
        rcases valid with no | failed | notNull
        · exact absurd equal no
        · exact absurd (failed.symm.trans sound) Bool.false_ne_true.symm
        · exact notNull
      obtain ⟨second, next⟩ := Option.ne_none_iff_exists'.mp notNull
      obtain ⟨links, apart⟩ := facts (saw.unchanged inv.headTag window equal)
      obtain ⟨first', here', link⟩ := links second next
      obtain rfl := Option.some.inj (here.symm.trans here')
      refine inv.takeHead (equal ▸ here) link apart pushing rfl next ?_ rfl rfl rfl rfl rfl
        ⟨rfl, rfl⟩ ⟨rfl, rfl⟩
      change v.endTag oldHead = BitVec.ofNat 16 (s.headCount + 1)
      rw [Variant.endTag, if_pos tags, TagPtr.nextTag, ← equal, inv.headTag, Window.ofNat_succ]
    · refine plain ⟨rfl, rfl, rfl, rfl, rfl, rfl, rfl, le_rfl⟩ rfl rfl (by rw [pc]; rfl) rfl
        (fun u e => ⟨rfl, rfl⟩) ?_
      simp [ThreadOk, State.goto]
  | popRead oldHead =>
    simp only [State.step, pc] at h
    obtain rfl := Option.some.inj h
    refine plain ⟨rfl, rfl, rfl, rfl, rfl, rfl, rfl, le_rfl⟩ rfl rfl (by rw [pc]; rfl) rfl
      (fun u e => ⟨rfl, rfl⟩) ?_
    simp [ThreadOk, State.goto]
  | popDelete oldHead ret =>
    simp only [State.step, pc] at h
    obtain rfl := Option.some.inj h
    exact ⟨region, inv.delete (by rw [pc]; rfl) pushing rfl rfl rfl rfl rfl ⟨rfl, rfl⟩ ⟨rfl, rfl⟩
      ⟨rfl, rfl⟩⟩
  | idle | pushed | popped ret =>
    simp only [State.step, pc] at h
    cases h
  | _ => rw [pc] at pushing; cases pushing

theorem SafeInv.act (inv : SafeInv s region) (tags : v.tagsEnds = true) (helps : v.helps = true)
    {a : Action α δ τ} (window : s.inTagWindow a = true) (valid : s.validated a = true)
    (h : s.act v a = some s') : ∃ region', SafeInv s' region' := by
  cases a with
  | step t spurious =>
    cases pushing : (s.pc t).pushing with
    | some node => exact inv.stepPush tags helps pushing window h
    | none => exact inv.stepPop tags pushing window valid h
  | push t node data =>
    simp only [State.act] at h
    split_ifs at h with allowed
    obtain rfl := Option.some.inj h
    exact ⟨_, inv.callPush allowed.1 allowed.2 rfl rfl rfl rfl (by simp) ⟨rfl, rfl⟩ ⟨rfl, rfl⟩
      ⟨rfl, rfl⟩⟩
  | pop t =>
    simp only [State.act] at h
    split_ifs at h with rest
    obtain rfl := Option.some.inj h
    have quiet := resting_idle rest
    refine ⟨region, inv.quiet ⟨rfl, rfl, rfl, rfl, rfl, rfl, rfl, by simp⟩ rfl
      quiet.1.symm quiet.2.symm (by rintro _ ⟨⟩) (fun u e => ⟨rfl, rfl⟩) ?_⟩
    simp [ThreadOk, State.goto]

theorem safeInv_init (h : (machine v dummyData α τ).init s) :
    ∃ region, SafeInv s region := by
  obtain ⟨dummy, head, tail, next, -, -, free, pc, headCount, tailCount, -⟩ := h
  have idle : ∀ t, (s.pc t).pushing = none ∧ (s.pc t).removed = none ∧ (s.pc t).waitsOn = none := by
    intro t
    rw [pc]
    exact ⟨rfl, rfl, rfl⟩
  refine ⟨fun r => if r = none then [dummy] else [], ⟨fun r => ?_, ?_, ?_⟩, ?_, ?_, ?_, ?_, ?_,
    ⟨dummy, by simp, by rw [tail]⟩, by rw [head, headCount]; rfl, by rw [tail, tailCount]; rfl, ?_⟩
  · cases r with
    | none => exact ⟨by rw [State.root, head], next⟩
    | some t => exact (idle t).1
  · intro r r' x hx hx'
    split_ifs at hx with e <;> split_ifs at hx' with e'
    · rw [e, e']
    · cases hx'
    · cases hx
    · cases hx
  · intro r x hx
    split_ifs at hx with e
    · rw [List.mem_singleton.mp hx]
      exact Bool.eq_false_iff.mpr fun no => (free dummy).mp no rfl
    · cases hx
  · intro t x hx
    exact absurd (hx.symm.trans (idle t).2.1) (Option.some_ne_none x)
  · intro t u x hx
    exact absurd (hx.symm.trans (idle t).2.1) (Option.some_ne_none x)
  · intro t x hx
    exact absurd (hx.symm.trans (idle t).2.2) (Option.some_ne_none x)
  · intro t u x hx
    exact absurd (hx.symm.trans (idle t).2.2) (Option.some_ne_none x)
  · exact fun t ht => absurd (idle t).1 ht
  · intro t
    rw [ThreadOk, pc]
    trivial

/-- In every run inside the tag window whose pops take and help only where their
snapshots still hold: `head_` and `tail_` are not null, and the chain from `head_`
is finite, free of repetition and contains the node of `tail_`. -/
theorem queueVersionNext_safe
    (hs : (machine queueVersionNext dummyData α τ).ReachableBy
      (fun s a => s.inTagWindow a && s.validated a) s) :
    ∃ chain first last, Path s.link s.head.ptr chain ∧ chain.Nodup ∧ s.head.ptr = some first ∧
      s.tail.ptr = some last ∧ last ∈ chain := by
  obtain ⟨region, inv⟩ : ∃ region, SafeInv s region := by
    refine hs.invariant (fun s => ∃ region, SafeInv s region) (fun s h => safeInv_init h) ?_
    rintro s a s' ⟨region, inv⟩ ok h
    obtain ⟨window, valid⟩ := Bool.and_eq_true_iff.mp ok
    exact inv.act rfl rfl window valid h
  obtain ⟨last, lastIn, tail⟩ := inv.tailIn
  have path := inv.path none
  cases chain : region none with
  | nil => simp [chain] at lastIn
  | cons first rest =>
    rw [chain] at path lastIn
    exact ⟨first :: rest, first, last, path, path.nodup, path.1, tail, lastIn⟩

/-- A pop that overlaps a push of another thread and helps `tail_` on. -/
theorem queueVersionNext_safe_overlap : ∃ s : State ℕ ℕ ℕ,
    (machine queueVersionNext none ℕ ℕ).ReachableBy
      (fun s a => s.inTagWindow a && s.validated a) s ∧
    s.outcomes = [.removed none] ∧ ∃ chain, Path s.link s.head.ptr chain ∧ chain.Nodup := by
  have ran : ((machine queueVersionNext none ℕ ℕ).runBy
      (fun s a => s.inTagWindow a && s.validated a) (fresh ℕ none)
      ([.push 1 5 (some 7), .step 1 false, .step 1 false, .step 1 false, .pop 0] ++
        List.replicate 10 (.step 0 false))).map State.outcomes = some [.removed none] := by
    decide +kernel
  obtain ⟨s, hrun, outcomes⟩ := Option.map_eq_some_iff.mp ran
  have hs := Machine.runBy_reachable (.init fresh_init) hrun
  obtain ⟨chain, -, -, path, nodup, -⟩ := queueVersionNext_safe hs
  exact ⟨s, hs, outcomes, chain, path, nodup⟩

/-- A pop has read the null `next` of the dummy when another thread pushes a node;
it finds `tail_` moved on and sets `head_` to null. -/
theorem queueVersionNext_head_lost : ¬ ∀ s : State ℕ ℕ ℕ,
    (machine queueVersionNext none ℕ ℕ).ReachableBy (fun s a => s.inTagWindow a) s →
    ∃ chain first last, Path s.link s.head.ptr chain ∧ chain.Nodup ∧ s.head.ptr = some first ∧
      s.tail.ptr = some last ∧ last ∈ chain := by
  intro safe
  have ran : ((machine queueVersionNext none ℕ ℕ).runBy State.inTagWindow (fresh ℕ none)
      [.pop 0, .step 0 false, .step 0 false, .push 1 5 (some 7), .step 1 false, .step 1 false,
        .step 1 false, .step 1 false, .step 0 false, .step 0 false]).map (fun s => s.head.ptr) =
      some none := by decide +kernel
  obtain ⟨s, hrun, lost⟩ := Option.map_eq_some_iff.mp ran
  have hs := Machine.runBy_reachable (.init fresh_init) hrun
  obtain ⟨chain, first, last, -, -, top, -⟩ := safe s hs
  exact absurd (top.symm.trans lost) (Option.some_ne_none first)

/-- The other unvalidated step: a pop has read node 0 at the head and its successor
5; both are removed meanwhile and node 0 is pushed again, so the pop takes it for a
lagging `tail_` and moves `tail_` to node 5, which is free. -/
theorem queueVersionNext_tail_lost : ∃ s : State ℕ ℕ ℕ,
    (machine queueVersionNext none ℕ ℕ).ReachableBy (fun s a => s.inTagWindow a) s ∧
    s.tail.ptr = some 5 ∧ s.free 5 = true := by
  have ran : ((machine queueVersionNext none ℕ ℕ).runBy State.inTagWindow (fresh ℕ none)
      (.push 1 5 (some 7) :: List.replicate 4 (.step 1 false) ++
        [.pop 0, .step 0 false, .step 0 false] ++ .pop 1 :: List.replicate 6 (.step 1 false) ++
        .push 1 0 (some 8) :: List.replicate 4 (.step 1 false) ++
        .pop 1 :: List.replicate 6 (.step 1 false) ++ [.step 0 false, .step 0 false])).map
      (fun s => (s.tail.ptr, s.free 5)) = some (some 5, true) := by decide +kernel
  obtain ⟨s, hrun, lost⟩ := Option.map_eq_some_iff.mp ran
  rw [Prod.mk.injEq] at lost
  have hs := Machine.runBy_reachable (.init fresh_init) hrun
  exact ⟨s, hs, lost⟩

end Codelab.LinkedQueue
