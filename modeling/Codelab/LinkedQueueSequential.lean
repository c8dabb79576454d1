import Codelab.LinkedQueue
import Mathlib.Data.List.Induction

/-! The linked queues used by one thread, against a FIFO queue of the data. The node
a pop frees is the old dummy, and its `data` is what the pop returns, so every
result comes one removal late. -/

namespace Codelab.LinkedQueue

open Chain

variable {α δ σ : Type*} {v : Variant} {dummyData : Option δ}

/-- Run a sequential object through a list of calls and collect the outcomes. -/
def replay (object : σ → Call α δ → σ × Outcome δ) (start : σ) (calls : List (Call α δ)) :
    σ × List (Outcome δ) :=
  calls.foldl (fun r c => ((object r.1 c).1, r.2 ++ [(object r.1 c).2])) (start, [])

theorem replay_concat (object : σ → Call α δ → σ × Outcome δ) (start : σ)
    (calls : List (Call α δ)) (c : Call α δ) :
    replay object start (calls ++ [c]) =
      ((object (replay object start calls).1 c).1,
        (replay object start calls).2 ++ [(object (replay object start calls).1 c).2]) := by
  simp only [replay, List.foldl_append, List.foldl_cons, List.foldl_nil]

/-- A FIFO queue of data. -/
def fifo : List (Option δ) → Call α δ → List (Option δ) × Outcome δ
  | contents, .push _ data => (contents ++ [data], .pushed)
  | [], .pop => ([], .refused)
  | data :: contents, .pop => (contents, .removed data)

/-- A queue that hands out the data of its dummy: the first component. -/
def late : Option δ × List (Option δ) → Call α δ → (Option δ × List (Option δ)) × Outcome δ
  | (dummy, contents), .push _ data => ((dummy, contents ++ [data]), .pushed)
  | (dummy, []), .pop => ((dummy, []), .refused)
  | (dummy, data :: contents), .pop => ((data, contents), .removed dummy)

def Outcome.data : Outcome δ → Option (Option δ)
  | .removed ret => some ret
  | _ => none

/-- What a FIFO queue hands out over the calls. -/
def handedOut (calls : List (Call α δ)) : List (Option δ) :=
  (replay fifo [] calls).2.filterMap Outcome.data

theorem handedOut_concat (calls : List (Call α δ)) (c : Call α δ) :
    handedOut (calls ++ [c]) =
      handedOut calls ++ (fifo (replay fifo [] calls).1 c).2.data.toList := by
  rw [handedOut, replay_concat, List.filterMap_append]
  cases h : (fifo (replay fifo [] calls).1 c).2.data <;> simp [handedOut, h]

theorem late_call (queue : Option δ × List (Option δ)) (c : Call α δ) :
    (late queue c).1.2 = (fifo queue.2 c).1 := by
  obtain ⟨dummy, contents⟩ := queue
  cases c with
  | push node data => cases contents <;> rfl
  | pop => cases contents <;> rfl

theorem late_push (queue : Option δ × List (Option δ)) (node : α) (data : Option δ) :
    (late queue (.push node data)).2 = .pushed := by
  obtain ⟨dummy, contents⟩ := queue
  cases contents <;> rfl

theorem late_pop {queue : Option δ × List (Option δ)} (some : queue.2 ≠ []) :
    (late queue (.pop : Call α δ)).2 = .removed queue.1 := by
  obtain ⟨dummy, contents⟩ := queue
  cases contents with
  | nil => exact absurd rfl some
  | cons data contents => rfl

theorem late_pop_empty {queue : Option δ × List (Option δ)} (empty : queue.2 = []) :
    late queue (.pop : Call α δ) = (queue, .refused) := by
  obtain ⟨dummy, contents⟩ := queue
  obtain rfl : contents = [] := empty
  rfl

theorem late_contents (calls : List (Call α δ)) :
    (replay late (dummyData, []) calls).1.2 = (replay fifo [] calls).1 := by
  induction calls using List.reverseRecOn with
  | nil => rfl
  | append_singleton calls c ih => rw [replay_concat, replay_concat, late_call, ih]

/-- The late queue answers like a FIFO queue exactly if nothing but the data of the
first dummy is ever handed out; then every dummy carries that data. -/
theorem late_eq_fifo (calls : List (Call α δ)) :
    ((replay late (dummyData, []) calls).2 = (replay fifo [] calls).2 ↔
      ∀ data ∈ handedOut calls, data = dummyData) ∧
    ((∀ data ∈ handedOut calls, data = dummyData) →
      (replay late (dummyData, []) calls).1.1 = dummyData) := by
  induction calls using List.reverseRecOn with
  | nil => exact ⟨⟨fun _ _ no => (List.not_mem_nil no).elim, fun _ => rfl⟩, fun _ => rfl⟩
  | append_singleton calls c ih =>
    have same := @late_contents α δ dummyData calls
    obtain ⟨outcomes, dummy⟩ := ih
    rw [replay_concat, replay_concat, handedOut_concat]
    generalize replay late (dummyData, []) calls = r at same outcomes dummy ⊢
    generalize replay fifo [] calls = f at same outcomes ⊢
    obtain ⟨⟨first, contents⟩, answered⟩ := r
    obtain ⟨contents', answered'⟩ := f
    obtain rfl : contents = contents' := same
    cases c with
    | push node data =>
      simpa [late, fifo, Outcome.data] using ⟨outcomes, dummy⟩
    | pop =>
      cases contents with
      | nil => simpa [late, fifo, Outcome.data] using ⟨outcomes, dummy⟩
      | cons data contents =>
        have all : (∀ d ∈ handedOut calls ++ [data], d = dummyData) ↔
            (∀ d ∈ handedOut calls, d = dummyData) ∧ data = dummyData := by
          simp only [List.mem_append, List.mem_singleton, or_imp, forall_and, forall_eq]
        change (answered ++ [.removed first] = answered' ++ [.removed data] ↔
          ∀ d ∈ handedOut calls ++ [data], d = dummyData) ∧
          ((∀ d ∈ handedOut calls ++ [data], d = dummyData) → data = dummyData)
        rw [all, List.append_singleton_inj, outcomes, Outcome.removed.injEq]
        refine ⟨⟨fun h => ⟨h.1, ?_⟩, fun h => ⟨h.1, ?_⟩⟩, fun h => h.2⟩
        · rw [← h.2]
          exact dummy h.1
        · rw [h.2]
          exact dummy h.1

variable [DecidableEq α] {s s' : State α δ Unit} {first : α} {nodes : List α}
  {done : List (Call α δ)} {queue : Option δ × List (Option δ)}

/-- The chain from `head_` is the dummy `first` and the nodes behind it, with the
data of `queue`. -/
structure Holds (s : State α δ Unit) (first : α) (nodes : List α)
    (queue : Option δ × List (Option δ)) : Prop where
  path : Path s.link s.head.ptr (first :: nodes)
  used : ∀ node ∈ first :: nodes, s.free node = false
  dummy : s.data first = queue.1
  contents : nodes.map s.data = queue.2

/-- `tail_` holds the last node of the chain. -/
def AtEnd (s : State α δ Unit) (first : α) (nodes : List α) : Prop :=
  ∃ init last, first :: nodes = init ++ [last] ∧ s.tail.ptr = some last

/-- Before the node of a push is linked. -/
structure Pushing (s : State α δ Unit) (first : α) (nodes : List α) (done : List (Call α δ))
    (queue : Option δ × List (Option δ)) (node : α) : Prop extends Holds s first nodes queue where
  calls : s.calls = done ++ [.push node (s.data node)]
  atEnd : AtEnd s first nodes
  apart : node ∉ first :: nodes
  inUse : s.free node = false
  unlinked : s.link node = none

/-- Before a pop has taken a node. -/
structure Popping (s : State α δ Unit) (first : α) (nodes : List α) (done : List (Call α δ))
    (queue : Option δ × List (Option δ)) : Prop extends Holds s first nodes queue where
  calls : s.calls = done ++ [.pop]
  atEnd : AtEnd s first nodes

/-- After a pop has taken `node`. -/
structure Popped (s : State α δ Unit) (first : α) (nodes : List α) (done : List (Call α δ))
    (queue : Option δ × List (Option δ)) (node : α) : Prop extends
    Holds s first nodes (late queue (Call.pop : Call α δ)).1 where
  calls : s.calls = done ++ [.pop]
  atEnd : AtEnd s first nodes
  apart : node ∉ first :: nodes
  some : queue.2 ≠ []

/-- Where the call in progress stands; `done` and `queue` are as before it. -/
def Phase (s : State α δ Unit) (first : α) (nodes : List α) (done : List (Call α δ))
    (queue : Option δ × List (Option δ)) : Pc α δ → Prop
  | .idle | .pushed | .popped _ => s.calls = done ∧ Holds s first nodes queue ∧ AtEnd s first nodes
  | .pushLoadTail node => Pushing s first nodes done queue node
  | .pushLoadNext node oldTail => Pushing s first nodes done queue node ∧ oldTail = s.tail
  | .pushCasNext node oldTail oldTailNext => Pushing s first nodes done queue node ∧
    oldTail = s.tail ∧ ∀ last, s.tail.ptr = some last → oldTailNext = s.next last
  | .pushCasTail node oldTail => oldTail = s.tail ∧ ∃ data init,
    s.calls = done ++ [.push node data] ∧
    Holds s first nodes (late queue (Call.push node data)).1 ∧ first :: nodes = init ++ [node]
  | .popLoadHead => Popping s first nodes done queue
  | .popLoadNext oldHead => Popping s first nodes done queue ∧ oldHead = s.head
  | .popLoadTail oldHead oldHeadNext => Popping s first nodes done queue ∧ oldHead = s.head ∧
    oldHeadNext = s.next first
  | .popCasHead oldHead oldHeadNext => Popping s first nodes done queue ∧ oldHead = s.head ∧
    oldHeadNext = s.next first ∧ nodes ≠ []
  | .popRead oldHead => Popped s first nodes done queue oldHead ∧ s.data oldHead = queue.1
  | .popDelete oldHead ret => Popped s first nodes done queue oldHead ∧ ret = queue.1
  | .pushHelp .. | .popHelp .. => False

/-- The state of a run by one thread: the queue after the calls that have ended, and
the phase of the call in progress. -/
def SeqInv (dummyData : Option δ) (s : State α δ Unit) : Prop :=
  ∃ first nodes done, s.outcomes = (replay late (dummyData, []) done).2 ∧
    Phase s first nodes done (replay late (dummyData, []) done).1 (s.pc ())

omit [DecidableEq α] in
theorem Holds.congr (h : Holds s first nodes queue) (head : s'.head.ptr = s.head.ptr)
    (next : s'.next = s.next) (data : s'.data = s.data) (free : s'.free = s.free) :
    Holds s' first nodes queue := by
  have link : s'.link = s.link := State.link_congr next
  refine ⟨?_, ?_, ?_, ?_⟩
  · rw [link, head]
    exact h.path
  · rw [free]
    exact h.used
  · rw [data]
    exact h.dummy
  · rw [data]
    exact h.contents

omit [DecidableEq α] in
theorem AtEnd.unlinked (h : AtEnd s first nodes) (path : Path s.link s.head.ptr (first :: nodes))
    {last : α} (tail : s.tail.ptr = some last) : s.link last = none := by
  obtain ⟨init, last', split, tail'⟩ := h
  obtain rfl := Option.some.inj (tail.symm.trans tail')
  rw [split] at path
  exact path.drop

omit [DecidableEq α] in
/-- `tail_` is at the dummy exactly if the queue is empty. -/
theorem AtEnd.empty_iff (h : AtEnd s first nodes)
    (path : Path s.link s.head.ptr (first :: nodes)) : s.tail.ptr = s.head.ptr ↔ nodes = [] := by
  obtain ⟨init, last, split, tail⟩ := h
  rw [tail, path.1, Option.some.injEq]
  cases init with
  | nil =>
    injection split with same rest
    exact ⟨fun _ => rest, fun _ => same.symm⟩
  | cons a init =>
    injection split with same rest
    have fresh := (List.nodup_cons.mp path.nodup).1
    constructor
    · rintro rfl
      exact absurd (rest ▸ List.mem_append_right _ (List.mem_singleton_self last)) fresh
    · rintro rfl
      simp at rest

theorem seqInv_init (h : (machine v dummyData α Unit).init s) : SeqInv dummyData s := by
  obtain ⟨dummy, head, tail, next, -, data, free, pc, -, -, -, -, calls, outcomes⟩ := h
  refine ⟨dummy, [], [], outcomes, ?_⟩
  rw [pc]
  refine ⟨calls, ⟨⟨by rw [head], next⟩, ?_, data, rfl⟩, [], dummy, rfl, by rw [tail]⟩
  intro node hnode
  rw [List.mem_singleton.mp hnode]
  exact Bool.eq_false_iff.mpr fun no => (free dummy).mp no rfl

omit [DecidableEq α] in
theorem SeqInv.now (pc : Pc α δ) (hpc : s.pc () = pc)
    (outcomes : s.outcomes = (replay late (dummyData, []) done).2)
    (phase : Phase s first nodes done (replay late (dummyData, []) done).1 pc) :
    SeqInv dummyData s := by
  refine ⟨first, nodes, done, outcomes, ?_⟩
  rw [hpc]
  exact phase

omit [DecidableEq α] in
/-- The call `c` ends with the outcome of the late queue. -/
theorem SeqInv.ended (pc : Pc α δ) (c : Call α δ) (hpc : s.pc () = pc) (rest : pc.resting = true)
    (outcomes : s.outcomes = (replay late (dummyData, []) done).2 ++
      [(late (replay late (dummyData, []) done).1 c).2])
    (calls : s.calls = done ++ [c])
    (holds : Holds s first nodes (late (replay late (dummyData, []) done).1 c).1)
    (atEnd : AtEnd s first nodes) : SeqInv dummyData s := by
  refine ⟨first, nodes, done ++ [c], ?_, ?_⟩
  · rw [replay_concat]
    exact outcomes
  · rw [replay_concat, hpc]
    cases pc <;> first | exact ⟨calls, holds, atEnd⟩ | cases rest

omit [DecidableEq α] in
theorem Pushing.congr {node : α} (h : Pushing s first nodes done queue node)
    (head : s'.head = s.head) (tail : s'.tail = s.tail) (next : s'.next = s.next)
    (data : s'.data = s.data) (free : s'.free = s.free) (calls : s'.calls = s.calls) :
    Pushing s' first nodes done queue node := by
  refine ⟨h.toHolds.congr (by rw [head]) next data free, ?_, ?_, h.apart, ?_, ?_⟩
  · rw [calls, data]
    exact h.calls
  · rw [AtEnd, tail]
    exact h.atEnd
  · rw [free]
    exact h.inUse
  · rw [State.link, next]
    exact h.unlinked

omit [DecidableEq α] in
theorem Popping.congr (h : Popping s first nodes done queue) (head : s'.head = s.head)
    (tail : s'.tail = s.tail) (next : s'.next = s.next) (data : s'.data = s.data)
    (free : s'.free = s.free) (calls : s'.calls = s.calls) :
    Popping s' first nodes done queue := by
  refine ⟨h.toHolds.congr (by rw [head]) next data free, calls ▸ h.calls, ?_⟩
  rw [AtEnd, tail]
  exact h.atEnd

omit [DecidableEq α] in
theorem Popped.congr {node : α} (h : Popped s first nodes done queue node)
    (head : s'.head = s.head) (tail : s'.tail = s.tail) (next : s'.next = s.next)
    (data : s'.data = s.data) (free : s'.free = s.free) (calls : s'.calls = s.calls) :
    Popped s' first nodes done queue node := by
  refine ⟨h.toHolds.congr (by rw [head]) next data free, calls ▸ h.calls, ?_, h.apart, h.some⟩
  rw [AtEnd, tail]
  exact h.atEnd

/-- The successful compare-and-swap of a push links the node behind the last one. -/
theorem Pushing.link {node last : α} {word : TagPtr α} (h : Pushing s first nodes done queue node)
    (tail : s.tail.ptr = some last) (word_eq : word.ptr = some node) (head : s'.head = s.head)
    (next : s'.next = Function.update s.next last word) (data : s'.data = s.data)
    (free : s'.free = s.free) :
    Holds s' first (nodes ++ [node]) (late queue (.push node (s.data node))).1 := by
  obtain ⟨init, last', split, tail'⟩ := h.atEnd
  obtain rfl := Option.some.inj (tail.symm.trans tail')
  have path := h.path
  rw [split] at path
  have linkSelf : s'.link last = some node := by
    rw [State.link, next, Function.update_self, word_eq]
  have linkOther : ∀ x, x ≠ last → s'.link x = s.link x := fun x e => by
    rw [State.link, State.link, next, Function.update_of_ne e]
  have apart : last ≠ node := fun e =>
    h.apart (split ▸ List.mem_append_right _ (e ▸ List.mem_singleton_self last))
  refine ⟨?_, ?_, ?_, ?_⟩
  · rw [head, ← List.cons_append, split, List.append_assoc]
    exact path.link ⟨rfl, h.unlinked⟩ (fun no => apart (List.mem_singleton.mp no))
      linkSelf linkOther
  · intro x hx
    rw [free]
    rw [← List.cons_append] at hx
    rcases List.mem_append.mp hx with old | new
    · exact h.used x old
    · rw [List.mem_singleton.mp new]
      exact h.inUse
  · rw [data]
    obtain ⟨dummy, contents⟩ := queue
    cases contents <;> exact h.dummy
  · rw [data, List.map_append, h.contents]
    obtain ⟨dummy, contents⟩ := queue
    cases contents <;> rfl

omit [DecidableEq α] in
/-- The successful compare-and-swap of a pop takes the dummy off. -/
theorem Popping.take {second : α} {rest : List α} (h : Popping s first (second :: rest) done queue)
    (head : s'.head.ptr = s.link first) (tail : s'.tail = s.tail) (next : s'.next = s.next)
    (data : s'.data = s.data) (free : s'.free = s.free) (calls : s'.calls = s.calls) :
    Popped s' second rest done queue first := by
  have link : s'.link = s.link := State.link_congr next
  have fresh := (List.nodup_cons.mp h.path.nodup).1
  have path := h.path.2
  obtain ⟨dummy, contents⟩ := queue
  have contents_eq := h.contents
  simp only [List.map_cons] at contents_eq
  subst contents_eq
  refine ⟨⟨?_, fun node hn => ?_, ?_, ?_⟩, calls ▸ h.calls, ?_, fresh, List.cons_ne_nil _ _⟩
  · rw [link, head]
    exact path
  · rw [free]
    exact h.used node (List.mem_cons_of_mem _ hn)
  · rw [data]
    rfl
  · rw [data]
    rfl
  · obtain ⟨init, last, split, atTail⟩ := h.atEnd
    cases init with
    | nil => simp at split
    | cons a init =>
      injection split with _ split
      exact ⟨init, last, split, by rw [tail, atTail]⟩

theorem SeqInv.stepPush (inv : SeqInv dummyData s) {node : α}
    (pushing : (s.pc ()).pushing = some node)
    {spurious : Bool} (h : s.step v () spurious = some s') : SeqInv dummyData s' := by
  obtain ⟨first, nodes, done, outcomes, phase⟩ := inv
  cases pc : s.pc () with
  | pushLoadTail node =>
    rw [pc] at phase
    simp only [State.step, pc] at h
    obtain rfl := Option.some.inj h
    exact .now (.pushLoadNext node s.tail) rfl outcomes ⟨phase.congr rfl rfl rfl rfl rfl rfl, rfl⟩
  | pushLoadNext node oldTail =>
    rw [pc] at phase
    obtain ⟨pushing, rfl⟩ := phase
    simp only [State.step, pc] at h
    obtain ⟨last, here, h⟩ := Option.bind_eq_some_iff.mp h
    have unlinked : (s.next last).ptr = none := pushing.atEnd.unlinked pushing.path here
    rw [if_pos unlinked] at h
    obtain rfl := Option.some.inj h
    refine .now (.pushCasNext node s.tail (s.next last)) rfl outcomes
      ⟨pushing.congr rfl rfl rfl rfl rfl rfl, rfl, fun last' here' => ?_⟩
    obtain rfl := Option.some.inj (here.symm.trans here')
    rfl
  | pushCasNext node oldTail oldTailNext =>
    rw [pc] at phase
    obtain ⟨pushing, rfl, next⟩ := phase
    simp only [State.step, pc] at h
    obtain ⟨last, here, h⟩ := Option.bind_eq_some_iff.mp h
    split_ifs at h <;> obtain rfl := Option.some.inj h
    · refine .now (.pushCasTail node s.tail) rfl outcomes ⟨rfl, s.data node, first :: nodes,
        pushing.calls, ?_, rfl⟩
      exact pushing.link here rfl rfl rfl rfl rfl
    · exact .now (.pushLoadTail node) rfl outcomes (pushing.congr rfl rfl rfl rfl rfl rfl)
  | pushHelp node oldTail oldTailNext =>
    rw [pc] at phase
    exact phase.elim
  | _ => rw [pc] at pushing; cases pushing

theorem SeqInv.stepPop (inv : SeqInv dummyData s) (pushing : (s.pc ()).pushing = none)
    {spurious : Bool} (h : s.step v () spurious = some s') : SeqInv dummyData s' := by
  obtain ⟨first, nodes, done, outcomes, phase⟩ := inv
  cases pc : s.pc () with
  | pushCasTail node oldTail =>
    rw [pc] at phase
    obtain ⟨rfl, data, init, calls, holds, split⟩ := phase
    simp only [State.step, pc, State.casTail, if_true] at h
    obtain rfl := Option.some.inj h
    refine .ended .pushed (.push node data) rfl rfl ?_ calls (holds.congr rfl rfl rfl rfl)
      ⟨init, node, split, rfl⟩
    rw [late_push, ← outcomes]
    rfl
  | popLoadHead =>
    rw [pc] at phase
    simp only [State.step, pc] at h
    obtain rfl := Option.some.inj h
    exact .now (.popLoadNext s.head) rfl outcomes ⟨phase.congr rfl rfl rfl rfl rfl rfl, rfl⟩
  | popLoadNext oldHead =>
    rw [pc] at phase
    obtain ⟨popping, rfl⟩ := phase
    simp only [State.step, pc, popping.path.1, Option.bind_some] at h
    obtain rfl := Option.some.inj h
    exact .now (.popLoadTail s.head (s.next first)) rfl outcomes
      ⟨popping.congr rfl rfl rfl rfl rfl rfl, rfl, rfl⟩
  | popLoadTail oldHead oldHeadNext =>
    rw [pc] at phase
    obtain ⟨popping, rfl, rfl⟩ := phase
    have empty := popping.atEnd.empty_iff popping.path
    simp only [State.step, pc] at h
    split_ifs at h with same helping <;> obtain rfl := Option.some.inj h
    · obtain rfl := empty.mp same
      exact absurd popping.path.2 helping.2
    · obtain rfl := empty.mp same
      have refused := late_pop_empty (α := α) popping.contents.symm
      refine .ended (.popped none) .pop rfl rfl ?_ popping.calls ?_ popping.atEnd
      · rw [refused, ← outcomes]
        rfl
      · rw [refused]
        exact popping.toHolds.congr rfl rfl rfl rfl
    · exact .now (.popCasHead s.head (s.next first)) rfl outcomes
        ⟨popping.congr rfl rfl rfl rfl rfl rfl, rfl, rfl, fun no => same (empty.mpr no)⟩
  | popCasHead oldHead oldHeadNext =>
    rw [pc] at phase
    obtain ⟨popping, rfl, rfl, some⟩ := phase
    simp only [State.step, pc, popping.path.1, Option.bind_some] at h
    split_ifs at h <;> obtain rfl := Option.some.inj h
    · obtain ⟨second, rest, rfl⟩ := List.exists_cons_of_ne_nil some
      exact .now (.popRead first) rfl outcomes
        ⟨popping.take rfl rfl rfl rfl rfl rfl, popping.dummy⟩
    · exact .now .popLoadHead rfl outcomes (popping.congr rfl rfl rfl rfl rfl rfl)
  | popRead oldHead =>
    rw [pc] at phase
    simp only [State.step, pc] at h
    obtain rfl := Option.some.inj h
    exact .now (.popDelete oldHead (s.data oldHead)) rfl outcomes
      ⟨phase.1.congr rfl rfl rfl rfl rfl rfl, phase.2⟩
  | popDelete oldHead ret =>
    rw [pc] at phase
    obtain ⟨popped, rfl⟩ := phase
    simp only [State.step, pc] at h
    obtain rfl := Option.some.inj h
    refine .ended (.popped _) .pop rfl rfl ?_ popped.calls ⟨popped.path, fun node hn => ?_,
      popped.dummy, popped.contents⟩ popped.atEnd
    · rw [late_pop popped.some, ← outcomes]
      rfl
    · have e : node ≠ oldHead := fun same => popped.apart (same ▸ hn)
      exact (Function.update_of_ne e ..).trans (popped.used node hn)
  | popHelp oldHead oldHeadNext oldTail =>
    rw [pc] at phase
    exact phase.elim
  | idle | pushed | popped ret =>
    simp only [State.step, pc] at h
    cases h
  | _ => rw [pc] at pushing; cases pushing

theorem SeqInv.act (inv : SeqInv dummyData s) {a : Action α δ Unit} (h : s.act v a = some s') :
    SeqInv dummyData s' := by
  have resting : ∀ {first nodes done queue}, (s.pc ()).resting = true →
      Phase s first nodes done queue (s.pc ()) →
      s.calls = done ∧ Holds s first nodes queue ∧ AtEnd s first nodes := by
    intro first nodes done queue rest phase
    revert rest phase
    cases s.pc () <;> intro rest phase <;> first | exact phase | cases rest
  cases a with
  | step t spurious =>
    cases pushing : (s.pc ()).pushing with
    | some node => exact inv.stepPush pushing h
    | none => exact inv.stepPop pushing h
  | push t node data =>
    obtain ⟨first, nodes, done, outcomes, phase⟩ := inv
    simp only [State.act] at h
    split_ifs at h with allowed
    obtain rfl := Option.some.inj h
    obtain ⟨rfl, holds, atEnd⟩ := resting allowed.1 phase
    have apart : node ∉ first :: nodes := fun old =>
      absurd (allowed.2.symm.trans (holds.used node old)) Bool.false_ne_true.symm
    have ne : ∀ {x}, x ∈ first :: nodes → x ≠ node := fun hx e => apart (e ▸ hx)
    refine .now (.pushLoadTail node) rfl outcomes ⟨⟨?_, fun x hx => ?_, ?_, ?_⟩, ?_, atEnd, apart,
      Function.update_self .., ?_⟩
    · refine holds.path.congr fun x hx => ?_
      exact congrArg TagPtr.ptr (Function.update_of_ne (ne hx) _ _)
    · exact (Function.update_of_ne (ne hx) ..).trans (holds.used x hx)
    · exact (Function.update_of_ne (ne (List.mem_cons_self ..)) ..).trans holds.dummy
    · refine (List.map_congr_left fun x hx => ?_).trans holds.contents
      exact Function.update_of_ne (ne (List.mem_cons_of_mem _ hx)) ..
    · change s.calls ++ [_] = s.calls ++ [Call.push node (Function.update s.data node data node)]
      rw [Function.update_self]
    · exact congrArg TagPtr.ptr (Function.update_self node _ s.next)
  | pop t =>
    obtain ⟨first, nodes, done, outcomes, phase⟩ := inv
    simp only [State.act] at h
    split_ifs at h with rest
    obtain rfl := Option.some.inj h
    obtain ⟨rfl, holds, atEnd⟩ := resting rest phase
    exact .now .popLoadHead rfl outcomes ⟨holds.congr rfl rfl rfl rfl, rfl, atEnd⟩

theorem seqInv_reachable (hs : (machine v dummyData α Unit).Reachable s) : SeqInv dummyData s :=
  hs.invariant (SeqInv dummyData) (fun _ => seqInv_init) fun s a _ inv h =>
    inv.act (show s.act v a = some _ from h)

/-- How many steps a call takes at most from here, if no compare-and-swap fails. -/
def Pc.stepsLeft : Pc α δ → ℕ
  | .pushLoadTail _ | .popLoadTail .. => 4
  | .pushLoadNext .. | .popCasHead .. => 3
  | .pushCasNext .. | .popRead _ => 2
  | .pushCasTail .. | .popDelete .. => 1
  | .popLoadHead => 6
  | .popLoadNext _ => 5
  | .idle | .pushed | .popped _ | .pushHelp .. | .popHelp .. => 0

theorem SeqInv.progress (v : Variant) (inv : SeqInv dummyData s)
    (busy : (s.pc ()).resting = false) :
    ∃ s', s.step v () false = some s' ∧ (s'.pc ()).stepsLeft < (s.pc ()).stepsLeft := by
  obtain ⟨first, nodes, done, -, phase⟩ := inv
  cases pc : s.pc () with
  | pushLoadTail node | popLoadHead | popRead oldHead | popDelete oldHead ret
  | pushCasTail node oldTail =>
    simp only [State.step, pc]
    exact ⟨_, rfl, Nat.lt_succ_self _⟩
  | pushLoadNext node oldTail =>
    rw [pc] at phase
    obtain ⟨pushing, rfl⟩ := phase
    obtain ⟨init, last, -, tail⟩ := pushing.atEnd
    have unlinked : (s.next last).ptr = none := pushing.atEnd.unlinked pushing.path tail
    simp only [State.step, pc, tail, Option.bind_some, unlinked, if_true]
    exact ⟨_, rfl, Nat.lt_succ_self _⟩
  | pushCasNext node oldTail oldTailNext =>
    rw [pc] at phase
    obtain ⟨pushing, rfl, next⟩ := phase
    obtain ⟨init, last, -, tail⟩ := pushing.atEnd
    simp only [State.step, pc, tail, Option.bind_some, next last tail, and_self, if_true]
    exact ⟨_, rfl, Nat.lt_succ_self _⟩
  | popLoadNext oldHead =>
    rw [pc] at phase
    obtain ⟨popping, rfl⟩ := phase
    simp only [State.step, pc, popping.path.1, Option.bind_some]
    exact ⟨_, rfl, Nat.lt_succ_self _⟩
  | popLoadTail oldHead oldHeadNext =>
    rw [pc] at phase
    obtain ⟨popping, rfl, rfl⟩ := phase
    simp only [State.step, pc]
    split_ifs with same helping
    · obtain rfl := (popping.atEnd.empty_iff popping.path).mp same
      exact absurd popping.path.2 helping.2
    · exact ⟨_, rfl, Nat.succ_pos _⟩
    · exact ⟨_, rfl, Nat.lt_succ_self _⟩
  | popCasHead oldHead oldHeadNext =>
    rw [pc] at phase
    obtain ⟨popping, rfl, rfl, -⟩ := phase
    simp only [State.step, pc, popping.path.1, Option.bind_some, and_self, if_true]
    exact ⟨_, rfl, Nat.lt_succ_self _⟩
  | pushHelp node oldTail oldTailNext | popHelp oldHead oldHeadNext oldTail =>
    rw [pc] at phase
    exact phase.elim
  | _ => rw [pc] at busy; cases busy

/-- A call returns once its compare-and-swaps stop failing. -/
theorem call_returns (hs : (machine v dummyData α Unit).Reachable s) :
    ∃ n s', (machine v dummyData α Unit).run s (List.replicate n (.step () false)) = some s' ∧
      (s'.pc ()).resting = true := by
  induction left : (s.pc ()).stepsLeft using Nat.strong_induction_on generalizing s with
  | _ left ih =>
    by_cases rest : (s.pc ()).resting = true
    · exact ⟨0, s, rfl, rest⟩
    · obtain ⟨mid, step, less⟩ := (seqInv_reachable hs).progress v (Bool.eq_false_iff.mpr rest)
      have next : (machine v dummyData α Unit).next s (.step () false) = some mid := step
      obtain ⟨n, s', hrun, rest'⟩ := ih _ (by rw [← left]; exact less) (hs.step next) rfl
      refine ⟨n + 1, s', ?_, rest'⟩
      rw [List.replicate_succ, Machine.run, next]
      exact hrun

/-- A pop on the empty queue returns null after three loads and changes nothing. -/
theorem pop_refused (hs : (machine v dummyData α Unit).Reachable s)
    (rest : (s.pc ()).resting = true) (empty : (replay fifo [] s.calls).1 = []) (a b c : Bool) :
    ∃ s', (machine v dummyData α Unit).run s
        [.pop (), .step () a, .step () b, .step () c] = some s' ∧ s'.pc () = .popped none ∧
      s'.outcomes = s.outcomes ++ [.refused] ∧ s'.head = s.head ∧ s'.tail = s.tail ∧
      s'.next = s.next ∧ s'.data = s.data ∧ s'.free = s.free := by
  obtain ⟨first, nodes, done, -, phase⟩ := seqInv_reachable hs
  obtain ⟨rfl, holds, atEnd⟩ : s.calls = done ∧
      Holds s first nodes (replay late (dummyData, []) done).1 ∧ AtEnd s first nodes := by
    revert rest phase
    cases s.pc () <;> intro rest phase <;> first | exact phase | cases rest
  have none : nodes = [] := by
    have contents := holds.contents
    rw [late_contents, empty] at contents
    exact List.map_eq_nil_iff.mp contents
  subst none
  have same := (atEnd.empty_iff holds.path).mpr rfl
  have unlinked : (s.next first).ptr = none := holds.path.2
  simp only [Machine.run, machine, State.act, rest, if_true, Option.bind_some, State.step,
    State.goto, State.sawHead, Function.update_self, holds.path.1]
  simp [same, holds.path.1, unlinked, State.sawTail, State.ended]

/-- One thread on a new queue, whichever of the classes it is: its calls return, a
pop on the empty queue changes nothing, and the outcomes are those of a FIFO queue
exactly if every datum a FIFO queue would hand out equals the `data` of the first
dummy. -/
theorem queue_fifo_iff (hs : (machine v dummyData α Unit).Reachable s) :
    (∃ n s', (machine v dummyData α Unit).run s (List.replicate n (.step () false)) = some s' ∧
      (s'.pc ()).resting = true) ∧
    ((s.pc ()).resting = true → (replay fifo [] s.calls).1 = [] → ∀ a b c,
      ∃ s', (machine v dummyData α Unit).run s
          [.pop (), .step () a, .step () b, .step () c] = some s' ∧ s'.pc () = .popped none ∧
        s'.outcomes = s.outcomes ++ [.refused] ∧ s'.head = s.head ∧ s'.tail = s.tail ∧
        s'.next = s.next ∧ s'.data = s.data ∧ s'.free = s.free) ∧
    ((s.pc ()).resting = true →
      (s.outcomes = (replay fifo [] s.calls).2 ↔
        ∀ data ∈ handedOut s.calls, data = dummyData)) := by
  refine ⟨call_returns hs, pop_refused hs, fun rest => ?_⟩
  obtain ⟨first, nodes, done, outcomes, phase⟩ := seqInv_reachable hs
  have calls : s.calls = done := by
    revert rest phase
    cases s.pc () <;> intro rest phase <;> first | exact phase.1 | cases rest
  rw [outcomes, calls]
  exact (late_eq_fifo done).1

/-- A dummy that happens to carry the datum pushed. -/
theorem queue_fifo_iff_seven : ∃ s : State ℕ ℕ Unit,
    (machine queueVersion (some 7) ℕ Unit).Reachable s ∧
    (s.outcomes = (replay fifo [] s.calls).2 ↔ ∀ data ∈ handedOut s.calls, data = some 7) := by
  have ran : ((machine queueVersion (some 7) ℕ Unit).run (fresh Unit (some 7))
      (.push () 1 (some 7) :: List.replicate 4 (.step () false) ++
        .pop () :: List.replicate 6 (.step () false))).map (fun s => (s.pc ()).resting) =
      some true := by decide +kernel
  obtain ⟨s, hrun, rest⟩ := Option.map_eq_some_iff.mp ran
  have hs := Machine.run_reachable (Machine.Reachable.init fresh_init) hrun
  exact ⟨s, hs, (queue_fifo_iff hs).2.2 rest⟩

/-- Push one node with data, then pop: every variant hands out the `data` of the dummy. -/
theorem hands_out_dummy (v : Variant) : ¬ ∀ s : State ℕ ℕ Unit,
    (machine v none ℕ Unit).Reachable s → (s.pc ()).resting = true →
      s.outcomes = (replay fifo [] s.calls).2 := by
  intro isFifo
  have ran : ((machine v none ℕ Unit).run (fresh Unit none)
      (.push () 1 (some 7) :: List.replicate 4 (.step () false) ++
        .pop () :: List.replicate 6 (.step () false))).map
      (fun s => ((s.pc ()).resting, s.outcomes, (replay fifo [] s.calls).2)) =
      some (true, [.pushed, .removed none], [.pushed, .removed (some 7)]) := by
    obtain ⟨tagsEnds, tagsNext, helps⟩ := v
    cases tagsEnds <;> cases tagsNext <;> cases helps <;> decide +kernel
  obtain ⟨s, hrun, result⟩ := Option.map_eq_some_iff.mp ran
  simp only [Prod.mk.injEq] at result
  obtain ⟨rest, outcomes, fifoOutcomes⟩ := result
  have hs := Machine.run_reachable (Machine.Reachable.init fresh_init) hrun
  have agree := isFifo s hs rest
  rw [outcomes, fifoOutcomes] at agree
  cases agree

/-- None of the four classes is a FIFO queue. -/
theorem queue_not_fifo : ¬ ∃ v ∈ [queueNolockfree, queueLockfreeHasAba, queueVersion,
    queueVersionNext], ∀ s : State ℕ ℕ Unit, (machine v none ℕ Unit).Reachable s →
      (s.pc ()).resting = true → s.outcomes = (replay fifo [] s.calls).2 := by
  rintro ⟨v, -, isFifo⟩
  exact hands_out_dummy v isFifo

end Codelab.LinkedQueue
