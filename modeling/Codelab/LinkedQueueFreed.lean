import Codelab.LinkedQueueFresh

/-! Accesses to deleted nodes. A pop deletes the node it has taken off at once, and the tags
of `head_` and `tail_` guard the compare-and-swaps only: a thread that has read the word before
still goes to the node. -/

namespace Codelab.LinkedQueue

/-- The node in whose `next` the following step loads or stores through a word read before. -/
def Pc.visits {α δ : Type*} : Pc α δ → Option α
  | .pushLoadNext _ oldTail | .pushCasNext _ oldTail _ => oldTail.ptr
  | .popLoadNext oldHead => oldHead.ptr
  | _ => none

/-- The node that the following step accesses: besides those visited the one that a pop has
removed, whose data it reads and which it deletes. -/
def Pc.accesses {α δ : Type*} (p : Pc α δ) : Option α := p.visits.or p.removed

variable {α δ τ : Type*} [DecidableEq α] [DecidableEq τ] {v : Variant} {dummyData : Option δ}
  {s s' : State α δ τ} {past : Past α τ} {t : τ}

/-- No thread stands before an access to a deleted node. -/
def Intact (s : State α δ τ) (past : Past α τ) : Prop :=
  ∀ t node, (s.pc t).accesses = some node → node ∉ past.deleted

/-- The node that the step deletes. -/
def State.deletes (s : State α δ τ) : Action α δ τ → Option α
  | .step t _ =>
    match s.pc t with
    | .popDelete node _ => some node
    | _ => none
  | _ => none

def Action.thread {α δ τ : Type*} : Action α δ τ → τ
  | .push t _ _ | .pop t | .step t _ => t

/-- If the step deletes a node, no other thread stands before an access to it. -/
def State.unvisited (s : State α δ τ) (a : Action α δ τ) : Prop :=
  ∀ node ∈ s.deletes a, ∀ u, u ≠ a.thread → (s.pc u).accesses ≠ some node

instance [Fintype τ] (s : State α δ τ) : DecidablePred s.unvisited := fun a =>
  inferInstanceAs (Decidable (∀ node ∈ s.deletes a, ∀ u, u ≠ a.thread →
    (s.pc u).accesses ≠ some node))

omit [DecidableEq α] in
theorem Past.note_deleted (a : Action α δ τ) :
    (past.note s a s').deleted = past.deleted ++ (s.deletes a).toList := by
  cases a with
  | step t spurious =>
    cases pc : s.pc t with
    | pushCasNext newNode oldTail oldTailNext =>
      simp only [Past.note, State.deletes, pc]
      cases s'.pc t <;> simp
    | popDelete node ret => simp [Past.note, State.deletes, pc]
    | _ => simp [Past.note, State.deletes, pc]
  | _ => simp [Past.note, State.deletes]

/-- A thread comes to a node through `tail_` or `head_`, in a step that deletes nothing. -/
theorem State.visits_cases {a : Action α δ τ} (next : s.act v a = some s') {u : τ} {node : α}
    (visits : (s'.pc u).visits = some node) : (s.pc u).visits = some node ∨
      (s.tail.ptr = some node ∨ s.head.ptr = some node) ∧ s.deletes a = none := by
  have moved {t : τ} {pc : Pc α δ} (hpc : s'.pc = Function.update s.pc t pc) :
      (s.pc u).visits = some node ∨ u = t ∧ pc.visits = some node := by
    by_cases e : u = t
    · rw [e, hpc, Function.update_self] at visits
      exact .inr ⟨e, visits⟩
    · rw [hpc, Function.update_of_ne e] at visits
      exact .inl visits
  have away {t : τ} {pc : Pc α δ} (hpc : s'.pc = Function.update s.pc t pc)
      (nowhere : pc.visits = none) : (s.pc u).visits = some node := by
    rcases moved hpc with old | ⟨-, now⟩
    · exact old
    · rw [nowhere] at now
      cases now
  cases a with
  | push t newNode data =>
    simp only [State.act] at next
    split_ifs at next
    obtain rfl := Option.some.inj next
    exact .inl (away rfl rfl)
  | pop t =>
    simp only [State.act] at next
    split_ifs at next
    obtain rfl := Option.some.inj next
    exact .inl (away rfl rfl)
  | step t spurious =>
    cases pc : s.pc t with
    | pushLoadTail newNode =>
      simp only [State.act, State.step, pc] at next
      obtain rfl := Option.some.inj next
      rcases moved rfl with old | ⟨-, now⟩
      · exact .inl old
      · exact .inr ⟨.inl now, by simp only [State.deletes, pc]⟩
    | pushLoadNext newNode oldTail =>
      simp only [State.act, State.step, pc] at next
      obtain ⟨x, ptr, next⟩ := Option.bind_eq_some_iff.mp next
      split_ifs at next <;> obtain rfl := Option.some.inj next
      · rcases moved rfl with old | ⟨rfl, now⟩
        · exact .inl old
        · rw [pc]
          exact .inl now
      · exact .inl (away rfl rfl)
      · exact .inl (away rfl rfl)
    | pushCasNext newNode oldTail oldTailNext =>
      simp only [State.act, State.step, pc] at next
      obtain ⟨x, ptr, next⟩ := Option.bind_eq_some_iff.mp next
      split_ifs at next <;> obtain rfl := Option.some.inj next <;> exact .inl (away rfl rfl)
    | pushCasTail newNode oldTail =>
      simp only [State.act, State.step, pc] at next
      obtain rfl := Option.some.inj next
      refine .inl (away (t := t) (by rw [State.ended, State.goto, State.casTail_pc]) rfl)
    | pushHelp newNode oldTail oldTailNext =>
      simp only [State.act, State.step, pc] at next
      obtain rfl := Option.some.inj next
      exact .inl (away (t := t) (by rw [State.goto, State.casTail_pc]) rfl)
    | popLoadHead =>
      simp only [State.act, State.step, pc] at next
      obtain rfl := Option.some.inj next
      rcases moved rfl with old | ⟨-, now⟩
      · exact .inl old
      · exact .inr ⟨.inr now, by simp only [State.deletes, pc]⟩
    | popLoadNext oldHead =>
      simp only [State.act, State.step, pc] at next
      obtain ⟨x, ptr, next⟩ := Option.bind_eq_some_iff.mp next
      obtain rfl := Option.some.inj next
      exact .inl (away rfl rfl)
    | popLoadTail oldHead oldHeadNext =>
      simp only [State.act, State.step, pc] at next
      split_ifs at next <;> obtain rfl := Option.some.inj next <;> exact .inl (away rfl rfl)
    | popHelp oldHead oldHeadNext oldTail =>
      simp only [State.act, State.step, pc] at next
      obtain rfl := Option.some.inj next
      exact .inl (away (t := t) (by rw [State.goto, State.casTail_pc]) rfl)
    | popCasHead oldHead oldHeadNext =>
      simp only [State.act, State.step, pc] at next
      obtain ⟨x, ptr, next⟩ := Option.bind_eq_some_iff.mp next
      split_ifs at next <;> obtain rfl := Option.some.inj next <;> exact .inl (away rfl rfl)
    | popRead oldHead =>
      simp only [State.act, State.step, pc] at next
      obtain rfl := Option.some.inj next
      exact .inl (away rfl rfl)
    | popDelete oldHead ret =>
      simp only [State.act, State.step, pc] at next
      obtain rfl := Option.some.inj next
      exact .inl (away rfl rfl)
    | idle | pushed | popped ret =>
      simp only [State.act, State.step, pc] at next
      cases next

omit [DecidableEq α] [DecidableEq τ] in
/-- What `head_` and `tail_` point at has not been deleted. -/
theorem Line.alive {gone rest back : List α} (line : Line s past gone rest back) {node : α}
    (here : s.tail.ptr = some node ∨ s.head.ptr = some node) : node ∉ past.deleted := by
  have mem : node ∈ rest := by
    rcases here with last | top
    · obtain ⟨front, x, rfl, atTail⟩ := line.shape.tail
      rw [Option.some.inj (last.symm.trans atTail)]
      simp
    · obtain ⟨more, rfl⟩ := line.shape.head_mem top
      exact List.mem_cons_self
  intro dead
  have gone := line.owners.deleted dead
  exact (List.nodup_append.mp (List.nodup_append.mp line.shape.nodup).1).2.2 node gone node mem rfl

/-- One step: what the threads stand before stays intact if and only if the step deletes no
node that another thread stands before. -/
theorem Intact.act_iff {gone rest back gone' rest' back' : List α} (h : Intact s past)
    (line : Line s past gone rest back) {a : Action α δ τ} (next : s.act v a = some s')
    (line' : Line s' (past.note s a s') gone' rest' back') :
    Intact s' (past.note s a s') ↔ s.unvisited a := by
  constructor
  · intro after node deletes u apart access
    have same : s'.pc u = s.pc u := by
      cases a with
      | step t spurious =>
        simp only [Option.mem_def, State.deletes] at deletes
        split at deletes
        · rename_i x ret pc
          simp only [State.act, State.step, pc] at next
          obtain rfl := Option.some.inj next
          exact Function.update_of_ne apart ..
        · cases deletes
      | _ => cases deletes
    refine after u node (by rw [same, access]) ?_
    rw [Past.note_deleted, Option.mem_def.mp deletes]
    simp
  · intro alone u node access
    rcases Option.or_eq_some_iff.mp access with visits | ⟨-, removed⟩
    · rcases State.visits_cases next visits with old | ⟨here, none⟩
      · rw [Past.note_deleted, List.mem_append]
        have access : (s.pc u).accesses = some node := by rw [Pc.accesses, old, Option.some_or]
        rintro (dead | now)
        · exact h u node access dead
        · have deletes : node ∈ s.deletes a := Option.mem_toList.mp now
          refine alone node deletes u ?_ access
          rintro rfl
          cases a with
          | step t spurious =>
            simp only [Option.mem_def, State.deletes] at deletes
            split at deletes
            · rename_i x ret pc
              rw [Action.thread, pc] at old
              cases old
            · cases deletes
          | _ => cases deletes
      · rw [Past.note_deleted, none, Option.toList_none, List.append_nil]
        exact line.alive here
    · exact (line'.owners.removed u node removed).2

omit [DecidableEq α] [DecidableEq τ] in
theorem Intact.init (idle : ∀ u, s.pc u = .idle) : Intact s past := by
  intro u node access
  rw [idle] at access
  cases access

theorem untouched_inv (h : (recordedMachine v dummyData α τ).ReachableBy
    (fun p a => freshNodes p a ∧ p.1.unvisited a) (s, past)) :
    (∃ gone rest back, Line s past gone rest back) ∧ Intact s past := by
  refine ⟨line_reachable (h.mono fun _ _ ok => ok.1), ?_⟩
  have lined : (recordedMachine v dummyData α τ).ReachableBy (fun p a =>
      (freshNodes p a ∧ p.1.unvisited a) ∧ ∃ gone rest back, Line p.1 p.2 gone rest back)
      (s, past) :=
    h.strengthen fun p reached a ok => ⟨ok, line_reachable (reached.mono fun _ _ ok => ok.1.1)⟩
  refine lined.recorded_invariant Intact (fun s start => ?_) fun s a s' past intact ok next => ?_
  · obtain ⟨-, -, -, -, -, -, -, idle, -⟩ := start
    exact .init idle
  · obtain ⟨⟨fresh, calm⟩, gone, rest, back, line⟩ := ok
    obtain ⟨gone', rest', back', line'⟩ := line.act fresh next
    exact (intact.act_iff line next line').mpr calm

/-- In a run of `queue-version.hpp` on fresh nodes no thread comes to stand before an access to
a deleted node as long as no pop deletes a node that another call stands before; and a pop that
does so leaves that call before an access to a deleted node. -/
theorem untouched_iff
    (h : (recordedMachine queueVersion dummyData α τ).ReachableBy
      (fun p a => freshNodes p a ∧ p.1.unvisited a) (s, past)) :
    Intact s past ∧ ∀ a s', freshNodes (s, past) a → s.act queueVersion a = some s' →
      (Intact s' (past.note s a s') ↔ s.unvisited a) := by
  obtain ⟨⟨gone, rest, back, line⟩, intact⟩ := untouched_inv h
  refine ⟨intact, fun a s' fresh next => ?_⟩
  obtain ⟨gone', rest', back', line'⟩ := line.act fresh next
  exact intact.act_iff line next line'

/-- The first thread has linked its node, and before it moves `tail_` the second one begins to pop:
nobody is at the dummy node when the second one deletes it. -/
theorem untouched_iff_pop : ∃ (s : State ℕ ℕ (Fin 2)) (past : Past ℕ (Fin 2)),
    past.deleted = [0] ∧ Intact s past := by
  have ran : ((recordedMachine queueVersion none ℕ (Fin 2)).runBy
      (fun p a => freshNodes p a ∧ p.1.unvisited a)
      (fresh (Fin 2) none, Past.start (fresh (Fin 2) none))
      [.push 0 1 none, .step 0 false, .step 0 false, .step 0 false, .pop 1, .step 1 false,
        .step 1 false, .step 1 false, .step 1 false, .step 0 false, .step 1 false, .step 1 false,
        .step 1 false, .step 1 false, .step 1 false, .step 1 false]).map (fun p => p.2.deleted) =
      some [0] := by decide +kernel
  obtain ⟨⟨s, past⟩, run, deleted⟩ := Option.map_eq_some_iff.mp ran
  have start : (recordedMachine queueVersion (none : Option ℕ) ℕ (Fin 2)).init
      (fresh (Fin 2) none, Past.start (fresh (Fin 2) none)) := ⟨fresh_init, rfl⟩
  have reached := (Machine.runBy_reachable (.init start) run).mono fun p a admitted =>
    of_decide_eq_true admitted
  exact ⟨s, past, deleted, (untouched_iff reached).1⟩

/-- The first thread has read `tail_` for its push when the second one pushes a node, pops and
so deletes the dummy node, whose `next` the first one loads now. -/
theorem deleted_touched : ¬∀ (s : State ℕ ℕ (Fin 2)) (past : Past ℕ (Fin 2)),
    (recordedMachine queueVersion none ℕ (Fin 2)).ReachableBy freshNodes (s, past) →
      Intact s past := by
  intro intact
  have ran : ((recordedMachine queueVersion none ℕ (Fin 2)).runBy (fun p a => freshNodes p a)
      (fresh (Fin 2) none, Past.start (fresh (Fin 2) none))
      [.push 0 1 none, .step 0 false, .push 1 2 none, .step 1 false, .step 1 false, .step 1 false,
        .step 1 false, .pop 1, .step 1 false, .step 1 false, .step 1 false, .step 1 false,
        .step 1 false, .step 1 false]).map (fun p => ((p.1.pc 0).accesses, p.2.deleted)) =
      some (some 0, [0]) := by decide +kernel
  obtain ⟨⟨s, past⟩, run, results⟩ := Option.map_eq_some_iff.mp ran
  obtain ⟨access, deleted⟩ := Prod.ext_iff.mp results
  dsimp only at access deleted
  have start : (recordedMachine queueVersion (none : Option ℕ) ℕ (Fin 2)).init
      (fresh (Fin 2) none, Past.start (fresh (Fin 2) none)) := ⟨fresh_init, rfl⟩
  have reached := (Machine.runBy_reachable (.init start) run).mono fun p a admitted =>
    of_decide_eq_true admitted
  refine intact s past reached 0 0 access ?_
  rw [deleted]
  exact List.mem_singleton_self 0

end Codelab.LinkedQueue
