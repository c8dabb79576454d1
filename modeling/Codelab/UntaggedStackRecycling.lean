import Codelab.UntaggedStack

/-! Recycled nodes in the untagged stack. A pop installs the link it has read from the node it
takes out. If that node has left the stack and come back in between, the compare-and-swap of
its address succeeds all the same, and the link may be an old one. -/

namespace Codelab.UntaggedStack

open Chain

variable {α τ : Type*} [DecidableEq α] [DecidableEq τ] {s s' : State α τ} {inside : List α}
  {t : τ} {pc : Pc α}

/-- The chain from `head_` consists of the nodes that are in the stack, each once. -/
def Kept (s : State α τ) (inside : List α) : Prop :=
  ∃ chain, Path s.next s.head chain ∧ chain.Nodup ∧ ∀ node, node ∈ chain ↔ node ∈ inside

/-- The compare-and-swap of a pop: the node it expects and what it installs. -/
def Pc.swap : Pc α → Option (α × Option α)
  | .popCas oldHead newHead => some (oldHead, newHead)
  | _ => none

/-- If a pop takes its node out with this step, the node's link is still the one it has read. -/
def State.current (s : State α τ) : Action α τ → Prop
  | .step t spurious => ∀ swap ∈ (s.pc t).swap,
      s.head = some swap.1 ∧ spurious = false → s.next swap.1 = swap.2
  | _ => True

instance (s : State α τ) : DecidablePred s.current
  | .step t spurious => inferInstanceAs (Decidable (∀ swap ∈ (s.pc t).swap,
      s.head = some swap.1 ∧ spurious = false → s.next swap.1 = swap.2))
  | .push .. | .pop _ | .give .. => inferInstanceAs (Decidable True)

/-- The nodes of the stack are those on the chain, top first. Nobody owns or pushes them. -/
structure Sound (s : State α τ) (inside : List α) : Prop where
  path : Path s.next s.head inside
  unowned : ∀ node ∈ inside, s.owner node = none
  pushing : ∀ u node, (s.pc u).pushing = some node → node ∉ inside ∧ s.owner node = none
  apart : ∀ u w node, (s.pc u).pushing = some node → (s.pc w).pushing = some node → u = w
  linked : ∀ u node oldHead, s.pc u = .pushCas node oldHead → s.next node = oldHead

omit [DecidableEq α] [DecidableEq τ] in
theorem Sound.kept (h : Sound s inside) : Kept s inside :=
  ⟨inside, h.path, h.path.nodup, fun _ => Iff.rfl⟩

theorem sound_init (start : (machine α τ).init s) : Sound s [] := by
  obtain ⟨head, idle⟩ := start
  refine ⟨head, List.forall_mem_nil _, fun u node hu => ?_, fun u w node hu => ?_,
    fun u node oldHead hu => ?_⟩
  · rw [idle] at hu
    cases hu
  · rw [idle] at hu
    cases hu
  · rw [idle] at hu
    cases hu

omit [DecidableEq α] in
/-- A thread moves on without changing a shared word. -/
theorem Sound.quiet (h : Sound s inside) (hpc : s'.pc = Function.update s.pc t pc)
    (pushing : pc.pushing = none ∨ pc.pushing = (s.pc t).pushing)
    (away : ∀ node oldHead, pc ≠ .pushCas node oldHead) (head : s'.head = s.head)
    (next : s'.next = s.next) (owner : s'.owner = s.owner) : Sound s' inside := by
  have old {u : τ} {node : α} (hu : (s'.pc u).pushing = some node) :
      (s.pc u).pushing = some node := by
    by_cases e : u = t
    · rw [e, hpc, Function.update_self] at hu
      rcases pushing with none | same
      · rw [none] at hu
        cases hu
      · exact e ▸ same ▸ hu
    · rwa [hpc, Function.update_of_ne e] at hu
  refine ⟨?_, ?_, fun u node hu => ?_, fun u w node hu hw => h.apart u w node (old hu) (old hw),
    fun u node oldHead hu => ?_⟩
  · rw [next, head]
    exact h.path
  · rw [owner]
    exact h.unowned
  · rw [owner]
    exact h.pushing u node (old hu)
  · by_cases e : u = t
    · rw [e, hpc, Function.update_self] at hu
      exact absurd hu (away node oldHead)
    · rw [hpc, Function.update_of_ne e] at hu
      rw [next]
      exact h.linked u node oldHead hu

omit [DecidableEq α] in
theorem Sound.popTest (h : Sound s inside) : Sound (s.popTest t) inside := by
  rw [State.popTest]
  cases s.head with
  | none => exact h.quiet rfl (.inl rfl) (by simp) rfl rfl rfl
  | some oldHead => exact h.quiet rfl (.inl rfl) (by simp) rfl rfl rfl

/-- A thread gives a node up to push it. -/
theorem Sound.begin (h : Sound s inside) {node : α} (owned : s.owner node = some t)
    (hpc : s'.pc = Function.update s.pc t (.pushLoad node)) (head : s'.head = s.head)
    (next : s'.next = s.next) (owner : s'.owner = Function.update s.owner node none) :
    Sound s' inside := by
  have outside : node ∉ inside := by
    intro mem
    rw [h.unowned node mem] at owned
    cases owned
  have untaken {u : τ} (hu : (s.pc u).pushing = some node) : False := by
    rw [(h.pushing u node hu).2] at owned
    cases owned
  have kept {x : α} (unowned : s.owner x = none) : s'.owner x = none := by
    rw [owner, Function.update_apply]
    split_ifs
    · rfl
    · exact unowned
  have cases' {u : τ} {x : α} (hu : (s'.pc u).pushing = some x) :
      u = t ∧ x = node ∨ (s.pc u).pushing = some x := by
    by_cases e : u = t
    · rw [e, hpc, Function.update_self] at hu
      exact .inl ⟨e, (Option.some.inj hu).symm⟩
    · rw [hpc, Function.update_of_ne e] at hu
      exact .inr hu
  refine ⟨?_, fun x mem => kept (h.unowned x mem), fun u x hu => ?_, fun u w x hu hw => ?_,
    fun u x oldHead hu => ?_⟩
  · rw [next, head]
    exact h.path
  · rcases cases' hu with ⟨-, rfl⟩ | old
    · exact ⟨outside, by rw [owner, Function.update_self]⟩
    · exact ⟨(h.pushing u x old).1, kept (h.pushing u x old).2⟩
  · rcases cases' hu with ⟨rfl, rfl⟩ | oldU <;> rcases cases' hw with ⟨hwt, hwx⟩ | oldW
    · exact hwt.symm
    · exact (untaken oldW).elim
    · exact (untaken (hwx ▸ oldU)).elim
    · exact h.apart u w x oldU oldW
  · by_cases e : u = t
    · rw [e, hpc, Function.update_self] at hu
      cases hu
    · rw [hpc, Function.update_of_ne e] at hu
      rw [next]
      exact h.linked u x oldHead hu

omit [DecidableEq τ] in
/-- An owned node goes to another thread. -/
theorem Sound.give (h : Sound s inside) {u : τ} {node : α} (owned : s.owner node = some t)
    (hpc : s'.pc = s.pc) (head : s'.head = s.head) (next : s'.next = s.next)
    (owner : s'.owner = Function.update s.owner node (some u)) : Sound s' inside := by
  have kept {x : α} (unowned : s.owner x = none) : s'.owner x = none := by
    rw [owner, Function.update_of_ne, unowned]
    rintro rfl
    rw [unowned] at owned
    cases owned
  refine ⟨?_, fun x mem => kept (h.unowned x mem), ?_, ?_, ?_⟩
  · rw [next, head]
    exact h.path
  · rw [hpc]
    exact fun w x hw => ⟨(h.pushing w x hw).1, kept (h.pushing w x hw).2⟩
  · rw [hpc]
    exact h.apart
  · rw [hpc, next]
    exact h.linked

/-- A thread writes the link of the node that it is pushing. -/
theorem Sound.link (h : Sound s inside) {node : α} {oldHead : Option α}
    (mine : (s.pc t).pushing = some node)
    (hpc : s'.pc = Function.update s.pc t (.pushCas node oldHead)) (head : s'.head = s.head)
    (next : s'.next = Function.update s.next node oldHead) (owner : s'.owner = s.owner) :
    Sound s' inside := by
  have same : ∀ u, (s'.pc u).pushing = (s.pc u).pushing := by
    intro u
    by_cases e : u = t
    · rw [e, hpc, Function.update_self, mine]
      rfl
    · rw [hpc, Function.update_of_ne e]
  refine ⟨?_, ?_, fun u x hu => ?_, fun u w x hu hw => ?_, fun u x old hu => ?_⟩
  · rw [head]
    refine h.path.congr fun x mem => ?_
    rw [next, Function.update_of_ne]
    rintro rfl
    exact (h.pushing t x mine).1 mem
  · rw [owner]
    exact h.unowned
  · rw [owner]
    exact h.pushing u x (same u ▸ hu)
  · exact h.apart u w x (same u ▸ hu) (same w ▸ hw)
  · by_cases e : u = t
    · rw [e, hpc, Function.update_self] at hu
      obtain ⟨rfl, rfl⟩ := Pc.pushCas.inj hu
      rw [next, Function.update_self]
    · rw [hpc, Function.update_of_ne e] at hu
      rw [next, Function.update_of_ne]
      · exact h.linked u x old hu
      · rintro rfl
        exact e (h.apart u t x (by rw [hu]; rfl) mine)

omit [DecidableEq α] in
/-- The compare-and-swap of a push puts the node on top. -/
theorem Sound.push (h : Sound s inside) {node : α} (here : s.pc t = .pushCas node s.head)
    (hpc : s'.pc = Function.update s.pc t .idle) (head : s'.head = some node)
    (next : s'.next = s.next) (owner : s'.owner = s.owner) : Sound s' (node :: inside) := by
  have mine : (s.pc t).pushing = some node := by
    rw [here]
    rfl
  have old {u : τ} {x : α} (hu : (s'.pc u).pushing = some x) :
      u ≠ t ∧ (s.pc u).pushing = some x := by
    by_cases e : u = t
    · rw [e, hpc, Function.update_self] at hu
      cases hu
    · rw [hpc, Function.update_of_ne e] at hu
      exact ⟨e, hu⟩
  refine ⟨?_, fun x mem => ?_, fun u x hu => ?_, fun u w x hu hw => ?_, fun u x oldHead hu => ?_⟩
  · rw [head, next]
    exact ⟨rfl, (h.linked t node s.head here).symm ▸ h.path⟩
  · rw [owner]
    rcases List.mem_cons.mp mem with rfl | below
    · exact (h.pushing t x mine).2
    · exact h.unowned x below
  · obtain ⟨e, before⟩ := old hu
    rw [owner]
    obtain ⟨outside, unowned⟩ := h.pushing u x before
    refine ⟨fun mem => ?_, unowned⟩
    rcases List.mem_cons.mp mem with rfl | below
    · exact e (h.apart u t x before mine)
    · exact outside below
  · exact h.apart u w x (old hu).2 (old hw).2
  · by_cases e : u = t
    · rw [e, hpc, Function.update_self] at hu
      cases hu
    · rw [hpc, Function.update_of_ne e] at hu
      rw [next]
      exact h.linked u x oldHead hu

/-- The compare-and-swap of a pop takes the top node out if its link is the one read. -/
theorem Sound.pop (h : Sound s inside) {oldHead : α} (top : s.head = some oldHead)
    (quiet : (s.pc t).pushing = none)
    (hpc : s'.pc = Function.update s.pc t (.popped (some oldHead)))
    (head : s'.head = s.next oldHead) (next : s'.next = s.next)
    (owner : s'.owner = Function.update s.owner oldHead (some t)) :
    Sound s' (inside.erase oldHead) := by
  have path := h.path
  rw [top] at path
  obtain ⟨rest, rfl, below⟩ := path.of_some
  rw [List.erase_cons_head]
  have gone : oldHead ∉ rest := (List.nodup_cons.mp path.nodup).1
  have same : ∀ u, (s'.pc u).pushing = (s.pc u).pushing := by
    intro u
    by_cases e : u = t
    · rw [e, hpc, Function.update_self, quiet]
      rfl
    · rw [hpc, Function.update_of_ne e]
  refine ⟨?_, fun x mem => ?_, fun u x hu => ?_, fun u w x hu hw => ?_, fun u x old hu => ?_⟩
  · rw [head, next]
    exact below
  · rw [owner, Function.update_of_ne (ne_of_mem_of_not_mem mem gone)]
    exact h.unowned x (List.mem_cons_of_mem _ mem)
  · obtain ⟨outside, unowned⟩ := h.pushing u x (same u ▸ hu)
    refine ⟨fun mem => outside (List.mem_cons_of_mem _ mem), ?_⟩
    rw [owner, Function.update_of_ne, unowned]
    rintro rfl
    exact outside List.mem_cons_self
  · exact h.apart u w x (same u ▸ hu) (same w ▸ hw)
  · by_cases e : u = t
    · rw [e, hpc, Function.update_self] at hu
      cases hu
    · rw [hpc, Function.update_of_ne e] at hu
      rw [next]
      exact h.linked u x old hu

omit [DecidableEq τ] in
/-- A pop that installs an old link loses nodes or takes removed ones in. -/
theorem Sound.stale (h : Sound s inside) {oldHead : α} (top : s.head = some oldHead)
    (next : s'.next = s.next) (stale : s.next oldHead ≠ s'.head) :
    ¬Kept s' (inside.erase oldHead) := by
  have path := h.path
  rw [top] at path
  obtain ⟨rest, rfl, below⟩ := path.of_some
  rw [List.erase_cons_head]
  rintro ⟨chain, chained, -, same⟩
  rw [next] at chained
  cases chain with
  | nil =>
    -- Nothing is left on the chain, so nothing was below the top.
    obtain rfl : rest = [] := List.eq_nil_iff_forall_not_mem.mpr fun x mem =>
      List.not_mem_nil ((same x).mpr mem)
    exact stale (below.trans chained.symm)
  | cons b chain =>
    obtain ⟨before, after, rfl⟩ := List.append_of_mem ((same b).mp List.mem_cons_self)
    have tail : b :: chain = b :: after := by rw [chained.2.unique below.drop]
    cases before with
    | nil => exact stale (below.1.trans chained.1.symm)
    | cons a before =>
      -- The first node below the top is not on the chain.
      have mem : a ∈ b :: after := tail ▸ (same a).mpr (by simp)
      exact (List.nodup_cons.mp below.nodup).1 (List.mem_append_right _ mem)

/-- A step of a run so far sound: it keeps the nodes if and only if the link it installs is not
an old one. -/
theorem Sound.act_iff (h : Sound s inside) {a : Action α τ} (next : s.act a = some s') :
    (s.current a → Sound s' (s.note a inside)) ∧ (¬s.current a → ¬Kept s' (s.note a inside)) := by
  have fine {contents : List α} (current : s.current a) (noted : s.note a inside = contents)
      (sound : Sound s' contents) :
      (s.current a → Sound s' (s.note a inside)) ∧ (¬s.current a → ¬Kept s' (s.note a inside)) :=
    ⟨fun _ => noted ▸ sound, fun stale => absurd current stale⟩
  cases a with
  | push t node =>
    simp only [State.act] at next
    split_ifs at next with allowed
    obtain rfl := Option.some.inj next
    exact fine trivial rfl (h.begin allowed.2 rfl rfl rfl rfl)
  | pop t =>
    simp only [State.act] at next
    split_ifs at next
    obtain rfl := Option.some.inj next
    exact fine trivial rfl (h.quiet rfl (.inl rfl) (by simp) rfl rfl rfl)
  | give t u node =>
    simp only [State.act] at next
    split_ifs at next with owned
    obtain rfl := Option.some.inj next
    exact fine trivial rfl (h.give owned rfl rfl rfl rfl)
  | step t spurious =>
    have moved : s.step t spurious = some s' := next
    cases pc : s.pc t with
    | idle | popped oldHead =>
      simp only [State.step, pc] at moved
      cases moved
    | pushLoad node =>
      simp only [State.step, pc] at moved
      obtain rfl := Option.some.inj moved
      refine fine (by simp [State.current, pc, Pc.swap])
        (by simp [State.note, State.pushes, State.pops, pc])
        (h.quiet rfl (.inr (by rw [pc]; rfl)) (by simp) rfl rfl rfl)
    | pushLink node oldHead =>
      simp only [State.step, pc] at moved
      obtain rfl := Option.some.inj moved
      exact fine (by simp [State.current, pc, Pc.swap])
        (by simp [State.note, State.pushes, State.pops, pc])
        (h.link (by rw [pc]; rfl) rfl rfl rfl rfl)
    | pushCas node oldHead =>
      simp only [State.step, pc] at moved
      split_ifs at moved with success
      · obtain rfl := Option.some.inj moved
        have noted : s.note (.step t spurious) inside = node :: inside := by
          simp only [State.note, State.pushes, pc, if_pos success]
        exact fine (by simp [State.current, pc, Pc.swap]) noted
          (h.push (t := t) (by rw [pc, success.1]) rfl rfl rfl rfl)
      · obtain rfl := Option.some.inj moved
        exact fine (by simp [State.current, pc, Pc.swap])
          (by simp only [State.note, State.pushes, State.pops, pc, if_neg success])
          (h.quiet rfl (.inr (by rw [pc]; rfl)) (by simp) rfl rfl rfl)
    | popLoad =>
      simp only [State.step, pc] at moved
      obtain rfl := Option.some.inj moved
      exact fine (by simp [State.current, pc, Pc.swap])
        (by simp [State.note, State.pushes, State.pops, pc])
        h.popTest
    | popNext oldHead =>
      simp only [State.step, pc] at moved
      obtain rfl := Option.some.inj moved
      exact fine (by simp [State.current, pc, Pc.swap])
        (by simp [State.note, State.pushes, State.pops, pc])
        (h.quiet rfl (.inl rfl) (by simp) rfl rfl rfl)
    | popCas oldHead newHead =>
      simp only [State.step, pc] at moved
      split_ifs at moved with success
      · have noted : s.note (.step t spurious) inside = inside.erase oldHead := by
          simp only [State.note, State.pushes, State.pops, pc, if_pos success]
        obtain rfl := Option.some.inj moved
        rw [noted]
        refine ⟨fun current => ?_, fun old => ?_⟩
        · have same := current (oldHead, newHead) (by rw [pc]; rfl) success
          exact h.pop success.1 (by rw [pc]; rfl) rfl same.symm rfl rfl
        · refine h.stale success.1 rfl fun same => old fun swap here _ => ?_
          rw [pc] at here
          obtain rfl := Option.some.inj here
          exact same
      · obtain rfl := Option.some.inj moved
        refine fine (fun swap here again => ?_)
          (by simp only [State.note, State.pushes, State.pops, pc, if_neg success]) h.popTest
        rw [pc] at here
        obtain rfl := Option.some.inj here
        exact absurd again success

omit [DecidableEq τ] in
/-- A pop takes out the node at `head_`. -/
theorem State.top_of_pops {a : Action α τ} {node : α} (pops : s.pops a = some node) :
    s.head = some node := by
  cases a with
  | step t spurious =>
    simp only [State.pops] at pops
    split at pops
    · split_ifs at pops with success
      rw [success.1, Option.some.inj pops]
    · cases pops
  | _ => cases pops

/-- In every run whose pops install current links the chain from `head_` consists of the nodes
pushed and not popped since, each once, and a pop takes one of them out; and a pop that
installs an old link breaks this. -/
theorem kept_iff (h : (recordedMachine α τ).ReachableBy (fun p a => p.1.current a) (s, inside)) :
    Kept s inside ∧ ∀ a s', s.act a = some s' →
      (∀ node ∈ s.pops a, node ∈ inside) ∧ (Kept s' (s.note a inside) ↔ s.current a) := by
  have sound : Sound s inside := by
    refine h.recorded_invariant Sound (fun s start => sound_init start) ?_
    exact fun s a s' inside before current next => (before.act_iff next).1 current
  refine ⟨sound.kept, fun a s' next => ⟨fun node pops => ?_, ?_⟩⟩
  · have top := State.top_of_pops pops
    have path := sound.path
    rw [top] at path
    obtain ⟨rest, rfl, -⟩ := path.of_some
    exact List.mem_cons_self
  · obtain ⟨keeps, breaks⟩ := sound.act_iff next
    exact ⟨fun kept => by_contra fun stale => breaks stale kept,
      fun current => (keeps current).kept⟩

/-- No call yet; every node belongs to the last thread. -/
def fresh (n : ℕ) : State ℕ (Fin (n + 1)) where
  head := none
  next _ := none
  pc _ := .idle
  owner _ := some (Fin.last n)

/-- While the first thread pops node 0, the second one pops it and pushes it back on the same node:
the first one takes it all the same. -/
theorem kept_iff_pop : ∃ (s : State ℕ (Fin 2)) (inside : List ℕ),
    inside = [1] ∧ Kept s inside := by
  have ran : ((recordedMachine ℕ (Fin 2)).runBy (fun p a => p.1.current a) (fresh 1, [])
      [.push 1 1, .step 1 false, .step 1 false, .step 1 false, .push 1 0, .step 1 false,
        .step 1 false, .step 1 false, .pop 0, .step 0 false, .step 0 false, .pop 1, .step 1 false,
        .step 1 false, .step 1 false, .push 1 0, .step 1 false, .step 1 false, .step 1 false,
        .step 0 false]).map (fun p => p.2) = some [1] := by decide +kernel
  obtain ⟨⟨s, inside⟩, run, left⟩ := Option.map_eq_some_iff.mp ran
  have start : (recordedMachine ℕ (Fin 2)).init (fresh 1, []) := ⟨⟨rfl, fun _ => rfl⟩, rfl⟩
  have reached := (Machine.runBy_reachable (.init start) run).mono fun p a admitted =>
    of_decide_eq_true admitted
  exact ⟨s, inside, left, (kept_iff reached).1⟩

/-- The first thread has read that node 1 is below node 0. The second one pops both and pushes
node 0 back, so the first one pops it and puts node 1 on top, which is not in the stack. -/
theorem recycled_lost : ¬∀ (s : State ℕ (Fin 2)) (inside : List ℕ),
    (recordedMachine ℕ (Fin 2)).Reachable (s, inside) → Kept s inside := by
  intro kept
  have ran : ((recordedMachine ℕ (Fin 2)).run (fresh 1, [])
      [.push 1 1, .step 1 false, .step 1 false, .step 1 false, .push 1 0, .step 1 false,
        .step 1 false, .step 1 false, .pop 0, .step 0 false, .step 0 false, .pop 1, .step 1 false,
        .step 1 false, .step 1 false, .pop 1, .step 1 false, .step 1 false, .step 1 false,
        .push 1 0, .step 1 false, .step 1 false, .step 1 false, .step 0 false]).map
        (fun p => (p.1.head, p.2)) = some (some 1, []) := by decide +kernel
  obtain ⟨⟨s, inside⟩, run, results⟩ := Option.map_eq_some_iff.mp ran
  obtain ⟨top, none⟩ := Prod.ext_iff.mp results
  dsimp only at top none
  have start : (recordedMachine ℕ (Fin 2)).init (fresh 1, []) := ⟨⟨rfl, fun _ => rfl⟩, rfl⟩
  obtain ⟨chain, path, -, same⟩ := kept s inside (Machine.run_reachable (.init start) run)
  rw [top] at path
  obtain ⟨rest, rfl, -⟩ := path.of_some
  have mem := (same 1).mp List.mem_cons_self
  rw [none] at mem
  exact List.not_mem_nil mem

end Codelab.UntaggedStack
