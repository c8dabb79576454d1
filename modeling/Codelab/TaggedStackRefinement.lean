import Codelab.TaggedStack

/-! The tagged stack behaves like the mutex stack although nodes are recycled.
The list below `head_` is the content of the mutex stack after the calls that have
taken effect. A pop's snapshot of `node->next` is trusted only while no pop has
succeeded since its last read of `head_`: then the node has stayed in the stack,
where nobody writes its link, and within the tag window an equal word means just
that. A push may succeed on a stale tag, but only if the pointer it linked to is
the top again. -/

namespace Codelab

variable {α τ : Type*} [DecidableEq α] [DecidableEq τ]

theorem MutexStack.replay_append {m m' : MutexStack α} {ops : List (StackOp α)}
    (h : m.replay ops = some m') (op : StackOp α) : m.replay (ops ++ [op]) = m'.apply op := by
  unfold MutexStack.replay at h ⊢
  rw [List.foldlM_append, h]
  simp

namespace TaggedStack

variable {s s' : State α τ} {l : List α} {t : τ}

/-- The mutex stack before any call. -/
def emptyStack (α : Type*) : MutexStack α := ⟨none, fun _ => none⟩

/-- What a thread's local variables mean while the stack holds `l`. -/
def ThreadOk (s : State α τ) (l : List α) (t : τ) : Prop :=
  match s.pc t with
  | .pushCas node oldHead => s.next node = oldHead.ptr
  | .popNext node tag =>
    tag = BitVec.ofNat 16 (s.lastRead t) ∧ s.lastRead t ≤ s.pops ∧
      (s.pops = s.lastRead t → node ∈ l)
  | .popCas node tag newHead =>
    tag = BitVec.ofNat 16 (s.lastRead t) ∧ s.lastRead t ≤ s.pops ∧
      (s.pops = s.lastRead t → node ∈ l ∧ s.next node = newHead)
  | .idle | .pushLoad _ | .pushLink .. | .popLoad | .popped _ => True

structure Inv (s : State α τ) (l : List α) : Prop where
  path : Chain.Path s.next s.head.ptr l
  tag : s.head.tag = BitVec.ofNat 16 s.pops
  outside : ∀ node, s.available node = true → node ∉ l
  pushing : ∀ t node, (s.pc t).pushing = some node → node ∉ l ∧ s.available node = false
  apart : ∀ t u node, (s.pc t).pushing = some node → (s.pc u).pushing = some node → t = u
  threads : ∀ t, ThreadOk s l t
  replay : ∃ m, (emptyStack α).replay s.history = some m ∧ m.Represents l

theorem inv_init (h : (machine α τ).init s) : Inv s [] := by
  obtain ⟨head, pc, available, pops, history⟩ := h
  refine ⟨by simp [head], by simp [head, pops], by simp, ?_, ?_, ?_, ?_⟩
  · intro t node hp
    simp [pc, Pc.pushing] at hp
  · intro t u node hp
    simp [pc, Pc.pushing] at hp
  · intro t
    simp [ThreadOk, pc]
  · exact ⟨emptyStack α, by simp [history, MutexStack.replay], rfl⟩

/-- A thread moves on without touching shared memory. -/
theorem Inv.goto (inv : Inv s l) {pc : Pc α}
    (same : ∀ node, pc.pushing = some node → (s.pc t).pushing = some node)
    (ok : ThreadOk (s.goto t pc) l t) : Inv (s.goto t pc) l := by
  have lift : ∀ u node, ((s.goto t pc).pc u).pushing = some node →
      (s.pc u).pushing = some node := by
    intro u node
    rw [State.goto_pc]
    split_ifs with e
    · exact e ▸ same node
    · exact id
  refine ⟨inv.path, inv.tag, inv.outside, fun u node hp => inv.pushing u node (lift u node hp),
    fun u v node hu hv => inv.apart u v node (lift u node hu) (lift v node hv), ?_, inv.replay⟩
  intro u
  by_cases e : u = t
  · exact e ▸ ok
  · have old := inv.threads u
    unfold ThreadOk at old ⊢
    rw [State.goto_pc, if_neg e]
    exact old

/-- A call of `Push` takes its node out of circulation. -/
theorem Inv.callPush (inv : Inv s l) {node : α} (free : s.available node = true) :
    Inv { s.goto t (.pushLoad node) with
      available := Function.update s.available node false } l := by
  refine ⟨inv.path, inv.tag, ?_, ?_, ?_, ?_, inv.replay⟩
  · intro other
    simp only [Function.update_apply]
    split_ifs
    · exact fun no => no.elim
    · exact inv.outside other
  · intro u other
    simp only [State.goto_pc, Function.update_apply]
    split_ifs with e e' e'
    · exact fun _ => ⟨e' ▸ inv.outside node free, rfl⟩
    · intro h
      exact absurd (Option.some.inj h).symm e'
    · exact fun h => ⟨(inv.pushing u other h).1, rfl⟩
    · exact inv.pushing u other
  · have taken : ∀ u, (s.pc u).pushing ≠ some node := by
      intro u h
      have := (inv.pushing u node h).2
      simp [free] at this
    intro u v other
    simp only [State.goto_pc]
    split_ifs with eu ev ev
    · exact fun _ _ => eu.trans ev.symm
    · intro hu hv
      obtain rfl := Option.some.inj hu
      exact absurd hv (taken v)
    · intro hu hv
      obtain rfl := Option.some.inj hv
      exact absurd hu (taken u)
    · exact inv.apart u v other
  · intro u
    have old := inv.threads u
    unfold ThreadOk at old ⊢
    by_cases e : u = t
    · simp [e]
    · simpa [e] using old

/-- Writing the link of a node that is not in the stack yet. -/
theorem Inv.pushLink (inv : Inv s l) {node : α} {oldHead : TagPtr α}
    (pc : s.pc t = .pushLink node oldHead) :
    Inv { s.goto t (.pushCas node oldHead) with
      next := Function.update s.next node oldHead.ptr } l := by
  have mine : (s.pc t).pushing = some node := by rw [pc]; rfl
  have absent := (inv.pushing t node mine).1
  have lift : ∀ u other, ((s.goto t (.pushCas node oldHead)).pc u).pushing = some other →
      (s.pc u).pushing = some other := by
    intro u other
    rw [State.goto_pc]
    split_ifs with e
    · exact fun h => e ▸ mine.trans h
    · exact id
  refine ⟨?_, inv.tag, inv.outside, fun u other h => inv.pushing u other (lift u other h),
    fun u v other hu hv => inv.apart u v other (lift u other hu) (lift v other hv), ?_, inv.replay⟩
  · exact inv.path.congr fun a ha => Function.update_of_ne (ne_of_mem_of_not_mem ha absent) ..
  · intro u
    have old := inv.threads u
    unfold ThreadOk at old ⊢
    simp only [State.goto_pc, State.goto_pops, State.goto_lastRead]
    by_cases e : u = t
    · simp [e]
    · rw [if_neg e]
      cases pcu : s.pc u with
      | pushCas other oldHead' =>
        simp only [pcu] at old ⊢
        have differ : other ≠ node := by
          rintro rfl
          exact e (inv.apart u t other (by rw [pcu]; rfl) mine)
        rw [Function.update_of_ne differ, old]
      | popCas other tag newHead =>
        simp only [pcu] at old ⊢
        refine ⟨old.1, old.2.1, fun same => ?_⟩
        obtain ⟨inside, link⟩ := old.2.2 same
        refine ⟨inside, ?_⟩
        rw [Function.update_of_ne (ne_of_mem_of_not_mem inside absent), link]
      | popNext other tag => simpa only [pcu] using old
      | _ => trivial

/-- A push takes effect on the pointer it linked to, whatever happened before. -/
theorem Inv.pushCas (inv : Inv s l) {node : α} (pc : s.pc t = .pushCas node s.head) :
    Inv { s.goto t .idle with
      head := ⟨some node, s.head.tag⟩
      history := s.history ++ [.push node] } (node :: l) := by
  have mine : (s.pc t).pushing = some node := by rw [pc]; rfl
  obtain ⟨absent, taken⟩ := inv.pushing t node mine
  have linked := inv.threads t
  simp only [ThreadOk, pc] at linked
  have others : ∀ u other, ((s.goto t .idle).pc u).pushing = some other →
      u ≠ t ∧ (s.pc u).pushing = some other := by
    intro u other
    rw [State.goto_pc]
    split_ifs with e
    · rintro ⟨⟩
    · exact fun h => ⟨e, h⟩
  refine ⟨inv.path.push absent linked fun _ _ => rfl, inv.tag, ?_, ?_, ?_, ?_, ?_⟩
  · intro other free
    refine List.not_mem_cons_of_ne_of_not_mem ?_ (inv.outside other free)
    rintro rfl
    exact Bool.false_ne_true (taken.symm.trans free)
  · intro u other h
    obtain ⟨e, hp⟩ := others u other h
    obtain ⟨out, busy⟩ := inv.pushing u other hp
    refine ⟨List.not_mem_cons_of_ne_of_not_mem ?_ out, busy⟩
    rintro rfl
    exact e (inv.apart u t other hp mine)
  · intro u v other hu hv
    exact inv.apart u v other (others u other hu).2 (others v other hv).2
  · intro u
    have old := inv.threads u
    unfold ThreadOk at old ⊢
    simp only [State.goto_pc, State.goto_next, State.goto_pops, State.goto_lastRead]
    by_cases e : u = t
    · simp [e]
    · rw [if_neg e]
      cases pcu : s.pc u with
      | popNext other tag =>
        simp only [pcu] at old ⊢
        exact ⟨old.1, old.2.1, fun same => List.mem_cons_of_mem _ (old.2.2 same)⟩
      | popCas other tag newHead =>
        simp only [pcu] at old ⊢
        exact ⟨old.1, old.2.1, fun same => ⟨List.mem_cons_of_mem _ (old.2.2 same).1,
          (old.2.2 same).2⟩⟩
      | pushCas other oldHead => simpa only [pcu] using old
      | _ => trivial
  · obtain ⟨m, run, holds⟩ := inv.replay
    exact ⟨m.push node, MutexStack.replay_append run _, MutexStack.push_represents holds absent⟩

/-- A pop reads `head_`, at its start or by a failed compare-and-swap. -/
theorem Inv.popTest (inv : Inv s l) : Inv (s.popTest t) l := by
  have lift : ∀ u node, ((s.popTest t).pc u).pushing = some node →
      (s.pc u).pushing = some node := by
    intro u node
    simp only [State.popTest, State.goto_pc]
    split_ifs
    · cases s.head.ptr <;> rintro ⟨⟩
    · exact id
  refine ⟨inv.path, inv.tag, inv.outside, fun u node h => inv.pushing u node (lift u node h),
    fun u v node hu hv => inv.apart u v node (lift u node hu) (lift v node hv), ?_, inv.replay⟩
  intro u
  have old := inv.threads u
  unfold ThreadOk at old ⊢
  simp only [State.popTest, State.goto_pc]
  by_cases e : u = t
  · subst e
    cases top : s.head.ptr with
    | none => simp
    | some node =>
      have path := inv.path
      rw [top] at path
      obtain ⟨rest, rfl, -⟩ := path.of_some
      simp [inv.tag, State.goto_pops]
  · rw [if_neg e, Function.update_of_ne e]
    exact old

/-- Inside the tag window an equal word means that no pop has succeeded since the
read, so the snapshot of the node's link is still right. -/
theorem Inv.popCas (inv : Inv s l) {node : α} {tag : BitVec 16} {newHead : Option α}
    (pc : s.pc t = .popCas node tag newHead) (window : s.pops < s.lastRead t + 65536)
    (equal : s.head = ⟨some node, tag⟩) :
    ∃ rest, l = node :: rest ∧ Inv { s.goto t (.popped (some node)) with
      head := ⟨newHead, TagPtr.nextTag ⟨some node, tag⟩⟩
      available := Function.update s.available node true
      pops := s.pops + 1
      history := s.history ++ [.pop node] } rest := by
  have mine := inv.threads t
  simp only [ThreadOk, pc] at mine
  obtain ⟨tagEq, le, fresh⟩ := mine
  have headTag := inv.tag
  rw [equal, tagEq] at headTag
  have still : s.pops = s.lastRead t := Window.eq_of_ofNat_eq le window headTag.symm
  have path := inv.path
  rw [equal] at path
  obtain ⟨rest, rfl, below⟩ := path.of_some
  rw [(fresh still).2] at below
  have absent := (List.nodup_cons.mp path.nodup).1
  have lift : ∀ u other, ((s.goto t (.popped (some node))).pc u).pushing = some other →
      (s.pc u).pushing = some other := by
    intro u other
    rw [State.goto_pc]
    split_ifs
    · rintro ⟨⟩
    · exact id
  refine ⟨rest, rfl, below, ?_, ?_, ?_, ?_, ?_, ?_⟩
  · rw [Window.ofNat_succ, still, ← tagEq]
    rfl
  · intro other
    simp only [Function.update_apply]
    split_ifs with e
    · exact fun _ => e ▸ absent
    · exact fun free inside => inv.outside other free (List.mem_cons_of_mem _ inside)
  · intro u other h
    obtain ⟨out, busy⟩ := inv.pushing u other (lift u other h)
    rw [List.mem_cons, not_or] at out
    exact ⟨out.2, (Function.update_of_ne out.1 ..).trans busy⟩
  · exact fun u v other hu hv => inv.apart u v other (lift u other hu) (lift v other hv)
  · intro u
    have old := inv.threads u
    unfold ThreadOk at old ⊢
    simp only [State.goto_pc, State.goto_next, State.goto_lastRead]
    by_cases e : u = t
    · simp [e]
    · rw [if_neg e]
      -- every other snapshot has just expired
      cases pcu : s.pc u with
      | popNext other tag =>
        simp only [pcu] at old ⊢
        exact ⟨old.1, by omega, by omega⟩
      | popCas other tag newHead =>
        simp only [pcu] at old ⊢
        exact ⟨old.1, by omega, by omega⟩
      | pushCas other oldHead => simpa only [pcu] using old
      | _ => trivial
  · obtain ⟨m, run, holds⟩ := inv.replay
    obtain ⟨top, remains⟩ := MutexStack.pop_represents holds
    refine ⟨m.pop.2, ?_, remains⟩
    rw [MutexStack.replay_append run, MutexStack.apply, if_pos top]

/-- What one step does to the content: nothing, one push, or one pop of the top,
whose node the popping thread then returns. -/
def Effect (s s' : State α τ) (l l' : List α) : Prop :=
  (s'.history = s.history ∧ l' = l) ∨
  (∃ node, s'.history = s.history ++ [.push node] ∧ l' = node :: l) ∨
  ∃ t node, s'.history = s.history ++ [.pop node] ∧ s'.pc t = .popped (some node) ∧
    l = node :: l'

theorem Inv.step (inv : Inv s l) {spurious : Bool} (window : s.inTagWindow (.step t spurious))
    (h : s.step t spurious = some s') : ∃ l', Inv s' l' ∧ Effect s s' l l' := by
  cases pc : s.pc t <;> simp only [State.step, pc] at h
  case pushLoad =>
    obtain rfl := Option.some.inj h
    exact ⟨l, inv.goto (fun _ hp => by rw [pc]; exact hp) (by simp [ThreadOk]), .inl ⟨rfl, rfl⟩⟩
  case pushLink =>
    obtain rfl := Option.some.inj h
    exact ⟨l, inv.pushLink pc, .inl ⟨rfl, rfl⟩⟩
  case pushCas node oldHead =>
    split_ifs at h with success
    · obtain rfl := Option.some.inj h
      obtain ⟨rfl, -⟩ := success
      exact ⟨node :: l, inv.pushCas pc, .inr (.inl ⟨node, rfl, rfl⟩)⟩
    · obtain rfl := Option.some.inj h
      exact ⟨l, inv.goto (fun _ hp => by rw [pc]; exact hp) (by simp [ThreadOk]),
        .inl ⟨rfl, rfl⟩⟩
  case popLoad =>
    obtain rfl := Option.some.inj h
    exact ⟨l, inv.popTest, .inl ⟨rfl, rfl⟩⟩
  case popNext node tag =>
    obtain rfl := Option.some.inj h
    have ok := inv.threads t
    simp only [ThreadOk, pc] at ok
    refine ⟨l, inv.goto (by rintro _ ⟨⟩) ?_, .inl ⟨rfl, rfl⟩⟩
    simp only [ThreadOk, State.goto_pc, if_true, State.goto_lastRead, State.goto_pops,
      State.goto_next]
    exact ⟨ok.1, ok.2.1, fun same => ⟨ok.2.2 same, trivial⟩⟩
  case popCas node tag newHead =>
    split_ifs at h with success
    · obtain rfl := Option.some.inj h
      simp only [State.inTagWindow, pc, decide_eq_true_eq] at window
      obtain ⟨rest, rfl, inv'⟩ := inv.popCas pc window success.1
      exact ⟨rest, inv', .inr (.inr ⟨t, node, rfl, by simp, rfl⟩)⟩
    · obtain rfl := Option.some.inj h
      exact ⟨l, inv.popTest, .inl ⟨rfl, rfl⟩⟩
  all_goals cases h

theorem Inv.act (inv : Inv s l) {a : Action α τ} (window : s.inTagWindow a)
    (h : s.act a = some s') : ∃ l', Inv s' l' ∧ Effect s s' l l' := by
  cases a with
  | step t spurious => exact inv.step window h
  | push t node =>
    simp only [State.act] at h
    split_ifs at h with allowed
    obtain rfl := Option.some.inj h
    exact ⟨l, inv.callPush allowed.2, .inl ⟨rfl, rfl⟩⟩
  | pop t =>
    simp only [State.act] at h
    split_ifs at h
    obtain rfl := Option.some.inj h
    exact ⟨l, inv.goto (by rintro _ ⟨⟩) (by simp [ThreadOk]), .inl ⟨rfl, rfl⟩⟩

theorem inv_reachable (hs : (machine α τ).ReachableBy (fun s a => s.inTagWindow a) s) :
    ∃ l, Inv s l := by
  refine hs.invariant (fun s => ∃ l, Inv s l) ?_ ?_
  · exact fun s h => ⟨[], inv_init h⟩
  · rintro s a s' ⟨l, inv⟩ window h
    obtain ⟨l', inv', -⟩ := inv.act window h
    exact ⟨l', inv'⟩

end TaggedStack
end Codelab
