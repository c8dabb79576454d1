import Codelab.ThreadedPoolSlots

/-! Runs of calls. The test of `get` for a new block reads through `blocks_` just where there is
no block, so the first `get` of a pool faults; with the negation that the test lacks all runs are
in order. -/

namespace Codelab.ThreadedPool

variable {count : ℕ} {grow : State → Except Fault Bool} {s : State} {u u' : Usage}
  {bl : List ℕ} {b : ℕ} {p : Option Node}

/-- A call that does not come to a fault in `get`, nor to a block that is not due. -/
def Usage.Ready (count : ℕ) (grow : State → Except Fault Bool) (u : Usage) : Op → Prop
  | .get memory => u.pool.freeNodes = none →
    ∃ more, grow u.pool = .ok more ∧ (more = true ∧ memory = true → Usage.Due count u.pool)
  | .back _ | .write _ _ | .reset => True

def Consistent (count : ℕ) (u : Usage) : Prop := ∃ bl fl, Inv count u.pool u.out bl fl

theorem consistent_initial (memory : ℕ → Block) (spaces : Node → Option Node) :
    Consistent count ⟨initial memory spaces, []⟩ :=
  ⟨[], [], (blocks_initial memory spaces).inv_nil rfl⟩

theorem Inv.slot (h : Inv count s out bl fl) (mem : node ∈ out) :
    node.index < count ∧ ∃ l, Chain.Path s.chain s.blocks l ∧ node.block ∈ l := by
  obtain ⟨block, index⟩ := h.slots node (List.mem_append_right _ mem)
  exact ⟨Nat.lt_of_lt_of_le index (h.filled _ block), bl, h.blocks.path, block⟩

/-- What is to be shown of a call. -/
def Usage.Settled (count : ℕ) (grow : State → Except Fault Bool) (u : Usage) (op : Op) : Prop :=
  (u.CallMeets grow count op ↔ u.Ready count grow op) ∧
    ∀ u' p, u.call grow op = .ok (u', p) → Consistent count u'

theorem settled_of_eq {op : Op} (ran : u.call grow op = .ok (u', p)) (after : Consistent count u')
    (meant : u.Meant count u' p op ↔ u.Ready count grow op) : u.Settled count grow op := by
  refine ⟨⟨?_, fun ready => ⟨u', p, ran, meant.mpr ready⟩⟩, fun v q other => ?_⟩
  · rintro ⟨v, q, other, met⟩
    obtain ⟨rfl, rfl⟩ := Prod.mk.inj (Except.ok.inj (ran.symm.trans other))
    exact meant.mp met
  · obtain ⟨rfl, rfl⟩ := Prod.mk.inj (Except.ok.inj (ran.symm.trans other))
    exact after

theorem Consistent.get (h : Consistent count u) (pos : 0 < count) (sound : Sound count grow)
    (memory : Bool) : u.Settled count grow (.get memory) := by
  obtain ⟨bl, fl, inv⟩ := h
  by_cases tested : u.pool.freeNodes = none → ∃ more, grow u.pool = .ok more
  · obtain ⟨s', p, bl', fl', ran, after, fresh, made⟩ := inv.get pos sound memory tested
    have call : u.call grow (.get memory) = .ok (⟨s', p.toList ++ u.out⟩, p) := by
      rw [Usage.call, ran]
      rfl
    refine settled_of_eq call ⟨bl', fl', after⟩ ⟨fun meant free => ?_, fun ready => ⟨?_, ?_⟩⟩
    · obtain ⟨more, test⟩ := tested free
      refine ⟨more, test, ?_⟩
      rintro ⟨rfl, new⟩
      exact (meant.2 (made.mpr ⟨free, test, new⟩)).2
    · rintro node rfl
      obtain ⟨index, block⟩ := after.slot List.mem_cons_self
      exact ⟨index, fresh node rfl, block⟩
    · intro grown
      obtain ⟨free, test, new⟩ := made.mp grown
      obtain ⟨more, test', due⟩ := ready free
      obtain rfl := Except.ok.inj (test.symm.trans test')
      exact ⟨free, due ⟨rfl, new⟩⟩
  · obtain ⟨free, fails⟩ := Classical.not_imp.mp tested
    have call (v : Usage) (q : Option Node) : u.call grow (.get memory) ≠ .ok (v, q) := by
      cases test : grow u.pool with
      | ok more => exact absurd ⟨more, test⟩ fails
      | error e =>
        rw [Usage.call, State.get, free, test]
        rintro ⟨⟩
    refine ⟨⟨?_, fun ready => ?_⟩, fun v q ran => absurd ran (call v q)⟩
    · rintro ⟨v, q, ran, -⟩
      exact absurd ran (call v q)
    · obtain ⟨more, test, -⟩ := ready free
      exact absurd ⟨more, test⟩ fails

/-- A call of a pool that is in order meets what it has to if and only if it is ready. -/
theorem Consistent.call (h : Consistent count u) (pos : 0 < count) (sound : Sound count grow)
    {op : Op} (allowed : u.Allowed op) : u.Settled count grow op := by
  obtain ⟨bl, fl, inv⟩ := h
  cases op with
  | get memory => exact Consistent.get ⟨bl, fl, inv⟩ pos sound memory
  | back p =>
    cases p with
    | none => exact settled_of_eq rfl ⟨bl, fl, inv⟩ Iff.rfl
    | some node =>
      obtain ⟨s', back, after⟩ := inv.back allowed
      have ran : u.call grow (.back (some node)) = .ok (⟨s', u.out.erase node⟩, none) := by
        rw [Usage.call, back]
        rfl
      exact settled_of_eq ran ⟨bl, node :: fl, after⟩ Iff.rfl
  | write node next =>
    obtain ⟨s', store, after⟩ := inv.write allowed next
    have ran : u.call grow (.write node next) = .ok (⟨s', u.out⟩, none) := by
      rw [Usage.call, store]
      rfl
    exact settled_of_eq ran ⟨bl, fl, after⟩ Iff.rfl
  | reset =>
    obtain ⟨s', reset, blocks, made, free⟩ := inv.blocks.reset
    have ran : u.call grow .reset = .ok (⟨s', []⟩, none) := by
      rw [Usage.call, reset]
      rfl
    refine settled_of_eq ran ⟨[], [], blocks.inv_nil free⟩
      ⟨fun _ => trivial, fun _ => ⟨blocks.nodup, fun b => ?_⟩⟩
    rw [← made]
    refine ⟨blocks.made b, fun before => ?_⟩
    by_contra kept
    exact List.not_mem_nil ((blocks.alive b).mpr ⟨before, kept⟩)

theorem Consistent.meets (h : Consistent count u) (pos : 0 < count) (sound : Sound count grow)
    (ready : ∀ u, Consistent count u → ∀ op, u.Ready count grow op) {ops : List Op}
    (legal : u.Legal grow ops) : u.Meets grow count ops := by
  induction ops generalizing u with
  | nil => trivial
  | cons op ops ih =>
    obtain ⟨met, after⟩ := h.call pos sound legal.1
    exact ⟨met.mpr (ready u h op), fun u' p ran => ih (after u' p ran) (legal.2 u' p ran)⟩

theorem sound_grow : Sound count (State.grow count) := by
  intro s bl h ran
  cases first : s.blocks with
  | none =>
    rw [State.grow, first] at ran
    cases ran
  | some b =>
    rw [State.grow, first] at ran
    cases ran

theorem growNegated_none (first : s.blocks = none) : State.growNegated count s = .ok true := by
  rw [State.growNegated, first]
  rfl

theorem Blocks.growNegated_some (h : Blocks s bl) (first : s.blocks = some b) :
    State.growNegated count s = .ok (decide (count ≤ (s.memory b).nalloc)) := by
  have path := h.path
  rw [first] at path
  obtain ⟨rest, rfl, -⟩ := path.of_some
  have load : s.load (some b) = .ok (s.memory b) := if_pos ((h.alive b).mp List.mem_cons_self)
  rw [State.growNegated, first]
  exact congrArg (· >>= _) load

theorem sound_growNegated : Sound count (State.growNegated count) := by
  intro s bl h ran
  cases first : s.blocks with
  | none =>
    rw [growNegated_none first] at ran
    cases ran
  | some b =>
    rw [h.growNegated_some first, Except.ok.injEq, decide_eq_false_iff_not] at ran
    exact ⟨b, rfl, Nat.lt_of_not_le ran⟩

/-- With the negation in the test of `get`, a new pool does what it has to in every run. -/
theorem meets_negated (itemSize blockSize : ℕ) (memory : ℕ → Block)
    (spaces : Node → Option Node) {ops : List Op}
    (legal : Usage.Legal (State.growNegated (nodeCount itemSize blockSize))
      ⟨initial memory spaces, []⟩ ops) :
    Usage.Meets (State.growNegated (nodeCount itemSize blockSize)) (nodeCount itemSize blockSize)
      ⟨initial memory spaces, []⟩ ops := by
  refine (consistent_initial memory spaces).meets (nodeCount_pos ..) sound_growNegated
    (fun u h op => ?_) legal
  obtain ⟨bl, fl, inv⟩ := h
  cases op with
  | get memory =>
    intro free
    cases first : u.pool.blocks with
    | none =>
      refine ⟨true, growNegated_none first, fun _ b newest => ?_⟩
      rw [first] at newest
      cases newest
    | some b =>
      refine ⟨_, inv.blocks.growNegated_some first, fun full c newest => ?_⟩
      obtain rfl := Option.some.inj (first.symm.trans newest)
      exact of_decide_eq_true full.1
  | back p | write node next | reset => trivial

/-- No call has made a block yet. -/
structure Untouched (u : Usage) : Prop where
  free : u.pool.freeNodes = none
  blocks : u.pool.blocks = none
  out : u.out = []

theorem Untouched.not_ready (h : Untouched u) (memory : Bool) :
    ¬ u.Ready count (State.grow count) (.get memory) := by
  intro ready
  obtain ⟨more, ran, -⟩ := ready h.free
  rw [State.grow, h.blocks] at ran
  cases ran

theorem Untouched.call (h : Untouched u) {op : Op} (allowed : u.Allowed op)
    (other : ∀ memory, op ≠ .get memory) (ran : u.call grow op = .ok (u', p)) : Untouched u' := by
  have none_out (node : Node) : node ∉ u.out := by
    rw [h.out]
    exact List.not_mem_nil
  cases op with
  | get memory => exact absurd rfl (other memory)
  | back p =>
    cases p with
    | none =>
      cases ran
      exact h
    | some node => exact absurd allowed (none_out node)
  | write node next => exact absurd allowed (none_out node)
  | reset =>
    have reset : u.pool.reset = .ok { u.pool with freeNodes := none } := by
      rw [State.reset, Total.loop, State.resetRound]
      simp only [h.blocks]
      rfl
    rw [Usage.call, reset] at ran
    cases ran
    exact ⟨rfl, h.blocks, rfl⟩

/-- A new pool does what it has to in exactly the runs without a `get`. -/
theorem meets_iff (itemSize blockSize : ℕ) (memory : ℕ → Block) (spaces : Node → Option Node)
    (ops : List Op)
    (legal : Usage.Legal (State.grow (nodeCount itemSize blockSize))
      ⟨initial memory spaces, []⟩ ops) :
    Usage.Meets (State.grow (nodeCount itemSize blockSize)) (nodeCount itemSize blockSize)
      ⟨initial memory spaces, []⟩ ops ↔ ∀ memory, .get memory ∉ ops := by
  have start : Consistent (nodeCount itemSize blockSize) _ := consistent_initial memory spaces
  have untouched : Untouched ⟨initial memory spaces, []⟩ := ⟨rfl, rfl, rfl⟩
  generalize (⟨initial memory spaces, []⟩ : Usage) = u at legal start untouched
  induction ops generalizing u with
  | nil => exact ⟨fun _ _ => List.not_mem_nil, fun _ => trivial⟩
  | cons op ops ih =>
    obtain ⟨met, after⟩ := start.call (nodeCount_pos ..) sound_grow legal.1
    constructor
    · rintro ⟨meets, rest⟩ m mem
      have other (m : Bool) : op ≠ .get m := by
        rintro rfl
        exact untouched.not_ready m (met.mp meets)
      obtain ⟨u', p, ran, -⟩ := meets
      rcases List.mem_cons.mp mem with same | mem
      · exact other m same.symm
      · exact (ih u' (legal.2 u' p ran) (after u' p ran) (untouched.call legal.1 other ran)).mp
          (rest u' p ran) m mem
    · intro none
      have other (m : Bool) : op ≠ .get m := fun same => none m (same ▸ List.mem_cons_self)
      refine ⟨met.mpr ?_, fun u' p ran => ?_⟩
      · cases op with
        | get m => exact absurd rfl (other m)
        | back p | write node next | reset => trivial
      · exact (ih u' (legal.2 u' p ran) (after u' p ran) (untouched.call legal.1 other ran)).mpr
          fun m mem => none m (List.mem_cons_of_mem _ mem)

/-- The first `get`, even after a `reset`. -/
theorem meets_iff_reset : ¬ Usage.Meets (State.grow (nodeCount 16 512)) (nodeCount 16 512)
    ⟨initial (fun _ => ⟨0, none⟩) fun _ => none, []⟩ [.reset, .get true] ∧
    Usage.Meets (State.grow (nodeCount 16 512)) (nodeCount 16 512)
      ⟨initial (fun _ => ⟨0, none⟩) fun _ => none, []⟩ [.reset, .back none] := by
  have first := meets_iff 16 512 (fun _ => ⟨0, none⟩) (fun _ => none) [.reset, .get true]
    ⟨trivial, fun _ _ _ => ⟨trivial, fun _ _ _ => trivial⟩⟩
  have second := meets_iff 16 512 (fun _ => ⟨0, none⟩) (fun _ => none) [.reset, .back none]
    ⟨trivial, fun _ _ _ => ⟨trivial, fun _ _ _ => trivial⟩⟩
  exact ⟨fun meets => first.mp meets true (by simp), second.mpr fun memory => by simp⟩

/-- `get` on a new pool of the size that the header gives as its example. -/
theorem meets_fails : ¬ ∀ (itemSize blockSize : ℕ) (memory : ℕ → Block)
    (spaces : Node → Option Node) (ops : List Op),
    Usage.Legal (State.grow (nodeCount itemSize blockSize)) ⟨initial memory spaces, []⟩ ops →
      Usage.Meets (State.grow (nodeCount itemSize blockSize)) (nodeCount itemSize blockSize)
        ⟨initial memory spaces, []⟩ ops := by
  intro meets
  obtain ⟨⟨u', p, ran, -⟩, -⟩ := meets 16 512 (fun _ => ⟨0, none⟩) (fun _ => none) [.get true]
    ⟨trivial, fun _ _ _ => trivial⟩
  cases ran

end Codelab.ThreadedPool
