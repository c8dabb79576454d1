import Codelab.SharedPtrOwnership

/-! The constructor of `shared_ptr` from a `weak_ptr`. The `shared_count` it makes never gets
the `pi_` of the `weak_count`: it goes on with what is in its memory, which is an argument
here. The raw pointer is copied whatever comes of that. -/

namespace Codelab.SharedPtr

namespace Memory

variable (m : Memory)

def addRefLock (b : ℕ) : Except Fault (Memory × Bool) := do
  let x ← m.load b
  if x.useCount = 0 then pure (m, false)
  else do
    let m ← m.store b { x with useCount := x.useCount + 1 }
    pure (m, true)

/-- One more owner of block `b`. -/
def raised (b : ℕ) : Memory :=
  { m with
    block := Function.update m.block b
      { m.block b with useCount := (m.block b).useCount + 1 } }

variable {m} {b : ℕ}

theorem addRefCopy_eq (alive : b ∉ m.destroyed) : m.addRefCopy b = .ok (m.raised b) := by
  have load : m.load b = .ok (m.block b) := if_neg alive
  simp only [addRefCopy, load, bind, Except.bind]
  exact if_neg alive

theorem addRefLock_owned (alive : b ∉ m.destroyed) (owned : (m.block b).useCount ≠ 0) :
    m.addRefLock b = .ok (m.raised b, true) := by
  have load : m.load b = .ok (m.block b) := if_neg alive
  have store : m.store b { m.block b with useCount := (m.block b).useCount + 1 } =
      .ok (m.raised b) := if_neg alive
  simp only [addRefLock, load, if_neg owned, store, bind, Except.bind]
  rfl

theorem addRefLock_unowned (alive : b ∉ m.destroyed) (unowned : (m.block b).useCount = 0) :
    m.addRefLock b = .ok (m, false) := by
  have load : m.load b = .ok (m.block b) := if_neg alive
  simp only [addRefLock, load, if_pos unowned, bind, Except.bind]
  rfl

theorem addRefLock_destroyed (gone : b ∈ m.destroyed) : m.addRefLock b = .error .destroyed := by
  have load : m.load b = .error .destroyed := if_pos gone
  simp only [addRefLock, load, bind, Except.bind]

end Memory

/-- `explicit shared_count(weak_count const & r)`, where `pi` is what `pi_` holds before anything
is stored there. A number that no block has got yet is no block's address. -/
def SharedCount.lock (m : Memory) (pi _r : Count) : Except Fault (Memory × Count) :=
  match pi with
  | none => pure (m, none)
  | some b =>
      if b < m.made then do
        let (m, locked) ← m.addRefLock b
        pure (m, if locked then some b else none)
      else .error .notConstructed

namespace State

variable {σ ω : Type} (s : State σ ω)

/-- `explicit shared_ptr(weak_ptr<T> const & r)`. -/
def promote [DecidableEq σ] (v : σ) (w : ω) (pi : Count) : Except Fault (State σ ω) := do
  let r ← s.getWeak w
  let (m, pn) ← SharedCount.lock s.memory pi r.pn
  pure ({ s with memory := m }.setShared v (some { px := r.px, pn := pn }))

end State

/-- A program that also converts. -/
inductive Step (σ ω : Type)
  | member (a : Action σ ω)
  | promote (v : σ) (w : ω) (pi : Count)

namespace State

variable {σ ω : Type} (s : State σ ω)

/-- The block of `x`, if it has owners. -/
def owned (x : Ptr) : Count := x.pn.filter fun b => 0 < (s.memory.block b).useCount

/-- What a conversion of a `weak_ptr` with the members `x` is for: one more owner of the block of
`x` if it has owners, and an empty `shared_ptr` otherwise. -/
def promoted [DecidableEq σ] (v : σ) (x : Ptr) : State σ ω :=
  match s.owned x with
  | some b => { s with memory := s.memory.raised b }.setShared v (some x)
  | none => s.setShared v (some { px := none, pn := none })

/-- `pi_` is null, or points to a block whose owners are gone. -/
def ownerless : Count → Bool
  | none => true
  | some b => b < s.memory.made ∧ b ∉ s.memory.destroyed ∧ (s.memory.block b).useCount = 0

/-- What happens to be in `pi_` is what should have been stored there or, for a `weak_ptr` without
a pointer, makes the attempt fail as it should. -/
def lucky (x : Ptr) (pi : Count) : Bool :=
  match s.owned x with
  | some b => pi = some b
  | none => x.px = none ∧ s.ownerless pi

/-- A conversion runs on a variable outside its lifetime, of a constructed `weak_ptr`. -/
def admissible [DecidableEq σ] [DecidableEq ω] : Step σ ω → Bool
  | .member a => s.proper a
  | .promote v w pi => (s.shared v).isNone && (s.weak w).any fun x => s.lucky x pi

end State

def promoting (σ ω : Type) [DecidableEq σ] [DecidableEq ω] : Machine (State σ ω) (Step σ ω) where
  init s := s = initial σ ω s.memory.block
  next s
    | .member a => (s.act a).toOption
    | .promote v w pi => (s.promote v w pi).toOption

open State

section

variable {σ ω : Type} {s s' : State σ ω} {v : σ} {w : ω} {x : Ptr} {pi : Count} {b : ℕ}

theorem owned_some : s.owned x = some b ↔ x.pn = some b ∧ 0 < (s.memory.block b).useCount := by
  rw [owned, Option.filter_eq_some_iff, decide_eq_true_iff]

variable [DecidableEq σ]

theorem setShared_shared (p : Option Ptr) : (s.setShared v p).shared v = p :=
  Function.update_self ..

/-- Nothing is locked, and only the raw pointer is copied. -/
theorem promote_ownerless (hw : s.weak w = some x) (gone : s.ownerless pi) :
    s.promote v w pi = .ok (s.setShared v (some { px := x.px, pn := none })) := by
  have read : s.getWeak w = .ok x := by simp only [getWeak, hw]
  cases pi with
  | none =>
    simp only [promote, read, SharedCount.lock, bind, Except.bind]
    rfl
  | some b =>
    obtain ⟨made, alive, unowned⟩ := of_decide_eq_true gone
    simp only [promote, read, SharedCount.lock, if_pos made,
      Memory.addRefLock_unowned alive unowned, bind, Except.bind]
    rfl

/-- The block in `pi_` gets one more owner, whichever block that is. -/
theorem promote_owned (hw : s.weak w = some x) (made : b < s.memory.made)
    (alive : b ∉ s.memory.destroyed) (owned : (s.memory.block b).useCount ≠ 0) :
    s.promote v w (some b) = .ok ({ s with memory := s.memory.raised b }.setShared v
      (some { px := x.px, pn := some b })) := by
  have read : s.getWeak w = .ok x := by simp only [getWeak, hw]
  simp only [promote, read, SharedCount.lock, if_pos made, Memory.addRefLock_owned alive owned,
    bind, Except.bind]
  rfl

theorem promote_fault (hw : s.weak w = some x) (lost : s.memory.made ≤ b ∨ b ∈ s.memory.destroyed) :
    ∃ e, s.promote v w (some b) = .error e := by
  have read : s.getWeak w = .ok x := by simp only [getWeak, hw]
  by_cases made : b < s.memory.made
  · have gone := lost.resolve_left (by omega)
    refine ⟨.destroyed, ?_⟩
    simp only [promote, read, SharedCount.lock, if_pos made, Memory.addRefLock_destroyed gone, bind,
      Except.bind]
  · refine ⟨.notConstructed, ?_⟩
    simp only [promote, read, SharedCount.lock, if_neg made, bind, Except.bind]

/-- If the attempt succeeds, it has locked the block in `pi_` or found none to lock. -/
theorem promote_cases (hw : s.weak w = some x) (run : s.promote v w pi = .ok s') :
    s.ownerless pi ∧ s'.shared v = some { px := x.px, pn := none } ∨
      ∃ b, pi = some b ∧ s'.shared v = some { px := x.px, pn := some b } := by
  by_cases gone : s.ownerless pi
  · rw [promote_ownerless hw gone] at run
    exact .inl ⟨gone, Except.ok.inj run ▸ setShared_shared _⟩
  · cases pi with
    | none => exact absurd rfl gone
    | some b =>
      by_cases lost : s.memory.made ≤ b ∨ b ∈ s.memory.destroyed
      · obtain ⟨e, fault⟩ := promote_fault (v := v) hw lost
        exact nomatch fault.symm.trans run
      · obtain ⟨made, alive⟩ := not_or.mp lost
        have held : (s.memory.block b).useCount ≠ 0 := fun none =>
          gone (decide_eq_true ⟨Nat.not_le.mp made, alive, none⟩)
        rw [promote_owned hw (Nat.not_le.mp made) alive held] at run
        exact .inr ⟨b, rfl, Except.ok.inj run ▸ setShared_shared _⟩

end

variable {σ ω : Type} [Fintype σ] [Fintype ω] [DecidableEq σ] {s s' : State σ ω} {v : σ} {w : ω}
  {x : Ptr} {pi : Count}

/-- A conversion does what it is for exactly with luck. -/
theorem Settled.promote_iff (h : Settled s) (hw : s.weak w = some x) :
    s.promote v w pi = .ok (s.promoted v x) ↔ s.lucky x pi := by
  cases block : s.owned x with
  | some b =>
    obtain ⟨refers, positive⟩ := owned_some.mp block
    simp only [promoted, lucky, block, decide_eq_true_iff]
    constructor
    · intro run
      rcases promote_cases hw run with ⟨-, value⟩ | ⟨c, rfl, value⟩
      · rw [setShared_shared, Option.some.injEq] at value
        exact nomatch refers.symm.trans (congrArg Ptr.pn value)
      · rw [setShared_shared, Option.some.injEq] at value
        exact (congrArg Ptr.pn value).symm.trans refers
    · rintro rfl
      have held := live_weak hw b refers
      rw [promote_owned hw (h.counted.made_of_held held) (h.counted.not_destroyed held)
        (by omega), ← refers]
  | none =>
    simp only [promoted, lucky, block, decide_eq_true_iff]
    constructor
    · intro run
      rcases promote_cases hw run with ⟨gone, value⟩ | ⟨c, rfl, value⟩
      · rw [setShared_shared, Option.some.injEq] at value
        exact ⟨(congrArg Ptr.px value).symm, gone⟩
      · rw [setShared_shared, Option.some.injEq] at value
        exact nomatch congrArg Ptr.pn value
    · rintro ⟨null, gone⟩
      rw [promote_ownerless hw gone, null]

/-- What a conversion is for keeps the counters right. -/
theorem Settled.promoted (h : Settled s) (hw : s.weak w = some x) (hv : s.shared v = none) :
    Settled (s.promoted v x) := by
  cases block : s.owned x with
  | some b =>
    obtain ⟨refers, positive⟩ := owned_some.mp block
    have held := live_weak hw b refers
    have use := h.counted.use b (h.counted.made_of_held held)
    have owned : ∀ c, x.pn = some c → 0 < s.owners c := by
      intro c same
      obtain rfl := Option.some.inj (refers.symm.trans same)
      omega
    obtain ⟨m, copied, -, counted⟩ := SharedCount.copy_ok h.counted owned
    have raised : m = s.memory.raised b := by
      rw [refers] at copied
      simp only [SharedCount.copy, Memory.addRefCopy_eq (h.counted.not_destroyed held), bind,
        Except.bind] at copied
      exact (congrArg Prod.fst (Except.ok.inj copied)).symm
    subst raised
    simp only [State.promoted, block]
    exact Held.place (s := { s with memory := s.memory.raised b }) ⟨counted⟩
      (by simp only [hv, count_none])
  | none =>
    simp only [State.promoted, block]
    exact Held.place h.held (by rw [hv, count_none])

variable [DecidableEq ω]

theorem settled_promoting (h : (promoting σ ω).ReachableBy (fun s a => s.admissible a) s) :
    Settled s := by
  refine h.invariant Settled (fun s start => ?_) fun s a s' hs admissible next => ?_
  · rw [show s = initial σ ω s.memory.block from start]
    exact settled_initial _
  · cases a with
    | member a =>
      obtain ⟨s₁, called, -, settled⟩ := hs.act admissible
      have made : (s.act a).toOption = some s' := next
      rw [called] at made
      exact Option.some.inj made ▸ settled
    | promote v w pi =>
      simp only [State.admissible, Bool.and_eq_true, Option.isNone_iff_eq_none,
        Option.any_eq_true] at admissible
      obtain ⟨hv, x, hw, lucky⟩ := admissible
      have made : (s.promote v w pi).toOption = some s' := next
      rw [(hs.promote_iff hw).mpr lucky] at made
      exact Option.some.inj made ▸ hs.promoted hw hv

/-- In every state of every program whose conversions have had luck so far: the next one does
what it is for exactly if it has luck too. -/
theorem promote_exact_iff (h : (promoting σ ω).ReachableBy (fun s a => s.admissible a) s)
    (hw : s.weak w = some x) (v : σ) (pi : Count) :
    s.promote v w pi = .ok (s.promoted v x) ↔ s.lucky x pi :=
  (settled_promoting h).promote_iff hw

/-- One owner and one watcher of a block. -/
theorem watched_run (as : List (Step (Fin 2) (Fin 1))) (use : Int)
    (ran : ((promoting (Fin 2) (Fin 1)).runBy (fun s a => s.admissible a)
      (initial (Fin 2) (Fin 1) fun _ => { useCount := 0, weakCount := 0, px := 0 }) as).map
        (fun s => ((s.weak 0).map fun x => (x.px, x.pn), (s.memory.block 0).useCount)) =
      some (some (some 0, some 0), use)) :
    ∃ s : State (Fin 2) (Fin 1),
      (promoting (Fin 2) (Fin 1)).ReachableBy (fun s a => s.admissible a) s ∧
      s.weak 0 = some { px := some 0, pn := some 0 } ∧ (s.memory.block 0).useCount = use := by
  obtain ⟨s, run, result⟩ := Option.map_eq_some_iff.mp ran
  simp only [Prod.mk.injEq] at result
  obtain ⟨watcher, use⟩ := result
  obtain ⟨⟨px, pn⟩, hw, members⟩ := Option.map_eq_some_iff.mp watcher
  obtain ⟨rfl, rfl⟩ := Prod.mk.inj members
  have begins : (promoting (Fin 2) (Fin 1)).init
      (initial (Fin 2) (Fin 1) fun _ => { useCount := 0, weakCount := 0, px := 0 }) := rfl
  exact ⟨s, Machine.runBy_reachable (.init begins) run, hw, use⟩

/-- A program whose first conversion has had luck. -/
theorem promote_exact_iff_again : ∃ s : State (Fin 2) (Fin 1), (s.memory.block 0).useCount = 2 ∧
    (s.promote 1 0 (some 0) = .ok (s.promoted 1 { px := some 0, pn := some 0 }) ↔
      s.lucky { px := some 0, pn := some 0 } (some 0)) := by
  obtain ⟨s, h, hw, use⟩ := watched_run
    [.member (.construct 0 false), .member (.weakShared 0 0), .promote 1 0 (some 0)] 2
    (by decide +kernel)
  exact ⟨s, use, promote_exact_iff h hw 1 (some 0)⟩

/-- The block has an owner, but `pi_` happens to be null. -/
theorem promote_misses : ∃ s : State (Fin 2) (Fin 1),
    (promoting (Fin 2) (Fin 1)).ReachableBy (fun s a => s.admissible a) s ∧
    s.weak 0 = some { px := some 0, pn := some 0 } ∧ (s.memory.block 0).useCount = 1 ∧
    s.promote 1 0 none ≠ .ok (s.promoted 1 { px := some 0, pn := some 0 }) := by
  obtain ⟨s, h, hw, use⟩ := watched_run [.member (.construct 0 false), .member (.weakShared 0 0)] 1
    (by decide +kernel)
  refine ⟨s, h, hw, use, fun exact => ?_⟩
  have lucky := ((settled_promoting h).promote_iff hw).mp exact
  have owned : s.owned { px := some 0, pn := some 0 } = some 0 :=
    owned_some.mpr ⟨rfl, by rw [use]; decide⟩
  simp [State.lucky, owned] at lucky

end Codelab.SharedPtr
