import Codelab.SharedPtrCounts

/-! The variables of a program and the counters of the blocks they refer to. Within one
member function a temporary may hold one more reference; `Held s c` says that the counters
are right for the variables of `s` and one `shared_count` equal to `c` besides. -/

namespace Codelab.SharedPtr

open Census

section

variable {m : Memory} {o w : ℕ → ℕ} {c d : Count}

theorem one_none_eq : one none = 0 := rfl

theorem holders_add_owned (owned : ∀ b, c = some b → 0 < o b) :
    holders (o + one c) w = holders o w := by
  funext b
  by_cases mine : c = some b
  · have positive := owned b mine
    simp only [holders, Pi.add_apply]
    rw [if_neg (by omega), if_neg (by omega)]
  · simp [holders, one, mine]

theorem holders_add_weak : holders o (w + one c) = holders o w + one c := by
  funext b
  simp only [holders, Pi.add_apply]
  omega

namespace SharedCount

theorem copy_ok (h : Counted m o (holders o w)) (owned : ∀ b, c = some b → 0 < o b) :
    ∃ m', copy m c = .ok (m', c) ∧ Kept m m' ∧ Counted m' (o + one c) (holders (o + one c) w) := by
  rw [holders_add_owned owned]
  cases c with
  | none =>
    rw [one_none_eq, add_zero]
    exact ⟨m, rfl, Kept.refl m, h⟩
  | some b =>
    obtain ⟨m', added, kept, counted⟩ := h.addRefCopy (owned b rfl)
    refine ⟨m', ?_, kept, counted⟩
    simp only [copy, added, bind, Except.bind]
    rfl

theorem destruct_ok (h : Counted m (o + one c) (holders (o + one c) w)) :
    ∃ m', destruct m c = .ok m' ∧ Kept m m' ∧ Counted m' o (holders o w) := by
  cases c with
  | none =>
    rw [one_none_eq, add_zero] at h
    exact ⟨m, rfl, Kept.refl m, h⟩
  | some b => exact h.release

end SharedCount

namespace WeakCount

theorem copy_ok (h : Counted m o (holders o w)) (held : ∀ b, c = some b → 0 < holders o w b) :
    ∃ m', copy m c = .ok (m', c) ∧ Kept m m' ∧ Counted m' o (holders o (w + one c)) := by
  rw [holders_add_weak]
  cases c with
  | none =>
    rw [one_none_eq, add_zero]
    exact ⟨m, rfl, Kept.refl m, h⟩
  | some b =>
    obtain ⟨m', added, kept, counted⟩ := h.weakAddRef (held b rfl)
    refine ⟨m', ?_, kept, counted⟩
    simp only [copy, added, bind, Except.bind]
    rfl

theorem destruct_ok (h : Counted m o (holders o (w + one c))) :
    ∃ m', destruct m c = .ok m' ∧ Kept m m' ∧ Counted m' o (holders o w) := by
  rw [holders_add_weak] at h
  cases c with
  | none =>
    rw [one_none_eq, add_zero] at h
    exact ⟨m, rfl, Kept.refl m, h⟩
  | some b =>
    refine h.weakRelease fun none => ?_
    by_contra owned
    simp only [holders, if_neg owned] at none
    omega

/-- The new reference is added before the old one is released. -/
theorem assign_ok (h : Counted m o (holders o (w + one c)))
    (held : ∀ b, d = some b → 0 < holders o (w + one c) b) :
    ∃ m', assign m c d = .ok (m', d) ∧ Kept m m' ∧ Counted m' o (holders o (w + one d)) := by
  by_cases same : d = c
  · subst same
    refine ⟨m, ?_, Kept.refl m, h⟩
    simp only [assign, ne_eq, not_true_eq_false, if_false]
    rfl
  · obtain ⟨m₁, copied, kept, both⟩ := copy_ok h held
    rw [add_right_comm] at both
    obtain ⟨m', destructed, kept', done⟩ := destruct_ok both
    refine ⟨m', ?_, kept.trans kept', done⟩
    simp only [assign, ne_eq, same, not_false_eq_true, if_true, copied, destructed, bind,
      Except.bind]
    rfl

end WeakCount

end

namespace State

variable {σ ω : Type}

/-- The block a variable refers to. -/
def count (x : Option Ptr) : Count := x.bind Ptr.pn

@[simp] theorem count_some (x : Ptr) : count (some x) = x.pn := rfl

@[simp] theorem count_none : count none = none := rfl

/-- The number of `shared_ptr` variables that refer to block `b`. -/
def owners [Fintype σ] (s : State σ ω) (b : ℕ) : ℕ := census s.shared fun x => one (count x) b

/-- The number of `weak_ptr` variables that refer to block `b`. -/
def watchers [Fintype ω] (s : State σ ω) (b : ℕ) : ℕ := census s.weak fun x => one (count x) b

end State

open State

section

variable {σ ω : Type} {s : State σ ω} {v : σ} {u : ω} {x : Ptr} {b : ℕ}

theorem owners_setShared [Fintype σ] [DecidableEq σ] (x : Option Ptr) :
    (s.setShared v x).owners + one (count (s.shared v)) = s.owners + one (count x) := by
  funext b
  exact census_update

theorem watchers_setWeak [Fintype ω] [DecidableEq ω] (x : Option Ptr) :
    (s.setWeak u x).watchers + one (count (s.weak u)) = s.watchers + one (count x) := by
  funext b
  exact census_update

theorem owners_pos [Fintype σ] (hv : s.shared v = some x) (b : ℕ) (refers : x.pn = some b) :
    0 < s.owners b := by
  have mine : one (count (s.shared v)) b ≤ s.owners b :=
    @le_census σ _ s.shared (fun x => one (count x) b) v _
  rw [hv, count_some, refers, one_self] at mine
  exact mine

theorem watchers_pos [Fintype ω] (hu : s.weak u = some x) (b : ℕ) (refers : x.pn = some b) :
    0 < s.watchers b := by
  have mine : one (count (s.weak u)) b ≤ s.watchers b :=
    @le_census ω _ s.weak (fun x => one (count x) b) u _
  rw [hu, count_some, refers, one_self] at mine
  exact mine

end

variable {σ ω : Type} [Fintype σ] [Fintype ω]

/-- The counters are right for the variables and one more `shared_count`. -/
structure Held (s : State σ ω) (c : Count) : Prop where
  counted : Counted s.memory (s.owners + one c) (holders (s.owners + one c) s.watchers)

/-- The counters are right for the variables. -/
structure Settled (s : State σ ω) : Prop where
  counted : Counted s.memory s.owners (holders s.owners s.watchers)

variable {s s' : State σ ω} {v r : σ} {u q : ω} {x tmp : Ptr}

theorem Settled.copy (h : Settled s) (hr : s.shared r = some x) (px : Ptr → Option ℕ) :
    ∃ m, s.copy r px = .ok ({ s with memory := m }, { px := px x, pn := x.pn }) ∧
      Kept s.memory m ∧ Held { s with memory := m } x.pn := by
  obtain ⟨m, copied, kept, counted⟩ := SharedCount.copy_ok h.counted (owners_pos hr)
  refine ⟨m, ?_, kept, ⟨counted⟩⟩
  have read : s.getShared r = .ok x := by simp only [getShared, hr]
  simp only [State.copy, read, copied, bind, Except.bind]
  rfl

/-- A fresh object, and what becomes of it in the constructor. -/
theorem Settled.construct (h : Settled s) (throws : Bool) :
    ∃ s' x, s.newObject.1.construct s.newObject.2 throws = (s', x) ∧ s'.shared = s.shared ∧
      Kept s.memory s'.memory ∧
      match x with
      | none => Settled s'
      | some x => Held s' x.pn := by
  obtain ⟨counted, fresh⟩ := h.counted.newObject
  cases throws with
  | true =>
    refine ⟨_, _, rfl, rfl, ⟨Nat.le_refl _, fun _ _ => rfl, List.suffix_cons _ _⟩, ⟨?_⟩⟩
    exact counted.throw fresh
  | false =>
    refine ⟨_, _, rfl, rfl, ⟨Nat.le_succ _, fun b hb => ?_, List.suffix_refl _⟩, ⟨?_⟩⟩
    · have old : b ≠ s.memory.made := Nat.ne_of_lt hb
      exact congrArg Block.px (Function.update_of_ne old _ _)
    · exact counted.construct fresh

/-- What `x`, the value of a variable, refers to is still there. -/
def Live (s : State σ ω) (x : Ptr) : Prop :=
  ∀ b, x.pn = some b → 0 < holders s.owners s.watchers b

theorem live_shared (hr : s.shared r = some x) : Live s x := by
  intro b refers
  have owned := owners_pos hr b refers
  rw [holders, if_neg (by omega)]
  omega

theorem live_weak (hq : s.weak q = some x) : Live s x := by
  intro b refers
  have watched := watchers_pos hq b refers
  rw [holders]
  omega

section

variable [DecidableEq σ]

/-- Placing the temporary in a variable without a reference. -/
theorem Held.place (h : Held s x.pn) (empty : count (s.shared v) = none) :
    Settled (s.setShared v (some x)) := by
  have owners := owners_setShared (s := s) (v := v) (some x)
  rw [empty, one_none_eq, add_zero, count_some] at owners
  have counted := h.counted
  rw [← owners] at counted
  exact ⟨counted⟩

/-- The variable takes the temporary and the old reference is released. -/
theorem Held.swapIn (h : Held s tmp.pn) (hv : (s.shared v).isSome) :
    ∃ s', s.swapIn tmp v = .ok s' ∧ Kept s.memory s'.memory ∧ Settled s' := by
  obtain ⟨x, hv⟩ := Option.isSome_iff_exists.mp hv
  have owners := owners_setShared (s := s) (v := v) (some tmp)
  rw [hv, count_some, count_some] at owners
  have counted := h.counted
  rw [← owners] at counted
  obtain ⟨m, released, kept, settled⟩ := SharedCount.destruct_ok counted
  refine ⟨{ s.setShared v (some tmp) with memory := m }, ?_, kept, ⟨settled⟩⟩
  have read : s.getShared v = .ok x := by simp only [getShared, hv]
  have released' : SharedCount.destruct (s.setShared v (some tmp)).memory x.pn = .ok m := released
  simp only [State.swapIn, read, released', bind, Except.bind]
  rfl

theorem Settled.move (h : Settled s) (hr : s.shared r = some x) :
    s.move r = .ok (s.setShared r (some { px := none, pn := none }), x) ∧
      Held (s.setShared r (some { px := none, pn := none })) x.pn := by
  refine ⟨?_, ?_⟩
  · have read : s.getShared r = .ok x := by simp only [getShared, hr]
    simp only [State.move, read, bind, Except.bind]
    rfl
  · have owners := owners_setShared (s := s) (v := r) (some { px := none, pn := none })
    rw [hr, count_some, count_some, one_none_eq, add_zero] at owners
    have counted := h.counted
    rw [← owners] at counted
    exact ⟨counted⟩

theorem Settled.destruct (h : Settled s) (hv : s.shared v = some x) :
    ∃ s', s.destruct v = .ok s' ∧ Kept s.memory s'.memory ∧ Settled s' := by
  have owners := owners_setShared (s := s) (v := v) none
  rw [hv, count_some, count_none, one_none_eq, add_zero] at owners
  have counted := h.counted
  rw [← owners] at counted
  obtain ⟨m, released, kept, settled⟩ := SharedCount.destruct_ok counted
  refine ⟨{ s with memory := m }.setShared v none, ?_, kept, ⟨settled⟩⟩
  have read : s.getShared v = .ok x := by simp only [getShared, hv]
  simp only [State.destruct, read, released, bind, Except.bind]
  rfl

end

section

variable [DecidableEq ω]

theorem Settled.weakCopy (h : Settled s) (live : Live s x) (hu : s.weak u = none) :
    ∃ s', s.weakCopy x u = .ok s' ∧ Kept s.memory s'.memory ∧ Settled s' := by
  obtain ⟨m, copied, kept, counted⟩ := WeakCount.copy_ok h.counted live
  have watchers := watchers_setWeak (s := s) (u := u) (some { px := x.px, pn := x.pn })
  rw [hu, count_none, one_none_eq, add_zero, count_some] at watchers
  rw [← watchers] at counted
  refine ⟨{ s with memory := m }.setWeak u (some { px := x.px, pn := x.pn }), ?_, kept, ⟨counted⟩⟩
  simp only [State.weakCopy, copied, bind, Except.bind]
  rfl

theorem Settled.weakAssign (h : Settled s) (live : Live s x) (hu : s.weak u = some tmp) :
    ∃ s', s.weakAssign x u = .ok s' ∧ Kept s.memory s'.memory ∧ Settled s' := by
  have without := watchers_setWeak (s := s) (u := u) none
  have replaced := watchers_setWeak (s := s) (u := u) (some { px := x.px, pn := x.pn })
  rw [hu, count_some, count_none, one_none_eq, add_zero] at without
  rw [hu, count_some, count_some, ← without, add_right_comm] at replaced
  have counted := h.counted
  rw [← without] at counted
  obtain ⟨m, assigned, kept, settled⟩ := WeakCount.assign_ok counted (d := x.pn) (by
    intro b refers
    rw [without]
    exact live b refers)
  rw [← add_right_cancel replaced] at settled
  refine ⟨{ s with memory := m }.setWeak u (some { px := x.px, pn := x.pn }), ?_, kept, ⟨settled⟩⟩
  have read : s.getWeak u = .ok tmp := by simp only [getWeak, hu]
  simp only [State.weakAssign, read, assigned, bind, Except.bind]
  rfl

theorem Settled.weakDestruct (h : Settled s) (hu : s.weak u = some x) :
    ∃ s', s.weakDestruct u = .ok s' ∧ Kept s.memory s'.memory ∧ Settled s' := by
  have watchers := watchers_setWeak (s := s) (u := u) none
  rw [hu, count_some, count_none, one_none_eq, add_zero] at watchers
  have counted := h.counted
  rw [← watchers] at counted
  obtain ⟨m, released, kept, settled⟩ := WeakCount.destruct_ok counted
  refine ⟨{ s with memory := m }.setWeak u none, ?_, kept, ⟨settled⟩⟩
  have read : s.getWeak u = .ok x := by simp only [getWeak, hu]
  simp only [State.weakDestruct, read, released, bind, Except.bind]
  rfl

theorem Settled.weakDefault (h : Settled s) (hu : s.weak u = none) :
    Settled (s.setWeak u (some { px := none, pn := none })) := by
  have watchers := watchers_setWeak (s := s) (u := u) (some { px := none, pn := none })
  rw [hu, count_some, count_none, one_none_eq, add_zero, add_zero] at watchers
  have counted := h.counted
  rw [← watchers] at counted
  exact ⟨counted⟩

end

theorem Settled.held (h : Settled s) : Held s none := by
  refine ⟨?_⟩
  rw [one_none_eq, add_zero]
  exact h.counted

theorem settled_initial (block : ℕ → Block) : Settled (initial σ ω block) := by
  have owners : (initial σ ω block).owners = fun _ => 0 := by
    funext b
    exact census_eq_zero.mpr fun v => rfl
  have watchers : (initial σ ω block).watchers = fun _ => 0 := by
    funext b
    exact census_eq_zero.mpr fun v => rfl
  refine ⟨?_⟩
  rw [owners, watchers]
  refine ⟨?_, ?_, ?_, ?_, fun _ _ => rfl, fun _ _ => ⟨rfl, List.not_mem_nil⟩, ?_, ?_, ?_⟩ <;>
  · rintro b ⟨⟩

/-- The accounting after every step of a program. -/
structure Accounting (s : State σ ω) : Prop where
  useCount : ∀ b < s.memory.made, (s.memory.block b).useCount = s.owners b
  weakCount : ∀ b < s.memory.made, (s.memory.block b).weakCount =
    s.watchers b + if (s.memory.block b).useCount > 0 then 1 else 0
  deleted : ∀ b < s.memory.made,
    s.memory.deleted.count (s.memory.block b).px = if s.owners b = 0 then 1 else 0
  destroyed : ∀ b < s.memory.made,
    s.memory.destroyed.count b = if s.owners b = 0 ∧ s.watchers b = 0 then 1 else 0

theorem Settled.accounted (h : Settled s) : Accounting s where
  useCount := h.counted.use
  weakCount b hb := by
    rw [h.counted.weak b hb, h.counted.use b hb, holders]
    by_cases unowned : s.owners b = 0
    · simp [unowned]
    · rw [if_neg unowned, if_pos (by omega)]
      omega
  deleted := h.counted.deleted
  destroyed b hb := by
    rw [h.counted.destroyed b hb, holders]
    by_cases unowned : s.owners b = 0
    · simp [unowned]
    · rw [if_neg unowned, if_neg (by omega), if_neg (by omega)]

variable [DecidableEq σ] [DecidableEq ω]

/-- Every member function succeeds on the variables it may be called on and keeps the
counters right. -/
theorem Settled.act (h : Settled s) {a : Action σ ω} (proper : s.proper a) :
    ∃ s', s.act a = .ok s' ∧ Kept s.memory s'.memory ∧ Settled s' := by
  cases a with
  | default v =>
    have empty : s.shared v = none := by simpa [State.proper] using proper
    have placed : Settled (s.setShared v (some { px := none, pn := none })) :=
      Held.place h.held (by rw [empty, count_none])
    exact ⟨_, rfl, Kept.refl s.memory, placed⟩
  | construct v throws =>
    have empty : s.shared v = none := by simpa [State.proper] using proper
    obtain ⟨s₁, tmp, made, shared, kept, held⟩ := h.construct throws
    cases tmp with
    | none =>
      refine ⟨s₁, ?_, kept, held⟩
      simp only [State.act, made]
      rfl
    | some tmp =>
      refine ⟨s₁.setShared v (some tmp), ?_, kept, held.place ?_⟩
      · simp only [State.act, made]
        rfl
      · rw [shared, empty, count_none]
  | copy v r =>
    obtain ⟨empty, source⟩ : s.shared v = none ∧ (s.shared r).isSome := by
      simpa [State.proper] using proper
    obtain ⟨x, hr⟩ := Option.isSome_iff_exists.mp source
    obtain ⟨m, copied, kept, held⟩ := h.copy hr Ptr.px
    refine ⟨{ s with memory := m }.setShared v (some { px := x.px, pn := x.pn }), ?_, kept,
      Held.place held ?_⟩
    · simp only [State.act, copied, bind, Except.bind]
      rfl
    · simp only [empty, count_none]
  | move v r =>
    obtain ⟨empty, source⟩ : s.shared v = none ∧ (s.shared r).isSome := by
      simpa [State.proper] using proper
    obtain ⟨x, hr⟩ := Option.isSome_iff_exists.mp source
    obtain ⟨moved, held⟩ := h.move hr
    have apart : v ≠ r := by
      rintro rfl
      rw [empty] at hr
      cases hr
    refine ⟨(s.setShared r (some { px := none, pn := none })).setShared v (some x), ?_,
      Kept.refl s.memory, held.place ?_⟩
    · simp only [State.act, moved, bind, Except.bind]
      rfl
    · simp only [setShared, Function.update_of_ne apart, empty, count_none]
  | aliasing v r p =>
    obtain ⟨empty, source⟩ : s.shared v = none ∧ (s.shared r).isSome := by
      simpa [State.proper] using proper
    obtain ⟨x, hr⟩ := Option.isSome_iff_exists.mp source
    obtain ⟨m, copied, kept, held⟩ := h.copy hr fun _ => p
    have held : Held { s with memory := m } (Ptr.mk p x.pn).pn := held
    refine ⟨{ s with memory := m }.setShared v (some { px := p, pn := x.pn }), ?_, kept,
      held.place ?_⟩
    · simp only [State.act, copied, bind, Except.bind]
      rfl
    · simp only [empty, count_none]
  | assign v r =>
    obtain ⟨target, source⟩ : (s.shared v).isSome ∧ (s.shared r).isSome := by
      simpa [State.proper] using proper
    obtain ⟨x, hr⟩ := Option.isSome_iff_exists.mp source
    obtain ⟨m, copied, kept, held⟩ := h.copy hr Ptr.px
    have held : Held { s with memory := m } (Ptr.mk x.px x.pn).pn := held
    obtain ⟨s', swapped, kept', settled⟩ := held.swapIn target
    refine ⟨s', ?_, kept.trans kept', settled⟩
    simp only [State.act, copied, bind, Except.bind]
    exact swapped
  | moveAssign v r =>
    obtain ⟨target, source⟩ : (s.shared v).isSome ∧ (s.shared r).isSome := by
      simpa [State.proper] using proper
    obtain ⟨x, hr⟩ := Option.isSome_iff_exists.mp source
    obtain ⟨moved, held⟩ := h.move hr
    have still : ((s.setShared r (some { px := none, pn := none })).shared v).isSome := by
      by_cases itself : v = r
      · simp [setShared, itself]
      · simp [setShared, itself, target]
    obtain ⟨s', swapped, kept, settled⟩ := held.swapIn still
    refine ⟨s', ?_, kept, settled⟩
    simp only [State.act, moved, bind, Except.bind]
    exact swapped
  | reset v throws =>
    have target : (s.shared v).isSome := proper
    obtain ⟨s₁, tmp, made, shared, kept, held⟩ := h.construct throws
    cases tmp with
    | none =>
      refine ⟨s₁, ?_, kept, held⟩
      simp only [State.act, made]
      rfl
    | some tmp =>
      rw [← shared] at target
      obtain ⟨s', swapped, kept', settled⟩ := held.swapIn target
      refine ⟨s', ?_, kept.trans kept', settled⟩
      simp only [State.act, made]
      exact swapped
  | destruct v =>
    obtain ⟨x, hv⟩ := Option.isSome_iff_exists.mp proper
    exact h.destruct hv
  | weakDefault v =>
    have empty : s.weak v = none := by simpa [State.proper] using proper
    exact ⟨_, rfl, Kept.refl s.memory, h.weakDefault empty⟩
  | weakCopy v r =>
    obtain ⟨empty, source⟩ : s.weak v = none ∧ (s.weak r).isSome := by
      simpa [State.proper] using proper
    obtain ⟨x, hr⟩ := Option.isSome_iff_exists.mp source
    have read : s.getWeak r = .ok x := by simp only [getWeak, hr]
    simp only [State.act, read, bind, Except.bind]
    exact h.weakCopy (live_weak hr) empty
  | weakShared v r =>
    obtain ⟨empty, source⟩ : s.weak v = none ∧ (s.shared r).isSome := by
      simpa [State.proper] using proper
    obtain ⟨x, hr⟩ := Option.isSome_iff_exists.mp source
    have read : s.getShared r = .ok x := by simp only [getShared, hr]
    simp only [State.act, read, bind, Except.bind]
    exact h.weakCopy (live_shared hr) empty
  | weakAssign v r =>
    obtain ⟨target, source⟩ : (s.weak v).isSome ∧ (s.weak r).isSome := by
      simpa [State.proper] using proper
    obtain ⟨old, hv⟩ := Option.isSome_iff_exists.mp target
    obtain ⟨x, hr⟩ := Option.isSome_iff_exists.mp source
    have read : s.getWeak r = .ok x := by simp only [getWeak, hr]
    simp only [State.act, read, bind, Except.bind]
    exact h.weakAssign (live_weak hr) hv
  | weakAssignShared v r =>
    obtain ⟨target, source⟩ : (s.weak v).isSome ∧ (s.shared r).isSome := by
      simpa [State.proper] using proper
    obtain ⟨old, hv⟩ := Option.isSome_iff_exists.mp target
    obtain ⟨x, hr⟩ := Option.isSome_iff_exists.mp source
    have read : s.getShared r = .ok x := by simp only [getShared, hr]
    simp only [State.act, read, bind, Except.bind]
    exact h.weakAssign (live_shared hr) hv
  | weakDestruct v =>
    obtain ⟨x, hv⟩ := Option.isSome_iff_exists.mp proper
    exact h.weakDestruct hv

theorem settled (h : (machine σ ω).ReachableBy (fun s a => s.proper a) s) : Settled s := by
  refine h.invariant Settled (fun s start => ?_) fun s a s' hs proper next => ?_
  · rw [show s = initial σ ω s.memory.block from start]
    exact settled_initial _
  · obtain ⟨s₁, called, -, settled⟩ := hs.act proper
    have made : (s.act a).toOption = some s' := next
    rw [called] at made
    exact Option.some.inj made ▸ settled

/-- After every step of every program the counters of each block are the numbers of its
owners and watchers; the next step exists, and deletes the object of a block exactly if it
takes the last owner away. -/
theorem accounting (h : (machine σ ω).ReachableBy (fun s a => s.proper a) s) :
    Accounting s ∧ ∀ a, s.proper a → ∃ s', s.act a = .ok s' ∧ Accounting s' ∧
      ∀ b < s.memory.made, (s'.memory.block b).px = (s.memory.block b).px ∧
        (s'.memory.deleted.count (s.memory.block b).px ≠
            s.memory.deleted.count (s.memory.block b).px ↔
          s.owners b ≠ 0 ∧ s'.owners b = 0) := by
  have before := settled h
  refine ⟨before.accounted, fun a proper => ?_⟩
  obtain ⟨s', called, kept, after⟩ := before.act proper
  refine ⟨s', called, after.accounted, fun b hb => ⟨kept.px b hb, ?_⟩⟩
  have deletedAfter := after.counted.deleted b (Nat.lt_of_lt_of_le hb kept.made)
  rw [kept.px b hb] at deletedAfter
  have grown := kept.deleted.sublist.count_le (s.memory.block b).px
  rw [deletedAfter, before.counted.deleted b hb] at grown ⊢
  by_cases unowned : s.owners b = 0
  · rw [if_pos unowned] at grown ⊢
    by_cases unowned' : s'.owners b = 0
    · simp [unowned, unowned']
    · rw [if_neg unowned'] at grown
      omega
  · by_cases unowned' : s'.owners b = 0
    · simp [unowned, unowned']
    · simp [unowned, unowned']

/-- Two owners and a watcher of one block: one owner is assigned to itself and moved from,
the other reset. -/
theorem accounting_reset : ∃ s : State (Fin 2) (Fin 1),
    s.memory.made = 2 ∧ s.memory.deleted = [0] ∧ s.memory.destroyed = [] ∧ Accounting s ∧
    ∀ a, s.proper a → ∃ s', s.act a = .ok s' ∧ Accounting s' ∧
      ∀ b < s.memory.made, (s'.memory.block b).px = (s.memory.block b).px ∧
        (s'.memory.deleted.count (s.memory.block b).px ≠
            s.memory.deleted.count (s.memory.block b).px ↔
          s.owners b ≠ 0 ∧ s'.owners b = 0) := by
  let start := initial (Fin 2) (Fin 1) fun _ => { useCount := 0, weakCount := 0, px := 0 }
  have ran : ((machine (Fin 2) (Fin 1)).runBy (fun s a => s.proper a) start
      [.construct 0 false, .copy 1 0, .weakShared 0 1, .assign 0 0, .moveAssign 1 0,
        .reset 1 false]).map (fun s => (s.memory.made, s.memory.deleted, s.memory.destroyed)) =
      some (2, [0], []) := by decide +kernel
  obtain ⟨s, run, result⟩ := Option.map_eq_some_iff.mp ran
  simp only [Prod.mk.injEq] at result
  have begins : (machine (Fin 2) (Fin 1)).init start := rfl
  obtain ⟨account, next⟩ := accounting (Machine.runBy_reachable (.init begins) run)
  exact ⟨s, result.1, result.2.1, result.2.2, account, next⟩

end Codelab.SharedPtr
