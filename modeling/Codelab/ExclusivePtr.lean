import Codelab.Theory.Machine
import Mathlib.Data.List.Count

/-! `auto_ptr` and `unique_ptr`, which differ in what they call copying or moving and have the
same bodies: variables of one program that hold at most one object each. Objects are numbered in
the order of their making. -/

namespace Codelab.ExclusivePtr

/-- `ptr v` is the member `ptr_` of `v`, and `none` a variable outside its lifetime. `loose` are
the objects that `release` has handed to the program and no variable has been given since. -/
structure State (ν : Type) where
  ptr : ν → Option (Option ℕ)
  objects : ℕ
  deleted : List ℕ
  loose : List ℕ

/-- The pointer a program passes to a constructor or to `reset`. -/
inductive Source
  | null
  | fresh
  | adopted (o : ℕ)
  deriving DecidableEq

/-- `copy v a` and `assign v a` are the constructor and the assignment of `v` from `a`, and
`resetOwn` is `reset` with the variable's own pointer. -/
inductive Action (ν : Type)
  | construct (v : ν) (p : Source)
  | copy (v a : ν)
  | assign (v a : ν)
  | reset (v : ν) (p : Source)
  | resetOwn (v : ν)
  | release (v : ν)
  | destruct (v : ν)

variable {ν : Type} [DecidableEq ν]

namespace State

def set (s : State ν) (v : ν) (p : Option ℕ) : State ν :=
  { s with ptr := Function.update s.ptr v (some p) }

/-- `delete p`, which is nothing for a null pointer. -/
def delete (s : State ν) (p : Option ℕ) : State ν :=
  { s with deleted := p.toList ++ s.deleted }

def release (s : State ν) (v : ν) : Option (State ν × Option ℕ) := do
  let tmp ← s.ptr v
  pure (s.set v none, tmp)

def reset (s : State ν) (v : ν) (p : Option ℕ) : Option (State ν) := do
  let q ← s.ptr v
  if p ≠ q then pure ((s.delete q).set v p) else pure s

def construct (s : State ν) (v : ν) (p : Option ℕ) : Option (State ν) :=
  if s.ptr v = none then some (s.set v p) else none

/-- The constructor from another variable. -/
def copy (s : State ν) (v a : ν) : Option (State ν) := do
  let (s, p) ← s.release a
  s.construct v p

def assign (s : State ν) (v a : ν) : Option (State ν) := do
  let (s, p) ← s.release a
  s.reset v p

def destruct (s : State ν) (v : ν) : Option (State ν) := do
  let p ← s.ptr v
  pure { s.delete p with ptr := Function.update s.ptr v none }

/-- The program gets hold of a pointer to pass on. -/
def argument (s : State ν) : Source → Option (State ν × Option ℕ)
  | .null => some (s, none)
  | .fresh => some ({ s with objects := s.objects + 1 }, some s.objects)
  | .adopted o =>
    if o ∈ s.loose then some ({ s with loose := s.loose.erase o }, some o) else none

def act (s : State ν) : Action ν → Option (State ν)
  | .construct v p => do
    let (s, p) ← s.argument p
    s.construct v p
  | .copy v a => s.copy v a
  | .assign v a => s.assign v a
  | .reset v p => do
    let (s, p) ← s.argument p
    s.reset v p
  | .resetOwn v => do
    let p ← s.ptr v
    s.reset v p
  | .release v => do
    let (s, p) ← s.release v
    pure { s with loose := p.toList ++ s.loose }
  | .destruct v => s.destruct v

end State

def initial (ν : Type) : State ν where
  ptr _ := none
  objects := 0
  deleted := []
  loose := []

def machine (ν : Type) [DecidableEq ν] : Machine (State ν) (Action ν) where
  init s := s = initial ν
  next := State.act

def State.Holds (s : State ν) (v : ν) (o : ℕ) : Prop := s.ptr v = some (some o)

open Classical in
/-- Whether a variable holds the object. -/
noncomputable def State.held (s : State ν) (o : ℕ) : ℕ := if ∃ v, s.Holds v o then 1 else 0

/-- Every object made is in one place: with a variable, in the hand of a member function, loose
or deleted. -/
structure Inv (s : State ν) (hand : Option ℕ) : Prop where
  single : ∀ v w o, s.Holds v o → s.Holds w o → v = w
  once : ∀ o, s.held o + hand.toList.count o + s.loose.count o + s.deleted.count o =
    if o < s.objects then 1 else 0

variable {s s' : State ν} {v a : ν} {o : ℕ} {p q hand : Option ℕ}

omit [DecidableEq ν] in
theorem inv_initial : Inv (initial ν) none where
  single := by rintro v w o ⟨⟩
  once o := by
    have none : ¬ ∃ v, (initial ν).Holds v o := by rintro ⟨v, ⟨⟩⟩
    have unmade : ¬ o < (initial ν).objects := Nat.not_lt_zero o
    rw [State.held, if_neg none, if_neg unmade]
    rfl

omit [DecidableEq ν] in
theorem State.Holds.held (h : s.Holds v o) : s.held o = 1 := if_pos ⟨v, h⟩

omit [DecidableEq ν] in
theorem State.held_eq_zero (free : ∀ v, ¬ s.Holds v o) : s.held o = 0 :=
  if_neg fun ⟨v, holds⟩ => free v holds

omit [DecidableEq ν] in
theorem State.held_congr (same : (∃ v, s'.Holds v o) ↔ ∃ v, s.Holds v o) :
    s'.held o = s.held o := by
  rw [State.held, State.held, propext same]

theorem count_some (r o : ℕ) : (some r).toList.count o = if r = o then 1 else 0 := by
  simp [List.count_singleton]

theorem count_join (x : Option (Option ℕ)) (o : ℕ) :
    x.join.toList.count o = if x = some (some o) then 1 else 0 := by
  rcases x with _ | _ | p
  · rfl
  · rfl
  · simp [List.count_singleton]

/-- One variable changes; what it gets is held by no other one. -/
theorem State.held_update (single : ∀ v w o, s.Holds v o → s.Holds w o → v = w)
    {x : Option (Option ℕ)} (ptr : s'.ptr = Function.update s.ptr v x)
    (free : ∀ o, x = some (some o) → ∀ w, w ≠ v → ¬ s.Holds w o) (o : ℕ) :
    s'.held o + (s.ptr v).join.toList.count o = s.held o + x.join.toList.count o := by
  have self : s'.Holds v o ↔ x = some (some o) := by
    rw [State.Holds, ptr, Function.update_self]
  have other (w : ν) (apart : w ≠ v) : s'.Holds w o ↔ s.Holds w o := by
    rw [State.Holds, ptr, Function.update_of_ne apart, State.Holds]
  rw [count_join, count_join]
  by_cases new : x = some (some o) <;> by_cases old : s.ptr v = some (some o)
  · rw [(self.mpr new).held, State.Holds.held old, if_pos new, if_pos old]
  · have before : s.held o = 0 := by
      refine State.held_eq_zero fun w holds => ?_
      by_cases same : w = v
      · exact old (same ▸ holds)
      · exact free o new w same holds
    rw [(self.mpr new).held, before, if_pos new, if_neg old]
  · have after : s'.held o = 0 := by
      refine State.held_eq_zero fun w holds => ?_
      by_cases same : w = v
      · exact new (self.mp (same ▸ holds))
      · exact same (single w v o ((other w same).mp holds) old)
    rw [State.Holds.held old, after, if_neg new, if_pos old]
  · rw [if_neg new, if_neg old]
    refine congrArg (· + 0) (State.held_congr ⟨fun ⟨w, holds⟩ => ?_, fun ⟨w, holds⟩ => ?_⟩)
    · by_cases same : w = v
      · exact absurd (self.mp (same ▸ holds)) new
      · exact ⟨w, (other w same).mp holds⟩
    · by_cases same : w = v
      · exact absurd (same ▸ holds) old
      · exact ⟨w, (other w same).mpr holds⟩

theorem State.single_update (single : ∀ v w o, s.Holds v o → s.Holds w o → v = w)
    {x : Option (Option ℕ)} (ptr : s'.ptr = Function.update s.ptr v x)
    (free : ∀ o, x = some (some o) → ∀ w, w ≠ v → ¬ s.Holds w o) :
    ∀ u w o, s'.Holds u o → s'.Holds w o → u = w := by
  have cases' (u : ν) (o : ℕ) (holds : s'.Holds u o) :
      u = v ∧ x = some (some o) ∨ u ≠ v ∧ s.Holds u o := by
    rw [State.Holds, ptr] at holds
    by_cases same : u = v
    · rw [same, Function.update_self] at holds
      exact .inl ⟨same, holds⟩
    · rw [Function.update_of_ne same] at holds
      exact .inr ⟨same, holds⟩
  intro u w o hu hw
  rcases cases' u o hu with ⟨rfl, new⟩ | ⟨apart, old⟩
  · rcases cases' w o hw with ⟨rfl, -⟩ | ⟨apart, old⟩
    · rfl
    · exact absurd old (free o new w apart)
  · rcases cases' w o hw with ⟨rfl, new⟩ | ⟨-, old'⟩
    · exact absurd old (free o new u apart)
    · exact single u w o old old'

omit [DecidableEq ν] in
/-- What is in the hand is held by no variable. -/
theorem Inv.hand_free (h : Inv s (some o)) (w : ν) : ¬ s.Holds w o := by
  intro holds
  have once := h.once o
  rw [holds.held, Option.toList_some, List.count_singleton_self] at once
  split at once <;> omega

/-- A variable changes; what it gets was in the hand, and nothing gets lost. -/
theorem Inv.update (h : Inv s p) {x : Option (Option ℕ)}
    (ptr : s'.ptr = Function.update s.ptr v x) (objects : s'.objects = s.objects)
    (given : ∀ o, x = some (some o) → p = some o)
    (balance : ∀ o, x.join.toList.count o + q.toList.count o + s'.loose.count o +
      s'.deleted.count o = (s.ptr v).join.toList.count o + p.toList.count o + s.loose.count o +
      s.deleted.count o) : Inv s' q where
  single := by
    refine State.single_update h.single ptr fun o new w _ => ?_
    exact (given o new ▸ h).hand_free w
  once o := by
    have held := State.held_update h.single ptr
      (fun o new w _ => (given o new ▸ h).hand_free w) o
    have once := h.once o
    have balance := balance o
    rw [objects]
    omega

omit [DecidableEq ν] in
theorem Inv.argument (h : Inv s none) {src : Source} (run : s.argument src = some (s', p)) :
    Inv s' p := by
  cases src with
  | null =>
    simp only [State.argument, Option.some.injEq, Prod.mk.injEq] at run
    obtain ⟨rfl, rfl⟩ := run
    exact h
  | fresh =>
    simp only [State.argument, Option.some.injEq, Prod.mk.injEq] at run
    obtain ⟨rfl, rfl⟩ := run
    refine ⟨h.single, fun o => ?_⟩
    have once := h.once o
    change s.held o + (some s.objects).toList.count o + s.loose.count o + s.deleted.count o =
      if o < s.objects + 1 then 1 else 0
    rw [count_some]
    rw [Option.toList_none, List.count_nil] at once
    split_ifs at once ⊢ <;> omega
  | adopted r =>
    simp only [State.argument, Option.ite_none_right_eq_some, Option.some.injEq,
      Prod.mk.injEq] at run
    obtain ⟨mem, rfl, rfl⟩ := run
    refine ⟨h.single, fun o => ?_⟩
    have once := h.once o
    change s.held o + (some r).toList.count o + (s.loose.erase r).count o + s.deleted.count o =
      if o < s.objects then 1 else 0
    rw [count_some]
    rw [Option.toList_none, List.count_nil] at once
    by_cases same : r = o
    · subst same
      have here := List.count_pos_iff.mpr mem
      rw [if_pos rfl, List.count_erase_self]
      omega
    · rw [if_neg same, List.count_erase_of_ne (Ne.symm same)]
      exact once

theorem Inv.release (h : Inv s none) (run : s.release v = some (s', p)) : Inv s' p := by
  obtain ⟨tmp, old, run⟩ := Option.bind_eq_some_iff.mp run
  simp only [Option.pure_def, Option.some.injEq, Prod.mk.injEq] at run
  obtain ⟨rfl, rfl⟩ := run
  refine h.update (x := some none) rfl rfl (by simp) fun o => ?_
  rw [old]
  simp [State.set]

theorem Inv.construct (h : Inv s p) (run : s.construct v p = some s') : Inv s' none := by
  rw [State.construct, Option.ite_none_right_eq_some, Option.some.injEq] at run
  obtain ⟨dead, rfl⟩ := run
  refine h.update (x := some p) rfl rfl (by simp) fun o => ?_
  rw [dead]
  simp [State.set]

theorem Inv.reset (h : Inv s p) (run : s.reset v p = some s') : Inv s' none := by
  obtain ⟨q, old, run⟩ := Option.bind_eq_some_iff.mp run
  split_ifs at run with differ
  · obtain rfl := Option.some.inj run
    refine h.update (x := some p) rfl rfl (by simp) fun o => ?_
    rw [old]
    simp [State.set, State.delete, List.count_append]
    omega
  · obtain rfl := Option.some.inj run
    obtain rfl : p = q := not_not.mp differ
    -- The pointer in the hand is the variable's own only if both are null.
    cases p with
    | none => exact h
    | some o => exact absurd old (h.hand_free v)

theorem Inv.destruct (h : Inv s none) (run : s.destruct v = some s') : Inv s' none := by
  obtain ⟨p, old, run⟩ := Option.bind_eq_some_iff.mp run
  obtain rfl := Option.some.inj run
  refine h.update (x := none) rfl rfl (by simp) fun o => ?_
  rw [old]
  simp [State.delete, List.count_append]
  omega

theorem Inv.act (h : Inv s none) {a : Action ν} (run : s.act a = some s') : Inv s' none := by
  cases a with
  | construct v src =>
    obtain ⟨⟨mid, p⟩, given, run⟩ := Option.bind_eq_some_iff.mp run
    exact (h.argument given).construct run
  | copy v a =>
    obtain ⟨⟨mid, p⟩, given, run⟩ := Option.bind_eq_some_iff.mp run
    exact (h.release given).construct run
  | assign v a =>
    obtain ⟨⟨mid, p⟩, given, run⟩ := Option.bind_eq_some_iff.mp run
    exact (h.release given).reset run
  | reset v src =>
    obtain ⟨⟨mid, p⟩, given, run⟩ := Option.bind_eq_some_iff.mp run
    exact (h.argument given).reset run
  | resetOwn v =>
    obtain ⟨p, old, run⟩ := Option.bind_eq_some_iff.mp run
    rw [State.reset, old] at run
    obtain rfl : s = s' := by simpa using run
    exact h
  | release v =>
    obtain ⟨⟨mid, p⟩, given, run⟩ := Option.bind_eq_some_iff.mp run
    obtain rfl := Option.some.inj run
    have kept := h.release given
    refine ⟨kept.single, fun o => ?_⟩
    rw [← kept.once o]
    change mid.held o + _ + _ + _ = _
    simp [List.count_append]
    omega
  | destruct v => exact h.destruct run

theorem inv_reachable (h : (machine ν).Reachable s) : Inv s none :=
  h.invariant (Inv · none) (fun _ start => start ▸ inv_initial)
    fun _ _ _ kept run => kept.act run

/-- No two variables hold one object, no object is deleted twice or while a variable holds it, and
once all variables are gone just the objects that are still loose have not been deleted. -/
theorem deletes_once (h : (machine ν).Reachable s) :
    (∀ v w o, s.Holds v o → s.Holds w o → v = w) ∧ s.deleted.Nodup ∧
      (∀ v o, s.Holds v o → o ∉ s.deleted) ∧
      ((∀ v, s.ptr v = none) → ∀ o < s.objects,
        s.deleted.count o = if o ∈ s.loose then 0 else 1) := by
  have inv := inv_reachable h
  have most (o : ℕ) : s.held o + s.loose.count o + s.deleted.count o =
      if o < s.objects then 1 else 0 := by
    simpa using inv.once o
  refine ⟨inv.single, List.nodup_iff_count.mpr fun o => ?_, fun v o holds mem => ?_,
    fun gone o made => ?_⟩
  · have most := most o
    split at most <;> omega
  · have most := most o
    have some := List.count_pos_iff.mpr mem
    rw [holds.held] at most
    split at most <;> omega
  · have most := most o
    have free (v : ν) : ¬ s.Holds v o := by simp [State.Holds, gone v]
    rw [State.held_eq_zero free, if_pos made] at most
    split_ifs with mem
    · have some := List.count_pos_iff.mpr mem
      omega
    · have none := List.count_eq_zero.mpr mem
      omega

/-- An object is assigned to its own holder, reset to itself, released and adopted again; another
one is released for good. -/
theorem deletes_once_program : ∃ s : State Bool, s.objects = 2 ∧ s.loose = [1] ∧
    s.deleted.Nodup ∧ s.deleted.count 0 = 1 := by
  have ran : ((machine Bool).run (initial Bool) [.construct true .fresh, .copy false true,
      .assign false false, .resetOwn false, .release false, .reset true (.adopted 0),
      .reset false .fresh, .release false, .destruct true, .destruct false]).map
      (fun s => (s.ptr true, s.ptr false, s.objects, s.loose)) = some (none, none, 2, [1]) := by
    decide
  obtain ⟨s, run, seen⟩ := Option.map_eq_some_iff.mp ran
  simp only [Prod.mk.injEq] at seen
  obtain ⟨first, second, objects, loose⟩ := seen
  have start : (machine Bool).init (initial Bool) := rfl
  obtain ⟨-, nodup, -, all⟩ := deletes_once (Machine.run_reachable (.init start) run)
  have gone (v : Bool) : s.ptr v = none := by
    cases v with
    | false => exact second
    | true => exact first
  refine ⟨s, objects, loose, nodup, ?_⟩
  rw [all gone 0 (by omega), loose]
  rfl

end Codelab.ExclusivePtr
