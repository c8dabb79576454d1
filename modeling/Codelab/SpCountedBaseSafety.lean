import Codelab.SpCountedBase
import Mathlib.Tactic.Linarith

/-! The counters of `sp_counted_base` against the references of all threads. The strong
references hold one weak count together; from the release of the last of them until
`weak_release` it belongs to the thread that runs `dispose`. -/

namespace Codelab.SpCountedBase

open Census

section

variable {c : Counter}

theorem toNat_succ (room : c.toNat + 1 < 2 ^ 32) : (c + 1).toNat = c.toNat + 1 := by
  rw [BitVec.toNat_add]
  exact Nat.mod_eq_of_lt room

theorem toNat_pred (positive : 0 < c.toNat) : (c - 1).toNat = c.toNat - 1 := by
  bv_omega

theorem eq_one_iff : c = 1 ↔ c.toNat = 1 := by
  bv_omega

theorem eq_zero_iff : c = 0 ↔ c.toNat = 0 := by
  bv_omega

end

namespace Thread

variable (x : Thread)

/-- About to run `dispose`. -/
@[simp] def pending : ℕ := if x.pc = .dispose then 1 else 0

@[simp] def running : ℕ := if x.pc = .disposing then 1 else 0

/-- About to run `destroy`. -/
@[simp] def ending : ℕ := if x.pc = .destroy then 1 else 0

/-- A call in progress still has the reference that it needs. -/
def entitled : Prop :=
  match x.pc with
  | .addRefCopy => 0 < x.strong
  | .weakAddRef => 0 < x.strong + x.weak
  | .load | .test _ => 0 < x.weak
  | .compareExchange r => 0 < x.weak ∧ r ≠ 0
  | _ => True

end Thread

/-- The counters and the progress of `dispose` and `destroy`, against the numbers of strong
and of weak references and of the threads at these places. -/
structure Sound (use weak begun disposed destroyed strong watch pending running ending : ℕ) :
    Prop where
  use : use = strong
  weakOwned : strong ≠ 0 → weak = watch + 1
  weakAlone : strong = 0 → weak = watch + pending + running
  owned : strong ≠ 0 → pending = 0 ∧ running = 0 ∧ begun = 0 ∧ disposed = 0
  released : strong = 0 → pending + running + disposed = 1 ∧ begun = running + disposed
  held : weak ≠ 0 → ending = 0 ∧ destroyed = 0
  free : weak = 0 → ending + destroyed = 1

namespace Sound

variable {use weak begun disposed destroyed strong watch pending running ending : ℕ}

section

variable (h : Sound use weak begun disposed destroyed strong watch pending running ending)
include h

theorem acquire (alive : strong ≠ 0) :
    Sound (use + 1) weak begun disposed destroyed (strong + 1) watch pending running ending := by
  obtain ⟨same, weakOwned, weakAlone, owned, released, held, free⟩ := h
  constructor <;> omega

/-- A strong reference is released, and another one is left. -/
theorem release (more : 1 < strong) :
    Sound (use - 1) weak begun disposed destroyed (strong - 1) watch pending running ending := by
  obtain ⟨same, weakOwned, weakAlone, owned, released, held, free⟩ := h
  constructor <;> omega

/-- The last strong reference is released; the hidden weak one now belongs to the thread. -/
theorem release_last (last : strong = 1) :
    Sound (use - 1) weak begun disposed destroyed (strong - 1) watch (pending + 1) running
      ending := by
  obtain ⟨same, weakOwned, weakAlone, owned, released, held, free⟩ := h
  constructor <;> omega

theorem dispose (due : 0 < pending) :
    Sound use weak (begun + 1) disposed destroyed strong watch (pending - 1) (running + 1)
      ending := by
  obtain ⟨same, weakOwned, weakAlone, owned, released, held, free⟩ := h
  constructor <;> omega

/-- `dispose` ends, and the hidden weak reference becomes one to release. -/
theorem dispose_end (busy : 0 < running) :
    Sound use weak begun (disposed + 1) destroyed strong (watch + 1) pending (running - 1)
      ending := by
  obtain ⟨same, weakOwned, weakAlone, owned, released, held, free⟩ := h
  constructor <;> omega

theorem weak_acquire (alive : strong + watch ≠ 0) :
    Sound use (weak + 1) begun disposed destroyed strong (watch + 1) pending running ending := by
  obtain ⟨same, weakOwned, weakAlone, owned, released, held, free⟩ := h
  constructor <;> omega

theorem weak_release (mine : 0 < watch) (more : weak ≠ 1) :
    Sound use (weak - 1) begun disposed destroyed strong (watch - 1) pending running ending := by
  obtain ⟨same, weakOwned, weakAlone, owned, released, held, free⟩ := h
  constructor <;> omega

theorem weak_release_last (mine : 0 < watch) (last : weak = 1) :
    Sound use (weak - 1) begun disposed destroyed strong (watch - 1) pending running
      (ending + 1) := by
  obtain ⟨same, weakOwned, weakAlone, owned, released, held, free⟩ := h
  constructor <;> omega

theorem destroy (due : 0 < ending) :
    Sound use weak begun disposed (destroyed + 1) strong watch pending running (ending - 1) := by
  obtain ⟨same, weakOwned, weakAlone, owned, released, held, free⟩ := h
  constructor <;> omega

/-- The weak count is small if the references are few. -/
theorem weak_le : weak ≤ watch + 1 := by
  obtain ⟨same, weakOwned, weakAlone, owned, released, held, free⟩ := h
  omega

end

end Sound

variable {τ : Type*} [Fintype τ]

structure Inv (s : State τ) : Prop where
  sound : Sound s.useCount.toNat s.weakCount.toNat s.begun s.disposed s.destroyed
    (census s.thread Thread.strongRefs) (census s.thread Thread.weakRefs)
    (census s.thread Thread.pending) (census s.thread Thread.running)
    (census s.thread Thread.ending)
  entitled : ∀ t, (s.thread t).entitled

variable {s s' : State τ} {t : τ}

theorem Inv.strong_eq_zero (h : Inv s) : census s.thread Thread.strongRefs = 0 ↔
    census s.thread Thread.pending + s.begun = 1 := by
  obtain ⟨-, -, -, owned, released, -, -⟩ := h.sound
  omega

theorem pending_pos : 0 < census s.thread Thread.pending ↔ ∃ t, (s.thread t).pc = .dispose := by
  rw [census_pos]
  refine exists_congr fun t => ?_
  by_cases here : (s.thread t).pc = .dispose <;> simp [here]

theorem ending_pos : 0 < census s.thread Thread.ending ↔ ∃ t, (s.thread t).pc = .destroy := by
  rw [census_pos]
  refine exists_congr fun t => ?_
  by_cases here : (s.thread t).pc = .destroy <;> simp [here]

/-- While a strong reference is left, `dispose` is not even due. -/
theorem Inv.not_due (h : Inv s) (left : census s.thread Thread.strongRefs ≠ 0) :
    s.begun = 0 ∧ ∀ u, (s.thread u).pc ≠ .dispose := by
  obtain ⟨-, -, -, owned, -, -, -⟩ := h.sound
  refine ⟨(owned left).2.2.1, fun u here => ?_⟩
  have due := pending_pos.mpr ⟨u, here⟩
  have none := (owned left).1
  omega

/-- From the last `weak_release` on nothing is left to release. -/
theorem Inv.finished (h : Inv s) (last : 0 < census s.thread Thread.ending + s.destroyed) :
    s.disposed = 1 ∧ census s.thread Thread.strongRefs = 0 ∧
      census s.thread Thread.weakRefs = 0 := by
  obtain ⟨-, weakOwned, weakAlone, -, released, held, -⟩ := h.sound
  omega

theorem Inv.ended (h : Inv s) (gone : 0 < s.destroyed) (t : τ) :
    s.thread t = { pc := .idle, strong := 0, weak := 0 } := by
  obtain ⟨disposed, strong, weak⟩ := h.finished (by omega)
  obtain ⟨-, weakOwned, weakAlone, -, released, held, free⟩ := h.sound
  have noStrong := census_eq_zero.mp strong t
  have noWeak := census_eq_zero.mp weak t
  have noPending : (s.thread t).pending ≤ census s.thread Thread.pending := le_census
  have noRunning : (s.thread t).running ≤ census s.thread Thread.running := le_census
  have noEnding : (s.thread t).ending ≤ census s.thread Thread.ending := le_census
  have entitled := h.entitled t
  generalize s.thread t = x at *
  obtain ⟨pc, own, watch⟩ := x
  cases pc <;> simp [Thread.entitled] at * <;> omega

variable [DecidableEq τ]

/-- What a change of one thread does to the numbers. -/
structure Moved (f f' : τ → Thread) (x x' : Thread) : Prop where
  strong : census f' Thread.strongRefs + x.strongRefs = census f Thread.strongRefs + x'.strongRefs
  weak : census f' Thread.weakRefs + x.weakRefs = census f Thread.weakRefs + x'.weakRefs
  pending : census f' Thread.pending + x.pending = census f Thread.pending + x'.pending
  running : census f' Thread.running + x.running = census f Thread.running + x'.running
  ending : census f' Thread.ending + x.ending = census f Thread.ending + x'.ending

theorem moved (f : τ → Thread) (t : τ) (x' : Thread) :
    Moved f (Function.update f t x') (f t) x' :=
  ⟨census_update, census_update, census_update, census_update, census_update⟩

omit [Fintype τ] in
theorem entitled_update {f : τ → Thread} (h : ∀ u, (f u).entitled) {x' : Thread}
    (mine : x'.entitled) (u : τ) : (Function.update f t x' u).entitled := by
  by_cases here : u = t
  · rw [here, Function.update_self]
    exact mine
  · rw [Function.update_of_ne here]
    exact h u

/-- One thread changes, and the numbers with it. -/
theorem Inv.move (h : Inv s) {x' : Thread} {strong weak pending running ending : ℕ}
    (thread : s'.thread = Function.update s.thread t x') (mine : x'.entitled)
    (sound : Sound s'.useCount.toNat s'.weakCount.toNat s'.begun s'.disposed s'.destroyed
      strong weak pending running ending)
    (numbers : strong + (s.thread t).strongRefs =
        census s.thread Thread.strongRefs + x'.strongRefs ∧
      weak + (s.thread t).weakRefs = census s.thread Thread.weakRefs + x'.weakRefs ∧
      pending + (s.thread t).pending = census s.thread Thread.pending + x'.pending ∧
      running + (s.thread t).running = census s.thread Thread.running + x'.running ∧
      ending + (s.thread t).ending = census s.thread Thread.ending + x'.ending) : Inv s' := by
  obtain ⟨a, b, c, d, e⟩ := moved s.thread t x'
  obtain ⟨a', b', c', d', e'⟩ := numbers
  rw [← thread] at a b c d e
  obtain rfl := Nat.add_right_cancel (a'.trans a.symm)
  obtain rfl := Nat.add_right_cancel (b'.trans b.symm)
  obtain rfl := Nat.add_right_cancel (c'.trans c.symm)
  obtain rfl := Nat.add_right_cancel (d'.trans d.symm)
  obtain rfl := Nat.add_right_cancel (e'.trans e.symm)
  refine ⟨sound, fun u => ?_⟩
  rw [thread]
  exact entitled_update h.entitled mine u

/-- A step that changes no reference: its thread keeps what it has and is about to do. -/
theorem Inv.begin (h : Inv s) {x' : Thread} (strong : x'.strongRefs = (s.thread t).strongRefs)
    (weak : x'.weakRefs = (s.thread t).weakRefs) (pending : x'.pending = (s.thread t).pending)
    (running : x'.running = (s.thread t).running) (ending : x'.ending = (s.thread t).ending)
    (mine : x'.entitled) : Inv (s.set t x') := by
  refine h.move rfl mine h.sound ?_
  rw [strong, weak, pending, running, ending]
  exact ⟨rfl, rfl, rfl, rfl, rfl⟩

/-- One case for each place of the thread. -/
theorem Inv.step (h : Inv s) (few : s.references ≤ 2 ^ 31) {spurious : Bool}
    (next : s.step t spurious = some s') : Inv s' := by
  have use := h.sound.use
  have entitled := h.entitled t
  have mine : (s.thread t).strongRefs ≤ census s.thread Thread.strongRefs := le_census
  have mineWeak : (s.thread t).weakRefs ≤ census s.thread Thread.weakRefs := le_census
  have minePending : (s.thread t).pending ≤ census s.thread Thread.pending := le_census
  have mineRunning : (s.thread t).running ≤ census s.thread Thread.running := le_census
  have mineEnding : (s.thread t).ending ≤ census s.thread Thread.ending := le_census
  simp only [State.references] at few
  cases here : (s.thread t).pc with
  | idle => simp only [State.step, here, reduceCtorEq] at next
  | addRefCopy =>
    simp only [State.step, here, Option.some.injEq] at next
    subst next
    simp only [Thread.entitled, Thread.strongRefs, here] at entitled mine
    have sound := h.sound.acquire (by omega)
    rw [← toNat_succ (by omega)] at sound
    refine h.move rfl trivial sound ?_
    simp [here]
    omega
  | release =>
    simp only [Thread.strongRefs, here, if_true] at mine
    by_cases last : s.useCount = 1
    · simp only [State.step, here, if_pos last, Option.some.injEq] at next
      subst next
      have sound := h.sound.release_last (use.symm.trans (eq_one_iff.mp last))
      rw [← toNat_pred (by omega)] at sound
      refine h.move rfl trivial sound ?_
      simp [here]
      omega
    · simp only [State.step, here, if_neg last, Option.some.injEq] at next
      subst next
      rw [eq_one_iff] at last
      have sound := h.sound.release (by omega)
      rw [← toNat_pred (by omega)] at sound
      refine h.move rfl trivial sound ?_
      simp [here]
      omega
  | dispose =>
    simp only [State.step, here, Option.some.injEq] at next
    subst next
    simp only [Thread.pending, here, if_true] at minePending
    refine h.move rfl trivial (h.sound.dispose (by omega)) ?_
    simp [here]
    omega
  | disposing =>
    simp only [State.step, here, Option.some.injEq] at next
    subst next
    simp only [Thread.running, here, if_true] at mineRunning
    refine h.move rfl trivial (h.sound.dispose_end (by omega)) ?_
    simp [here]
    omega
  | weakAddRef =>
    simp only [State.step, here, Option.some.injEq] at next
    subst next
    simp only [Thread.entitled, Thread.strongRefs, Thread.weakRefs, here] at entitled mine mineWeak
    have small := h.sound.weak_le
    have sound := h.sound.weak_acquire (by omega)
    rw [← toNat_succ (by omega)] at sound
    refine h.move rfl trivial sound ?_
    simp [here]
    omega
  | weakRelease =>
    simp only [Thread.weakRefs, here, if_true] at mineWeak
    have positive : 0 < s.weakCount.toNat := by
      obtain ⟨-, weakOwned, weakAlone, -, -, -, -⟩ := h.sound
      omega
    by_cases last : s.weakCount = 1
    · simp only [State.step, here, if_pos last, Option.some.injEq] at next
      subst next
      have sound := h.sound.weak_release_last (by omega) (eq_one_iff.mp last)
      rw [← toNat_pred positive] at sound
      refine h.move rfl trivial sound ?_
      simp [here]
      omega
    · simp only [State.step, here, if_neg last, Option.some.injEq] at next
      subst next
      rw [eq_one_iff] at last
      have sound := h.sound.weak_release (by omega) last
      rw [← toNat_pred positive] at sound
      refine h.move rfl trivial sound ?_
      simp [here]
      omega
  | destroy =>
    simp only [State.step, here, Option.some.injEq] at next
    subst next
    simp only [Thread.ending, here, if_true] at mineEnding
    refine h.move rfl trivial (h.sound.destroy (by omega)) ?_
    simp [here]
    omega
  | load =>
    simp only [State.step, here, Option.some.injEq] at next
    subst next
    simp only [Thread.entitled, here] at entitled
    refine h.begin ?_ ?_ ?_ ?_ ?_ entitled <;> simp [here]
  | test r =>
    simp only [Thread.entitled, here] at entitled
    by_cases expired : r = 0
    · simp only [State.step, here, if_pos expired, Option.some.injEq] at next
      subst next
      refine h.begin ?_ ?_ ?_ ?_ ?_ trivial <;> simp [here]
    · simp only [State.step, here, if_neg expired, Option.some.injEq] at next
      subst next
      refine h.begin ?_ ?_ ?_ ?_ ?_ ⟨entitled, expired⟩ <;> simp [here]
  | compareExchange r =>
    simp only [Thread.entitled, here] at entitled
    by_cases succeeds : s.useCount = r ∧ spurious = false
    · simp only [State.step, here, if_pos succeeds, Option.some.injEq] at next
      subst next
      have alive := entitled.2
      rw [← succeeds.1, ne_eq, eq_zero_iff] at alive
      have sound := h.sound.acquire (by omega)
      rw [← toNat_succ (by omega), succeeds.1] at sound
      refine h.move rfl trivial sound ?_
      simp [here]
      omega
    · simp only [State.step, here, if_neg succeeds, Option.some.injEq] at next
      subst next
      refine h.begin ?_ ?_ ?_ ?_ ?_ entitled.1 <;> simp [here]

/-- A reference changes hands: one thread has one less and another one more. -/
theorem Inv.give (h : Inv s) {u : τ} {x y : Thread}
    (sameStrong : (s.thread t).strongRefs + (Function.update s.thread t x u).strongRefs =
      x.strongRefs + y.strongRefs)
    (sameWeak : (s.thread t).weakRefs + (Function.update s.thread t x u).weakRefs =
      x.weakRefs + y.weakRefs)
    (pc : x.pc = (s.thread t).pc) (pc' : y.pc = (Function.update s.thread t x u).pc)
    (mine : x.entitled) (its : y.entitled) : Inv ((s.set t x).set u y) := by
  obtain ⟨a, b, c, d, e⟩ := moved s.thread t x
  obtain ⟨a', b', c', d', e'⟩ := moved (Function.update s.thread t x) u y
  simp only [Thread.pending, Thread.running, Thread.ending, pc] at c d e
  simp only [Thread.pending, Thread.running, Thread.ending, pc'] at c' d' e'
  set f := Function.update (Function.update s.thread t x) u y
  have strong : census f Thread.strongRefs = census s.thread Thread.strongRefs := by omega
  have weak : census f Thread.weakRefs = census s.thread Thread.weakRefs := by omega
  have pending : census f Thread.pending = census s.thread Thread.pending := by omega
  have running : census f Thread.running = census s.thread Thread.running := by omega
  have ending : census f Thread.ending = census s.thread Thread.ending := by omega
  refine ⟨?_, entitled_update (entitled_update h.entitled mine) its⟩
  change Sound _ _ _ _ _ (census f _) (census f _) (census f _) (census f _) (census f _)
  rw [strong, weak, pending, running, ending]
  exact h.sound

theorem Thread.entitled.gain {x : Thread} (h : x.entitled) (strong weak : ℕ) :
    ({ x with strong := x.strong + strong, weak := x.weak + weak } : Thread).entitled := by
  cases here : x.pc with
  | compareExchange r =>
    simp only [Thread.entitled, here] at h ⊢
    exact ⟨Nat.add_pos_left h.1 weak, h.2⟩
  | _ => simp [Thread.entitled, here] at h ⊢ <;> omega

theorem Inv.act (h : Inv s) (few : s.references ≤ 2 ^ 31) {a : Action τ}
    (next : s.act a = some s') : Inv s' := by
  cases a with
  | addRefCopy t =>
    simp only [State.act] at next
    split_ifs at next with owner
    obtain rfl := Option.some.inj next
    refine h.begin ?_ ?_ ?_ ?_ ?_ owner.2 <;> simp [owner.1]
  | release t =>
    simp only [State.act] at next
    split_ifs at next with owner
    obtain rfl := Option.some.inj next
    refine h.begin ?_ ?_ ?_ ?_ ?_ trivial <;> simp [owner.1]
    omega
  | weakAddRef t =>
    simp only [State.act] at next
    split_ifs at next with owner
    obtain rfl := Option.some.inj next
    refine h.begin ?_ ?_ ?_ ?_ ?_ owner.2 <;> simp [owner.1]
  | weakRelease t =>
    simp only [State.act] at next
    split_ifs at next with owner
    obtain rfl := Option.some.inj next
    refine h.begin ?_ ?_ ?_ ?_ ?_ trivial <;> simp [owner.1]
    omega
  | addRefLock t =>
    simp only [State.act] at next
    split_ifs at next with owner
    obtain rfl := Option.some.inj next
    refine h.begin ?_ ?_ ?_ ?_ ?_ owner.2 <;> simp [owner.1]
  | giveStrong t u =>
    simp only [State.act] at next
    split_ifs at next with owner
    obtain rfl := Option.some.inj next
    have mine : ({ s.thread t with strong := (s.thread t).strong - 1 } : Thread).entitled := by
      simp [Thread.entitled, owner.1]
    have its := entitled_update (t := t) h.entitled mine u
    refine h.give ?_ ?_ rfl rfl mine (its.gain 1 0) <;> simp [State.set, owner.1]
    omega
  | giveWeak t u =>
    simp only [State.act] at next
    split_ifs at next with owner
    obtain rfl := Option.some.inj next
    have mine : ({ s.thread t with weak := (s.thread t).weak - 1 } : Thread).entitled := by
      simp [Thread.entitled, owner.1]
    have its := entitled_update (t := t) h.entitled mine u
    refine h.give ?_ ?_ rfl rfl mine (its.gain 0 1) <;> simp [State.set, owner.1]
    omega
  | step t spurious => exact h.step few next

theorem inv_initial (t : τ) : Inv (initial t) := by
  have none (weight : Thread → ℕ) (idle : weight { pc := .idle, strong := 0, weak := 0 } = 0) :
      census (fun _ : τ => ({ pc := .idle, strong := 0, weak := 0 } : Thread)) weight = 0 :=
    census_eq_zero.mpr fun _ => idle
  obtain ⟨a, b, c, d, e⟩ := moved
    (fun _ : τ => ({ pc := .idle, strong := 0, weak := 0 } : Thread)) t
    { pc := .idle, strong := 1, weak := 0 }
  rw [none _ rfl] at a b c d e
  simp at a b c d e
  have calm (u : τ) :
      ((fun _ : τ => ({ pc := .idle, strong := 0, weak := 0 } : Thread)) u).entitled :=
    trivial
  refine ⟨?_, entitled_update calm trivial⟩
  simp only [initial]
  rw [a, b, c, d, e]
  constructor <;> decide

/-- What the calls can rely on. `dispose` is due, or has begun, just when no strong reference
is left; `add_ref_lock` does not promote once it is. -/
structure Protocol (s : State τ) : Prop where
  begunOnce : s.begun ≤ 1
  due : (∀ t, (s.thread t).strongRefs = 0) ↔ s.begun = 1 ∨ ∃ t, (s.thread t).pc = .dispose
  dueOnce : ∀ t, (s.thread t).pc = .dispose →
    s.begun = 0 ∧ ∀ u, (s.thread u).pc = .dispose → u = t
  promoted : ∀ t r, (s.thread t).pc = .compareExchange r → s.useCount = r →
    s.begun = 0 ∧ ∀ u, (s.thread u).pc ≠ .dispose
  alive : ∀ t, 0 < (s.thread t).strongRefs → s.begun = 0 ∧ ∀ u, (s.thread u).pc ≠ .dispose
  destroyedOnce : s.destroyed ≤ 1
  released : (0 < s.destroyed ∨ ∃ t, (s.thread t).pc = .destroy) →
    s.disposed = 1 ∧ ∀ t, (s.thread t).strongRefs = 0 ∧ (s.thread t).weakRefs = 0
  complete : (∀ t, s.thread t = { pc := .idle, strong := 0, weak := 0 }) →
    s.disposed = 1 ∧ s.destroyed = 1
  silent : 0 < s.destroyed → ∀ a, s.act a = none

theorem Inv.kept (h : Inv s) : Protocol s := by
  obtain ⟨use, weakOwned, weakAlone, owned, released, held, free⟩ := h.sound
  refine ⟨?_, ?_, ?_, ?_, ?_, ?_, ?_, ?_, ?_⟩
  · omega
  · rw [← census_eq_zero, h.strong_eq_zero, ← pending_pos]
    omega
  · intro t here
    have one : 0 < census s.thread Thread.pending := pending_pos.mpr ⟨t, here⟩
    refine ⟨by omega, fun u too => ?_⟩
    by_contra apart
    have two : (s.thread u).pending + (s.thread t).pending ≤ census s.thread Thread.pending :=
      add_le_census apart
    simp only [Thread.pending, here, too, if_true] at two
    omega
  · intro t r here same
    have entitled := h.entitled t
    simp only [Thread.entitled, here] at entitled
    have positive := entitled.2
    rw [← same, ne_eq, eq_zero_iff, use] at positive
    exact h.not_due positive
  · intro t mine
    have some : (s.thread t).strongRefs ≤ census s.thread Thread.strongRefs := le_census
    exact h.not_due (by omega)
  · omega
  · intro last
    rw [← ending_pos] at last
    obtain ⟨disposed, strong, weak⟩ := h.finished (by omega)
    exact ⟨disposed, fun t => ⟨census_eq_zero.mp strong t, census_eq_zero.mp weak t⟩⟩
  · intro blank
    have none (weight : Thread → ℕ) (idle : weight { pc := .idle, strong := 0, weak := 0 } = 0) :
        census s.thread weight = 0 := census_eq_zero.mpr fun t => by rw [blank t, idle]
    have strong := none Thread.strongRefs rfl
    have weak := none Thread.weakRefs rfl
    have pending := none Thread.pending rfl
    have running := none Thread.running rfl
    have ending := none Thread.ending rfl
    omega
  · intro gone a
    have blank := h.ended gone
    cases a <;> simp [State.act, State.step, blank]

/-- The protocol holds in every run, whatever the number of threads, as long as there are
few enough references for the counters. -/
theorem reference_protocol
    (h : (machine τ).ReachableBy (fun s _ => s.references ≤ 2 ^ 31) s) : Protocol s := by
  have inv : Inv s := by
    refine h.invariant Inv (fun s start => ?_) fun s a s' hs few next => hs.act few next
    obtain ⟨t, rfl⟩ := start
    exact inv_initial t
  exact inv.kept

/-- One thread keeps a weak reference, the other releases the only strong one, and
`add_ref_lock` comes too late. -/
theorem reference_protocol_expired : ∃ s : State (Fin 2), s.destroyed = 1 ∧ Protocol s := by
  have ran : ((machine (Fin 2)).runBy (fun s _ => s.references ≤ 2 ^ 31) (initial 0)
      [.weakAddRef 0, .step 0 false, .giveWeak 0 1, .release 0, .addRefLock 1, .step 1 false,
        .step 1 false, .step 0 false, .step 1 false, .step 1 false, .step 0 false, .step 0 false,
        .weakRelease 1, .step 1 false, .step 0 false, .step 0 false]).map
      State.destroyed = some 1 := by decide +kernel
  obtain ⟨s, run, gone⟩ := Option.map_eq_some_iff.mp ran
  have start : (machine (Fin 2)).init (initial 0) := ⟨0, rfl⟩
  have reached := (Machine.runBy_reachable (.init start) run).mono fun s a admitted =>
    of_decide_eq_true admitted
  exact ⟨s, gone, reference_protocol reached⟩

end Codelab.SpCountedBase
