import Mathlib.Logic.Basic

/-! A mutex recorded as its holder, against what the threads' control points claim.
A step of one thread leaves the mutex alone, takes it while it is free, or gives
back a mutex the thread holds. -/

namespace Mutex

variable {τ : Type*} {owner owner' : Option τ} {claims claims' : τ → Prop} {t u : τ}

/-- `claims t` says that thread `t` stands where it holds the mutex. -/
def Guards (owner : Option τ) (claims : τ → Prop) : Prop :=
  ∀ t, owner = some t ↔ claims t

/-- What one step of thread `t` does to a mutex. -/
def Turn (owner owner' : Option τ) (t : τ) (before after : Prop) : Prop :=
  (owner' = owner ∧ (after ↔ before)) ∨ (owner = none ∧ owner' = some t ∧ after) ∨
    (before ∧ owner' = none ∧ ¬ after)

theorem Guards.exclusive (h : Guards owner claims) (ht : claims t) (hu : claims u) : t = u :=
  Option.some.inj (((h t).mpr ht).symm.trans ((h u).mpr hu))

theorem Guards.free (h : Guards owner claims) (none : owner = none) : ¬ claims t :=
  fun ht => Option.some_ne_none t (((h t).mpr ht).symm.trans none)

theorem guards_none (quiet : ∀ t, ¬ claims t) : Guards none claims :=
  fun t => ⟨fun no => absurd no.symm (Option.some_ne_none t), fun ht => absurd ht (quiet t)⟩

theorem Guards.turn (h : Guards owner claims) (turn : Turn owner owner' t (claims t) (claims' t))
    (others : ∀ u, u ≠ t → (claims' u ↔ claims u)) : Guards owner' claims' := by
  intro u
  by_cases e : u = t
  · subst e
    rcases turn with ⟨rfl, same⟩ | ⟨-, rfl, mine⟩ | ⟨-, rfl, gone⟩
    · exact (h u).trans same.symm
    · exact ⟨fun _ => mine, fun _ => rfl⟩
    · exact ⟨fun no => absurd no.symm (Option.some_ne_none u), fun mine => absurd mine gone⟩
  · rw [others u e]
    rcases turn with ⟨rfl, -⟩ | ⟨free, rfl, -⟩ | ⟨mine, rfl, -⟩
    · exact h u
    · exact ⟨fun eq => absurd (Option.some.inj eq).symm e, fun hu => absurd hu (h.free free)⟩
    · exact ⟨fun no => absurd no.symm (Option.some_ne_none u),
        fun hu => absurd (h.exclusive hu mine) e⟩

end Mutex
