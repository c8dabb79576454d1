import Mathlib.Logic.Basic
import Mathlib.Data.Nat.Notation

/-! Total correctness of programs in `Except`. A program either returns a value, which has to
meet `post`, or fails, and then its error has to meet `fail`. A loop runs its body for at most
a given number of rounds; an invariant and a measure below that number show that it comes to
a result in time. -/

namespace Total

universe u

variable {ε : Type*} {α β σ : Type u} {x : Except ε α} {f : α → Except ε β} {a : α}
  {p post post' : α → Prop} {fail : ε → Prop} {goal : β → Prop}

def Outcome (x : Except ε α) (post : α → Prop) (fail : ε → Prop) : Prop :=
  match x with
  | .ok a => post a
  | .error e => fail e

/-- A program that cannot fail. -/
def Returns (x : Except ε α) (post : α → Prop) : Prop := Outcome x post fun _ => False

theorem Returns.eq_ok (h : Returns x post) : ∃ a, x = .ok a ∧ post a := by
  cases x with
  | ok a => exact ⟨a, rfl, h⟩
  | error e => exact h.elim

theorem Outcome.eq_error {e : ε} (h : Outcome x (fun _ => False) (· = e)) : x = .error e := by
  cases x with
  | ok a => exact h.elim
  | error e' => exact congrArg Except.error h

theorem returns_of_eq (h : x = .ok a) (met : post a) : Returns x post := by
  rw [h]
  exact met

namespace Outcome

theorem pure (met : post a) : Outcome (Pure.pure a : Except ε α) post fail := met

theorem mono (h : Outcome x post fail) (weaker : ∀ a, post a → post' a) :
    Outcome x post' fail := by
  cases x with
  | ok a => exact weaker a h
  | error e => exact h

theorem bind (h : Outcome x p fail) (rest : ∀ a, p a → Outcome (f a) goal fail) :
    Outcome (x >>= f) goal fail := by
  cases x with
  | ok a => exact rest a h
  | error e => exact h

/-- The rule for a first part whose value is known. -/
theorem bind_ok (h : x = .ok a) (rest : Outcome (f a) goal fail) :
    Outcome (x >>= f) goal fail := by
  rw [h]
  exact rest

theorem bind_error {e : ε} (h : x = .error e) (met : fail e) :
    Outcome (x >>= f) goal fail := by
  rw [h]
  exact met

end Outcome

/-- Repeat `body` until it comes to a result, for at most the given number of rounds. -/
def loop (body : σ → Except ε (σ ⊕ β)) (unfinished : ε) : ℕ → σ → Except ε β
  | 0, _ => .error unfinished
  | rounds + 1, s => do
      match ← body s with
      | .inl s => loop body unfinished rounds s
      | .inr b => pure b

theorem loop_round {body : σ → Except ε (σ ⊕ β)} {unfinished : ε} {rounds : ℕ} {s : σ}
    (round : Outcome (body s)
      (Sum.elim (fun s' => Outcome (loop body unfinished rounds s') goal fail) goal) fail) :
    Outcome (loop body unfinished (rounds + 1) s) goal fail := by
  refine round.bind fun next met => ?_
  cases next with
  | inl s' => exact met
  | inr b => exact met

/-- Every round that does not end the loop keeps the invariant and lowers the measure. -/
theorem loop_outcome {body : σ → Except ε (σ ⊕ β)} {unfinished : ε} (inv : σ → Prop)
    (measure : σ → ℕ)
    (round : ∀ s, inv s → Outcome (body s)
      (Sum.elim (fun s' => inv s' ∧ measure s' < measure s) goal) fail)
    {rounds : ℕ} {s : σ} (start : inv s) (enough : measure s < rounds) :
    Outcome (loop body unfinished rounds s) goal fail := by
  induction rounds generalizing s with
  | zero => exact absurd enough (Nat.not_lt_zero _)
  | succ rounds ih =>
    refine loop_round ((round s start).mono fun next met => ?_)
    cases next with
    | inl s' => exact ih met.1 (Nat.lt_of_lt_of_le met.2 (Nat.le_of_lt_succ enough))
    | inr b => exact met

end Total
