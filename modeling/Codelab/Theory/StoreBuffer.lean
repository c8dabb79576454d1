import Mathlib.Logic.Function.Basic

/-! A memory that threads store to through buffers, one for each thread. A store waits in the
buffer of its thread, where that thread alone sees it, and the stores of a thread reach the memory
in their order. -/

structure Buffered (ι κ α : Type*) where
  memory : κ → α
  buffer : ι → List (κ × α)

namespace Buffered

variable {ι κ α : Type*} [DecidableEq κ]

/-- The memory when the stores of a buffer have reached it. -/
def replay (memory : κ → α) (entries : List (κ × α)) : κ → α :=
  entries.foldl (fun memory entry => Function.update memory entry.1 entry.2) memory

/-- The newest store that waits in the buffer of `t`, or else what the memory has. -/
def load (m : Buffered ι κ α) (t : ι) (x : κ) : α := replay m.memory (m.buffer t) x

section

variable [DecidableEq ι]

def store (m : Buffered ι κ α) (t : ι) (x : κ) (v : α) : Buffered ι κ α :=
  { m with buffer := Function.update m.buffer t (m.buffer t ++ [(x, v)]) }

/-- The oldest store of `t` reaches the memory. -/
def flush (m : Buffered ι κ α) (t : ι) : Option (Buffered ι κ α) :=
  match m.buffer t with
  | [] => none
  | entry :: rest =>
    some ⟨Function.update m.memory entry.1 entry.2, Function.update m.buffer t rest⟩

end

/-- A store that waits until the buffer of `t` is empty and goes to the memory at once. -/
def storeDrained (m : Buffered ι κ α) (t : ι) (x : κ) (v : α) : Option (Buffered ι κ α) :=
  match m.buffer t with
  | [] => some { m with memory := Function.update m.memory x v }
  | _ :: _ => none

variable {m m' : Buffered ι κ α} {t u : ι} {x : κ} {v : α} {memory : κ → α}
  {entries : List (κ × α)}

theorem replay_apart (apart : ∀ entry ∈ entries, entry.1 ≠ x) :
    replay memory entries x = memory x := by
  induction entries generalizing memory with
  | nil => rfl
  | cons entry entries ih =>
    obtain ⟨first, others⟩ := List.forall_mem_cons.mp apart
    change replay (Function.update memory entry.1 entry.2) entries x = _
    rw [ih others, Function.update_of_ne first.symm]

theorem load_drained (drained : m.buffer t = []) : m.load t x = m.memory x := by
  rw [load, drained]
  rfl

/-- The stores of other threads that wait are not seen. -/
theorem load_apart (apart : ∀ entry ∈ m.buffer t, entry.1 ≠ x) : m.load t x = m.memory x :=
  replay_apart apart

theorem storeDrained_eq (drained : m.buffer t = []) :
    m.storeDrained t x v = some { m with memory := Function.update m.memory x v } := by
  rw [storeDrained, drained]

theorem storeDrained_some (stored : m.storeDrained t x v = some m') :
    m.buffer t = [] ∧ m' = { m with memory := Function.update m.memory x v } := by
  cases waits : m.buffer t with
  | nil =>
    rw [storeDrained_eq waits, Option.some.injEq] at stored
    exact ⟨rfl, stored.symm⟩
  | cons entry rest =>
    rw [storeDrained, waits] at stored
    cases stored

variable [DecidableEq ι]

theorem flush_eq {entry : κ × α} {rest : List (κ × α)} (waits : m.buffer t = entry :: rest) :
    m.flush t =
      some ⟨Function.update m.memory entry.1 entry.2, Function.update m.buffer t rest⟩ := by
  rw [flush, waits]

theorem flush_some (flushed : m.flush t = some m') : ∃ entry rest, m.buffer t = entry :: rest ∧
    m' = ⟨Function.update m.memory entry.1 entry.2, Function.update m.buffer t rest⟩ := by
  cases waits : m.buffer t with
  | nil =>
    rw [flush, waits] at flushed
    cases flushed
  | cons entry rest =>
    rw [flush_eq waits, Option.some.injEq] at flushed
    exact ⟨entry, rest, rfl, flushed.symm⟩

end Buffered
