import Codelab.Theory.Window
import Codelab.TimerTask

/-! What one slot goes through in one of its lives, and what that makes of its
version word. Everything here is about a single slot: the steps of the threads are
changes of one task from one stage to the next, and an id keeps its meaning under
each of them. -/

namespace Codelab.TimerTask

open TimerTaskId

/-- The version word of the `n`-th life: `phase` 0 before the callback, 1 while it
runs, 2 from its end or the removal on. -/
def code (n phase : ℕ) : Version := BitVec.ofNat 32 (4 * n + phase)

def idOf (slot : Slot) (n : ℕ) : TaskId := makeTaskId slot (code n 0)

theorem code_initial : code 0 2 = 2 := rfl

theorem code_next (n : ℕ) : code n 2 + 2 = code (n + 1) 0 := by
  change BitVec.ofNat 32 (4 * n + 2) + BitVec.ofNat 32 2 = BitVec.ofNat 32 (4 * n + 4)
  rw [BitVec.ofNat_add_ofNat]

theorem code_one (n : ℕ) : code n 0 + 1 = code n 1 := (Window.ofNat_succ 32 (4 * n)).symm

theorem code_two (n : ℕ) : code n 0 + 2 = code n 2 := by
  change BitVec.ofNat 32 (4 * n) + BitVec.ofNat 32 2 = BitVec.ofNat 32 (4 * n + 2)
  rw [BitVec.ofNat_add_ofNat]

/-- Inside the window of 2 ^ 30 reschedulings a version word tells life and phase. -/
theorem code_inj {n m j k : ℕ} (le : n ≤ m) (near : m < n + 2 ^ 30) (small : k ≤ 2)
    (later : n = m → j ≤ k) (early : j ≤ 2) (same : code m k = code n j) : m = n ∧ k = j := by
  have ordered : 4 * n + j ≤ 4 * m + k := by
    rcases Nat.eq_or_lt_of_le le with e | lt
    · have := later e
      omega
    · omega
  have window : 4 * m + k < 4 * n + j + 2 ^ 32 := by omega
  have equal := Window.eq_of_ofNat_eq ordered window same
  omega

theorem code_phase {n j k : ℕ} (hj : j ≤ 2) (hk : k ≤ 2) : code n j = code n k ↔ j = k := by
  refine ⟨fun same => ?_, fun e => e ▸ rfl⟩
  rcases Nat.le_total j k with le | le
  · exact (code_inj (le_refl n) (by omega) hk (fun _ => le) hj same.symm).2.symm
  · exact (code_inj (le_refl n) (by omega) hj (fun _ => le) hk same).2

/-- Where a slot is in its present life. -/
inductive Stage (τ : Type*)
  | free
  | adding (t : τ)
  | fresh (t : τ)
  | waiting
  | removed
  | calling
  | called
  | finished

namespace Stage

variable {τ : Type*}

def phase : Stage τ → ℕ
  | fresh _ => 0
  | waiting => 0
  | calling => 1
  | called => 1
  | _ => 2

/-- The last life is over and the next one has not been opened. -/
def closed : Stage τ → Bool
  | free => true
  | adding _ => true
  | _ => false

def scheduler : Stage τ → Option τ
  | adding t => some t
  | fresh t => some t
  | _ => none

/-- The present life has been opened and its task is not in a bucket yet. -/
def unlinked : Stage τ → Bool
  | fresh _ => true
  | _ => false

/-- Linked at some time in this life, and not yet given back. -/
def linked : Stage τ → Bool
  | waiting => true
  | removed => true
  | calling => true
  | called => true
  | finished => true
  | _ => false

def record : Stage τ → Record
  | removed => { removed := 1 }
  | called => { ran := 1 }
  | finished => { ran := 1, finished := 1 }
  | _ => {}

theorem phase_le (stage : Stage τ) : stage.phase ≤ 2 := by
  cases stage <;> simp [phase]

end Stage

/-- What is left of a life that is over: its callback ran and finished, or the task
was removed; either way the slot was given back once. -/
def Done (r : Record) : Prop := r = ⟨1, 1, 0, 1⟩ ∨ r = ⟨0, 0, 1, 1⟩

variable {τ : Type*} {x : Slot} {k k' : Task} {stage stage' : Stage τ} {n : ℕ} {id : TaskId}

/-- The id was returned for the `n`-th life of the slot. -/
structure Issued (x : Slot) (k : Task) (stage : Stage τ) (n : ℕ) (id : TaskId) : Prop where
  pos : 0 < n
  le : n ≤ k.life
  linked : n = k.life → stage.unlinked = false
  fits : Fits x
  id_eq : id = idOf x n

/-- How a slot's life and stage may move under an id that stays in use. -/
def Grows (k : Task) (stage : Stage τ) (k' : Task) (stage' : Stage τ) : Prop :=
  k.life < k'.life ∨ k.life = k'.life ∧ (stage.unlinked = false → stage'.unlinked = false)

theorem Issued.grows (h : Issued x k stage n id) (grows : Grows k stage k' stage') :
    Issued x k' stage' n id := by
  rcases grows with lt | ⟨same, keeps⟩
  · exact ⟨h.pos, by have := h.le; omega, by have := h.le; omega, h.fits, h.id_eq⟩
  · exact ⟨h.pos, same ▸ h.le, fun e => keeps (h.linked (e.trans same.symm)), h.fits, h.id_eq⟩

/-- What a slot looks like at a stage, whoever is working on it. -/
structure TaskFacts (x : Slot) (k : Task) (stage : Stage τ) : Prop where
  version : k.version = code k.life stage.phase
  allocated : k.allocated = false → stage = .free
  fits : stage ≠ .free → Fits x
  taskId : stage.linked = true → k.taskId = idOf x k.life
  pending : k.pending = true → stage = .waiting ∨ stage = .removed
  issued : ∀ n id, k.issued n = some id → Issued x k stage n id
  opened : stage.closed = false → 0 < k.life
  past : ∀ n, 0 < n → n < k.life → Done (k.history n)
  last : stage.closed = true → 0 < k.life → Done (k.history k.life)
  current : stage.closed = false → k.history k.life = stage.record
  zero : k.history 0 = {}
  future : ∀ n, k.life < n → k.history n = {}

theorem TaskFacts.initial (x : Slot) : TaskFacts x {} (Stage.free : Stage τ) where
  version := code_initial.symm
  allocated := fun _ => rfl
  fits := fun no => absurd rfl no
  taskId := fun no => absurd no Bool.false_ne_true
  pending := fun no => absurd no Bool.false_ne_true
  issued := fun _ _ no => absurd no.symm (Option.some_ne_none _)
  opened := fun no => absurd no.symm Bool.false_ne_true
  past := fun n _ lt => absurd lt (Nat.not_lt_zero n)
  last := fun _ lt => absurd lt (Nat.lt_irrefl 0)
  current := fun no => absurd no.symm Bool.false_ne_true
  zero := rfl
  future := fun _ _ => rfl

theorem TaskFacts.change (h : TaskFacts x k stage) (grows : Grows k stage k' stage')
    (same : k'.issued = k.issued) : ∀ n id, k'.issued n = some id → Issued x k' stage' n id :=
  fun n id his => (h.issued n id (same ▸ his)).grows grows

theorem TaskFacts.take {t : τ} (h : TaskFacts x k (.free : Stage τ)) (fits : Fits x) :
    TaskFacts x (k.setAllocated true) (.adding t) where
  version := h.version
  allocated := fun no => absurd no.symm Bool.false_ne_true
  fits := fun _ => fits
  taskId := fun no => absurd no Bool.false_ne_true
  pending := fun p => by rcases h.pending p with no | no <;> cases no
  issued := h.change (.inr ⟨rfl, fun _ => rfl⟩) rfl
  opened := fun no => absurd no.symm Bool.false_ne_true
  past := h.past
  last := fun _ => h.last rfl
  current := fun no => absurd no.symm Bool.false_ne_true
  zero := h.zero
  future := h.future

theorem TaskFacts.fetchAdd {t : τ} (h : TaskFacts x k (.adding t)) :
    TaskFacts x k.fetchAdd (.fresh t) where
  version := by
    have before : k.version = code k.life 2 := h.version
    exact (congrArg (· + 2) before).trans (code_next k.life)
  allocated := fun a => absurd (h.allocated a) (by rintro ⟨⟩)
  fits := fun _ => h.fits (by rintro ⟨⟩)
  taskId := fun no => absurd no Bool.false_ne_true
  pending := fun p => by rcases h.pending p with no | no <;> cases no
  issued := h.change (.inl (Nat.lt_succ_self k.life)) rfl
  opened := fun _ => Nat.succ_pos k.life
  past := by
    intro n pos lt
    rcases Nat.lt_succ_iff_lt_or_eq.mp lt with lt | rfl
    · exact h.past n pos lt
    · exact h.last rfl pos
  last := fun no => absurd no Bool.false_ne_true
  current := fun _ => h.future _ (Nat.lt_succ_self k.life)
  zero := h.zero
  future := fun n lt => h.future n (Nat.lt_of_succ_lt lt)

theorem TaskFacts.setTaskId {t : τ} (h : TaskFacts x k (.fresh t)) :
    TaskFacts x (k.setTaskId id) (.fresh t) :=
  { h with
    taskId := fun no => absurd no Bool.false_ne_true
    issued := h.change (.inr ⟨rfl, fun no => no⟩) rfl }

theorem TaskFacts.link {t : τ} (h : TaskFacts x k (.fresh t)) (made : k.taskId = idOf x k.life) :
    TaskFacts x (k.setPending true) (.waiting : Stage τ) where
  version := h.version
  allocated := fun a => absurd (h.allocated a) (by rintro ⟨⟩)
  fits := fun _ => h.fits (by rintro ⟨⟩)
  taskId := fun _ => made
  pending := fun _ => .inl rfl
  issued := h.change (.inr ⟨rfl, fun _ => rfl⟩) rfl
  opened := fun _ => h.opened rfl
  past := h.past
  last := fun no => absurd no Bool.false_ne_true
  current := fun _ => h.current rfl
  zero := h.zero
  future := h.future

theorem TaskFacts.issue (h : TaskFacts x k stage) (new : Issued x k stage n id) :
    TaskFacts x (k.issue n id) stage :=
  { h with
    issued := by
      have keep : Grows k stage (k.issue n id) stage := .inr ⟨rfl, fun no => no⟩
      intro m id' his
      simp only [Task.issue, Function.update_apply] at his
      split_ifs at his with e
      · cases his
        exact e ▸ new.grows keep
      · exact (h.issued m id' his).grows keep }

theorem TaskFacts.setPending (h : TaskFacts x k stage) : TaskFacts x (k.setPending false) stage :=
  { h with
    pending := fun no => absurd no Bool.false_ne_true
    issued := h.change (.inr ⟨rfl, fun no => no⟩) rfl }

theorem Stage.closed_of_linked (linked : stage.linked = true) : stage.closed = false := by
  cases stage <;> first | rfl | cases linked

theorem Stage.unlinked_of_linked (linked : stage.linked = true) : stage.unlinked = false := by
  cases stage <;> first | rfl | cases linked

theorem Stage.ne_free_of_linked (linked : stage.linked = true) : stage ≠ .free := by
  rintro rfl
  cases linked

/-- A store to the version word and a new entry in the record of the present life:
what a removal, the start, the call and the end of a callback have in common. -/
theorem TaskFacts.advance {version : Version} {event : Record → Record}
    (h : TaskFacts x k stage) (linked : stage.linked = true) (linked' : stage'.linked = true)
    (phase : version = code k.life stage'.phase) (record : event stage.record = stage'.record)
    (pending : k.pending = true → stage' = .waiting ∨ stage' = .removed) :
    TaskFacts x ((k.store version).note k.life event) stage' where
  version := phase
  allocated := fun a => absurd (h.allocated a) (Stage.ne_free_of_linked linked)
  fits := fun _ => h.fits (Stage.ne_free_of_linked linked)
  taskId := fun _ => h.taskId linked
  pending := pending
  issued := h.change (.inr ⟨rfl, fun _ => Stage.unlinked_of_linked linked'⟩) rfl
  opened := fun _ => h.opened (Stage.closed_of_linked linked)
  past := by
    intro n pos lt
    have other : n ≠ k.life := Nat.ne_of_lt lt
    simp only [Task.note, Task.store, Function.update_of_ne other]
    exact h.past n pos lt
  last := fun no => absurd (Stage.closed_of_linked linked') (by rw [no]; decide)
  current := by
    intro _
    simp only [Task.note, Task.store, Function.update_self]
    rw [h.current (Stage.closed_of_linked linked), record]
  zero := by
    have other : 0 ≠ k.life := Nat.ne_of_lt (h.opened (Stage.closed_of_linked linked))
    simp only [Task.note, Task.store, Function.update_of_ne other]
    exact h.zero
  future := by
    intro n lt
    have other : n ≠ k.life := Nat.ne_of_gt lt
    simp only [Task.note, Task.store, Function.update_of_ne other]
    exact h.future n lt

theorem TaskFacts.giveBack (h : TaskFacts x k stage)
    (through : stage = .finished ∨ stage = .removed)
    (apart : k.pending = false) :
    TaskFacts x ((k.setAllocated false).note k.life Record.giveBack) (.free : Stage τ) where
  version := by rcases through with rfl | rfl <;> exact h.version
  allocated := fun _ => rfl
  fits := fun no => absurd rfl no
  taskId := fun no => absurd no Bool.false_ne_true
  pending := fun p => absurd (apart.symm.trans p) Bool.false_ne_true
  issued := h.change (.inr ⟨rfl, fun _ => rfl⟩) rfl
  opened := fun no => absurd no.symm Bool.false_ne_true
  past := by
    intro n pos lt
    have other : n ≠ k.life := Nat.ne_of_lt lt
    simp only [Task.note, Task.setAllocated, Function.update_of_ne other]
    exact h.past n pos lt
  last := by
    intro _ pos
    simp only [Task.note, Task.setAllocated, Function.update_self]
    rcases through with rfl | rfl
    · rw [h.current rfl]
      exact .inl rfl
    · rw [h.current rfl]
      exact .inr rfl
  current := fun no => absurd no.symm Bool.false_ne_true
  zero := by
    have other : 0 ≠ k.life := by
      rcases through with rfl | rfl <;> exact Nat.ne_of_lt (h.opened rfl)
    simp only [Task.note, Task.setAllocated, Function.update_of_ne other]
    exact h.zero
  future := by
    intro n lt
    have other : n ≠ k.life := Nat.ne_of_gt lt
    simp only [Task.note, Task.setAllocated, Function.update_of_ne other]
    exact h.future n lt

end Codelab.TimerTask
