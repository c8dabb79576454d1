import Codelab.LocalPool
import Codelab.TimerTaskId
import Mathlib.Data.Set.Basic

/-! Task ids against the slots that the resource pool hands out. An id of the pool has up to 39
bits and `make_task_id` leaves room for 32. -/

namespace Codelab.TimerTaskId

open LocalPool ResourcePool

/-- The ids that `LocalPool::get` builds from a block index and an offset. -/
def PoolSlot (slot : Slot) : Prop :=
  ∃ blockIndex offset, blockIndex < maxBlockNgroup * groupNblock ∧ offset < blockNitem ∧
    slot.toNat = blockIndex * blockNitem + offset

/-- Slot and version of a task with a slot in `slots` can be read off its id, and no other task
has the id. -/
structure Unambiguous (slots : Set Slot) : Prop where
  slot : ∀ slot ∈ slots, ∀ version, slotOfTaskId (makeTaskId slot version) = slot
  version : ∀ slot ∈ slots, ∀ version, versionOfTaskId (makeTaskId slot version) = version
  apart : ∀ slot ∈ slots, ∀ slot' ∈ slots, ∀ version version',
    makeTaskId slot version = makeTaskId slot' version' → slot = slot' ∧ version = version'

/-- Ids are unambiguous if and only if all slots are below `2 ^ 32`. -/
theorem unambiguous_iff (slots : Set Slot) : Unambiguous slots ↔ ∀ slot ∈ slots, Fits slot := by
  constructor
  · intro unambiguous slot mem
    by_contra large
    exact slotOfTaskId_ne large 0 (unambiguous.slot slot mem 0)
  · intro fits
    refine ⟨fun slot mem => slotOfTaskId_makeTaskId (fits slot mem),
      fun slot mem => versionOfTaskId_makeTaskId (fits slot mem),
      fun slot mem slot' mem' version version' same => ⟨?_, ?_⟩⟩
    · rw [← slotOfTaskId_makeTaskId (fits slot mem) version, same,
        slotOfTaskId_makeTaskId (fits slot' mem')]
    · rw [← versionOfTaskId_makeTaskId (fits slot mem) version, same,
        versionOfTaskId_makeTaskId (fits slot' mem')]

/-- The first item of block 2^25. Its slot is read back as 0, and its task of version 0 has the
id of the task with slot 0 and version 1. -/
theorem poolSlot_ambiguous : ¬ Unambiguous {slot | PoolSlot slot} := by
  intro unambiguous
  have first : PoolSlot 0 := ⟨0, 0, by decide, by decide, rfl⟩
  have beyond : PoolSlot 0x100000000 := ⟨2 ^ 25, 0, by decide, by decide, by decide⟩
  have same : makeTaskId 0x100000000 0 = makeTaskId 0 1 := by decide
  exact absurd (unambiguous.apart _ beyond _ first 0 1 same).1 (by decide)

end Codelab.TimerTaskId
