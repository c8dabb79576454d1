import Mathlib.Algebra.Ring.Nat

/-! Task ids of the timer: the slot of the resource pool in the low 32 bits, the
version of the task in the high 32 bits. A slot is a 64-bit number, so the two
halves come back apart exactly for the slots that fit in 32 bits. -/

namespace Codelab.TimerTaskId

abbrev Slot := BitVec 64
abbrev Version := BitVec 32
abbrev TaskId := BitVec 64

def makeTaskId (slot : Slot) (version : Version) : TaskId :=
  (version.setWidth 64 <<< 32) ||| slot

def slotOfTaskId (id : TaskId) : Slot := id &&& 0xFFFFFFFF#64

def versionOfTaskId (id : TaskId) : Version := (id >>> 32).setWidth 32

/-- The slot leaves the version's half of the id alone. -/
def Fits (slot : Slot) : Prop := slot.toNat < 2 ^ 32

instance (slot : Slot) : Decidable (Fits slot) := inferInstanceAs (Decidable (_ < _))

theorem slotOfTaskId_toNat (id : TaskId) : (slotOfTaskId id).toNat = id.toNat % 2 ^ 32 := by
  rw [slotOfTaskId, BitVec.toNat_and]
  exact Nat.and_two_pow_sub_one_eq_mod id.toNat 32

theorem versionOfTaskId_toNat (id : TaskId) : (versionOfTaskId id).toNat = id.toNat / 2 ^ 32 := by
  have bound := id.isLt
  rw [versionOfTaskId, BitVec.toNat_setWidth, BitVec.toNat_ushiftRight, Nat.shiftRight_eq_div_pow]
  exact Nat.mod_eq_of_lt (by omega)

theorem makeTaskId_toNat {slot : Slot} (fits : Fits slot) (version : Version) :
    (makeTaskId slot version).toNat = version.toNat * 2 ^ 32 + slot.toNat := by
  have bound := version.isLt
  have low : slot.toNat < 2 ^ 32 := fits
  have high : (version.setWidth 64 <<< 32).toNat = 2 ^ 32 * version.toNat := by
    rw [BitVec.toNat_shiftLeft, BitVec.toNat_setWidth, Nat.shiftLeft_eq,
      Nat.mod_eq_of_lt (by omega), Nat.mod_eq_of_lt (by omega), Nat.mul_comm]
  rw [makeTaskId, BitVec.toNat_or, high, ← Nat.two_pow_add_eq_or_of_lt low, Nat.mul_comm]

@[simp] theorem slotOfTaskId_makeTaskId {slot : Slot} (fits : Fits slot) (version : Version) :
    slotOfTaskId (makeTaskId slot version) = slot := by
  apply BitVec.eq_of_toNat_eq
  have low : slot.toNat < 2 ^ 32 := fits
  rw [slotOfTaskId_toNat, makeTaskId_toNat fits]
  omega

@[simp] theorem versionOfTaskId_makeTaskId {slot : Slot} (fits : Fits slot) (version : Version) :
    versionOfTaskId (makeTaskId slot version) = version := by
  apply BitVec.eq_of_toNat_eq
  have low : slot.toNat < 2 ^ 32 := fits
  rw [versionOfTaskId_toNat, makeTaskId_toNat fits]
  omega

/-- A slot that does not fit is never read back. -/
theorem slotOfTaskId_ne {slot : Slot} (large : ¬ Fits slot) (version : Version) :
    slotOfTaskId (makeTaskId slot version) ≠ slot := by
  intro same
  apply large
  rw [Fits, ← same, slotOfTaskId_toNat]
  exact Nat.mod_lt _ (by omega)

end Codelab.TimerTaskId
