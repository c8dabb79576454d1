import Mathlib.Data.Nat.ModEq

/-! Wrapping counters. A `w`-bit counter that has advanced fewer than `2 ^ w` times
since it was read shows the same value only if it has not advanced at all. -/

namespace Window

theorem eq_of_ofNat_eq {w a b : ℕ} (le : a ≤ b) (near : b < a + 2 ^ w)
    (same : BitVec.ofNat w b = BitVec.ofNat w a) : b = a := by
  have values : a % 2 ^ w = b % 2 ^ w := by
    simpa [eq_comm] using congrArg BitVec.toNat same
  obtain ⟨c, hc⟩ := (Nat.modEq_iff_dvd' le).mp values
  rcases Nat.eq_zero_or_pos c with rfl | pos
  · omega
  · have := Nat.le_mul_of_pos_right (2 ^ w) pos
    omega

theorem ofNat_succ (w n : ℕ) : BitVec.ofNat w (n + 1) = BitVec.ofNat w n + 1 := by
  rw [← BitVec.ofNat_add_ofNat]
  rfl

end Window
