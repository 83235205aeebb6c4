import Mathlib.Data.BitVec

/-! Free-running counters of a fixed width that index a buffer by their
remainder. A counter stands for the number of increments since it was 0. -/
namespace Semantics

variable {w a b n size : Nat}

/-- One more increment. -/
theorem counter_succ (n : Nat) : BitVec.ofNat w n + 1 = BitVec.ofNat w (n + 1) :=
  (BitVec.ofNat_add n 1).symm

/-- Where the width is a multiple of the size, the counter selects the slot of
the number of increments. -/
theorem counter_mod (hDvd : size ∣ 2 ^ w) (n : Nat) :
    (BitVec.ofNat w n).toNat % size = n % size := by
  rw [BitVec.toNat_ofNat, Nat.mod_mod_of_dvd n hDvd]

/-- Two counters that are less than a full turn apart are equal only at the
same number of increments. -/
theorem counter_eq_iff (hLe : a ≤ b) (hNear : b < a + 2 ^ w) :
    BitVec.ofNat w a = BitVec.ofNat w b ↔ a = b := by
  constructor
  · intro hSame
    have hMod : a % 2 ^ w = b % 2 ^ w := by
      simpa only [BitVec.toNat_ofNat] using congrArg BitVec.toNat hSame
    have hDvd : 2 ^ w ∣ b - a :=
      Nat.dvd_of_mod_eq_zero (Nat.sub_mod_eq_zero_of_mod_eq hMod.symm)
    have hZero : b - a = 0 := Nat.eq_zero_of_dvd_of_lt hDvd (by omega)
    omega
  · rintro rfl
    rfl

/-- A position a few slots behind a counter. -/
theorem counter_add_mod (hDvd : size ∣ 2 ^ w) (n i : Nat) :
    ((BitVec.ofNat w n).toNat + i) % size = (n + i) % size := by
  rw [Nat.add_mod, counter_mod hDvd, ← Nat.add_mod]

/-- The distance of two counters less than a full turn apart. -/
theorem counter_sub (hLe : a ≤ b) (hNear : b < a + 2 ^ w) :
    (BitVec.ofNat w b - BitVec.ofNat w a).toNat = b - a := by
  have hSplit : BitVec.ofNat w b = BitVec.ofNat w (b - a) + BitVec.ofNat w a := by
    rw [← BitVec.ofNat_add, Nat.sub_add_cancel hLe]
  rw [hSplit, BitVec.add_sub_cancel, BitVec.toNat_ofNat]
  exact Nat.mod_eq_of_lt (by omega)

/-- A power of two that fits a counter divides its full turn. -/
theorem dvd_two_pow_of_lt {k : Nat} (hSize : size = 2 ^ k) (hLt : size < 2 ^ w) :
    size ∣ 2 ^ w := by
  subst hSize
  exact Nat.pow_dvd_pow 2 (Nat.pow_lt_pow_iff_right (by decide) |>.mp hLt).le

end Semantics
