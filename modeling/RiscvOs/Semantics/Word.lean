import RiscvOs.Semantics.Memory

/-! Alignment and bit fields of 64-bit words, in terms of their values. -/
namespace Semantics

/-- Clearing the bits below `low` rounds down to a multiple of `2 ^ low`. -/
theorem toNat_and_highMask (x : Word) (low : Nat) :
    (x &&& (BitVec.allOnes 64 <<< low)).toNat = x.toNat / 2 ^ low * 2 ^ low := by
  have hShift : x &&& (BitVec.allOnes 64 <<< low) = (x >>> low) <<< low := by
    apply BitVec.eq_of_getLsbD_eq
    intro i hi
    simp only [BitVec.getLsbD_and, BitVec.getLsbD_shiftLeft, BitVec.getLsbD_ushiftRight,
      BitVec.getLsbD_allOnes]
    by_cases hLow : i < low
    · simp [hLow]
    · have hIndex : low + (i - low) = i := by omega
      have hBound : i - low < 64 := by omega
      simp [hLow, hi, hIndex, hBound]
  have hLe : x.toNat / 2 ^ low * 2 ^ low ≤ x.toNat := Nat.div_mul_le_self _ _
  rw [hShift, BitVec.toNat_shiftLeft, BitVec.toNat_ushiftRight, Nat.shiftLeft_eq,
    Nat.shiftRight_eq_div_pow, Nat.mod_eq_of_lt (lt_of_le_of_lt hLe x.isLt)]

theorem toNat_and_neg_4096 (x : Word) : (x &&& -4096#64).toNat = x.toNat / 4096 * 4096 := by
  rw [show (-4096#64 : Word) = BitVec.allOnes 64 <<< 12 by decide]
  exact toNat_and_highMask x 12

theorem toNat_and_neg_16 (x : Word) : (x &&& -16#64).toNat = x.toNat / 16 * 16 := by
  rw [show (-16#64 : Word) = BitVec.allOnes 64 <<< 4 by decide]
  exact toNat_and_highMask x 4

theorem toNat_and_neg_1024 (x : Word) : (x &&& -1024#64).toNat = x.toNat / 1024 * 1024 := by
  rw [show (-1024#64 : Word) = BitVec.allOnes 64 <<< 10 by decide]
  exact toNat_and_highMask x 10

/-- A field of `width` bits above the lowest `low` bits. -/
theorem toNat_shift_and_mask (x : Word) (low width : Nat) (hWidth : width ≤ 64) :
    ((x >>> low) &&& BitVec.ofNat 64 (2 ^ width - 1)).toNat = x.toNat / 2 ^ low % 2 ^ width := by
  have hMask : 2 ^ width - 1 < 2 ^ 64 := by
    have hPow : 2 ^ width ≤ 2 ^ 64 := Nat.pow_le_pow_right (by omega) hWidth
    have hPos : 0 < 2 ^ width := Nat.two_pow_pos width
    omega
  rw [BitVec.toNat_and, BitVec.toNat_ushiftRight, BitVec.toNat_ofNat, Nat.mod_eq_of_lt hMask,
    Nat.and_two_pow_sub_one_eq_mod, Nat.shiftRight_eq_div_pow]

/-- The same field as a value of its own width. -/
theorem shift_and_mask (x : Word) (low width : Nat) (hWidth : width ≤ 64) :
    (x >>> low) &&& BitVec.ofNat 64 (2 ^ width - 1) = (x.extractLsb' low width).setWidth 64 := by
  have hPow : 2 ^ width ≤ 2 ^ 64 := Nat.pow_le_pow_right (by omega) hWidth
  have hMod := Nat.mod_lt (x.toNat / 2 ^ low) (Nat.two_pow_pos width)
  apply BitVec.eq_of_toNat_eq
  rw [toNat_shift_and_mask x low width hWidth, BitVec.toNat_setWidth, BitVec.extractLsb'_toNat,
    Nat.shiftRight_eq_div_pow, Nat.mod_eq_of_lt (lt_of_lt_of_le hMod hPow)]

/-- The mask of the lowest `width` bits. -/
theorem getLsbD_lowMask (width i : Nat) (hWidth : width ≤ 64) :
    (BitVec.ofNat 64 (2 ^ width - 1)).getLsbD i = decide (i < width) := by
  rw [BitVec.getLsbD_ofNat, Nat.testBit_two_pow_sub_one]
  by_cases hi : i < width
  · simp [hi, lt_of_lt_of_le hi hWidth]
  · simp [hi]

theorem getLsbD_0xfff (i : Nat) : (0xfff#64).getLsbD i = decide (i < 12) :=
  getLsbD_lowMask 12 i (by decide)

theorem getLsbD_0x1ff (i : Nat) : (0x1ff#64).getLsbD i = decide (i < 9) :=
  getLsbD_lowMask 9 i (by decide)

theorem getLsbD_0x3ffffff (i : Nat) : (0x3ffffff#64).getLsbD i = decide (i < 26) :=
  getLsbD_lowMask 26 i (by decide)

/-- Bits at and above the length of a value are clear. -/
theorem getLsbD_of_toNat_lt {x : Word} {width i : Nat} (h : x.toNat < 2 ^ width) (hi : width ≤ i) :
    x.getLsbD i = false :=
  Nat.testBit_lt_two_pow (lt_of_lt_of_le h (Nat.pow_le_pow_right (by decide) hi))

theorem getLsbD_of_and_0xfff {x : Word} (h : x &&& 0xfff#64 = 0) {i : Nat} (hi : i < 12) :
    x.getLsbD i = false := by
  have hBit := congrArg (·.getLsbD i) h
  simpa only [BitVec.getLsbD_and, getLsbD_0xfff, hi, decide_true, Bool.and_true,
    BitVec.getLsbD_zero, show (0 : Word).getLsbD i = false by simp] using hBit

/-- A mask that clears a union clears both parts. -/
theorem or_and_eq_zero {x y mask : Word} (h : (x ||| y) &&& mask = 0) :
    x &&& mask = 0 ∧ y &&& mask = 0 := by
  have hSplit : (x ||| y) &&& mask = (x &&& mask) ||| (y &&& mask) := by
    apply BitVec.eq_of_getLsbD_eq
    intro i hi
    simp only [BitVec.getLsbD_and, BitVec.getLsbD_or, Bool.and_or_distrib_right]
  rw [hSplit] at h
  exact BitVec.or_eq_zero_iff.mp h

end Semantics
