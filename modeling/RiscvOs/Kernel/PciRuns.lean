import RiscvOs.Kernel.Pci

/-! The ranges given to BARs. Every range is a multiple of its size away from
0, because a BAR ignores the lower bits; two ranges can meet, because the free
address is rounded down. -/
namespace Kernel.Pci

open Semantics Function

variable {devices : Address → Device} {s t : State} {a : Address} {i log : Nat} {prefetch : Bool}
  {event : Event}

/-! ## Masks -/

theorem getLsbD_mask32 (log i : Nat) :
    (mask32 log).getLsbD i = (decide (i < 32) && !decide (i < log)) := by
  unfold mask32
  rw [BitVec.getLsbD_shiftLeft, BitVec.getLsbD_allOnes]
  by_cases hi : i < 32
  · have hShift : i - log < 32 := by omega
    simp only [hi, hShift, decide_true, Bool.true_and, Bool.and_true]
  · simp only [hi, decide_false, Bool.false_and]

theorem getLsbD_mask64 (log i : Nat) :
    (mask64 log).getLsbD i = (decide (i < 64) && !decide (i < log)) := by
  unfold mask64
  rw [BitVec.getLsbD_shiftLeft, BitVec.getLsbD_allOnes]
  by_cases hi : i < 64
  · have hShift : i - log < 64 := by omega
    simp only [hi, hShift, decide_true, Bool.true_and, Bool.and_true]
  · simp only [hi, decide_false, Bool.false_and]

theorem getLsbD_prefetchBit (prefetch : Bool) (hi : i ≠ 3) :
    (prefetchBit prefetch).getLsbD i = false := by
  cases prefetch with
  | false => exact BitVec.getLsbD_zero
  | true =>
      have hTwo : (8 : BitVec 32) = BitVec.twoPow 32 3 := by decide
      change (8 : BitVec 32).getLsbD i = false
      rw [hTwo, BitVec.getLsbD_twoPow]
      simp [hi.symm]

/-- The mask `~0xf`. -/
theorem getLsbD_not_0xf (hi : i < 64) : (~~~0xf#64).getLsbD i = !decide (i < 4) := by
  have hLow := getLsbD_lowMask 4 i (by decide)
  rw [BitVec.getLsbD_not, show (0xf#64) = BitVec.ofNat 64 (2 ^ 4 - 1) from rfl, hLow]
  simp only [hi, decide_true, Bool.true_and]

/-- The type of a BAR is in two of its bits. -/
theorem barType_congr {x y : BitVec 32} (hOne : x.getLsbD 1 = y.getLsbD 1)
    (hTwo : x.getLsbD 2 = y.getLsbD 2) : barType x = barType y := by
  apply BitVec.eq_of_getLsbD_eq
  intro i hi
  unfold barType
  simp only [BitVec.getLsbD_and, BitVec.getLsbD_ushiftRight]
  match i with
  | 0 => rw [hOne]
  | 1 => rw [hTwo]
  | i + 2 =>
      have hThree : (3 : BitVec 32).getLsbD (i + 2) = false := by
        rw [show (3 : BitVec 32) = BitVec.ofNat 32 (2 ^ 2 - 1) from rfl, BitVec.getLsbD_ofNat,
          Nat.testBit_two_pow_sub_one]
        simp
      rw [hThree, Bool.and_false, Bool.and_false]

theorem barType_low32 {least : 4 ≤ log} {most : log < 32} (latch : BitVec 32) :
    barType ((BarRegister.low32 log prefetch least most).read latch) = 0 := by
  have hBit (i : Nat) (hi : i < 3) :
      ((BarRegister.low32 log prefetch least most).read latch).getLsbD i = false := by
    have hLow : i < log := by omega
    simp only [BarRegister.read, BitVec.getLsbD_or, BitVec.getLsbD_and, getLsbD_mask32, hLow,
      getLsbD_prefetchBit prefetch (by omega : i ≠ 3), decide_true, Bool.not_true, Bool.and_false,
      Bool.or_false]
  have hZero : barType 0 = 0 := by decide
  rw [← hZero]
  exact barType_congr (by rw [hBit 1 (by decide)]; rfl) (by rw [hBit 2 (by decide)]; rfl)

theorem barType_low64 {least : 4 ≤ log} {most : log < 64} (latch : BitVec 32) :
    barType ((BarRegister.low64 log prefetch least most).read latch) = 2 := by
  have hBit (i : Nat) (hi : i < 3) :
      ((BarRegister.low64 log prefetch least most).read latch).getLsbD i =
        (4 : BitVec 32).getLsbD i := by
    have hLow : i < log := by omega
    simp only [BarRegister.read, BitVec.getLsbD_or, BitVec.getLsbD_and, BitVec.getLsbD_setWidth,
      getLsbD_mask64, hLow, getLsbD_prefetchBit prefetch (by omega : i ≠ 3), decide_true,
      Bool.not_true, Bool.and_false, Bool.or_false, Bool.false_or]
  have hFour : barType 4 = 2 := by decide
  rw [← hFour]
  exact barType_congr (hBit 1 (by decide)) (hBit 2 (by decide))

/-- What a BAR reads as after all bits were written, without its type. -/
theorem sized_low32 {least : 4 ≤ log} {most : log < 32} :
    ((BarRegister.low32 log prefetch least most).read (BitVec.allOnes 32)).setWidth 64 &&&
      ~~~0xf#64 = (mask32 log).setWidth 64 := by
  apply BitVec.eq_of_getLsbD_eq
  intro i hi
  have hMask := getLsbD_mask32 log i
  rw [BitVec.getLsbD_and, getLsbD_not_0xf hi]
  simp only [BarRegister.read, BitVec.getLsbD_setWidth, hi, BitVec.getLsbD_or, BitVec.getLsbD_and,
    BitVec.getLsbD_allOnes, hMask, decide_true, Bool.true_and]
  by_cases hType : i < 4
  · have hLow : i < log := by omega
    simp only [hType, hLow, decide_true, Bool.not_true, Bool.and_false]
  · have hPrefetch := getLsbD_prefetchBit prefetch (by omega : i ≠ 3)
    simp only [hType, hPrefetch, decide_false, Bool.not_false, Bool.and_true, Bool.or_false]
    cases decide (i < 32) <;> rfl

theorem sized_low64 {least : 4 ≤ log} {most : log < 64} :
    (((BarRegister.high64 log).read (BitVec.allOnes 32)).setWidth 64 <<< 32 |||
      ((BarRegister.low64 log prefetch least most).read (BitVec.allOnes 32)).setWidth 64) &&&
      ~~~0xf#64 = mask64 log := by
  apply BitVec.eq_of_getLsbD_eq
  intro i hi
  rw [BitVec.getLsbD_and, getLsbD_not_0xf hi, getLsbD_mask64]
  by_cases hHalf : i < 32
  · have hHigh : (((BarRegister.high64 log).read (BitVec.allOnes 32)).setWidth 64 <<< 32).getLsbD i =
        false := by
      rw [BitVec.getLsbD_shiftLeft]
      simp only [hHalf, decide_true, Bool.not_true, Bool.and_false, Bool.false_and]
    rw [BitVec.getLsbD_or, hHigh, Bool.false_or]
    simp only [BarRegister.read, BitVec.getLsbD_setWidth, hi, hHalf, BitVec.getLsbD_or,
      BitVec.getLsbD_and, BitVec.getLsbD_allOnes, getLsbD_mask64, decide_true, Bool.true_and]
    by_cases hType : i < 4
    · have hLow : i < log := by omega
      simp only [hType, hLow, decide_true, Bool.not_true, Bool.and_false]
    · have hFour : (4 : BitVec 32) = BitVec.twoPow 32 2 := by decide
      have hPrefetch := getLsbD_prefetchBit prefetch (by omega : i ≠ 3)
      have hBit : (4 : BitVec 32).getLsbD i = false := by
        rw [hFour, BitVec.getLsbD_twoPow]
        simp
        omega
      simp only [hType, hPrefetch, hBit, decide_false, Bool.not_false, Bool.and_true, Bool.or_false]
  · have hIndex : 32 + (i - 32) = i := by omega
    have hShift : i - 32 < 64 := by omega
    have hShift' : i - 32 < 32 := by omega
    have hType : ¬ i < 4 := by omega
    rw [BitVec.getLsbD_or, BitVec.getLsbD_shiftLeft]
    simp only [BarRegister.read, BitVec.getLsbD_setWidth, BitVec.getLsbD_and, BitVec.getLsbD_or,
      BitVec.getLsbD_allOnes, BitVec.getLsbD_ushiftRight, getLsbD_mask64, hIndex, hShift, hShift',
      hi, hHalf, hType, decide_true, decide_false, Bool.true_and, Bool.false_and, Bool.not_false,
      Bool.and_true]
    have hOver : ((4 : BitVec 32).getLsbD i || (prefetchBit prefetch).getLsbD i) = false := by
      rw [← BitVec.getLsbD_or]
      exact BitVec.getLsbD_of_ge _ _ (by omega)
    rw [hOver]
    simp only [Bool.or_false]

/-! ## `pci_allocate_bar` -/

theorem latch_writeBar (s : State) (value : BitVec 32) : (writeBar s a i value).latch a i = value := by
  change update s.latch a (update (s.latch a) i value) a i = value
  rw [update_self, update_self]

theorem latch_writeBar_of_ne {j : Nat} (s : State) (value : BitVec 32) (hNe : i ≠ j) :
    (writeBar s a j value).latch a i = s.latch a i := by
  change update s.latch a (update (s.latch a) j value) a i = _
  rw [update_self, update_of_ne hNe]

/-- `pci_allocate_bar` of a BAR that is not empty. -/
theorem pciAllocateBar_of_sized {s₁ s₂ : State} {bar : Word}
    (hFirst : pciSetBar devices s a i (-1) = s₁)
    (hBar : pciGetBar devices s₁ a i &&& ~~~0xf#64 = bar) (hSome : bar ≠ 0)
    (hSecond : pciSetBar devices s₁ a i (s₁.barAddressFree &&& bar) = s₂) :
    pciAllocateBar devices s a i = (if bar > 0xffffffff#64 then 2 else 1, { s₂ with
      barAddressFree := s₂.barAddressFree + ((-bar &&& 0xffffffff#64) + 0x10000)
      given := (decodes devices s₂ a i).toList ++ s₂.given }) := by
  subst hFirst hBar hSecond
  exact if_neg hSome

variable {least : 4 ≤ log}

section Low32
variable {most : log < 32} (hReg : (devices a).reg i = .low32 log prefetch least most)
include hReg

theorem pciSetBar_low32 (s : State) (value : Word) :
    pciSetBar devices s a i value = writeBar s a i (value.setWidth 32) := by
  have hType : barType (readBar devices s a i) = 0 := by
    unfold readBar
    rw [hReg]
    exact barType_low32 _
  unfold pciSetBar
  rw [hType]
  rfl

theorem pciGetBar_low32 (s : State) (hi : i ≤ 5) :
    pciGetBar devices s a i = (readBar devices s a i).setWidth 64 := by
  have hType : barType (readBar devices s a i) = 0 := by
    unfold readBar
    rw [hReg]
    exact barType_low32 _
  unfold pciGetBar
  rw [hType]
  exact if_neg (by omega)

/-- A 32-bit BAR gets the free address without its lower bits. -/
theorem pciAllocateBar_low32 (hi : i ≤ 5) : ∃ latch,
    pciAllocateBar devices s a i = (1, { s with
      latch := latch
      barAddressFree := s.barAddressFree +
        ((-(mask32 log).setWidth 64 &&& 0xffffffff#64) + 0x10000)
      given := ⟨s.barAddressFree &&& (mask32 log).setWidth 64, 2 ^ log⟩ :: s.given }) := by
  let s₁ := writeBar s a i (BitVec.allOnes 32)
  let s₂ := writeBar s₁ a i ((s.barAddressFree &&& (mask32 log).setWidth 64).setWidth 32)
  have hFirst : pciSetBar devices s a i (-1) = s₁ := pciSetBar_low32 hReg s _
  have hBar : pciGetBar devices s₁ a i &&& ~~~0xf#64 = (mask32 log).setWidth 64 := by
    rw [pciGetBar_low32 hReg s₁ hi]
    unfold readBar
    rw [hReg, latch_writeBar]
    exact sized_low32
  have hTop : ((mask32 log).setWidth 64).getLsbD 31 = true := by
    rw [BitVec.getLsbD_setWidth, getLsbD_mask32]
    simp only [Nat.not_lt.mpr (by omega : log ≤ 31), decide_false, Bool.not_false]
    rfl
  have hSome : (mask32 log).setWidth 64 ≠ 0 := by
    intro hZero
    rw [hZero] at hTop
    cases hTop
  have hSmall : ¬ (mask32 log).setWidth 64 > 0xffffffff#64 := by
    intro hLarge
    have hNat : 0xffffffff < ((mask32 log).setWidth 64).toNat := hLarge
    rw [BitVec.toNat_setWidth_of_le (by decide)] at hNat
    have hLt := (mask32 log).isLt
    omega
  have hSecond : pciSetBar devices s₁ a i (s₁.barAddressFree &&& (mask32 log).setWidth 64) = s₂ :=
    pciSetBar_low32 hReg s₁ _
  have hBase : (s₂.latch a i &&& mask32 log).setWidth 64 =
      s.barAddressFree &&& (mask32 log).setWidth 64 := by
    rw [latch_writeBar]
    apply BitVec.eq_of_getLsbD_eq
    intro k hk
    simp only [BitVec.getLsbD_setWidth, BitVec.getLsbD_and, hk, decide_true, Bool.true_and,
      getLsbD_mask32]
    cases decide (k < 32) <;> cases decide (k < log) <;> simp
  have hDecodes : decodes devices s₂ a i =
      some ⟨s.barAddressFree &&& (mask32 log).setWidth 64, 2 ^ log⟩ := by
    unfold decodes
    rw [hReg, ← hBase]
  have hAllocate := pciAllocateBar_of_sized hFirst hBar hSome hSecond
  rw [hDecodes, if_neg hSmall] at hAllocate
  exact ⟨s₂.latch, hAllocate⟩

end Low32

section Low64
variable {most : log < 64} (hReg : (devices a).reg i = .low64 log prefetch least most)
include hReg

theorem barType_reg_low64 (s : State) : barType (readBar devices s a i) = 2 := by
  unfold readBar
  rw [hReg]
  exact barType_low64 _

theorem pciSetBar_low64 (s : State) (value : Word) : pciSetBar devices s a i value =
    writeBar (writeBar s a i (value.setWidth 32)) a (i + 1) ((value >>> 32).setWidth 32) := by
  unfold pciSetBar
  rw [barType_reg_low64 hReg]
  rfl

theorem pciGetBar_low64 (s : State) (hi : i ≤ 5) : pciGetBar devices s a i =
    ((readBar devices s a (i + 1)).setWidth 64 <<< 32) ||| (readBar devices s a i).setWidth 64 := by
  unfold pciGetBar
  rw [barType_reg_low64 hReg]
  exact if_neg (by omega)

/-- The two registers of a 64-bit BAR hold the value that was set. -/
theorem append_latch (s : State) (value : Word) :
    (pciSetBar devices s a i value).latch a (i + 1) ++ (pciSetBar devices s a i value).latch a i =
      value := by
  rw [pciSetBar_low64 hReg, latch_writeBar, latch_writeBar_of_ne _ _ (by omega : i ≠ i + 1),
    latch_writeBar]
  apply BitVec.eq_of_getLsbD_eq
  intro k hk
  rw [BitVec.getLsbD_append]
  by_cases hHalf : k < 32
  · simp [hHalf]
  · have hIndex : 32 + (k - 32) = k := by omega
    have hShift : k - 32 < 32 := by omega
    simp [hHalf, hIndex, hShift]

/-- A 64-bit BAR gets the free address without its lower bits. -/
theorem pciAllocateBar_low64 (hi : i ≤ 5) : ∃ latch,
    pciAllocateBar devices s a i = (2, { s with
      latch := latch
      barAddressFree := s.barAddressFree + ((-mask64 log &&& 0xffffffff#64) + 0x10000)
      given := ⟨s.barAddressFree &&& mask64 log, 2 ^ log⟩ :: s.given }) := by
  let s₁ := writeBar (writeBar s a i (BitVec.allOnes 32)) a (i + 1) (BitVec.allOnes 32)
  have hFirst : pciSetBar devices s a i (-1) = s₁ := pciSetBar_low64 hReg s _
  have hUpper := (devices a).paired i log prefetch least most hReg
  have hBar : pciGetBar devices s₁ a i &&& ~~~0xf#64 = mask64 log := by
    rw [pciGetBar_low64 hReg s₁ hi]
    unfold readBar
    rw [hReg, hUpper, latch_writeBar, latch_writeBar_of_ne _ _ (by omega : i ≠ i + 1),
      latch_writeBar]
    exact sized_low64
  have hTop : (mask64 log).getLsbD 63 = true := by
    rw [getLsbD_mask64]
    simp only [Nat.not_lt.mpr (by omega : log ≤ 63), decide_false, Bool.not_false]
    rfl
  have hSome : mask64 log ≠ 0 := by
    intro hZero
    rw [hZero] at hTop
    cases hTop
  have hLarge : mask64 log > 0xffffffff#64 := by
    have hBit := Nat.ge_two_pow_of_testBit hTop
    change 0xffffffff < (mask64 log).toNat
    omega
  let value := s₁.barAddressFree &&& mask64 log
  let s₂ := writeBar (writeBar s₁ a i (value.setWidth 32)) a (i + 1) ((value >>> 32).setWidth 32)
  have hSecond : pciSetBar devices s₁ a i value = s₂ := pciSetBar_low64 hReg s₁ value
  have hAppend := append_latch hReg s₁ value
  rw [hSecond] at hAppend
  have hDecodes : decodes devices s₂ a i =
      some ⟨s.barAddressFree &&& mask64 log, 2 ^ log⟩ := by
    unfold decodes
    rw [hReg]
    change some (Range.mk ((s₂.latch a (i + 1) ++ s₂.latch a i) &&& mask64 log) _) = _
    rw [hAppend, BitVec.and_assoc, BitVec.and_self]
    rfl
  have hAllocate := pciAllocateBar_of_sized hFirst hBar hSome hSecond
  rw [hDecodes, if_pos hLarge] at hAllocate
  exact ⟨s₂.latch, hAllocate⟩

end Low64

/-- An empty BAR gets nothing. -/
theorem pciAllocateBar_empty (hReg : (devices a).reg i = .empty) : ∃ latch,
    pciAllocateBar devices s a i = (1, { s with latch := latch }) := by
  have hRead (s : State) : readBar devices s a i = 0 := by
    unfold readBar
    rw [hReg]
    rfl
  have hFirst : pciSetBar devices s a i (-1) = writeBar s a i (BitVec.allOnes 32) := by
    unfold pciSetBar
    rw [hRead]
    rfl
  have hBar : pciGetBar devices (writeBar s a i (BitVec.allOnes 32)) a i &&& ~~~0xf#64 = 0 := by
    have hType : barType 0 = 0 := by decide
    unfold pciGetBar
    rw [hRead, hType]
    split
    · rfl
    · change (if (0 : BitVec 32) = 2 then _ else BitVec.setWidth 64 0) &&& ~~~0xf#64 = 0
      rw [if_neg (by decide)]
      rfl
  refine ⟨(writeBar s a i (BitVec.allOnes 32)).latch, ?_⟩
  unfold pciAllocateBar
  dsimp only
  rw [hFirst, hBar]
  rfl

/-! ## Runs -/

/-- Two ranges without a common byte. -/
def Range.Disjoint (r q : Range) : Prop :=
  r.base.toNat + r.size ≤ q.base.toNat ∨ q.base.toNat + q.size ≤ r.base.toNat

/-- What is promised of the ranges: every one is naturally aligned, and no two
have a common byte. -/
structure Sound (s : State) : Prop where
  aligned : ∀ r ∈ s.given, r.size ∣ r.base.toNat
  disjoint : s.given.Pairwise Range.Disjoint

/-- The loops never look at the upper half of a 64-bit BAR by itself. -/
structure Inv (devices : Address → Device) (s : State) : Prop where
  place : ∀ a count i, s.place = .allocating a count i →
    count ≤ 6 ∧ ∀ log, (devices a).reg i ≠ .high64 log
  sound : Sound s

/-- The free address rounded down to the size is not below the ranges given. -/
theorem Sound.give {base : Word} {latch : Address → Nat → BitVec 32} {free : Word} {place : Place}
    (h : Sound s) (hBase : base.toNat = s.barAddressFree.toNat / 2 ^ log * 2 ^ log)
    (hRoom : Reaches s (2 ^ log)) : Sound { s with
      latch := latch, barAddressFree := free, place := place
      given := ⟨base, 2 ^ log⟩ :: s.given } := by
  obtain ⟨address, ⟨k, rfl⟩, hLe, hAbove⟩ := hRoom
  have hFloor : 2 ^ log * k ≤ base.toNat := by
    rw [hBase, Nat.mul_comm]
    apply Nat.mul_le_mul_right
    rw [Nat.le_div_iff_mul_le (Nat.two_pow_pos log), Nat.mul_comm]
    exact hLe
  refine ⟨fun r hr => ?_, List.pairwise_cons.mpr ⟨fun r hr => ?_, h.disjoint⟩⟩
  · rcases List.mem_cons.mp hr with rfl | hr
    · exact ⟨s.barAddressFree.toNat / 2 ^ log, by rw [hBase, Nat.mul_comm]⟩
    · exact h.aligned r hr
  · exact .inr ((hAbove r hr).trans hFloor)

/-- With a free address of 32 bits the mask of a 32-bit BAR acts as that of a
64-bit BAR. -/
theorem and_mask32 {free : Word} (hFree : free.toNat < 2 ^ 32) :
    free &&& (mask32 log).setWidth 64 = free &&& mask64 log := by
  apply BitVec.eq_of_getLsbD_eq
  intro k hk
  rw [BitVec.getLsbD_and, BitVec.getLsbD_and, BitVec.getLsbD_setWidth, getLsbD_mask32,
    getLsbD_mask64]
  by_cases hHalf : k < 32
  · simp only [hHalf, hk, decide_true, Bool.true_and]
  · rw [getLsbD_of_toNat_lt hFree (by omega)]
    simp only [Bool.false_and]

/-- Behind a register that is not the lower half of a 64-bit BAR no upper half
follows. -/
theorem not_high64_succ (hLow : ∀ log prefetch least most,
      (devices a).reg i ≠ .low64 log prefetch least most) (log : Nat) :
    (devices a).reg (i + 1) ≠ .high64 log := by
  intro hHigh
  obtain ⟨prefetch, least, most, hReg⟩ := (devices a).upper i log hHigh
  exact hLow log prefetch least most hReg

theorem Inv.allocate {count : Nat} (h : Inv devices s) (hPlace : s.place = .allocating a count i)
    (hMore : i < count) (hRoom : Room devices s .allocate) :
    Inv devices (allocateIteration devices s a count i) := by
  obtain ⟨hCount, hNotHigh⟩ := h.place a count i hPlace
  have hi : i ≤ 5 := by omega
  unfold Room at hRoom
  unfold allocateIteration
  rw [hPlace] at hRoom
  cases hReg : (devices a).reg i with
  | empty =>
      obtain ⟨latch, hAllocate⟩ := pciAllocateBar_empty (s := s) hReg
      rw [hAllocate]
      refine ⟨?_, h.sound.aligned, h.sound.disjoint⟩
      rintro _ _ _ ⟨⟩
      exact ⟨hCount, not_high64_succ fun _ _ _ _ hLow => by rw [hReg] at hLow; cases hLow⟩
  | low32 log prefetch least most =>
      obtain ⟨latch, hAllocate⟩ := pciAllocateBar_low32 (s := s) hReg hi
      dsimp only at hRoom
      rw [hReg] at hRoom
      rw [hAllocate]
      refine ⟨?_, h.sound.give ?_ hRoom.2⟩
      · rintro _ _ _ ⟨⟩
        exact ⟨hCount, not_high64_succ fun _ _ _ _ hLow => by rw [hReg] at hLow; cases hLow⟩
      · rw [and_mask32 hRoom.1]
        exact toNat_and_highMask _ _
  | low64 log prefetch least most =>
      obtain ⟨latch, hAllocate⟩ := pciAllocateBar_low64 (s := s) hReg hi
      dsimp only at hRoom
      rw [hReg] at hRoom
      rw [hAllocate]
      refine ⟨?_, h.sound.give (toNat_and_highMask _ _) hRoom⟩
      rintro _ _ _ ⟨⟩
      have hHigh := (devices a).paired i log prefetch least most hReg
      exact ⟨hCount, not_high64_succ fun _ _ _ _ hLow => by rw [hHigh] at hLow; cases hLow⟩
  | high64 log => exact absurd hReg (hNotHigh log)

theorem Step.inv (hStep : Guarded (Step devices) (Room devices) s event t)
    (h : Inv devices s) : Inv devices t := by
  obtain ⟨hRoom, hStep⟩ := hStep
  have hStart (a : Address) (count : Nat) (hCount : count ≤ 6) :
      Inv devices { s with place := .allocating a count 0 } := by
    refine ⟨?_, h.sound.aligned, h.sound.disjoint⟩
    rintro _ _ _ ⟨⟩
    exact ⟨hCount, (devices a).first⟩
  cases hStep with
  | register a hIdle =>
      by_cases hKnown : ((devices a).vendorId, (devices a).deviceId) ∈ s.drivers
      · have hSame : pciRegisterDriver devices s a = s := if_pos hKnown
        rw [hSame]
        exact h
      · have hNew : pciRegisterDriver devices s a = { s with
            drivers := ((devices a).vendorId, (devices a).deviceId) :: s.drivers
            place := .allocating a 6 0 } := if_neg hKnown
        obtain ⟨hPlace, hAligned, hDisjoint⟩ := hStart a 6 (by decide)
        rw [hNew]
        exact ⟨hPlace, hAligned, hDisjoint⟩
  | configT1 a hIdle => exact hStart a 2 (by decide)
  | init a hIdle hLoop => exact hStart a 6 (by decide)
  | allocate a count i hPlace hMore => exact h.allocate hPlace hMore hRoom
  | done a count i hPlace hEnd => exact ⟨nofun, h.sound.aligned, h.sound.disjoint⟩

theorem inv_start (devices : Address → Device) (latch : Address → Nat → BitVec 32) :
    Inv devices (start latch) :=
  ⟨nofun, nofun, List.Pairwise.nil⟩

/-- The ranges are aligned and disjoint in every run in which the free address
is never below the end of a range, nor rounded down to below it. -/
theorem bars_disjoint_of_room (latch : Address → Nat → BitVec 32) {events : List Event}
    (run : Run (Guarded (Step devices) (Room devices)) (start latch) events s) : Sound s :=
  (run.invariant (Inv devices) (inv_start devices latch)
    (fun _ _ _ h hStep => Step.inv hStep h)).sound

/-! ## Small BARs -/

/-- No BAR is larger than the padding of 64 KiB that `pci_allocate_bar` leaves. -/
structure Small (device : Device) : Prop where
  low32 : ∀ i log prefetch least most,
    device.reg i = .low32 log prefetch least most → log ≤ 16
  low64 : ∀ i log prefetch least most,
    device.reg i = .low64 log prefetch least most → log ≤ 16

/-- Below this number of devices the free addresses have 32 bits. -/
def Few (s : State) (_ : Event) : Prop :=
  s.devCount.toNat < 3071

/-- The free address stays in the 1 MiB of the device with the number `n`, and
64 KiB above the ranges that were given. -/
structure Window (n free : Nat) (place : Place) (given : List Range) : Prop where
  few : n ≤ 3071
  idle : place = .idle → free = 0x40000000 + 0x100000 * n
  allocating : ∀ a count i, place = .allocating a count i → count ≤ 6 ∧ i ≤ 7 ∧
    0x40000000 + 0x100000 * n ≤ free ∧ free ≤ 0x40000000 + 0x100000 * n + 0x20000 * i
  below : ∀ r ∈ given, r.base.toNat + r.size + 0x10000 ≤ free

/-- The window of a state. -/
abbrev InWindow (s : State) : Prop :=
  Window s.devCount.toNat s.barAddressFree.toNat s.place s.given

namespace Window

theorem two_pow_le (hLog : log ≤ 16) : 2 ^ log ≤ 0x10000 :=
  Nat.pow_le_pow_right (by decide) hLog

/-- The free address rounded down is less than 64 KiB below it. -/
theorem reaches (h : InWindow s) (hLog : log ≤ 16) : Reaches s (2 ^ log) := by
  have hPos := Nat.two_pow_pos log
  have hSize := two_pow_le hLog
  have hFloor := Nat.div_add_mod s.barAddressFree.toNat (2 ^ log)
  have hMod := Nat.mod_lt s.barAddressFree.toNat hPos
  refine ⟨2 ^ log * (s.barAddressFree.toNat / 2 ^ log), ⟨_, rfl⟩, by omega, fun r hr => ?_⟩
  have hBelow := h.below r hr
  omega

/-- The window at a known place. -/
theorem at_place {place : Place} (h : InWindow s) (hPlace : s.place = place) :
    Window s.devCount.toNat s.barAddressFree.toNat place s.given := by
  rw [← hPlace]
  exact h

variable {n free count : Nat} {given : List Range}

theorem free_lt (h : Window n free (.allocating a count i) given) (hMore : i < count) :
    free + 0x20000 < 2 ^ 32 := by
  have hFew := h.few
  obtain ⟨hSix, -, -, hFree⟩ := h.allocating a count i rfl
  omega

theorem room (h : InWindow s) (hSmall : ∀ a, Small (devices a)) (hStep : Step devices s event t) :
    Room devices s event := by
  cases hStep with
  | register | configT1 | init | done => trivial
  | allocate a count i hPlace hMore =>
      have hWindow := at_place h hPlace
      have hFree := hWindow.free_lt hMore
      unfold Room
      rw [hPlace]
      cases hReg : (devices a).reg i with
      | empty => simp only [hReg]
      | low32 log prefetch least most =>
          simp only [hReg]
          exact ⟨by omega, h.reaches ((hSmall a).low32 i log prefetch least most hReg)⟩
      | low64 log prefetch least most =>
          simp only [hReg]
          exact h.reaches ((hSmall a).low64 i log prefetch least most hReg)
      | high64 log => simp only [hReg]

/-- The next free address has 64 bits. -/
theorem advance_lt (hFree : free + 0x20000 < 2 ^ 32) (hLog : log ≤ 16) :
    free + (2 ^ log + 0x10000) < 2 ^ 64 :=
  calc free + (2 ^ log + 0x10000) ≤ free + (0x10000 + 0x10000) :=
        Nat.add_le_add_left (Nat.add_le_add_right (two_pow_le hLog) 0x10000) free
    _ < 2 ^ 32 := hFree
    _ ≤ 2 ^ 64 := by decide

/-- A range that is given lies below the next free address. -/
theorem give {free step : Word} (h : Window n free.toNat (.allocating a count i) given)
    (hMore : i < count) (hLog : log ≤ 16) (hStep : step.toNat = 2 ^ log + 0x10000) (mask : Word)
    {width : Nat} (hWidth : 1 ≤ width ∧ width ≤ 2) :
    Window n (free + step).toNat (.allocating a count (i + width))
      (⟨free &&& mask, 2 ^ log⟩ :: given) := by
  have hPos := Nat.two_pow_pos log
  have hSize := two_pow_le hLog
  have hBase : (free &&& mask).toNat ≤ free.toNat := by
    rw [BitVec.toNat_and]
    exact Nat.and_le_left
  have hNext : (free + step).toNat = free.toNat + (2 ^ log + 0x10000) := by
    rw [BitVec.toNat_add, hStep, Nat.mod_eq_of_lt (advance_lt (h.free_lt hMore) hLog)]
  obtain ⟨hSix, -, hLow, hHigh⟩ := h.allocating a count i rfl
  rw [hNext]
  refine ⟨h.few, nofun, ?_, fun r hr => ?_⟩
  · rintro _ _ _ ⟨⟩
    exact ⟨hSix, by omega, by omega, by omega⟩
  · rcases List.mem_cons.mp hr with rfl | hr
    · change (free &&& mask).toNat + 2 ^ log + 0x10000 ≤ _
      omega
    · have hBelow := h.below r hr
      omega

/-- The next device starts 1 MiB further on. -/
theorem next (h : Window n free (.allocating a count i) given) (hFew : n < 3071) :
    Window (n + 1) (0x40000000 + 0x100000 * (n + 1)) .idle given := by
  obtain ⟨-, hSeven, -, hHigh⟩ := h.allocating a count i rfl
  refine ⟨hFew, fun _ => rfl, nofun, fun r hr => ?_⟩
  have hBelow := h.below r hr
  omega

/-- The free address moves by the size of the BAR and 64 KiB. -/
theorem toNat_advance32 (hLeast : 4 ≤ log) (hLog : log ≤ 16) :
    ((-(mask32 log).setWidth 64 &&& 0xffffffff#64) + 0x10000 : Word).toNat =
      2 ^ log + 0x10000 := by
  have hAll : ∀ k < 17, 4 ≤ k → ((-(mask32 k).setWidth 64 &&& 0xffffffff#64) + 0x10000 : Word).toNat =
      2 ^ k + 0x10000 := by decide
  exact hAll log (by omega) hLeast

theorem toNat_advance64 (hLeast : 4 ≤ log) (hLog : log ≤ 16) :
    ((-mask64 log &&& 0xffffffff#64) + 0x10000 : Word).toNat = 2 ^ log + 0x10000 := by
  have hAll : ∀ k < 17, 4 ≤ k → ((-mask64 k &&& 0xffffffff#64) + 0x10000 : Word).toNat =
      2 ^ k + 0x10000 := by decide
  exact hAll log (by omega) hLeast

theorem allocate (h : InWindow s) (hInv : Inv devices s) (hSmall : ∀ a, Small (devices a))
    (hPlace : s.place = .allocating a count i) (hMore : i < count) :
    InWindow (allocateIteration devices s a count i) := by
  obtain ⟨hSix, hNotHigh⟩ := hInv.place a count i hPlace
  have hi : i ≤ 5 := by omega
  have hWindow := at_place h hPlace
  unfold allocateIteration
  cases hReg : (devices a).reg i with
  | empty =>
      obtain ⟨latch, hAllocate⟩ := pciAllocateBar_empty (s := s) hReg
      obtain ⟨-, -, hLow, hHigh⟩ := hWindow.allocating a count i rfl
      rw [hAllocate]
      refine ⟨h.few, nofun, ?_, h.below⟩
      rintro _ _ _ ⟨⟩
      exact ⟨hSix, Nat.le_succ_of_le (Nat.succ_le_succ hi), hLow,
        hHigh.trans (Nat.add_le_add_left (Nat.mul_le_mul_left _ (Nat.le_succ i)) _)⟩
  | low32 log prefetch least most =>
      obtain ⟨latch, hAllocate⟩ := pciAllocateBar_low32 (s := s) hReg hi
      have hLog := (hSmall a).low32 i log prefetch least most hReg
      rw [hAllocate]
      exact hWindow.give hMore hLog (toNat_advance32 least hLog) _ ⟨le_refl 1, by decide⟩
  | low64 log prefetch least most =>
      obtain ⟨latch, hAllocate⟩ := pciAllocateBar_low64 (s := s) hReg hi
      have hLog := (hSmall a).low64 i log prefetch least most hReg
      rw [hAllocate]
      exact hWindow.give hMore hLog (toNat_advance64 least hLog) _ ⟨by decide, le_refl 2⟩
  | high64 log => exact absurd hReg (hNotHigh log)

theorem done (h : InWindow s) (hFew : s.devCount.toNat < 3071)
    (hPlace : s.place = .allocating a count i) : InWindow (nextDevice s) := by
  have hWindow := at_place h hPlace
  have hOne : (s.devCount + 1).toNat = s.devCount.toNat + 1 := by
    rw [BitVec.toNat_add]
    exact Nat.mod_eq_of_lt (by change s.devCount.toNat + 1 < _; omega)
  have hFree : (0x40000000 + 0x100000 * (s.devCount + 1) : Word).toNat =
      0x40000000 + 0x100000 * (s.devCount.toNat + 1) := by
    rw [BitVec.toNat_add, BitVec.toNat_mul, hOne]
    change (0x40000000 + 0x100000 * (s.devCount.toNat + 1) % 2 ^ 64) % 2 ^ 64 = _
    omega
  have hNext := hWindow.next hFew
  rw [← hFree, ← hOne] at hNext
  exact hNext

theorem step (hSmall : ∀ a, Small (devices a)) (hStep : Guarded (Step devices) Few s event t)
    (h : InWindow s ∧ Inv devices s) : InWindow t ∧ Inv devices t := by
  obtain ⟨hFew, hStep⟩ := hStep
  obtain ⟨hWindow, hInv⟩ := h
  refine ⟨?_, Step.inv ⟨hWindow.room hSmall hStep, hStep⟩ hInv⟩
  have hStart (a : Address) (count : Nat) (hIdle : s.place = .idle) (hCount : count ≤ 6) :
      Window s.devCount.toNat s.barAddressFree.toNat (.allocating a count 0) s.given := by
    have hFree := hWindow.idle hIdle
    refine ⟨hWindow.few, nofun, ?_, hWindow.below⟩
    rintro _ _ _ ⟨⟩
    exact ⟨hCount, by decide, hFree.ge, hFree.le⟩
  cases hStep with
  | register a hIdle =>
      by_cases hKnown : ((devices a).vendorId, (devices a).deviceId) ∈ s.drivers
      · have hSame : pciRegisterDriver devices s a = s := if_pos hKnown
        rw [hSame]
        exact hWindow
      · have hNew : pciRegisterDriver devices s a = { s with
            drivers := ((devices a).vendorId, (devices a).deviceId) :: s.drivers
            place := .allocating a 6 0 } := if_neg hKnown
        rw [hNew]
        exact hStart a 6 hIdle (by decide)
  | configT1 a hIdle => exact hStart a 2 hIdle (by decide)
  | init a hIdle hLoop => exact hStart a 6 hIdle (by decide)
  | allocate a count i hPlace hMore => exact hWindow.allocate hInv hSmall hPlace hMore
  | done a count i hPlace hEnd => exact hWindow.done hFew hPlace

theorem start (latch : Address → Nat → BitVec 32) : InWindow (start latch) :=
  ⟨Nat.zero_le _, fun _ => rfl, nofun, nofun⟩

end Window

/-- Devices with small BARs never get ranges that meet. -/
theorem sound_of_small (hSmall : ∀ a, Small (devices a)) (latch : Address → Nat → BitVec 32)
    {events : List Event} (run : Run (Guarded (Step devices) Few) (start latch) events s) :
    Sound s :=
  (run.invariant (fun s => InWindow s ∧ Inv devices s)
    ⟨Window.start latch, inv_start devices latch⟩
    (fun _ _ _ h hStep => Window.step hSmall hStep h)).2.sound

/-! ## Examples -/

/-- A device with 32-bit BARs of 4 KiB and 16 KiB. -/
def smallDevice : Device where
  vendorId := 0x1af4
  deviceId := 0x1042
  reg
    | 0 => .low32 12 false (by decide) (by decide)
    | 1 => .low32 14 false (by decide) (by decide)
    | _ => .empty
  paired i log prefetch least most h := by
    match i with
    | 0 | 1 | _ + 2 => cases h
  upper i log h := by
    match i with
    | 0 | _ + 1 => cases h
  first _ := nofun
  last i hi := by
    match i with
    | _ + 2 => rfl

/-- Its two BARs are given ranges. -/
theorem bars_disjoint_of_room_small :
    Sound (allocateIteration (fun _ => smallDevice) (allocateIteration (fun _ => smallDevice)
      (pciRegisterDriver (fun _ => smallDevice) (start fun _ _ => 0) ⟨1, 0, 0⟩)
      ⟨1, 0, 0⟩ 6 0) ⟨1, 0, 0⟩ 6 1) := by
  let devices : Address → Device := fun _ => smallDevice
  let s₀ := start fun _ _ => 0
  let s₁ := pciRegisterDriver devices s₀ ⟨1, 0, 0⟩
  let s₂ := allocateIteration devices s₁ ⟨1, 0, 0⟩ 6 0
  have hStart : Room devices s₀ (.register ⟨1, 0, 0⟩) := trivial
  have hFirst : Room devices s₁ .allocate := ⟨by decide, 0x40000000, by decide, by decide, nofun⟩
  have hGiven : s₂.given = [⟨0x40000000, 0x1000⟩] := by decide
  have hPlace : s₂.place = .allocating ⟨1, 0, 0⟩ 6 1 := by decide
  have hSecond : Room devices s₂ .allocate := by
    unfold Room
    rw [hPlace]
    refine ⟨by decide, 0x40010000, by decide, by decide, fun r hr => ?_⟩
    rw [hGiven, List.mem_singleton] at hr
    rw [hr]
    decide
  exact bars_disjoint_of_room (fun _ _ => 0) (.snoc (.snoc (.snoc (.nil s₀)
    ⟨hStart, .register ⟨1, 0, 0⟩ rfl⟩)
    ⟨hFirst, .allocate ⟨1, 0, 0⟩ 6 0 rfl (by decide)⟩)
    ⟨hSecond, .allocate ⟨1, 0, 0⟩ 6 1 hPlace (by decide)⟩)

/-- A device with a BAR of 16 bytes and one of 1 MiB. -/
def largeDevice : Device where
  vendorId := 0x1af4
  deviceId := 0x1050
  reg
    | 0 => .low32 4 false (by decide) (by decide)
    | 1 => .low32 20 false (by decide) (by decide)
    | _ => .empty
  paired i log prefetch least most h := by
    match i with
    | 0 | 1 | _ + 2 => cases h
  upper i log h := by
    match i with
    | 0 | _ + 1 => cases h
  first _ := nofun
  last i hi := by
    match i with
    | _ + 2 => rfl

/-- A bridge without BARs. -/
def bridge : Device where
  vendorId := 0x1b36
  deviceId := 0x000c
  reg _ := .empty
  paired _ _ _ _ _ := nofun
  upper _ _ := nofun
  first _ := nofun
  last _ _ := rfl

/-- Behind a bridge on bus 0 the second BAR of the device is given the address
of the first one. -/
theorem not_bars_disjoint : ¬ ∀ devices latch events s,
    Run (Step devices) (start latch) events s → Sound s := by
  intro hClaim
  let devices : Address → Device := fun a => if a.bus = 0 then bridge else largeDevice
  let s₀ : State := { start (fun _ _ => 0) with place := .allocating ⟨0, 1, 0⟩ 2 0 }
  let s₁ := allocateIteration devices s₀ ⟨0, 1, 0⟩ 2 0
  let s₂ := allocateIteration devices s₁ ⟨0, 1, 0⟩ 2 1
  let s₃ := pciRegisterDriver devices (nextDevice s₂) ⟨1, 0, 0⟩
  let s₄ := allocateIteration devices s₃ ⟨1, 0, 0⟩ 6 0
  let s₅ := allocateIteration devices s₄ ⟨1, 0, 0⟩ 6 1
  have hPlace₁ : s₁.place = .allocating ⟨0, 1, 0⟩ 2 1 := by decide
  have hPlace₂ : s₂.place = .allocating ⟨0, 1, 0⟩ 2 2 := by decide
  have hPlace₄ : s₄.place = .allocating ⟨1, 0, 0⟩ 6 1 := by decide
  have hBridge : Run (Step devices) (start fun _ _ => 0) _ s₂ :=
    .snoc (.snoc (.snoc (.nil _) (.configT1 ⟨0, 1, 0⟩ rfl))
      (.allocate ⟨0, 1, 0⟩ 2 0 rfl (by decide))) (.allocate ⟨0, 1, 0⟩ 2 1 hPlace₁ (by decide))
  have hRun : Run (Step devices) (start fun _ _ => 0) _ s₅ :=
    .snoc (.snoc (.snoc (.snoc hBridge (.done ⟨0, 1, 0⟩ 2 2 hPlace₂ (by decide)))
      (.register ⟨1, 0, 0⟩ rfl)) (.allocate ⟨1, 0, 0⟩ 6 0 (by decide) (by decide)))
      (.allocate ⟨1, 0, 0⟩ 6 1 hPlace₄ (by decide))
  have hDisjoint := (hClaim devices _ _ _ hRun).disjoint
  have hGiven : s₅.given = [⟨0x40100000, 0x100000⟩, ⟨0x40100000, 0x10⟩] := by decide
  rw [hGiven, List.pairwise_pair] at hDisjoint
  revert hDisjoint
  unfold Range.Disjoint
  decide

end Kernel.Pci
