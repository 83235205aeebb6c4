import RiscvOs.Kernel.Minix3Image

/-! The byte offsets that `minix_print` computes. The products have 32 bits and
are widened to the 64 bits of `byte` afterwards. -/
namespace Kernel.Minix3

open Semantics

variable {sb : Superblock} {inode zone : BitVec 32} {block : Memory}

/-- `num_inodes` and `num_zones` of the superblock, which `minix_print` does not
read. -/
def numInodes (block : Memory) : BitVec 32 :=
  block.load32 0

def numZonesOf (block : Memory) : BitVec 32 :=
  block.load32 20

/-- The value of `byte` for an inode. -/
def inodeByte (sb : Superblock) (inode : BitVec 32) : Word :=
  (offset inode sb.imapBlocks sb.zmapBlocks).setWidth 64

/-- The offsets of all inodes and zones that the superblock counts. -/
def OffsetsExact (block : Memory) : Prop :=
  let sb := Superblock.load block
  (∀ inode : BitVec 32, 1 ≤ inode.toNat → inode.toNat ≤ (numInodes block).toNat →
    (inodeByte sb inode).toNat =
      2048 + (inode.toNat - 1) * 64 + (sb.imapBlocks.toNat + sb.zmapBlocks.toNat) * 1024) ∧
    ∀ zone : BitVec 32, zone.toNat < (numZonesOf block).toNat →
      (zoneByte zone).toNat = zone.toNat * 1024

theorem inodeAddr_eq (sb : Superblock) (inode : BitVec 32) : inodeAddr sb inode =
    2048 + (inode.toNat - 1) * 64 + (sb.imapBlocks.toNat + sb.zmapBlocks.toNat) * 1024 := by
  unfold inodeAddr
  omega

/-- An offset is exact when it fits in 32 bits. -/
theorem inodeByte_exact_iff (hPos : 1 ≤ inode.toNat) :
    (inodeByte sb inode).toNat = inodeAddr sb inode ↔ inodeAddr sb inode < 2 ^ 32 := by
  constructor
  · intro hExact
    rw [← hExact, inodeByte, BitVec.toNat_setWidth]
    omega
  · intro hLow
    have hInode : inode ≠ 0 := by
      rintro rfl
      exact absurd hPos (by decide)
    rw [inodeByte, offset_of_low hInode hLow, BitVec.toNat_ofNat]
    omega

theorem zoneByte_exact_iff :
    (zoneByte zone).toNat = zone.toNat * 1024 ↔ zone.toNat < 2 ^ 22 := by
  have hZone := zone.isLt
  rw [zoneByte, BitVec.toNat_setWidth, BitVec.toNat_mul,
    show (1024 : BitVec 32).toNat = 1024 from rfl]
  omega

/-- The largest offsets decide for all of them. -/
theorem offsetsExact_iff (block : Memory) : OffsetsExact block ↔
    inodeAddr (Superblock.load block) (numInodes block) < 2 ^ 32 ∧
      (numZonesOf block).toNat ≤ 2 ^ 22 := by
  have hImap := (Superblock.load block).imapBlocks.isLt
  have hZmap := (Superblock.load block).zmapBlocks.isLt
  constructor
  · rintro ⟨hInodes, hZones⟩
    constructor
    · by_cases hNone : (numInodes block).toNat = 0
      · rw [inodeAddr_eq, hNone]
        omega
      · have hPos : 1 ≤ (numInodes block).toNat := Nat.one_le_iff_ne_zero.mpr hNone
        have hLast := hInodes _ hPos (Nat.le_refl _)
        rw [← inodeAddr_eq] at hLast
        exact (inodeByte_exact_iff hPos).mp hLast
    · by_contra hMany
      -- Zone `2 ^ 22` is the first one whose product is too large.
      have hFirst : (BitVec.ofNat 32 (2 ^ 22)).toNat = 2 ^ 22 := by decide
      have hZone := hZones (BitVec.ofNat 32 (2 ^ 22)) (by omega)
      have hSmall := zoneByte_exact_iff.mp hZone
      omega
  · rintro ⟨hInodes, hZones⟩
    constructor
    · intro inode hPos hInode
      rw [← inodeAddr_eq]
      refine (inodeByte_exact_iff hPos).mpr (lt_of_le_of_lt ?_ hInodes)
      unfold inodeAddr
      omega
    · intro zone hZone
      exact zoneByte_exact_iff.mpr (by omega)

/-- A superblock of a disk of 4 GiB and one zone. -/
def largeSuperblock : Memory := fun a =>
  if a = 0 then 1 else if a = 20 then 1 else if a = 22 then 0x40 else 0

/-- The last zone, whose number is `2 ^ 22`, is read at the byte 0. -/
theorem not_offsetsExact : ¬ OffsetsExact largeSuperblock := by
  rintro ⟨-, hZones⟩
  have hLast := hZones 0x400000 (by decide)
  revert hLast
  decide

end Kernel.Minix3
