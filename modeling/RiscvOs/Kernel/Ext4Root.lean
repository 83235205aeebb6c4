import Mathlib.Tactic.Ring
import RiscvOs.Semantics.Loop
import RiscvOs.Kernel.Ext4

/-! The root directory that `ext4_print_root` prints: the address of its inode,
and the loop over its entries. -/
namespace Kernel.Ext4

open Semantics

/-! ## The address of the root inode -/

variable {sb : Superblock} {bg : Groupdesc} {b : Word} {inodeSize : BitVec 16}

/-- `s_inode_size` of the superblock, which the address does not depend on. -/
def sInodeSize (block : Memory) : BitVec 16 :=
  block.load16 88

/-- `1024 << s_log_block_size` as a number. -/
def sizeOfBlock (sb : Superblock) : Nat :=
  1024 * 2 ^ sb.sLogBlockSize.toNat

/-- The block size as `ext4_print_root` passes it on, in 32 bits. -/
def passedSize (sb : Superblock) : BitVec 32 :=
  (blockSize sb).setWidth 32

/-- The offset on the disk of the bytes that `root` points to. The buffer has the
bytes from the start of the inode table on. -/
def rootOffset (bg : Groupdesc) (sb : Superblock) : Nat :=
  (blockOffset (inodeTableBlock bg) (passedSize sb)).toNat + (ext2RootIno * sizeofInode).toNat

/-- The offset of a block, and the offset of the root inode in its table. -/
def AddressesExact (bg : Groupdesc) (sb : Superblock) (inodeSize : BitVec 16) (b : Word) : Prop :=
  (blockOffset b (passedSize sb)).toNat = b.toNat * sizeOfBlock sb ∧
    rootOffset bg sb = (inodeTableBlock bg).toNat * sizeOfBlock sb +
      (ext2RootIno.toNat - 1) * inodeSize.toNat

theorem passedSize_eq (sb : Superblock) :
    passedSize sb = 1024#32 <<< (sb.sLogBlockSize.toNat % 32) := by
  apply BitVec.eq_of_getLsbD_eq
  intro i hi
  have hWide : i < 64 := by omega
  simp only [passedSize, blockSize, BitVec.getLsbD_setWidth, BitVec.getLsbD_signExtend, hi, hWide,
    decide_true, Bool.true_and, ↓reduceIte]

theorem passedSize_le (sb : Superblock) : (passedSize sb).toNat ≤ sizeOfBlock sb := by
  have hPow : 2 ^ (sb.sLogBlockSize.toNat % 32) ≤ 2 ^ sb.sLogBlockSize.toNat :=
    Nat.pow_le_pow_right (by decide) (Nat.mod_le _ _)
  rw [passedSize_eq, BitVec.toNat_shiftLeft, Nat.shiftLeft_eq]
  exact (Nat.mod_le _ _).trans (Nat.mul_le_mul_left _ hPow)

/-- With blocks of 1 KiB the first block is at its own number. -/
theorem blockOffset_of_zero (hLog : sb.sLogBlockSize = 0) (b : Word) :
    blockOffset b (passedSize sb) = b * 1024 := by
  have hSize : passedSize sb = 1024 := by
    rw [passedSize_eq, hLog]
    rfl
  rw [hSize, blockOffset, show (1024 : BitVec 32).setWidth 64 = (1024 : Word) by decide]
  ring

theorem sizeOfBlock_of_zero (hLog : sb.sLogBlockSize = 0) : sizeOfBlock sb = 1024 := by
  simp [sizeOfBlock, hLog]

/-- With larger blocks a block is taken to start before its place. -/
theorem blockOffset_lt (hBlock : 1 ≤ b.toNat) (hLog : sb.sLogBlockSize ≠ 0) :
    (blockOffset b (passedSize sb)).toNat < b.toNat * sizeOfBlock sb := by
  have hPos : 1 ≤ sb.sLogBlockSize.toNat := by
    by_contra hZero
    exact hLog (BitVec.eq_of_toNat_eq (by simp; omega))
  have hLarge : 1024 * 2 ≤ sizeOfBlock sb :=
    Nat.mul_le_mul_left _ (Nat.le_self_pow (by omega) 2)
  have hBefore : (b - 1).toNat = b.toNat - 1 := by bv_omega
  have hSum : (blockOffset b (passedSize sb)).toNat ≤
      1024 + (b.toNat - 1) * (passedSize sb).toNat := by
    rw [blockOffset, BitVec.toNat_add, BitVec.toNat_mul, hBefore, BitVec.toNat_setWidth]
    refine (Nat.mod_le _ _).trans (Nat.add_le_add_left ((Nat.mod_le _ _).trans ?_) _)
    exact Nat.mul_le_mul_left _ (Nat.mod_le _ _)
  have hProduct : (b.toNat - 1) * (passedSize sb).toNat ≤ (b.toNat - 1) * sizeOfBlock sb :=
    Nat.mul_le_mul_left _ (passedSize_le sb)
  have hSplit : b.toNat * sizeOfBlock sb = (b.toNat - 1) * sizeOfBlock sb + sizeOfBlock sb := by
    rw [← Nat.succ_mul, Nat.succ_eq_add_one, Nat.sub_add_cancel hBlock]
  omega

/-- `BLOCK_OFFSET` takes the first block to be at the byte 1024. -/
theorem blockOffset_exact_iff (hBlock : 1 ≤ b.toNat) :
    (blockOffset b (passedSize sb)).toNat = b.toNat * sizeOfBlock sb ↔
      sb.sLogBlockSize = 0 ∧ b.toNat * 1024 < 2 ^ 64 := by
  constructor
  · intro hExact
    have hLog : sb.sLogBlockSize = 0 := by
      by_contra hOther
      exact absurd hExact (blockOffset_lt hBlock hOther).ne
    refine ⟨hLog, ?_⟩
    rw [sizeOfBlock_of_zero hLog] at hExact
    rw [← hExact]
    exact (blockOffset b (passedSize sb)).isLt
  · rintro ⟨hLog, hFits⟩
    rw [blockOffset_of_zero hLog, sizeOfBlock_of_zero hLog, BitVec.toNat_mul]
    exact Nat.mod_eq_of_lt hFits

/-- `inodes + 2` is the third inode of 128 bytes, and the second one of 256. -/
theorem rootOffset_exact_iff (hLog : sb.sLogBlockSize = 0) :
    rootOffset bg sb = (inodeTableBlock bg).toNat * sizeOfBlock sb +
        (ext2RootIno.toNat - 1) * inodeSize.toNat ↔
      inodeSize = 256 ∧ (inodeTableBlock bg).toNat * 1024 < 2 ^ 64 := by
  have hTable : (blockOffset (inodeTableBlock bg) (passedSize sb)).toNat =
      (inodeTableBlock bg).toNat * 1024 % 2 ^ 64 := by
    rw [blockOffset_of_zero hLog, BitVec.toNat_mul]
    rfl
  have hRoot : (ext2RootIno * sizeofInode).toNat = 256 := by decide
  have hIno : ext2RootIno.toNat - 1 = 1 := by decide
  have hInode : inodeSize = 256 ↔ inodeSize.toNat = 256 := by
    constructor
    · rintro rfl
      rfl
    · exact fun h => BitVec.eq_of_toNat_eq h
  have hBound := inodeSize.isLt
  rw [rootOffset, sizeOfBlock_of_zero hLog, hTable, hRoot, hIno, hInode]
  omega

/-- The offsets are exact with blocks of 1 KiB and inodes of 256 bytes. -/
theorem addressesExact_iff (block group : Memory) (b : Word) (hBlock : 1 ≤ b.toNat) :
    AddressesExact (Groupdesc.load group) (Superblock.load block) (sInodeSize block) b ↔
      (Superblock.load block).sLogBlockSize = 0 ∧ sInodeSize block = 256 ∧
        b.toNat * 1024 < 2 ^ 64 ∧
        (inodeTableBlock (Groupdesc.load group)).toNat * 1024 < 2 ^ 64 := by
  unfold AddressesExact
  rw [blockOffset_exact_iff hBlock]
  constructor
  · rintro ⟨⟨hLog, hFits⟩, hRoot⟩
    obtain ⟨hInode, hTable⟩ := (rootOffset_exact_iff hLog).mp hRoot
    exact ⟨hLog, hInode, hFits, hTable⟩
  · rintro ⟨hLog, hInode, hFits, hTable⟩
    exact ⟨⟨hLog, hFits⟩, (rootOffset_exact_iff hLog).mpr ⟨hInode, hTable⟩⟩

/-- A superblock with blocks of 1 KiB and inodes of 256 bytes. -/
theorem addressesExact_iff_small :
    AddressesExact (Groupdesc.load fun a => if a = 8 then 5 else 0)
      (Superblock.load fun a => if a = 89 then 1 else 0)
      (sInodeSize fun a => if a = 89 then 1 else 0) 1 :=
  (addressesExact_iff _ _ 1 (by decide)).mpr
    ⟨by decide, by decide, by decide, by decide⟩

/-- With inodes of 128 bytes `root` is the third inode. -/
theorem not_addressesExact :
    ¬ AddressesExact (Groupdesc.load fun a => if a = 8 then 5 else 0)
      (Superblock.load fun a => if a = 88 then 128 else 0)
      (sInodeSize fun a => if a = 88 then 128 else 0) 1 := by
  rintro ⟨-, hRoot⟩
  revert hRoot
  decide

/-! ## The entries of the root directory -/

variable {block : Memory} {size : Nat} {dirents last : Word}

/-- `EXT2_DIR_NAME_LEN_CSUM` -/
def ext2DirNameLenCsum : BitVec 16 := 0xde00

/-- `dirents->rec_len` and `dirents->file_type_name_len` -/
def recLen (block : Memory) (dirents : Word) : BitVec 16 :=
  block.load16 (dirents + 4)

def fileTypeNameLen (block : Memory) (dirents : Word) : BitVec 16 :=
  block.load16 (dirents + 6)

/-- One round of the loop over the entries. The block is read in place, so that
`dirents` is an offset in it. -/
def direntRound (block : Memory) (dirents : Word) : Option Word :=
  if fileTypeNameLen block dirents = ext2DirNameLenCsum then none
  else some (dirents + (recLen block dirents).setWidth 64)

/-- The bytes of `dirents->name` that `%.256s` reads: up to a zero byte, or 257,
the last one before the precision is tested. -/
def nameReads (block : Memory) (dirents : Word) : Nat :=
  min 257 (((List.range 257).takeWhile
    fun k => block (dirents + 8 + BitVec.ofNat 64 k) ≠ 0).length + 1)

/-- The number of bytes from `dirents` on up to the last one that the round reads. -/
def direntReads (block : Memory) (dirents : Word) : Nat :=
  if fileTypeNameLen block dirents = ext2DirNameLenCsum then 8 else 8 + nameReads block dirents

def ReadsInside (block : Memory) (size : Nat) (dirents : Word) : Prop :=
  dirents.toNat + direntReads block dirents ≤ size

/-- The loop ends, and reads entries in the block only. -/
def WalksInside (block : Memory) (size : Nat) : Prop :=
  (∃ last, EndsIn (direntRound block) 0 last) ∧
    ∀ dirents, Reaches (direntRound block) 0 dirents → ReadsInside block size dirents

/-- From an offset on the block is a sequence of entries of positive length, each
with its name in the block, and a tail. -/
inductive EntriesFrom (block : Memory) (size : Nat) : Word → Prop where
  | tail {dirents : Word} (hTail : fileTypeNameLen block dirents = ext2DirNameLenCsum)
      (hInside : dirents.toNat + 8 ≤ size) : EntriesFrom block size dirents
  | entry {dirents : Word} (hEntry : fileTypeNameLen block dirents ≠ ext2DirNameLenCsum)
      (hInside : dirents.toNat + 8 + nameReads block dirents ≤ size)
      (hLen : recLen block dirents ≠ 0)
      (rest : EntriesFrom block size (dirents + (recLen block dirents).setWidth 64)) :
      EntriesFrom block size dirents

theorem direntRound_tail (hTail : fileTypeNameLen block dirents = ext2DirNameLenCsum) :
    direntRound block dirents = none :=
  if_pos hTail

theorem direntRound_entry (hEntry : fileTypeNameLen block dirents ≠ ext2DirNameLenCsum) :
    direntRound block dirents = some (dirents + (recLen block dirents).setWidth 64) :=
  if_neg hEntry

theorem readsInside_tail (hTail : fileTypeNameLen block dirents = ext2DirNameLenCsum) :
    ReadsInside block size dirents ↔ dirents.toNat + 8 ≤ size := by
  rw [ReadsInside, direntReads, if_pos hTail]

theorem readsInside_entry (hEntry : fileTypeNameLen block dirents ≠ ext2DirNameLenCsum) :
    ReadsInside block size dirents ↔ dirents.toNat + 8 + nameReads block dirents ≤ size := by
  rw [ReadsInside, direntReads, if_neg hEntry, Nat.add_assoc]

/-- A round at an entry without a length leads back to the entry. -/
theorem direntRound_of_recLen_zero
    (hEntry : fileTypeNameLen block dirents ≠ ext2DirNameLenCsum) (hLen : recLen block dirents = 0) :
    direntRound block dirents = some dirents := by
  rw [direntRound_entry hEntry, hLen]
  simp

/-- The entries, by induction on the rounds of a loop that ends. -/
theorem entriesFrom_of_loop {fuel : Nat} (hEnd : loop (direntRound block) fuel dirents = some last)
    (hInside : ∀ d, Reaches (direntRound block) dirents d → ReadsInside block size d) :
    EntriesFrom block size dirents := by
  induction fuel generalizing dirents with
  | zero => cases hEnd
  | succ fuel ih =>
      have hHere := hInside dirents .refl
      by_cases hTail : fileTypeNameLen block dirents = ext2DirNameLenCsum
      · exact .tail hTail ((readsInside_tail hTail).mp hHere)
      · have hRound := direntRound_entry hTail
        have hRest := hEnd
        rw [loop, hRound] at hRest
        have hLen : recLen block dirents ≠ 0 := by
          intro hZero
          exact not_endsIn_of_fixed (direntRound_of_recLen_zero hTail hZero) ⟨_, hEnd⟩
        refine .entry hTail ((readsInside_entry hTail).mp hHere) hLen (ih hRest fun d hReach => ?_)
        exact hInside d (.head hRound hReach)

theorem EntriesFrom.endsIn (h : EntriesFrom block size dirents) :
    ∃ last, EndsIn (direntRound block) dirents last := by
  induction h with
  | tail hTail hInside => exact ⟨_, endsIn_of_none (direntRound_tail hTail)⟩
  | entry hEntry hInside hLen rest ih =>
      obtain ⟨last, hEnd⟩ := ih
      exact ⟨last, (endsIn_of_some (direntRound_entry hEntry)).mpr hEnd⟩

theorem EntriesFrom.readsInside (h : EntriesFrom block size dirents) {d : Word}
    (hReach : Reaches (direntRound block) dirents d) : ReadsInside block size d := by
  induction h with
  | tail hTail hInside =>
      rw [reaches_of_none (direntRound_tail hTail) hReach]
      exact (readsInside_tail hTail).mpr hInside
  | entry hEntry hInside hLen rest ih =>
      rcases reaches_of_some (direntRound_entry hEntry) hReach with rfl | hRest
      · exact (readsInside_entry hEntry).mpr hInside
      · exact ih hRest

/-- The loop needs a block of entries with a tail. -/
theorem walksInside_iff (block : Memory) (size : Nat) :
    WalksInside block size ↔ EntriesFrom block size 0 := by
  constructor
  · rintro ⟨⟨last, fuel, hEnd⟩, hInside⟩
    exact entriesFrom_of_loop hEnd hInside
  · intro hEntries
    exact ⟨hEntries.endsIn, fun d hReach => hEntries.readsInside hReach⟩

/-- The first entry of a block of zeros has no length. -/
theorem not_walksInside : ¬ WalksInside (fun _ => 0) 1024 := by
  rintro ⟨⟨last, hEnd⟩, -⟩
  exact not_endsIn_of_fixed (direntRound_of_recLen_zero (by decide) (by decide)) hEnd

end Kernel.Ext4
