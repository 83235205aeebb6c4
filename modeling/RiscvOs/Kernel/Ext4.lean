import RiscvOs.Kernel.Memhelp
import RiscvOs.Kernel.Virtioblk

/-! `ext4.c`: the root directory of an ext4 filesystem is read. -/
namespace Kernel.Ext4

open Semantics Virtioblk

/-- `EXT4_MAGIC` -/
def ext4Magic : BitVec 16 := 0xef53

/-- `EXT4_EXTENTS_FL` -/
def ext4ExtentsFl : BitVec 32 := 0x00080000

/-- `EXT4_EXTENT_MAGIC` -/
def ext4ExtentMagic : BitVec 16 := 0xf30a

/-- `EXT2_ROOT_INO` -/
def ext2RootIno : Word := 2

/-- `sizeof(Superblock_ext4)`, `sizeof(Groupdesc)` and `sizeof(Inode_ext2)` -/
def sizeofSuperblock : Word := 1024

def sizeofGroupdesc : Word := 64

def sizeofInode : Word := 128

/-- `Superblock_ext4` -/
structure Superblock where
  sLogBlockSize : BitVec 32
  sMagic : BitVec 16
  deriving DecidableEq

/-- `memcpy(&sb, blockbuf, sizeof(sb))` -/
def Superblock.load (block : Memory) : Superblock where
  sLogBlockSize := block.load32 24
  sMagic := block.load16 56

/-- `Groupdesc` -/
structure Groupdesc where
  bgInodeTable : BitVec 32
  bgInodeTableHi : BitVec 32
  deriving DecidableEq

/-- `memcpy(&bg, blockbuf, sizeof(bg))` -/
def Groupdesc.load (block : Memory) : Groupdesc where
  bgInodeTable := block.load32 8
  bgInodeTableHi := block.load32 40

/-- `BLOCK_OFFSET` -/
def blockOffset (block : Word) (blocksize : BitVec 32) : Word :=
  1024 + (block - 1) * blocksize.setWidth 64

/-- `INODE_TABLE_BLOCK` -/
def inodeTableBlock (bg : Groupdesc) : Word :=
  bg.bgInodeTable.setWidth 64 ||| (bg.bgInodeTableHi.setWidth 64 <<< 32)

/-- `BLOCK_SIZE`, an `int` that is shifted as `sllw` does it: C leaves a shift of
1024 by more than 20 undefined. -/
def blockSize (sb : Superblock) : Word :=
  (1024#32 <<< (sb.sLogBlockSize.toNat % 32)).signExtend 64

/-- `Inode_ext2` with the `Extentheader` and the first `Extent` in `i_block`. -/
structure RootInode where
  iFlags : BitVec 32
  ehMagic : BitVec 16
  ehDepth : BitVec 16
  eeStart : BitVec 32
  deriving DecidableEq

/-- `inodes + EXT2_ROOT_INO` -/
def RootInode.load (inodes : Memory) : RootInode :=
  let root := ext2RootIno * sizeofInode
  { iFlags := inodes.load32 (root + 32)
    ehMagic := inodes.load16 (root + 40)
    ehDepth := inodes.load16 (root + 46)
    eeStart := inodes.load32 (root + 60) }

/-- The blocks that `ext4_print_root` reads; `deliver` is the buffer after the
request for a byte address. -/
def ext4PrintRoot (deliver : Word → Memory) (bg : Groupdesc) (sb : Superblock) : List BlockRead :=
  let byte := blockOffset (inodeTableBlock bg) ((blockSize sb).setWidth 32)
  let root := RootInode.load (deliver byte)
  ⟨byte, blockSize sb⟩ ::
    if root.iFlags &&& ext4ExtentsFl ≠ 0 ∧ root.ehMagic = ext4ExtentMagic ∧ root.ehDepth = 0 then
      [⟨blockOffset (root.eeStart.setWidth 64) ((blockSize sb).setWidth 32), blockSize sb⟩]
    else []

/-- The blocks that `ext4_test` reads. -/
def ext4Test (deliver : Word → Memory) : List BlockRead :=
  let sb := Superblock.load (deliver 1024)
  ⟨1024, alignUpPot sizeofSuperblock 512⟩ ::
    if sb.sMagic ≠ ext4Magic then []
    else
      ⟨2048, alignUpPot sizeofGroupdesc 512⟩ ::
        ext4PrintRoot deliver (Groupdesc.load (deliver 2048)) sb

end Kernel.Ext4
