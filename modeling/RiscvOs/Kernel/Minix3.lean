import RiscvOs.Kernel.Memhelp
import RiscvOs.Kernel.Virtioblk

/-! `minix3.c`: a minix filesystem is printed, directory by directory. -/
namespace Kernel.Minix3

open Semantics Virtioblk

/-- `BLOCK_SIZE` -/
def blockSize : Word := 1024

/-- `MINIX3_MAGIC` -/
def minix3Magic : BitVec 16 := 0x4d5a

/-- `S_IFMT` and `S_IFDIR` -/
def sIfmt : BitVec 16 := 0o170000

def sIfdir : BitVec 16 := 0o040000

/-- `NUM_ZONES` -/
abbrev numZones : Nat := 10

/-- `ZONE_INDIR`, `ZONE_DINDR` and `ZONE_TINDR` -/
def zoneIndir : Fin numZones := 7

def zoneDindr : Fin numZones := 8

def zoneTindr : Fin numZones := 9

/-- `Superblock` -/
structure Superblock where
  imapBlocks : BitVec 16
  zmapBlocks : BitVec 16
  magic : BitVec 16
  deriving DecidableEq

/-- `memcpy(&sb, blockbuf, sizeof(sb))` -/
def Superblock.load (block : Memory) : Superblock where
  imapBlocks := block.load16 6
  zmapBlocks := block.load16 8
  magic := block.load16 24

/-- `Inode` -/
structure Inode where
  mode : BitVec 16
  size : BitVec 32
  zones : Fin numZones → BitVec 32

/-- `memcpy(&ino, blockbuf + i, sizeof(ino))` -/
def Inode.load (block : Memory) (i : Word) : Inode where
  mode := block.load16 i
  size := block.load32 (i + 8)
  zones := fun zone => block.load32 (i + 24 + BitVec.ofNat 64 (4 * zone))

/-- `OFFSET`, in the 32 bits of the inode number. -/
def offset (inum : BitVec 32) (iblocks zblocks : BitVec 16) : BitVec 32 :=
  1024 + 1024 + (inum - 1) * 64 + iblocks.setWidth 32 * 1024 + zblocks.setWidth 32 * 1024

/-- `ino.zones[i] * BLOCK_SIZE`, in the 32 bits of the zone number. -/
def zoneByte (zone : BitVec 32) : Word :=
  (zone * 1024).setWidth 64

/-- What the functions find in memory: in the block buffer after the request for
a byte address, in `addr`, which has no initial value, and behind a directory
entry on the stack. -/
structure Surroundings where
  deliver : Word → Memory
  addr : Word
  behind : List Byte

/-- `de.name` as `strcpy` copies it: up to a zero byte, which need not be in the
60 bytes of the name. -/
def direntName (env : Surroundings) (block : Memory) (i : Word) : List Byte :=
  ((List.range 60).map (fun k => block (i + 4 + BitVec.ofNat 64 k)) ++ env.behind).takeWhile (· ≠ 0)

/-- The values of `i` in `for (i = 128; i < ino.size; i += sizeof(DirEntry))`. -/
def direntOffsets (size : BitVec 32) : List Word :=
  (List.range ((size.toNat - 128 + 63) / 64)).map fun k => BitVec.ofNat 64 (128 + 64 * k)

/-- The zone that the loop over the direct zones reads. The loop over the entries
has the same counter and leaves it above 7, so that there is no second zone. -/
def directZone (ino : Inode) : Option (BitVec 32) :=
  (List.map ino.zones [0, 1, 2, 3, 4, 5, 6]).find? (· ≠ 0)

/-- A `memcpy` out of the block buffer: where in it, and how many bytes. -/
structure Copy where
  offset : Word
  size : Nat
  deriving DecidableEq

inductive Event where
  /-- A call of `minix_disk_rw`. -/
  | read (block : BlockRead)
  /-- A line with a path. -/
  | line (path : List Byte)
  | copy (bytes : Copy)
  /-- The bytes of a copy are stored at `addr`, which was never assigned. -/
  | stray (addr : Word)
  /-- A call below the depth to which the calls are followed. -/
  | deeper
  deriving DecidableEq

/-- `memcpy(addr, blockbuf, sizeof(addr))`, then the block of `addr`. What the
store changes elsewhere in memory is not followed. -/
def indirectStep (env : Surroundings) : List Event :=
  [.copy ⟨0, 8⟩, .stray env.addr, .read ⟨env.addr * blockSize, blockSize⟩]

/-- The zones behind `zone`: the block of `zones[ZONE_INDIR]` whichever zone it
is, then `depth` times the block of `addr`, which no request changes. -/
def indirectReads (env : Surroundings) (ino : Inode) (depth : Nat) : List Event :=
  .read ⟨zoneByte (ino.zones zoneIndir), blockSize⟩ ::
    (List.replicate depth (indirectStep env)).flatten

/-- `minix_print`, with its calls up to a depth. `minix_disk_rw` always returns
`true`; `sizeof(ino)` and `sizeof(DirEntry)` are 64. -/
def minixPrint (env : Surroundings) (sb : Superblock) : Nat → BitVec 32 → List Byte → List Event
  | 0, _, _ => [.deeper]
  | depth + 1, inode, path =>
      let byte := (offset inode sb.imapBlocks sb.zmapBlocks).setWidth 64
      let i := alignDownPot byte blockSize
      let ino := Inode.load (env.deliver i) (byte - i)
      let entries := fun byte : Word =>
        (direntOffsets ino.size).flatMap fun i =>
          .copy ⟨i, 64⟩ :: minixPrint env sb depth ((env.deliver byte).load32 i)
            (path ++ 0x2f#8 :: direntName env (env.deliver byte) i)
      let indirect := fun (zone : Fin numZones) (depth : Nat) =>
        if ino.zones zone ≠ 0 then
          indirectReads env ino depth ++ entries (env.addr * blockSize)
        else []
      .read ⟨i, blockSize⟩ :: .copy ⟨byte - i, 64⟩ ::
        (if path.length > 0 then [.line path] else []) ++
        if ino.mode &&& sIfmt = sIfdir then
          (match directZone ino with
          | none => []
          | some zone => .read ⟨zoneByte zone, blockSize⟩ :: entries (zoneByte zone)) ++
            indirect zoneIndir 1 ++ indirect zoneDindr 2 ++ indirect zoneTindr 3
        else []

/-- `minix_test`; `sizeof(sb)` is 32. -/
def minixTest (env : Surroundings) (depth : Nat) : List Event :=
  let sb := Superblock.load (env.deliver blockSize)
  .read ⟨blockSize, blockSize⟩ :: .copy ⟨0, 32⟩ ::
    if sb.magic ≠ minix3Magic then [] else minixPrint env sb depth 1 []

end Kernel.Minix3
