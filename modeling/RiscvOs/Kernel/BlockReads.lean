import RiscvOs.Kernel.VirtioblkRuns
import RiscvOs.Kernel.Minix3
import RiscvOs.Kernel.Ext4

/-! The requests for the blocks of a filesystem. The drivers take the end of the
bytes as their third parameter, the filesystems pass the number of bytes. -/
namespace Kernel.BlockReads

open Semantics Function Virtio Virtioblk

variable {disk : Disk} {args : RwArgs} {name : DiskName} {read : BlockRead} {size : Word}

/-- The request that a call makes describes `size` bytes from `byte_start` on. -/
def Exact (disks : Disks) (name : DiskName) (args : RwArgs) (size : Word) : Prop :=
  ∃ r, (rwOf name args disks name).pending = (disks name).pending ++ [r] ∧
    r.rq.hdr.sector.toNat * (disks name).blkSize.toNat = args.byteStart.toNat ∧
    ((rwOf name args disks name).dev.desc r.dataDesc.toNat).len.toNat = size.toNat

/-- The data and the status of the next request have descriptors of their own. -/
def OwnDesc (disk : Disk) : Prop :=
  descIndex disk.dev 1 ≠ descIndex disk.dev 2

/-! ## A request -/

theorem exact_iff_newRequest (disks : Disks) (name : DiskName) (args : RwArgs) (size : Word) :
    Exact disks name args size ↔
      (newRequest args (disks name)).rq.hdr.sector.toNat * (disks name).blkSize.toNat =
          args.byteStart.toNat ∧
        ((diskRw args (disks name)).dev.desc (descIndex (disks name).dev 1).toNat).len.toNat =
          size.toNat := by
  have hDisk : rwOf name args disks name = diskRw args (disks name) := by
    rw [rwOf_eq, update_self]
  have hPending : (diskRw args (disks name)).pending =
      (disks name).pending ++ [newRequest args (disks name)] := rfl
  unfold Exact
  rw [hDisk, hPending]
  constructor
  · rintro ⟨r, hMade, hSector, hLen⟩
    have hRequest : r = newRequest args (disks name) :=
      (List.singleton_injective (List.append_cancel_left hMade)).symm
    rw [hRequest] at hSector hLen
    exact ⟨hSector, hLen⟩
  · intro hExact
    exact ⟨newRequest args (disks name), rfl, hExact⟩

/-- The length in the data descriptor, unless the status takes its place. -/
theorem len_data (hOwn : OwnDesc disk) (args : RwArgs) :
    ((diskRw args disk).dev.desc (descIndex disk.dev 1).toNat).len =
      (args.byteEnd - args.byteStart).setWidth 32 := by
  have hData : (diskRw args disk).dev.desc (descIndex disk.dev 1).toNat =
      dataEntry (descIndex disk.dev 2) args := by
    refine (update_of_ne (fun hSame => hOwn ?_) _ _).trans (update_self _ _ _)
    exact BitVec.eq_of_toNat_eq hSame
  rw [hData]
  rfl

theorem len_status (hShared : ¬ OwnDesc disk) (args : RwArgs) :
    ((diskRw args disk).dev.desc (descIndex disk.dev 1).toNat).len = 1 := by
  have hStatus : (diskRw args disk).dev.desc (descIndex disk.dev 1).toNat = statusEntry args := by
    rw [not_not.mp hShared]
    exact update_self _ _ _
  rw [hStatus]
  rfl

/-- The sector loses the address within the block of the device. -/
theorem sector_iff (args : RwArgs) (disk : Disk) :
    (newRequest args disk).rq.hdr.sector.toNat * disk.blkSize.toNat = args.byteStart.toNat ↔
      disk.blkSize.toNat ∣ args.byteStart.toNat := by
  have hSector : (newRequest args disk).rq.hdr.sector.toNat =
      args.byteStart.toNat / disk.blkSize.toNat := by
    change (args.byteStart / disk.blkSize.setWidth 64).toNat = _
    rw [BitVec.toNat_udiv, BitVec.toNat_setWidth_of_le (by decide)]
  rw [hSector]
  exact (Nat.dvd_iff_div_mul_eq _ _).symm

/-- A request is exact if the end lies `size` bytes behind the start. -/
theorem exact_iff_of_ne_one (disks : Disks) (hSize : size ≠ 1) :
    Exact disks name args size ↔
      (disks name).blkSize.toNat ∣ args.byteStart.toNat ∧ OwnDesc (disks name) ∧
        ((args.byteEnd - args.byteStart).setWidth 32).toNat = size.toNat := by
  rw [exact_iff_newRequest, sector_iff]
  refine and_congr_right fun _ => ?_
  by_cases hOwn : OwnDesc (disks name)
  · rw [len_data hOwn]
    exact (and_iff_right hOwn).symm
  · rw [len_status hOwn]
    refine iff_of_false (fun hLen => hSize ?_) (fun h => hOwn h.1)
    exact (BitVec.eq_of_toNat_eq hLen).symm

/-! ## The reads of the filesystems -/

/-- The blocks that the functions of the two filesystems read. -/
inductive ReadBy : DiskName → BlockRead → Prop where
  | minixPrint {read : BlockRead} (env : Minix3.Surroundings) (sb : Minix3.Superblock)
      (depth : Nat) (inode : BitVec 32) (path : List Byte)
      (reads : .read read ∈ Minix3.minixPrint env sb depth inode path) : ReadBy .minixBlk read
  | minixTest {read : BlockRead} (env : Minix3.Surroundings) (depth : Nat)
      (reads : .read read ∈ Minix3.minixTest env depth) : ReadBy .minixBlk read
  | ext4PrintRoot {read : BlockRead} (deliver : Word → Memory) (bg : Ext4.Groupdesc)
      (sb : Ext4.Superblock) (reads : read ∈ Ext4.ext4PrintRoot deliver bg sb) :
      ReadBy .ext4Blk read
  | ext4Test {read : BlockRead} (deliver : Word → Memory)
      (reads : read ∈ Ext4.ext4Test deliver) : ReadBy .ext4Blk read

/-- The byte address of a read is a multiple of `2 ^ 32`, and of the block size of
the device; the size has 32 bits. -/
structure AtMultiple (disk : Disk) (read : BlockRead) : Prop where
  sector : disk.blkSize.toNat ∣ read.byte.toNat
  low : 2 ^ 32 ∣ read.byte.toNat
  size : read.size.toNat < 2 ^ 32
  own : OwnDesc disk

section Minix

open Minix3

variable {env : Surroundings} {sb : Minix3.Superblock} {ino : Inode} {depth : Nat}

/-- A copy is no read. -/
theorem mem_of_mem_copy {copy : Copy} {events : List Minix3.Event}
    (h : .read read ∈ .copy copy :: events) : .read read ∈ events := by
  rcases List.mem_cons.mp h with hCopy | hMem
  · cases hCopy
  · exact hMem

theorem size_of_mem_indirectReads (h : .read read ∈ indirectReads env ino depth) :
    read.size = blockSize := by
  rcases List.mem_cons.mp h with hFirst | hMore
  · cases hFirst
    rfl
  · obtain ⟨step, hStep, hRead⟩ := List.mem_flatten.mp hMore
    rw [List.eq_of_mem_replicate hStep] at hRead
    simp only [indirectStep, List.mem_cons, reduceCtorEq, List.not_mem_nil, or_false,
      false_or] at hRead
    cases hRead
    rfl

/-- By induction on the depth of the calls: every read is of one block. -/
theorem size_of_mem_minixPrint : ∀ {inode : BitVec 32} {path : List Byte},
    .read read ∈ minixPrint env sb depth inode path → read.size = blockSize := by
  induction depth with
  | zero => exact fun h => absurd h (by simp [minixPrint])
  | succ depth ih =>
      intro inode path h
      have hEntries : ∀ (ino : Inode) (byte : Word), .read read ∈
          ((direntOffsets ino.size).flatMap fun i =>
            .copy ⟨i, 64⟩ :: minixPrint env sb depth ((env.deliver byte).load32 i)
              (path ++ 0x2f#8 :: direntName env (env.deliver byte) i)) → read.size = blockSize := by
        intro ino byte hMem
        obtain ⟨i, -, hCall⟩ := List.mem_flatMap.mp hMem
        exact ih (mem_of_mem_copy hCall)
      have hIndirect : ∀ (ino : Inode) (zone : Fin numZones) (count : Nat), .read read ∈
          (if ino.zones zone ≠ 0 then indirectReads env ino count ++
            (direntOffsets ino.size).flatMap fun i =>
              .copy ⟨i, 64⟩ :: minixPrint env sb depth ((env.deliver (env.addr * blockSize)).load32 i)
                (path ++ 0x2f#8 :: direntName env (env.deliver (env.addr * blockSize)) i)
          else []) → read.size = blockSize := by
        intro ino zone count hMem
        split at hMem
        · rcases List.mem_append.mp hMem with hReads | hCalls
          · exact size_of_mem_indirectReads hReads
          · exact hEntries ino _ hCalls
        · exact absurd hMem List.not_mem_nil
      rw [minixPrint] at h
      rcases List.mem_cons.mp h with hFirst | hRest
      · cases hFirst
        rfl
      rcases List.mem_append.mp (mem_of_mem_copy hRest) with hLine | hZones
      · split at hLine
        · cases List.mem_singleton.mp hLine
        · exact absurd hLine List.not_mem_nil
      split at hZones
      · rcases List.mem_append.mp hZones with hZones | hTindr
        · rcases List.mem_append.mp hZones with hZones | hDindr
          · rcases List.mem_append.mp hZones with hDirect | hIndir
            · split at hDirect
              · exact absurd hDirect List.not_mem_nil
              · rcases List.mem_cons.mp hDirect with hRead | hCalls
                · cases hRead
                  rfl
                · exact hEntries _ _ hCalls
            · exact hIndirect _ _ _ hIndir
          · exact hIndirect _ _ _ hDindr
        · exact hIndirect _ _ _ hTindr
      · exact absurd hZones List.not_mem_nil

theorem size_of_mem_minixTest (h : .read read ∈ minixTest env depth) : read.size = blockSize := by
  rcases List.mem_cons.mp h with hFirst | hRest
  · cases hFirst
    rfl
  · have hCalls := mem_of_mem_copy hRest
    split at hCalls
    · exact absurd hCalls List.not_mem_nil
    · exact size_of_mem_minixPrint hCalls

end Minix

section Ext4

open Ext4

variable {deliver : Word → Memory} {bg : Groupdesc} {sb : Ext4.Superblock}

/-- The size of a block is even, however far 1024 is shifted. -/
theorem blockSize_ne_one (sb : Ext4.Superblock) : blockSize sb ≠ 1 := by
  have hAll : ∀ k < 32, (1024#32 <<< k).signExtend 64 ≠ 1 := by decide
  exact hAll _ (Nat.mod_lt _ (by decide))

theorem size_of_mem_ext4PrintRoot (h : read ∈ ext4PrintRoot deliver bg sb) :
    read.size = blockSize sb := by
  rcases List.mem_cons.mp h with rfl | hRest
  · rfl
  · split at hRest
    · rw [List.mem_singleton.mp hRest]
    · exact absurd hRest List.not_mem_nil

theorem size_ne_one_of_mem_ext4Test (h : read ∈ ext4Test deliver) : read.size ≠ 1 := by
  rcases List.mem_cons.mp h with rfl | hRest
  · decide
  · split at hRest
    · exact absurd hRest List.not_mem_nil
    · rcases List.mem_cons.mp hRest with rfl | hRoot
      · decide
      · rw [size_of_mem_ext4PrintRoot hRoot]
        exact blockSize_ne_one _

end Ext4

theorem ReadBy.size_ne_one (hRead : ReadBy name read) : read.size ≠ 1 := by
  cases hRead with
  | minixPrint env sb depth inode path reads =>
      rw [size_of_mem_minixPrint reads]
      decide
  | minixTest env depth reads =>
      rw [size_of_mem_minixTest reads]
      decide
  | ext4PrintRoot deliver bg sb reads =>
      rw [size_of_mem_ext4PrintRoot reads]
      exact blockSize_ne_one sb
  | ext4Test deliver reads => exact size_ne_one_of_mem_ext4Test reads

/-! ## Exact requests -/

/-- The size less the start has the value of the size in 32 bits. -/
theorem len_iff (byte size : Word) : ((size - byte).setWidth 32).toNat = size.toNat ↔
    2 ^ 32 ∣ byte.toNat ∧ size.toNat < 2 ^ 32 := by
  have hByte := byte.isLt
  have hSize := size.isLt
  rw [BitVec.toNat_setWidth, BitVec.toNat_sub]
  omega

/-- The request for a block is exact at the multiples of `2 ^ 32` and the block
size only. -/
theorem exact_iff_atMultiple (hRead : ReadBy name read) (disks : Disks) (buff rq : Word)
    (translate : Word → Word) : Exact disks name (read.args buff rq translate) read.size ↔
      AtMultiple (disks name) read := by
  rw [exact_iff_of_ne_one disks hRead.size_ne_one]
  change _ ∧ _ ∧ ((read.size - read.byte).setWidth 32).toNat = _ ↔ _
  rw [len_iff]
  constructor
  · rintro ⟨hSector, hOwn, hLow, hSize⟩
    exact ⟨hSector, hLow, hSize, hOwn⟩
  · intro hAt
    exact ⟨hAt.sector, hAt.own, hAt.low, hAt.size⟩

/-- The inode table in block `2 ^ 22` of 1 KiB starts at the byte `2 ^ 32`. -/
theorem exact_iff_atMultiple_far :
    Exact firstDisks .ext4Blk ((BlockRead.mk 0x100000000 1024).args 0 0 id) 1024 := by
  have hReads : (BlockRead.mk 0x100000000 1024) ∈
      Ext4.ext4PrintRoot (fun _ _ => 0) ⟨0x400000, 0⟩ ⟨0, 0xef53⟩ :=
    List.mem_cons.mpr (.inl (by decide))
  refine (exact_iff_atMultiple (.ext4PrintRoot _ _ _ hReads) firstDisks 0 0 id).mpr ?_
  exact ⟨by decide, by decide, by decide, by unfold OwnDesc; decide⟩

/-- The request for the superblock of a minix filesystem has length 0. -/
theorem not_exact : ¬ ∀ name read, ReadBy name read → ∀ (disks : Disks) (buff rq : Word)
    (translate : Word → Word), OwnDesc (disks name) →
      (disks name).blkSize.toNat ∣ read.byte.toNat →
        Exact disks name (read.args buff rq translate) read.size := by
  intro hClaim
  have hRead : ReadBy .minixBlk ⟨1024, 1024⟩ :=
    .minixTest ⟨fun _ _ => 0, 0, []⟩ 0 (List.mem_cons_self ..)
  have hExact := hClaim _ _ hRead firstDisks 0 0 id (by unfold OwnDesc; decide) (by decide)
  have hLen := ((exact_iff_of_ne_one firstDisks (by decide)).mp hExact).2.2
  revert hLen
  decide

/-- With the end of the bytes as third argument, as the drivers take it, the
request is exact at every multiple of the block size. -/
theorem exact_of_end (disks : Disks) (byte size buff rq : Word) (translate : Word → Word)
    (hOwn : OwnDesc (disks name)) (hSize : size.toNat < 2 ^ 32) (hOne : size ≠ 1)
    (hSector : (disks name).blkSize.toNat ∣ byte.toNat) :
    Exact disks name ((BlockRead.mk byte (byte + size)).args buff rq translate) size := by
  rw [exact_iff_of_ne_one disks hOne]
  refine ⟨hSector, hOwn, ?_⟩
  change ((byte + size - byte).setWidth 32).toNat = size.toNat
  rw [BitVec.add_comm, BitVec.add_sub_cancel, BitVec.toNat_setWidth, Nat.mod_eq_of_lt hSize]

end Kernel.BlockReads
