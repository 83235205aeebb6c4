import RiscvOs.Kernel.Minix3Paths

/-! The entries of a filesystem image, and which images `minix_print` prints as
they are. -/
namespace Kernel.Minix3

open Semantics DepthFirst Virtioblk

variable {env : Surroundings} {disk : Memory} {sb : Superblock} {ino : Inode} {height k : Nat}
  {inode : BitVec 32} {byte : Word}

/-! ## The image -/

def IsDir (ino : Inode) : Prop :=
  ino.mode &&& sIfmt = sIfdir

instance (ino : Inode) : Decidable (IsDir ino) :=
  inferInstanceAs (Decidable (_ = _))

/-- The address of an inode: behind the first block, the superblock and the two
bitmaps. -/
def inodeAddr (sb : Superblock) (inode : BitVec 32) : Nat :=
  2048 + (inode.toNat - 1) * 64 + sb.imapBlocks.toNat * 1024 + sb.zmapBlocks.toNat * 1024

def imageInode (disk : Memory) (sb : Superblock) (inode : BitVec 32) : Inode :=
  Inode.load disk (BitVec.ofNat 64 (inodeAddr sb inode))

def numEntries (ino : Inode) : Nat :=
  ino.size.toNat / 64

/-- The zone of an entry, of which there are sixteen in each. -/
def entryZone (ino : Inode) (k : Nat) : BitVec 32 :=
  ino.zones (Fin.ofNat numZones (k / 16))

def entryAddr (ino : Inode) (k : Nat) : Nat :=
  (entryZone ino k).toNat * 1024 + k % 16 * 64

def entryInode (disk : Memory) (ino : Inode) (k : Nat) : BitVec 32 :=
  disk.load32 (BitVec.ofNat 64 (entryAddr ino k))

def nameBytes (disk : Memory) (ino : Inode) (k : Nat) : List Byte :=
  (List.range 60).map fun j => disk (BitVec.ofNat 64 (entryAddr ino k + 4 + j))

/-- The name of an entry, which may take all of its 60 bytes. -/
def entryName (disk : Memory) (ino : Inode) (k : Nat) : List Byte :=
  (nameBytes disk ino k).takeWhile (· ≠ 0)

/-- The entries of a directory from the third on, the first two being the
directory and its parent. An entry without an inode is deleted. -/
def imageEntries (disk : Memory) (sb : Superblock) : Edges (BitVec 32) Byte := fun inode =>
  let ino := imageInode disk sb inode
  if IsDir ino then
    (List.range (numEntries ino - 2)).filterMap fun k =>
      if entryInode disk ino (k + 2) = 0 then none
      else some (0x2f#8 :: entryName disk ino (k + 2), entryInode disk ino (k + 2))
  else []

/-- A directory has its entries in the seven direct zones. -/
structure Directory (disk : Memory) (ino : Inode) : Prop where
  size : 64 ∣ ino.size.toNat
  two : 2 ≤ numEntries ino
  direct : numEntries ino ≤ 112
  zones : ∀ k < numEntries ino, entryZone ino k ≠ 0
  indirect : ∀ zone : Fin numZones, 7 ≤ zone → ino.zones zone = 0
  names : ∀ k, 2 ≤ k → k < numEntries ino → entryInode disk ino k ≠ 0 →
    entryName disk ino k ≠ [] ∧ 0x2f#8 ∉ entryName disk ino k

instance (disk : Memory) (ino : Inode) : Decidable (Directory disk ino) :=
  decidable_of_iff
    (64 ∣ ino.size.toNat ∧ 2 ≤ numEntries ino ∧ numEntries ino ≤ 112 ∧
      (∀ k < numEntries ino, entryZone ino k ≠ 0) ∧
      (∀ zone : Fin numZones, 7 ≤ zone → ino.zones zone = 0) ∧
      ∀ k < numEntries ino, 2 ≤ k → entryInode disk ino k ≠ 0 →
        entryName disk ino k ≠ [] ∧ 0x2f#8 ∉ entryName disk ino k)
    ⟨fun ⟨size, two, direct, zones, indirect, names⟩ =>
        ⟨size, two, direct, zones, indirect, fun k hTwo hk => names k hk hTwo⟩,
      fun h => ⟨h.size, h.two, h.direct, h.zones, h.indirect, fun k hk hTwo => h.names k hTwo hk⟩⟩

structure WellFormed (disk : Memory) (sb : Superblock) (inode : BitVec 32) : Prop where
  positive : inode ≠ 0
  directory : IsDir (imageInode disk sb inode) → Directory disk (imageInode disk sb inode)

instance (disk : Memory) (sb : Superblock) (inode : BitVec 32) :
    Decidable (WellFormed disk sb inode) :=
  decidable_of_iff
    (inode ≠ 0 ∧ (IsDir (imageInode disk sb inode) → Directory disk (imageInode disk sb inode)))
    ⟨fun ⟨positive, directory⟩ => ⟨positive, directory⟩, fun h => ⟨h.positive, h.directory⟩⟩

/-- The inode and the first zone of a directory have 32-bit addresses. -/
structure Low (disk : Memory) (sb : Superblock) (inode : BitVec 32) : Prop where
  addr : inodeAddr sb inode < 2 ^ 32
  zone : IsDir (imageInode disk sb inode) → entryAddr (imageInode disk sb inode) 0 < 2 ^ 32

instance (disk : Memory) (sb : Superblock) (inode : BitVec 32) : Decidable (Low disk sb inode) :=
  decidable_of_iff
    (inodeAddr sb inode < 2 ^ 32 ∧
      (IsDir (imageInode disk sb inode) → entryAddr (imageInode disk sb inode) 0 < 2 ^ 32))
    ⟨fun ⟨addr, zone⟩ => ⟨addr, zone⟩, fun h => ⟨h.addr, h.zone⟩⟩

/-- `minix_disk_rw` brings the requested block into a page of zeros. -/
structure Delivers (env : Surroundings) (disk : Memory) : Prop where
  block : ∀ (byte : Word), ∀ k < 1024, env.deliver byte (BitVec.ofNat 64 k) =
    disk (byte + BitVec.ofNat 64 k)
  rest : ∀ (byte : Word) (k : Nat), 1024 ≤ k → k < 4096 →
    env.deliver byte (BitVec.ofNat 64 k) = 0

/-- All entries of a directory are in its first zone and in use, and each name has
an end: within its 60 bytes, or right behind the entry on the stack. -/
structure Plain (env : Surroundings) (disk : Memory) (ino : Inode) : Prop where
  one : numEntries ino ≤ 16
  used : ∀ k, 2 ≤ k → k < numEntries ino → entryInode disk ino k ≠ 0
  ends : ∀ k, 2 ≤ k → k < numEntries ino →
    0 ∈ nameBytes disk ino k ∨ env.behind.takeWhile (· ≠ 0) = []

instance (env : Surroundings) (disk : Memory) (ino : Inode) : Decidable (Plain env disk ino) :=
  decidable_of_iff
    (numEntries ino ≤ 16 ∧ ∀ k < numEntries ino, 2 ≤ k →
      entryInode disk ino k ≠ 0 ∧
        (0 ∈ nameBytes disk ino k ∨ env.behind.takeWhile (· ≠ 0) = []))
    ⟨fun ⟨one, entries⟩ =>
        ⟨one, fun k hTwo hk => (entries k hk hTwo).1, fun k hTwo hk => (entries k hk hTwo).2⟩,
      fun h => ⟨h.one, fun k hk hTwo => ⟨h.used k hTwo hk, h.ends k hTwo hk⟩⟩⟩

/-- Calls that go deep enough print the paths of the image. -/
def Prints (env : Surroundings) (disk : Memory) (sb : Superblock) (height : Nat) : Prop :=
  ∃ bound, ∀ depth, bound ≤ depth →
    lines (minixPrint env sb depth 1 []) = walk (imageEntries disk sb) height 1 []

/-! ## Requests -/

theorem Inode.load_of_bytes {block block' : Memory} {a b : Word}
    (h : ∀ k < 64, block (a + BitVec.ofNat 64 k) = block' (b + BitVec.ofNat 64 k)) :
    Inode.load block a = Inode.load block' b := by
  have hPart (i k : Nat) (hk : i + k < 64) :
      block (a + BitVec.ofNat 64 i + BitVec.ofNat 64 k) =
        block' (b + BitVec.ofNat 64 i + BitVec.ofNat 64 k) := by
    rw [BitVec.add_assoc, BitVec.add_assoc, ← BitVec.ofNat_add]
    exact h (i + k) hk
  have hMode : block.load16 a = block'.load16 b :=
    Memory.load16_of_bytes fun k hk => h k (by omega)
  have hSize : block.load32 (a + 8) = block'.load32 (b + 8) :=
    Memory.load32_of_bytes fun k hk => hPart 8 k (by omega)
  have hZone (zone : Fin numZones) :
      block.load32 (a + 24 + BitVec.ofNat 64 (4 * zone)) =
        block'.load32 (b + 24 + BitVec.ofNat 64 (4 * zone)) := by
    refine Memory.load32_of_bytes fun k hk => ?_
    have hIn : zone.val < 10 := zone.isLt
    rw [BitVec.add_assoc (a + 24), BitVec.add_assoc (b + 24), ← BitVec.ofNat_add]
    exact hPart 24 (4 * zone + k) (by omega)
  unfold Inode.load
  rw [hMode, hSize, funext hZone]

/-- The 32 bits of `OFFSET` suffice for an inode in the first 4 GiB. -/
theorem offset_of_low (hInode : inode ≠ 0) (hLow : inodeAddr sb inode < 2 ^ 32) :
    (offset inode sb.imapBlocks sb.zmapBlocks).setWidth 64 =
      BitVec.ofNat 64 (inodeAddr sb inode) := by
  have hPos : 1 ≤ inode.toNat := by
    by_contra hZero
    exact hInode (BitVec.eq_of_toNat_eq (by simp; omega))
  have hImap := sb.imapBlocks.isLt
  have hZmap := sb.zmapBlocks.isLt
  have hSub : (inode - 1).toNat = inode.toNat - 1 := by bv_omega
  apply BitVec.eq_of_toNat_eq
  unfold offset
  unfold inodeAddr at hLow ⊢
  rw [BitVec.toNat_setWidth, BitVec.toNat_ofNat]
  simp only [BitVec.toNat_add, BitVec.toNat_mul, hSub, BitVec.toNat_setWidth,
    show (1024 : BitVec 32).toNat = 1024 from rfl, show (64 : BitVec 32).toNat = 64 from rfl]
  omega

theorem readInode_of_low (hDelivers : Delivers env disk) (hInode : inode ≠ 0)
    (hLow : inodeAddr sb inode < 2 ^ 32) : readInode env sb inode = imageInode disk sb inode := by
  have hByte := offset_of_low hInode hLow
  have hAligned : inodeAddr sb inode % 64 = 0 := by
    unfold inodeAddr
    omega
  unfold readInode imageInode
  rw [hByte]
  generalize hAddr : BitVec.ofNat 64 (inodeAddr sb inode) = byte
  have hValue : byte.toNat = inodeAddr sb inode := by
    rw [← hAddr, BitVec.toNat_ofNat, Nat.mod_eq_of_lt (by omega)]
  have hDown : (alignDownPot byte blockSize).toNat = byte.toNat / 1024 * 1024 :=
    toNat_and_neg_1024 byte
  have hRest : (byte - alignDownPot byte blockSize).toNat = byte.toNat % 1024 := by
    bv_omega
  refine Inode.load_of_bytes fun k hk => ?_
  have hOffset : byte - alignDownPot byte blockSize + BitVec.ofNat 64 k =
      BitVec.ofNat 64 (byte.toNat % 1024 + k) := by
    rw [BitVec.ofNat_add, ← hRest, BitVec.ofNat_toNat, BitVec.setWidth_eq]
  rw [hOffset, hDelivers.block _ _ (by omega), BitVec.ofNat_add, ← hRest, BitVec.ofNat_toNat,
    BitVec.setWidth_eq]
  congr 1
  bv_omega

/-! ## The first zone -/

/-- The block of the first zone as it is in the buffer. -/
def firstBlock (env : Surroundings) (ino : Inode) : Memory :=
  env.deliver (BitVec.ofNat 64 (entryAddr ino 0))

/-- An entry as the loop over the entries finds it, whether the block has it or
not. -/
def firstBlockEntry (env : Surroundings) (ino : Inode) (k : Nat) : List Byte × BitVec 32 :=
  (0x2f#8 :: direntName env (firstBlock env ino) (BitVec.ofNat 64 (64 * k)),
    (firstBlock env ino).load32 (BitVec.ofNat 64 (64 * k)))

theorem entryAddr_of_lt (ino : Inode) (hk : k < 16) :
    entryAddr ino k = (ino.zones 0).toNat * 1024 + 64 * k := by
  unfold entryAddr entryZone
  rw [Nat.div_eq_of_lt hk, Nat.mod_eq_of_lt hk, Nat.mul_comm k]
  rfl

theorem entryAddr_zero (ino : Inode) : entryAddr ino 0 = (ino.zones 0).toNat * 1024 := by
  rw [entryAddr_of_lt ino (by decide : 0 < 16), Nat.mul_zero, Nat.add_zero]

theorem firstBlock_apply (hDelivers : Delivers env disk) (ino : Inode) (hk : k < 16) {j : Nat}
    (hj : j < 64) : firstBlock env ino (BitVec.ofNat 64 (64 * k + j)) =
      disk (BitVec.ofNat 64 (entryAddr ino k + j)) := by
  rw [firstBlock, hDelivers.block _ _ (by omega), entryAddr_of_lt ino hk, entryAddr_zero,
    ← BitVec.ofNat_add, Nat.add_assoc]

theorem load32_firstBlock (hDelivers : Delivers env disk) (ino : Inode) (hk : k < 16) :
    (firstBlock env ino).load32 (BitVec.ofNat 64 (64 * k)) = entryInode disk ino k := by
  refine Memory.load32_of_bytes fun j hj => ?_
  rw [← BitVec.ofNat_add, ← BitVec.ofNat_add]
  exact firstBlock_apply hDelivers ino hk (by omega)

theorem direntName_firstBlock (hDelivers : Delivers env disk) (ino : Inode) (hk : k < 16) :
    direntName env (firstBlock env ino) (BitVec.ofNat 64 (64 * k)) =
      (nameBytes disk ino k ++ env.behind).takeWhile (· ≠ 0) := by
  have hBytes : (List.range 60).map (fun j =>
      firstBlock env ino (BitVec.ofNat 64 (64 * k) + 4 + BitVec.ofNat 64 j)) =
        nameBytes disk ino k := by
    refine List.map_congr_left fun j hj => ?_
    have hIn : j < 60 := List.mem_range.mp hj
    have hOffset : BitVec.ofNat 64 (64 * k) + 4 + BitVec.ofNat 64 j =
        BitVec.ofNat 64 (64 * k + (4 + j)) := by
      rw [BitVec.ofNat_add, BitVec.ofNat_add 4, ← BitVec.add_assoc]
      rfl
    rw [hOffset, firstBlock_apply hDelivers ino hk (by omega), Nat.add_assoc]
  unfold direntName
  rw [hBytes]

/-- Behind the block there is an entry without a name. -/
theorem direntName_behind (hDelivers : Delivers env disk) (ino : Inode) :
    direntName env (firstBlock env ino) (BitVec.ofNat 64 (64 * 16)) = [] := by
  have hZero : firstBlock env ino (BitVec.ofNat 64 (64 * 16) + 4 + BitVec.ofNat 64 0) = 0 :=
    hDelivers.rest _ 1028 (by decide) (by decide)
  unfold direntName
  rw [List.range_succ_eq_map, List.map_cons, List.cons_append, hZero]
  rfl

theorem direntOffsets_eq {size : BitVec 32} (hSize : 64 ∣ size.toNat) (hTwo : 2 ≤ size.toNat / 64) :
    direntOffsets size =
      (List.range (size.toNat / 64 - 2)).map fun k => BitVec.ofNat 64 (64 * (k + 2)) := by
  have hCount : (size.toNat - 128 + 63) / 64 = size.toNat / 64 - 2 := by omega
  unfold direntOffsets
  rw [hCount]
  refine List.map_congr_left fun k _ => ?_
  congr 1
  omega

/-- A directory in the direct zones is read in its first zone only. -/
theorem printEntries_of_low (hDelivers : Delivers env disk) (hWell : WellFormed disk sb inode)
    (hLow : Low disk sb inode) (hDir : IsDir (imageInode disk sb inode)) :
    printEntries env sb inode = (List.range (numEntries (imageInode disk sb inode) - 2)).map
      fun k => firstBlockEntry env (imageInode disk sb inode) (k + 2) := by
  have hDirectory := hWell.directory hDir
  have hZone := hLow.zone hDir
  have hRead := readInode_of_low hDelivers hWell.positive hLow.addr
  rw [printEntries_of_dir (by rw [hRead]; exact hDir), hRead]
  generalize imageInode disk sb inode = ino at *
  have hNonzero : ino.zones 0 ≠ 0 := hDirectory.zones 0 (by have := hDirectory.two; omega)
  have hDirect : directZone ino = some (ino.zones 0) := by
    unfold directZone
    rw [List.map_cons, List.find?_cons_of_pos (by simpa using hNonzero)]
  have hByte : zoneByte (ino.zones 0) = BitVec.ofNat 64 (entryAddr ino 0) := by
    rw [entryAddr_zero] at hZone ⊢
    apply BitVec.eq_of_toNat_eq
    rw [zoneByte, BitVec.toNat_setWidth, BitVec.toNat_ofNat, BitVec.toNat_mul,
      show (1024 : BitVec 32).toNat = 1024 from rfl, Nat.mod_eq_of_lt hZone]
  have hNone (zone : Fin numZones) (h : 7 ≤ zone) : indirectEntries env ino zone = [] :=
    if_neg (not_not.mpr (hDirectory.indirect zone h))
  rw [hNone zoneIndir (by decide), hNone zoneDindr (by decide), hNone zoneTindr (by decide),
    List.append_nil, List.append_nil, List.append_nil]
  have hEntries : directEntries env ino = bufferEntries env ino (zoneByte (ino.zones 0)) := by
    unfold directEntries
    rw [hDirect]
  rw [hEntries, hByte, bufferEntries, direntOffsets_eq hDirectory.size hDirectory.two, List.map_map]
  rfl

/-- A further entry than the block has shows as a slash without a name. -/
theorem mem_printEntries_of_long (hDelivers : Delivers env disk) (hWell : WellFormed disk sb inode)
    (hLow : Low disk sb inode) (hDir : IsDir (imageInode disk sb inode))
    (hLong : 16 < numEntries (imageInode disk sb inode)) :
    ∃ entry ∈ printEntries env sb inode, entry.1 = [0x2f#8] := by
  refine ⟨firstBlockEntry env (imageInode disk sb inode) 16, ?_, ?_⟩
  · rw [printEntries_of_low hDelivers hWell hLow hDir]
    exact List.mem_map.mpr ⟨14, List.mem_range.mpr (by omega), rfl⟩
  · unfold firstBlockEntry
    rw [direntName_behind hDelivers]

/-- A directory of one block is read with all of its entries. -/
theorem thins_of_one (hDelivers : Delivers env disk) (hWell : WellFormed disk sb inode)
    (hLow : Low disk sb inode)
    (hOne : IsDir (imageInode disk sb inode) → numEntries (imageInode disk sb inode) ≤ 16) :
    Thins (printEntries env sb inode) (imageEntries disk sb inode) := by
  by_cases hDir : IsDir (imageInode disk sb inode)
  · have hCount := hOne hDir
    rw [printEntries_of_low hDelivers hWell hLow hDir, imageEntries, if_pos hDir]
    refine thins_filterMap fun k hk entry hEntry => ?_
    have hIn : k < numEntries (imageInode disk sb inode) - 2 := List.mem_range.mp hk
    split at hEntry
    · cases hEntry
    · obtain rfl := Option.some.inj hEntry
      exact (load32_firstBlock hDelivers _ (by omega)).symm
  · rw [printEntries_of_file, imageEntries, if_neg hDir]
    · exact .nil
    · rwa [readInode_of_low hDelivers hWell.positive hLow.addr]

/-! ## Names -/

/-- A name ends within its bytes, or nothing is behind them. -/
theorem takeWhile_append_eq_iff (bytes behind : List Byte) :
    (bytes ++ behind).takeWhile (· ≠ 0) = bytes.takeWhile (· ≠ 0) ↔
      0 ∈ bytes ∨ behind.takeWhile (· ≠ 0) = [] := by
  induction bytes with
  | nil => simp
  | cons byte bytes ih =>
      by_cases hZero : byte = 0
      · simp [hZero]
      · have hNe : ¬ 0 = byte := fun hEq => hZero hEq.symm
        simp only [List.cons_append, List.takeWhile_cons, hZero, ne_eq, not_false_eq_true,
          decide_true, if_true, List.cons.injEq, true_and, List.mem_cons, hNe, false_or]
        exact ih

def EndsInSlash (name : List Byte) : Prop :=
  name.getLast? = some 0x2f#8

theorem EndsInSlash.append (front : List Byte) {name : List Byte} (h : EndsInSlash name) :
    EndsInSlash (front ++ name) := by
  unfold EndsInSlash at h ⊢
  rw [List.getLast?_append, h]
  rfl

/-- The name of an entry of the image is behind the last slash. -/
theorem not_endsInSlash_of_mem_imageEntries (hWell : WellFormed disk sb inode)
    {entry : List Byte × BitVec 32} (hEntry : entry ∈ imageEntries disk sb inode)
    (front : List Byte) : ¬ EndsInSlash (front ++ entry.1) := by
  by_cases hDir : IsDir (imageInode disk sb inode)
  · rw [imageEntries, if_pos hDir, List.mem_filterMap] at hEntry
    obtain ⟨k, hk, hSome⟩ := hEntry
    have hIn : k < numEntries (imageInode disk sb inode) - 2 := List.mem_range.mp hk
    split at hSome
    · cases hSome
    · next hUsed =>
        obtain rfl := Option.some.inj hSome
        obtain ⟨hName, hSlash⟩ :=
          (hWell.directory hDir).names (k + 2) (by omega) (by omega) hUsed
        intro hEnds
        have hLast : (front ++ 0x2f#8 :: entryName disk (imageInode disk sb inode) (k + 2)).getLast? =
            some ((entryName disk (imageInode disk sb inode) (k + 2)).getLast hName) := by
          rw [List.append_cons, List.getLast?_append,
            List.getLast?_eq_some_getLast hName]
          rfl
        have hIs := Option.some.inj (hLast.symm.trans hEnds)
        exact hSlash (hIs ▸ List.getLast_mem hName)
  · rw [imageEntries, if_neg hDir] at hEntry
    cases hEntry

/-! ## Images that are printed as they are -/

/-- A directory is read as it is when it is plain. -/
theorem printEntries_eq_iff (hDelivers : Delivers env disk) (hWell : WellFormed disk sb inode)
    (hLow : Low disk sb inode) (hDir : IsDir (imageInode disk sb inode)) :
    printEntries env sb inode = imageEntries disk sb inode ↔
      Plain env disk (imageInode disk sb inode) := by
  have hEntry (k : Nat) (hk : k < 16) :
      (if entryInode disk (imageInode disk sb inode) k = 0 then none
        else some (0x2f#8 :: entryName disk (imageInode disk sb inode) k,
          entryInode disk (imageInode disk sb inode) k)) =
        some (firstBlockEntry env (imageInode disk sb inode) k) ↔
      entryInode disk (imageInode disk sb inode) k ≠ 0 ∧
        (0 ∈ nameBytes disk (imageInode disk sb inode) k ∨
          env.behind.takeWhile (· ≠ 0) = []) := by
    rw [← takeWhile_append_eq_iff, firstBlockEntry, direntName_firstBlock hDelivers _ hk,
      load32_firstBlock hDelivers _ hk, entryName]
    split
    · next hZero => exact iff_of_false (fun h => by cases h) fun h => h.1 hZero
    · next hUsed =>
        rw [Option.some.injEq, Prod.mk.injEq, List.cons.injEq]
        exact ⟨fun h => ⟨hUsed, h.1.2.symm⟩, fun h => ⟨⟨rfl, h.2.symm⟩, rfl⟩⟩
  constructor
  · intro hSame
    have hOne : numEntries (imageInode disk sb inode) ≤ 16 := by
      by_contra hLong
      obtain ⟨entry, hMem, hName⟩ :=
        mem_printEntries_of_long hDelivers hWell hLow hDir (by omega)
      rw [hSame] at hMem
      refine not_endsInSlash_of_mem_imageEntries hWell hMem [] ?_
      rw [hName]
      rfl
    rw [printEntries_of_low hDelivers hWell hLow hDir, imageEntries, if_pos hDir, eq_comm,
      List.filterMap_eq_map_iff_forall_eq_some] at hSame
    have hAll (k : Nat) (hLow : 2 ≤ k) (hk : k < numEntries (imageInode disk sb inode)) :=
      (hEntry k (by omega)).mp (by
        have hSome := hSame (k - 2) (List.mem_range.mpr (by omega))
        rwa [Nat.sub_add_cancel hLow] at hSome)
    exact ⟨hOne, fun k hLow hk => (hAll k hLow hk).1, fun k hLow hk => (hAll k hLow hk).2⟩
  · intro hPlain
    rw [printEntries_of_low hDelivers hWell hLow hDir, imageEntries, if_pos hDir, eq_comm,
      List.filterMap_eq_map_iff_forall_eq_some]
    intro k hk
    have hIn : k < numEntries (imageInode disk sb inode) - 2 := List.mem_range.mp hk
    have hOne := hPlain.one
    exact (hEntry (k + 2) (by omega)).mpr
      ⟨hPlain.used _ (by omega) (by omega), hPlain.ends _ (by omega) (by omega)⟩

/-- What is asked of the inode of a directory. -/
def PlainAt (env : Surroundings) (disk : Memory) (sb : Superblock) (inode : BitVec 32) : Prop :=
  IsDir (imageInode disk sb inode) → Plain env disk (imageInode disk sb inode)

instance (env : Surroundings) (disk : Memory) (sb : Superblock) (inode : BitVec 32) :
    Decidable (PlainAt env disk sb inode) :=
  inferInstanceAs (Decidable (_ → _))

theorem printEntries_eq_iff_plainAt (hDelivers : Delivers env disk)
    (hWell : WellFormed disk sb inode) (hLow : Low disk sb inode) :
    printEntries env sb inode = imageEntries disk sb inode ↔ PlainAt env disk sb inode := by
  by_cases hDir : IsDir (imageInode disk sb inode)
  · rw [printEntries_eq_iff hDelivers hWell hLow hDir]
    exact ⟨fun hPlain _ => hPlain, fun hPlain => hPlain hDir⟩
  · have hFile : printEntries env sb inode = [] := by
      refine printEntries_of_file ?_
      rwa [readInode_of_low hDelivers hWell.positive hLow.addr]
    rw [hFile, imageEntries, if_neg hDir]
    exact iff_of_true rfl fun h => absurd h hDir

/-- The first call prints no line of its own. -/
theorem lines_first (env : Surroundings) (sb : Superblock) (depth : Nat) :
    lines (minixPrint env sb (depth + 1) 1 []) = walk (printEntries env sb) depth 1 [] :=
  lines_minixPrint env sb depth 1 []

theorem prints_of_within
    (hSame : Within (imageEntries disk sb)
      (fun inode => printEntries env sb inode = imageEntries disk sb inode) height 1) :
    Prints env disk sb height := by
  refine ⟨height + 1, fun depth hDepth => ?_⟩
  obtain ⟨depth, rfl⟩ : ∃ d, depth = d + 1 := ⟨depth - 1, by omega⟩
  rw [lines_first]
  exact walk_eq_of_within hSame (Nat.le_of_succ_le_succ hDepth)

/-- A directory of several blocks would show in a line that ends in a slash. -/
theorem within_of_prints (hDelivers : Delivers env disk)
    (hImage : Within (imageEntries disk sb) (WellFormed disk sb) height 1)
    (hLow : Within (imageEntries disk sb) (Low disk sb) height 1)
    (hPrints : Prints env disk sb height) :
    Within (imageEntries disk sb)
      (fun inode => printEntries env sb inode = imageEntries disk sb inode) height 1 := by
  obtain ⟨bound, hLines⟩ := hPrints
  have hDeep := hLines (bound + height + 1) (by omega)
  rw [lines_first] at hDeep
  have hNoSlash : ∀ line ∈ walk (printEntries env sb) (bound + height) 1 [], ¬ EndsInSlash line := by
    intro line hLine
    rw [hDeep] at hLine
    obtain ⟨front, inode, entry, hWell, hEntry, rfl⟩ := exists_of_mem_walk hImage hLine
    exact not_endsInSlash_of_mem_imageEntries hWell hEntry front
  have hSeen : Within (imageEntries disk sb)
      (fun inode => (∀ entry ∈ printEntries env sb inode, ¬ EndsInSlash entry.1) →
        Thins (printEntries env sb inode) (imageEntries disk sb inode)) height 1 := by
    refine (hImage.and hLow).mono fun inode ⟨hWell, hLow⟩ hNames => ?_
    refine thins_of_one hDelivers hWell hLow fun hDir => ?_
    by_contra hLong
    obtain ⟨entry, hEntry, hName⟩ := mem_printEntries_of_long hDelivers hWell hLow hDir (by omega)
    refine hNames entry hEntry ?_
    rw [hName]
    rfl
  have hThins := within_of_forall_mem_walk (fun front _ => EndsInSlash.append front) hSeen
    (Nat.le_add_left height bound) hNoSlash
  exact within_of_walk_eq hThins (Nat.le_add_left height bound) hDeep

/-- The paths of an image are printed if every directory that is reached is plain
and lies in the first 4 GiB; of the images in the first 4 GiB no others are. -/
theorem prints_iff (hDelivers : Delivers env disk)
    (hImage : Within (imageEntries disk sb) (WellFormed disk sb) height 1) :
    (Within (imageEntries disk sb)
        (fun inode => Low disk sb inode ∧ PlainAt env disk sb inode) height 1 →
      Prints env disk sb height) ∧
    (Within (imageEntries disk sb) (Low disk sb) height 1 → Prints env disk sb height →
      Within (imageEntries disk sb) (PlainAt env disk sb) height 1) := by
  constructor
  · intro hPlain
    refine prints_of_within ((hImage.and hPlain).mono fun inode ⟨hWell, hLow, hPlain⟩ => ?_)
    exact (printEntries_eq_iff_plainAt hDelivers hWell hLow).mpr hPlain
  · intro hLow hPrints
    have hSame := within_of_prints hDelivers hImage hLow hPrints
    refine ((hImage.and hLow).and hSame).mono fun inode ⟨⟨hWell, hLow⟩, hSame⟩ => ?_
    exact (printEntries_eq_iff_plainAt hDelivers hWell hLow).mp hSame

section Images

/-- The buffer after a request, with nothing behind an entry on the stack. -/
def surroundings (disk : Memory) : Surroundings where
  deliver := fun byte k => if k.toNat < 1024 then disk (byte + k) else 0
  addr := 0
  behind := []

theorem delivers_surroundings (disk : Memory) : Delivers (surroundings disk) disk where
  block := fun byte k hk => if_pos (by rw [BitVec.toNat_ofNat]; omega)
  rest := fun byte k hk hFit => if_neg (by rw [BitVec.toNat_ofNat]; omega)

/-- One block for each bitmap. -/
def smallSuperblock : Superblock := ⟨1, 1, minix3Magic⟩

/-- The bytes of entry `k` of a directory: behind the first two, a letter for a
name and the second inode. -/
def entryByte (k : Nat) : Nat → Byte
  | 0 => if k < 2 then 1 else 2
  | 4 => if k < 2 then 0x2e else 0x5f + BitVec.ofNat 8 k
  | 5 => if k = 1 then 0x2e else 0
  | _ => 0

/-- The inodes of a root directory with `n` entries from zone 5 on, and of a
file. -/
def rootWith (n : Nat) : Memory := fun a =>
  if 5120 ≤ a.toNat ∧ a.toNat < 5120 + 64 * n then
    entryByte ((a.toNat - 5120) / 64) ((a.toNat - 5120) % 64)
  else
    ([(4096, 0xed), (4097, 0x41), (4104, BitVec.ofNat 8 (64 * n)),
      (4105, BitVec.ofNat 8 (64 * n / 256)), (4120, 5), (4124, 6), (4160, 0xa4),
      (4161, 0x81)].lookup a.toNat).getD 0

variable {n : Nat}

/-- Both images are well-formed, and the smaller one is plain. -/
theorem rootWith_checked (h : n = 3 ∨ n = 17) :
    (WellFormed (rootWith n) smallSuperblock 1 ∧ Low (rootWith n) smallSuperblock 1 ∧
      (PlainAt (surroundings (rootWith n)) (rootWith n) smallSuperblock 1 ↔ n = 3)) ∧
    (WellFormed (rootWith n) smallSuperblock 2 ∧ Low (rootWith n) smallSuperblock 2 ∧
      PlainAt (surroundings (rootWith n)) (rootWith n) smallSuperblock 2) ∧
    (∀ entry ∈ imageEntries (rootWith n) smallSuperblock 1, entry.2 = 2) ∧
      imageEntries (rootWith n) smallSuperblock 2 = [] := by
  rcases h with rfl | rfl <;> decide +kernel

theorem within_root {P : BitVec 32 → Prop} (h : n = 3 ∨ n = 17) (hRoot : P 1) (hFile : P 2) :
    Within (imageEntries (rootWith n) smallSuperblock) P 2 1 := by
  obtain ⟨-, -, hEntries, hNone⟩ := rootWith_checked h
  refine ⟨hRoot, fun entry hEntry => ?_⟩
  rw [hEntries entry hEntry]
  refine ⟨hFile, fun entry hEntry => ?_⟩
  rw [hNone] at hEntry
  cases hEntry

/-- The path of the file in a root directory of one block. -/
theorem prints_threeEntries :
    Prints (surroundings (rootWith 3)) (rootWith 3) smallSuperblock 2 := by
  obtain ⟨⟨hWell, hLow, hPlain⟩, ⟨hWell', hLow', hPlain'⟩, -⟩ := rootWith_checked (.inl rfl)
  have hImage := within_root (.inl rfl) hWell hWell'
  refine (prints_iff (delivers_surroundings (rootWith 3)) hImage).1 ?_
  exact within_root (.inl rfl) ⟨hLow, hPlain.mpr rfl⟩ ⟨hLow', hPlain'⟩

/-- Of a root directory of two blocks the second one is not read. -/
theorem not_prints_seventeenEntries :
    Delivers (surroundings (rootWith 17)) (rootWith 17) ∧
      Within (imageEntries (rootWith 17) smallSuperblock)
        (WellFormed (rootWith 17) smallSuperblock) 2 1 ∧
      ¬ Prints (surroundings (rootWith 17)) (rootWith 17) smallSuperblock 2 := by
  obtain ⟨⟨hWell, hLow, hPlain⟩, ⟨hWell', hLow', -⟩, -⟩ := rootWith_checked (.inr rfl)
  have hDelivers := delivers_surroundings (rootWith 17)
  have hImage := within_root (.inr rfl) hWell hWell'
  have hLows := within_root (.inr rfl) hLow hLow'
  refine ⟨hDelivers, hImage, fun hPrints => ?_⟩
  have hSame := within_of_prints hDelivers hImage hLows hPrints
  have hPlainRoot := (printEntries_eq_iff_plainAt hDelivers hImage.1 hLows.1).mp hSame.1
  exact absurd (hPlain.mp hPlainRoot) (by decide)

end Images

end Kernel.Minix3
