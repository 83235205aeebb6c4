import RiscvOs.Kernel.Minix3Image

/-! Whether `minix_print` ends, and what it reads in the block buffer. Nothing
on the disk bounds its calls: it follows the inode numbers of all entries. -/
namespace Kernel.Minix3

open Semantics DepthFirst Relation

variable {env : Surroundings} {sb : Superblock} {ino : Inode} {inode : BitVec 32}
  {path : List Byte} {byte : Word} {depth : Nat}

/-- The block buffer is one page. -/
def Copy.Inside (copy : Copy) : Prop :=
  copy.offset.toNat + copy.size ≤ 4096

instance (copy : Copy) : Decidable copy.Inside :=
  inferInstanceAs (Decidable (_ ≤ _))

/-- Copies are out of the block buffer, and none goes to an address that was never
assigned: nothing is promised of what the code does behind such a store. -/
def Event.Safe : Event → Prop
  | .read _ => True
  | .line _ => True
  | .copy bytes => bytes.Inside
  | .stray _ => False
  | .deeper => False

def AllSafe (events : List Event) : Prop :=
  ∀ event ∈ events, event.Safe

/-- The call ends, and reads the block buffer only. -/
def EndsInside (env : Surroundings) (sb : Superblock) (inode : BitVec 32) (path : List Byte) :
    Prop :=
  ∃ depth, AllSafe (minixPrint env sb depth inode path)

/-- An inode has entries that lead to the second one. -/
abbrev Leads (env : Surroundings) (sb : Superblock) : BitVec 32 → BitVec 32 → Prop :=
  Edge (printEntries env sb)

/-- The entries of an inode, if it has any, are in the buffer, and a directory has
no indirect zones. -/
structure Fits (env : Surroundings) (sb : Superblock) (inode : BitVec 32) : Prop where
  size : printEntries env sb inode = [] ∨ (readInode env sb inode).size.toNat ≤ 4096
  direct : (readInode env sb inode).mode &&& sIfmt = sIfdir →
    ∀ zone ∈ [zoneIndir, zoneDindr, zoneTindr], (readInode env sb inode).zones zone = 0

/-! ## A call -/

/-- The inode is in its block as a whole. -/
theorem inode_inside (sb : Superblock) (inode : BitVec 32) :
    let byte : Word := (offset inode sb.imapBlocks sb.zmapBlocks).setWidth 64
    (Copy.mk (byte - alignDownPot byte blockSize) 64).Inside := by
  intro byte
  have hDown : (alignDownPot byte blockSize).toNat = byte.toNat / 1024 * 1024 :=
    toNat_and_neg_1024 byte
  have hRest : (byte - alignDownPot byte blockSize).toNat = byte.toNat % 1024 := by
    bv_omega
  unfold Copy.Inside
  change (byte - alignDownPot byte blockSize).toNat + 64 ≤ 4096
  omega

theorem mem_direntOffsets {size : BitVec 32} {i : Word} : i ∈ direntOffsets size ↔
    ∃ k, 128 + 64 * k < size.toNat ∧ i = BitVec.ofNat 64 (128 + 64 * k) := by
  simp only [direntOffsets, List.mem_map, List.mem_range]
  constructor
  · rintro ⟨k, hk, rfl⟩
    exact ⟨k, by omega, rfl⟩
  · rintro ⟨k, hk, rfl⟩
    exact ⟨k, by omega, rfl⟩

/-- The offsets end at the size, a multiple of 64 or not. -/
theorem direntOffsets_inside {size : BitVec 32} :
    (∀ i ∈ direntOffsets size, (Copy.mk i 64).Inside) ↔ size.toNat ≤ 4096 := by
  have hSize := size.isLt
  have hOffset (k : Nat) (hk : 128 + 64 * k < size.toNat) :
      (BitVec.ofNat 64 (128 + 64 * k)).toNat = 128 + 64 * k := by
    rw [BitVec.toNat_ofNat]
    omega
  constructor
  · intro hAll
    by_contra hLarge
    have hLast := hAll _ (mem_direntOffsets.mpr ⟨62, by omega, rfl⟩)
    exact absurd hLast (by decide)
  · intro hSmall i hi
    obtain ⟨k, hk, rfl⟩ := mem_direntOffsets.mp hi
    unfold Copy.Inside
    change (BitVec.ofNat 64 (128 + 64 * k)).toNat + 64 ≤ 4096
    rw [hOffset k hk]
    omega

@[simp] theorem allSafe_nil : AllSafe [] :=
  nofun

@[simp] theorem allSafe_cons {event : Event} {events : List Event} :
    AllSafe (event :: events) ↔ event.Safe ∧ AllSafe events :=
  List.forall_mem_cons

@[simp] theorem allSafe_append {events events' : List Event} :
    AllSafe (events ++ events') ↔ AllSafe events ∧ AllSafe events' :=
  List.forall_mem_append

theorem allSafe_flatMap {Source : Type} {sources : List Source} {events : Source → List Event} :
    AllSafe (sources.flatMap events) ↔ ∀ source ∈ sources, AllSafe (events source) := by
  simp only [AllSafe, List.mem_flatMap, forall_exists_index, and_imp]
  exact ⟨fun h source hSource event => h event source hSource,
    fun h event source hSource => h source hSource event⟩

/-- What a loop over entries asks for: room for them, and that the calls end. -/
def Followed (env : Surroundings) (sb : Superblock) (depth : Nat) (path : List Byte) (ino : Inode)
    (entries : List (List Byte × BitVec 32)) : Prop :=
  (entries = [] ∨ ino.size.toNat ≤ 4096) ∧
    ∀ entry ∈ entries, AllSafe (minixPrint env sb depth entry.2 (path ++ entry.1))

theorem followed_nil : Followed env sb depth path ino [] :=
  ⟨.inl rfl, nofun⟩

/-- The loop over the entries in the buffer. -/
theorem allSafe_entries : AllSafe ((direntOffsets ino.size).flatMap fun i =>
    .copy ⟨i, 64⟩ :: minixPrint env sb depth ((env.deliver byte).load32 i)
      (path ++ 0x2f#8 :: direntName env (env.deliver byte) i)) ↔
      Followed env sb depth path ino (bufferEntries env ino byte) := by
  have hRoom : (∀ i ∈ direntOffsets ino.size, (Copy.mk i 64).Inside) ↔
      bufferEntries env ino byte = [] ∨ ino.size.toNat ≤ 4096 := by
    rw [← direntOffsets_inside, bufferEntries, List.map_eq_nil_iff]
    refine ⟨.inr, fun hRoom => ?_⟩
    rcases hRoom with hNone | hAll
    · simp [hNone]
    · exact hAll
  have hCalls : (∀ i ∈ direntOffsets ino.size,
      AllSafe (minixPrint env sb depth ((env.deliver byte).load32 i)
        (path ++ 0x2f#8 :: direntName env (env.deliver byte) i))) ↔
      ∀ entry ∈ bufferEntries env ino byte,
        AllSafe (minixPrint env sb depth entry.2 (path ++ entry.1)) := by
    simp only [bufferEntries, List.forall_mem_map]
  rw [allSafe_flatMap]
  simp only [allSafe_cons]
  rw [forall₂_and, hCalls]
  exact and_congr_left' hRoom

theorem allSafe_direct : AllSafe (match directZone ino with
      | none => []
      | some zone => .read ⟨zoneByte zone, blockSize⟩ ::
          (direntOffsets ino.size).flatMap fun i =>
            .copy ⟨i, 64⟩ :: minixPrint env sb depth ((env.deliver (zoneByte zone)).load32 i)
              (path ++ 0x2f#8 :: direntName env (env.deliver (zoneByte zone)) i)) ↔
      Followed env sb depth path ino (directEntries env ino) := by
  unfold directEntries
  cases directZone ino with
  | none => simp [followed_nil]
  | some zone =>
      rw [allSafe_cons, allSafe_entries]
      exact and_iff_right trivial

/-- A zone behind the direct ones is not followed safely: its block number goes
through `addr`. -/
theorem allSafe_indirect (zone : Fin numZones) (count : Nat) : AllSafe
    (if ino.zones zone ≠ 0 then
      indirectReads env ino (count + 1) ++ (direntOffsets ino.size).flatMap fun i =>
        .copy ⟨i, 64⟩ :: minixPrint env sb depth ((env.deliver (env.addr * blockSize)).load32 i)
          (path ++ 0x2f#8 :: direntName env (env.deliver (env.addr * blockSize)) i)
    else []) ↔ ino.zones zone = 0 := by
  by_cases hZero : ino.zones zone = 0
  · rw [if_neg (not_not.mpr hZero)]
    exact iff_of_true allSafe_nil hZero
  · rw [if_pos hZero]
    refine iff_of_false (fun hSafe => ?_) hZero
    have hStray : (Event.stray env.addr).Safe := by
      refine hSafe _ (List.mem_append_left _ (List.mem_cons_of_mem _ ?_))
      rw [List.replicate_succ, List.flatten_cons]
      exact List.mem_append_left _ (by simp [indirectStep])
    exact hStray

/-- Without indirect zones the entries are those of the direct one. -/
theorem printEntries_of_direct (hDir : (readInode env sb inode).mode &&& sIfmt = sIfdir)
    (hDirect : ∀ zone ∈ [zoneIndir, zoneDindr, zoneTindr], (readInode env sb inode).zones zone = 0) :
    printEntries env sb inode = directEntries env (readInode env sb inode) := by
  have hNone (zone : Fin numZones) (hZone : zone ∈ [zoneIndir, zoneDindr, zoneTindr]) :
      indirectEntries env (readInode env sb inode) zone = [] :=
    if_neg (not_not.mpr (hDirect zone hZone))
  rw [printEntries_of_dir hDir, hNone zoneIndir (by simp), hNone zoneDindr (by simp),
    hNone zoneTindr (by simp), List.append_nil, List.append_nil, List.append_nil]

/-- A call ends safely when the calls for its entries do. -/
theorem allSafe_minixPrint_succ (env : Surroundings) (sb : Superblock) (depth : Nat)
    (inode : BitVec 32) (path : List Byte) : AllSafe (minixPrint env sb (depth + 1) inode path) ↔
      Fits env sb inode ∧ ∀ entry ∈ printEntries env sb inode,
        AllSafe (minixPrint env sb depth entry.2 (path ++ entry.1)) := by
  have hOwn := inode_inside sb inode
  have hLine : AllSafe (if path.length > 0 then [.line path] else []) := by
    split
    · rw [allSafe_cons]
      exact ⟨trivial, allSafe_nil⟩
    · exact allSafe_nil
  rw [minixPrint, allSafe_append, allSafe_cons, allSafe_cons]
  refine (and_iff_right ⟨trivial, hOwn, hLine⟩).trans ?_
  change AllSafe (ite ((readInode env sb inode).mode &&& sIfmt = sIfdir) _ _) ↔ _
  by_cases hDir : (readInode env sb inode).mode &&& sIfmt = sIfdir
  · rw [if_pos hDir, allSafe_append, allSafe_append, allSafe_append]
    refine (and_congr (and_congr (and_congr allSafe_direct (allSafe_indirect zoneIndir 0))
      (allSafe_indirect zoneDindr 1)) (allSafe_indirect zoneTindr 2)).trans ?_
    constructor
    · rintro ⟨⟨⟨⟨hSize, hCalls⟩, hIndir⟩, hDindr⟩, hTindr⟩
      have hDirect : ∀ zone ∈ [zoneIndir, zoneDindr, zoneTindr],
          (readInode env sb inode).zones zone = 0 := by
        simp only [List.forall_mem_cons]
        exact ⟨hIndir, hDindr, hTindr, List.forall_mem_nil _⟩
      have hEntries := printEntries_of_direct hDir hDirect
      refine ⟨⟨?_, fun _ => hDirect⟩, ?_⟩
      · rw [hEntries]
        exact hSize
      · rw [hEntries]
        exact hCalls
    · rintro ⟨hFits, hCalls⟩
      have hDirect := hFits.direct hDir
      have hSize := hFits.size
      rw [printEntries_of_direct hDir hDirect] at hSize hCalls
      simp only [List.forall_mem_cons] at hDirect
      exact ⟨⟨⟨⟨hSize, hCalls⟩, hDirect.1⟩, hDirect.2.1⟩, hDirect.2.2.1⟩
  · rw [if_neg hDir, printEntries_of_file hDir]
    refine iff_of_true allSafe_nil ⟨⟨.inl (printEntries_of_file hDir), ?_⟩,
      List.forall_mem_nil _⟩
    exact fun hIs => absurd hIs hDir

/-- By induction on the depth: the calls are a walk along the entries. -/
theorem allSafe_minixPrint (env : Surroundings) (sb : Superblock) (depth : Nat)
    (inode : BitVec 32) (path : List Byte) : AllSafe (minixPrint env sb depth inode path) ↔
      Within (printEntries env sb) (Fits env sb) depth inode := by
  induction depth generalizing inode path with
  | zero => exact iff_of_false (fun hSafe => hSafe .deeper (List.mem_singleton.mpr rfl)) id
  | succ depth ih =>
      rw [allSafe_minixPrint_succ]
      exact and_congr_right fun _ => forall₂_congr fun entry _ => ih entry.2 _

/-! ## All calls -/

/-- The call ends unless it comes to a directory with itself below it, and stays
in the buffer unless it comes to a directory that is too large or has an
indirect zone. -/
theorem endsInside_iff (env : Surroundings) (sb : Superblock) (inode : BitVec 32)
    (path : List Byte) :
    EndsInside env sb inode path ↔ ∀ reached, ReflTransGen (Leads env sb) inode reached →
      Fits env sb reached ∧ ¬ TransGen (Leads env sb) reached reached := by
  have : Finite (BitVec 32) := Finite.of_injective BitVec.toFin fun _ _ => BitVec.eq_of_toFin_eq
  unfold EndsInside
  simp only [allSafe_minixPrint]
  exact exists_within_iff

/-- A root directory in zone 5 whose third entry is the root, with a letter for a
name. -/
def loopImage : Memory := fun a =>
  ([(4096, 0xed), (4097, 0x41), (4104, 192), (4120, 5), (5248, 1), (5252, 0x61)].lookup
    a.toNat).getD 0

theorem leads_loopImage : Leads (surroundings loopImage) smallSuperblock 1 1 := by
  change ∃ entry ∈ printEntries (surroundings loopImage) smallSuperblock 1, entry.2 = 1
  decide +kernel

/-- The call for the third entry is the first call again. -/
theorem not_endsInside : ¬ EndsInside (surroundings loopImage) smallSuperblock 1 [] := by
  rintro ⟨depth, hEnds⟩
  rw [allSafe_minixPrint] at hEnds
  exact hEnds.acyclic (.single leads_loopImage)

end Kernel.Minix3
