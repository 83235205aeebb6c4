import RiscvOs.Semantics.Walk
import RiscvOs.Semantics.Word
import RiscvOs.Kernel.Minix3

/-! The paths that `minix_print` prints, and the paths of the entries of an image. -/
namespace Kernel.Minix3

open Semantics DepthFirst Virtioblk

variable {env : Surroundings} {sb : Superblock} {depth height : Nat} {inode : BitVec 32}
  {path : List Byte}

/-! ## The walk of `minix_print` -/

/-- The path on the line of an event. -/
def Event.printed : Event → Option (List Byte)
  | .line path => some path
  | _ => none

def lines (events : List Event) : List (List Byte) :=
  events.filterMap Event.printed

/-- The inode as it is read. -/
def readInode (env : Surroundings) (sb : Superblock) (inode : BitVec 32) : Inode :=
  let byte : Word := (offset inode sb.imapBlocks sb.zmapBlocks).setWidth 64
  Inode.load (env.deliver (alignDownPot byte blockSize)) (byte - alignDownPot byte blockSize)

/-- The entries that a loop over the entries finds after a request for a byte. -/
def bufferEntries (env : Surroundings) (ino : Inode) (byte : Word) :
    List (List Byte × BitVec 32) :=
  (direntOffsets ino.size).map fun i =>
    (0x2f#8 :: direntName env (env.deliver byte) i, (env.deliver byte).load32 i)

/-- The entries of the loop over the only direct zone that is read. -/
def directEntries (env : Surroundings) (ino : Inode) : List (List Byte × BitVec 32) :=
  match directZone ino with
  | none => []
  | some zone => bufferEntries env ino (zoneByte zone)

def indirectEntries (env : Surroundings) (ino : Inode) (zone : Fin numZones) :
    List (List Byte × BitVec 32) :=
  if ino.zones zone ≠ 0 then bufferEntries env ino (env.addr * blockSize) else []

/-- The entries that `minix_print` calls itself for. -/
def printEntries (env : Surroundings) (sb : Superblock) : Edges (BitVec 32) Byte := fun inode =>
  let ino := readInode env sb inode
  if ino.mode &&& sIfmt = sIfdir then
    directEntries env ino ++ indirectEntries env ino zoneIndir ++
      indirectEntries env ino zoneDindr ++ indirectEntries env ino zoneTindr
  else []

theorem printEntries_of_dir (hDir : (readInode env sb inode).mode &&& sIfmt = sIfdir) :
    printEntries env sb inode =
      directEntries env (readInode env sb inode) ++
        indirectEntries env (readInode env sb inode) zoneIndir ++
        indirectEntries env (readInode env sb inode) zoneDindr ++
        indirectEntries env (readInode env sb inode) zoneTindr :=
  if_pos hDir

theorem printEntries_of_file (hFile : (readInode env sb inode).mode &&& sIfmt ≠ sIfdir) :
    printEntries env sb inode = [] :=
  if_neg hFile

@[simp] theorem lines_nil : lines [] = [] :=
  rfl

@[simp] theorem lines_read (block : BlockRead) (events : List Event) :
    lines (.read block :: events) = lines events :=
  rfl

@[simp] theorem lines_copy (copy : Copy) (events : List Event) :
    lines (.copy copy :: events) = lines events :=
  rfl

@[simp] theorem lines_line (events : List Event) :
    lines (.line path :: events) = path :: lines events :=
  rfl

@[simp] theorem lines_append (events events' : List Event) :
    lines (events ++ events') = lines events ++ lines events' :=
  List.filterMap_append

@[simp] theorem lines_indirectReads (ino : Inode) (depth : Nat) :
    lines (indirectReads env ino depth) = [] := by
  refine List.filterMap_eq_nil_iff.mpr fun event hEvent => ?_
  rcases List.mem_cons.mp hEvent with rfl | hEvent
  · rfl
  · obtain ⟨step, hStep, hEvent⟩ := List.mem_flatten.mp hEvent
    rw [List.eq_of_mem_replicate hStep] at hEvent
    simp only [indirectStep, List.mem_cons, List.not_mem_nil, or_false] at hEvent
    rcases hEvent with rfl | rfl | rfl <;> rfl

theorem lines_flatMap {Entry : Type} (entries : List Entry) (events : Entry → List Event) :
    lines (entries.flatMap events) = entries.flatMap fun entry => lines (events entry) :=
  List.filterMap_flatMap

/-- A call prints its own path, then those of the calls that it makes. -/
theorem lines_minixPrint_succ (env : Surroundings) (sb : Superblock) (depth : Nat)
    (inode : BitVec 32) (path : List Byte) :
    lines (minixPrint env sb (depth + 1) inode path) =
      (if path.length > 0 then [path] else []) ++
        (printEntries env sb inode).flatMap fun entry =>
          lines (minixPrint env sb depth entry.2 (path ++ entry.1)) := by
  have hOwn : lines (if path.length > 0 then [.line path] else []) =
      if path.length > 0 then [path] else [] := by
    split <;> rfl
  have hEntries (byte : Word) (size : BitVec 32) :
      lines ((direntOffsets size).flatMap fun i =>
        .copy ⟨i, 64⟩ :: minixPrint env sb depth ((env.deliver byte).load32 i)
          (path ++ 0x2f#8 :: direntName env (env.deliver byte) i)) =
      ((direntOffsets size).map fun i =>
        (0x2f#8 :: direntName env (env.deliver byte) i, (env.deliver byte).load32 i)).flatMap
          fun entry => lines (minixPrint env sb depth entry.2 (path ++ entry.1)) := by
    rw [lines_flatMap, List.flatMap_map]
    rfl
  have hIndirect (ino : Inode) (zone : Fin numZones) (reads : Nat) :
      lines (if ino.zones zone ≠ 0 then
        indirectReads env ino reads ++ (direntOffsets ino.size).flatMap fun i =>
          .copy ⟨i, 64⟩ :: minixPrint env sb depth ((env.deliver (env.addr * blockSize)).load32 i)
            (path ++ 0x2f#8 :: direntName env (env.deliver (env.addr * blockSize)) i)
        else []) =
      (indirectEntries env ino zone).flatMap
        fun entry => lines (minixPrint env sb depth entry.2 (path ++ entry.1)) := by
    unfold indirectEntries bufferEntries
    split
    · rw [lines_append, lines_indirectReads, List.nil_append, hEntries]
    · rfl
  have hDirect (ino : Inode) :
      lines (match directZone ino with
        | none => []
        | some zone => .read ⟨zoneByte zone, blockSize⟩ ::
            (direntOffsets ino.size).flatMap fun i =>
              .copy ⟨i, 64⟩ :: minixPrint env sb depth ((env.deliver (zoneByte zone)).load32 i)
                (path ++ 0x2f#8 :: direntName env (env.deliver (zoneByte zone)) i)) =
      (directEntries env ino).flatMap
        fun entry => lines (minixPrint env sb depth entry.2 (path ++ entry.1)) := by
    unfold directEntries bufferEntries
    split
    · rfl
    · rw [lines_read, hEntries]
  rw [minixPrint, lines_append, lines_read, lines_copy, hOwn]
  refine congrArg _ ?_
  change lines (ite ((readInode env sb inode).mode &&& sIfmt = sIfdir) _ _) = _
  by_cases hDir : (readInode env sb inode).mode &&& sIfmt = sIfdir
  · rw [if_pos hDir, printEntries_of_dir hDir, List.flatMap_append, List.flatMap_append, List.flatMap_append, ← hDirect,
      ← hIndirect _ zoneIndir 1, ← hIndirect _ zoneDindr 2, ← hIndirect _ zoneTindr 3,
      ← lines_append, ← lines_append, ← lines_append]
    rfl
  · rw [if_neg hDir, printEntries_of_file hDir]
    rfl

/-- Every path has a slash in it, so that no call but the first has an empty one. -/
theorem ne_nil_of_mem_printEntries {entry : List Byte × BitVec 32}
    (hEntry : entry ∈ printEntries env sb inode) : entry.1 ≠ [] := by
  have hBuffer {ino : Inode} {byte : Word} (h : entry ∈ bufferEntries env ino byte) :
      entry.1 ≠ [] := by
    obtain ⟨i, -, rfl⟩ := List.mem_map.mp h
    exact List.cons_ne_nil _ _
  have hIndirect {ino : Inode} {zone : Fin numZones} (h : entry ∈ indirectEntries env ino zone) :
      entry.1 ≠ [] := by
    unfold indirectEntries at h
    split at h
    · exact hBuffer h
    · cases h
  by_cases hDir : (readInode env sb inode).mode &&& sIfmt = sIfdir
  · rw [printEntries_of_dir hDir, List.mem_append, List.mem_append, List.mem_append] at hEntry
    obtain ((hDirect | hZone) | hZone) | hZone := hEntry
    · unfold directEntries at hDirect
      split at hDirect
      · cases hDirect
      · exact hBuffer hDirect
    all_goals exact hIndirect hZone
  · rw [printEntries_of_file hDir] at hEntry
    cases hEntry

/-- The lines of `minix_print` are its path and a walk along its entries. -/
theorem lines_minixPrint (env : Surroundings) (sb : Superblock) (depth : Nat)
    (inode : BitVec 32) (path : List Byte) :
    lines (minixPrint env sb (depth + 1) inode path) =
      (if path.length > 0 then [path] else []) ++ walk (printEntries env sb) depth inode path := by
  induction depth generalizing inode path with
  | zero =>
      rw [lines_minixPrint_succ]
      exact congrArg _ (List.flatMap_eq_nil_iff.mpr fun _ _ => rfl)
  | succ depth ih =>
      rw [lines_minixPrint_succ]
      refine congrArg _ (List.flatMap_congr fun entry hEntry => ?_)
      have hName : entry.1 ≠ [] := ne_nil_of_mem_printEntries hEntry
      have hPath : (path ++ entry.1).length > 0 :=
        List.length_pos_iff.mpr (List.append_ne_nil_of_right_ne_nil _ hName)
      rw [ih, if_pos hPath]
      rfl

end Kernel.Minix3
