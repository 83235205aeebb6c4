import RiscvOs.Kernel.Process

/-! `elf.c`, the loader. The file lies in memory at the address `elf`; the
header fields are read from there at their offsets in `Elf64_Ehdr` and
`Elf64_Phdr`. -/
namespace Kernel

open Semantics Mmu

section Headers

variable (m : Memory) (elf : Word)

def eType : BitVec 16 := m.load16 (elf + 16)

def eMachine : BitVec 16 := m.load16 (elf + 18)

def eEntry : Word := m.load64 (elf + 24)

def ePhoff : Word := m.load64 (elf + 32)

def ePhnum : BitVec 16 := m.load16 (elf + 56)

end Headers

structure Phdr where
  pType : BitVec 32
  pOffset : Word
  pVaddr : Word
  pFilesz : Word
  pMemsz : Word
  deriving DecidableEq

/-- `phdr[i]` in a table at the given address. -/
def phdrAt (m : Memory) (table : Word) (i : Nat) : Phdr :=
  let a := table + BitVec.ofNat 64 (56 * i)
  { pType := m.load32 a
    pOffset := m.load64 (a + 8)
    pVaddr := m.load64 (a + 16)
    pFilesz := m.load64 (a + 32)
    pMemsz := m.load64 (a + 40) }

/-- The loop of `memcmp` over the bytes of a string. -/
def memcmp (m : Memory) (haystack : Word) : List Byte → Bool
  | [] => true
  | b :: rest => if m haystack ≠ b then false else memcmp m (haystack + 1) rest

/-- `ELFMAG` -/
def elfmag : List Byte := [0x7f, 0x45, 0x4c, 0x46]

/-- `EM_RISCV` -/
def emRiscv : BitVec 16 := 243

/-- `ET_EXEC` -/
def etExec : BitVec 16 := 2

/-- `PT_LOAD` -/
def ptLoad : BitVec 32 := 1

/-- `adr_start`, `adr_end` and `check_load` -/
structure AddressRange where
  adrStart : Word
  adrEnd : Word
  checkLoad : Bool
  deriving DecidableEq

/-- One iteration of the first loop of `elf_load`: only one of the bounds is
updated, and the end of the first segment is not used. -/
def AddressRange.add (r : AddressRange) (phdr : Phdr) : AddressRange :=
  if phdr.pType = ptLoad then
    if !r.checkLoad then ⟨phdr.pVaddr, phdr.pVaddr, true⟩
    else if r.adrStart > phdr.pVaddr then { r with adrStart := phdr.pVaddr }
    else if r.adrEnd < phdr.pVaddr + phdr.pMemsz then
      { r with adrEnd := phdr.pVaddr + phdr.pMemsz }
    else r
  else r

def phdrs (m : Memory) (elf : Word) : List Phdr :=
  (List.range (ePhnum m elf).toNat).map (phdrAt m (elf + ePhoff m elf))

def addressRange (m : Memory) (elf : Word) : AddressRange :=
  (phdrs m elf).foldl AddressRange.add ⟨0, 0, false⟩

/-- `ALIGN_UP_POT(x, PAGE_SIZE)` -/
def alignUp (x : Word) : Word :=
  (x + 4096 - 1) &&& -4096#64

/-- `ALIGN_DOWN_POT(x, PAGE_SIZE)` -/
def alignDown (x : Word) : Word :=
  x &&& -4096#64

/-- `image_pg_num` -/
def AddressRange.pages (r : AddressRange) : Word :=
  (alignUp r.adrEnd - alignDown r.adrStart) / 4096

/-- `image_pg_num` converted to the `int` that `cpage_znalloc` takes. -/
def AddressRange.numPages (r : AddressRange) : Int :=
  (r.pages.setWidth 32).toInt

/-- The body of the second loop of `elf_load`. It copies `p_memsz` bytes. -/
def copySegment (elf image adrStart : Word) (m : Memory) (phdr : Phdr) : Memory :=
  if phdr.pType = ptLoad then
    memcpy m (image + phdr.pVaddr - adrStart) (elf + phdr.pOffset) phdr.pMemsz
  else m

/-- The second loop of `elf_load`, which reads each header when it comes to
it. An `e_phnum` of 16 bits ends it before the fuel does. -/
def copyLoop (elf table image adrStart : Word) (m : Memory) (i : Nat) : Nat → Memory
  | 0 => m
  | fuel + 1 =>
      if i < (ePhnum m elf).toNat then
        copyLoop elf table image adrStart
          (copySegment elf image adrStart m (phdrAt m table i)) (i + 1) fuel
      else m

/-- `PB_USER | PB_READ | PB_WRITE | PB_EXECUTE` -/
def imageBits : Word := 0b11110

/-- The header is one of an executable for this machine. -/
def isExecutable (m : Memory) (elf : Word) : Bool :=
  memcmp m elf elfmag && eMachine m elf == emRiscv && eType m elf == etExec

def elfLoad (answer : Nat → Word) (w : World) (p : Process) (elf : Word) :
    Option (Bool × Process × World) :=
  let r := addressRange w.mem elf
  if !isExecutable w.mem elf then some (false, p, w)
  else if !r.checkLoad then some (false, p, w)
  else do
    let (image, w₁) := cpageZnalloc answer r.numPages w
    let m := copyLoop elf (elf + ePhoff w.mem elf) image r.adrStart w₁.mem 0 (2 ^ 16)
    let w' ← mmuMapMultiple answer { w₁ with mem := m } p.ptable r.adrStart
      (r.adrStart + r.pages * 4096) image imageBits
    some (true, { p with
      frame := { p.frame with sepc := eEntry w.mem elf }
      imagePgNum := r.pages
      image := image }, w')

end Kernel
