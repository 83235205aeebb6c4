import RiscvOs.Kernel.Mmu

/-! `process.c`, the creation of processes. A process is a value of its own
here, with the fields that the kernel reads; its address is where
`cpage_znalloc` put it. -/
namespace Kernel

open Semantics Mmu

/-- `P_STATE` -/
inductive PState where
  | dead
  | unint
  | running
  | sleeping
  | waiting
  deriving DecidableEq

/-- The saved registers of a process; `gpregs` by register number. -/
structure ProcFrame where
  gpregs : Fin 32 → Word
  sepc : Word
  sstatus : Word
  sie : Word
  satp : Word
  sscratch : Word
  stvec : Word
  trapSatp : Word
  trapStack : Word

structure Process where
  frame : ProcFrame
  state : PState
  priority : Word
  quantum : BitVec 16
  qMult : Word
  vRuntime : Word
  startTime : Word
  sleepUntil : Word
  imagePgNum : Word
  stackPgNum : Word
  ptable : Word
  image : Word
  stack : Word
  hartNum : Int
  kmode : Bool

/-- What the zeroed page of `cpage_znalloc` holds, read as a process. -/
def Process.zero : Process where
  frame := ⟨fun _ => 0, 0, 0, 0, 0, 0, 0, 0, 0⟩
  state := .dead
  priority := 0
  quantum := 0
  qMult := 0
  vRuntime := 0
  startTime := 0
  sleepUntil := 0
  imagePgNum := 0
  stackPgNum := 0
  ptable := 0
  image := 0
  stack := 0
  hartNum := 0
  kmode := false

/-- `kernel_mmu_table` and the spawn locations of `spawn.S`. -/
structure Globals where
  kernelMmuTable : Word
  spawnThreadStart : Word
  spawnThreadEnd : Word
  spawnTrapStart : Word
  spawnTrapEnd : Word

/-- `P_DEFAULT_QUANTUM` -/
def pDefaultQuantum : BitVec 16 := 100

/-- `P_DEFAULT_STACK_POINTER` -/
def pDefaultStackPointer : Word := 0x1cafe0000

/-- `sizeof(ProcFrame)` -/
def sizeofFrame : Word := 576

/-- `SATP(table, asid)` -/
def satp (table asid : Word) : Word :=
  (8 <<< 60) ||| ((table >>> 12) &&& 0xfffffffffff#64) ||| ((asid &&& 0xffff#64) <<< 44)

/-- `KERNEL_ASID` -/
def kernelAsid : Word := 0xffff

/-- `SIE_SEIE | SIE_SSIE | SIE_STIE` -/
def sieBits : Word := (1 <<< 9) ||| (1 <<< 1) ||| (1 <<< 5)

/-- `SSTATUS_FS_INITIAL | SSTATUS_SPIE`, with `SSTATUS_SPP_USER` or
`SSTATUS_SPP_SUPERVISOR`. -/
def sstatusBits (user : Bool) : Word :=
  (1 <<< 13) ||| (1 <<< 5) ||| (if user then 0 <<< 8 else 1 <<< 8)

/-- `PB_READ | PB_WRITE` -/
def pbReadWrite : Word := 0b110

/-- `PB_EXECUTE` -/
def pbExecute : Word := 0b1000

/-- A range of the kernel is mapped into a process. The callers pass the end
of the range and its physical address where `mmu_map_multiple` takes the
physical address and the number of bytes. -/
def mapKernelRange (answer : Nat → Word) (g : Globals) (w : World) (table vStart vEnd bits : Word) :
    Option World :=
  let phys := mmuTranslate w.mem g.kernelMmuTable vStart
  mmuMapMultiple answer w table vStart vEnd phys bits

/-- `p_init` on the process at the address `p`, whose page is zero. -/
def pInit (answer : Nat → Word) (g : Globals) (w : World) (p : Word) :
    Option (Option Process × World) :=
  if p = 0 then some (none, w)
  else do
    let (ptable, w) := cpageZnalloc answer 1 w
    let (stack, w) := cpageZnalloc answer 1 w
    let w ← mapKernelRange answer g w ptable g.spawnThreadStart g.spawnThreadEnd pbExecute
    let w ← mapKernelRange answer g w ptable g.spawnTrapStart g.spawnTrapEnd pbExecute
    let w ← mapKernelRange answer g w ptable p (p + sizeofFrame) pbReadWrite
    let frame := { Process.zero.frame with
      gpregs := fun i => if i = 2 then pDefaultStackPointer + 1 * 4096 else 0
      sie := sieBits
      sscratch := p
      stvec := g.spawnTrapStart
      trapSatp := satp g.kernelMmuTable kernelAsid }
    some (some { Process.zero with
      frame := frame
      state := .unint
      ptable := ptable
      stack := stack
      stackPgNum := 1
      quantum := pDefaultQuantum
      hartNum := -1
      qMult := 1 }, w)

/-- The page permissions of the stack. -/
def stackBits (user : Bool) : Word :=
  if user then pbUser ||| pbReadWrite else pbReadWrite

def pNew (answer : Nat → Word) (g : Globals) (user : Bool) (w : World) :
    Option (Option Process × World) := do
  let (page, w) := cpageZnalloc answer 1 w
  match ← pInit answer g w page with
  | (none, w) => some (none, w)
  | (some p, w) =>
      let w ← mmuMapMultiple answer w p.ptable pDefaultStackPointer
        (pDefaultStackPointer + p.stackPgNum * 4096) p.stack (stackBits user)
      some (some { p with
        kmode := !user
        frame := { p.frame with sstatus := sstatusBits user } }, w)

end Kernel
