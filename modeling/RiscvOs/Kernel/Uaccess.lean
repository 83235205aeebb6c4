import RiscvOs.Kernel.Mmu
import RiscvOs.Semantics.Loop

/-! `uaccess.c`, the copies between the kernel and a process. Both functions
have one loop, over the pages of the user's addresses, and differ in the
direction of its `memcpy`. -/
namespace Kernel.Uaccess

open Semantics Mmu

/-- The counter `i` of the loop, and memory. -/
structure Copy where
  i : BitVec 32
  mem : Memory

/-- An `int` in an address computation. -/
def word (i : BitVec 32) : Word :=
  i.signExtend 64

/-- `till_next_page` -/
def tillNextPage (userAddr : Word) (i : BitVec 32) : BitVec 32 :=
  (alignUpPot (userAddr + word i) 4096 - userAddr - word i).setWidth 32

/-- `till_next_page > (bytes - i) ? (bytes - i) : till_next_page` -/
def chunk (userAddr : Word) (bytes i : BitVec 32) : BitVec 32 :=
  if (bytes - i).slt (tillNextPage userAddr i) then bytes - i else tillNextPage userAddr i

/-- The `memcpy` of an iteration: memory, the physical address, `i` and the
number of bytes. -/
abbrev Transfer := Memory → Word → Word → Word → Memory

/-- An iteration of the loop, or `none` where the loop ends. -/
def iteration (transfer : Transfer) (ptable userAddr : Word) (bytes : BitVec 32) (c : Copy) :
    Option Copy :=
  if c.i.slt bytes then
    let phys := mmuTranslate c.mem ptable (userAddr + word c.i)
    if phys = -1 then none
    else
      some {
        i := c.i + tillNextPage userAddr c.i
        mem := transfer c.mem phys (word c.i) (word (chunk userAddr bytes c.i)) }
  else none

/-- `memcpy(kernel_addr + i, phys, n)` -/
def fromUser (kernelAddr : Word) : Transfer :=
  fun m phys i n => memcpy m (kernelAddr + i) phys n

/-- `memcpy(phys, kernel_addr + i, n)` -/
def toUser (kernelAddr : Word) : Transfer :=
  fun m phys i n => memcpy m phys (kernelAddr + i) n

/-- The loop of either function, with the fuel for its iterations: the result
`i` and memory. -/
def copyLoop (transfer : Transfer) (ptable userAddr : Word) (bytes : BitVec 32) (fuel : Nat)
    (m : Memory) : Option (BitVec 32 × Memory) := do
  let c ← loop (iteration transfer ptable userAddr bytes) fuel ⟨0, m⟩
  some (c.i, c.mem)

def copyFromUser (kernelAddr ptable userAddr : Word) (bytes : BitVec 32) (fuel : Nat) (m : Memory) :
    Option (BitVec 32 × Memory) :=
  copyLoop (fromUser kernelAddr) ptable userAddr bytes fuel m

def copyToUser (ptable userAddr kernelAddr : Word) (bytes : BitVec 32) (fuel : Nat) (m : Memory) :
    Option (BitVec 32 × Memory) :=
  copyLoop (toUser kernelAddr) ptable userAddr bytes fuel m

end Kernel.Uaccess
