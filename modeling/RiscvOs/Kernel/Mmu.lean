import RiscvOs.Kernel.Memhelp

/-! `mmu.c`, the Sv39 page tables. Page tables and data live in one physical
memory. `cpage_znalloc` answers its requests from a given sequence of
addresses; each call of `mmu_map` runs alone under `kernel_mmu_lock`. -/
namespace Kernel.Mmu

open Semantics

/-- The physical memory, and the number of requests that `cpage_znalloc` has
answered. -/
structure World where
  mem : Memory
  calls : Nat

/-- `cpage_znalloc`: the next answer, with its pages zeroed. The answer 0 is
`NULL`, as is the answer to a request of no pages. -/
def cpageZnalloc (answer : Nat → Word) (numPages : Int) (w : World) : Word × World :=
  if numPages ≤ 0 ∨ answer w.calls = 0 then (0, { w with calls := w.calls + 1 })
  else (answer w.calls,
    { mem := w.mem.fill (answer w.calls) (4096 * numPages.toNat) 0, calls := w.calls + 1 })

/-- `PB_VALID` -/
def pbValid : Word := 1

/-- `PB_READ | PB_WRITE | PB_EXECUTE` -/
def pbLeaf : Word := 0b1110

/-- `PB_USER` -/
def pbUser : Word := 1 <<< 4

/-- `vpn[i]` -/
def vpn (vaddr : Word) (i : Nat) : Word :=
  (vaddr >>> (12 + 9 * i)) &&& 0x1ff#64

/-- `ppn[i]` of an address or, 2 bits lower, of a table entry. -/
def ppn (paddr : Word) (low : Nat) : Nat → Word
  | 0 => (paddr >>> low) &&& 0x1ff#64
  | 1 => (paddr >>> (low + 9)) &&& 0x1ff#64
  | _ => (paddr >>> (low + 18)) &&& 0x3ffffff#64

/-- `&table->pt_entry[i]` -/
def ptEntryAddr (table i : Word) : Word :=
  table + 8 * i

/-- `table->pt_entry[i]` -/
def ptEntry (m : Memory) (table i : Word) : Word :=
  m.load64 (ptEntryAddr table i)

/-- `table->pt_entry[i] = entry` -/
def setPtEntry (m : Memory) (table i entry : Word) : Memory :=
  m.store64 (ptEntryAddr table i) entry

/-- `(table_entry << 2) & ~0xfffUL` -/
def nextTable (entry : Word) : Word :=
  (entry <<< 2) &&& ~~~0xfff#64

/-- `(((uint64_t)new_table) >> 2) | PB_VALID` -/
def branchEntry (newTable : Word) : Word :=
  (newTable >>> 2) ||| pbValid

/-- `(ppn[2] << 28) | (ppn[1] << 19) | (ppn[0] << 10) | bits | PB_VALID` -/
def leafEntry (paddr bits : Word) : Word :=
  (ppn paddr 12 2 <<< 28) ||| (ppn paddr 12 1 <<< 19) ||| (ppn paddr 12 0 <<< 10) ||| bits |||
    pbValid

/-- One iteration of the loop of `mmu_map`: the table of the next level. -/
def mapLevel (answer : Nat → Word) (w : World) (table index : Word) : Word × World :=
  if ptEntry w.mem table index &&& pbValid = 0 then
    let (newTable, w') := cpageZnalloc answer 1 w
    (nextTable (branchEntry newTable),
      { w' with mem := setPtEntry w'.mem table index (branchEntry newTable) })
  else (nextTable (ptEntry w.mem table index), w)

/-- The loop of `mmu_map` from level `i` down to level 1. -/
def mapLoop (answer : Nat → Word) (vaddr : Word) (w : World) (table : Word) : Nat → Word × World
  | 0 => (table, w)
  | i + 1 =>
      let (table', w') := mapLevel answer w table (vpn vaddr (i + 1))
      mapLoop answer vaddr w' table' i

def mmuMap (answer : Nat → Word) (w : World) (table vaddr paddr bits : Word) : Bool × World :=
  let (table', w') := mapLoop answer vaddr w table 2
  (true, { w' with mem := setPtEntry w'.mem table' (vpn vaddr 0) (leafEntry paddr bits) })

/-- The address that a leaf found at level `i` stands for. -/
def leafAddr (entry vaddr : Word) : Nat → Word
  | 0 => (ppn entry 10 2 <<< 30) ||| (ppn entry 10 1 <<< 21) ||| (ppn entry 10 0 <<< 12) |||
      (vaddr &&& 0xfff#64)
  | 1 => (ppn entry 10 2 <<< 30) ||| (ppn entry 10 1 <<< 21) ||| (vaddr &&& 0x1fffff#64)
  | _ => (ppn entry 10 2 <<< 30) ||| (vaddr &&& 0x3fffffff#64)

/-- The loop of `mmu_translate` with the given number of levels to go. -/
def translateLoop (m : Memory) (vaddr table : Word) : Nat → Word
  | 0 => -1
  | i + 1 =>
      let entry := ptEntry m table (vpn vaddr i)
      if entry &&& pbValid = 0 then -1
      else if entry &&& pbLeaf = 0 then translateLoop m vaddr (nextTable entry) i
      else leafAddr entry vaddr i

def mmuTranslate (m : Memory) (table vaddr : Word) : Word :=
  translateLoop m vaddr table 3

/-- The loop of `mmu_map_multiple`; it has no result when the fuel runs out. -/
def mapMultipleLoop (answer : Nat → Word) (table vStart pStart bytes bits i : Word) (w : World) :
    Nat → Option World
  | 0 => none
  | fuel + 1 =>
      if i < bytes then
        mapMultipleLoop answer table vStart pStart bytes bits (i + 4096)
          (mmuMap answer w table (vStart + i) (pStart + i) bits).2 fuel
      else some w

/-- A loop of more than `2 ^ 52` iterations is back at the counter 0 and does
not end. -/
def mmuMapMultiple (answer : Nat → Word) (w : World) (table vStart pStart bytes bits : Word) :
    Option World :=
  mapMultipleLoop answer table vStart pStart bytes bits 0 w (2 ^ 52 + 1)

end Kernel.Mmu
