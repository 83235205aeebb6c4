import RiscvOs.Kernel.Memhelp

/-! `kmalloc.c`, the byte allocator of the kernel heap. The heap is a range of
kernel virtual addresses that starts with the node `kmalloc_head` and grows by
one page at a time; the free nodes are a circular doubly linked list through
that head. Loops have no result when their fuel runs out. -/
namespace Kernel.Kmalloc

open Semantics

/-- The kernel's virtual memory with the globals `kmalloc_head` and
`kernel_heap_v_addr`, and the number of pages asked of `cpage_znalloc`. -/
structure Heap where
  mem : Memory
  head : Word
  heapVAddr : Word
  calls : Nat

/-- `a->size` -/
def size (m : Memory) (a : Word) : Word :=
  m.load64 a

/-- `a->prev` -/
def prev (m : Memory) (a : Word) : Word :=
  m.load64 (a + 8)

/-- `a->next` -/
def next (m : Memory) (a : Word) : Word :=
  m.load64 (a + 16)

def setSize (m : Memory) (a value : Word) : Memory :=
  m.store64 a value

def setPrev (m : Memory) (a value : Word) : Memory :=
  m.store64 (a + 8) value

def setNext (m : Memory) (a value : Word) : Memory :=
  m.store64 (a + 16) value

def nodeAppend (m : Memory) (a b : Word) : Memory :=
  let m := setNext m b (next m a)
  let m := setPrev m b a
  let m := setPrev m (next m b) b
  setNext m (prev m b) b

def nodeRemove (m : Memory) (a : Word) : Memory :=
  let m := setPrev m (next m a) (prev m a)
  setNext m (prev m a) (next m a)

/-- `(bytes + sizeof(size_t) + sizeof(flist)) & -16UL` -/
def blockSize (bytes : Word) : Word :=
  (bytes + 8 + 24) &&& -16#64

/-- The search loop of `kmalloc`. It stops at the first node that is smaller
than the block. -/
def searchLoop (m : Memory) (head bytes temp : Word) : Nat → Option Word
  | 0 => none
  | fuel + 1 =>
      if size m temp < bytes then some temp
      else if temp = head then some temp
      else searchLoop m head bytes (next m temp) fuel

/-- The iterations of `for (int i = 0; i <= num_pages; i++)` with
`int num_pages = (bytes / PAGE_SIZE) + 1`. -/
def iterations (bytes : Word) : Nat :=
  (((bytes / 4096 + 1).setWidth 32).toInt + 1).toNat

/-- The loop that maps the given number of pages behind the heap. The answers
of `cpage_znalloc` matter here only by being `NULL` or not; a new page is
zero. The result `false` is the `return NULL` inside the loop. -/
def extendLoop (answer : Nat → Word) (h : Heap) : Nat → Bool × Heap
  | 0 => (true, h)
  | i + 1 =>
      let v := h.heapVAddr + 4096
      let h := { h with heapVAddr := v, calls := h.calls + 1 }
      if answer (h.calls - 1) = 0 then (false, h)
      else
        let m := setSize (h.mem.fill v 4096 0) v 4096
        extendLoop answer { h with mem := nodeAppend m (prev m h.head) v } i

/-- The loop of `coalesce_free_list`. -/
def coalesceLoop (head : Word) (m : Memory) (temp : Word) : Nat → Option Memory
  | 0 => none
  | fuel + 1 =>
      if next m temp = head then some m
      else if temp + size m temp = next m temp then
        let m := setSize m temp (size m temp + size m (next m temp))
        coalesceLoop head (nodeRemove m (next m temp)) temp fuel
      else coalesceLoop head m (next m temp) fuel

def coalesceFreeList (fuel : Nat) (head : Word) (m : Memory) : Option Memory :=
  coalesceLoop head m (next m head) fuel

/-- The end of `kmalloc`: the block is cut from the end of the node `temp`. -/
def carve (m : Memory) (temp bytes : Word) : Word × Memory :=
  let ret := temp + size m temp - bytes
  if size m temp - bytes < 16 then (ret + 8, nodeRemove m temp)
  else (ret + 8, setSize (m.store64 ret bytes) temp (size m temp - bytes))

/-- The returned pointer and the heap behind it. -/
def kmalloc (answer : Nat → Word) (fuel : Nat) (h : Heap) (bytes : Word) :
    Option (Word × Heap) := do
  let bytes := blockSize bytes
  let temp ← searchLoop h.mem h.head bytes (next h.mem h.head) fuel
  if temp = h.head then
    let temp := h.heapVAddr + 4096
    match extendLoop answer h (iterations bytes) with
    | (false, h) => some (0, h)
    | (true, h) => do
        let m ← coalesceFreeList fuel h.head h.mem
        let (ret, m) := carve m temp bytes
        some (ret, { h with mem := m })
  else
    let (ret, m) := carve h.mem temp bytes
    some (ret, { h with mem := m })

def kzalloc (answer : Nat → Word) (fuel : Nat) (h : Heap) (bytes : Word) :
    Option (Word × Heap) := do
  let (ptr, h) ← kmalloc answer fuel h bytes
  some (ptr, { h with mem := memset h.mem ptr 0 (bytes - 8) })

/-- The search loop of `kfree`. -/
def placeLoop (m : Memory) (head ptr temp : Word) : Nat → Option Word
  | 0 => none
  | fuel + 1 =>
      if temp = head || ptr > temp then some temp
      else placeLoop m head ptr (prev m temp) fuel

def kfree (fuel : Nat) (h : Heap) (ptr : Word) : Option Heap :=
  if ptr = 0 then some h
  else
    let ptr := ptr - 8
    if size h.mem ptr = 0 then some h
    else do
      let temp ← placeLoop h.mem h.head ptr (prev h.mem h.head) fuel
      let m ← coalesceFreeList fuel h.head (nodeAppend h.mem temp ptr)
      some { h with mem := m }

/-- `KERNEL_HEAP_START_VADDR` -/
def kernelHeapStartVaddr : Word := 0x120000000

/-- The page of the head is the first answer of `cpage_znalloc`. -/
def initKernelHeap (m : Memory) : Heap :=
  let head := kernelHeapStartVaddr
  let m := setSize (m.fill head 4096 0) head 0
  let m := setPrev m head head
  { mem := setNext m head (prev m head), head := head, heapVAddr := head, calls := 1 }

end Kernel.Kmalloc
