import RiscvOs.Kernel.Memhelp

/-! `cpage.c`, the allocator of contiguous pages. The heap starts with one
bookkeeping byte per page of the heap; byte `k` keeps the taken bit of page `k`
at position `2 * (k % 4)` and its last bit one position above. The pages
themselves start behind the bookkeeping bytes, rounded up to a page. -/
namespace Kernel.Cpage

open Semantics

/-- `sym_start(heap)` and `sym_end(heap)`, both page aligned by the linker
script. -/
structure Heap where
  start : Word
  stop : Word
  start_aligned : start.toNat % 4096 = 0
  stop_aligned : stop.toNat % 4096 = 0
  start_le_stop : start.toNat ≤ stop.toNat

namespace Heap

/-- `bk_bytes` -/
def bkBytes (h : Heap) : Word :=
  (h.stop - h.start) / 4096

/-- `(bk_bytes + 4095) & -4096` -/
def bkRounded (h : Heap) : Word :=
  (h.bkBytes + 4095) &&& -4096#64

/-- The number of bookkeeping bytes, as a loop bound. -/
def pages (h : Heap) : Nat :=
  h.bkBytes.toNat

/-- The address `cpage_znalloc` returns for the page index `i`; the offset
`PAGE_SIZE * i` is computed in `int`. -/
def pageAddr (h : Heap) (i : Nat) : Word :=
  h.start + h.bkRounded + intWord (4096 * i)

/-- `&cur_byte[k]` -/
def curByte (h : Heap) (k : Int) : Word :=
  h.start + BitVec.ofInt 64 k

end Heap

/-- `2 * (k % 4)`. A shift by a register takes its amount modulo 32, which
matters for a negative remainder only. -/
def takenPos (k : Int) : Nat :=
  ((2 * k.tmod 4) % 32).toNat

/-- `2 * (k % 4) + 1` -/
def lastPos (k : Int) : Nat :=
  ((2 * k.tmod 4 + 1) % 32).toNat

/-- `(cur_byte[k] >> pos) & 1` -/
def testBit (h : Heap) (m : Memory) (k : Int) (pos : Nat) : Bool :=
  ((m (h.curByte k) >>> pos) &&& 1#8) != 0#8

/-- `cur_byte[k] |= 1 << pos` -/
def setBit (h : Heap) (m : Memory) (k : Int) (pos : Nat) : Memory :=
  m.store (h.curByte k) (m (h.curByte k) ||| (1#8 <<< pos))

/-- `cur_byte[k] &= ~(1 << pos)` -/
def clearBit (h : Heap) (m : Memory) (k : Int) (pos : Nat) : Memory :=
  m.store (h.curByte k) (m (h.curByte k) &&& ~~~(1#8 <<< pos))

def taken (h : Heap) (m : Memory) (k : Nat) : Bool :=
  testBit h m k (takenPos k)

def last (h : Heap) (m : Memory) (k : Nat) : Bool :=
  testBit h m k (lastPos k)

def cpageInit (h : Heap) (m : Memory) : Memory :=
  memset m h.start 0 h.bkBytes

/-- How the inner loop of `cpage_znalloc` ends: with `i` and `cpage_num` of an
allocation, or back in the outer loop with their values there. -/
inductive InnerExit where
  | found (i cpageNum : Nat)
  | resume (i cpageNum : Nat)

/-- The inner loop. Its header increments `i`; `j` keeps its first value. -/
def innerLoop (taken : Nat → Bool) (bkBytes numPages j i cpageNum : Nat) : InnerExit :=
  if j < bkBytes then
    if taken j then .resume i 0
    else if numPages ≤ cpageNum + 1 then .found i (cpageNum + 1)
    else innerLoop taken bkBytes numPages j (i + 1) (cpageNum + 1)
  else .resume i cpageNum
termination_by numPages - cpageNum

theorem le_of_innerLoop_resume {taken : Nat → Bool} {bkBytes numPages j i c i' c' : Nat}
    (h : innerLoop taken bkBytes numPages j i c = .resume i' c') : i ≤ i' := by
  fun_induction innerLoop taken bkBytes numPages j i c with
  | case1 => cases h; exact Nat.le_refl _
  | case2 => cases h
  | case3 i c hj hFree hMore ih => exact (Nat.le_succ i).trans (ih h)
  | case4 => cases h; exact Nat.le_refl _

/-- The outer loop of `cpage_znalloc`: the final `i` and `cpage_num` of the
allocation, or `none` at the `return NULL` behind the loop. -/
def outerLoop (taken : Nat → Bool) (bkBytes numPages i cpageNum : Nat) : Option (Nat × Nat) :=
  if i < bkBytes then
    if taken i then outerLoop taken bkBytes numPages (i + 1) 0
    else
      match h : innerLoop taken bkBytes numPages (i + 1) i (cpageNum + 1) with
      | .found i' c' => some (i', c')
      | .resume i' c' => outerLoop taken bkBytes numPages (i' + 1) c'
  else none
termination_by bkBytes - i
decreasing_by
  · omega
  · have := le_of_innerLoop_resume h
    omega

/-- The loop that sets the taken bits, after the given number of iterations. -/
def markTaken (h : Heap) (m : Memory) (i : Nat) : Nat → Memory
  | 0 => m
  | j + 1 => setBit h (markTaken h m i j) (i + j : Nat) (takenPos (i + j : Nat))

/-- The pointer and the memory `cpage_znalloc` leaves; the pointer 0 is `NULL`. -/
def cpageZnalloc (h : Heap) (m : Memory) (numPages : Int) : Word × Memory :=
  if numPages ≤ 0 then (0, m)
  else
    match outerLoop (taken h m) h.pages numPages.toNat 0 0 with
    | none => (0, m)
    | some (i, cpageNum) =>
        let marked := markTaken h m i cpageNum
        let m' := setBit h marked (i + cpageNum - 1 : Nat) (lastPos (i + cpageNum - 1 : Nat))
        (h.pageAddr i, memset m' (h.pageAddr i) 0 (intWord (4096 * cpageNum)))

/-- The `do`-`while` loop of `cpage_free`. It has no result when the fuel runs
out before a last bit is met. -/
def freeLoop (h : Heap) (m : Memory) (specByte : Int) : Nat → Option Memory
  | 0 => none
  | fuel + 1 =>
      let cleared := clearBit h (clearBit h m specByte (takenPos specByte)) specByte (lastPos specByte)
      if testBit h m specByte (lastPos specByte) then some cleared
      else freeLoop h cleared (specByte + 1) fuel

/-- `(temp_page - bk_bytes - heap_start) / 4096`, converted to `int`. -/
def specByte (h : Heap) (page : Word) : Int :=
  (((page - h.bkBytes - h.start) / 4096).setWidth 32).toInt

/-- The walk is followed until the index would leave `int`. -/
def cpageFree (h : Heap) (m : Memory) (page : Word) : Option Memory :=
  if page < h.start || page > h.stop then some m
  else freeLoop h m (specByte h page) (2 ^ 31 - specByte h page).toNat

end Kernel.Cpage
