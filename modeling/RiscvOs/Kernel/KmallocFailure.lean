import RiscvOs.Kernel.KmallocGrow

/-! The `return NULL` of `kmalloc`. The lock is released; `kernel_heap_v_addr`
stays advanced, by a page more than the pages that were mapped, and these stay
on the free list. -/
namespace Kernel.Kmalloc

open Semantics Extent Lock

/-- `kmalloc` with `kmalloc_lock`. -/
def kmallocLocked (answer : Nat → Word) (fuel : Nat) (lock : Mutex) (h : Heap) (bytes : Word) :
    Option (Word × Mutex × Heap) := do
  let bytes := blockSize bytes
  let lock ← mutexSpinlock lock
  match ← kmallocNode answer fuel h bytes with
  | (none, h) => some (0, mutexUnlock lock, h)
  | (some temp, h) =>
      let (ret, m) := carve h.mem temp bytes
      some (ret, mutexUnlock lock, { h with mem := m })

theorem kmallocLocked_unlocked (answer : Nat → Word) (fuel : Nat) (h : Heap) (bytes : Word) :
    kmallocLocked answer fuel .unlocked h bytes =
      (kmalloc answer fuel h bytes).map fun r => (r.1, .unlocked, r.2) := by
  have hLock : mutexSpinlock .unlocked = some .locked := rfl
  rw [kmallocLocked, kmalloc_eq, hLock]
  simp only [Option.bind_eq_bind, Option.bind_some]
  cases kmallocNode answer fuel h (blockSize bytes) with
  | none => rfl
  | some r =>
      obtain ⟨temp, h'⟩ := r
      cases temp <;> rfl

/-- `NULL` with the lock released, and the free list and `kernel_heap_v_addr`
as they were. -/
def FailsCleanly (answer : Nat → Word) (h : Heap) (bytes : Word) : Prop :=
  ∃ fuel h', kmallocLocked answer fuel .unlocked h bytes = some (0, .unlocked, h') ∧
    (∀ a, FreeNode h'.mem h'.head a ↔ FreeNode h.mem h.head a) ∧
    (∀ a, FreeNode h.mem h.head a → size h'.mem a = size h.mem a) ∧ h'.heapVAddr = h.heapVAddr

theorem iterations_le (bytes : Word) : iterations bytes ≤ 2 ^ 31 := by
  have hInt := BitVec.toInt_lt (x := (bytes / 4096 + 1).setWidth 32)
  rw [iterations]
  omega

section Failure

variable {answer : Nat → Word} {h : Heap} {bytes : Word} {fuel : Nat}

/-- The search reaches the head, and one of the pages is denied. -/
theorem kmallocLocked_denied
    (hSearch : searchLoop h.mem h.head (blockSize bytes) (next h.mem h.head) fuel = some h.head)
    (hDenied : Denied answer h (blockSize bytes)) :
    ∃ h' k, kmallocLocked answer fuel .unlocked h bytes = some (0, .unlocked, h') ∧
      Extended answer h (iterations (blockSize bytes)) h' false k := by
  obtain ⟨ok, h', k, hLoop, hExtended, -⟩ :=
    extendLoop_extended answer h (iterations (blockSize bytes))
  cases hExtended with
  | all hPages =>
      obtain ⟨i, hi, hNull⟩ := hDenied
      exact absurd hNull (hPages i hi)
  | denied hk hPages hNull hAddr hCalls =>
      refine ⟨h', k, ?_, .denied hk hPages hNull hAddr hCalls⟩
      have hNode : kmallocNode answer fuel h (blockSize bytes) = some (none, h') :=
        kmallocNode_none.mpr ⟨hSearch, hLoop⟩
      rw [kmallocLocked_unlocked, kmalloc_eq, hNode]
      rfl

/-- A denied page leaves `kernel_heap_v_addr` advanced. -/
theorem Extended.heapVAddr_ne {h' : Heap} {n k : Nat} (hExtended : Extended answer h n h' false k)
    (hn : n ≤ 2 ^ 31) : h'.heapVAddr ≠ h.heapVAddr := by
  cases hExtended with
  | denied hk hPages hNull hAddr hCalls =>
      intro hSame
      rw [hSame, left_eq_add] at hAddr
      have hNat := congrArg BitVec.toNat hAddr
      have hZero : (0 : Word).toNat = 0 := rfl
      rw [BitVec.toNat_ofNat, hZero] at hNat
      omega

theorem kmallocLocked_unique {r r' : Word × Mutex × Heap} {fuel' : Nat}
    (hCall : kmallocLocked answer fuel .unlocked h bytes = some r)
    (hCall' : kmallocLocked answer fuel' .unlocked h bytes = some r') : r = r' := by
  rw [kmallocLocked_unlocked, Option.map_eq_some_iff] at hCall hCall'
  obtain ⟨a, hCall, rfl⟩ := hCall
  obtain ⟨b, hCall', rfl⟩ := hCall'
  rw [kmalloc_unique hCall hCall']

theorem heapVAddr_of_failsCleanly {h' : Heap} {ptr : Word} {lock : Mutex}
    (hFails : FailsCleanly answer h bytes)
    (hCall : kmallocLocked answer fuel .unlocked h bytes = some (ptr, lock, h')) :
    h'.heapVAddr = h.heapVAddr := by
  obtain ⟨fuel', h₁, hCall', -, -, hAddr⟩ := hFails
  cases kmallocLocked_unique hCall hCall'
  exact hAddr

/-- Whenever a page is denied, the call leaves the heap changed. -/
theorem not_failsCleanly
    (hSearch : searchLoop h.mem h.head (blockSize bytes) (next h.mem h.head) fuel = some h.head)
    (hDenied : Denied answer h (blockSize bytes)) : ¬ FailsCleanly answer h bytes := by
  intro hFails
  obtain ⟨h', k, hCall, hExtended⟩ := kmallocLocked_denied hSearch hDenied
  exact hExtended.heapVAddr_ne (iterations_le _) (heapVAddr_of_failsCleanly hFails hCall)

end Failure

/-- There is a page for the head and for the first iteration. -/
def twoPages (k : Nat) : Word :=
  if k < 2 then 0x80300000 else 0

theorem searchLoop_init (m : Memory) (bytes : Word) (fuel : Nat) :
    searchLoop (initKernelHeap m).mem (initKernelHeap m).head bytes
      (next (initKernelHeap m).mem (initKernelHeap m).head) (fuel + 1) =
      some (initKernelHeap m).head := by
  have hRing := (inv_init m).cut.holds.ring
  rw [hRing.first, List.map_nil, List.headD_nil, searchLoop]
  simp only [↓reduceIte, ite_self]

theorem denied_twoPages (m : Memory) : Denied twoPages (initKernelHeap m) (blockSize 100) :=
  ⟨1, by decide, rfl⟩

theorem not_failsCleanly_twoPages : ¬ FailsCleanly twoPages (initKernelHeap fun _ => 0) 100 :=
  not_failsCleanly (searchLoop_init _ _ 0) (denied_twoPages _)

/-- The second page is denied: the first one stays on the list, and
`kernel_heap_v_addr` is two pages ahead. -/
theorem kmalloc_second_page_denied :
    (∃ h', kmallocLocked twoPages 10 .unlocked (initKernelHeap fun _ => 0) 100 =
        some (0, .unlocked, h') ∧
      h'.heapVAddr = (initKernelHeap fun _ => 0).heapVAddr + 8192 ∧
      FreeNode h'.mem h'.head 0x120001000 ∧
      ¬ FreeNode (initKernelHeap fun _ => 0).mem (initKernelHeap fun _ => 0).head 0x120001000) ∧
    ¬ FailsCleanly twoPages (initKernelHeap fun _ => 0) 100 := by
  have hValues : ((kmallocLocked twoPages 10 .unlocked (initKernelHeap fun _ => 0) 100).map
      fun r => (r.1, r.2.1, r.2.2.heapVAddr, r.2.2.head, next r.2.2.mem r.2.2.head)) =
      some (0, .unlocked, 0x120002000, 0x120000000, 0x120001000) := by
    decide +kernel
  simp only [Option.map_eq_some_iff, Prod.mk.injEq] at hValues
  obtain ⟨⟨ptr, lock, h'⟩, hCall, hPtr, hLock, hAddr, hHead, hNext⟩ := hValues
  simp only at hPtr hLock hAddr hHead hNext
  subst hPtr hLock
  have hNode : FreeNode h'.mem h'.head 0x120001000 := by
    rw [← hNext]
    exact .first (by rw [hNext, hHead]; decide)
  refine ⟨⟨h', hCall, hAddr, hNode, fun hNode' => ?_⟩, fun hFails => ?_⟩
  · obtain ⟨e, he, -⟩ := (freeNode_iff (inv_init _).cut.holds _).mp hNode'
    cases he
  · have hSame := heapVAddr_of_failsCleanly hFails hCall
    rw [hAddr] at hSame
    exact absurd hSame (by decide)

end Kernel.Kmalloc
