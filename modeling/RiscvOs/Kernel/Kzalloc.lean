import RiscvOs.Kernel.KmallocFailure
import RiscvOs.Kernel.KmallocFrame

/-! `kzalloc`. The size of its `memset` is that of the request less a size
header, so the last bytes of a request are never reached; they are zero in new
pages only. The `memset` also runs on the `NULL` of a request without a
block. -/
namespace Kernel.Kmalloc

open Semantics Extent

/-- The bytes of a request that `memset` does not reach. -/
def Unreached (bytes : Word) (i : Nat) : Prop :=
  i < bytes.toNat ∧ (bytes - 8).toInt ≤ i

/-- The ranges that `node_append` writes. -/
def nodeAppendWrites (m : Memory) (a b : Word) : List (Word × Nat) :=
  let m := setNext m b (next m a)
  let m := setPrev m b a
  let c := next m b
  let m := setPrev m c b
  [(b + 16, 8), (b + 8, 8), (c + 8, 8), (prev m b + 16, 8)]

/-- The ranges that the loop over the pages writes. -/
def extendWrites (answer : Nat → Word) (h : Heap) : Nat → List (Word × Nat)
  | 0 => []
  | i + 1 =>
      let v := h.heapVAddr + 4096
      let h := { h with heapVAddr := v, calls := h.calls + 1 }
      if answer (h.calls - 1) = 0 then []
      else
        let m := setSize (h.mem.fill v 4096 0) v 4096
        let a := prev m h.head
        (v, 4096) :: (v, 8) :: (nodeAppendWrites m a v ++
          extendWrites answer { h with mem := nodeAppend m a v } i)

def memsetWrites (dst size : Word) : List (Word × Nat) :=
  if 0 < size.toInt then [(dst, size.toInt.toNat)] else []

/-- The ranges that `kzalloc` writes when `kmalloc` returns `NULL`. -/
def deniedWrites (answer : Nat → Word) (h : Heap) (bytes : Word) : List (Word × Nat) :=
  extendWrites answer h (iterations (blockSize bytes)) ++ memsetWrites 0 (bytes - 8)

/-- There is no page behind the last one; an access to a node there traps. -/
def Mapped (h : Heap) (a : Word) : Prop :=
  a ≠ h.heapVAddr + 4096

/-- The bytes of a block that is handed out are zero, and without a block
nothing is written. -/
structure Zeroed (answer : Nat → Word) (h : Heap) (bytes : Word) : Prop where
  block {fuel : Nat} {a ptr : Word} {h₁ h' : Heap}
    (hNode : kmallocNode answer fuel h (blockSize bytes) = some (some a, h₁))
    (hMapped : Mapped h₁ a) (hCall : kzalloc answer fuel h bytes = some (ptr, h'))
    (hPtr : ptr ≠ 0) : ∀ x, InRange ptr bytes.toNat x → h'.mem x = 0
  null {fuel : Nat} {h₁ : Heap}
    (hNode : kmallocNode answer fuel h (blockSize bytes) = some (none, h₁)) :
    deniedWrites answer h bytes = []

/-- The memory behind the cut of a block that leaves the node on the list. -/
def cutMemory (m : Memory) (a bytes : Word) : Memory :=
  setSize (setSize m (a + size m a - bytes) bytes) a (size m a - bytes)

/-- When `kzalloc` does what it is for. In the block cut from a node, the bytes
out of reach are zero already; a request for new pages is below the size that
`memset` takes for a negative one; and a request without a block is denied its
first page and too short for `memset`. -/
structure Zeroable (answer : Nat → Word) (h : Heap) (bytes : Word) : Prop where
  cut {fuel : Nat} {a : Word}
    (hSearch : searchLoop h.mem h.head (blockSize bytes) (next h.mem h.head) fuel = some a)
    (hNode : a ≠ h.head) (hMapped : Mapped h a)
    (hPtr : a + size h.mem a - blockSize bytes + 8 ≠ 0) : ∀ i, Unreached bytes i →
      cutMemory h.mem a (blockSize bytes)
        (a + size h.mem a - blockSize bytes + 8 + BitVec.ofNat 64 i) = 0
  pages {fuel : Nat}
    (hSearch : searchLoop h.mem h.head (blockSize bytes) (next h.mem h.head) fuel = some h.head)
    (hAll : ¬ Denied answer h (blockSize bytes)) (hSome : 0 < iterations (blockSize bytes)) :
    bytes.toNat < 2 ^ 63 + 8
  null {fuel : Nat}
    (hSearch : searchLoop h.mem h.head (blockSize bytes) (next h.mem h.head) fuel = some h.head)
    (hDenied : Denied answer h (blockSize bytes)) :
    answer h.calls = 0 ∧ (bytes - 8).toInt ≤ 0

section Memset

theorem memset_zero_iff (m : Memory) (ptr bytes : Word) :
    (∀ x, InRange ptr bytes.toNat x → memset m ptr 0 (bytes - 8) x = 0) ↔
      ∀ i, Unreached bytes i → m (ptr + BitVec.ofNat 64 i) = 0 := by
  rw [memset_eq_fill]
  have hLt := bytes.isLt
  constructor
  · rintro hZero i ⟨hi, hLow⟩
    have hOffset : (ptr + BitVec.ofNat 64 i - ptr).toNat = i := by bv_omega
    have hOut : ¬ InRange ptr (bytes - 8).toInt.toNat (ptr + BitVec.ofNat 64 i) := by
      rw [InRange, hOffset]
      omega
    have hIn : InRange ptr bytes.toNat (ptr + BitVec.ofNat 64 i) :=
      inRange_offset ptr hi hLt.le
    rw [← hZero _ hIn, Memory.fill_outside _ _ hOut]
  · intro hZero x hx
    by_cases hIn : InRange ptr (bytes - 8).toInt.toNat x
    · exact Memory.fill_inside _ _ hIn
    · have hLow : (bytes - 8).toInt ≤ (x - ptr).toNat := by
        unfold InRange at hIn
        omega
      rw [Memory.fill_outside _ _ hIn, eq_add_distance ptr x]
      exact hZero _ ⟨hx, hLow⟩

/-- The signed size of the `memset`. -/
theorem toInt_sub_eight (bytes : Word) :
    (bytes.toNat < 2 ^ 63 + 8 ∧ (bytes - 8).toInt = (bytes.toNat : Int) - 8) ∨
      (2 ^ 63 + 8 ≤ bytes.toNat ∧ (bytes - 8).toInt < 0) := by
  have hLt := bytes.isLt
  have hValue : (bytes - 8).toNat = (2 ^ 64 - 8 + bytes.toNat) % 2 ^ 64 := BitVec.toNat_sub ..
  rw [BitVec.toInt_eq_toNat_cond, hValue]
  split <;> omega

end Memset

section Writes

variable {answer : Nat → Word} {h : Heap} {bytes x : Word}

theorem store64_unwritten (m : Memory) {a : Word} (value : Word) (hx : ¬ InRange a 8 x) :
    m.store64 a value x = m x := by
  rw [Memory.store64, if_neg hx]

theorem nodeAppend_unwritten {m : Memory} {a b : Word}
    (hx : ∀ w ∈ nodeAppendWrites m a b, ¬ InRange w.1 w.2 x) : nodeAppend m a b x = m x := by
  simp only [nodeAppendWrites, List.mem_cons, List.not_mem_nil, or_false, forall_eq_or_imp,
    forall_eq] at hx
  obtain ⟨hFirst, hSecond, hThird, hLast⟩ := hx
  simp only [nodeAppend]
  rw [setNext, store64_unwritten _ _ hLast, setPrev, store64_unwritten _ _ hThird, setPrev,
    store64_unwritten _ _ hSecond, setNext, store64_unwritten _ _ hFirst]

/-- Memory outside the ranges is as before. -/
theorem extendLoop_unwritten (n : Nat) (hx : ∀ w ∈ extendWrites answer h n, ¬ InRange w.1 w.2 x) :
    (extendLoop answer h n).2.mem x = h.mem x := by
  induction n generalizing h with
  | zero => rfl
  | succ n ih =>
      rw [extendWrites] at hx
      rw [extendLoop]
      simp only at hx ⊢
      split
      · rfl
      · rw [if_neg ‹_›] at hx
        simp only [List.mem_cons, List.mem_append, or_imp, forall_and, forall_eq] at hx
        obtain ⟨hPage, hSize, hAppend, hRest⟩ := hx
        refine (ih hRest).trans ((nodeAppend_unwritten hAppend).trans ?_)
        rw [setSize, store64_unwritten _ _ hSize, Memory.fill_outside _ _ hPage]

/-- Memory outside the ranges of a request without a block is as before. -/
theorem kzalloc_unwritten {fuel : Nat} {ptr : Word} {h₁ h' : Heap}
    (hNode : kmallocNode answer fuel h (blockSize bytes) = some (none, h₁))
    (hCall : kzalloc answer fuel h bytes = some (ptr, h'))
    (hx : ∀ w ∈ deniedWrites answer h bytes, ¬ InRange w.1 w.2 x) :
    ptr = 0 ∧ h'.mem x = h.mem x := by
  obtain ⟨-, hLoop⟩ := kmallocNode_none.mp hNode
  have hOld := extendLoop_unwritten (iterations (blockSize bytes)) fun w hw =>
    hx w (List.mem_append_left _ hw)
  rw [hLoop] at hOld
  rw [kzalloc, kmalloc_eq, hNode] at hCall
  cases hCall
  refine ⟨rfl, ?_⟩
  have hMemset : ¬ InRange 0 (bytes - 8).toInt.toNat x := by
    by_cases hPos : 0 < (bytes - 8).toInt
    · refine hx (0, (bytes - 8).toInt.toNat) (List.mem_append_right _ ?_)
      rw [memsetWrites, if_pos hPos]
      exact List.mem_singleton_self _
    · unfold InRange
      omega
  simp only [memset_eq_fill]
  rw [Memory.fill_outside _ _ hMemset]
  exact hOld

theorem deniedWrites_eq_nil_iff (hDenied : Denied answer h (blockSize bytes)) :
    deniedWrites answer h bytes = [] ↔ answer h.calls = 0 ∧ (bytes - 8).toInt ≤ 0 := by
  obtain ⟨k, hk, -⟩ := hDenied
  obtain ⟨n, hn⟩ : ∃ n, iterations (blockSize bytes) = n + 1 := ⟨iterations (blockSize bytes) - 1, by omega⟩
  rw [deniedWrites, List.append_eq_nil_iff, hn, extendWrites, memsetWrites]
  refine and_congr ?_ ?_
  · simp
  · simp

end Writes

section Cut

variable {answer : Nat → Word} {m : Memory} {h h₁ : Heap} {bytes a : Word} {n : Nat}

theorem carve_of_large (hLarge : ¬ size m a - bytes < 16) :
    carve m a bytes = (a + size m a - bytes + 8, cutMemory m a bytes) := by
  simp only [carve, if_neg hLarge, cutMemory, setSize]

theorem carve_of_short (hShort : size m a - bytes < 16) :
    carve m a bytes = (a + size m a - bytes + 8, nodeRemove m a) := by
  simp only [carve, if_pos hShort]

theorem carve_fst (m : Memory) (a bytes : Word) :
    (carve m a bytes).1 = a + size m a - bytes + 8 := by
  simp only [carve]
  split <;> rfl

/-- What is left of a node that is too small wraps, and is large. -/
theorem large_of_small (hSmall : size m a < blockSize bytes) :
    ¬ size m a - blockSize bytes < 16 := by
  intro hRest
  have hRound := toNat_blockSize_mod bytes
  have hLt : (size m a).toNat < (blockSize bytes).toNat := hSmall
  have hLt' : (size m a - blockSize bytes).toNat < 16 := hRest
  rw [BitVec.toNat_sub] at hLt'
  omega

/-- The bytes out of reach of a request for new pages lie before the end of
the pages, between the last 32 and the last 10 bytes. -/
theorem unreached_before (hBytes : bytes.toNat < 2 ^ 63 + 8) {i : Nat} (hi : Unreached bytes i) :
    ∃ d, 10 ≤ d ∧ d ≤ 32 ∧ (blockSize bytes).toNat = d + 8 + i := by
  obtain ⟨hLt, hLow⟩ := hi
  have hRound := toNat_blockSize_mod bytes
  rcases toInt_sub_eight bytes with ⟨-, hSize⟩ | ⟨hLarge, -⟩
  · exact ⟨(blockSize bytes).toNat - 8 - i, by omega, by omega, by omega⟩
  · omega

/-- A byte of a block, from the end of the node that the block is cut from. -/
theorem sub_block_add (stop d i : Word) : stop - (d + 8 + i) + 8 + i = stop - d := by
  bv_omega

/-- The bytes out of reach, in a block from new pages. -/
theorem fresh_of_unreached (hRoom : Room h n) {k i : Nat} (hk : 0 < k) (hLe : k ≤ n)
    (hSize : size m (h.heapVAddr + 4096) = BitVec.ofNat 64 (4096 * k))
    (hBytes : bytes.toNat < 2 ^ 63 + 8) (hi : Unreached bytes i) :
    let ptr := h.heapVAddr + 4096 + size m (h.heapVAddr + 4096) - blockSize bytes + 8
    Fresh h n (ptr + BitVec.ofNat 64 i) := by
  intro ptr
  obtain ⟨d, hLow, hHigh, hBlock⟩ := unreached_before hBytes hi
  have hEq : ptr + BitVec.ofNat 64 i =
      h.heapVAddr + BitVec.ofNat 64 (4096 * (k + 1)) - BitVec.ofNat 64 d := by
    have hSplit : blockSize bytes = BitVec.ofNat 64 d + 8 + BitVec.ofNat 64 i := by
      apply BitVec.eq_of_toNat_eq
      rw [hBlock]
      have hLt := (blockSize bytes).isLt
      simp
      omega
    have hEnd := ofNat_page h.heapVAddr k
    simp only [ptr]
    rw [hSize, hEnd, hSplit]
    exact sub_block_add _ _ _
  have hNat : (ptr + BitVec.ofNat 64 i).toNat = h.heapVAddr.toNat + 4096 * k + (4096 - d) := by
    rw [hEq, BitVec.toNat_sub, BitVec.toNat_add, BitVec.toNat_ofNat, BitVec.toNat_ofNat]
    rw [Room] at hRoom
    rw [Nat.mul_succ]
    omega
  refine ⟨?_, ?_, ?_⟩
  · omega
  · rw [hNat, Nat.mul_succ]
    omega
  · rw [hNat]
    omega

/-- They are zero in the memory behind the cut. -/
theorem pages_zero {free held : List Extent} (hCut : Cut h free held) (hRoom : Room h n)
    (hn : 0 < n) (hLoop : extendLoop answer h n = (true, h₁)) {fuel : Nat}
    (hCoalesce : coalesceFreeList fuel h₁.head h₁.mem = some m)
    (hBytes : bytes.toNat < 2 ^ 63 + 8) {i : Nat} (hi : Unreached bytes i) :
    let block := carve m (h.heapVAddr + 4096) (blockSize bytes)
    block.2 (block.1 + BitVec.ofNat 64 i) = 0 := by
  intro block
  obtain ⟨nodes, k, hSep, hClosed, hNode, hk, hLe, hSize, hFresh⟩ :=
    hCut.grown_frame hRoom hn hLoop hCoalesce
  obtain ⟨hZero, hOutside⟩ := hFresh _ (fresh_of_unreached hRoom hk hLe hSize hBytes hi)
  simp only [block]
  rw [carve_fst]
  by_cases hLarge : size m (h.heapVAddr + 4096) - blockSize bytes < 16
  · obtain ⟨-, -, hSame⟩ := nodeRemove_frame hSep hClosed hNode
    rw [carve_of_short hLarge]
    exact (hSame _ hOutside).trans hZero
  · have hBehind (ret : Word) : ¬ InRange ret 8 (ret + 8 + BitVec.ofNat 64 i) := by
      have hLt := hi.1
      unfold InRange
      bv_omega
    rw [carve_of_large hLarge]
    simp only [cutMemory]
    rw [setSize_outside _ _ (hOutside _ hNode), setSize, store64_unwritten _ _ (hBehind _), hZero]

/-- A size that `memset` takes for a negative one leaves the size of the node
in the block. -/
theorem pages_unzeroed {free held : List Extent} (hCut : Cut h free held)
    (hRoom : Room h (iterations (blockSize bytes))) (hn : 0 < iterations (blockSize bytes))
    (hLoop : extendLoop answer h (iterations (blockSize bytes)) = (true, h₁)) {fuel : Nat}
    (hCoalesce : coalesceFreeList fuel h₁.head h₁.mem = some m)
    (hBytes : 2 ^ 63 + 8 ≤ bytes.toNat) :
    let block := carve m (h.heapVAddr + 4096) (blockSize bytes)
    ¬ ∀ i, Unreached bytes i → block.2 (block.1 + BitVec.ofNat 64 i) = 0 := by
  intro block hAll
  obtain ⟨nodes, k, hSep, hClosed, hNode, hk, hLe, hSize, -⟩ :=
    hCut.grown_frame hRoom hn hLoop hCoalesce
  have hMost := iterations_le (blockSize bytes)
  have hNat : (size m (h.heapVAddr + 4096)).toNat = 4096 * k := by
    rw [hSize, BitVec.toNat_ofNat]
    omega
  have hLt := bytes.isLt
  have hRound := toNat_blockSize_mod bytes
  have hBlock : 2 ^ 63 + 32 ≤ (blockSize bytes).toNat ∧ (blockSize bytes).toNat ≤ bytes.toNat + 32 ∨
      (blockSize bytes).toNat ≤ 16 ∧ 2 ^ 64 - 32 ≤ bytes.toNat := by
    omega
  have hIn (y : Word) (hy : InRange (h.heapVAddr + 4096) 8 y) :
      (y - block.1).toNat < bytes.toNat := by
    simp only [block]
    rw [carve_fst]
    unfold InRange at hy
    rcases hBlock with ⟨hLow, hHigh⟩ | ⟨hHigh, hLow⟩ <;> bv_omega
  have hZero : size block.2 (h.heapVAddr + 4096) = 0 := by
    refine Memory.load64_zero fun y hy => ?_
    have hNegative : (bytes - 8).toInt < 0 := by
      rcases toInt_sub_eight bytes with ⟨hSmall, -⟩ | ⟨-, hNegative⟩
      · omega
      · exact hNegative
    rw [eq_add_distance block.1 y]
    exact hAll _ ⟨hIn y hy, by omega⟩
  by_cases hLarge : size m (h.heapVAddr + 4096) - blockSize bytes < 16
  · obtain ⟨-, hSame, -⟩ := nodeRemove_frame hSep hClosed hNode
    simp only [block] at hZero
    rw [carve_of_short hLarge, hSame _ hNode] at hZero
    rw [hZero] at hNat
    have hNull : (0 : Word).toNat = 0 := rfl
    omega
  · simp only [block] at hZero
    rw [carve_of_large hLarge] at hZero
    simp only [cutMemory] at hZero
    rw [size_setSize (sep_self _), if_pos rfl] at hZero
    rw [hZero] at hLarge
    exact hLarge (by decide)

/-- The pages are aligned, and the pointer is eight bytes behind a multiple of
16. -/
theorem pages_ptr_ne_zero (hAligned : h.heapVAddr.toNat % 4096 = 0) {k : Nat}
    (hSize : size m (h.heapVAddr + 4096) = BitVec.ofNat 64 (4096 * k)) :
    h.heapVAddr + 4096 + size m (h.heapVAddr + 4096) - blockSize bytes + 8 ≠ 0 := by
  intro hNull
  have hRound := toNat_blockSize_mod bytes
  have hNat := congrArg BitVec.toNat hNull
  have hZero : (0 : Word).toNat = 0 := rfl
  have hEight : (8 : Word).toNat = 8 := rfl
  have hPage : (4096 : Word).toNat = 4096 := rfl
  rw [hSize, BitVec.toNat_add, BitVec.toNat_sub, BitVec.toNat_add, BitVec.toNat_add,
    BitVec.toNat_ofNat, hZero, hEight, hPage] at hNat
  omega

end Cut

/-- The heap is cut into free nodes and held blocks, and its pages are
aligned. -/
structure Whole (h : Heap) : Prop where
  cut : ∃ free held, Cut h free held
  aligned : h.heapVAddr.toNat % 4096 = 0

section Zero

variable {answer : Nat → Word} {h h₁ : Heap} {bytes a : Word} {fuel : Nat}

theorem kzalloc_of_node
    (hNode : kmallocNode answer fuel h (blockSize bytes) = some (some a, h₁)) :
    let block := carve h₁.mem a (blockSize bytes)
    kzalloc answer fuel h bytes =
      some (block.1, { h₁ with mem := memset block.2 block.1 0 (bytes - 8) }) := by
  rw [kzalloc, kmalloc_eq, hNode]
  rfl

/-- The search leaves the list only at a node that is too small. -/
theorem small_of_searchLoop {m : Memory} {head size' temp : Word}
    (hSearch : searchLoop m head size' temp fuel = some a) (hNode : a ≠ head) :
    size m a < size' := by
  induction fuel generalizing temp with
  | zero => cases hSearch
  | succ fuel ih =>
      rw [searchLoop] at hSearch
      split at hSearch
      next hSmall =>
        obtain rfl := Option.some.inj hSearch
        exact hSmall
      · split at hSearch
        next hHead =>
          obtain rfl := Option.some.inj hSearch
          exact absurd hHead hNode
        · exact ih hSearch

theorem extendLoop_of_not_denied {n : Nat} (hAll : ∀ i < n, answer (h.calls + i) ≠ 0) :
    ∃ h₁, extendLoop answer h n = (true, h₁) ∧ h₁.head = h.head ∧
      h₁.heapVAddr = h.heapVAddr + BitVec.ofNat 64 (4096 * n) := by
  obtain ⟨ok, h₁, k, hLoop, hExtended, hHead, -⟩ := extendLoop_extended answer h n
  cases hExtended with
  | all hPages hAddr hCalls => exact ⟨h₁, hLoop, hHead, hAddr⟩
  | denied hk hPages hNull => exact absurd hNull (hAll _ hk)

theorem extendLoop_of_denied {size' : Word} (hDenied : Denied answer h size') :
    ∃ h₁, extendLoop answer h (iterations size') = (false, h₁) := by
  obtain ⟨i, hi, hNull⟩ := hDenied
  obtain ⟨ok, h₁, k, hLoop, hExtended, -⟩ := extendLoop_extended answer h (iterations size')
  cases hExtended with
  | all hPages => exact absurd hNull (hPages i hi)
  | denied hk hPages hNull' => exact ⟨h₁, hLoop⟩

theorem denied_iff_of_extendLoop {size' : Word} {ok : Bool}
    (hLoop : extendLoop answer h (iterations size') = (ok, h₁)) :
    Denied answer h size' ↔ ok = false := by
  constructor
  · intro hDenied
    obtain ⟨h₂, hLoop'⟩ := extendLoop_of_denied hDenied
    rw [hLoop'] at hLoop
    exact (Prod.mk.inj hLoop).1.symm
  · rintro rfl
    by_contra hAll
    obtain ⟨h₂, hLoop', -⟩ := extendLoop_of_not_denied (pages_of_not_denied hAll)
    rw [hLoop'] at hLoop
    cases hLoop

/-- The page behind the first new pages is not mapped, the first one is. -/
theorem mapped_iff {n : Nat} (hRoom : Room h n)
    (hAddr : h₁.heapVAddr = h.heapVAddr + BitVec.ofNat 64 (4096 * n)) :
    Mapped h₁ (h.heapVAddr + 4096) ↔ 0 < n := by
  rw [Mapped, hAddr]
  unfold Room at hRoom
  constructor
  · intro hMapped
    by_contra hZero
    obtain rfl : n = 0 := by omega
    exact hMapped (by simp)
  · intro hSome hEq
    have hSame : BitVec.ofNat 64 (4096 * n) = 0 := by
      bv_omega
    have hNat := congrArg BitVec.toNat hSame
    have hZero : (0 : Word).toNat = 0 := rfl
    rw [BitVec.toNat_ofNat, hZero] at hNat
    omega

/-- The block of a node, before and behind `memset`. -/
theorem Zeroed.unreached (hZeroed : Zeroed answer h bytes)
    (hNode : kmallocNode answer fuel h (blockSize bytes) = some (some a, h₁))
    (hMapped : Mapped h₁ a) (hPtr : (carve h₁.mem a (blockSize bytes)).1 ≠ 0) :
    ∀ i, Unreached bytes i → (carve h₁.mem a (blockSize bytes)).2
      ((carve h₁.mem a (blockSize bytes)).1 + BitVec.ofNat 64 i) = 0 :=
  (memset_zero_iff _ _ _).mp (hZeroed.block hNode hMapped (kzalloc_of_node hNode) hPtr)

theorem Zeroed.cut_zero (hZeroed : Zeroed answer h bytes)
    (hSearch : searchLoop h.mem h.head (blockSize bytes) (next h.mem h.head) fuel = some a)
    (hHead : a ≠ h.head) (hMapped : Mapped h a)
    (hPtr : a + size h.mem a - blockSize bytes + 8 ≠ 0) : ∀ i, Unreached bytes i →
      cutMemory h.mem a (blockSize bytes)
        (a + size h.mem a - blockSize bytes + 8 + BitVec.ofNat 64 i) = 0 := by
  have hNode : kmallocNode answer fuel h (blockSize bytes) = some (some a, h) :=
    kmallocNode_some.mpr ⟨a, hSearch, .inl ⟨hHead, rfl, rfl⟩⟩
  have hCarve := carve_of_large (large_of_small (small_of_searchLoop hSearch hHead))
  have hZero := hZeroed.unreached hNode hMapped (by rwa [hCarve])
  rwa [hCarve] at hZero

/-- A request for new pages returns when none is denied. -/
theorem kmallocNode_pages (hWhole : Whole h) (hRoom : Room h (iterations (blockSize bytes)))
    (hSearch : searchLoop h.mem h.head (blockSize bytes) (next h.mem h.head) fuel = some h.head)
    (hAll : ¬ Denied answer h (blockSize bytes)) :
    ∃ fuel' h₂ m, extendLoop answer h (iterations (blockSize bytes)) = (true, h₂) ∧
      coalesceFreeList fuel' h₂.head h₂.mem = some m ∧
      h₂.heapVAddr = h.heapVAddr + BitVec.ofNat 64 (4096 * iterations (blockSize bytes)) ∧
      kmallocNode answer fuel' h (blockSize bytes) =
        some (some (h.heapVAddr + 4096), { h₂ with mem := m }) := by
  obtain ⟨⟨free, held, hCut⟩, -⟩ := hWhole
  obtain ⟨h₂, hLoop, hHead, hAddr⟩ := extendLoop_of_not_denied (pages_of_not_denied hAll)
  obtain ⟨h₃, hLoop', -, hCut'⟩ := hCut.extendLoop (pages_of_not_denied hAll) hRoom
  rw [hLoop] at hLoop'
  obtain ⟨-, rfl⟩ := Prod.mk.inj hLoop'
  obtain ⟨m, hCoalesce, -⟩ := hCut'.holds.coalesce_spec (Nat.lt_succ_self _)
  have hCoalesce' := coalesceLoop_mono (Nat.le_max_right fuel _) hCoalesce
  refine ⟨_, h₂, m, hLoop, hCoalesce', hAddr, kmallocNode_some.mpr ⟨h.head, ?_, ?_⟩⟩
  · exact searchLoop_mono (Nat.le_max_left fuel _) hSearch
  · exact .inr ⟨rfl, rfl, h₂, m, hLoop, hCoalesce', rfl⟩

theorem Zeroed.pages_short (hZeroed : Zeroed answer h bytes) (hWhole : Whole h)
    (hRoom : Room h (iterations (blockSize bytes)))
    (hSearch : searchLoop h.mem h.head (blockSize bytes) (next h.mem h.head) fuel = some h.head)
    (hAll : ¬ Denied answer h (blockSize bytes)) (hSome : 0 < iterations (blockSize bytes)) :
    bytes.toNat < 2 ^ 63 + 8 := by
  obtain ⟨fuel', h₂, m, hLoop, hCoalesce, hAddr, hNode⟩ :=
    kmallocNode_pages hWhole hRoom hSearch hAll
  obtain ⟨⟨free, held, hCut⟩, hAligned⟩ := hWhole
  obtain ⟨-, k, -, -, -, -, -, hSize, -⟩ := hCut.grown_frame hRoom hSome hLoop hCoalesce
  have hPtr : (carve m (h.heapVAddr + 4096) (blockSize bytes)).1 ≠ 0 := by
    rw [carve_fst]
    exact pages_ptr_ne_zero hAligned hSize
  have hMapped : Mapped { h₂ with mem := m } (h.heapVAddr + 4096) :=
    (mapped_iff hRoom hAddr).mpr hSome
  have hUnreached := hZeroed.unreached hNode hMapped hPtr
  refine Nat.lt_of_not_le fun hBytes => ?_
  exact pages_unzeroed hCut hRoom hSome hLoop hCoalesce hBytes hUnreached

/-- `kzalloc` on every heap; one that new pages are mapped behind is whole. -/
theorem zeroed_iff (answer : Nat → Word) (h : Heap) (bytes : Word)
    (hHeap : ∀ fuel,
      searchLoop h.mem h.head (blockSize bytes) (next h.mem h.head) fuel = some h.head →
        Whole h ∧ Room h (iterations (blockSize bytes))) :
    Zeroed answer h bytes ↔ Zeroable answer h bytes := by
  constructor
  · intro hZeroed
    refine ⟨hZeroed.cut_zero, fun hSearch hAll hSome => ?_, fun hSearch hDenied => ?_⟩
    · obtain ⟨hWhole, hRoom⟩ := hHeap _ hSearch
      exact hZeroed.pages_short hWhole hRoom hSearch hAll hSome
    · obtain ⟨h₁, hLoop⟩ := extendLoop_of_denied hDenied
      exact (deniedWrites_eq_nil_iff hDenied).mp
        (hZeroed.null (kmallocNode_none.mpr ⟨hSearch, hLoop⟩))
  · intro hZeroable
    refine ⟨fun hNode hMapped hCall hPtr => ?_, fun hNode => ?_⟩
    · rw [kzalloc_of_node hNode] at hCall
      obtain ⟨rfl, rfl⟩ := Prod.mk.inj (Option.some.inj hCall)
      refine (memset_zero_iff _ _ _).mpr ?_
      obtain ⟨temp, hSearch, ⟨hHead, rfl, rfl⟩ | ⟨rfl, rfl, h₂, m, hLoop, hCoalesce, rfl⟩⟩ :=
        kmallocNode_some.mp hNode
      · have hCarve := carve_of_large (large_of_small (small_of_searchLoop hSearch hHead))
        rw [hCarve] at hPtr ⊢
        exact hZeroable.cut hSearch hHead hMapped hPtr
      · obtain ⟨⟨⟨free, held, hCut⟩, -⟩, hRoom⟩ := hHeap _ hSearch
        have hAll : ¬ Denied answer h (blockSize bytes) := by
          simp [denied_iff_of_extendLoop hLoop]
        obtain ⟨h₃, hLoop', -, hAddr⟩ := extendLoop_of_not_denied (pages_of_not_denied hAll)
        rw [hLoop] at hLoop'
        obtain ⟨-, rfl⟩ := Prod.mk.inj hLoop'
        have hSome : 0 < iterations (blockSize bytes) := (mapped_iff hRoom hAddr).mp hMapped
        exact fun i hi => pages_zero hCut hRoom hSome hLoop hCoalesce
          (hZeroable.pages hSearch hAll hSome) hi
    · obtain ⟨hSearch, hLoop⟩ := kmallocNode_none.mp hNode
      have hDenied : Denied answer h (blockSize bytes) := (denied_iff_of_extendLoop hLoop).mpr rfl
      exact (deniedWrites_eq_nil_iff hDenied).mpr (hZeroable.null hSearch hDenied)

end Zero

section Runs

variable {answer : Nat → Word} {s t : Use}

theorem aligned_add (v : Word) (k : Nat) (hAligned : v.toNat % 4096 = 0) :
    (v + BitVec.ofNat 64 (4096 * k)).toNat % 4096 = 0 := by
  rw [BitVec.toNat_add, BitVec.toNat_ofNat]
  omega

theorem kmalloc_aligned {fuel : Nat} {h h' : Heap} {bytes ptr : Word}
    (hAligned : h.heapVAddr.toNat % 4096 = 0)
    (hCall : kmalloc answer fuel h bytes = some (ptr, h')) : h'.heapVAddr.toNat % 4096 = 0 := by
  rw [kmalloc_eq, Option.map_eq_some_iff] at hCall
  obtain ⟨⟨temp, h₁⟩, hNode, hEnd⟩ := hCall
  obtain ⟨ok, h₂, k, hLoop, hExtended, -⟩ :=
    extendLoop_extended answer h (iterations (blockSize bytes))
  have hPages : h₂.heapVAddr.toNat % 4096 = 0 := by
    cases hExtended with
    | all hPages hAddr =>
        rw [hAddr]
        exact aligned_add _ _ hAligned
    | denied hk hPages hNull hAddr =>
        rw [hAddr]
        exact aligned_add _ _ hAligned
  cases temp with
  | none =>
      obtain ⟨-, hLoop'⟩ := kmallocNode_none.mp hNode
      rw [hLoop'] at hLoop
      cases hLoop
      cases hEnd
      exact hPages
  | some a =>
      cases hEnd
      obtain ⟨temp, -, ⟨-, -, rfl⟩ | ⟨-, -, h₃, m, hLoop', -, rfl⟩⟩ := kmallocNode_some.mp hNode
      · exact hAligned
      · rw [hLoop'] at hLoop
        cases hLoop
        exact hPages

theorem Step.aligned {op : Op} (hStep : Step answer s op t)
    (hAligned : s.heap.heapVAddr.toNat % 4096 = 0) : t.heap.heapVAddr.toNat % 4096 = 0 := by
  cases hStep with
  | malloc hCall => exact kmalloc_aligned hAligned hCall
  | zalloc hCall =>
      simp only [kzalloc, Option.bind_eq_bind, Option.bind_eq_some_iff] at hCall
      obtain ⟨⟨ptr, h₁⟩, hCall, hLast⟩ := hCall
      cases hLast
      have hAfter := kmalloc_aligned hAligned hCall
      exact hAfter
  | free hLive hCall =>
      rw [kfree] at hCall
      split at hCall
      · cases hCall
        exact hAligned
      · simp only at hCall
        split at hCall
        · cases hCall
          exact hAligned
        · simp only [Option.bind_eq_bind, Option.bind_eq_some_iff] at hCall
          obtain ⟨temp, -, m, -, hLast⟩ := hCall
          cases hLast
          exact hAligned
  | write hLive hIn => exact hAligned

/-- Regular requests keep the heap whole. -/
theorem whole_of_kept_run (m : Memory) {ops : List Op}
    (run : Run (Guarded (Step answer) (Kept answer)) ⟨initKernelHeap m, []⟩ ops s) :
    Whole s.heap := by
  obtain ⟨free, hInv⟩ := inv_of_kept_run m run
  have hAligned : s.heap.heapVAddr.toNat % 4096 = 0 :=
    run.invariant (fun s => s.heap.heapVAddr.toNat % 4096 = 0)
      (show kernelHeapStartVaddr.toNat % 4096 = 0 by decide)
      fun _ _ _ hAligned ⟨_, hStep⟩ => hStep.aligned hAligned
  exact ⟨⟨free, _, hInv.cut⟩, hAligned⟩

end Runs

theorem zeroed_iff_first : Zeroed (fun _ => 0x80300000) (initKernelHeap fun _ => 0) 100 := by
  have hRoom : Room (initKernelHeap fun _ => 0) (iterations (blockSize 100)) := by
    rw [Room]
    decide
  have hRun : Run (Guarded (Step fun _ => 0x80300000) (Kept fun _ => 0x80300000))
      ⟨initKernelHeap fun _ => 0, []⟩ [] ⟨initKernelHeap fun _ => 0, []⟩ := .nil _
  refine (zeroed_iff _ _ _ fun _ _ => ⟨whole_of_kept_run _ hRun, hRoom⟩).mpr
    ⟨fun {fuel a} hSearch hNode => ?_, fun _ _ _ => by decide, fun _ hDenied => ?_⟩
  · cases fuel with
    | zero => cases hSearch
    | succ fuel =>
        rw [searchLoop_init] at hSearch
        exact absurd (Option.some.inj hSearch).symm hNode
  · exact absurd hDenied (not_denied_of_page _ _)

/-- The block behind the only node goes back to it. -/
theorem kfree_last {h : Heap} {n b : Extent} {held : List Extent} (hCut : Cut h [n] (b :: held))
    (hOrder : n.1 < b.1) (hTouch : n.1 + n.2 = b.1) :
    ∃ m, kfree 3 h (b.1 + 8) = some { h with mem := m } ∧
      Cut { h with mem := m } [(n.1, n.2 + b.2)] held ∧
      ∀ x, Outside [h.head, n.1, b.1] x → m x = h.mem x := by
  have hSize : size h.mem b.1 = b.2 := hCut.holds.sizes b (by simp)
  obtain ⟨hLeast, -, hHi⟩ := hCut.holds.separate.within b (by simp)
  have hLimit := hCut.holds.limit
  have hPrev : prev h.mem h.head = n.1 := hCut.holds.ring.last
  have hNext : next h.mem n.1 = h.head := hCut.holds.ring.links_of_cons.1
  have hSplit : Holds h.mem h.head (h.heapVAddr.toNat + 4096) ([n] ++ []) (b :: held) := hCut.holds
  have hAppended : Holds (nodeAppend h.mem n.1 b.1) h.head (h.heapVAddr.toNat + 4096) [n, b] held :=
    hSplit.append_spec
  have hFuel : [n, b].length < 3 := Nat.lt_succ_self 2
  obtain ⟨m', hCoalesce, hHolds⟩ := hAppended.coalesce_spec hFuel
  have hMerge : mergeAll [n, b] = [(n.1, n.2 + b.2)] := by
    simp [mergeAll, mergeFrom, hTouch]
  rw [hMerge] at hHolds
  refine ⟨m', ?_, ⟨hHolds, hCut.above⟩, fun x hx => ?_⟩
  · have hPlace : placeLoop h.mem h.head b.1 (prev h.mem h.head) 3 = some n.1 := by
      rw [hPrev, placeLoop]
      simp [hOrder]
    exact kfree_of_place hSize hLeast (hHi.trans hLimit) hPlace hCoalesce
  · have hMem {u : Word} (hu : u ∈ [h.head, n.1, b.1]) :
        u ∈ h.head :: ([n] ++ b :: held).map Prod.fst := by
      simp only [List.mem_cons, List.not_mem_nil, or_false] at hu
      rcases hu with rfl | rfl | rfl <;> simp
    have hSep : ∀ u ∈ [h.head, n.1, b.1], ∀ w ∈ [h.head, n.1, b.1], Sep u w := fun u hu w hw =>
      hCut.holds.sep (hMem hu) (hMem hw)
    have hHead : h.head ≠ b.1 := (hCut.holds.ne_head (by simp)).symm
    have hClosed : Closed (nodeAppend h.mem n.1 b.1) [h.head, n.1, b.1] := fun u hu =>
      ⟨hAppended.ring.next_mem hu, hAppended.ring.prev_mem hu⟩
    have hEnd : ∀ u ∈ [h.head, n.1, b.1], u ≠ h.head → u ≠ pageAt 0 0 := by
      intro u hu hNe
      obtain ⟨e, he, rfl⟩ := List.mem_map.mp ((List.mem_cons.mp (hMem hu)).resolve_left hNe)
      have hAbove := (hCut.holds.separate.within e he).lo_le
      intro hZero
      have hNat : e.1.toNat = 0 := congrArg BitVec.toNat hZero
      omega
    obtain ⟨-, -, hSame⟩ := coalesceLoop_frame (v := 0) (n := 0) hSep (by simp) hEnd hClosed
      (by intro j hj; omega) (hClosed h.head (by simp)).1 hCoalesce
    refine (hSame x hx).trans (nodeAppend_outside (by rwa [hNext]) ?_ fun u hu => hx u ?_)
    · rw [hNext]
      exact hSep _ (by simp) _ (by simp)
    · rw [hNext] at hu
      simp only [List.mem_cons, List.not_mem_nil, or_false] at hu ⊢
      tauto

/-- The list of a heap whose head has one node on both sides. -/
theorem Cut.only_node {h : Heap} {a value : Word} {free held : List Extent} (hCut : Cut h free held)
    (hFirst : next h.mem h.head = a) (hNode : a ≠ h.head) (hLast : next h.mem a = h.head)
    (hSize : size h.mem a = value) : free = [(a, value)] := by
  have hStart := hCut.holds.ring.first
  cases free with
  | nil => exact absurd (hFirst.symm.trans hStart) hNode
  | cons e rest =>
      have hEq : e.1 = a := hStart.symm.trans hFirst
      have hNext : next h.mem e.1 = (rest.map Prod.fst).headD h.head :=
        hCut.holds.ring.links_of_cons.1
      have hValue : size h.mem e.1 = e.2 := hCut.holds.sizes e (by simp)
      cases rest with
      | nil =>
          rw [hEq, hSize] at hValue
          rw [hValue, ← hEq]
      | cons c rest =>
          rw [hEq, hLast] at hNext
          exact absurd hNext.symm (hCut.holds.ne_head (by simp))

/-- A block of 100 bytes is written to and freed; its node is the only one
again, and the byte is still there. -/
theorem freed_run :
    ∃ s, Run (Step fun _ => 0x80300000) ⟨initKernelHeap fun _ => 0, []⟩
        [.malloc 100, .write ⟨0x120002f88, 100⟩ 0x120002fe4 1, .free ⟨0x120002f88, 100⟩] s ∧
      s.heap.head = 0x120000000 ∧ s.heap.heapVAddr = 0x120002000 ∧
      next s.heap.mem s.heap.head = 0x120001000 ∧ size s.heap.mem 0x120001000 = 8192 ∧
      s.heap.mem 0x120002fe4 = 1 := by
  have hValues : ((kmalloc (fun _ => 0x80300000) 10 (initKernelHeap fun _ => 0) 100).map fun r =>
      ((r.1, r.2.heapVAddr, r.2.head), (next r.2.mem r.2.head, next r.2.mem 0x120001000),
        (size r.2.mem 0x120001000, size r.2.mem 0x120002f80))) =
      some ((0x120002f88, 0x120002000, 0x120000000), (0x120001000, 0x120000000), (8064, 128)) := by
    decide +kernel
  simp only [Option.map_eq_some_iff, Prod.mk.injEq] at hValues
  obtain ⟨⟨ptr, h⟩, hCall, ⟨hPtr, hAddr, hHead⟩, ⟨hFirst, hLast⟩, hSize, hBlock⟩ := hValues
  simp only at hPtr hAddr hHead hFirst hLast hSize hBlock
  subst hPtr
  obtain ⟨-, free, hInv⟩ := (inv_init fun _ => 0).malloc (fun _ _ => page_ne_zero)
    (extendable_init _) hCall
  have hFree : free = [(0x120001000, 8064)] := by
    refine hInv.cut.only_node hFirst ?_ (hLast.trans hHead.symm) hSize
    simp only [hHead]
    decide
  subst hFree
  have hLive : (⟨0x120002f88, 100⟩ : Block) ∈ [(⟨0x120002f88, 100⟩ : Block)] :=
    List.mem_singleton_self _
  have hIn : InRange (0x120002f88 : Word) (100 : Word).toNat 0x120002fe4 := by decide
  have hWritten := hInv.write 1 hLive hIn
  have hKept : size (h.mem.store 0x120002fe4 1) 0x120002f80 = 128 := by
    rw [← hBlock]
    refine Memory.load64_congr fun x hx => Memory.store_of_ne _ _ ?_
    rintro rfl
    exact absurd hx (by decide)
  have hExtent : [(⟨0x120002f88, 100⟩ : Block)].map (extentOf (h.mem.store 0x120002fe4 1)) =
      [(0x120002f80, 128)] := by
    rw [List.map_singleton, extentOf, show (0x120002f88 : Word) - 8 = 0x120002f80 by decide, hKept]
  have hCut := hWritten.cut
  simp only [hExtent] at hCut
  obtain ⟨m, hFreed, hCut', hSame⟩ := kfree_last hCut (by decide) (by decide)
  have hFirstStep : Step (fun _ => 0x80300000) ⟨initKernelHeap fun _ => 0, []⟩ (.malloc 100)
      ⟨h, hand 0x120002f88 100 []⟩ := .malloc hCall
  rw [hand, if_neg (by decide)] at hFirstStep
  have hRun : Run (Step fun _ => 0x80300000) ⟨initKernelHeap fun _ => 0, []⟩
      [.malloc 100] ⟨h, [⟨0x120002f88, 100⟩]⟩ := .snoc (.nil _) hFirstStep
  have hPtr : (0x120002f80 : Word) + 8 = 0x120002f88 := by decide
  have hSum : (8064 : Word) + 128 = 8192 := by decide
  simp only [hPtr] at hFreed
  simp only [hSum] at hCut'
  have hMerged := hCut'.holds.sizes _ (List.mem_append_left _ (List.mem_singleton_self _))
  have hNode := hCut'.holds.ring.first
  refine ⟨_, .snoc (.snoc hRun (.write hLive hIn)) (.free hLive hFreed), hHead, hAddr, hNode,
    hMerged, ?_⟩
  have hByte : h.mem.store 0x120002fe4 1 0x120002fe4 = 1 := Memory.store_same ..
  refine (hSame 0x120002fe4 fun u hu => ?_).trans hByte
  simp only [hHead, List.mem_cons, List.not_mem_nil, or_false] at hu
  rcases hu with rfl | rfl | rfl <;> decide

/-- The next request is cut from the node that took a freed block back: its
last bytes stay as they were. Without a page, the `memset` runs from address
zero on. -/
theorem unzeroed_run :
    (∃ s, Run (Step fun _ => 0x80300000) ⟨initKernelHeap fun _ => 0, []⟩
        [.malloc 100, .write ⟨0x120002f88, 100⟩ 0x120002fe4 1, .free ⟨0x120002f88, 100⟩] s ∧
      ¬ Zeroed (fun _ => 0x80300000) s.heap 8180) ∧
    ¬ Zeroed (fun _ => 0) (initKernelHeap fun _ => 0) 100 := by
  constructor
  · obtain ⟨s, hRun, hHead, hAddr, hFirst, hSize, hByte⟩ := freed_run
    refine ⟨s, hRun, fun hZeroed => ?_⟩
    have hSearch : searchLoop s.heap.mem s.heap.head (blockSize 8180)
        (next s.heap.mem s.heap.head) 1 = some 0x120001000 := by
      rw [hFirst, searchLoop, hSize, if_pos (by decide)]
    have hMapped : Mapped s.heap 0x120001000 := by
      rw [Mapped, hAddr]
      decide
    have hUnreached : Unreached 8180 8172 := by
      unfold Unreached
      decide
    have hZero := hZeroed.cut_zero hSearch (by rw [hHead]; decide) hMapped
      (by rw [hSize]; decide) 8172 hUnreached
    rw [hSize, cutMemory, hSize, setSize_outside _ _ (by decide), setSize_outside _ _ (by decide)] at hZero
    have hSame : (0x120001000 + 8192 - blockSize 8180 + 8 + BitVec.ofNat 64 8172 : Word) =
        0x120002fe4 := by decide
    rw [hSame, hByte] at hZero
    exact absurd hZero (by decide)
  · intro hZeroed
    have hDenied : Denied (fun _ => 0) (initKernelHeap fun _ => 0) (blockSize 100) :=
      ⟨0, by decide, rfl⟩
    obtain ⟨h₁, hLoop⟩ := extendLoop_of_denied hDenied
    have hWrites := hZeroed.null (kmallocNode_none.mpr ⟨searchLoop_init _ _ 0, hLoop⟩)
    exact absurd ((deniedWrites_eq_nil_iff hDenied).mp hWrites).2 (by decide)

end Kernel.Kmalloc
