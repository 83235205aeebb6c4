import RiscvOs.Kernel.KmallocFacts
import RiscvOs.Semantics.Transition
import RiscvOs.Semantics.Word

/-! Runs of `kmalloc`, `kzalloc` and `kfree` from the state `init_kernel_heap`
leaves. The search of `kmalloc` stops at the first node that is too small, so
a block is cut from new pages when no free node is too small for it, and from
a node that cannot hold it otherwise. -/
namespace Kernel.Kmalloc

open Semantics Extent

/-- A node that the list reaches from its head. -/
inductive FreeNode (m : Memory) (head : Word) : Word → Prop where
  | first (hNode : next m head ≠ head) : FreeNode m head (next m head)
  | behind {a : Word} (prior : FreeNode m head a) (hNode : next m a ≠ head) :
      FreeNode m head (next m a)

theorem toNat_nextPage {v : Word} (h : v.toNat + 4096 < 2 ^ 64) :
    (v + 4096).toNat = v.toNat + 4096 := by
  rw [BitVec.toNat_add]
  simp
  omega

section Sizes

variable {bytes : Word}

theorem toNat_blockSize_mod (bytes : Word) :
    (blockSize bytes).toNat = (bytes.toNat + 32) % 2 ^ 64 / 16 * 16 := by
  have hSum : (bytes + 8 + 24).toNat = (bytes.toNat + 32) % 2 ^ 64 := by
    rw [BitVec.toNat_add, BitVec.toNat_add]
    simp
  rw [blockSize, toNat_and_neg_16, hSum]

theorem toNat_blockSize (h : bytes.toNat + 32 < 2 ^ 64) :
    (blockSize bytes).toNat = (bytes.toNat + 32) / 16 * 16 := by
  rw [toNat_blockSize_mod, Nat.mod_eq_of_lt h]

theorem toNat_count (bytes : Word) : (bytes / 4096 + 1).toNat = bytes.toNat / 4096 + 1 := by
  have hLt := bytes.isLt
  rw [BitVec.toNat_add, BitVec.toNat_udiv]
  simp
  omega

/-- The number of pages a request takes, when it fits an `int`. -/
theorem iterations_eq {size : Word} (h : size.toNat / 4096 + 1 < 2 ^ 31) :
    iterations size = size.toNat / 4096 + 2 := by
  have hCount := toNat_count size
  rw [iterations, BitVec.toInt_eq_toNat_of_lt] <;> rw [BitVec.toNat_setWidth, hCount] <;> omega

end Sizes

/-- Consecutive pages from an address on, one node each. -/
def pages (v : Word) : Nat → List Extent
  | 0 => []
  | n + 1 => (v, 4096) :: pages (v + 4096) n

theorem length_pages (v : Word) (n : Nat) : (pages v n).length = n := by
  induction n generalizing v with
  | zero => rfl
  | succ n ih => rw [pages, List.length_cons, ih]

/-- Consecutive pages are merged into one node. -/
theorem mergeFrom_pages (v size : Word) (n : Nat) :
    mergeFrom (v, size) (pages (v + size) n) = [(v, size + BitVec.ofNat 64 (4096 * n))] := by
  induction n generalizing size with
  | zero => simp [pages, mergeFrom]
  | succ n ih =>
      have hSize : size + 4096 + BitVec.ofNat 64 (4096 * n) =
          size + BitVec.ofNat 64 (4096 * (n + 1)) := by
        rw [BitVec.add_assoc, Nat.mul_succ, Nat.add_comm, BitVec.ofNat_add]
        rfl
      rw [pages, mergeFrom, if_pos rfl, BitVec.add_assoc, ih, hSize]

section Search

variable {m : Memory} {head : Word} {hi : Nat} {free held xs ys : List Extent}

theorem freeNode_of_mem (h : Holds m head hi (xs ++ ys) held) {e : Extent} (he : e ∈ xs) :
    FreeNode m head e.1 := by
  induction xs using List.reverseRecOn generalizing ys e with
  | nil => cases he
  | append_singleton xs f ih =>
      have hSplit : Holds m head hi (xs ++ f :: ys) held := by simpa using h
      rcases List.mem_append.mp he with he | he
      · exact ih hSplit he
      · obtain rfl := List.mem_singleton.mp he
        have hRing := hSplit.ring
        rw [List.map_append, List.map_cons] at hRing
        have hNext := hRing.between.1
        have hHead : e.1 ≠ head := hSplit.ne_head (by simp)
        rw [List.headD_cons] at hNext
        rw [← hNext] at hHead ⊢
        cases hPrior : xs.getLast? with
        | none =>
            rw [List.getLast?_eq_none_iff.mp hPrior] at hHead ⊢
            exact .first hHead
        | some g =>
            have hMap : (xs.map Prod.fst).getLastD head = g.1 := by
              rw [List.getLastD_eq_getLast?, List.getLast?_map, hPrior]
              rfl
            rw [hMap] at hHead ⊢
            exact .behind (ih hSplit (List.mem_of_getLast? hPrior)) hHead

/-- The nodes reached from the head are those of the ring. -/
theorem freeNode_iff (h : Holds m head hi free held) (a : Word) :
    FreeNode m head a ↔ ∃ e ∈ free, e.1 = a := by
  constructor
  · intro hNode
    have hMem : a ∈ free.map Prod.fst := by
      induction hNode with
      | first hNode => exact (List.mem_cons.mp (h.ring.next_mem (List.mem_cons_self ..))).resolve_left hNode
      | behind prior hNode ih =>
          exact (List.mem_cons.mp (h.ring.next_mem (List.mem_cons_of_mem _ ih))).resolve_left hNode
    exact List.mem_map.mp hMem
  · rintro ⟨e, he, rfl⟩
    have hSplit : Holds m head hi (free ++ []) held := by rwa [List.append_nil]
    exact freeNode_of_mem hSplit he

/-- The search ends at the first node that is too small, or at the head when
there is none. -/
theorem searchLoop_cases (h : Holds m head hi (xs ++ ys) held) (bytes : Word) {fuel : Nat}
    (hFuel : ys.length < fuel) :
    (∃ e ∈ ys, e.2 < bytes ∧
      searchLoop m head bytes ((ys.map Prod.fst).headD head) fuel = some e.1) ∨
    (∀ e ∈ ys, bytes ≤ e.2) ∧
      searchLoop m head bytes ((ys.map Prod.fst).headD head) fuel = some head := by
  induction ys generalizing xs fuel with
  | nil =>
      cases fuel with
      | zero => simp at hFuel
      | succ fuel =>
          refine .inr ⟨by simp, ?_⟩
          simp only [List.map_nil, List.headD_nil, searchLoop, ↓reduceIte, ite_self]
  | cons e ys ih =>
      cases fuel with
      | zero => simp at hFuel
      | succ fuel =>
          have hHead : e.1 ≠ head := h.ne_head (by simp)
          have hSize : size m e.1 = e.2 := h.sizes e (by simp)
          rw [List.map_cons, List.headD_cons, searchLoop, hSize]
          by_cases hSmall : e.2 < bytes
          · exact .inl ⟨e, List.mem_cons_self .., hSmall, if_pos hSmall⟩
          · have hSplit : Holds m head hi ((xs ++ [e]) ++ ys) held := by
              rwa [List.append_assoc]
            rw [if_neg hSmall, if_neg hHead, h.links.1]
            rcases ih hSplit (by simpa using hFuel) with ⟨f, hf, hLt, hSearch⟩ | ⟨hLarge, hSearch⟩
            · exact .inl ⟨f, List.mem_cons_of_mem _ hf, hLt, hSearch⟩
            · exact .inr ⟨List.forall_mem_cons.mpr ⟨BitVec.not_lt.mp hSmall, hLarge⟩, hSearch⟩

/-- When no node is too small, the search ends at the head. -/
theorem searchLoop_spec (h : Holds m head hi (xs ++ ys) held) {bytes : Word}
    (hLarge : ∀ e ∈ ys, bytes ≤ e.2) {fuel : Nat} (hFuel : ys.length < fuel) :
    searchLoop m head bytes ((ys.map Prod.fst).headD head) fuel = some head := by
  rcases searchLoop_cases h bytes hFuel with ⟨e, he, hSmall, -⟩ | ⟨-, hSearch⟩
  · exact absurd hSmall (BitVec.not_lt.mpr (hLarge e he))
  · exact hSearch

end Search

section Calls

variable {answer : Nat → Word} {h : Heap} {n : Nat} {free held : List Extent} {bytes : Word}

/-- The free nodes and held blocks of a heap, up to the end of its last
page. -/
structure Cut (h : Heap) (free held : List Extent) : Prop where
  holds : Holds h.mem h.head (h.heapVAddr.toNat + 4096) free held
  above : h.head.toNat ≤ h.heapVAddr.toNat

/-- What the loop over the pages does: `k` pages are mapped and appended, and
either that is all, or there is no page for the next one. -/
inductive Extended (answer : Nat → Word) (h : Heap) (n : Nat) (h' : Heap) : Bool → Nat → Prop where
  | all (hPages : ∀ i < n, answer (h.calls + i) ≠ 0)
      (hAddr : h'.heapVAddr = h.heapVAddr + BitVec.ofNat 64 (4096 * n))
      (hCalls : h'.calls = h.calls + n) : Extended answer h n h' true n
  | denied {k : Nat} (hk : k < n) (hPages : ∀ i < k, answer (h.calls + i) ≠ 0)
      (hNull : answer (h.calls + k) = 0)
      (hAddr : h'.heapVAddr = h.heapVAddr + BitVec.ofNat 64 (4096 * (k + 1)))
      (hCalls : h'.calls = h.calls + (k + 1)) : Extended answer h n h' false k

/-- The pages of the loop end below the end of the address space. -/
def Room (h : Heap) (n : Nat) : Prop :=
  h.heapVAddr.toNat + 4096 * n + 4096 ≤ 2 ^ 64

/-- The last addresses below the end of the heap may be without a page. -/
theorem Holds.extend {m : Memory} {head : Word} {hi hi' : Nat} (h : Holds m head hi free held)
    (hLe : hi ≤ hi') (hLimit : hi' ≤ 2 ^ 64) : Holds m head hi' free held :=
  ⟨h.ring, h.head_size, h.sizes, h.separate.mono (Nat.le_refl _) hLe, hLimit⟩

theorem ofNat_page (v : Word) (k : Nat) :
    v + 4096 + BitVec.ofNat 64 (4096 * k) = v + BitVec.ofNat 64 (4096 * (k + 1)) := by
  rw [BitVec.add_assoc, Nat.mul_succ, Nat.add_comm (4096 * k), BitVec.ofNat_add]
  rfl

/-- One iteration with a page. -/
theorem Cut.page (hCut : Cut h free held) (hRoom : Room h (n + 1)) :
    let v := h.heapVAddr + 4096
    let m := setSize (h.mem.fill v 4096 0) v 4096
    let h₁ : Heap := ⟨nodeAppend m (prev m h.head) v, h.head, v, h.calls + 1⟩
    Cut h₁ (free ++ [(v, 4096)]) held ∧ Room h₁ n := by
  rw [Room, Nat.mul_succ, ← Nat.add_assoc] at hRoom
  have hAbove := hCut.above
  have hAddr := toNat_nextPage (v := h.heapVAddr) (by omega)
  have hPage := hCut.holds.extend_spec hAddr (by omega) (by omega)
  rw [← hAddr] at hPage
  have hHead : h.head.toNat ≤ (h.heapVAddr + 4096).toNat := by omega
  have hRest : (h.heapVAddr + 4096).toNat + 4096 * n + 4096 ≤ 2 ^ 64 := by omega
  exact ⟨⟨hPage, hHead⟩, hRest⟩

theorem extendLoop_extended (answer : Nat → Word) (h : Heap) (n : Nat) :
    ∃ ok h' k, extendLoop answer h n = (ok, h') ∧ Extended answer h n h' ok k ∧
      h'.head = h.head ∧ ∀ free held, Cut h free held → Room h n →
        Cut h' (free ++ pages (h.heapVAddr + 4096) k) held := by
  induction n generalizing h with
  | zero =>
      refine ⟨true, h, 0, rfl, .all (fun i hi => absurd hi (Nat.not_lt_zero i)) (by simp) rfl, rfl,
        fun free held hCut _ => ?_⟩
      rwa [pages, List.append_nil]
  | succ n ih =>
      by_cases hNull : answer h.calls = 0
      · refine ⟨false, { h with heapVAddr := h.heapVAddr + 4096, calls := h.calls + 1 }, 0, ?_,
          .denied (Nat.succ_pos n) (fun i hi => absurd hi (Nat.not_lt_zero i)) hNull rfl rfl, rfl,
          fun free held hCut hRoom => ?_⟩
        · rw [extendLoop]
          exact if_pos hNull
        · unfold Room at hRoom
          have hAddr := toNat_nextPage (v := h.heapVAddr) (by omega)
          have hAbove := hCut.above
          rw [pages, List.append_nil]
          refine ⟨hCut.holds.extend ?_ ?_, ?_⟩
          · change _ ≤ (h.heapVAddr + 4096).toNat + 4096
            omega
          · change (h.heapVAddr + 4096).toNat + 4096 ≤ 2 ^ 64
            omega
          · change h.head.toNat ≤ (h.heapVAddr + 4096).toNat
            omega
      · let v := h.heapVAddr + 4096
        let m := setSize (h.mem.fill v 4096 0) v 4096
        obtain ⟨ok, h', k, hLoop, hExtended, hHead, hCut'⟩ :=
          ih ⟨nodeAppend m (prev m h.head) v, h.head, v, h.calls + 1⟩
        have hPages (l : Nat) (hFirst : ∀ i < l, answer (h.calls + 1 + i) ≠ 0) :
            ∀ i < l + 1, answer (h.calls + i) ≠ 0 := by
          intro i hi
          cases i with
          | zero => exact hNull
          | succ i =>
              rw [Nat.add_comm i 1, ← Nat.add_assoc]
              exact hFirst i (by omega)
        refine ⟨ok, h', k + 1, ?_, ?_, hHead, fun free held hCut hRoom => ?_⟩
        · rw [extendLoop]
          exact (if_neg hNull).trans hLoop
        · cases hExtended with
          | all hFirst hAddr hCalls =>
              refine .all (hPages n hFirst) (hAddr.trans (ofNat_page _ _)) (hCalls.trans ?_)
              change h.calls + 1 + n = h.calls + (n + 1)
              omega
          | denied hk hFirst hLast hAddr hCalls =>
              refine .denied (Nat.succ_lt_succ hk) (hPages k hFirst) ?_
                (hAddr.trans (ofNat_page _ _)) (hCalls.trans ?_)
              · rw [Nat.add_comm k 1, ← Nat.add_assoc]
                exact hLast
              · change h.calls + 1 + (k + 1) = h.calls + (k + 1 + 1)
                omega
        · obtain ⟨hPage, hRest⟩ := hCut.page hRoom
          have hAll := hCut' _ held hPage hRest
          rw [List.append_assoc] at hAll
          exact hAll

theorem endOf_eq (e : Extent) (rest : List Extent) :
    endOf e rest = (rest.getLastD e).1 + (rest.getLastD e).2 := by
  induction rest generalizing e with
  | nil => rfl
  | cons c rest ih => rw [endOf, ih, List.getLastD_cons]

/-- The loop of `kmalloc` with all its pages. -/
theorem Cut.extendLoop (hCut : Cut h free held) (hPages : ∀ i < n, answer (h.calls + i) ≠ 0)
    (hRoom : Room h n) :
    ∃ h', Kmalloc.extendLoop answer h n = (true, h') ∧ h'.head = h.head ∧
      Cut h' (free ++ pages (h.heapVAddr + 4096) n) held := by
  obtain ⟨ok, h', k, hLoop, hExtended, hHead, hCut'⟩ := extendLoop_extended answer h n
  cases hExtended with
  | all => exact ⟨h', hLoop, hHead, hCut' free held hCut hRoom⟩
  | denied hk hFirst hNull => exact absurd hNull (hPages _ hk)

/-- When a request can be served from new pages: its size does not wrap, the
number of its pages fits an `int` and the address space, no free node is too
small for it, and the last free node does not touch the new pages. -/
structure Extendable (h : Heap) (bytes : Word) : Prop where
  noWrap : bytes.toNat + 32 < 2 ^ 64
  count : (blockSize bytes).toNat / 4096 + 1 < 2 ^ 31 - 1
  room : h.heapVAddr.toNat + 4096 * ((blockSize bytes).toNat / 4096 + 2) + 4096 ≤ 2 ^ 64
  large : ∀ a, FreeNode h.mem h.head a → blockSize bytes ≤ size h.mem a
  gap : prev h.mem h.head = h.head ∨
    prev h.mem h.head + size h.mem (prev h.mem h.head) ≠ h.heapVAddr + 4096

/-- The new pages stay apart from the nodes before them. -/
theorem coalesce_pages {h' : Heap} {first : Word} {n : Nat}
    (hCut : Cut h' (free ++ pages first (n + 1)) held)
    (hGap : ∀ e rest, free = e :: rest → endOf e rest ≠ first) (fuel : Nat)
    (hFuel : free.length + (n + 1) < fuel) :
    ∃ m' merged, coalesceFreeList fuel h'.head h'.mem = some m' ∧
      Holds m' h'.head (h'.heapVAddr.toNat + 4096)
        (merged ++ [(first, BitVec.ofNat 64 (4096 * (n + 1)))]) held := by
  have hPages : mergeFrom (first, 4096) (pages (first + 4096) n) =
      [(first, BitVec.ofNat 64 (4096 * (n + 1)))] := by
    rw [mergeFrom_pages, Nat.mul_succ, Nat.add_comm, BitVec.ofNat_add]
    rfl
  have hLength : (free ++ pages first (n + 1)).length < fuel := by
    rw [List.length_append, length_pages]
    exact hFuel
  obtain ⟨m', hCoalesce, hHolds⟩ := hCut.holds.coalesce_spec hLength
  cases free with
  | nil =>
      refine ⟨m', [], hCoalesce, ?_⟩
      rw [List.nil_append, ← hPages]
      exact hHolds
  | cons e rest =>
      refine ⟨m', mergeFrom e rest, hCoalesce, ?_⟩
      rw [← hPages, ← mergeFrom_append e rest (first, 4096) _ (hGap e rest rfl)]
      exact hHolds

/-- The new pages are larger than the block, by more than a node. -/
theorem block_fits {v : Nat}
    (hRoom : v + 4096 * ((blockSize bytes).toNat / 4096 + 2) + 4096 ≤ 2 ^ 64)
    (hSize : (blockSize bytes).toNat = (bytes.toNat + 32) / 16 * 16) :
    let total := BitVec.ofNat 64 (4096 * ((blockSize bytes).toNat / 4096 + 1 + 1))
    blockSize bytes ≤ total ∧ 24 ≤ (blockSize bytes).toNat ∧
      24 ≤ (total - blockSize bytes).toNat := by
  intro total
  have hTotal : total.toNat = 4096 * ((blockSize bytes).toNat / 4096) + 8192 := by
    simp only [total, BitVec.toNat_ofNat]
    omega
  have hLe : (blockSize bytes).toNat ≤ total.toNat := by omega
  refine ⟨hLe, by omega, ?_⟩
  rw [BitVec.toNat_sub_of_le hLe, hTotal]
  omega

/-- A request that can be served from new pages gets its block from their
end. -/
theorem kmalloc_spec (hPages : ∀ i < iterations (blockSize bytes), answer (h.calls + i) ≠ 0)
    (hCut : Cut h free held) (hExtendable : Extendable h bytes) :
    ∃ fuel ret h' free', kmalloc answer fuel h bytes = some (ret + 8, h') ∧ h'.head = h.head ∧
      Cut h' free' ((ret, blockSize bytes) :: held) := by
  obtain ⟨hNoWrap, hCount, hRoom, hLarge, hGap⟩ := hExtendable
  have hSize := toNat_blockSize hNoWrap
  have hIterations := iterations_eq (hCount.trans (by decide))
  obtain ⟨h', hLoop, hHead, hCut'⟩ := hCut.extendLoop hPages (by rwa [Room, hIterations])
  have hSearch : searchLoop h.mem h.head (blockSize bytes) (next h.mem h.head)
      (free.length + iterations (blockSize bytes) + 1) = some h.head := by
    have hSplit : Holds h.mem h.head (h.heapVAddr.toNat + 4096) ([] ++ free) held := hCut.holds
    rw [hCut.holds.ring.first]
    refine searchLoop_spec hSplit (fun e he => ?_) (by omega)
    rw [← hCut.holds.sizes e (List.mem_append_left _ he)]
    exact hLarge e.1 ((freeNode_iff hCut.holds e.1).mpr ⟨e, he, rfl⟩)
  have hNoTouch : ∀ e rest, free = e :: rest → endOf e rest ≠ h.heapVAddr + 4096 := by
    rintro e rest rfl hTouch
    have hPrev : prev h.mem h.head = (rest.getLastD e).1 := by
      rw [hCut.holds.ring.last, List.map_cons, List.getLastD_cons, List.getLastD_eq_getLast?,
        List.getLastD_eq_getLast?, List.getLast?_map]
      cases rest.getLast? <;> rfl
    have hMem : rest.getLastD e ∈ e :: rest := List.getLastD_mem_cons
    rcases hGap with hEmpty | hOther
    · have hNodup := hCut.holds.nodup
      refine (List.nodup_cons.mp hNodup).1 ?_
      rw [← hEmpty, hPrev]
      exact List.mem_map_of_mem (List.mem_append_left _ hMem)
    · rw [hPrev, hCut.holds.sizes _ (List.mem_append_left _ hMem), ← endOf_eq] at hOther
      exact hOther hTouch
  rw [hIterations] at hCut'
  obtain ⟨m', merged, hCoalesce, hHolds⟩ := coalesce_pages hCut' hNoTouch
    (free.length + iterations (blockSize bytes) + 1) (by rw [hIterations]; omega)
  obtain ⟨hFits, hLeast, hRest⟩ := block_fits hRoom hSize
  obtain ⟨hRet, hCarved⟩ := hHolds.carve_spec hFits hLeast hRest
  cases hBlock : carve m' (h.heapVAddr + 4096) (blockSize bytes) with
  | mk ptr mem =>
      rw [hBlock] at hRet hCarved
      refine ⟨free.length + iterations (blockSize bytes) + 1, _, { h' with mem := mem }, _, ?_,
        hHead, ⟨hCarved, hCut'.above⟩⟩
      rw [kmalloc, hSearch]
      simp only [Option.bind_eq_bind, Option.bind_some, ↓reduceIte, hLoop, hCoalesce, hBlock]
      rw [← hRet]

/-- A block with its size header, from the place in the list on. -/
theorem kfree_of_place {e : Extent} {temp : Word} {m : Memory} {fuel : Nat}
    (hSize : size h.mem e.1 = e.2) (hLeast : 24 ≤ e.2.toNat)
    (hFits : e.1.toNat + e.2.toNat ≤ 2 ^ 64)
    (hPlace : placeLoop h.mem h.head e.1 (prev h.mem h.head) fuel = some temp)
    (hCoalesce : coalesceFreeList fuel h.head (nodeAppend h.mem temp e.1) = some m) :
    kfree fuel h (e.1 + 8) = some { h with mem := m } := by
  have hAddr : (e.1 + 8).toNat = e.1.toNat + 8 := by
    rw [BitVec.toNat_add]
    simp
    omega
  have hNull : e.1 + 8 ≠ 0 := fun hZero => by
    have hNat : (e.1 + 8).toNat = 0 := congrArg BitVec.toNat hZero
    omega
  have hBack : e.1 + 8 - 8 = e.1 := BitVec.add_sub_cancel _ _
  have hNonzero : e.2 ≠ 0 := fun hZero => by
    rw [hZero] at hLeast
    simp at hLeast
  rw [kfree, if_neg hNull]
  simp only [hBack, hSize, if_neg hNonzero, hPlace, Option.bind_eq_bind, Option.bind_some,
    hCoalesce]

/-- A held block goes back to the free list. -/
theorem kfree_spec {e : Extent} (hCut : Cut h free (e :: held)) :
    ∃ fuel h' free', kfree fuel h (e.1 + 8) = some h' ∧ h'.head = h.head ∧ Cut h' free' held := by
  obtain ⟨hLeast, hLo, hHi⟩ := hCut.holds.separate.within e (by simp)
  have hLimit := hCut.holds.limit
  have hSize : size h.mem e.1 = e.2 := hCut.holds.sizes e (by simp)
  have hSplit : Holds h.mem h.head (h.heapVAddr.toNat + 4096) (free ++ []) (e :: held) := by
    rw [List.append_nil]
    exact hCut.holds
  have hPrev : prev h.mem h.head = (free.map Prod.fst).getLastD h.head := hCut.holds.ring.last
  have hPlaceFuel : free.length < free.length + 2 := by omega
  obtain ⟨xs, ys, hList, hPlace⟩ := hSplit.placeLoop_spec e.1 hPlaceFuel
  rw [← hPrev] at hPlace
  rw [hList] at hSplit
  have hAppended := hSplit.append_spec
  have hLength : (xs ++ e :: ys).length < free.length + 2 := by
    have hSame := congrArg List.length hList
    simp only [List.length_append, List.length_cons, List.length_nil] at hSame ⊢
    omega
  obtain ⟨m', hCoalesce, hHolds⟩ := hAppended.coalesce_spec hLength
  have hCall := kfree_of_place hSize hLeast (hHi.trans hLimit) hPlace hCoalesce
  exact ⟨free.length + 2, { h with mem := m' }, _, hCall, rfl, ⟨hHolds, hCut.above⟩⟩

end Calls

section Fuel

/-- More fuel does not change the result of a loop. -/
theorem searchLoop_mono {m : Memory} {head bytes temp result : Word} {fuel fuel' : Nat}
    (hLe : fuel ≤ fuel') (h : searchLoop m head bytes temp fuel = some result) :
    searchLoop m head bytes temp fuel' = some result := by
  induction fuel generalizing temp fuel' with
  | zero => cases h
  | succ fuel ih =>
      obtain ⟨k, rfl⟩ : ∃ k, fuel' = k + 1 := ⟨fuel' - 1, by omega⟩
      rw [searchLoop] at h ⊢
      split
      · rwa [if_pos ‹_›] at h
      · rw [if_neg ‹_›] at h
        split
        · rwa [if_pos ‹_›] at h
        · rw [if_neg ‹_›] at h
          exact ih (by omega) h

theorem coalesceLoop_mono {head temp : Word} {m result : Memory} {fuel fuel' : Nat}
    (hLe : fuel ≤ fuel') (h : coalesceLoop head m temp fuel = some result) :
    coalesceLoop head m temp fuel' = some result := by
  induction fuel generalizing m temp fuel' with
  | zero => cases h
  | succ fuel ih =>
      obtain ⟨k, rfl⟩ : ∃ k, fuel' = k + 1 := ⟨fuel' - 1, by omega⟩
      rw [coalesceLoop] at h ⊢
      split
      · rwa [if_pos ‹_›] at h
      · rw [if_neg ‹_›] at h
        split
        · rw [if_pos ‹_›] at h
          exact ih (by omega) h
        · rw [if_neg ‹_›] at h
          exact ih (by omega) h

theorem placeLoop_mono {m : Memory} {head ptr temp result : Word} {fuel fuel' : Nat}
    (hLe : fuel ≤ fuel') (h : placeLoop m head ptr temp fuel = some result) :
    placeLoop m head ptr temp fuel' = some result := by
  induction fuel generalizing temp fuel' with
  | zero => cases h
  | succ fuel ih =>
      obtain ⟨k, rfl⟩ : ∃ k, fuel' = k + 1 := ⟨fuel' - 1, by omega⟩
      rw [placeLoop] at h ⊢
      split
      · rwa [if_pos ‹_›] at h
      · rw [if_neg ‹_›] at h
        exact ih (by omega) h

theorem kmalloc_mono {answer : Nat → Word} {h : Heap} {bytes : Word} {result : Word × Heap}
    {fuel fuel' : Nat} (hLe : fuel ≤ fuel') (hCall : kmalloc answer fuel h bytes = some result) :
    kmalloc answer fuel' h bytes = some result := by
  simp only [kmalloc, Option.bind_eq_bind, Option.bind_eq_some_iff] at hCall ⊢
  obtain ⟨temp, hSearch, hRest⟩ := hCall
  refine ⟨temp, searchLoop_mono hLe hSearch, ?_⟩
  split
  · rw [if_pos ‹_›] at hRest
    cases hLoop : extendLoop answer h (iterations (blockSize bytes)) with
    | mk ok h₁ =>
        rw [hLoop] at hRest
        cases ok with
        | false => exact hRest
        | true =>
            simp only [Option.bind_eq_some_iff] at hRest ⊢
            obtain ⟨m, hCoalesce, hLast⟩ := hRest
            exact ⟨m, coalesceLoop_mono hLe hCoalesce, hLast⟩
  · rwa [if_neg ‹_›] at hRest

theorem kfree_mono {h result : Heap} {ptr : Word} {fuel fuel' : Nat} (hLe : fuel ≤ fuel')
    (hCall : kfree fuel h ptr = some result) : kfree fuel' h ptr = some result := by
  rw [kfree] at hCall ⊢
  split
  · rwa [if_pos ‹_›] at hCall
  · rw [if_neg ‹_›] at hCall
    simp only at hCall ⊢
    split
    · rwa [if_pos ‹_›] at hCall
    · rw [if_neg ‹_›] at hCall
      simp only [Option.bind_eq_bind, Option.bind_eq_some_iff] at hCall ⊢
      obtain ⟨temp, hPlace, m, hCoalesce, hLast⟩ := hCall
      exact ⟨temp, placeLoop_mono hLe hPlace, m, coalesceLoop_mono hLe hCoalesce, hLast⟩

/-- The result of a call does not depend on the fuel it was found with. -/
theorem kmalloc_unique {answer : Nat → Word} {h : Heap} {bytes : Word} {r r' : Word × Heap}
    {fuel fuel' : Nat} (hCall : kmalloc answer fuel h bytes = some r)
    (hCall' : kmalloc answer fuel' h bytes = some r') : r = r' := by
  have hMax := kmalloc_mono (Nat.le_max_left fuel fuel') hCall
  rw [kmalloc_mono (Nat.le_max_right fuel fuel') hCall'] at hMax
  exact (Option.some.inj hMax).symm

theorem kfree_unique {h r r' : Heap} {ptr : Word} {fuel fuel' : Nat}
    (hCall : kfree fuel h ptr = some r) (hCall' : kfree fuel' h ptr = some r') : r = r' := by
  have hMax := kfree_mono (Nat.le_max_left fuel fuel') hCall
  rw [kfree_mono (Nat.le_max_right fuel fuel') hCall'] at hMax
  exact (Option.some.inj hMax).symm

end Fuel

/-- A pointer that was returned and not yet freed, with the requested number
of bytes. -/
structure Block where
  ptr : Word
  bytes : Word
  deriving DecidableEq

structure Use where
  heap : Heap
  live : List Block

/-- The owner of a block may write to the bytes it asked for. -/
inductive Op where
  | malloc (bytes : Word)
  | zalloc (bytes : Word)
  | free (block : Block)
  | write (block : Block) (address : Word) (value : Byte)

/-- A `NULL` is not a live pointer. -/
def hand (ptr bytes : Word) (live : List Block) : List Block :=
  if ptr = 0 then live else ⟨ptr, bytes⟩ :: live

/-- What a caller may do: free live pointers, and write to live blocks. -/
def Admissible (s : Use) : Op → Prop
  | .free block => block ∈ s.live
  | .write block address _ => block ∈ s.live ∧ InRange block.ptr block.bytes.toNat address
  | _ => True

/-- A call returns when its loops end with some fuel. -/
inductive Step (answer : Nat → Word) : Use → Op → Use → Prop where
  | malloc {s : Use} {bytes ptr : Word} {h : Heap} {fuel : Nat}
      (hCall : kmalloc answer fuel s.heap bytes = some (ptr, h)) :
      Step answer s (.malloc bytes) ⟨h, hand ptr bytes s.live⟩
  | zalloc {s : Use} {bytes ptr : Word} {h : Heap} {fuel : Nat}
      (hCall : kzalloc answer fuel s.heap bytes = some (ptr, h)) :
      Step answer s (.zalloc bytes) ⟨h, hand ptr bytes s.live⟩
  | free {s : Use} {block : Block} {h : Heap} {fuel : Nat} (hLive : block ∈ s.live)
      (hCall : kfree fuel s.heap block.ptr = some h) :
      Step answer s (.free block) ⟨h, s.live.erase block⟩
  | write {s : Use} {block : Block} {address : Word} {value : Byte} (hLive : block ∈ s.live)
      (hIn : InRange block.ptr block.bytes.toNat address) :
      Step answer s (.write block address value)
        ⟨{ s.heap with mem := s.heap.mem.store address value }, s.live⟩

/-- Requests are served from new pages. -/
def Allowed (s : Use) : Op → Prop
  | .malloc bytes => Extendable s.heap bytes
  | .zalloc bytes => Extendable s.heap bytes
  | _ => True

/-- The block of a live pointer: its size header and what the header says. -/
def extentOf (m : Memory) (block : Block) : Extent :=
  (block.ptr - 8, size m (block.ptr - 8))

def InBlock (m : Memory) (block : Block) (x : Word) : Prop :=
  InRange (extentOf m block).1 (extentOf m block).2.toNat x

/-- Live blocks have the bytes asked for behind their size header, lie in
mapped pages above the head, and share no byte with each other or with a node
of the free list. -/
structure Sound (s : Use) : Prop where
  usable : ∀ block ∈ s.live, block.bytes.toNat + 8 ≤ (extentOf s.heap.mem block).2.toNat
  mapped : ∀ block ∈ s.live, ∀ x, InBlock s.heap.mem block x →
    s.heap.head.toNat + 24 ≤ x.toNat ∧ x.toNat < s.heap.heapVAddr.toNat + 4096
  disjoint : s.live.Pairwise fun a b => ∀ x, InBlock s.heap.mem a x → ¬ InBlock s.heap.mem b x
  free : ∀ block ∈ s.live, ∀ a, FreeNode s.heap.mem s.heap.head a →
    ∀ x, InBlock s.heap.mem block x → ¬ InRange a (size s.heap.mem a).toNat x

/-- The heap is cut into free nodes and the live blocks. -/
structure Inv (s : Use) (free : List Extent) : Prop where
  cut : Cut s.heap free (s.live.map (extentOf s.heap.mem))
  usable : ∀ block ∈ s.live, block.bytes.toNat + 8 ≤ (extentOf s.heap.mem block).2.toNat

theorem Inv.sound {s : Use} {free : List Extent} (h : Inv s free) : Sound s := by
  have hHolds := h.cut.holds
  have hLimit := hHolds.limit
  have hBlock (block : Block) (hb : block ∈ s.live) := hHolds.separate.within
    (extentOf s.heap.mem block) (List.mem_append_right _ (List.mem_map_of_mem hb))
  have hParts := List.pairwise_append.mp hHolds.separate.disjoint
  refine ⟨h.usable, fun block hb x hx => ?_, ?_, fun block hb a ha x hx => ?_⟩
  · obtain ⟨-, hLo, hHi⟩ := hBlock block hb
    obtain ⟨hFirst, hLast⟩ := (inRange_iff (by omega)).mp hx
    omega
  · refine (List.pairwise_map.mp hParts.2.1).imp_of_mem fun {a b} ha hb hDisjoint x hx => ?_
    have hA := (hBlock a ha).le_hi
    have hB := (hBlock b hb).le_hi
    exact hDisjoint.not_inRange (by omega) (by omega) hx
  · obtain ⟨e, he, rfl⟩ := (freeNode_iff hHolds a).mp ha
    have hB := (hBlock block hb).le_hi
    have hE := (hHolds.separate.within e (List.mem_append_left _ he)).le_hi
    have hDisjoint := hParts.2.2 e he _ (List.mem_map_of_mem (f := extentOf s.heap.mem) hb)
    rw [hHolds.sizes e (List.mem_append_left _ he)]
    exact hDisjoint.symm.not_inRange (by omega) (by omega) hx

/-- Blocks that keep their sizes keep their extents. -/
theorem extents_eq {m m' : Memory} {head : Word} {hi : Nat} {free held : List Extent}
    {live : List Block} (h : Holds m' head hi free held)
    (hMem : ∀ block ∈ live, extentOf m block ∈ held) :
    live.map (extentOf m') = live.map (extentOf m) := by
  refine List.map_congr_left fun block hb => ?_
  have hSize : size m' (extentOf m block).1 = (extentOf m block).2 :=
    h.sizes _ (List.mem_append_right _ (hMem block hb))
  simp only [extentOf] at hSize ⊢
  rw [hSize]

/-- The owner of a block changes bytes behind its size header. -/
theorem Inv.payload {s : Use} {free : List Extent} {m' : Memory} (h : Inv s free) {block : Block}
    (hb : block ∈ s.live) {n : Nat} (hn : n + 8 ≤ (extentOf s.heap.mem block).2.toNat)
    (hOutside : ∀ x, ¬ InRange block.ptr n x → m' x = s.heap.mem x) :
    Inv ⟨{ s.heap with mem := m' }, s.live⟩ free := by
  have hMem := List.mem_map_of_mem (f := extentOf s.heap.mem) hb
  have hPtr : (extentOf s.heap.mem block).1 + 8 = block.ptr := BitVec.sub_add_cancel _ _
  have hHolds : Holds m' s.heap.head (s.heap.heapVAddr.toNat + 4096) free
      (s.live.map (extentOf s.heap.mem)) := by
    refine h.cut.holds.payload hMem fun x hx => hOutside x fun hIn => hx ?_
    rw [hPtr]
    unfold InRange at hIn ⊢
    omega
  have hSame : s.live.map (extentOf m') = s.live.map (extentOf s.heap.mem) :=
    extents_eq hHolds fun b hb => List.mem_map_of_mem hb
  refine ⟨⟨by rwa [hSame], h.cut.above⟩, fun b hb' => ?_⟩
  have hExtent : extentOf m' b = extentOf s.heap.mem b :=
    List.map_inj_left.mp hSame b hb'
  rw [hExtent]
  exact h.usable b hb'

section Runs

variable {answer : Nat → Word} {s : Use} {free : List Extent}

/-- A request that can be served adds a live block. -/
theorem Inv.malloc (h : Inv s free) {bytes ptr : Word} {h' : Heap} {fuel : Nat}
    (hPages : ∀ i < iterations (blockSize bytes), answer (s.heap.calls + i) ≠ 0)
    (hExtendable : Extendable s.heap bytes)
    (hCall : kmalloc answer fuel s.heap bytes = some (ptr, h')) :
    ptr ≠ 0 ∧ ∃ free', Inv ⟨h', ⟨ptr, bytes⟩ :: s.live⟩ free' := by
  obtain ⟨fuel', ret, h₁, free', hCall', -, hCut⟩ := kmalloc_spec hPages h.cut hExtendable
  obtain ⟨rfl, rfl⟩ := Prod.mk.inj (kmalloc_unique hCall hCall')
  have hBack : ret + 8 - 8 = ret := BitVec.add_sub_cancel _ _
  have hSize : size h'.mem ret = blockSize bytes :=
    hCut.holds.sizes (ret, blockSize bytes) (by simp)
  have hBlock : extentOf h'.mem ⟨ret + 8, bytes⟩ = (ret, blockSize bytes) := by
    simp only [extentOf, hBack, hSize]
  have hSame : s.live.map (extentOf h'.mem) = s.live.map (extentOf s.heap.mem) :=
    extents_eq hCut.holds fun b hb => List.mem_cons_of_mem _ (List.mem_map_of_mem hb)
  have hRound := toNat_blockSize hExtendable.noWrap
  refine ⟨fun hNull => ?_, free', ⟨?_, fun b hb => ?_⟩⟩
  · obtain ⟨hLeast, hLo, hHi⟩ := hCut.holds.separate.within (ret, blockSize bytes) (by simp)
    have hLimit := hCut.holds.limit
    have hNat : (ret + 8).toNat = 0 := congrArg BitVec.toNat hNull
    rw [BitVec.toNat_add] at hNat
    simp at hNat hLo hHi hLeast
    omega
  · rw [List.map_cons, hBlock, hSame]
    exact hCut
  · rcases List.mem_cons.mp hb with rfl | hb
    · rw [hBlock]
      simp only [hRound]
      omega
    · rw [List.map_inj_left.mp hSame b hb]
      exact h.usable b hb

theorem toInt_sub_le (bytes : Word) : (bytes - 8).toInt.toNat ≤ bytes.toNat := by
  by_cases hSmall : bytes.toNat < 8
  · have hValue : (bytes - 8).toNat = bytes.toNat + 2 ^ 64 - 8 := by
      rw [BitVec.toNat_sub]
      simp
      omega
    rw [BitVec.toInt_eq_toNat_cond, hValue]
    split <;> omega
  · have hValue : (bytes - 8).toNat = bytes.toNat - 8 := by
      rw [BitVec.toNat_sub]
      simp
      omega
    rw [BitVec.toInt_eq_toNat_cond, hValue]
    split <;> omega

/-- `memset` stays in the block. -/
theorem Inv.zalloc (h : Inv s free) {bytes ptr : Word} {h' : Heap} {fuel : Nat}
    (hPages : ∀ i < iterations (blockSize bytes), answer (s.heap.calls + i) ≠ 0)
    (hExtendable : Extendable s.heap bytes)
    (hCall : kzalloc answer fuel s.heap bytes = some (ptr, h')) :
    ptr ≠ 0 ∧ ∃ free', Inv ⟨h', ⟨ptr, bytes⟩ :: s.live⟩ free' := by
  simp only [kzalloc, Option.bind_eq_bind, Option.bind_eq_some_iff] at hCall
  obtain ⟨⟨ptr', h₁⟩, hCall, hLast⟩ := hCall
  cases hLast
  obtain ⟨hPtr, free', hInv⟩ := h.malloc hPages hExtendable hCall
  have hMem : (⟨ptr', bytes⟩ : Block) ∈ (⟨ptr', bytes⟩ : Block) :: s.live := List.mem_cons_self ..
  refine ⟨hPtr, free', hInv.payload hMem (hInv.usable _ hMem) fun x hx => ?_⟩
  rw [memset_eq_fill]
  refine Memory.fill_outside _ _ fun hIn => hx ?_
  exact Nat.lt_of_lt_of_le hIn (toInt_sub_le bytes)

/-- A live block goes back to the free list. -/
theorem Inv.kfree (h : Inv s free) {block : Block} (hLive : block ∈ s.live) {h' : Heap} {fuel : Nat}
    (hCall : kfree fuel s.heap block.ptr = some h') :
    ∃ free', Inv ⟨h', s.live.erase block⟩ free' := by
  have hPerm := (List.perm_cons_erase hLive).map (extentOf s.heap.mem)
  have hHolds := h.cut.holds.perm_held hPerm
  obtain ⟨fuel', h₁, free', hCall', -, hCut⟩ := kfree_spec ⟨hHolds, h.cut.above⟩
  have hPtr : (extentOf s.heap.mem block).1 + 8 = block.ptr := BitVec.sub_add_cancel _ _
  rw [hPtr] at hCall'
  obtain rfl := kfree_unique hCall hCall'
  have hSame : (s.live.erase block).map (extentOf h'.mem) =
      (s.live.erase block).map (extentOf s.heap.mem) :=
    extents_eq hCut.holds fun b hb => List.mem_map_of_mem hb
  refine ⟨free', by rwa [← hSame] at hCut, fun b hb => ?_⟩
  rw [List.map_inj_left.mp hSame b hb]
  exact h.usable b (List.mem_of_mem_erase hb)

theorem Inv.write (h : Inv s free) {block : Block} {address : Word} (value : Byte)
    (hLive : block ∈ s.live) (hIn : InRange block.ptr block.bytes.toNat address) :
    Inv ⟨{ s.heap with mem := s.heap.mem.store address value }, s.live⟩ free :=
  h.payload hLive (h.usable block hLive) fun _ hx =>
    Memory.store_of_ne _ _ fun hEq => hx (hEq ▸ hIn)

/-- Every allowed call and write keeps the heap cut into nodes and blocks. -/
theorem Inv.step (hAnswer : ∀ k, answer k ≠ 0) (h : Inv s free) {op : Op} {t : Use}
    (hAllowed : Allowed s op) (hStep : Step answer s op t) : ∃ free', Inv t free' := by
  cases hStep with
  | malloc hCall =>
      obtain ⟨hPtr, hInv⟩ := h.malloc (fun _ _ => hAnswer _) hAllowed hCall
      rwa [hand, if_neg hPtr]
  | zalloc hCall =>
      obtain ⟨hPtr, hInv⟩ := h.zalloc (fun _ _ => hAnswer _) hAllowed hCall
      rwa [hand, if_neg hPtr]
  | free hLive hCall => exact h.kfree hLive hCall
  | write hLive hIn => exact ⟨free, h.write _ hLive hIn⟩

/-- An allowed call returns. -/
theorem Inv.returns (hAnswer : ∀ k, answer k ≠ 0) (h : Inv s free) {op : Op}
    (hAdmissible : Admissible s op) (hAllowed : Allowed s op) : ∃ t, Step answer s op t := by
  cases op with
  | malloc bytes =>
      obtain ⟨fuel, ret, h', free', hCall, -⟩ := kmalloc_spec (fun _ _ => hAnswer _) h.cut hAllowed
      exact ⟨_, .malloc hCall⟩
  | zalloc bytes =>
      obtain ⟨fuel, ret, h', free', hCall, -⟩ := kmalloc_spec (fun _ _ => hAnswer _) h.cut hAllowed
      have hZero : kzalloc answer fuel s.heap bytes = some (ret + 8,
          { h' with mem := memset h'.mem (ret + 8) 0 (bytes - 8) }) := by
        rw [kzalloc, hCall]
        rfl
      exact ⟨_, .zalloc hZero⟩
  | free block =>
      have hPerm := (List.perm_cons_erase hAdmissible).map (extentOf s.heap.mem)
      have hHolds := h.cut.holds.perm_held hPerm
      obtain ⟨fuel, h', free', hCall, -⟩ := kfree_spec ⟨hHolds, h.cut.above⟩
      have hPtr : (extentOf s.heap.mem block).1 + 8 = block.ptr := BitVec.sub_add_cancel _ _
      rw [hPtr] at hCall
      exact ⟨_, .free hAdmissible hCall⟩
  | write block address value => exact ⟨_, .write hAdmissible.1 hAdmissible.2⟩

theorem inv_init (m : Memory) : Inv ⟨initKernelHeap m, []⟩ [] := by
  have hSep : Sep kernelHeapStartVaddr kernelHeapStartVaddr := fun hne => absurd rfl hne
  refine ⟨⟨⟨⟨?_, by simp⟩, ?_, by simp, ⟨by simp, List.Pairwise.nil⟩,
    (show kernelHeapStartVaddr.toNat + 4096 ≤ 2 ^ 64 by decide)⟩, Nat.le_refl _⟩,
    by simp⟩
  · intro l hl
    obtain rfl := List.mem_singleton.mp hl
    simp only [initKernelHeap]
    rw [next_setNext hSep, prev_setNext hSep, prev_setPrev hSep]
    simp
  · simp only [initKernelHeap]
    rw [size_setNext hSep, size_setPrev hSep, size_setSize hSep, if_pos rfl]

/-- Every run whose requests are served from new pages keeps live blocks
usable, mapped and disjoint, and its next allowed call returns. -/
theorem sound_of_extending_run (hAnswer : ∀ k, answer k ≠ 0) (m : Memory) {ops : List Op}
    (run : Run (Guarded (Step answer) Allowed) ⟨initKernelHeap m, []⟩ ops s) :
    Sound s ∧ ∀ op, Admissible s op → Allowed s op → ∃ t, Step answer s op t := by
  have hInv : ∃ free, Inv s free :=
    run.invariant (fun s => ∃ free, Inv s free) ⟨[], inv_init m⟩
      fun a op b ⟨free, hInv⟩ ⟨hAllowed, hStep⟩ => hInv.step hAnswer hAllowed hStep
  obtain ⟨free, hInv⟩ := hInv
  exact ⟨hInv.sound, fun op => hInv.returns hAnswer⟩

/-- The first request finds an empty list. -/
theorem extendable_init (m : Memory) : Extendable (initKernelHeap m) 100 := by
  have hInv := inv_init m
  have hRoom : kernelHeapStartVaddr.toNat + 4096 * ((blockSize 100).toNat / 4096 + 2) + 4096 ≤
      2 ^ 64 := by decide
  refine ⟨by decide, by decide, hRoom, fun a ha => ?_, .inl hInv.cut.holds.ring.last⟩
  obtain ⟨e, he, -⟩ := (freeNode_iff hInv.cut.holds a).mp ha
  cases he

theorem sound_of_extending_run_first :
    ∃ s, Run (Guarded (Step fun _ => 0x80300000) Allowed) ⟨initKernelHeap fun _ => 0, []⟩
        [.malloc 100] s ∧
      Sound s ∧ ∀ op, Admissible s op → Allowed s op →
        ∃ t, Step (fun _ => 0x80300000) s op t := by
  have hAnswer : ∀ _ : Nat, (0x80300000 : Word) ≠ 0 := fun _ => by decide
  have hInv := inv_init fun _ => 0
  have hExtendable := extendable_init fun _ => 0
  obtain ⟨s, hStep⟩ : ∃ s, Step (fun _ => 0x80300000) ⟨initKernelHeap fun _ => 0, []⟩
      (.malloc 100) s := hInv.returns hAnswer trivial hExtendable
  have hRun : Run (Guarded (Step fun _ => 0x80300000) Allowed) ⟨initKernelHeap fun _ => 0, []⟩
      [.malloc 100] s := .snoc (.nil _) ⟨hExtendable, hStep⟩
  exact ⟨s, hRun, sound_of_extending_run hAnswer _ hRun⟩

/-- A request that the first free node cannot hold is cut from that node: the
block begins before the node, and the size of the node wraps. -/
theorem unsound_run :
    ∃ s, Run (Step fun _ => 0x80300000) ⟨initKernelHeap fun _ => 0, []⟩
      [.malloc 100, .malloc 8100] s ∧ ¬ Sound s := by
  let call (h : Heap) (bytes : Word) := kmalloc (fun _ => 0x80300000) 10 h bytes
  have hValues : ((call (initKernelHeap fun _ => 0) 100).bind fun r =>
      (call r.2 8100).map fun r' =>
        (r'.1, size r'.2.mem (r'.1 - 8), next r'.2.mem r'.2.head,
          size r'.2.mem (next r'.2.mem r'.2.head), r'.2.head)) =
      some (0x120000fc8, 8128, 0x120001000, -64, 0x120000000) := by
    decide +kernel
  simp only [Option.bind_eq_some_iff, Option.map_eq_some_iff, Prod.mk.injEq] at hValues
  obtain ⟨⟨ptr, h⟩, hCall, ⟨ptr', h'⟩, hCall', hPtr, hSize, hNode, hNodeSize, hHead⟩ := hValues
  simp only at hPtr hSize hNode hNodeSize hHead
  refine ⟨_, .snoc (.snoc (.nil _) (.malloc hCall)) (.malloc hCall'), fun hSound => ?_⟩
  have hLive : (⟨ptr', 8100⟩ : Block) ∈ hand ptr' 8100 (hand ptr 100 []) := by
    rw [hand, if_neg (by rw [hPtr]; decide)]
    exact List.mem_cons_self ..
  have hFree : FreeNode h'.mem h'.head (next h'.mem h'.head) :=
    .first (by rw [hNode, hHead]; decide)
  refine hSound.free _ hLive _ hFree 0x120001000 ?_ ?_
  · rw [InBlock, extentOf, hSize, hPtr]
    unfold InRange
    decide
  · rw [hNodeSize, hNode]
    unfold InRange
    decide

end Runs

end Kernel.Kmalloc
