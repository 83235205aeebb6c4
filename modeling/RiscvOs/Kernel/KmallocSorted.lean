import RiscvOs.Kernel.KmallocRuns

/-! `kfree` on a free list in ascending order of its addresses: the block goes
to its place, and `coalesce_free_list` joins it with both neighbours. -/
namespace Kernel.Kmalloc

open Semantics Extent

/-- A circular free list behind the head, in ascending order: each node starts
with its size, has room for an `flist`, and shares no byte with another node or
with the head. -/
structure SortedList (m : Memory) (head : Word) (free : List Extent) : Prop where
  ring : Ring (next m) (prev m) head (free.map Prod.fst)
  head_size : size m head = 0
  sizes : ∀ e ∈ free, size m e.1 = e.2
  within : ∀ e ∈ free, Within (head.toNat + 24) (2 ^ 64) 24 e
  disjoint : free.Pairwise Extent.Disjoint
  sorted : Sorted free

theorem Holds.sortedList {m : Memory} {head : Word} {free held : List Extent}
    (h : Holds m head (2 ^ 64) free held) (hSorted : Sorted free) : SortedList m head free where
  ring := h.ring
  head_size := h.head_size
  sizes e he := h.sizes e (List.mem_append_left _ he)
  within e he := h.separate.within e (List.mem_append_left _ he)
  disjoint := (List.pairwise_append.mp h.separate.disjoint).1
  sorted := hSorted

/-- A live block beside the list. -/
theorem SortedList.holds {m : Memory} {head : Word} {free : List Extent} {e : Extent}
    (h : SortedList m head free) (hSize : size m e.1 = e.2)
    (hWithin : Within (head.toNat + 24) (2 ^ 64) 24 e) (hDisjoint : ∀ f ∈ free, Disjoint e f) :
    Holds m head (2 ^ 64) free [e] := by
  have hSeparate : Separate (head.toNat + 24) (2 ^ 64) 24 (e :: free) :=
    Separate.cons ⟨h.within, h.disjoint⟩ hWithin hDisjoint
  refine ⟨h.ring, h.head_size, fun f hf => ?_, ?_, Nat.le_refl _⟩
  · rcases List.mem_append.mp hf with hf | hf
    · exact h.sizes f hf
    · rw [List.mem_singleton.mp hf, hSize]
  · exact hSeparate.perm (List.perm_append_singleton e free).symm

section Place

variable {m : Memory} {head : Word} {hi : Nat} {xs ys zs held : List Extent}

/-- The search of `kfree` passes the nodes above the block. -/
theorem Holds.placeLoop_sorted (h : Holds m head hi (xs ++ ys ++ zs) held) {ptr : Word}
    (hBelow : ∀ f ∈ xs, f.1 < ptr) (hAbove : ∀ f ∈ ys, ptr < f.1) {fuel : Nat}
    (hFuel : ys.length < fuel) :
    placeLoop m head ptr (((xs ++ ys).map Prod.fst).getLastD head) fuel =
      some ((xs.map Prod.fst).getLastD head) := by
  induction ys using List.reverseRecOn generalizing zs fuel with
  | nil =>
      cases fuel with
      | zero => simp at hFuel
      | succ fuel =>
          rw [List.append_nil, placeLoop, if_pos]
          cases hLast : xs.getLast? with
          | none =>
              rw [List.getLast?_eq_none_iff.mp hLast]
              simp
          | some f =>
              have hMap : (xs.map Prod.fst).getLastD head = f.1 := by
                rw [List.getLastD_eq_getLast?, List.getLast?_map, hLast]
                rfl
              rw [hMap]
              simp [hBelow f (List.mem_of_getLast? hLast)]
  | append_singleton ys f ih =>
      cases fuel with
      | zero => simp at hFuel
      | succ fuel =>
          have hSplit : Holds m head hi (xs ++ ys ++ f :: zs) held := by simpa using h
          have hPrev : prev m f.1 = ((xs ++ ys).map Prod.fst).getLastD head := hSplit.links.2
          have hHead : f.1 ≠ head := hSplit.ne_head (by simp)
          have hStay : ¬ f.1 < ptr := BitVec.not_lt.mpr
            (BitVec.le_of_lt (hAbove f (List.mem_append_right _ (List.mem_singleton_self f))))
          rw [← List.append_assoc, List.map_append, List.map_singleton, List.getLastD_concat,
            placeLoop, if_neg (by simp [hHead, hStay]), hPrev]
          exact ih hSplit (fun g hg => hAbove g (List.mem_append_left _ hg)) (by simpa using hFuel)

end Place

/-- `kfree` of a live block ends with a sorted list that has no neighbours left
to merge and covers the bytes of the block too. -/
theorem kfree_sorted {h : Heap} {free : List Extent} {e : Extent}
    (hList : SortedList h.mem h.head free) (hSize : size h.mem e.1 = e.2)
    (hWithin : Within (h.head.toNat + 24) (2 ^ 64) 24 e) (hDisjoint : ∀ f ∈ free, Disjoint e f) :
    ∃ least h' free', (∀ fuel, least ≤ fuel → kfree fuel h (e.1 + 8) = some h') ∧
      h'.head = h.head ∧ SortedList h'.mem h.head free' ∧ Gaps free' ∧
      ∀ x, Covered free' x ↔ Covered free x ∨ InRange e.1 e.2.toNat x := by
  have hHolds := hList.holds hSize hWithin hDisjoint
  obtain ⟨hLeast, hLo, hHi⟩ := hWithin
  have hNew (f : Extent) (hf : f ∈ free) : f.1 ≠ e.1 := fun hEq => by
    have hApart := hDisjoint f hf
    have hRoom := (hList.within f hf).least_le
    unfold Extent.Disjoint at hApart
    rw [hEq] at hApart
    omega
  obtain ⟨xs, ys, rfl, hXs, hYs⟩ := hList.sorted.split hNew
  have hSorted := hList.sorted.insert hXs hYs
  have hAppended := hHolds.append_spec
  have hPrev : prev h.mem h.head = ((xs ++ ys).map Prod.fst).getLastD h.head := hHolds.ring.last
  have hPlace (fuel : Nat) (hFuel : ys.length < fuel) := by
    have hEnd : Holds h.mem h.head (2 ^ 64) (xs ++ ys ++ []) [e] := by
      rwa [List.append_nil]
    exact hEnd.placeLoop_sorted hXs hYs hFuel
  rw [← hPrev] at hPlace
  obtain ⟨m', hCoalesce, hMerged⟩ := hAppended.coalesce_spec (Nat.lt_succ_self _)
  refine ⟨(xs ++ e :: ys).length + 1, { h with mem := m' }, mergeAll (xs ++ e :: ys),
    fun fuel hFuel => ?_, rfl, hMerged.sortedList (sorted_mergeAll hSorted), gaps_mergeAll _,
    fun x => ?_⟩
  · have hLength : ys.length < fuel := by
      simp only [List.length_append, List.length_cons] at hFuel
      omega
    exact kfree_of_place hSize hLeast hHi (hPlace fuel hLength)
      (coalesceLoop_mono hFuel hCoalesce)
  · have hSeparate := hAppended.separate
    rw [List.append_nil] at hSeparate
    rw [covered_mergeAll hSeparate (Nat.succ_pos _) (by decide) (Nat.le_refl _),
      covered_perm List.perm_middle, covered_cons, or_comm]

/-- The block lies behind the only node of the list and touches it. -/
theorem kfree_sorted_touching :
    let node : Extent := (0x120000100, 64)
    let block : Extent := (0x120000140, 32)
    let h := initKernelHeap fun _ => 0
    let m := setSize (nodeAppend (setSize h.mem node.1 node.2) h.head node.1) block.1 block.2
    ∃ least h' free', (∀ fuel, least ≤ fuel → kfree fuel { h with mem := m } (block.1 + 8) = some h') ∧
      h'.head = h.head ∧ SortedList h'.mem h.head free' ∧ Gaps free' ∧
      ∀ x, Covered free' x ↔ Covered [node] x ∨ InRange block.1 block.2.toNat x := by
  intro node block h m
  have hFields : (next m h.head, next m node.1, prev m h.head, prev m node.1, size m h.head,
      size m node.1, size m block.1) = (node.1, h.head, node.1, h.head, 0, node.2, block.2) := by
    decide +kernel
  simp only [Prod.mk.injEq] at hFields
  obtain ⟨hNext, hNext', hPrev, hPrev', hHead, hNode, hBlock⟩ := hFields
  have hList : SortedList m h.head [node] := by
    refine ⟨⟨?_, by decide⟩, hHead, by simpa using hNode, ?_, List.pairwise_singleton _ _,
      List.pairwise_singleton _ _⟩
    · simp [ringLinks, hNext, hNext', hPrev, hPrev']
    · intro e he
      obtain rfl := List.mem_singleton.mp he
      exact ⟨by decide, by decide, by decide⟩
  refine kfree_sorted (h := { h with mem := m }) hList hBlock ⟨by decide, by decide, by decide⟩ ?_
  intro f hf
  obtain rfl := List.mem_singleton.mp hf
  exact .inr (by decide)

end Kernel.Kmalloc
