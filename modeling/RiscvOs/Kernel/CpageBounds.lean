import RiscvOs.Kernel.CpageExact

/-! The bytes that a call of `cpage_znalloc` reaches: the bookkeeping bytes that
its loops read and write, and the pages that it zeroes. -/
namespace Kernel.Cpage

open Semantics

variable {h : Heap} {m : Memory} {n : Int} {first : Nat}

/-- The indices that the inner loop reads. -/
def innerReads (taken : Nat → Bool) (bkBytes numPages j cpageNum : Nat) : List Nat :=
  if j < bkBytes then
    if taken j then [j]
    else if numPages ≤ cpageNum + 1 then [j]
    else j :: innerReads taken bkBytes numPages j (cpageNum + 1)
  else []
termination_by numPages - cpageNum

/-- The indices that the loops of `cpage_znalloc` read, in their order. -/
def outerReads (taken : Nat → Bool) (bkBytes numPages i cpageNum : Nat) : List Nat :=
  if i < bkBytes then
    if taken i then i :: outerReads taken bkBytes numPages (i + 1) 0
    else
      match h : innerLoop taken bkBytes numPages (i + 1) i (cpageNum + 1) with
      | .found _ _ => i :: innerReads taken bkBytes numPages (i + 1) (cpageNum + 1)
      | .resume i' c' => i :: innerReads taken bkBytes numPages (i + 1) (cpageNum + 1) ++
          outerReads taken bkBytes numPages (i' + 1) c'
  else []
termination_by bkBytes - i
decreasing_by
  · omega
  · have := le_of_innerLoop_resume h
    omega

/-- The indices of the bookkeeping bytes that a call reads or writes: those of the
search, and those of the loop that marks the pages. -/
def accesses (h : Heap) (m : Memory) (n : Int) : List Nat :=
  if n ≤ 0 then []
  else
    outerReads (taken h m) h.pages n.toNat 0 0 ++
      match outerLoop (taken h m) h.pages n.toNat 0 0 with
      | none => []
      | some (i, cpageNum) => (List.range cpageNum).map (i + ·) ++ [i + cpageNum - 1]

/-- The number of bytes that a call zeroes. -/
def zeroed (h : Heap) (m : Memory) (n : Int) : Nat :=
  match outerLoop (taken h m) h.pages n.toNat 0 0 with
  | none => 0
  | some (_, cpageNum) => 4096 * cpageNum

/-- The pages of an answer are page aligned and lie behind the bookkeeping bytes
and in the heap, and only bookkeeping bytes were read and marked. -/
structure Inside (h : Heap) (m : Memory) (n : Int) : Prop where
  aligned : (cpageZnalloc h m n).1.toNat % 4096 = 0
  behind : h.start.toNat + h.bkRounded.toNat ≤ (cpageZnalloc h m n).1.toNat
  pages : (cpageZnalloc h m n).1.toNat + 4096 * n.toNat ≤ h.stop.toNat
  zeroed : (cpageZnalloc h m n).1.toNat + zeroed h m n ≤ h.stop.toNat
  accesses : ∀ k ∈ accesses h m n, k < h.pages

/-- The allocation behind the first pair ends within the heap, whose first pages
hold the bookkeeping bytes. -/
def RoomBehind (h : Heap) (m : Memory) (n : Int) : Prop :=
  0 < n → ∀ first, FirstPair (taken h m) h.pages first →
    h.bkRounded.toNat + 4096 * (firstPage n first + pageCount n) ≤ 4096 * h.pages

/-! ## The reads of the search -/

section Search

variable {taken : Nat → Bool} {bkBytes numPages : Nat}

theorem lt_of_mem_innerReads {j c k : Nat}
    (hMem : k ∈ innerReads taken bkBytes numPages j c) : k < bkBytes := by
  fun_induction innerReads taken bkBytes numPages j c with
  | case1 c hj hTaken => rwa [List.mem_singleton.mp hMem]
  | case2 c hj hFree hEnough => rwa [List.mem_singleton.mp hMem]
  | case3 c hj hFree hMore ih =>
      rcases List.mem_cons.mp hMem with rfl | hRest
      · exact hj
      · exact ih hRest
  | case4 c hj => exact absurd hMem List.not_mem_nil

/-- The search reads bookkeeping bytes only. -/
theorem lt_of_mem_outerReads {i c k : Nat}
    (hMem : k ∈ outerReads taken bkBytes numPages i c) : k < bkBytes := by
  fun_induction outerReads taken bkBytes numPages i c with
  | case1 i c hi hTaken ih =>
      rcases List.mem_cons.mp hMem with rfl | hRest
      · exact hi
      · exact ih hRest
  | case2 i c hi hFree i' c' hExit =>
      rcases List.mem_cons.mp hMem with rfl | hRest
      · exact hi
      · exact lt_of_mem_innerReads hRest
  | case3 i c hi hFree i' c' hExit ih =>
      rcases List.mem_append.mp hMem with hHere | hLater
      · rcases List.mem_cons.mp hHere with rfl | hRest
        · exact hi
        · exact lt_of_mem_innerReads hRest
      · exact ih hLater
  | case4 i c hi => exact absurd hMem List.not_mem_nil

end Search

/-! ## Answers in the heap -/

theorem stop_toNat (h : Heap) : h.stop.toNat = h.start.toNat + 4096 * h.pages := by
  have hStart := h.start_aligned
  have hStop := h.stop_aligned
  have hLe := h.start_le_stop
  have hPages : h.pages = (h.stop.toNat - h.start.toNat) / 4096 := bkBytes_toNat h
  omega

theorem outerLoop_first (hFirst : FirstPair (taken h m) h.pages first) :
    outerLoop (taken h m) h.pages n.toNat 0 0 = some (firstPage n first, pageCount n) :=
  outerLoop_of_firstPair hFirst

theorem zeroed_first (hFirst : FirstPair (taken h m) h.pages first) :
    zeroed h m n = 4096 * pageCount n := by
  rw [zeroed, outerLoop_first hFirst]

/-- The bytes that a call reads or writes are those of the search and the marked ones. -/
theorem lt_of_mem_accesses (hn : 0 < n) (hFirst : FirstPair (taken h m) h.pages first)
    (hFit : firstPage n first + pageCount n ≤ h.pages) {k : Nat} (hMem : k ∈ accesses h m n) :
    k < h.pages := by
  have hCount := two_le_pageCount n
  rw [accesses, if_neg (by omega), outerLoop_first hFirst] at hMem
  rcases List.mem_append.mp hMem with hSearch | hMark
  · exact lt_of_mem_outerReads hSearch
  rcases List.mem_append.mp hMark with hTaken | hLast
  · obtain ⟨j, hj, rfl⟩ := List.mem_map.mp hTaken
    have hLt := List.mem_range.mp hj
    omega
  · rw [List.mem_singleton.mp hLast]
    omega

theorem toNat_intWord_le (value : Nat) : (intWord value).toInt.toNat ≤ value := by
  rw [intWord, BitVec.toInt_signExtend_of_le (by decide), BitVec.toInt_eq_toNat_cond,
    BitVec.toNat_ofNat]
  split <;> omega

theorem markTaken_frame {i count : Nat} {x : Word}
    (hKept : ∀ j, j < count → x ≠ h.curByte (i + j : Nat)) : markTaken h m i count x = m x := by
  induction count with
  | zero => rfl
  | succ j ih =>
      rw [markTaken, setBit, Memory.store_of_ne _ _ (hKept j (Nat.lt_succ_self j))]
      exact ih fun l hl => hKept l (Nat.lt_succ_of_lt hl)

/-- A call writes no other byte than those it accesses and those it zeroes. -/
theorem cpageZnalloc_frame {x : Word} (hKept : ∀ k ∈ accesses h m n, x ≠ h.curByte k)
    (hOut : ¬ InRange (cpageZnalloc h m n).1 (zeroed h m n) x) :
    (cpageZnalloc h m n).2 x = m x := by
  rcases cpageZnalloc_cases h m n with hNull | ⟨hn, first, hFirst⟩
  · rw [hNull]
  rw [accesses, if_neg (by omega), outerLoop_first hFirst] at hKept
  rw [cpageZnalloc_of_first hn hFirst, zeroed_first hFirst] at hOut
  rw [cpageZnalloc_of_first hn hFirst]
  generalize firstPage n first = i at hKept hOut
  generalize pageCount n = count at hKept hOut
  have hSize := toNat_intWord_le (4096 * count)
  change memset _ (h.pageAddr i) 0 (intWord (4096 * count)) x = m x
  rw [memset_eq_fill, Memory.fill_outside _ _ fun hIn => hOut (lt_of_lt_of_le hIn hSize), setBit,
    Memory.store_of_ne]
  · refine markTaken_frame fun j hj => hKept _ (List.mem_append_right _ (List.mem_append_left _ ?_))
    exact List.mem_map.mpr ⟨j, List.mem_range.mpr hj, rfl⟩
  · exact hKept _ (List.mem_append_right _ (List.mem_append_right _ (List.mem_singleton_self _)))

theorem Inside.room (hInside : Inside h m n) (hDefined : Defined h m n) (hn : 0 < n)
    (hFirst : FirstPair (taken h m) h.pages first) :
    h.bkRounded.toNat + 4096 * (firstPage n first + pageCount n) ≤ 4096 * h.pages := by
  have hCount := two_le_pageCount n
  have hEnd := hInside.zeroed
  rw [cpageZnalloc_of_first hn hFirst, zeroed_first hFirst,
    (hDefined.addressable hn hFirst).toNat_pageAddr (by omega), stop_toNat] at hEnd
  omega

theorem Inside.of_room (hDefined : Defined h m n) (hn : 0 < n)
    (hFirst : FirstPair (taken h m) h.pages first)
    (hRoom : h.bkRounded.toNat + 4096 * (firstPage n first + pageCount n) ≤ 4096 * h.pages) :
    Inside h m n := by
  have hCount := two_le_pageCount n
  have hWanted : n.toNat ≤ pageCount n := Nat.le_max_right _ _
  have hRounded := bkRounded_toNat h
  have hStart := h.start_aligned
  have hAddr : (cpageZnalloc h m n).1.toNat =
      h.start.toNat + h.bkRounded.toNat + 4096 * firstPage n first := by
    rw [cpageZnalloc_of_first hn hFirst]
    exact (hDefined.addressable hn hFirst).toNat_pageAddr (by omega)
  refine ⟨?_, ?_, ?_, ?_, fun k hk => lt_of_mem_accesses hn hFirst (by omega) hk⟩
  · omega
  · omega
  · rw [hAddr, stop_toNat]
    omega
  · rw [hAddr, zeroed_first hFirst, stop_toNat]
    omega

/-- An answer lies in the heap if and only if the allocation ends there. -/
theorem inside_iff_room (h : Heap) (m : Memory) (n : Int) :
    (Defined h m n ∧ ((cpageZnalloc h m n).1 ≠ 0 → Inside h m n)) ↔
      Defined h m n ∧ RoomBehind h m n := by
  refine and_congr_right fun hDefined => ?_
  constructor
  · intro hInside hn first hFirst
    exact (hInside (hDefined.ne_zero hn hFirst)).room hDefined hn hFirst
  · intro hRoom hSome
    rcases cpageZnalloc_cases h m n with hNull | ⟨hn, first, hFirst⟩
    · rw [hNull] at hSome
      exact absurd rfl hSome
    · exact Inside.of_room hDefined hn hFirst (hRoom hn first hFirst)

/-- At boot a request of 28200 pages, half of the heap, is answered with pages
that end behind it. -/
theorem not_inside_half : ¬ ∀ (h : Heap) (m : Memory) (ops : List Op) (s : Use),
    Run (Step h) { mem := cpageInit h m, live := [] } ops s →
      ∀ n, Defined h s.mem n → (cpageZnalloc h s.mem n).1 ≠ 0 → Inside h s.mem n := by
  intro hClaim
  have hDefined : Defined ramHeap ramInit 28200 := defined_ramHeap ramInit_firstPair (by decide)
  have hInside : Inside ramHeap ramInit 28200 :=
    hClaim ramHeap (fun _ => 0) [] _ (.nil _) 28200 hDefined
      (hDefined.ne_zero (by decide) ramInit_firstPair)
  have hEnd := hInside.room hDefined (by decide) ramInit_firstPair
  have hPages := ramHeap_pages
  have hCount : pageCount 28200 = 28200 := by decide
  rw [firstPage, hCount] at hEnd
  omega

end Kernel.Cpage
