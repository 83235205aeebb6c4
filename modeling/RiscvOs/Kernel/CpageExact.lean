import RiscvOs.Kernel.CpageRuns

/-! Which requests `cpage_znalloc` answers with exactly the pages that were asked
for, whatever the bookkeeping bytes hold. -/
namespace Kernel.Cpage

open Semantics

variable {h : Heap} {m : Memory} {n : Int} {first i count : Nat}

/-- `cpage_num` of the allocation that answers a request. -/
def pageCount (n : Int) : Nat :=
  max 2 n.toNat

/-- The index `i` of that allocation, when the search stops at the pair `first`. -/
def firstPage (n : Int) (first : Nat) : Nat :=
  first + pageCount n - 2

/-- `PAGE_SIZE * i` and `PAGE_SIZE * cpage_num` fit an `int`, and the pages have
addresses. -/
structure Addressable (h : Heap) (i count : Nat) : Prop where
  offset : i < 2 ^ 19
  size : count < 2 ^ 19
  address : h.start.toNat + h.bkRounded.toNat + 4096 * (i + count) ≤ 2 ^ 64

/-- A call computes no `int` that overflows and no address out of range. -/
structure Defined (h : Heap) (m : Memory) (n : Int) : Prop where
  indices : h.pages < 2 ^ 31
  pages : 0 < n → ∀ first, FirstPair (taken h m) h.pages first →
    Addressable h (firstPage n first) (pageCount n)

/-- `n` consecutive pages with clear taken bits. -/
def FreeRun (taken : Nat → Bool) (bkBytes n i : Nat) : Prop :=
  i + n ≤ bkBytes ∧ ∀ k, i ≤ k → k < i + n → taken k = false

/-- A call has taken the `n` free pages from index `i` on and nothing else. -/
structure Granted (h : Heap) (m : Memory) (n i : Nat) (result : Word × Memory) : Prop where
  free : FreeRun (taken h m) h.pages n i
  pointer : result.1 = h.start + h.bkRounded + BitVec.ofNat 64 (4096 * i)
  taken : ∀ k, k < h.pages →
    Cpage.taken h result.2 k = (Cpage.taken h m k || (decide (i ≤ k) && decide (k < i + n)))
  last : ∀ k, i ≤ k → k < i + n → last h result.2 k = decide (k = i + n - 1)
  others : ∀ k, k < h.pages → ¬ (i ≤ k ∧ k < i + n) → Cpage.last h result.2 k = Cpage.last h m k
  zero : ∀ x, InRange result.1 (4096 * n) x → result.2 x = 0

/-- What a caller expects of `cpage_znalloc(n)`. -/
structure Exact (h : Heap) (m : Memory) (n : Int) : Prop where
  defined : Defined h m n
  null : (cpageZnalloc h m n).1 = 0 ↔ n ≤ 0 ∨ ∀ i, ¬ FreeRun (taken h m) h.pages n.toNat i
  granted : (cpageZnalloc h m n).1 ≠ 0 → ∃ i, Granted h m n.toNat i (cpageZnalloc h m n)

/-- The requests that are answered exactly: a request of one page when no page is
free, and one of more pages when the first pair of free pages is followed, after
`n - 2` pages, by `n` free pages. No last bit is set on these but for the last. -/
def Meets (h : Heap) (m : Memory) (n : Int) : Prop :=
  n ≤ 0 ∨ (n = 1 ∧ ∀ k, k < h.pages → taken h m k = true) ∨
    2 ≤ n ∧ ∀ first, FirstPair (taken h m) h.pages first →
      FreeRun (taken h m) h.pages n.toNat (firstPage n first) ∧
        ∀ k, k < n.toNat - 1 → last h m (firstPage n first + k) = false

/-! ## A call -/

theorem pageCount_of_two_le (hn : 2 ≤ n) : pageCount n = n.toNat := by
  unfold pageCount
  omega

theorem two_le_pageCount (n : Int) : 2 ≤ pageCount n := Nat.le_max_left _ _

/-- With a pair of free pages there is a first one. -/
theorem exists_firstPair {taken : Nat → Bool} {bkBytes k : Nat} (hPair : FreePair taken bkBytes k) :
    ∃ first, FirstPair taken bkBytes first := by
  classical
  have hSome : ∃ k, FreePair taken bkBytes k := ⟨k, hPair⟩
  exact ⟨Nat.find hSome, Nat.find_spec hSome, fun k hk => Nat.find_min hSome hk⟩

theorem FreeRun.pair {taken : Nat → Bool} {bkBytes n i : Nat} (hRun : FreeRun taken bkBytes n i)
    (hn : 2 ≤ n) : FreePair taken bkBytes i := by
  obtain ⟨hFit, hFree⟩ := hRun
  exact ⟨by omega, hFree i (by omega) (by omega), hFree (i + 1) (by omega) (by omega)⟩

/-- Without a pair of free pages the answer is `NULL`. -/
theorem cpageZnalloc_of_no_pair (hNone : ¬ ∃ first, FirstPair (taken h m) h.pages first) :
    cpageZnalloc h m n = (0, m) := by
  rcases cpageZnalloc_cases h m n with hNull | ⟨-, hPair⟩
  · exact hNull
  · exact absurd hPair hNone

theorem cpageZnalloc_of_first (hn : 0 < n) (hFirst : FirstPair (taken h m) h.pages first) :
    cpageZnalloc h m n = (h.pageAddr (firstPage n first),
      allocated h m (firstPage n first) (pageCount n)) :=
  cpageZnalloc_of_firstPair h m hn hFirst

/-- The bookkeeping bytes of a heap with pages fill a page. -/
theorem le_bkRounded (hPages : 0 < h.pages) :
    4096 ≤ h.bkRounded.toNat ∧ h.pages ≤ h.bkRounded.toNat := by
  have hRounded := bkRounded_toNat h
  omega

namespace Addressable

theorem toNat_pageAddr (hFit : Addressable h i count) (hCount : 0 < count) :
    (h.pageAddr i).toNat = h.start.toNat + h.bkRounded.toNat + 4096 * i := by
  have hOffset := hFit.offset
  have hAddress := hFit.address
  rw [pageAddr_of_lt h hOffset]
  bv_omega

theorem pageAddr_ne_zero (hFit : Addressable h i count) (hCount : 0 < count)
    (hPages : 0 < h.pages) : h.pageAddr i ≠ 0 := by
  intro hZero
  have hAddr := hFit.toNat_pageAddr hCount
  have hRounded := (le_bkRounded hPages).1
  rw [hZero] at hAddr
  change 0 = _ at hAddr
  omega

/-- The index of a page is read off its address. -/
theorem index_eq (hFit : Addressable h i count) {j : Nat} (hj : j < 2 ^ 52)
    (hAddr : h.pageAddr i = h.start + h.bkRounded + BitVec.ofNat 64 (4096 * j)) : i = j := by
  have hOffset := hFit.offset
  rw [pageAddr_of_lt h hOffset] at hAddr
  bv_omega

theorem zero (hFit : Addressable h i count) {x : Word}
    (hx : InRange (h.pageAddr i) (4096 * count) x) : allocated h m i count x = 0 := by
  have hBound := hFit.size
  have hSize : (intWord (4096 * count)).toInt.toNat = 4096 * count := by
    rw [intWord_of_lt (by omega), BitVec.toInt_eq_toNat_of_lt]
    · rw [Int.toNat_natCast, BitVec.toNat_ofNat, Nat.mod_eq_of_lt (by omega)]
    · rw [BitVec.toNat_ofNat, Nat.mod_eq_of_lt (by omega)]
      omega
  rw [allocated, memset_eq_fill, hSize]
  exact Memory.fill_inside _ _ hx

end Addressable

/-- The pages of a pair are pages of the heap. -/
theorem FirstPair.pages_pos {taken : Nat → Bool} {bkBytes : Nat}
    (hFirst : FirstPair taken bkBytes first) : 0 < bkBytes :=
  Nat.zero_lt_of_lt hFirst.1.1

theorem Defined.addressable (hDefined : Defined h m n) (hn : 0 < n)
    (hFirst : FirstPair (taken h m) h.pages first) :
    Addressable h (firstPage n first) (pageCount n) :=
  hDefined.pages hn first hFirst

theorem Defined.ne_zero (hDefined : Defined h m n) (hn : 0 < n)
    (hFirst : FirstPair (taken h m) h.pages first) : (cpageZnalloc h m n).1 ≠ 0 := by
  have hCount := two_le_pageCount n
  rw [cpageZnalloc_of_first hn hFirst]
  exact (hDefined.addressable hn hFirst).pageAddr_ne_zero (by omega) hFirst.pages_pos

/-! ## Exact answers -/

/-- A call that takes nothing is exact if no run is free. -/
theorem exact_of_none (hDefined : Defined h m n) (hNull : cpageZnalloc h m n = (0, m))
    (hNone : n ≤ 0 ∨ ∀ i, ¬ FreeRun (taken h m) h.pages n.toNat i) : Exact h m n := by
  refine ⟨hDefined, iff_of_true (by rw [hNull]) hNone, fun hSome => ?_⟩
  rw [hNull] at hSome
  exact absurd rfl hSome

/-- The allocation behind the first pair, when its pages are free. -/
theorem granted_of_first (hDefined : Defined h m n) (hn : 2 ≤ n)
    (hFirst : FirstPair (taken h m) h.pages first)
    (hFree : FreeRun (taken h m) h.pages n.toNat (firstPage n first))
    (hLast : ∀ k, k < n.toNat - 1 → last h m (firstPage n first + k) = false) :
    Granted h m n.toNat (firstPage n first) (cpageZnalloc h m n) := by
  have hPositive : 0 < n := by omega
  have hCount := pageCount_of_two_le hn
  have hSpot := hDefined.addressable hPositive hFirst
  have hFit := hFree.1
  rw [hCount] at hSpot
  rw [cpageZnalloc_of_first hPositive hFirst, hCount]
  generalize firstPage n first = i at hFree hLast hSpot hFit
  refine ⟨hFree, pageAddr_of_lt h hSpot.offset, fun k hk => ?_, fun k hLow hHigh => ?_,
    fun k hk hOut => ?_, fun x hx => hSpot.zero hx⟩
  · exact taken_allocated h m hSpot.offset hFit hk
  · change last h (allocated h m i n.toNat) k = _
    rw [last_allocated h m hSpot.offset hFit (by omega)]
    by_cases hEnd : k = i + n.toNat - 1
    · simp [hEnd]
    · have hClear := hLast (k - i) (by omega)
      rw [Nat.add_sub_cancel' hLow] at hClear
      have hOther : (i + n.toNat - 1 == k) = false := beq_eq_false_iff_ne.mpr (Ne.symm hEnd)
      rw [hClear, hOther, decide_eq_false hEnd]
      rfl
  · change last h (allocated h m i n.toNat) k = _
    have hOther : (i + n.toNat - 1 == k) = false := beq_eq_false_iff_ne.mpr (by omega)
    rw [last_allocated h m hSpot.offset hFit hk, hOther, Bool.or_false]

theorem Exact.of_meets (hDefined : Defined h m n) (hMeets : Meets h m n) : Exact h m n := by
  rcases hMeets with hNone | ⟨rfl, hTaken⟩ | ⟨hn, hRuns⟩
  · exact exact_of_none hDefined (by rw [cpageZnalloc, if_pos hNone]) (.inl hNone)
  · have hNoPair : ¬ ∃ first, FirstPair (taken h m) h.pages first := by
      rintro ⟨first, ⟨hFit, hFree, -⟩, -⟩
      rw [hTaken first (by omega)] at hFree
      cases hFree
    refine exact_of_none hDefined (cpageZnalloc_of_no_pair hNoPair) (.inr fun i hRun => ?_)
    have hFree := hRun.2 i (le_refl i) (Nat.lt_succ_self i)
    rw [hTaken i hRun.1] at hFree
    cases hFree
  · by_cases hPair : ∃ first, FirstPair (taken h m) h.pages first
    · obtain ⟨first, hFirst⟩ := hPair
      obtain ⟨hFree, hLast⟩ := hRuns first hFirst
      have hSome := hDefined.ne_zero (by omega) hFirst
      refine ⟨hDefined, iff_of_false hSome ?_, fun _ =>
        ⟨firstPage n first, granted_of_first hDefined hn hFirst hFree hLast⟩⟩
      rintro (hNone | hNone)
      · omega
      · exact hNone _ hFree
    · refine exact_of_none hDefined (cpageZnalloc_of_no_pair hPair) (.inr fun i hRun => hPair ?_)
      exact exists_firstPair (hRun.pair (by omega))

/-- The index of the run that an exact call takes. -/
theorem Granted.index_eq (hGranted : Granted h m n.toNat i (cpageZnalloc h m n))
    (hDefined : Defined h m n) (hn : 0 < n)
    (hFirst : FirstPair (Cpage.taken h m) h.pages first) : firstPage n first = i := by
  have hPages := pages_le h
  have hPointer := hGranted.pointer
  have hFit := hGranted.free.1
  rw [cpageZnalloc_of_first hn hFirst] at hPointer
  exact (hDefined.addressable hn hFirst).index_eq (by omega) hPointer

/-- One page is never taken alone: two are marked. -/
theorem Exact.no_free_page (hExact : Exact h m 1) {k : Nat} (hk : k < h.pages) :
    taken h m k = true := by
  by_contra hClear
  have hFree : taken h m k = false := Bool.eq_false_iff.mpr hClear
  by_cases hPair : ∃ first, FirstPair (taken h m) h.pages first
  · obtain ⟨first, hFirst⟩ := hPair
    obtain ⟨i, hGranted⟩ := hExact.granted (hExact.defined.ne_zero (by decide) hFirst)
    have hIndex : first = i := hGranted.index_eq hExact.defined (by decide) hFirst
    have hOffset : first < 2 ^ 19 := (hExact.defined.addressable (by decide) hFirst).offset
    have hFit := hFirst.1.1
    have hBit := hGranted.taken (first + 1) hFit
    rw [cpageZnalloc_of_first (by decide) hFirst, ← hIndex, hFirst.1.2.2] at hBit
    change Cpage.taken h (allocated h m first 2) (first + 1) = _ at hBit
    rw [taken_allocated h m hOffset (by omega) hFit] at hBit
    simp at hBit
  · have hNull : (cpageZnalloc h m 1).1 = 0 := by rw [cpageZnalloc_of_no_pair hPair]
    rcases hExact.null.mp hNull with hNone | hNone
    · cases hNone
    · refine hNone k ⟨hk, fun l hLow hHigh => ?_⟩
      have hSame : l = k := by
        change l < k + 1 at hHigh
        omega
      rw [hSame]
      exact hFree

theorem Exact.meets (hExact : Exact h m n) : Meets h m n := by
  by_cases hNone : n ≤ 0
  · exact .inl hNone
  by_cases hOne : n = 1
  · subst hOne
    exact .inr (.inl ⟨rfl, fun k hk => hExact.no_free_page hk⟩)
  refine .inr (.inr ⟨by omega, fun first hFirst => ?_⟩)
  have hPositive : 0 < n := by omega
  obtain ⟨i, hGranted⟩ := hExact.granted (hExact.defined.ne_zero hPositive hFirst)
  have hSpot := hExact.defined.addressable hPositive hFirst
  have hCount : pageCount n = n.toNat := pageCount_of_two_le (by omega)
  rw [hGranted.index_eq hExact.defined hPositive hFirst] at hSpot ⊢
  refine ⟨hGranted.free, fun k hk => ?_⟩
  have hFit := hGranted.free.1
  have hBit := hGranted.last (i + k) (by omega) (by omega)
  rw [cpageZnalloc_of_first hPositive hFirst, hGranted.index_eq hExact.defined hPositive hFirst,
    hCount, decide_eq_false (by omega)] at hBit
  change last h (allocated h m i n.toNat) (i + k) = false at hBit
  rw [last_allocated h m hSpot.offset hFit (by omega)] at hBit
  exact (Bool.or_eq_false_iff.mp hBit).1

/-- A request is answered exactly if nothing overflows and the pages behind the
first pair are free. -/
theorem exact_iff_meets (h : Heap) (m : Memory) (n : Int) :
    Exact h m n ↔ Defined h m n ∧ Meets h m n := by
  constructor
  · intro hExact
    exact ⟨hExact.defined, hExact.meets⟩
  · rintro ⟨hDefined, hMeets⟩
    exact Exact.of_meets hDefined hMeets

/-- The first request after `cpage_init` is answered exactly if it is for two or more
pages, and there is room for `n - 2` pages in front of them. -/
theorem exact_cpageInit (m : Memory) (hn : 2 ≤ n) (hIndices : h.pages < 2 ^ 31)
    (hFit : n.toNat - 2 + n.toNat ≤ h.pages) (hPages : Addressable h (n.toNat - 2) n.toNat) :
    Exact h (cpageInit h m) n := by
  have hFirst : FirstPair (taken h (cpageInit h m)) h.pages 0 :=
    ⟨⟨by omega, taken_cpageInit h m (by omega), taken_cpageInit h m (by omega)⟩, nofun⟩
  have hCount := pageCount_of_two_le hn
  have hPage : firstPage n 0 = n.toNat - 2 := by
    rw [firstPage, hCount, Nat.zero_add]
  refine Exact.of_meets ⟨hIndices, fun _ first hOther => ?_⟩
    (.inr (.inr ⟨hn, fun first hOther => ?_⟩))
  · rw [hOther.unique hFirst, hPage, hCount]
    exact hPages
  · rw [hOther.unique hFirst, hPage]
    exact ⟨⟨hFit, fun k _ hk => taken_cpageInit h m (by omega)⟩,
      fun k hk => last_cpageInit h m (by omega)⟩

/-- While the first two pages are free every request below 2 GiB is defined. -/
theorem defined_ramHeap (hPair : FirstPair (taken ramHeap m) ramHeap.pages 0) (hn : n < 2 ^ 19) :
    Defined ramHeap m n := by
  refine ⟨by rw [ramHeap_pages]; decide, fun hPositive first hFirst => ?_⟩
  obtain rfl := hFirst.unique hPair
  have hStart : ramHeap.start.toNat = 0x80060000 := by decide
  have hRounded : ramHeap.bkRounded.toNat = 57344 := by decide
  have hCount : pageCount n < 2 ^ 19 := by
    unfold pageCount
    omega
  have hTwo := two_le_pageCount n
  refine ⟨?_, hCount, ?_⟩
  · unfold firstPage
    omega
  · rw [hStart, hRounded]
    unfold firstPage
    omega

/-- The first request of one page takes two. -/
theorem not_exact_one : ¬ ∀ (h : Heap) (m : Memory) (ops : List Op) (s : Use),
    Run (Step h) { mem := cpageInit h m, live := [] } ops s →
      ∀ n, Defined h s.mem n → Exact h s.mem n := by
  intro hClaim
  have hExact : Exact ramHeap ramInit 1 :=
    hClaim ramHeap (fun _ => 0) [] _ (.nil _) 1 (defined_ramHeap ramInit_firstPair (by decide))
  have hTaken := hExact.no_free_page (k := 0) (by rw [ramHeap_pages]; decide)
  have hClear : taken ramHeap ramInit 0 = false :=
    taken_cpageInit ramHeap _ (by rw [ramHeap_pages]; decide)
  rw [hClear] at hTaken
  cases hTaken

end Kernel.Cpage
