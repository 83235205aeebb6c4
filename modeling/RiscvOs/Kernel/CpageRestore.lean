import RiscvOs.Kernel.CpageBounds

/-! When `cpage_free` undoes the `cpage_znalloc` right before it. -/
namespace Kernel.Cpage

open Semantics

variable {h : Heap} {m m' m'' : Memory} {n : Int} {first i count k l : Nat}

/-- `cpage_free` of the answer leaves every bookkeeping byte as it was before the
allocation. -/
def Restored (h : Heap) (m : Memory) (n : Int) : Prop :=
  ∃ m', cpageFree h (cpageZnalloc h m n).2 (cpageZnalloc h m n).1 = some m' ∧
    ∀ k, k < h.pages → m' (h.curByte k) = m (h.curByte k)

/-- The bookkeeping bytes of the pages have both bits clear. -/
def AllClear (h : Heap) (m : Memory) (i count : Nat) : Prop :=
  ∀ k, i ≤ k → k < i + count → k < h.pages → taken h m k = false ∧ last h m k = false

/-- The pages have their taken bits set, and the last one its last bit. -/
def AllMarked (h : Heap) (m : Memory) (i count : Nat) : Prop :=
  (∀ k, i ≤ k → k < i + count → k < h.pages → taken h m k = true) ∧
    (i + count - 1 < h.pages → last h m (i + count - 1) = true)

/-- The pages behind the first pair are free, or they start behind the heap, where
`cpage_free` ignores them, and the allocation marked nothing new. -/
def Undoable (h : Heap) (m : Memory) (n : Int) : Prop :=
  0 < n → ∀ first, FirstPair (taken h m) h.pages first →
    (h.bkRounded.toNat + 4096 * firstPage n first ≤ 4096 * h.pages ∧
        AllClear h m (firstPage n first) (pageCount n)) ∨
      (4096 * h.pages < h.bkRounded.toNat + 4096 * firstPage n first ∧
        AllMarked h m (firstPage n first) (pageCount n))

/-! ## Bits that belong to other pages -/

/-- The bits of a bookkeeping byte that are neither its taken nor its last bit are
the same. -/
def SameRest (h : Heap) (m m' : Memory) (l : Nat) : Prop :=
  ∀ pos, pos ≠ takenPos l → pos ≠ lastPos l → testBit h m' l pos = testBit h m l pos

theorem SameRest.trans (hFirst : SameRest h m m' l) (hSecond : SameRest h m' m'' l) :
    SameRest h m m'' l := by
  intro pos hTaken hLast
  exact (hSecond pos hTaken hLast).trans (hFirst pos hTaken hLast)

/-- The position of the taken or the last bit of a page. -/
theorem pos_lt {pos : Nat} (hPos : pos = takenPos k ∨ pos = lastPos k) : pos < 8 := by
  rw [takenPos_natCast, lastPos_natCast] at hPos
  omega

/-- It is no other position of the same byte. -/
theorem pos_ne {pos pos' : Nat} (hPos : pos = takenPos k ∨ pos = lastPos k)
    (hTaken : pos' ≠ takenPos l) (hLast : pos' ≠ lastPos l) : (k == l && pos == pos') = false := by
  by_cases hPage : k = l
  · subst hPage
    have hOther : pos ≠ pos' := by
      rintro rfl
      exact hPos.elim hTaken hLast
    rw [beq_eq_false_iff_ne.mpr hOther, Bool.and_false]
  · rw [beq_eq_false_iff_ne.mpr hPage, Bool.false_and]

theorem SameRest.setBit (hk : k < 2 ^ 64) (hl : l < 2 ^ 64) {pos : Nat}
    (hPos : pos = takenPos k ∨ pos = lastPos k) : SameRest h m (setBit h m k pos) l := by
  intro pos' hTaken hLast
  rw [testBit_setBit h m k l pos pos' hk hl (pos_lt hPos), pos_ne hPos hTaken hLast, Bool.or_false]

theorem SameRest.clearBit (hk : k < 2 ^ 64) (hl : l < 2 ^ 64) {pos : Nat}
    (hPos : pos = takenPos k ∨ pos = lastPos k) : SameRest h m (clearBit h m k pos) l := by
  intro pos' hTaken hLast
  rw [testBit_clearBit h m k l pos pos' hk hl (pos_lt hPos), pos_ne hPos hTaken hLast,
    Bool.not_false, Bool.and_true]

theorem SameRest.markTaken (hEnd : i + count ≤ 2 ^ 64) (hl : l < 2 ^ 64) :
    SameRest h m (markTaken h m i count) l := by
  induction count with
  | zero => exact fun _ _ _ => rfl
  | succ j ih => exact (ih (by omega)).trans (SameRest.setBit (by omega) hl (.inl rfl))

theorem SameRest.allocated (hi : i < 2 ^ 19) (hEnd : i + count ≤ 2 ^ 64)
    (hl : l < h.bkRounded.toNat + 4096 * i) : SameRest h m (allocated h m i count) l := by
  have hPages := pages_le h
  have hRounded := bkRounded_toNat h
  have hMarked : SameRest h m (Cpage.setBit h (Cpage.markTaken h m i count)
      (i + count - 1 : Nat) (lastPos (i + count - 1 : Nat))) l :=
    (SameRest.markTaken hEnd (by omega)).trans (SameRest.setBit (by omega) (by omega) (.inr rfl))
  intro pos hTaken hLast
  rw [← hMarked pos hTaken hLast, testBit_eq, testBit_eq, Cpage.allocated,
    memset_pages_below h _ count hi hl]

/-- The walk of `cpage_free` clears taken and last bits only. -/
theorem SameRest.freeLoop {fuel : Nat} (hEnd : k + fuel ≤ 2 ^ 64) (hl : l < 2 ^ 64)
    (hWalk : freeLoop h m k fuel = some m') : SameRest h m m' l := by
  induction fuel generalizing m k with
  | zero => cases hWalk
  | succ fuel ih =>
      have hCleared : SameRest h m (Cpage.clearBit h (Cpage.clearBit h m k (takenPos k)) k
          (lastPos k)) l :=
        (SameRest.clearBit (by omega) hl (.inl rfl)).trans
          (SameRest.clearBit (by omega) hl (.inr rfl))
      rw [Cpage.freeLoop] at hWalk
      split at hWalk
      · cases hWalk
        exact hCleared
      · exact hCleared.trans (ih (k := k + 1) (by omega) hWalk)

/-- A bookkeeping byte is the same when all its bits are. -/
theorem SameRest.byte_eq_iff (hRest : SameRest h m m' l) :
    m' (h.curByte l) = m (h.curByte l) ↔ taken h m' l = taken h m l ∧ last h m' l = last h m l := by
  constructor
  · intro hSame
    exact ⟨taken_congr h hSame, last_congr h hSame⟩
  · rintro ⟨hTaken, hLast⟩
    apply BitVec.eq_of_getLsbD_eq
    intro pos hPos
    rw [← testBit_eq, ← testBit_eq]
    by_cases hTakenPos : pos = takenPos l
    · rw [hTakenPos]
      exact hTaken
    by_cases hLastPos : pos = lastPos l
    · rw [hLastPos]
      exact hLast
    exact hRest pos hTakenPos hLastPos

/-! ## The walk after an allocation -/

/-- What the walk from the first page of an allocation does: it ends at the first
last bit, at the latest on the last page of the allocation. -/
structure Walk (h : Heap) (m : Memory) (i count d : Nat) (m' : Memory) : Prop where
  within : d < count
  stops : last h (allocated h m i count) (i + d) = true
  taken : ∀ l, l < h.pages → Cpage.taken h m' l =
    (Cpage.taken h (allocated h m i count) l && !(decide (i ≤ l) && decide (l ≤ i + d)))
  last : ∀ l, l < h.pages → Cpage.last h m' l =
    (Cpage.last h (allocated h m i count) l && !(decide (i ≤ l) && decide (l ≤ i + d)))
  rest : ∀ l, l < h.pages → SameRest h m m' l

theorem exists_walk (hFit : Addressable h i count) (hCount : 0 < count)
    (hMarked : i + count ≤ h.bkRounded.toNat + 4096 * i) :
    ∃ d m', freeLoop h (allocated h m i count) i (2 ^ 31 - (i : Int)).toNat = some m' ∧
      Walk h m i count d m' := by
  classical
  have hOffset := hFit.offset
  have hSize := hFit.size
  have hPages := pages_le h
  have hRounded := bkRounded_toNat h
  have hEnd : last h (allocated h m i count) (i + (count - 1)) = true := by
    have hSame : (i + count - 1 == i + (count - 1)) = true := by
      rw [beq_iff_eq]
      omega
    rw [last_allocated_below h m hOffset (by omega) (by omega), hSame, Bool.or_true]
  have hSome : ∃ d, last h (allocated h m i count) (i + d) = true := ⟨count - 1, hEnd⟩
  have hWithin : Nat.find hSome ≤ count - 1 := Nat.find_le hEnd
  obtain ⟨m', hWalk, hBits⟩ := freeLoop_spec h (allocated h m i count) i (Nat.find hSome)
    (2 ^ 31 - (i : Int)).toNat (by omega) (by omega) (Nat.find_spec hSome)
    (fun k hk => Bool.eq_false_iff.mpr (Nat.find_min hSome hk))
  refine ⟨Nat.find hSome, m', hWalk, by omega, Nat.find_spec hSome,
    fun l hl => (hBits l (by omega)).1, fun l hl => (hBits l (by omega)).2, fun l hl => ?_⟩
  exact (SameRest.allocated hOffset (by omega) (by omega)).trans
    (SameRest.freeLoop (by omega) (by omega) hWalk)

namespace Walk

variable {d : Nat}

/-- A last bit that stops the walk early was there before the allocation. -/
theorem early (hWalk : Walk h m i count d m') (hFit : Addressable h i count)
    (hStop : i + d < h.pages) (hEarly : d < count - 1) : Cpage.last h m (i + d) = true := by
  have hOffset := hFit.offset
  have hSize := hFit.size
  have hRounded := bkRounded_toNat h
  have hStops := hWalk.stops
  have hOther : (i + count - 1 == i + d) = false := beq_eq_false_iff_ne.mpr (by omega)
  rwa [last_allocated_below h m hOffset (by omega) (by omega), hOther, Bool.or_false] at hStops

/-- The walk restores the bytes only if the pages had been clear. -/
theorem allClear (hWalk : Walk h m i count d m') (hFit : Addressable h i count)
    (hSame : ∀ k, k < h.pages → m' (h.curByte k) = m (h.curByte k)) : AllClear h m i count := by
  have hCleared (k : Nat) (hk : k < h.pages) (hLow : i ≤ k) (hHigh : k ≤ i + d) :
      Cpage.taken h m k = false ∧ Cpage.last h m k = false := by
    have hTaken := hWalk.taken k hk
    have hLast := hWalk.last k hk
    rw [taken_congr h (hSame k hk), decide_eq_true hLow, decide_eq_true hHigh, Bool.and_self,
      Bool.not_true, Bool.and_false] at hTaken
    rw [last_congr h (hSame k hk), decide_eq_true hLow, decide_eq_true hHigh, Bool.and_self,
      Bool.not_true, Bool.and_false] at hLast
    exact ⟨hTaken, hLast⟩
  intro k hLow hHigh hk
  by_cases hReached : k ≤ i + d
  · exact hCleared k hk hLow hReached
  · -- The walk has stopped at a last bit of its own, which it clears.
    have hEarly := hWalk.early hFit (by omega) (by omega)
    rw [(hCleared (i + d) (by omega) (by omega) (le_refl _)).2] at hEarly
    cases hEarly

/-- From clear pages the walk clears what the allocation has marked. -/
theorem restored (hWalk : Walk h m i count d m') (hFit : Addressable h i count)
    (hClear : AllClear h m i count) (hk : k < h.pages) : m' (h.curByte k) = m (h.curByte k) := by
  have hOffset := hFit.offset
  have hSize := hFit.size
  have hWithin := hWalk.within
  have hRounded := bkRounded_toNat h
  rw [(hWalk.rest k hk).byte_eq_iff, hWalk.taken k hk, hWalk.last k hk,
    taken_allocated_below h m hOffset (by omega) (by omega),
    last_allocated_below h m hOffset (by omega) (by omega)]
  by_cases hIn : i ≤ k ∧ k < i + count
  · obtain ⟨hTaken, hLast⟩ := hClear k hIn.1 hIn.2 hk
    have hReached : k ≤ i + d := by
      by_contra hNot
      have hEarly := hWalk.early hFit (by omega) (by omega)
      rw [(hClear (i + d) (by omega) (by omega) (by omega)).2] at hEarly
      cases hEarly
    rw [hTaken, hLast, decide_eq_true hIn.1, decide_eq_true hReached]
    simp
  · have hOutside : (decide (i ≤ k) && decide (k < i + count)) = false := by
      rw [← Bool.decide_and]
      exact decide_eq_false hIn
    have hPassed : (decide (i ≤ k) && decide (k ≤ i + d)) = false := by
      rw [← Bool.decide_and]
      exact decide_eq_false (by omega)
    have hOther : (i + count - 1 == k) = false := beq_eq_false_iff_ne.mpr (by omega)
    rw [hOutside, hPassed, hOther]
    simp

end Walk

/-! ## The round trip -/

/-- An answer within the heap is given to the walk, which starts at its index. -/
theorem cpageFree_within (m : Memory) (hFit : Addressable h i count) (hCount : 0 < count)
    (hWithin : h.bkRounded.toNat + 4096 * i ≤ 4096 * h.pages) :
    cpageFree h m (h.pageAddr i) = freeLoop h m i (2 ^ 31 - (i : Int)).toNat := by
  have hAddr := hFit.toNat_pageAddr hCount
  have hStop := stop_toNat h
  have hLow : ¬ h.pageAddr i < h.start := by
    rw [BitVec.lt_def]
    omega
  have hHigh : ¬ h.pageAddr i > h.stop := by
    rw [gt_iff_lt, BitVec.lt_def]
    omega
  rw [cpageFree, decide_eq_false hLow, decide_eq_false hHigh, if_neg (by decide),
    specByte_pageAddr h hFit.offset]

/-- One behind the heap is ignored. -/
theorem cpageFree_behind (m : Memory) (hFit : Addressable h i count) (hCount : 0 < count)
    (hBehind : 4096 * h.pages < h.bkRounded.toNat + 4096 * i) :
    cpageFree h m (h.pageAddr i) = some m := by
  have hAddr := hFit.toNat_pageAddr hCount
  have hStop := stop_toNat h
  have hHigh : h.pageAddr i > h.stop := by
    rw [gt_iff_lt, BitVec.lt_def]
    omega
  rw [cpageFree, decide_eq_true hHigh, Bool.or_true, if_pos rfl]

/-- The allocation changes no bookkeeping byte if the pages were marked. -/
theorem allocated_same_iff (hFit : Addressable h i count) :
    (∀ k, k < h.pages → allocated h m i count (h.curByte k) = m (h.curByte k)) ↔
      AllMarked h m i count := by
  have hOffset := hFit.offset
  have hSize := hFit.size
  have hRounded := bkRounded_toNat h
  have hByte (k : Nat) (hk : k < h.pages) :
      allocated h m i count (h.curByte k) = m (h.curByte k) ↔
        ((i ≤ k ∧ k < i + count → taken h m k = true) ∧ (i + count - 1 = k → last h m k = true)) := by
    have hRest : SameRest h m (allocated h m i count) k :=
      SameRest.allocated hOffset (by omega) (by omega)
    rw [hRest.byte_eq_iff, taken_allocated_below h m hOffset (by omega) (by omega),
      last_allocated_below h m hOffset (by omega) (by omega)]
    cases taken h m k <;> cases last h m k <;> simp
  constructor
  · intro hSame
    exact ⟨fun k hLow hHigh hk => ((hByte k hk).mp (hSame k hk)).1 ⟨hLow, hHigh⟩,
      fun hk => ((hByte _ hk).mp (hSame _ hk)).2 rfl⟩
  · rintro ⟨hTaken, hLast⟩ k hk
    refine (hByte k hk).mpr ⟨fun hIn => hTaken k hIn.1 hIn.2 hk, fun hEnd => ?_⟩
    subst hEnd
    exact hLast hk

/-- The marked bytes lie in front of the zeroed pages. -/
theorem marked_before_pages (n : Int) (first : Nat) (hPages : 0 < h.pages) :
    firstPage n first + pageCount n ≤ h.bkRounded.toNat + 4096 * firstPage n first := by
  have hRounded := (le_bkRounded hPages).1
  unfold firstPage
  omega

theorem restored_iff_of_first (hDefined : Defined h m n) (hn : 0 < n)
    (hFirst : FirstPair (taken h m) h.pages first) : Restored h m n ↔
      (h.bkRounded.toNat + 4096 * firstPage n first ≤ 4096 * h.pages ∧
          AllClear h m (firstPage n first) (pageCount n)) ∨
        (4096 * h.pages < h.bkRounded.toNat + 4096 * firstPage n first ∧
          AllMarked h m (firstPage n first) (pageCount n)) := by
  have hCount : 0 < pageCount n := by
    have hTwo := two_le_pageCount n
    omega
  have hFit := hDefined.addressable hn hFirst
  have hMarked := marked_before_pages n first hFirst.pages_pos
  unfold Restored
  rw [cpageZnalloc_of_first hn hFirst]
  generalize firstPage n first = i at hFit hMarked
  generalize pageCount n = count at hCount hFit hMarked
  by_cases hWithin : h.bkRounded.toNat + 4096 * i ≤ 4096 * h.pages
  · obtain ⟨d, m', hLoop, hWalk⟩ := exists_walk (m := m) hFit hCount hMarked
    have hFree := (cpageFree_within (allocated h m i count) hFit hCount hWithin).trans hLoop
    constructor
    · rintro ⟨m'', hFreed, hSame⟩
      obtain rfl := Option.some.inj (hFree.symm.trans hFreed)
      exact .inl ⟨hWithin, hWalk.allClear hFit hSame⟩
    · rintro (⟨-, hClear⟩ | ⟨hBehind, -⟩)
      · exact ⟨m', hFree, fun k hk => hWalk.restored hFit hClear hk⟩
      · omega
  · have hBehind : 4096 * h.pages < h.bkRounded.toNat + 4096 * i := by omega
    have hFree := cpageFree_behind (allocated h m i count) hFit hCount hBehind
    constructor
    · rintro ⟨m'', hFreed, hSame⟩
      obtain rfl := Option.some.inj (hFree.symm.trans hFreed)
      exact .inr ⟨hBehind, (allocated_same_iff hFit).mp hSame⟩
    · rintro (⟨hIn, -⟩ | ⟨-, hAll⟩)
      · exact absurd hIn hWithin
      · exact ⟨_, hFree, (allocated_same_iff hFit).mpr hAll⟩

/-- `cpage_free` undoes the allocation if and only if the pages behind the first
pair were free, or it changed nothing. -/
theorem restored_iff_undoable (h : Heap) (m : Memory) (n : Int) :
    (Defined h m n ∧ ((cpageZnalloc h m n).1 ≠ 0 → Restored h m n)) ↔
      Defined h m n ∧ Undoable h m n := by
  refine and_congr_right fun hDefined => ?_
  constructor
  · intro hRestored hn first hFirst
    exact (restored_iff_of_first hDefined hn hFirst).mp
      (hRestored (hDefined.ne_zero hn hFirst))
  · intro hUndoable hSome
    rcases cpageZnalloc_cases h m n with hNull | ⟨hn, first, hFirst⟩
    · rw [hNull] at hSome
      exact absurd rfl hSome
    · exact (restored_iff_of_first hDefined hn hFirst).mpr (hUndoable hn first hFirst)

/-- Four pages, then three: freeing the three clears the bits of two of the four. -/
theorem not_restored_three : ¬ ∀ (h : Heap) (m : Memory) (ops : List Op) (s : Use),
    Run (Step h) { mem := cpageInit h m, live := [] } ops s →
      ∀ n, Defined h s.mem n → (cpageZnalloc h s.mem n).1 ≠ 0 → Restored h s.mem n := by
  intro hClaim
  have hFirst := ramInit_four_firstPair
  have hDefined : Defined ramHeap (allocated ramHeap ramInit 2 4) 3 :=
    defined_ramHeap hFirst (by decide)
  have hRestored := hClaim ramHeap (fun _ => 0) _ _ (.cons ramInit_four_step (.nil _)) 3 hDefined
    (hDefined.ne_zero (by decide) hFirst)
  have hIndex : firstPage 3 0 = 1 := by decide
  rcases (restored_iff_of_first hDefined (by decide) hFirst).mp hRestored with
    ⟨-, hClear⟩ | ⟨hBehind, -⟩
  · have hTaken := (hClear 2 (by decide) (by decide) (by rw [ramHeap_pages]; decide)).1
    rw [ramInit_allocated_taken (by decide) (by decide) (by decide)] at hTaken
    cases hTaken
  · have hRounded : ramHeap.bkRounded.toNat = 57344 := by decide
    rw [ramHeap_pages, hIndex, hRounded] at hBehind
    omega

end Kernel.Cpage
