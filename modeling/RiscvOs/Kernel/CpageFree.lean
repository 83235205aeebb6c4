import RiscvOs.Kernel.CpageRestore

/-! Where the loop of `cpage_free` ends, for any pointer that passes the range
check. It has no bound of its own: it ends at the first last bit behind the
pointer, whichever allocation that bit belongs to. -/
namespace Kernel.Cpage

open Semantics

variable {h : Heap} {m : Memory} {s : Use} {p : Word}

/-- The loop stops `n` bytes behind its first one. -/
def StopsAt (h : Heap) (m : Memory) (i : Int) (n : Nat) (m' : Memory) : Prop :=
  freeLoop h m i n = none ∧ freeLoop h m i (n + 1) = some m'

/-- The live allocations without the one that starts at the pointer, if there
is one. -/
def others (s : Use) (p : Word) : List Block :=
  s.live.eraseP (·.1 = p)

/-- The bookkeeping byte is one of those that the allocation has marked. -/
def Marks (h : Heap) (block : Block) (k : Nat) : Prop :=
  pageIndex h block.1 ≤ k ∧ k < pageIndex h block.1 + span block

/-- The loop stops at an index below `bk_bytes`, and the taken and last bits of
the other live allocations stay. -/
def Confined (h : Heap) (s : Use) (p : Word) : Prop :=
  ∃ n m', cpageFree h s.mem p = some m' ∧ StopsAt h s.mem (specByte h p) n m' ∧
    specByte h p + n < h.pages ∧ ∀ block ∈ others s p, ∀ k, k < h.pages → Marks h block k →
      taken h m' k = taken h s.mem k ∧ last h m' k = last h s.mem k

/-- The first last bit from an index on. -/
structure FirstLast (h : Heap) (m : Memory) (i d : Int) : Prop where
  le : i ≤ d
  set : testBit h m d (lastPos d) = true
  before : ∀ k, i ≤ k → k < d → testBit h m k (lastPos k) = false

/-- There is a last bit below `bk_bytes`, at an `int` index, and up to the
first one no byte of another live allocation has a bit. -/
def Separated (h : Heap) (s : Use) (p : Word) : Prop :=
  ∃ d, FirstLast h s.mem (specByte h p) d ∧ d < h.pages ∧ d < 2 ^ 31 ∧
    ∀ block ∈ others s p, ∀ k : Nat, Marks h block k → specByte h p ≤ k → k ≤ d →
      taken h s.mem k = false ∧ last h s.mem k = false

theorem specByte_bounds (h : Heap) (p : Word) :
    -2 ^ 31 ≤ specByte h p ∧ specByte h p < 2 ^ 31 := by
  have hLow := BitVec.le_toInt (((p - h.bkBytes - h.start) / 4096).setWidth 32)
  have hHigh := BitVec.toInt_lt (x := ((p - h.bkBytes - h.start) / 4096).setWidth 32)
  exact ⟨by simpa [specByte] using hLow, by simpa [specByte] using hHigh⟩

/-- A walk that ends has met a first last bit. -/
theorem firstLast_of_freeLoop {i : Int} {fuel : Nat} {m' : Memory} (hLow : -2 ^ 62 ≤ i)
    (hHigh : i + fuel ≤ 2 ^ 62) (hWalk : freeLoop h m i fuel = some m') :
    ∃ d : Nat, d < fuel ∧ FirstLast h m i (i + d) := by
  classical
  have hSome : ∃ d : Nat, testBit h m (i + d) (lastPos (i + d)) = true := by
    by_contra hNone
    have hBefore (k : Nat) (_ : k < fuel) : testBit h m (i + k) (lastPos (i + k)) = false :=
      Bool.eq_false_iff.mpr fun hSet => hNone ⟨k, hSet⟩
    rw [freeLoop_none h m hLow hHigh hBefore] at hWalk
    cases hWalk
  have hMin (k : Nat) (hk : k < Nat.find hSome) : testBit h m (i + k) (lastPos (i + k)) = false :=
    Bool.eq_false_iff.mpr (Nat.find_min hSome hk)
  refine ⟨Nat.find hSome, ?_, ⟨by omega, Nat.find_spec hSome, fun k hLe hLt => ?_⟩⟩
  · by_contra hLate
    rw [freeLoop_none h m hLow hHigh fun k hk => hMin k (by omega)] at hWalk
    cases hWalk
  · have hSame : i + ((k - i).toNat : Int) = k := by omega
    have hBefore := hMin (k - i).toNat (by omega)
    rwa [hSame] at hBefore

/-- The walk from an index up to the first last bit. -/
theorem FirstLast.walk {i d : Int} (hFirst : FirstLast h m i d) (hLow : -2 ^ 62 ≤ i)
    (hHigh : d < 2 ^ 62) :
    ∃ m', StopsAt h m i (d - i).toNat m' ∧ ∀ l : Nat, l < 2 ^ 62 →
      taken h m' l = (taken h m l && !(decide (i ≤ l) && decide ((l : Int) ≤ d))) ∧
      last h m' l = (last h m l && !(decide (i ≤ l) && decide ((l : Int) ≤ d))) := by
  have hLe := hFirst.le
  have hEnd : i + ((d - i).toNat : Int) = d := by omega
  have hBefore (k : Nat) (hk : k < (d - i).toNat) :
      testBit h m (i + k) (lastPos (i + k)) = false :=
    hFirst.before (i + k) (by omega) (by omega)
  have hSet : testBit h m (i + ((d - i).toNat : Int)) (lastPos (i + ((d - i).toNat : Int))) = true := by
    rw [hEnd]
    exact hFirst.set
  obtain ⟨m', hWalk, hBits⟩ := freeLoop_int_spec h m hLow (by omega) (Nat.lt_succ_self _) hSet hBefore
  rw [hEnd] at hBits
  exact ⟨m', ⟨freeLoop_none h m hLow (by omega) hBefore, hWalk⟩, hBits⟩

/-- The first last bit is where the loop stops. -/
theorem StopsAt.firstLast {i : Int} {n : Nat} {m' : Memory} (hStops : StopsAt h m i n m')
    (hLow : -2 ^ 62 ≤ i) (hHigh : i + n < 2 ^ 62) : FirstLast h m i (i + n) := by
  obtain ⟨hNone, hWalk⟩ := hStops
  obtain ⟨d, hd, hFirst⟩ := firstLast_of_freeLoop hLow (by omega) hWalk
  have hSame : d = n := by
    by_contra hOther
    obtain ⟨m'', ⟨-, hEarly⟩, -⟩ := hFirst.walk hLow (by omega)
    have hFuel : (i + d - i).toNat + 1 + (n - (d + 1)) = n := by omega
    have hAgain := freeLoop_add h m (n - (d + 1)) hEarly
    rw [hFuel, hNone] at hAgain
    cases hAgain
  rwa [hSame] at hFirst

section Range

variable (hStart : h.start ≤ p) (hStop : p ≤ h.stop)
include hStart hStop

theorem cpageFree_inside (m : Memory) :
    cpageFree h m p = freeLoop h m (specByte h p) (2 ^ 31 - specByte h p).toNat := by
  rw [cpageFree, if_neg]
  simp only [Bool.or_eq_true, decide_eq_true_eq, not_or]
  exact ⟨BitVec.not_lt.mpr hStart, BitVec.not_lt.mpr hStop⟩

theorem confined_of_separated (hSeparated : Separated h s p) : Confined h s p := by
  obtain ⟨d, hFirst, hBelow, hInt, hOther⟩ := hSeparated
  obtain ⟨hLow, hHigh⟩ := specByte_bounds h p
  have hPages := pages_le h
  have hLe := hFirst.le
  obtain ⟨m', hStops, hBits⟩ := hFirst.walk (by omega) (by omega)
  have hFuel : (d - specByte h p).toNat + 1 + ((2 ^ 31 - specByte h p).toNat -
      ((d - specByte h p).toNat + 1)) = (2 ^ 31 - specByte h p).toNat := by omega
  have hFree := freeLoop_add h s.mem ((2 ^ 31 - specByte h p).toNat -
    ((d - specByte h p).toNat + 1)) hStops.2
  rw [hFuel, ← cpageFree_inside hStart hStop] at hFree
  refine ⟨_, m', hFree, hStops, by omega, fun block hBlock k hk hMarks => ?_⟩
  obtain ⟨hTaken, hLast⟩ := hBits k (by omega)
  by_cases hIn : specByte h p ≤ k ∧ (k : Int) ≤ d
  · obtain ⟨hNotTaken, hNotLast⟩ := hOther block hBlock k hMarks hIn.1 hIn.2
    rw [hTaken, hLast, hNotTaken, hNotLast]
    exact ⟨rfl, rfl⟩
  · rw [← Bool.decide_and, decide_eq_false hIn, Bool.not_false, Bool.and_true] at hTaken hLast
    exact ⟨hTaken, hLast⟩

theorem separated_of_confined (hConfined : Confined h s p) : Separated h s p := by
  obtain ⟨n, m', hFree, hStops, hBelow, hKept⟩ := hConfined
  obtain ⟨hLow, hHigh⟩ := specByte_bounds h p
  have hPages := pages_le h
  have hFirst := hStops.firstLast (by omega) (by omega)
  obtain ⟨m'', hStops', hBits⟩ := hFirst.walk (by omega) (by omega)
  have hInt : specByte h p + n < 2 ^ 31 := by
    rw [cpageFree_inside hStart hStop] at hFree
    obtain ⟨d, hd, hFirst'⟩ := firstLast_of_freeLoop (by omega) (by omega) hFree
    by_contra hLate
    have hSet := hFirst.before (specByte h p + d) (by omega) (by omega)
    rw [hFirst'.set] at hSet
    cases hSet
  have hSame : m'' = m' := by
    have hIndex : (specByte h p + n - specByte h p).toNat = n := by omega
    rw [hIndex] at hStops'
    exact Option.some.inj (hStops'.2.symm.trans hStops.2)
  subst hSame
  refine ⟨_, hFirst, hBelow, hInt, fun block hBlock k hMarks hLe hEnd => ?_⟩
  obtain ⟨hTaken, hLast⟩ := hBits k (by omega)
  obtain ⟨hSameTaken, hSameLast⟩ := hKept block hBlock k (by omega) hMarks
  rw [decide_eq_true hLe, decide_eq_true hEnd, Bool.and_self, Bool.not_true, Bool.and_false]
    at hTaken hLast
  exact ⟨hSameTaken.symm.trans hTaken, hSameLast.symm.trans hLast⟩

/-- The call is confined exactly when the first last bit is below `bk_bytes`
and no other live allocation lies in front of it. -/
theorem confined_iff_separated : Confined h s p ↔ Separated h s p :=
  ⟨separated_of_confined hStart hStop, confined_of_separated hStart hStop⟩

end Range

/-- The start of a live allocation, while live allocations are marked apart. -/
theorem separated_of_live (inv : Inv h s) (hInt : h.pages ≤ 2 ^ 31) (block : Block)
    (hLive : block ∈ s.live) : Separated h s block.1 := by
  obtain ⟨a, xs, ys, -, hPtr, hSplit, hErase⟩ :=
    List.exists_of_eraseP (p := fun b : Block => b.1 = block.1) hLive (by simp)
  have hPtr : a.1 = block.1 := by simpa using hPtr
  have ha : a ∈ s.live := by
    rw [hSplit]
    simp
  have hHeld := inv.held a ha
  have hFit := hHeld.fits
  have hSmall := hHeld.small
  have hTwo := two_le_span a
  have hApart : ∀ other ∈ xs ++ ys, SpansApart h a other := by
    have hPerm : (xs ++ a :: ys).Perm (a :: (xs ++ ys)) := List.perm_middle
    have hAll := hPerm.pairwise (hSplit ▸ inv.apart) SpansApart.symm
    exact (List.pairwise_cons.mp hAll).1
  have hIndex : specByte h block.1 = (pageIndex h a.1 : Nat) := by
    rw [← hPtr]
    conv_lhs => rw [hHeld.addr]
    exact specByte_pageAddr h hSmall
  refine ⟨(pageIndex h a.1 + (span a - 1) : Nat), ⟨by omega, hHeld.lastAt, fun k hLe hLt => ?_⟩,
    by omega, by omega, fun other hOther k hMarks hLow hHigh => ?_⟩
  · obtain ⟨k, rfl⟩ := Int.eq_ofNat_of_zero_le (show 0 ≤ k by omega)
    have hBefore := hHeld.lastBefore (k - pageIndex h a.1) (by omega)
    have hSame : pageIndex h a.1 + (k - pageIndex h a.1) = k := by omega
    rwa [hSame] at hBefore
  · rw [others, hErase] at hOther
    have hOut := hApart other hOther
    obtain ⟨hFirst, hLast⟩ := hMarks
    unfold SpansApart at hOut
    omega

/-- In runs whose requests fit, freeing a live allocation is confined. -/
theorem confined_of_fitting_run (h : Heap) (m : Memory) {ops : List Op}
    (run : Run (Guarded (Step h) (Allowed h)) { mem := cpageInit h m, live := [] } ops s)
    (hInt : h.pages ≤ 2 ^ 31) {block : Block} (hLive : block ∈ s.live) (hStart : h.start ≤ block.1)
    (hStop : block.1 ≤ h.stop) : Confined h s block.1 :=
  confined_of_separated hStart hStop (separated_of_live
    (run.invariant (Inv h) (inv_init h m) fun _ _ _ => inv_step) hInt block hLive)

section Inputs

/-- After a first request of one page. -/
def oneLive : Use where
  mem := allocated ramHeap ramInit 0 2
  live := [(ramHeap.pageAddr 0, 1)]

/-- After a second one. -/
def twoLive : Use where
  mem := allocated ramHeap oneLive.mem 2 2
  live := [(ramHeap.pageAddr 2, 1), (ramHeap.pageAddr 0, 1)]

theorem oneLive_inv : Inv ramHeap oneLive := by
  have hAllowed : Allowed ramHeap { mem := ramInit, live := [] } (.znalloc 1) :=
    fun _ => ramInit_fits_two
  exact inv_step (inv_init ramHeap fun _ => 0) ⟨hAllowed, ramInit_one_step⟩

theorem twoLive_step : Step ramHeap oneLive (.znalloc 1) twoLive :=
  Step.of_firstPair oneLive 1 2 2 (by decide) ramInit_two_firstPair rfl rfl (by decide)

theorem twoLive_inv : Inv ramHeap twoLive := by
  have hAllowed : Allowed ramHeap oneLive (.znalloc 1) := by
    intro _ first hFirst
    obtain rfl := hFirst.unique ramInit_two_firstPair
    rw [ramHeap_pages]
    refine ⟨by decide, by decide, fun k hk => ?_⟩
    have hTwo : k < 2 := hk
    have hBehind : ¬ 2 + (max 2 (Int.toNat 1) - 2) + k < 0 + 2 := by omega
    rw [oneLive, ramInit_allocated_taken (by decide) (by decide) (by omega),
      decide_eq_false hBehind, Bool.and_false]
  exact inv_step oneLive_inv ⟨hAllowed, twoLive_step⟩

/-- The only allocation is freed. -/
theorem confined_iff_separated_one : Confined ramHeap oneLive (ramHeap.pageAddr 0) :=
  (confined_iff_separated (by decide) (by decide)).mpr
    (separated_of_live oneLive_inv (by decide) (ramHeap.pageAddr 0, 1) (List.mem_singleton_self _))

/-- Pages 0 and 1 are freed twice: the second call clears the taken bits of pages 2
and 3, which another allocation holds. -/
theorem doubleFree_run : ∃ s,
    Run (Step ramHeap) { mem := ramInit, live := [] }
      [.znalloc 1, .znalloc 1, .free (ramHeap.pageAddr 0, 1)] s ∧
      ¬ Confined ramHeap s (ramHeap.pageAddr 0) := by
  have hZero : pageIndex ramHeap (ramHeap.pageAddr 0) = 0 := pageIndex_pageAddr ramHeap (by decide)
  have hTwo : pageIndex ramHeap (ramHeap.pageAddr 2) = 2 := pageIndex_pageAddr ramHeap (by decide)
  have hFreed := twoLive_inv.held (ramHeap.pageAddr 0, 1) (by simp [twoLive])
  have hOther := twoLive_inv.held (ramHeap.pageAddr 2, 1) (by simp [twoLive])
  rw [hZero] at hFreed
  rw [hTwo] at hOther
  have hIndex : specByte ramHeap (ramHeap.pageAddr 0) = (0 : Nat) :=
    specByte_pageAddr ramHeap (by decide)
  obtain ⟨m', hWalk, hBits⟩ := freeLoop_spec ramHeap twoLive.mem 0 1 (2 ^ 31 - (0 : Int)).toNat
    (by decide) (by decide) hFreed.lastAt hFreed.lastBefore
  have hFree : cpageFree ramHeap twoLive.mem (ramHeap.pageAddr 0) = some m' := by
    rw [cpageFree_inside (by decide) (by decide), hIndex]
    exact hWalk
  have hLive : (ramHeap.pageAddr 0, 1) ∈ twoLive.live := by simp [twoLive]
  refine ⟨_, .cons ramInit_one_step (.cons twoLive_step (.cons
    (.free twoLive _ m' hLive hFree) (.nil _))), fun hConfined => ?_⟩
  obtain ⟨d, hFirst, -, -, hClear⟩ := separated_of_confined (by decide) (by decide) hConfined
  have hLe := hFirst.le
  rw [hIndex] at hLe hClear
  obtain ⟨d, rfl⟩ := Int.eq_ofNat_of_zero_le hLe
  have hBehind : 2 ≤ d := by
    by_contra hEarly
    have hSet : last ramHeap m' d = true := hFirst.set
    have hStopped : (decide (0 ≤ d) && decide (d ≤ 0 + 1)) = true := by
      simp
      omega
    rw [(hBits d (by omega)).2, hStopped] at hSet
    simp at hSet
  have hTaken := (hBits 2 (by decide)).1
  have hMarked : taken ramHeap twoLive.mem 2 = true := hOther.taken 0 (by decide)
  have hMarks : Marks ramHeap (ramHeap.pageAddr 2, 1) 2 := by
    rw [Marks, hTwo]
    decide
  have hRest : (ramHeap.pageAddr 2, 1) ∈ (twoLive.live.erase (ramHeap.pageAddr 0, 1)).eraseP
      (·.1 = ramHeap.pageAddr 0) := by
    decide
  have hCleared := (hClear _ hRest 2 hMarks (by decide) (by exact_mod_cast hBehind)).1
  have hKept : taken ramHeap m' 2 = true := by
    rw [hTaken, hMarked]
    decide
  rw [hKept] at hCleared
  cases hCleared

end Inputs

end Kernel.Cpage
