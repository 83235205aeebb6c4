import RiscvOs.Kernel.Cpage
import RiscvOs.Semantics.Word

/-! What the loops of `cpage.c` do to the taken and last bits: one lemma per
access to a bookkeeping byte, and one specification per loop. -/
namespace Kernel.Cpage

open Semantics

section Bits

@[simp] theorem takenPos_natCast (k : Nat) : takenPos k = 2 * (k % 4) := by
  unfold takenPos
  rw [Int.tmod_eq_emod_of_nonneg (by omega)]
  omega

@[simp] theorem lastPos_natCast (k : Nat) : lastPos k = 2 * (k % 4) + 1 := by
  unfold lastPos
  rw [Int.tmod_eq_emod_of_nonneg (by omega)]
  omega

theorem bit_eq_getLsbD (b : Byte) (pos : Nat) : (((b >>> pos) &&& 1#8) != 0#8) = b.getLsbD pos := by
  cases hb : b.getLsbD pos with
  | false =>
      have hZero : (b >>> pos) &&& 1#8 = 0#8 := by
        apply BitVec.eq_of_getLsbD_eq
        intro i hi
        simp only [BitVec.getLsbD_and, BitVec.getLsbD_ushiftRight, BitVec.getLsbD_one, BitVec.getLsbD_zero]
        by_cases h0 : i = 0
        · simp [h0, hb]
        · simp [h0]
      simp [hZero]
  | true =>
      simp only [bne_iff_ne, ne_eq]
      intro hZero
      have hBit := congrArg (fun x : Byte => x.getLsbD 0) hZero
      simp [hb] at hBit

variable (h : Heap) (m : Memory)

theorem testBit_eq (k : Int) (pos : Nat) : testBit h m k pos = (m (h.curByte k)).getLsbD pos :=
  bit_eq_getLsbD _ _

/-- Different bookkeeping indices below the size of the address space have
different bytes. -/
theorem curByte_ne {k l : Nat} (hk : k < 2 ^ 64) (hl : l < 2 ^ 64) (hne : k ≠ l) :
    h.curByte k ≠ h.curByte l := by
  unfold Heap.curByte
  simp only [BitVec.ofInt_natCast]
  bv_omega

theorem testBit_setBit (k l : Nat) (pos pos' : Nat) (hk : k < 2 ^ 64) (hl : l < 2 ^ 64)
    (hPos : pos < 8) :
    testBit h (setBit h m k pos) l pos' = (testBit h m l pos' || (k == l && pos == pos')) := by
  simp only [testBit_eq, setBit]
  by_cases hkl : k = l
  · subst l
    rw [Memory.store_same, BitVec.getLsbD_or, BitVec.getLsbD_shiftLeft]
    simp only [BitVec.getLsbD_one, BEq.rfl, Bool.true_and]
    congr 1
    by_cases hp : pos = pos'
    · subst hp
      simp [hPos]
    · have hFalse : (pos == pos') = false := by simpa using hp
      rw [hFalse]
      by_cases hLt : pos' < pos
      · simp [hLt]
      · have : pos' - pos ≠ 0 := by omega
        simp [this]
  · rw [Memory.store_of_ne _ _ (curByte_ne h hl hk (Ne.symm hkl))]
    simp [hkl]

theorem testBit_clearBit (k l : Nat) (pos pos' : Nat) (hk : k < 2 ^ 64) (hl : l < 2 ^ 64)
    (hPos : pos < 8) :
    testBit h (clearBit h m k pos) l pos' = (testBit h m l pos' && !(k == l && pos == pos')) := by
  simp only [testBit_eq, clearBit]
  by_cases hkl : k = l
  · subst l
    rw [Memory.store_same, BitVec.getLsbD_and, BitVec.getLsbD_not, BitVec.getLsbD_shiftLeft]
    simp only [BitVec.getLsbD_one, BEq.rfl, Bool.true_and]
    by_cases hp : pos = pos'
    · subst hp
      simp [hPos]
    · have hFalse : (pos == pos') = false := by simpa using hp
      rw [hFalse]
      by_cases hBig : pos' < 8
      · by_cases hLt : pos' < pos
        · simp [hLt, hBig]
        · have : pos' - pos ≠ 0 := by omega
          simp [this, hBig]
      · simp [BitVec.getLsbD_of_ge _ _ (Nat.le_of_not_lt hBig)]
  · rw [Memory.store_of_ne _ _ (curByte_ne h hl hk (Ne.symm hkl))]
    simp [hkl]

/-- The two bits of a page are read from its bookkeeping byte only. -/
theorem taken_congr {m m' : Memory} {k : Nat} (hByte : m' (h.curByte k) = m (h.curByte k)) :
    taken h m' k = taken h m k := by
  simp only [taken, testBit, hByte]

theorem last_congr {m m' : Memory} {k : Nat} (hByte : m' (h.curByte k) = m (h.curByte k)) :
    last h m' k = last h m k := by
  simp only [last, testBit, hByte]

theorem taken_setTaken {k l : Nat} (hk : k < 2 ^ 64) (hl : l < 2 ^ 64) :
    taken h (setBit h m k (takenPos k)) l = (taken h m l || k == l) := by
  rw [taken, testBit_setBit h m k l _ _ hk hl (by simp; omega), taken]
  congr 1
  by_cases hkl : k = l
  · simp [hkl]
  · simp [hkl]

theorem last_setTaken {k l : Nat} (hk : k < 2 ^ 64) (hl : l < 2 ^ 64) :
    last h (setBit h m k (takenPos k)) l = last h m l := by
  rw [last, testBit_setBit h m k l _ _ hk hl (by simp; omega), last]
  have hPos : (takenPos k == lastPos l) = false := by
    simp
    omega
  rw [hPos, Bool.and_false, Bool.or_false]

theorem taken_setLast {k l : Nat} (hk : k < 2 ^ 64) (hl : l < 2 ^ 64) :
    taken h (setBit h m k (lastPos k)) l = taken h m l := by
  rw [taken, testBit_setBit h m k l _ _ hk hl (by simp; omega), taken]
  have hPos : (lastPos k == takenPos l) = false := by
    simp
    omega
  rw [hPos, Bool.and_false, Bool.or_false]

theorem last_setLast {k l : Nat} (hk : k < 2 ^ 64) (hl : l < 2 ^ 64) :
    last h (setBit h m k (lastPos k)) l = (last h m l || k == l) := by
  rw [last, testBit_setBit h m k l _ _ hk hl (by simp; omega), last]
  congr 1
  by_cases hkl : k = l
  · simp [hkl]
  · simp [hkl]

/-- Different indices have different bytes, also in front of the heap. -/
theorem curByte_ne_of_lt {k l : Int} (hk : -2 ^ 62 ≤ k) (hkl : k < l) (hl : l ≤ 2 ^ 62) :
    h.curByte l ≠ h.curByte k := by
  unfold Heap.curByte
  intro hSame
  have hInt := congrArg BitVec.toInt ((BitVec.add_right_inj _).mp hSame)
  rw [BitVec.toInt_ofInt_eq_self (by decide) (by omega) (by omega),
    BitVec.toInt_ofInt_eq_self (by decide) (by omega) (by omega)] at hInt
  omega

theorem testBit_clearBoth_of_ne {k l : Int} (hne : h.curByte l ≠ h.curByte k) (pos : Nat) :
    testBit h (clearBit h (clearBit h m k (takenPos k)) k (lastPos k)) l pos = testBit h m l pos := by
  simp only [testBit, clearBit]
  rw [Memory.store_of_ne _ _ hne, Memory.store_of_ne _ _ hne]

/-- Clearing both bits of a page, as the loop of `cpage_free` does, also with
an index in front of the heap. -/
theorem testBit_clearBoth {k : Int} {l pos : Nat} (hPos : pos = takenPos l ∨ pos = lastPos l)
    (hLow : -2 ^ 62 ≤ k) (hk : k < 2 ^ 62) (hl : l < 2 ^ 62) :
    testBit h (clearBit h (clearBit h m k (takenPos k)) k (lastPos k)) l pos =
      (testBit h m l pos && k != l) := by
  by_cases hNeg : k < 0
  · have hne : (k != l) = true := bne_iff_ne.mpr (by omega)
    rw [testBit_clearBoth_of_ne h m (curByte_ne_of_lt h hLow (by omega) (by omega)), hne,
      Bool.and_true]
  · obtain ⟨k, rfl⟩ := Int.eq_ofNat_of_zero_le (Int.not_lt.mp hNeg)
    rw [testBit_clearBit h _ k l _ _ (by omega) (by omega) (by simp; omega),
      testBit_clearBit h m k l _ _ (by omega) (by omega) (by simp; omega)]
    by_cases hkl : k = l
    · subst hkl
      rcases hPos with rfl | rfl <;> simp
    · have hNat : (k == l) = false := by simpa using hkl
      have hInt : ((k : Int) != l) = true := bne_iff_ne.mpr (by omega)
      rw [hNat, hInt]
      simp

theorem taken_clearBoth {k : Int} {l : Nat} (hLow : -2 ^ 62 ≤ k) (hk : k < 2 ^ 62)
    (hl : l < 2 ^ 62) :
    taken h (clearBit h (clearBit h m k (takenPos k)) k (lastPos k)) l =
      (taken h m l && k != l) :=
  testBit_clearBoth h m (.inl rfl) hLow hk hl

theorem last_clearBoth {k : Int} {l : Nat} (hLow : -2 ^ 62 ≤ k) (hk : k < 2 ^ 62)
    (hl : l < 2 ^ 62) :
    last h (clearBit h (clearBit h m k (takenPos k)) k (lastPos k)) l =
      (last h m l && k != l) :=
  testBit_clearBoth h m (.inr rfl) hLow hk hl

theorem taken_markTaken {i count l : Nat} (hCount : i + count ≤ 2 ^ 64) (hl : l < 2 ^ 64) :
    taken h (markTaken h m i count) l = (taken h m l || (decide (i ≤ l) && decide (l < i + count))) := by
  induction count with
  | zero =>
      simp [markTaken]
  | succ j ih =>
      rw [markTaken, taken_setTaken h _ (by omega) hl, ih (by omega), Bool.or_assoc]
      congr 1
      by_cases hl' : i + j = l
      · subst hl'
        simp
      · have hne : (i + j == l) = false := by simpa using hl'
        have hSame : decide (l < i + (j + 1)) = decide (l < i + j) := by
          apply decide_eq_decide.mpr
          omega
        rw [hne, hSame, Bool.or_false]

theorem last_markTaken {i count l : Nat} (hCount : i + count ≤ 2 ^ 64) (hl : l < 2 ^ 64) :
    last h (markTaken h m i count) l = last h m l := by
  induction count with
  | zero => rfl
  | succ j ih => rw [markTaken, last_setTaken h _ (by omega) hl, ih (by omega)]

end Bits

section Addresses

variable (h : Heap)

theorem bkBytes_toNat : h.bkBytes.toNat = (h.stop.toNat - h.start.toNat) / 4096 := by
  have hLe := h.start_le_stop
  have hSub : (h.stop - h.start).toNat = h.stop.toNat - h.start.toNat := by bv_omega
  rw [Heap.bkBytes, BitVec.toNat_udiv, hSub]
  rfl

theorem pages_le : h.pages ≤ 2 ^ 52 := by
  have := h.stop.isLt
  rw [Heap.pages, bkBytes_toNat]
  omega

theorem bkRounded_toNat : h.bkRounded.toNat = (h.pages + 4095) / 4096 * 4096 := by
  have hPages := pages_le h
  have hAdd : (h.bkBytes + 4095).toNat = h.pages + 4095 := by
    unfold Heap.pages at *
    bv_omega
  rw [Heap.bkRounded, toNat_and_neg_4096, hAdd]

theorem pageAddr_of_lt {i : Nat} (hi : i < 2 ^ 19) :
    h.pageAddr i = h.start + h.bkRounded + BitVec.ofNat 64 (4096 * i) := by
  rw [Heap.pageAddr, intWord_of_lt (by omega)]

/-- The page index a returned pointer stands for. -/
def pageIndex (p : Word) : Nat :=
  ((p - h.start - h.bkRounded) / 4096).toNat

theorem pageIndex_pageAddr {i : Nat} (hi : i < 2 ^ 19) : pageIndex h (h.pageAddr i) = i := by
  have hOffset : h.pageAddr i - h.start - h.bkRounded = BitVec.ofNat 64 (4096 * i) := by
    rw [pageAddr_of_lt h hi]
    bv_omega
  rw [pageIndex, hOffset, BitVec.toNat_udiv, BitVec.toNat_ofNat]
  change 4096 * i % 2 ^ 64 / 4096 = i
  omega

/-- The unrounded `bk_bytes` in `cpage_free` is absorbed by the division. -/
theorem specByte_pageAddr {i : Nat} (hi : i < 2 ^ 19) : specByte h (h.pageAddr i) = i := by
  have hRounded := bkRounded_toNat h
  have hPages := pages_le h
  have hOffset : (h.pageAddr i - h.bkBytes - h.start).toNat =
      h.bkRounded.toNat - h.pages + 4096 * i := by
    rw [pageAddr_of_lt h hi]
    unfold Heap.pages at *
    bv_omega
  have hIndex : (h.pageAddr i - h.bkBytes - h.start) / 4096 = BitVec.ofNat 64 i := by
    apply BitVec.eq_of_toNat_eq
    rw [BitVec.toNat_udiv, hOffset, BitVec.toNat_ofNat]
    change (h.bkRounded.toNat - h.pages + 4096 * i) / 4096 = _
    omega
  rw [specByte, hIndex, BitVec.toInt_eq_toNat_of_lt]
  · rw [BitVec.toNat_setWidth, BitVec.toNat_ofNat]
    omega
  · rw [BitVec.toNat_setWidth, BitVec.toNat_ofNat]
    omega

theorem intWord_toInt_lt (value : Nat) : (intWord value).toInt < 2 ^ 31 := by
  have hLt : (BitVec.ofNat 32 value).toInt < 2 ^ 31 := BitVec.toInt_lt
  rw [intWord, BitVec.toInt_signExtend_of_le (by decide)]
  simpa using hLt

/-- Zeroing pages does not reach the bytes in front of them. -/
theorem memset_pages_below (m : Memory) {i k : Nat} (count : Nat) (hi : i < 2 ^ 19)
    (hk : k < h.bkRounded.toNat + 4096 * i) :
    memset m (h.pageAddr i) 0 (intWord (4096 * count)) (h.curByte k) = m (h.curByte k) := by
  rw [memset_eq_fill]
  apply Memory.fill_outside
  have hSize := intWord_toInt_lt (4096 * count)
  have hRounded := bkRounded_toNat h
  have hPages := pages_le h
  have hDistance : (h.curByte k - h.pageAddr i).toNat =
      2 ^ 64 - (h.bkRounded.toNat + 4096 * i - k) := by
    rw [pageAddr_of_lt h hi, Heap.curByte, BitVec.ofInt_natCast]
    bv_omega
  unfold InRange
  rw [hDistance]
  omega

end Addresses

section Search

variable {taken : Nat → Bool} {bkBytes numPages : Nat}

/-- The page and the one behind it both have a clear taken bit. -/
def FreePair (taken : Nat → Bool) (bkBytes i : Nat) : Prop :=
  i + 1 < bkBytes ∧ taken i = false ∧ taken (i + 1) = false

/-- The lowest index with two clear taken bits in a row. -/
def FirstPair (taken : Nat → Bool) (bkBytes i : Nat) : Prop :=
  FreePair taken bkBytes i ∧ ∀ k, k < i → ¬ FreePair taken bkBytes k

theorem innerLoop_found {j i c : Nat} (hj : j < bkBytes) (hFree : taken j = false) :
    innerLoop taken bkBytes numPages j i c =
      .found (i + max (c + 1) numPages - (c + 1)) (max (c + 1) numPages) := by
  fun_induction innerLoop taken bkBytes numPages j i c with
  | case1 i c _ hTaken => simp [hFree] at hTaken
  | case2 i c _ _ hEnough => congr 1 <;> omega
  | case3 i c _ _ hMore ih =>
      rw [ih]
      congr 1 <;> omega
  | case4 i c hNot => omega

theorem outerLoop_free {i c : Nat} (hi : i < bkBytes) (hFree : taken i = false) :
    outerLoop taken bkBytes numPages i c =
      match innerLoop taken bkBytes numPages (i + 1) i (c + 1) with
      | .found i' c' => some (i', c')
      | .resume i' c' => outerLoop taken bkBytes numPages (i' + 1) c' := by
  rw [outerLoop, if_pos hi, if_neg (by simp [hFree])]
  split <;> rename_i hExit <;> simp [hExit]

theorem FirstPair.unique {i k : Nat} (hi : FirstPair taken bkBytes i) (hk : FirstPair taken bkBytes k) :
    i = k := by
  rcases Nat.lt_trichotomy i k with hLt | hEq | hGt
  · exact absurd hi.1 (hk.2 i hLt)
  · exact hEq
  · exact absurd hk.1 (hi.2 k hGt)

/-- What a search that starts at index `i` finds: the first pair of free
pages from there on, with an allocation that starts `max 2 num_pages - 2` pages
behind it, or no pair. -/
def SearchOutcome (taken : Nat → Bool) (bkBytes numPages i : Nat) : Option (Nat × Nat) → Prop
  | none => ∀ k, i ≤ k → ¬ FreePair taken bkBytes k
  | some result => ∃ first, i ≤ first ∧ FreePair taken bkBytes first ∧
      (∀ k, i ≤ k → k < first → ¬ FreePair taken bkBytes k) ∧
      result = (first + max 2 numPages - 2, max 2 numPages)

theorem SearchOutcome.skip {i : Nat} {result : Option (Nat × Nat)}
    (hNo : ¬ FreePair taken bkBytes i) (h : SearchOutcome taken bkBytes numPages (i + 1) result) :
    SearchOutcome taken bkBytes numPages i result := by
  cases result with
  | none =>
      intro k hk
      rcases Nat.eq_or_lt_of_le hk with rfl | hLt
      · exact hNo
      · exact h k hLt
  | some result =>
      obtain ⟨first, hLe, hPair, hBefore, hResult⟩ := h
      refine ⟨first, by omega, hPair, fun k hk hLt => ?_, hResult⟩
      rcases Nat.eq_or_lt_of_le hk with rfl | hGt
      · exact hNo
      · exact hBefore k hGt hLt

theorem outerLoop_outcome (i : Nat) :
    SearchOutcome taken bkBytes numPages i (outerLoop taken bkBytes numPages i 0) := by
  induction hLeft : bkBytes - i generalizing i with
  | zero =>
      rw [outerLoop, if_neg (by omega)]
      intro k hk hPair
      have := hPair.1
      omega
  | succ left ih =>
      have hi : i < bkBytes := by omega
      have hRest := ih (i + 1) (by omega)
      cases hTaken : taken i with
      | true =>
          rw [outerLoop, if_pos hi, if_pos hTaken]
          exact hRest.skip fun hPair => by simp [FreePair, hTaken] at hPair
      | false =>
          rw [outerLoop_free hi hTaken]
          by_cases hj : i + 1 < bkBytes
          · cases hTaken' : taken (i + 1) with
            | true =>
                rw [innerLoop, if_pos hj, if_pos hTaken']
                exact hRest.skip fun hPair => by simp [FreePair, hTaken'] at hPair
            | false =>
                rw [innerLoop_found hj hTaken']
                exact ⟨i, Nat.le_refl i, ⟨hj, hTaken, hTaken'⟩, fun k hk hLt => by omega, rfl⟩
          · -- The last page alone: the inner loop is not entered.
            rw [innerLoop, if_neg hj]
            change SearchOutcome taken bkBytes numPages i (outerLoop taken bkBytes numPages (i + 1) 1)
            rw [outerLoop, if_neg hj]
            intro k hk hPair
            have := hPair.1
            omega

/-- The whole search of `cpage_znalloc`. -/
theorem outerLoop_eq_some {i count : Nat} (h : outerLoop taken bkBytes numPages 0 0 = some (i, count)) :
    ∃ first, FirstPair taken bkBytes first ∧ i = first + max 2 numPages - 2 ∧ count = max 2 numPages := by
  have hOutcome : SearchOutcome taken bkBytes numPages 0 (outerLoop taken bkBytes numPages 0 0) :=
    outerLoop_outcome 0
  rw [h] at hOutcome
  obtain ⟨first, _, hPair, hBefore, hResult⟩ := hOutcome
  cases hResult
  exact ⟨first, ⟨hPair, fun k hk => hBefore k (Nat.zero_le k) hk⟩, rfl, rfl⟩

theorem outerLoop_of_firstPair {first : Nat} (h : FirstPair taken bkBytes first) :
    outerLoop taken bkBytes numPages 0 0 = some (first + max 2 numPages - 2, max 2 numPages) := by
  cases hResult : outerLoop taken bkBytes numPages 0 0 with
  | none =>
      have hOutcome : SearchOutcome taken bkBytes numPages 0 (outerLoop taken bkBytes numPages 0 0) :=
        outerLoop_outcome 0
      rw [hResult] at hOutcome
      exact absurd h.1 (hOutcome first (Nat.zero_le first))
  | some result =>
      obtain ⟨i, count⟩ := result
      obtain ⟨first', hFirst, rfl, rfl⟩ := outerLoop_eq_some hResult
      rw [h.unique hFirst]

end Search

section Calls

variable (h : Heap) (m : Memory)

/-- A page starts clear: `cpage_init` zeroes every bookkeeping byte. -/
theorem curByte_cpageInit {k : Nat} (hk : k < h.pages) : cpageInit h m (h.curByte k) = 0 := by
  have hPages := pages_le h
  have hSize : h.bkBytes.toInt.toNat = h.pages := by
    rw [BitVec.toInt_eq_toNat_of_lt (by unfold Heap.pages at hPages; omega), Int.toNat_natCast]
    rfl
  rw [cpageInit, memset_eq_fill, hSize]
  apply Memory.fill_inside
  unfold InRange Heap.curByte
  rw [BitVec.ofInt_natCast]
  bv_omega

theorem taken_cpageInit {k : Nat} (hk : k < h.pages) : taken h (cpageInit h m) k = false := by
  rw [taken, testBit, curByte_cpageInit h m hk]
  simp

theorem last_cpageInit {k : Nat} (hk : k < h.pages) : last h (cpageInit h m) k = false := by
  rw [last, testBit, curByte_cpageInit h m hk]
  simp

/-- The memory of a successful allocation of `count` pages from index `i` on. -/
def allocated (i count : Nat) : Memory :=
  memset (setBit h (markTaken h m i count) (i + count - 1 : Nat) (lastPos (i + count - 1 : Nat)))
    (h.pageAddr i) 0 (intWord (4096 * count))

theorem cpageZnalloc_of_firstPair {n : Int} (hn : 0 < n) {first : Nat}
    (hFirst : FirstPair (taken h m) h.pages first) :
    cpageZnalloc h m n =
      (h.pageAddr (first + max 2 n.toNat - 2), allocated h m (first + max 2 n.toNat - 2) (max 2 n.toNat)) := by
  rw [cpageZnalloc, if_neg (by omega), outerLoop_of_firstPair hFirst]
  rfl

/-- A call either changes nothing and returns `NULL`, or takes the first pair. -/
theorem cpageZnalloc_cases (n : Int) :
    cpageZnalloc h m n = (0, m) ∨
      (0 < n ∧ ∃ first, FirstPair (taken h m) h.pages first) := by
  by_cases hn : n ≤ 0
  · exact Or.inl (by rw [cpageZnalloc, if_pos hn])
  · cases hResult : outerLoop (taken h m) h.pages n.toNat 0 0 with
    | none => exact Or.inl (by rw [cpageZnalloc, if_neg hn, hResult])
    | some result =>
        obtain ⟨i, count⟩ := result
        obtain ⟨first, hFirst, _, _⟩ := outerLoop_eq_some hResult
        exact Or.inr ⟨by omega, first, hFirst⟩

/-- The bits of an allocation, also where it ends behind the bookkeeping bytes. -/
theorem taken_allocated_below {i count k : Nat} (hi : i < 2 ^ 19) (hEnd : i + count ≤ 2 ^ 64)
    (hk : k < h.bkRounded.toNat + 4096 * i) :
    taken h (allocated h m i count) k = (taken h m k || (decide (i ≤ k) && decide (k < i + count))) := by
  have hPages := pages_le h
  have hRounded := bkRounded_toNat h
  rw [allocated, taken_congr h (memset_pages_below h _ count hi hk),
    taken_setLast h _ (by omega) (by omega), taken_markTaken h m (by omega) (by omega)]

theorem last_allocated_below {i count k : Nat} (hi : i < 2 ^ 19) (hEnd : i + count ≤ 2 ^ 64)
    (hk : k < h.bkRounded.toNat + 4096 * i) :
    last h (allocated h m i count) k = (last h m k || i + count - 1 == k) := by
  have hPages := pages_le h
  have hRounded := bkRounded_toNat h
  rw [allocated, last_congr h (memset_pages_below h _ count hi hk),
    last_setLast h _ (by omega) (by omega), last_markTaken h m (by omega) (by omega)]

theorem taken_allocated {i count k : Nat} (hi : i < 2 ^ 19) (hFit : i + count ≤ h.pages)
    (hk : k < h.pages) :
    taken h (allocated h m i count) k = (taken h m k || (decide (i ≤ k) && decide (k < i + count))) := by
  have hPages := pages_le h
  have hRounded := bkRounded_toNat h
  exact taken_allocated_below h m hi (by omega) (by omega)

theorem last_allocated {i count k : Nat} (hi : i < 2 ^ 19) (hFit : i + count ≤ h.pages)
    (hk : k < h.pages) :
    last h (allocated h m i count) k = (last h m k || i + count - 1 == k) := by
  have hPages := pages_le h
  have hRounded := bkRounded_toNat h
  exact last_allocated_below h m hi (by omega) (by omega)

/-- More fuel does not change a finished walk. -/
theorem freeLoop_add {k : Int} {fuel : Nat} {m' : Memory} (extra : Nat)
    (hWalk : freeLoop h m k fuel = some m') : freeLoop h m k (fuel + extra) = some m' := by
  induction fuel generalizing m k with
  | zero => simp [freeLoop] at hWalk
  | succ fuel ih =>
      rw [Nat.succ_add_eq_add_succ, Nat.add_succ, freeLoop]
      rw [freeLoop] at hWalk
      split
      · rwa [if_pos (by assumption)] at hWalk
      · rw [if_neg (by assumption)] at hWalk
        exact ih _ hWalk

/-- A walk has no result while it meets no last bit. -/
theorem freeLoop_none {i : Int} {n : Nat} (hLow : -2 ^ 62 ≤ i) (hHigh : i + n ≤ 2 ^ 62)
    (hBefore : ∀ k : Nat, k < n → testBit h m (i + k) (lastPos (i + k)) = false) :
    freeLoop h m i n = none := by
  induction n generalizing m i with
  | zero => rfl
  | succ n ih =>
      have hHere : testBit h m i (lastPos i) = false := by simpa using hBefore 0 (by omega)
      rw [freeLoop]
      simp only [hHere, Bool.false_eq_true, ↓reduceIte]
      refine ih _ (by omega) (by omega) fun k hk => ?_
      have hNext : i + 1 + (k : Int) = i + ((k + 1 : Nat) : Int) := by omega
      rw [testBit_clearBoth_of_ne h m (curByte_ne_of_lt h (by omega) (by omega) (by omega)), hNext]
      exact hBefore (k + 1) (by omega)

/-- The walk of `cpage_free` stops at the first last bit and clears both bits
of every page up to there. -/
theorem freeLoop_int_spec {i : Int} {d fuel : Nat} (hLow : -2 ^ 62 ≤ i) (hHigh : i + d < 2 ^ 62)
    (hFuel : d < fuel) (hLast : testBit h m (i + d) (lastPos (i + d)) = true)
    (hBefore : ∀ k : Nat, k < d → testBit h m (i + k) (lastPos (i + k)) = false) :
    ∃ m', freeLoop h m i fuel = some m' ∧ ∀ l : Nat, l < 2 ^ 62 →
      taken h m' l = (taken h m l && !(decide (i ≤ l) && decide ((l : Int) ≤ i + d))) ∧
      last h m' l = (last h m l && !(decide (i ≤ l) && decide ((l : Int) ≤ i + d))) := by
  induction d generalizing m i fuel with
  | zero =>
      obtain ⟨fuel, rfl⟩ := Nat.exists_eq_add_of_lt hFuel
      have hHere : testBit h m i (lastPos i) = true := by simpa using hLast
      refine ⟨_, by rw [show 0 + fuel + 1 = fuel + 1 by omega, freeLoop, if_pos hHere], fun l hl => ?_⟩
      have hSame : (i != l) = !(decide (i ≤ l) && decide ((l : Int) ≤ i + (0 : Nat))) := by
        by_cases hil : i = l
        · simp [hil]
        · have : ¬ (i ≤ l ∧ (l : Int) ≤ i + (0 : Nat)) := by omega
          rw [← Bool.decide_and, decide_eq_false this, bne_iff_ne.mpr hil, Bool.not_false]
      rw [taken_clearBoth h m hLow (by omega) hl, last_clearBoth h m hLow (by omega) hl, hSame]
      exact ⟨rfl, rfl⟩
  | succ d ih =>
      obtain ⟨fuel, rfl⟩ := Nat.exists_eq_add_of_lt hFuel
      have hHere : testBit h m i (lastPos i) = false := by simpa using hBefore 0 (by omega)
      let cleared := clearBit h (clearBit h m i (takenPos i)) i (lastPos i)
      have hCleared (k : Nat) (hk : k < d + 1) :
          testBit h cleared (i + 1 + k) (lastPos (i + 1 + k)) =
            testBit h m (i + (k + 1 : Nat)) (lastPos (i + (k + 1 : Nat))) := by
        have hNext : i + 1 + (k : Int) = i + ((k + 1 : Nat) : Int) := by omega
        rw [testBit_clearBoth_of_ne h m (curByte_ne_of_lt h (by omega) (by omega) (by omega)), hNext]
      have hLow' : -2 ^ 62 ≤ i + 1 := by omega
      have hFuel' : d < d + 1 + fuel := by omega
      obtain ⟨m', hWalk, hBits⟩ := ih cleared hLow' (by omega) hFuel'
        (by rw [hCleared d (by omega)]; exact hLast)
        (fun k hk => by rw [hCleared k (by omega)]; exact hBefore (k + 1) (by omega))
      refine ⟨m', ?_, fun l hl => ?_⟩
      · rw [freeLoop]
        simp only [hHere, Bool.false_eq_true, ↓reduceIte]
        exact hWalk
      · obtain ⟨hTaken, hLastBit⟩ := hBits l hl
        have hSplit : ((i != l) && !(decide (i + 1 ≤ l) && decide ((l : Int) ≤ i + 1 + d))) =
            !(decide (i ≤ l) && decide ((l : Int) ≤ i + (d + 1 : Nat))) := by
          simp only [← Bool.decide_and, bne, ← Bool.not_or]
          congr 1
          by_cases hil : i = l
          · have hIn : i ≤ l ∧ (l : Int) ≤ i + (d + 1 : Nat) := by omega
            rw [beq_iff_eq.mpr hil, Bool.true_or, decide_eq_true hIn]
          · have hIff : (i + 1 ≤ l ∧ (l : Int) ≤ i + 1 + d) ↔ (i ≤ l ∧ (l : Int) ≤ i + (d + 1 : Nat)) := by
              omega
            simp only [beq_eq_false_iff_ne.mpr hil, Bool.false_or, hIff]
        rw [hTaken, hLastBit, taken_clearBoth h m hLow (by omega) hl,
          last_clearBoth h m hLow (by omega) hl, Bool.and_assoc, Bool.and_assoc, hSplit]
        exact ⟨rfl, rfl⟩

/-- The same from a bookkeeping byte on. -/
theorem freeLoop_spec (i d fuel : Nat) (hEnd : i + d < 2 ^ 62) (hFuel : d < fuel)
    (hLast : last h m (i + d) = true) (hBefore : ∀ k, k < d → last h m (i + k) = false) :
    ∃ m', freeLoop h m i fuel = some m' ∧ ∀ l, l < 2 ^ 62 →
      taken h m' l = (taken h m l && !(decide (i ≤ l) && decide (l ≤ i + d))) ∧
      last h m' l = (last h m l && !(decide (i ≤ l) && decide (l ≤ i + d))) := by
  obtain ⟨m', hWalk, hBits⟩ := freeLoop_int_spec h m (i := i) (by omega) (by omega) hFuel hLast
    hBefore
  refine ⟨m', hWalk, fun l hl => ?_⟩
  have hLow : decide ((i : Int) ≤ l) = decide (i ≤ l) := decide_eq_decide.mpr (by omega)
  have hHigh : decide ((l : Int) ≤ i + d) = decide (l ≤ i + d) := decide_eq_decide.mpr (by omega)
  have hBoth := hBits l hl
  rwa [hLow, hHigh] at hBoth

end Calls

end Kernel.Cpage
