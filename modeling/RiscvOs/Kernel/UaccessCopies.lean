import RiscvOs.Kernel.MmuRuns
import RiscvOs.Kernel.UaccessRuns

/-! What the copies of `uaccess.c` return and change. Only the first chunk of a
copy is ever made, and the result counts the bytes up to the end of its page. -/
namespace Kernel.Uaccess

open Semantics Mmu

section Page

variable {m : Memory} {a table entry : Word} {k : Nat}

/-- A union with a low field, when the field grows inside its width. -/
theorem or_low_add {high a : Word} {k : Nat} (width : Nat) (hWidth : width ≤ 64)
    (hHigh : ∀ i < width, high.getLsbD i = false) (hFit : a.toNat % 2 ^ width + k < 2 ^ width) :
    high ||| ((a + BitVec.ofNat 64 k) &&& BitVec.ofNat 64 (2 ^ width - 1)) =
      (high ||| (a &&& BitVec.ofNat 64 (2 ^ width - 1))) + BitVec.ofNat 64 k := by
  have hPow : 2 ^ width ∣ 2 ^ 64 := Nat.pow_dvd_pow 2 hWidth
  have hLe : 2 ^ width ≤ 2 ^ 64 := Nat.le_of_dvd (by decide) hPow
  have hLow (b : Word) : high ||| (b &&& BitVec.ofNat 64 (2 ^ width - 1)) =
      high + (b &&& BitVec.ofNat 64 (2 ^ width - 1)) := by
    refine (BitVec.add_eq_or_of_and_eq_zero _ _ ?_).symm
    apply BitVec.eq_of_getLsbD_eq
    intro i hi
    rw [BitVec.getLsbD_and, BitVec.getLsbD_and, getLsbD_lowMask width i hWidth]
    by_cases hLess : i < width
    · simp [hHigh i hLess]
    · simp [hLess]
  have hField (b : Word) : (b &&& BitVec.ofNat 64 (2 ^ width - 1)).toNat = b.toNat % 2 ^ width := by
    have hShift := toNat_shift_and_mask b 0 width hWidth
    simpa using hShift
  have hSum : (a + BitVec.ofNat 64 k) &&& BitVec.ofNat 64 (2 ^ width - 1) =
      (a &&& BitVec.ofNat 64 (2 ^ width - 1)) + BitVec.ofNat 64 k := by
    apply BitVec.eq_of_toNat_eq
    rw [hField, BitVec.toNat_add, BitVec.toNat_add, hField, BitVec.toNat_ofNat,
      Nat.mod_mod_of_dvd _ hPow, Nat.mod_eq_of_lt (by omega : k < 2 ^ 64),
      Nat.mod_eq_of_lt (by omega : a.toNat % 2 ^ width + k < 2 ^ 64), Nat.add_mod,
      Nat.mod_eq_of_lt (by omega : k < 2 ^ width), Nat.mod_eq_of_lt hFit]
  rw [hLow, hLow, hSum, add_assoc]

theorem toNat_add_inPage (hFit : a.toNat % 4096 + k < 4096) :
    (a + BitVec.ofNat 64 k).toNat = a.toNat + k := by
  rw [BitVec.toNat_add, BitVec.toNat_ofNat]
  omega

/-- The indices of a page are those of its addresses. -/
theorem vpn_add_inPage (hFit : a.toNat % 4096 + k < 4096) (i : Nat) :
    vpn (a + BitVec.ofNat 64 k) i = vpn a i := by
  have hPage : (a.toNat + k) / 4096 = a.toNat / 4096 := by omega
  have hIndex (b : Word) : (vpn b i).toNat = b.toNat / 4096 / 2 ^ (9 * i) % 2 ^ 9 := by
    have hField := toNat_shift_and_mask b (12 + 9 * i) 9 (by decide)
    rw [pow_add, ← Nat.div_div_eq_div_mul] at hField
    exact hField
  apply BitVec.eq_of_toNat_eq
  rw [hIndex, hIndex, toNat_add_inPage hFit, hPage]

theorem leafAddr_add_inPage (hFit : a.toNat % 4096 + k < 4096) (entry : Word) (i : Nat) :
    leafAddr entry (a + BitVec.ofNat 64 k) i = leafAddr entry a i + BitVec.ofNat 64 k := by
  match i with
  | 0 =>
      refine or_low_add 12 (by decide) (fun i hi => ?_) hFit
      simp only [BitVec.getLsbD_or, BitVec.getLsbD_shiftLeft]
      simp [hi, (by omega : i < 21), (by omega : i < 30)]
  | 1 =>
      refine or_low_add 21 (by decide) (fun i hi => ?_) (by omega)
      simp only [BitVec.getLsbD_or, BitVec.getLsbD_shiftLeft]
      simp [hi, (by omega : i < 30)]
  | i + 2 =>
      refine or_low_add 30 (by decide) (fun i hi => ?_) (by omega)
      simp only [BitVec.getLsbD_shiftLeft]
      simp [hi]

theorem leafAddr_msb (entry a : Word) (i : Nat) : (leafAddr entry a i).getLsbD 63 = false := by
  have hMask (width : Nat) (hWidth : width ≤ 63) :
      (a &&& BitVec.ofNat 64 (2 ^ width - 1)).getLsbD 63 = false := by
    rw [BitVec.getLsbD_and, getLsbD_lowMask width 63 (by omega)]
    simp [hWidth]
  match i with
  | 0 =>
      have hLow : (a &&& 0xfff#64).getLsbD 63 = false := hMask 12 (by decide)
      simp only [leafAddr, ppn, BitVec.getLsbD_or, hLow]
      simp
  | 1 =>
      have hLow : (a &&& 0x1fffff#64).getLsbD 63 = false := hMask 21 (by decide)
      simp only [leafAddr, ppn, BitVec.getLsbD_or, hLow]
      simp
  | i + 2 =>
      have hLow : (a &&& 0x3fffffff#64).getLsbD 63 = false := hMask 30 (by decide)
      simp only [leafAddr, ppn, BitVec.getLsbD_or, hLow]
      simp

/-- No leaf translates to the value that stands for no address. -/
theorem leafAddr_ne (entry a : Word) (i : Nat) : leafAddr entry a i ≠ -1 := by
  intro hNone
  have hBit := leafAddr_msb entry a i
  rw [hNone] at hBit
  exact absurd hBit (by decide)

/-- A page is translated as a whole. -/
theorem translateLoop_add_inPage (hFit : a.toNat % 4096 + k < 4096) (table : Word) (i : Nat) :
    (translateLoop m a table i = -1 ∧ translateLoop m (a + BitVec.ofNat 64 k) table i = -1) ∨
      (translateLoop m a table i ≠ -1 ∧ translateLoop m (a + BitVec.ofNat 64 k) table i ≠ -1 ∧
        translateLoop m (a + BitVec.ofNat 64 k) table i =
          translateLoop m a table i + BitVec.ofNat 64 k) := by
  induction i generalizing table with
  | zero => exact .inl ⟨rfl, rfl⟩
  | succ i ih =>
      rw [translateLoop, translateLoop, vpn_add_inPage hFit]
      by_cases hValid : ptEntry m table (vpn a i) &&& pbValid = 0
      · simp only [hValid, ↓reduceIte]
        exact .inl ⟨trivial, trivial⟩
      · by_cases hBranch : ptEntry m table (vpn a i) &&& pbLeaf = 0
        · simp only [hValid, hBranch, ↓reduceIte]
          exact ih _
        · simp only [hValid, hBranch, ↓reduceIte]
          exact .inr ⟨leafAddr_ne _ _ _, leafAddr_ne _ _ _, leafAddr_add_inPage hFit _ i⟩

theorem mmuTranslate_add_inPage (hFit : a.toNat % 4096 + k < 4096)
    (hMapped : mmuTranslate m table a ≠ -1) :
    mmuTranslate m table (a + BitVec.ofNat 64 k) =
      mmuTranslate m table a + BitVec.ofNat 64 k :=
  ((translateLoop_add_inPage hFit table 3).resolve_left fun hNone => hMapped hNone.1).2.2

theorem mmuTranslate_inPage_ne (hFit : a.toNat % 4096 + k < 4096) :
    mmuTranslate m table (a + BitVec.ofNat 64 k) = -1 ↔ mmuTranslate m table a = -1 := by
  rcases translateLoop_add_inPage (m := m) hFit table 3 with ⟨hNone, hNone'⟩ | ⟨hSome, hSome', -⟩
  · exact iff_of_true hNone' hNone
  · exact iff_of_false hSome' hSome

theorem toNat_alignDownPot (a : Word) : (alignDownPot a 4096).toNat = a.toNat / 4096 * 4096 :=
  toNat_and_neg_4096 a

theorem mmuTranslate_page_ne (a : Word) :
    mmuTranslate m table (alignDownPot a 4096) = -1 ↔ mmuTranslate m table a = -1 := by
  have hDown := toNat_alignDownPot a
  have hSplit : a = alignDownPot a 4096 + BitVec.ofNat 64 (a.toNat % 4096) := by bv_omega
  have hPage : mmuTranslate m table (alignDownPot a 4096 + BitVec.ofNat 64 (a.toNat % 4096)) = -1 ↔
      mmuTranslate m table (alignDownPot a 4096) = -1 := mmuTranslate_inPage_ne (by omega)
  rw [← hSplit] at hPage
  exact hPage.symm

/-- A walk over tables that keep their bytes. -/
theorem mmuTranslate_congr {m' : Memory} {owned : Set Word} (hLayout : Layout m table owned)
    (hAgree : ∀ t ∈ owned, Memory.AgreeOn m m' t 4096) (a : Word) :
    mmuTranslate m' table a = mmuTranslate m table a := by
  obtain ⟨hLayout', hFind⟩ := hLayout.agree hAgree
  rw [mmuTranslate_eq hLayout', mmuTranslate_eq hLayout, hFind]

end Page

section Exact

/-- The physical address of byte `k` of a user's range. -/
def target (m : Memory) (ptable userAddr : Word) (k : Nat) : Word :=
  mmuTranslate m ptable (userAddr + BitVec.ofNat 64 k)

/-- Every page that overlaps the first `n` bytes is mapped. -/
def AllMapped (m : Memory) (ptable userAddr : Word) (n : Nat) : Prop :=
  ∀ k < n, mmuTranslate m ptable (alignDownPot (userAddr + BitVec.ofNat 64 k) 4096) ≠ -1

/-- The largest number of bytes, up to `bytes`, whose pages are all mapped. -/
structure LongestMapped (m : Memory) (ptable userAddr : Word) (bytes n : Nat) : Prop where
  le : n ≤ bytes
  mapped : AllMapped m ptable userAddr n
  largest : ∀ k ≤ bytes, AllMapped m ptable userAddr k → k ≤ n

/-- The first `n` bytes of the user's range, and no others, take the values of
the kernel's bytes, which are kept when they lie elsewhere. -/
structure CopiedTo (m m' : Memory) (ptable userAddr kernelAddr : Word) (n : Nat) : Prop where
  others : ∀ x, (∀ k < n, x ≠ target m ptable userAddr k) → m' x = m x
  written : (∀ j < n, ∀ k < n, target m ptable userAddr j ≠ kernelAddr + BitVec.ofNat 64 k) →
    ∀ k < n, m' (target m ptable userAddr k) = m (kernelAddr + BitVec.ofNat 64 k)

/-- The user's bytes, the two buffers of the kernel and the tables lie in
different places. -/
structure Distinct (m : Memory) (ptable userAddr kernelAddr kernelAddr' : Word) (n : Nat) :
    Prop where
  source : ∀ j < n, ∀ k < n, target m ptable userAddr j ≠ kernelAddr + BitVec.ofNat 64 k
  back : ∀ j < n, ∀ k < n, target m ptable userAddr j ≠ kernelAddr' + BitVec.ofNat 64 k
  tables : ∃ owned, Layout m ptable owned ∧ ∀ t ∈ owned, ∀ x, InRange t 4096 x → ∀ k < n,
    x ≠ target m ptable userAddr k ∧ x ≠ kernelAddr' + BitVec.ofNat 64 k

/-- Both copies return the number of bytes that are mapped, `copy_to_user`
writes these bytes, and a `copy_from_user` behind it brings them back. -/
def CopiesExactly (m : Memory) (ptable userAddr kernelAddr kernelAddr' : Word)
    (bytes : BitVec 32) : Prop :=
  ∃ n m', LongestMapped m ptable userAddr bytes.toNat n ∧
    (∃ fuel, copyToUser ptable userAddr kernelAddr bytes fuel m = some (BitVec.ofNat 32 n, m')) ∧
    CopiedTo m m' ptable userAddr kernelAddr n ∧
    (∃ fuel m'', copyFromUser kernelAddr' ptable userAddr bytes fuel m =
      some (BitVec.ofNat 32 n, m'')) ∧
    (Distinct m ptable userAddr kernelAddr kernelAddr' n →
      ∃ fuel m'', copyFromUser kernelAddr' ptable userAddr bytes fuel m' =
          some (BitVec.ofNat 32 n, m'') ∧
        ∀ k < n, m'' (kernelAddr' + BitVec.ofNat 64 k) = m (kernelAddr + BitVec.ofNat 64 k))

/-- The copy is empty, or it does not begin in a mapped page, or it begins
inside a page and either has the rest of that page for its length or goes on to
a page that is not mapped, before and after the first chunk. -/
def StopsAtPageEnd (m : Memory) (ptable userAddr kernelAddr kernelAddr' : Word)
    (bytes : BitVec 32) : Prop :=
  bytes = 0 ∨ mmuTranslate m ptable userAddr = -1 ∨
    ¬ PageStart userAddr ∧ (bytes.toNat = pageRest userAddr ∨
      pageRest userAddr < bytes.toNat ∧
        ∀ m₁ ∈ [m, firstChunk (toUser kernelAddr) m ptable userAddr,
            firstChunk (fromUser kernelAddr') m ptable userAddr],
          mmuTranslate m₁ ptable (userAddr + BitVec.ofNat 64 (pageRest userAddr)) = -1)

variable {m m' : Memory} {ptable userAddr kernelAddr kernelAddr' : Word} {bytes : BitVec 32}

theorem fits_of_lt {k : Nat} (hk : k < pageRest userAddr) : userAddr.toNat % 4096 + k < 4096 := by
  unfold pageRest at hk
  omega

theorem target_inPage {k : Nat} (hk : k < pageRest userAddr)
    (hMapped : mmuTranslate m ptable userAddr ≠ -1) :
    target m ptable userAddr k = mmuTranslate m ptable userAddr + BitVec.ofNat 64 k :=
  mmuTranslate_add_inPage (fits_of_lt hk) hMapped

theorem allMapped_rest (hMapped : mmuTranslate m ptable userAddr ≠ -1) :
    AllMapped m ptable userAddr (pageRest userAddr) := by
  intro k hk hNone
  rw [mmuTranslate_page_ne, mmuTranslate_inPage_ne (fits_of_lt hk)] at hNone
  exact hMapped hNone

theorem not_allMapped_of_first (hUnmapped : mmuTranslate m ptable userAddr = -1) {n : Nat}
    (hn : 0 < n) : ¬ AllMapped m ptable userAddr n := by
  intro hAll
  refine hAll 0 hn ?_
  rw [mmuTranslate_page_ne, show userAddr + BitVec.ofNat 64 0 = userAddr by simp]
  exact hUnmapped

theorem not_allMapped_of_next {n : Nat} (hn : pageRest userAddr < n)
    (hUnmapped : mmuTranslate m ptable (userAddr + BitVec.ofNat 64 (pageRest userAddr)) = -1) :
    ¬ AllMapped m ptable userAddr n := by
  intro hAll
  exact hAll _ hn ((mmuTranslate_page_ne _).mpr hUnmapped)

theorem allMapped_next (hMapped : mmuTranslate m ptable userAddr ≠ -1)
    (hNext : mmuTranslate m ptable (userAddr + BitVec.ofNat 64 (pageRest userAddr)) ≠ -1) :
    AllMapped m ptable userAddr (pageRest userAddr + 1) := by
  intro k hk
  by_cases hLast : k = pageRest userAddr
  · rw [hLast, Ne, mmuTranslate_page_ne]
    exact hNext
  · exact allMapped_rest hMapped k (by omega)

/-- The bytes that a `memcpy` of the first chunk moves. -/
theorem copySize_chunk (a : Word) {n : Nat} (hn : n ≤ pageRest a) :
    copySize (BitVec.ofNat 64 n) = n := by
  have hRest := pageRest_le a
  rw [copySize_of_lt]
  · rw [BitVec.toNat_ofNat]
    omega
  · rw [BitVec.toNat_ofNat]
    omega

/-- What the first chunk of `copy_to_user` writes. -/
theorem copiedTo_chunk (hMapped : mmuTranslate m ptable userAddr ≠ -1) {n : Nat}
    (hn : n ≤ pageRest userAddr) :
    CopiedTo m (memcpy m (mmuTranslate m ptable userAddr) kernelAddr (BitVec.ofNat 64 n))
      ptable userAddr kernelAddr n := by
  have hSize := copySize_chunk userAddr hn
  have hRest := pageRest_le userAddr
  have hTarget {k : Nat} (hk : k < n) : target m ptable userAddr k =
      mmuTranslate m ptable userAddr + BitVec.ofNat 64 k :=
    target_inPage (lt_of_lt_of_le hk hn) hMapped
  constructor
  · intro x hx
    refine memcpy_outside m fun hIn => ?_
    rw [hSize, inRange_iff_exists (by omega)] at hIn
    obtain ⟨k, hk, hEq⟩ := hIn
    exact hx k hk (by rw [hTarget hk]; exact hEq)
  · intro hApart k hk
    rw [hTarget hk]
    refine memcpy_inside m (fun x hSource hIn => ?_) (by rw [hSize]; exact hk)
    rw [hSize, inRange_iff_exists (by omega)] at hSource hIn
    obtain ⟨i, hi, hEq⟩ := hSource
    obtain ⟨j, hj, hEq'⟩ := hIn
    exact hApart j hj i hi (by rw [hTarget hj, ← hEq', hEq])

/-- The chunk that `copy_from_user` brings back. -/
theorem copiedFrom_chunk (hMapped : mmuTranslate m ptable userAddr ≠ -1) {n : Nat}
    (hn : n ≤ pageRest userAddr)
    (hApart : ∀ j < n, ∀ k < n, target m ptable userAddr j ≠ kernelAddr + BitVec.ofNat 64 k)
    {k : Nat} (hk : k < n) :
    memcpy m' kernelAddr (mmuTranslate m ptable userAddr) (BitVec.ofNat 64 n)
      (kernelAddr + BitVec.ofNat 64 k) = m' (target m ptable userAddr k) := by
  have hSize := copySize_chunk userAddr hn
  have hRest := pageRest_le userAddr
  have hTarget {k : Nat} (hk : k < n) : target m ptable userAddr k =
      mmuTranslate m ptable userAddr + BitVec.ofNat 64 k :=
    target_inPage (lt_of_lt_of_le hk hn) hMapped
  rw [hTarget hk]
  refine memcpy_inside m' (fun x hSource hIn => ?_) (by rw [hSize]; exact hk)
  rw [hSize, inRange_iff_exists (by omega)] at hSource hIn
  obtain ⟨i, hi, hEq⟩ := hSource
  obtain ⟨j, hj, hEq'⟩ := hIn
  exact hApart i hi j hj (by rw [hTarget hi, ← hEq, hEq'])

theorem returns_iff {transfer : Transfer}
    (hNothing : ∀ m phys i, transfer m phys i 0 = m) {i : BitVec 32} :
    (∃ fuel, copyLoop transfer ptable userAddr bytes fuel m = some (i, m')) ↔
      Outcome transfer m ptable userAddr bytes ⟨i, m'⟩ :=
  copyLoop_iff.trans (endsIn_iff_outcome hNothing)

theorem toUser_nothing (kernelAddr : Word) : ∀ m phys i, toUser kernelAddr m phys i 0 = m :=
  fun m phys i => memcpy_nothing m phys (kernelAddr + i)

theorem fromUser_nothing (kernelAddr : Word) : ∀ m phys i, fromUser kernelAddr m phys i 0 = m :=
  fun m phys i => memcpy_nothing m (kernelAddr + i) phys

theorem toNat_of_nonneg (hBytes : 0 ≤ bytes.toInt) :
    bytes.toNat < 2 ^ 31 ∧ bytes.toInt = bytes.toNat := by
  rw [BitVec.toInt_eq_toNat_cond] at hBytes ⊢
  split at hBytes <;> omega

/-- A copy of nothing. -/
theorem exact_of_nothing (hBytes : 0 ≤ bytes.toInt)
    (hNothing : bytes = 0 ∨ mmuTranslate m ptable userAddr = -1) :
    CopiesExactly m ptable userAddr kernelAddr kernelAddr' bytes := by
  have hStop : bytes.toInt ≤ 0 ∨ mmuTranslate m ptable userAddr = -1 :=
    hNothing.imp_left fun hZero => by rw [hZero]; decide
  have hTo : ∃ fuel, copyLoop (toUser kernelAddr) ptable userAddr bytes fuel m = some (0, m) :=
    (returns_iff (toUser_nothing kernelAddr)).mpr (.nothing hStop)
  have hFrom : ∃ fuel, copyLoop (fromUser kernelAddr') ptable userAddr bytes fuel m =
      some (0, m) :=
    (returns_iff (fromUser_nothing kernelAddr')).mpr (.nothing hStop)
  refine ⟨0, m, ⟨Nat.zero_le _, fun k hk => absurd hk (by omega), fun k hk hAll => ?_⟩, hTo,
    ⟨fun _ _ => rfl, fun _ k hk => absurd hk (by omega)⟩, ⟨_, _, hFrom.choose_spec⟩,
    fun _ => ⟨_, _, hFrom.choose_spec, fun k hk => absurd hk (by omega)⟩⟩
  rcases hNothing with rfl | hUnmapped
  · exact hk
  · by_contra hMore
    exact not_allMapped_of_first hUnmapped (by omega) hAll

/-- A copy of the rest of its first page. -/
theorem exact_of_chunk (hPos : 0 < bytes.toInt) (hMapped : mmuTranslate m ptable userAddr ≠ -1)
    (hInside : ¬ PageStart userAddr) (hLe : pageRest userAddr ≤ bytes.toNat)
    (hNext : pageRest userAddr < bytes.toNat →
      ∀ m₁ ∈ [m, firstChunk (toUser kernelAddr) m ptable userAddr,
          firstChunk (fromUser kernelAddr') m ptable userAddr],
        mmuTranslate m₁ ptable (userAddr + BitVec.ofNat 64 (pageRest userAddr)) = -1) :
    CopiesExactly m ptable userAddr kernelAddr kernelAddr' bytes := by
  obtain ⟨hSmall, hInt⟩ := toNat_of_nonneg hPos.le
  have hMin : min bytes.toNat (pageRest userAddr) = pageRest userAddr := Nat.min_eq_right hLe
  -- A copy in memory where the page is translated as before, to the end of the page.
  have hReturns {transfer : Transfer} {m₁ : Memory}
      (hNothing : ∀ m phys i, transfer m phys i 0 = m)
      (hSame : mmuTranslate m₁ ptable userAddr = mmuTranslate m ptable userAddr)
      (hStop : pageRest userAddr < bytes.toNat →
        mmuTranslate (firstChunk transfer m₁ ptable userAddr) ptable
          (userAddr + BitVec.ofNat 64 (pageRest userAddr)) = -1) :
      ∃ fuel, copyLoop transfer ptable userAddr bytes fuel m₁ =
        some (BitVec.ofNat 32 (pageRest userAddr), firstChunk transfer m₁ ptable userAddr) := by
    rw [returns_iff hNothing]
    have hEnd : bytes.toInt ≤ pageRest userAddr ∨
        mmuTranslate (firstChunk transfer m₁ ptable userAddr) ptable
          (userAddr + BitVec.ofNat 64 (pageRest userAddr)) = -1 := by
      by_cases hMore : pageRest userAddr < bytes.toNat
      · exact .inr (hStop hMore)
      · exact .inl (by omega)
    have hOutcome := Outcome.chunk hPos (by rw [hSame]; exact hMapped) hInside hEnd
    rwa [hMin] at hOutcome
  have hTo : firstChunk (toUser kernelAddr) m ptable userAddr =
      memcpy m (mmuTranslate m ptable userAddr) kernelAddr (BitVec.ofNat 64 (pageRest userAddr)) := by
    rw [firstChunk, toUser, add_zero]
  have hCopied : CopiedTo m (firstChunk (toUser kernelAddr) m ptable userAddr) ptable userAddr
      kernelAddr (pageRest userAddr) := by
    rw [hTo]
    exact copiedTo_chunk hMapped le_rfl
  refine ⟨pageRest userAddr, _, ⟨hLe, allMapped_rest hMapped, fun k hk hAll => ?_⟩,
    hReturns (toUser_nothing _) rfl fun hMore => hNext hMore _ (by simp), hCopied, ?_, ?_⟩
  · by_contra hMore
    exact not_allMapped_of_next (by omega) (hNext (by omega) m (by simp)) hAll
  · obtain ⟨fuel, hFrom⟩ := hReturns (fromUser_nothing kernelAddr') rfl
      fun hMore => hNext hMore _ (by simp)
    exact ⟨fuel, _, hFrom⟩
  · rintro ⟨hSource, hBack, owned, hLayout, hTables⟩
    have hKept : ∀ t ∈ owned, Memory.AgreeOn m
        (firstChunk (toUser kernelAddr) m ptable userAddr) t 4096 := fun t ht x hx =>
      hCopied.others x fun k hk => (hTables t ht x hx k hk).1
    have hSame := mmuTranslate_congr hLayout hKept userAddr
    have hFrom : firstChunk (fromUser kernelAddr')
        (firstChunk (toUser kernelAddr) m ptable userAddr) ptable userAddr =
        memcpy (firstChunk (toUser kernelAddr) m ptable userAddr) kernelAddr'
          (mmuTranslate m ptable userAddr) (BitVec.ofNat 64 (pageRest userAddr)) := by
      rw [firstChunk, fromUser, add_zero, hSame]
    obtain ⟨fuel, hLoop⟩ := @hReturns _ (firstChunk (toUser kernelAddr) m ptable userAddr)
      (fromUser_nothing kernelAddr') hSame fun hMore => by
        rw [mmuTranslate_congr hLayout]
        · exact hNext hMore m (by simp)
        · intro t ht x hx
          rw [hFrom, memcpy_outside, hKept t ht x hx]
          intro hIn
          rw [copySize_chunk userAddr le_rfl, inRange_iff_exists (by
            have hRest := pageRest_le userAddr
            omega)] at hIn
          obtain ⟨k, hk, hEq⟩ := hIn
          exact (hTables t ht x hx k hk).2 hEq
    refine ⟨fuel, _, hLoop, fun k hk => ?_⟩
    rw [hFrom, copiedFrom_chunk hMapped le_rfl hBack hk]
    exact hCopied.written hSource k hk

theorem exact_of_stopsAtPageEnd (hBytes : 0 ≤ bytes.toInt)
    (hStops : StopsAtPageEnd m ptable userAddr kernelAddr kernelAddr' bytes) :
    CopiesExactly m ptable userAddr kernelAddr kernelAddr' bytes := by
  by_cases hNothing : bytes = 0 ∨ mmuTranslate m ptable userAddr = -1
  · exact exact_of_nothing hBytes hNothing
  · obtain ⟨hNonzero, hMapped⟩ := not_or.mp hNothing
    obtain ⟨-, hInt⟩ := toNat_of_nonneg hBytes
    have hPos : 0 < bytes.toInt := by
      have hNe : bytes.toNat ≠ 0 := fun hZero => hNonzero (BitVec.eq_of_toNat_eq hZero)
      omega
    rcases hStops with hZero | hUnmapped | ⟨hInside, hSame | ⟨hMore, hNext⟩⟩
    · exact absurd hZero hNonzero
    · exact absurd hUnmapped hMapped
    · exact exact_of_chunk hPos hMapped hInside hSame.ge fun hMore => absurd hMore (by omega)
    · exact exact_of_chunk hPos hMapped hInside hMore.le fun _ => hNext

theorem stopsAtPageEnd_of_exact (hBytes : 0 ≤ bytes.toInt)
    (hExact : CopiesExactly m ptable userAddr kernelAddr kernelAddr' bytes) :
    StopsAtPageEnd m ptable userAddr kernelAddr kernelAddr' bytes := by
  obtain ⟨n, m', hLongest, hTo, -, hFrom, -⟩ := hExact
  obtain ⟨hSmall, hInt⟩ := toNat_of_nonneg hBytes
  by_cases hNothing : bytes = 0 ∨ mmuTranslate m ptable userAddr = -1
  · exact hNothing.imp_right .inl
  · obtain ⟨hNonzero, hMapped⟩ := not_or.mp hNothing
    have hPos : bytes.toNat ≠ 0 := fun hZero => hNonzero (BitVec.eq_of_toNat_eq hZero)
    have hRest := pageRest_le userAddr
    have hn := hLongest.le
    -- The result is the rest of the page, and no exact copy returns more than `bytes`.
    have hChunk {transfer : Transfer} {m'' : Memory}
        (hOutcome : Outcome transfer m ptable userAddr bytes ⟨BitVec.ofNat 32 n, m''⟩) :
        n = pageRest userAddr ∧ ¬ PageStart userAddr ∧ (bytes.toInt ≤ pageRest userAddr ∨
          mmuTranslate (firstChunk transfer m ptable userAddr) ptable
            (userAddr + BitVec.ofNat 64 (pageRest userAddr)) = -1) := by
      generalize hResult : BitVec.ofNat 32 n = result at hOutcome
      cases hOutcome with
      | nothing hStop => exact (hStop.elim (by omega) hMapped).elim
      | chunk _ _ hInside hEnd =>
          have hCount := congrArg BitVec.toNat hResult
          rw [BitVec.toNat_ofNat, BitVec.toNat_ofNat] at hCount
          exact ⟨by omega, hInside, hEnd⟩
    obtain ⟨rfl, hInside, hEndTo⟩ := hChunk ((returns_iff (toUser_nothing kernelAddr)).mp hTo)
    obtain ⟨fuel, m'', hFrom⟩ := hFrom
    obtain ⟨-, -, hEndFrom⟩ := hChunk ((returns_iff (fromUser_nothing kernelAddr')).mp ⟨fuel, hFrom⟩)
    refine .inr (.inr ⟨hInside, ?_⟩)
    by_cases hSame : bytes.toNat = pageRest userAddr
    · exact .inl hSame
    · refine .inr ⟨by omega, ?_⟩
      simp only [List.mem_cons, List.not_mem_nil, or_false, forall_eq_or_imp, forall_eq]
      refine ⟨?_, hEndTo.resolve_left (by omega), hEndFrom.resolve_left (by omega)⟩
      by_contra hNext
      have hMore := hLongest.largest (pageRest userAddr + 1) (by omega)
        (allMapped_next hMapped hNext)
      omega

/-- Both copies are exact if and only if they stop at the end of the page in
which they begin. -/
theorem copiesExactly_iff (m : Memory) (ptable userAddr kernelAddr kernelAddr' : Word)
    {bytes : BitVec 32} (hBytes : 0 ≤ bytes.toInt) :
    CopiesExactly m ptable userAddr kernelAddr kernelAddr' bytes ↔
      StopsAtPageEnd m ptable userAddr kernelAddr kernelAddr' bytes :=
  ⟨stopsAtPageEnd_of_exact hBytes, exact_of_stopsAtPageEnd hBytes⟩

theorem copiesExactly_iff_last : CopiesExactly onePage.mem 0x80200000 0x400ffc 0x80100000
    0x80108000 4 ↔ StopsAtPageEnd onePage.mem 0x80200000 0x400ffc 0x80100000 0x80108000 4 :=
  copiesExactly_iff onePage.mem 0x80200000 0x400ffc 0x80100000 0x80108000 (by decide)

/-- Ten bytes inside a page: the result counts up to the end of the page. -/
theorem not_copiesExactly :
    ¬ CopiesExactly onePage.mem 0x80200000 0x400005 0x80100000 0x80108000 10 := by
  intro hExact
  have hMapped : mmuTranslate onePage.mem 0x80200000 0x400005 ≠ -1 := by decide +kernel
  rcases stopsAtPageEnd_of_exact (by decide) hExact with hZero | hUnmapped | ⟨-, hSame | hMore⟩
  · exact absurd hZero (by decide)
  · exact hMapped hUnmapped
  · exact absurd hSame (by unfold pageRest; decide)
  · exact absurd hMore.1 (by unfold pageRest; decide)

end Exact

end Kernel.Uaccess
