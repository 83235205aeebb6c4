import RiscvOs.Kernel.Uaccess
import RiscvOs.Semantics.Word

/-! When the loops of `uaccess.c` end. At the start of a page the distance to
the next page boundary is rounded to zero. -/
namespace Kernel.Uaccess

open Semantics Mmu

/-- The bytes from an address to the end of its page. -/
def pageRest (a : Word) : Nat :=
  4096 - a.toNat % 4096

/-- The address is the first of a page. -/
def PageStart (a : Word) : Prop :=
  a.toNat % 4096 = 0

/-- Memory after a first chunk that ends with its page. -/
def firstChunk (transfer : Transfer) (m : Memory) (ptable userAddr : Word) : Memory :=
  transfer m (mmuTranslate m ptable userAddr) 0 (BitVec.ofNat 64 (pageRest userAddr))

/-- There is nothing to copy, or the copy does not begin in a mapped page, or it
begins inside a page and goes no further: it has all of its bytes there, or the
next page is not mapped after that chunk. -/
def StopsInPage (transfer : Transfer) (m : Memory) (ptable userAddr : Word) (bytes : BitVec 32) :
    Prop :=
  bytes.toInt ≤ 0 ∨ mmuTranslate m ptable userAddr = -1 ∨
    ¬ PageStart userAddr ∧ (bytes.toInt ≤ pageRest userAddr ∨
      mmuTranslate (firstChunk transfer m ptable userAddr) ptable
        (userAddr + BitVec.ofNat 64 (pageRest userAddr)) = -1)

/-- Each iteration that the loop comes to ends it or advances `i`. -/
def Advances (transfer : Transfer) (ptable userAddr : Word) (bytes : BitVec 32) (m : Memory) :
    Prop :=
  ∀ c, Reaches (iteration transfer ptable userAddr bytes) ⟨0, m⟩ c →
    ∀ d, iteration transfer ptable userAddr bytes c = some d → c.i.toInt < d.i.toInt

section Words

variable {userAddr : Word} {bytes i : BitVec 32}

theorem word_zero : word 0 = 0 := by decide

theorem word_of_nonneg (h : i.toNat < 2 ^ 31) : word i = BitVec.ofNat 64 i.toNat := by
  have hInt : intWord i.toNat = word i := by simp [intWord, word]
  rw [← hInt, intWord_of_lt h]

theorem toNat_alignUpPot_sub (x : Word) :
    (alignUpPot x 4096 - x).toNat = (4096 - x.toNat % 4096) % 4096 := by
  have hUp : (alignUpPot x 4096).toNat = (x.toNat + 4095) % 2 ^ 64 / 4096 * 4096 := by
    have hSum : x + 4096 - 1 = x + 4095 := by bv_omega
    have hMask : alignUpPot x 4096 = (x + 4095) &&& -4096#64 := by
      rw [alignUpPot, hSum]
      rfl
    rw [hMask, toNat_and_neg_4096, BitVec.toNat_add]
    rfl
  rw [BitVec.toNat_sub, hUp]
  omega

theorem tillNextPage_toNat (userAddr : Word) (i : BitVec 32) :
    (tillNextPage userAddr i).toNat = (4096 - (userAddr + word i).toNat % 4096) % 4096 := by
  have hSplit : alignUpPot (userAddr + word i) 4096 - userAddr - word i =
      alignUpPot (userAddr + word i) 4096 - (userAddr + word i) := by bv_omega
  rw [tillNextPage, hSplit, BitVec.toNat_setWidth, toNat_alignUpPot_sub]
  omega

theorem tillNextPage_pageStart (h : PageStart (userAddr + word i)) : tillNextPage userAddr i = 0 := by
  apply BitVec.eq_of_toNat_eq
  unfold PageStart at h
  rw [tillNextPage_toNat, h]
  rfl

theorem pageRest_pos (a : Word) : 0 < pageRest a := by
  unfold pageRest
  omega

theorem pageRest_le (a : Word) : pageRest a ≤ 4096 := by
  unfold pageRest
  omega

/-- The first distance, inside a page. -/
theorem tillNextPage_zero (h : ¬ PageStart userAddr) :
    tillNextPage userAddr 0 = BitVec.ofNat 32 (pageRest userAddr) := by
  apply BitVec.eq_of_toNat_eq
  rw [tillNextPage_toNat, word_zero, add_zero, BitVec.toNat_ofNat]
  unfold PageStart at h
  unfold pageRest
  omega

theorem pageStart_next (userAddr : Word) :
    PageStart (userAddr + BitVec.ofNat 64 (pageRest userAddr)) := by
  unfold PageStart pageRest
  rw [BitVec.toNat_add, BitVec.toNat_ofNat]
  omega

theorem toInt_of_nonneg (h : i.toNat < 2 ^ 31) : i.toInt = i.toNat :=
  BitVec.toInt_eq_toNat_of_lt (by omega)

theorem toNat_lt_of_pos (h : 0 < bytes.toInt) : bytes.toNat < 2 ^ 31 := by
  rw [BitVec.toInt_eq_toNat_cond] at h
  split at h <;> omega

end Words

section Iterations

variable {transfer : Transfer} {m : Memory} {ptable userAddr : Word} {bytes : BitVec 32}

theorem iteration_done {c : Copy} (h : bytes.toInt ≤ c.i.toInt) :
    iteration transfer ptable userAddr bytes c = none := by
  rw [iteration, if_neg]
  rw [BitVec.slt_iff_toInt_lt]
  omega

theorem iteration_unmapped {c : Copy} (h : mmuTranslate c.mem ptable (userAddr + word c.i) = -1) :
    iteration transfer ptable userAddr bytes c = none := by
  rw [iteration]
  split
  · simp only [h, ↓reduceIte]
  · rfl

/-- At the start of a page there is nothing to copy. -/
theorem chunk_pageStart {i : BitVec 32} (hi : i.toNat < 2 ^ 31) (hLess : i.toInt < bytes.toInt)
    (hStart : PageStart (userAddr + word i)) : chunk userAddr bytes i = 0 := by
  have hBytes : bytes.toNat < 2 ^ 31 := toNat_lt_of_pos (by rw [toInt_of_nonneg hi] at hLess; omega)
  rw [toInt_of_nonneg hi, toInt_of_nonneg hBytes] at hLess
  have hRest : (bytes - i).toNat = bytes.toNat - i.toNat := by bv_omega
  have hZero : (0 : BitVec 32).toInt = 0 := by decide
  rw [chunk, tillNextPage_pageStart hStart, if_neg]
  rw [BitVec.slt_iff_toInt_lt, toInt_of_nonneg (by omega), hRest, hZero]
  omega

/-- At the start of a mapped page an iteration copies nothing and does not
advance. -/
theorem iteration_stuck (hNothing : ∀ m phys i, transfer m phys i 0 = m) {i : BitVec 32}
    (hi : i.toNat < 2 ^ 31) (hLess : i.toInt < bytes.toInt)
    (hStart : PageStart (userAddr + word i))
    (hMapped : mmuTranslate m ptable (userAddr + word i) ≠ -1) :
    iteration transfer ptable userAddr bytes ⟨i, m⟩ = some ⟨i, m⟩ := by
  rw [iteration, if_pos (BitVec.slt_iff_toInt_lt.mpr hLess)]
  simp only [hMapped, ↓reduceIte, tillNextPage_pageStart hStart, chunk_pageStart hi hLess hStart,
    word_zero, hNothing, add_zero]

/-- The bytes of the first chunk. -/
theorem chunk_zero (hStart : ¬ PageStart userAddr) (hPos : 0 < bytes.toInt) :
    word (chunk userAddr bytes 0) =
      BitVec.ofNat 64 (min bytes.toNat (pageRest userAddr)) := by
  have hBytes := toNat_lt_of_pos hPos
  have hRest := pageRest_le userAddr
  have hTill : (BitVec.ofNat 32 (pageRest userAddr)).toNat = pageRest userAddr := by
    rw [BitVec.toNat_ofNat]
    omega
  rw [chunk, tillNextPage_zero hStart, sub_zero]
  split
  next hLess =>
    rw [BitVec.slt_iff_toInt_lt, toInt_of_nonneg hBytes, toInt_of_nonneg (by omega), hTill] at hLess
    rw [word_of_nonneg hBytes, Nat.min_eq_left (by omega)]
  next hMore =>
    rw [BitVec.slt_iff_toInt_lt, toInt_of_nonneg hBytes, toInt_of_nonneg (by omega), hTill] at hMore
    rw [word_of_nonneg (by omega), hTill, Nat.min_eq_right (by omega)]

/-- Inside a mapped page the first iteration goes to the end of the page. -/
theorem iteration_first (hStart : ¬ PageStart userAddr) (hPos : 0 < bytes.toInt)
    (hMapped : mmuTranslate m ptable userAddr ≠ -1) :
    iteration transfer ptable userAddr bytes ⟨0, m⟩ =
      some ⟨BitVec.ofNat 32 (pageRest userAddr), transfer m (mmuTranslate m ptable userAddr) 0
        (BitVec.ofNat 64 (min bytes.toNat (pageRest userAddr)))⟩ := by
  have hZero : (0 : BitVec 32).toInt = 0 := by decide
  rw [iteration, if_pos (BitVec.slt_iff_toInt_lt.mpr (by rw [hZero]; exact hPos))]
  simp only [word_zero, add_zero, hMapped, ↓reduceIte, chunk_zero hStart hPos,
    tillNextPage_zero hStart, zero_add]

/-- The second iteration finds the start of the next page. -/
theorem pageStart_rest (userAddr : Word) : userAddr + word (BitVec.ofNat 32 (pageRest userAddr)) =
    userAddr + BitVec.ofNat 64 (pageRest userAddr) := by
  have hRest := pageRest_le userAddr
  have hSmall : (BitVec.ofNat 32 (pageRest userAddr)).toNat = pageRest userAddr := by
    rw [BitVec.toNat_ofNat]
    omega
  rw [word_of_nonneg (by omega), hSmall]

theorem toInt_rest (userAddr : Word) :
    (BitVec.ofNat 32 (pageRest userAddr)).toInt = pageRest userAddr := by
  have hRest := pageRest_le userAddr
  have hSmall : (BitVec.ofNat 32 (pageRest userAddr)).toNat = pageRest userAddr := by
    rw [BitVec.toNat_ofNat]
    omega
  rw [toInt_of_nonneg (by omega), hSmall]

/-- The end of a copy: it copies nothing, or its first chunk. -/
inductive Outcome (transfer : Transfer) (m : Memory) (ptable userAddr : Word) (bytes : BitVec 32) :
    Copy → Prop where
  | nothing (stop : bytes.toInt ≤ 0 ∨ mmuTranslate m ptable userAddr = -1) :
      Outcome transfer m ptable userAddr bytes ⟨0, m⟩
  | chunk (pos : 0 < bytes.toInt) (mapped : mmuTranslate m ptable userAddr ≠ -1)
      (inside : ¬ PageStart userAddr)
      (stop : bytes.toInt ≤ pageRest userAddr ∨
        mmuTranslate (firstChunk transfer m ptable userAddr) ptable
          (userAddr + BitVec.ofNat 64 (pageRest userAddr)) = -1) :
      Outcome transfer m ptable userAddr bytes
        ⟨BitVec.ofNat 32 (pageRest userAddr), transfer m (mmuTranslate m ptable userAddr) 0
          (BitVec.ofNat 64 (min bytes.toNat (pageRest userAddr)))⟩

theorem min_of_more (hMore : pageRest userAddr < bytes.toInt) :
    min bytes.toNat (pageRest userAddr) = pageRest userAddr := by
  rw [toInt_of_nonneg (toNat_lt_of_pos (by omega))] at hMore
  exact Nat.min_eq_right (by omega)

/-- At a second mapped page the loop stays where it is. -/
theorem iteration_rest (hNothing : ∀ m phys i, transfer m phys i 0 = m)
    (hMore : pageRest userAddr < bytes.toInt)
    (hMapped : mmuTranslate m ptable (userAddr + BitVec.ofNat 64 (pageRest userAddr)) ≠ -1) :
    iteration transfer ptable userAddr bytes ⟨BitVec.ofNat 32 (pageRest userAddr), m⟩ =
      some ⟨BitVec.ofNat 32 (pageRest userAddr), m⟩ := by
  have hRest := pageRest_le userAddr
  refine iteration_stuck hNothing ?_ ?_ ?_ ?_
  · rw [BitVec.toNat_ofNat]
    omega
  · rw [toInt_rest]
    exact hMore
  · rw [pageStart_rest]
    exact pageStart_next userAddr
  · rw [pageStart_rest]
    exact hMapped

theorem iteration_nothing (hStop : bytes.toInt ≤ 0 ∨ mmuTranslate m ptable userAddr = -1) :
    iteration transfer ptable userAddr bytes ⟨0, m⟩ = none := by
  rcases hStop with hNone | hUnmapped
  · exact iteration_done hNone
  · exact iteration_unmapped (by rw [word_zero, add_zero]; exact hUnmapped)

theorem iteration_second (hStop : bytes.toInt ≤ pageRest userAddr ∨
      mmuTranslate (firstChunk transfer m ptable userAddr) ptable
        (userAddr + BitVec.ofNat 64 (pageRest userAddr)) = -1) :
    iteration transfer ptable userAddr bytes ⟨BitVec.ofNat 32 (pageRest userAddr),
      transfer m (mmuTranslate m ptable userAddr) 0
        (BitVec.ofNat 64 (min bytes.toNat (pageRest userAddr)))⟩ = none := by
  by_cases hFew : bytes.toInt ≤ pageRest userAddr
  · exact iteration_done (by rw [toInt_rest]; exact hFew)
  · rw [min_of_more (by omega)]
    exact iteration_unmapped (by rw [pageStart_rest]; exact hStop.resolve_left hFew)

theorem endsIn_iff_outcome (hNothing : ∀ m phys i, transfer m phys i 0 = m) {c : Copy} :
    EndsIn (iteration transfer ptable userAddr bytes) ⟨0, m⟩ c ↔
      Outcome transfer m ptable userAddr bytes c := by
  have hZero : (0 : BitVec 32).toInt = 0 := by decide
  have hFirst : userAddr + word 0 = userAddr := by rw [word_zero, add_zero]
  by_cases hStop : bytes.toInt ≤ 0 ∨ mmuTranslate m ptable userAddr = -1
  · rw [endsIn_iff_of_none (iteration_nothing hStop)]
    constructor
    · rintro rfl
      exact .nothing hStop
    · intro hOutcome
      cases hOutcome with
      | nothing => rfl
      | chunk hPos hMapped => exact absurd hStop (not_or.mpr ⟨by omega, hMapped⟩)
  · obtain ⟨hPos, hMapped⟩ := not_or.mp hStop
    have hPos : 0 < bytes.toInt := by omega
    by_cases hStart : PageStart userAddr
    · have hFixed : iteration transfer ptable userAddr bytes ⟨0, m⟩ = some ⟨0, m⟩ :=
        iteration_stuck hNothing (by decide) (by rw [hZero]; exact hPos)
          (by rw [hFirst]; exact hStart) (by rw [hFirst]; exact hMapped)
      refine iff_of_false (not_endsIn_of_fixed hFixed) fun hOutcome => ?_
      cases hOutcome with
      | nothing hNone => exact hStop hNone
      | chunk _ _ hInside => exact hInside hStart
    · rw [endsIn_of_some (iteration_first hStart hPos hMapped)]
      by_cases hLast : bytes.toInt ≤ pageRest userAddr ∨
          mmuTranslate (firstChunk transfer m ptable userAddr) ptable
            (userAddr + BitVec.ofNat 64 (pageRest userAddr)) = -1
      · rw [endsIn_iff_of_none (iteration_second hLast)]
        constructor
        · rintro rfl
          exact .chunk hPos hMapped hStart hLast
        · intro hOutcome
          cases hOutcome with
          | nothing hNone => exact absurd hNone hStop
          | chunk => rfl
      · obtain ⟨hMore, hNext⟩ := not_or.mp hLast
        rw [min_of_more (by omega)]
        refine iff_of_false (not_endsIn_of_fixed (iteration_rest hNothing (by omega) hNext))
          fun hOutcome => ?_
        cases hOutcome with
        | nothing hNone => exact hStop hNone
        | chunk _ _ _ hEnd => exact hLast hEnd

theorem exists_outcome_iff :
    (∃ c, Outcome transfer m ptable userAddr bytes c) ↔
      StopsInPage transfer m ptable userAddr bytes := by
  constructor
  · rintro ⟨_, hOutcome⟩
    cases hOutcome with
    | nothing hNone => exact hNone.imp_right .inl
    | chunk _ _ hInside hEnd => exact .inr (.inr ⟨hInside, hEnd⟩)
  · intro hStops
    by_cases hNone : bytes.toInt ≤ 0 ∨ mmuTranslate m ptable userAddr = -1
    · exact ⟨_, .nothing hNone⟩
    · obtain ⟨hPos, hMapped⟩ := not_or.mp hNone
      rcases hStops with hFew | hUnmapped | ⟨hInside, hEnd⟩
      · exact absurd hFew hPos
      · exact absurd hUnmapped hMapped
      · exact ⟨_, .chunk (by omega) hMapped hInside hEnd⟩

/-- A loop that ends has one iteration at most. -/
theorem advances_of_stops (hStops : StopsInPage transfer m ptable userAddr bytes) :
    Advances transfer ptable userAddr bytes m := by
  obtain ⟨last, hOutcome⟩ := exists_outcome_iff.mpr hStops
  intro c hReach d hNext
  cases hOutcome with
  | nothing hNone =>
      rw [reaches_of_none (iteration_nothing hNone) hReach, iteration_nothing hNone] at hNext
      cases hNext
  | chunk hBytes hMapped hInside hEnd =>
      have hFirst : iteration transfer ptable userAddr bytes ⟨0, m⟩ = some _ :=
        iteration_first hInside hBytes hMapped
      rcases reaches_of_some hFirst hReach with rfl | hReach
      · have hPos := pageRest_pos userAddr
        have hZero : (0 : BitVec 32).toInt = 0 := by decide
        rw [hFirst] at hNext
        cases hNext
        rw [toInt_rest, hZero]
        omega
      · rw [reaches_of_none (iteration_second hEnd) hReach, iteration_second hEnd] at hNext
        cases hNext

end Iterations

section Calls

variable {transfer : Transfer} {m m' : Memory} {ptable userAddr kernelAddr : Word}
  {bytes i : BitVec 32}

theorem memcpy_nothing (m : Memory) (dst src : Word) : memcpy m dst src 0 = m := rfl

theorem copyLoop_iff : (∃ fuel, copyLoop transfer ptable userAddr bytes fuel m = some (i, m')) ↔
    EndsIn (iteration transfer ptable userAddr bytes) ⟨0, m⟩ ⟨i, m'⟩ := by
  refine exists_congr fun fuel => ?_
  simp only [copyLoop, Option.bind_eq_bind, Option.bind_eq_some_iff, Option.some.injEq,
    Prod.mk.injEq]
  constructor
  · rintro ⟨c, hLoop, rfl, rfl⟩
    exact hLoop
  · intro hLoop
    exact ⟨_, hLoop, rfl, rfl⟩

theorem ends_iff_stops (hNothing : ∀ m phys i, transfer m phys i 0 = m) :
    ((∃ fuel result, copyLoop transfer ptable userAddr bytes fuel m = some result) ∧
      Advances transfer ptable userAddr bytes m) ↔
      StopsInPage transfer m ptable userAddr bytes := by
  constructor
  · rintro ⟨⟨fuel, ⟨i, m'⟩, hLoop⟩, -⟩
    exact exists_outcome_iff.mp
      ⟨_, (endsIn_iff_outcome hNothing).mp (copyLoop_iff.mp ⟨fuel, hLoop⟩)⟩
  · intro hStops
    obtain ⟨⟨i, m'⟩, hOutcome⟩ := exists_outcome_iff.mpr hStops
    obtain ⟨fuel, hLoop⟩ := copyLoop_iff.mpr ((endsIn_iff_outcome hNothing).mpr hOutcome)
    exact ⟨⟨fuel, _, hLoop⟩, advances_of_stops hStops⟩

end Calls

/-- Each of the two loops ends, and advances in every iteration, if and only if
it stops in the page in which it begins. -/
theorem copies_end_iff (m : Memory) (ptable userAddr kernelAddr : Word) (bytes : BitVec 32) :
    (((∃ fuel result, copyFromUser kernelAddr ptable userAddr bytes fuel m = some result) ∧
      Advances (fromUser kernelAddr) ptable userAddr bytes m) ↔
      StopsInPage (fromUser kernelAddr) m ptable userAddr bytes) ∧
    (((∃ fuel result, copyToUser ptable userAddr kernelAddr bytes fuel m = some result) ∧
      Advances (toUser kernelAddr) ptable userAddr bytes m) ↔
      StopsInPage (toUser kernelAddr) m ptable userAddr bytes) :=
  ⟨ends_iff_stops fun m phys i => memcpy_nothing m (kernelAddr + i) phys,
    ends_iff_stops fun m phys i => memcpy_nothing m phys (kernelAddr + i)⟩

/-- A table with one page of the user, at 0x400000. -/
def onePage : World :=
  (mmuMap (fun k => 0x80201000 + BitVec.ofNat 64 (4096 * k)) ⟨fun _ => 0, 0⟩ 0x80200000 0x400000
    0x80300000 0b10110).2

theorem onePage_translate : mmuTranslate onePage.mem 0x80200000 0x400000 ≠ -1 := by
  decide +kernel

/-- A byte at the start of the page is never copied, and the loop does not
end. -/
theorem copyToUser_stuck : ¬ ∃ fuel result,
    copyToUser 0x80200000 0x400000 0x80100000 1 fuel onePage.mem = some result := by
  intro hEnds
  obtain ⟨fuel, ⟨i, m'⟩, hLoop⟩ := hEnds
  have hOutcome := (endsIn_iff_outcome fun m phys i => memcpy_nothing m phys (0x80100000 + i)).mp
    (copyLoop_iff.mp ⟨fuel, hLoop⟩)
  cases hOutcome with
  | nothing hStop => exact hStop.elim (by decide) onePage_translate
  | chunk _ _ hInside => exact hInside (by unfold PageStart; decide)

end Kernel.Uaccess
