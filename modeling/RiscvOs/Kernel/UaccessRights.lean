import RiscvOs.Kernel.ProcessSpace
import RiscvOs.Kernel.UaccessCopies

/-! Which pages of a process the copies of `uaccess.c` reach. They translate an
address without a look at the rights of its leaf. -/
namespace Kernel.Uaccess

open Semantics Radix Mmu

/-- `PB_READ` -/
def pbRead : Word := 1 <<< 1

/-- `PB_WRITE` -/
def pbWrite : Word := 1 <<< 2

/-- The leaf entry of an address carries all of the bits. -/
def Permits (m : Memory) (table bits a : Word) : Prop :=
  ∃ entry, find (cells m) table (indices a 3) = some entry ∧ entry &&& bits = bits

/-- Every byte of the user's range that an iteration moves lies in a page whose
leaf carries the bits. -/
def MovesOnly (transfer : Transfer) (bits : Word) (m : Memory) (ptable userAddr : Word)
    (bytes : BitVec 32) : Prop :=
  ∀ c, Reaches (iteration transfer ptable userAddr bytes) ⟨0, m⟩ c →
    ∀ d, iteration transfer ptable userAddr bytes c = some d →
      ∀ k < copySize (word (chunk userAddr bytes c.i)),
        Permits c.mem ptable bits (userAddr + word c.i + BitVec.ofNat 64 k)

/-- The page of the address is one that `p_new` maps for the stack. -/
def InStackMaps (p : Process) (a : Word) : Prop :=
  ∃ c ∈ stackMaps p.stack (stackBits true), vpn27 c.vaddr = vpn27 a

section Moves

variable {transfer : Transfer} {bits : Word} {m : Memory} {ptable userAddr a : Word}
  {bytes : BitVec 32}

/-- The addresses of a page have the same leaf. -/
theorem permits_inPage {k : Nat} (hFit : a.toNat % 4096 + k < 4096) :
    Permits m ptable bits (a + BitVec.ofNat 64 k) ↔ Permits m ptable bits a := by
  have hPage : vpn27 (a + BitVec.ofNat 64 k) = vpn27 a := by
    apply BitVec.eq_of_toNat_eq
    rw [toNat_vpn27, toNat_vpn27, toNat_add_inPage hFit]
    omega
  unfold Permits
  rw [(indices_eq_iff _ _).mpr hPage]

/-- Bytes are moved by the first iteration only, and inside a page. -/
theorem first_of_moves (hNothing : ∀ m phys i, transfer m phys i 0 = m) {c d : Copy}
    (hReach : Reaches (iteration transfer ptable userAddr bytes) ⟨0, m⟩ c)
    (hNext : iteration transfer ptable userAddr bytes c = some d)
    (hMoves : 0 < copySize (word (chunk userAddr bytes c.i))) :
    c = ⟨0, m⟩ ∧ 0 < bytes.toInt ∧ ¬ PageStart userAddr ∧ mmuTranslate m ptable userAddr ≠ -1 := by
  have hZero : (0 : BitVec 32).toInt = 0 := by decide
  have hEmpty : copySize (word 0) = 0 := by decide
  have hFirst : userAddr + word 0 = userAddr := by rw [word_zero, add_zero]
  by_cases hStop : bytes.toInt ≤ 0 ∨ mmuTranslate m ptable userAddr = -1
  · rw [reaches_of_none (iteration_nothing hStop) hReach, iteration_nothing hStop] at hNext
    cases hNext
  · obtain ⟨hPos, hMapped⟩ := not_or.mp hStop
    have hPos : 0 < bytes.toInt := by omega
    by_cases hStart : PageStart userAddr
    · have hFixed : iteration transfer ptable userAddr bytes ⟨0, m⟩ = some ⟨0, m⟩ :=
        iteration_stuck hNothing (by decide) (by rw [hZero]; exact hPos)
          (by rw [hFirst]; exact hStart) (by rw [hFirst]; exact hMapped)
      have hSmall : (0 : BitVec 32).toNat < 2 ^ 31 := by decide
      rw [reaches_of_fixed hFixed hReach, chunk_pageStart hSmall (by rw [hZero]; exact hPos)
        (by rw [hFirst]; exact hStart), hEmpty] at hMoves
      exact absurd hMoves (lt_irrefl _)
    · rcases reaches_of_some (iteration_first hStart hPos hMapped) hReach with hSame | hReach
      · exact ⟨hSame, hPos, hStart, hMapped⟩
      · exfalso
        by_cases hLast : bytes.toInt ≤ pageRest userAddr ∨
            mmuTranslate (firstChunk transfer m ptable userAddr) ptable
              (userAddr + BitVec.ofNat 64 (pageRest userAddr)) = -1
        · rw [reaches_of_none (iteration_second hLast) hReach, iteration_second hLast] at hNext
          cases hNext
        · obtain ⟨hMore, hMappedNext⟩ := not_or.mp hLast
          rw [min_of_more (by omega)] at hReach
          have hFixed := iteration_rest hNothing (by omega : pageRest userAddr < bytes.toInt)
            hMappedNext
          have hRest := pageRest_le userAddr
          rw [reaches_of_fixed hFixed hReach, chunk_pageStart ?_ ?_ ?_, hEmpty] at hMoves
          · exact absurd hMoves (lt_irrefl _)
          · rw [BitVec.toNat_ofNat]
            omega
          · rw [toInt_rest]
            omega
          · rw [pageStart_rest]
            exact pageStart_next userAddr

/-- A copy moves bytes of permitted pages only, if and only if its first page
is one of them when it moves any. -/
theorem movesOnly_iff (hNothing : ∀ m phys i, transfer m phys i 0 = m) :
    MovesOnly transfer bits m ptable userAddr bytes ↔
      (0 < bytes.toInt → ¬ PageStart userAddr → mmuTranslate m ptable userAddr ≠ -1 →
        Permits m ptable bits userAddr) := by
  constructor
  · intro hMoves hPos hInside hMapped
    have hRest := pageRest_pos userAddr
    have hBytes := toNat_lt_of_pos hPos
    rw [toInt_of_nonneg hBytes] at hPos
    have hSize : 0 < copySize (word (chunk userAddr bytes 0)) := by
      rw [chunk_zero hInside (by rw [toInt_of_nonneg hBytes]; exact hPos),
        copySize_chunk userAddr (Nat.min_le_right _ _)]
      omega
    have hPermits := hMoves ⟨0, m⟩ .refl _
      (iteration_first hInside (by rw [toInt_of_nonneg hBytes]; exact hPos) hMapped) 0 hSize
    rw [word_zero, add_zero, permits_inPage (by omega)] at hPermits
    exact hPermits
  · intro hPermits c hReach d hNext k hk
    obtain ⟨rfl, hPos, hInside, hMapped⟩ := first_of_moves hNothing hReach hNext (by omega)
    rw [chunk_zero hInside hPos, copySize_chunk userAddr (Nat.min_le_right _ _)] at hk
    rw [word_zero, add_zero, permits_inPage (fits_of_lt (by omega))]
    exact hPermits hPos hInside hMapped

end Moves

section NewProcess

variable {answer : Nat → Word} {g : Globals} {w w' : World} {p : Process}

/-- The bits that a leaf was made with. -/
theorem leafEntry_and (paddr : Word) {bits mask : Word} (h : bits &&& mask = mask) :
    leafEntry paddr bits &&& mask = mask := by
  have hBits : leafEntry paddr bits &&& mask = ((leafEntry paddr bits ||| bits) &&& mask) := by
    apply BitVec.eq_of_getLsbD_eq
    intro i hi
    simp only [leafEntry, BitVec.getLsbD_and, BitVec.getLsbD_or]
    grind
  rw [hBits]
  apply BitVec.eq_of_getLsbD_eq
  intro i hi
  have hBit := congrArg (·.getLsbD i) h
  simp only [BitVec.getLsbD_and, BitVec.getLsbD_or] at hBit ⊢
  grind

/-- The pages of a new user process that carry rights of the user are those
that are mapped for its stack. -/
theorem permits_iff_inStackMaps (hNew : pNew answer g true w = some (some p, w'))
    (hFresh : FreshProcess answer w.calls w'.calls) {bits a : Word}
    (hUser : bits &&& pbUser = pbUser) (hBits : stackBits true &&& bits = bits) :
    Permits w'.mem p.ptable bits a ↔ InStackMaps p a := by
  obtain ⟨-, hLayout, ⟨phys₁, phys₂, phys₃, hFind⟩, -⟩ := pNew_spec hNew hFresh
  rw [Permits, hFind, lastMapping_append]
  constructor
  · rintro ⟨entry, hEntry, hCarries⟩
    obtain ⟨c, hLast, rfl⟩ := Option.map_eq_some_iff.mp hEntry
    cases hStack : lastMapping (stackMaps p.stack (stackBits true)) a with
    | some d =>
        have hPage := List.find?_some hStack
        exact ⟨d, by simpa using List.mem_of_find?_eq_some hStack, by simpa using hPage⟩
    | none =>
        rw [hStack, Option.none_or] at hLast
        have hMem : c ∈ kernelMaps g (answer w.calls) phys₁ phys₂ phys₃ := by
          simpa using List.mem_of_find?_eq_some hLast
        have hNoUser : c.bits &&& pbUser = 0 := by
          rcases kernelMaps_bits hMem with hC | hC
          · rw [hC]
            decide
          · rw [hC]
            decide
        have hLeaf : leafEntry c.paddr c.bits &&& pbUser = pbUser := by
          rw [← hUser, ← BitVec.and_assoc, hCarries]
        rw [leafEntry_and_pbUser, hNoUser] at hLeaf
        exact absurd hLeaf (by decide)
  · rintro ⟨c, hMem, hPage⟩
    obtain ⟨d, hd, hLast⟩ := lastMapping_some hMem hPage
    rw [hLast]
    refine ⟨_, rfl, leafEntry_and _ ?_⟩
    rw [bits_of_mem_rangeMaps hd]
    exact hBits

/-- The copies of a new user process keep to the rights of its pages if and
only if they move nothing or begin in a page of the stack. -/
theorem rights_iff (hNew : pNew answer g true w = some (some p, w'))
    (hFresh : FreshProcess answer w.calls w'.calls) (userAddr kernelAddr : Word)
    (bytes : BitVec 32) :
    (MovesOnly (toUser kernelAddr) (pbUser ||| pbWrite) w'.mem p.ptable userAddr bytes ↔
      bytes.toInt ≤ 0 ∨ PageStart userAddr ∨ mmuTranslate w'.mem p.ptable userAddr = -1 ∨
        InStackMaps p userAddr) ∧
    (MovesOnly (fromUser kernelAddr) (pbUser ||| pbRead) w'.mem p.ptable userAddr bytes ↔
      bytes.toInt ≤ 0 ∨ PageStart userAddr ∨ mmuTranslate w'.mem p.ptable userAddr = -1 ∨
        InStackMaps p userAddr) := by
  have hSplit {transfer : Transfer} {bits : Word}
      (hNothing : ∀ m phys i, transfer m phys i 0 = m) (hUser : bits &&& pbUser = pbUser)
      (hBits : stackBits true &&& bits = bits) :
      MovesOnly transfer bits w'.mem p.ptable userAddr bytes ↔
        bytes.toInt ≤ 0 ∨ PageStart userAddr ∨ mmuTranslate w'.mem p.ptable userAddr = -1 ∨
          InStackMaps p userAddr := by
    rw [movesOnly_iff hNothing]
    constructor
    · intro hPermits
      by_contra hNone
      simp only [not_or, not_le] at hNone
      obtain ⟨hPos, hInside, hMapped, hStack⟩ := hNone
      exact hStack ((permits_iff_inStackMaps hNew hFresh hUser hBits).mp
        (hPermits hPos hInside hMapped))
    · rintro (hFew | hStart | hUnmapped | hStack) hPos hInside hMapped
      · omega
      · exact absurd hStart hInside
      · exact absurd hUnmapped hMapped
      · exact (permits_iff_inStackMaps hNew hFresh hUser hBits).mpr hStack
  exact ⟨hSplit (toUser_nothing kernelAddr) (by decide) (by decide),
    hSplit (fromUser_nothing kernelAddr) (by decide) (by decide)⟩

section FirstProcess

/-- The saved program counter of the first process lies in a page that is
mapped, and not for the stack. -/
theorem first_frame : ∃ p w₁, pNew nextPage bootGlobals true bootWorld = some (some p, w₁) ∧
    FreshProcess nextPage bootWorld.calls w₁.calls ∧
    mmuTranslate w₁.mem p.ptable 0x80062200 ≠ -1 ∧ ¬ InStackMaps p 0x80062200 := by
  obtain ⟨p, w₁, hNew, hCalls⟩ := first_pNew
  obtain ⟨-, hStack, -⟩ := pNew_maps hNew
  rw [bootWorld_spec.1] at hStack
  have hFresh := freshProcess_nextPage (show w₁.calls ≤ 2 ^ 48 by omega)
  refine ⟨p, w₁, hNew, hFresh, ?_, ?_⟩
  · exact mapped_behind_thread hNew hFresh first_threadPhys bootText (by decide) (by decide)
  · rintro ⟨c, hMem, hPage⟩
    obtain ⟨i, hi, rfl⟩ := List.mem_map.mp hMem
    have hCount : pageCount p.stack = 0x80064 := by
      rw [hStack]
      decide
    rw [List.mem_range, hCount] at hi
    have hNumber := congrArg BitVec.toNat hPage
    rw [toNat_vpn27, toNat_vpn27, BitVec.toNat_add, BitVec.toNat_ofNat] at hNumber
    have hStart : pDefaultStackPointer.toNat = 0x1cafe0000 := by decide
    have hAddr : (0x80062200 : Word).toNat = 0x80062200 := by decide
    rw [hStart, hAddr] at hNumber
    omega

theorem rights_iff_first : ∃ p w₁, pNew nextPage bootGlobals true bootWorld = some (some p, w₁) ∧
    (MovesOnly (toUser 0x80100000) (pbUser ||| pbWrite) w₁.mem p.ptable 0x80062200 8 ↔
      (8 : BitVec 32).toInt ≤ 0 ∨ PageStart 0x80062200 ∨
        mmuTranslate w₁.mem p.ptable 0x80062200 = -1 ∨ InStackMaps p 0x80062200) := by
  obtain ⟨p, w₁, hNew, hFresh, -⟩ := first_frame
  exact ⟨p, w₁, hNew, (rights_iff hNew hFresh 0x80062200 0x80100000 8).1⟩

/-- The kernel writes to the page of the trap frame for the first process. -/
theorem trapFrame_written : ∃ p w₁, pNew nextPage bootGlobals true bootWorld = some (some p, w₁) ∧
    ¬ MovesOnly (toUser 0x80100000) (pbUser ||| pbWrite) w₁.mem p.ptable 0x80062200 8 := by
  obtain ⟨p, w₁, hNew, hFresh, hMapped, hStack⟩ := first_frame
  refine ⟨p, w₁, hNew, fun hMoves => ?_⟩
  have hPermits := (movesOnly_iff (toUser_nothing 0x80100000)).mp hMoves (by decide)
    (by unfold PageStart; decide) hMapped
  exact hStack ((permits_iff_inStackMaps hNew hFresh (by decide) (by decide)).mp hPermits)

end FirstProcess

end NewProcess

end Kernel.Uaccess
