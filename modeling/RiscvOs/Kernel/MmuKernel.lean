import RiscvOs.Kernel.MmuPages
import Mathlib.Data.List.Pairwise

/-! The page table of the kernel, which `main` makes at boot: `cpage_init`, a page
for the root, and `mmu_kernel_init` (`main.c`) over the sections of `riscv.lds`. -/
namespace Kernel.MmuKernel

open Semantics Radix Mmu MmuPages

/-! ## Regions that are mapped to themselves -/

/-- The arguments of a call of `mmu_map_multiple` with one address for both sides. -/
structure Region where
  start : Word
  bytes : Word
  bits : Word

def Region.maps (r : Region) : List Mapping :=
  rangeMaps r.start r.start r.bits (pageCount r.bytes)

/-- The address is in one of the pages of the region. -/
def Region.Covers (r : Region) (a : Word) : Prop :=
  r.start.toNat ≤ a.toNat ∧ a.toNat < r.start.toNat + 4096 * pageCount r.bytes

instance (r : Region) (a : Word) : Decidable (r.Covers a) :=
  inferInstanceAs (Decidable (_ ∧ _))

/-- The region starts at a page, and its pages are in the lower half of the address
space of Sv39. -/
structure Region.Valid (r : Region) : Prop where
  aligned : r.start.toNat % 4096 = 0
  lower : r.start.toNat + 4096 * pageCount r.bytes ≤ 2 ^ 38
  bits : LeafBits r.bits

/-- The page of an address. -/
def pageOf (a : Word) : Word :=
  a &&& ~~~0xfff#64

variable {r : Region} {a : Word} {rs : List Region}

theorem toNat_pageOf (a : Word) : (pageOf a).toNat = a.toNat / 4096 * 4096 := by
  rw [pageOf, not_0xfff, toNat_and_neg_4096]

/-- The last call for an address in a region that is mapped to itself. -/
theorem lastMapping_region (hValid : r.Valid) (hLow : a.toNat < 2 ^ 39) :
    lastMapping r.maps a = if r.Covers a then some ⟨pageOf a, pageOf a, r.bits⟩ else none := by
  have hAligned := hValid.aligned
  have hEnd := hValid.lower
  have hPage (i : Nat) (hi : i < pageCount r.bytes) :
      (r.start + BitVec.ofNat 64 (4096 * i)).toNat = r.start.toNat + 4096 * i := by
    rw [BitVec.toNat_add, BitVec.toNat_ofNat]
    omega
  have hSame (i : Nat) (hi : i < pageCount r.bytes) :
      vpn27 (r.start + BitVec.ofNat 64 (4096 * i)) = vpn27 a ↔
        r.start.toNat + 4096 * i = a.toNat / 4096 * 4096 := by
    rw [← BitVec.toNat_inj, toNat_vpn27, toNat_vpn27, hPage i hi]
    omega
  split
  next hCovers =>
    obtain ⟨hFrom, hTo⟩ := hCovers
    have hIndex : (a.toNat - r.start.toNat) / 4096 < pageCount r.bytes := by omega
    have hIs : r.start + BitVec.ofNat 64 (4096 * ((a.toNat - r.start.toNat) / 4096)) = pageOf a := by
      apply BitVec.eq_of_toNat_eq
      rw [hPage _ hIndex, toNat_pageOf]
      omega
    rw [Region.maps, lastMapping_rangeMaps (by omega) hIndex ((hSame _ hIndex).mpr (by omega)), hIs]
  next hNot =>
    apply lastMapping_rangeMaps_none
    intro i hi hEq
    rw [hSame i hi] at hEq
    exact hNot ⟨by omega, by omega⟩

/-- Of regions that cover an address, the last one counts. -/
theorem lastMapping_regions (hValid : ∀ r ∈ rs, r.Valid) (hLow : a.toNat < 2 ^ 39) :
    lastMapping (rs.flatMap Region.maps) a =
      (rs.reverse.find? fun r => r.Covers a).map fun r => ⟨pageOf a, pageOf a, r.bits⟩ := by
  induction rs with
  | nil => rfl
  | cons r rest ih =>
      rw [List.flatMap_cons, lastMapping_append, ih fun r hr => hValid r (List.mem_cons_of_mem _ hr),
        lastMapping_region (hValid r List.mem_cons_self) hLow, List.reverse_cons, List.find?_append]
      cases rest.reverse.find? fun r => r.Covers a with
      | some found => rfl
      | none =>
          by_cases hCovers : r.Covers a
          · simp [hCovers]
          · simp [hCovers]

/-! ## The pages that its tables take -/

/-- The pages that the tables of a region take, at most. -/
def Region.tables (r : Region) : Nat :=
  4 * ((r.start.toNat / 4096 % 512 + pageCount r.bytes + 511) / 512)

theorem cost_regions (hValid : ∀ r ∈ rs, r.Valid) :
    cost none (rs.flatMap Region.maps) ≤ (rs.map Region.tables).sum := by
  induction rs with
  | nil => exact Nat.zero_le _
  | cons r rest ih =>
      have hFirst := hValid r List.mem_cons_self
      have hLower := hFirst.lower
      have hHere : cost none r.maps ≤ r.tables := cost_rangeMaps (by omega)
      have hRest := ih fun r hr => hValid r (List.mem_cons_of_mem _ hr)
      rw [List.flatMap_cons, List.map_cons, List.sum_cons]
      exact (cost_append none r.maps _).trans (Nat.add_le_add hHere hRest)

/-! ## The kernel -/

/-- `PB_READ`, `PB_WRITE` and `PB_EXECUTE` -/
def pbRead : Word := 1 <<< 1

def pbWrite : Word := 1 <<< 2

def pbExecute : Word := 1 <<< 3

/-- `sym_start(text)`, the origin of the memory of `riscv.lds`. -/
def textStart : Word := 0x80050000

/-- `_memory_end`, 220M behind it. -/
def memoryEnd : Word := 0x8DC50000

/-- The symbols of a linked kernel, in the order in which `riscv.lds` lays them out. -/
structure Sections where
  textEnd : Word
  bssStart : Word
  bssEnd : Word
  rodataStart : Word
  rodataEnd : Word
  dataStart : Word
  dataEnd : Word
  stackStart : Word
  heap : Cpage.Heap
  text : textStart.toNat ≤ textEnd.toNat ∧ textEnd.toNat ≤ bssStart.toNat
  bss : bssStart.toNat % 4096 = 0 ∧ bssStart.toNat ≤ bssEnd.toNat ∧
    bssEnd.toNat ≤ rodataStart.toNat
  rodata : rodataStart.toNat % 4096 = 0 ∧ rodataStart.toNat ≤ rodataEnd.toNat ∧
    rodataEnd.toNat ≤ dataStart.toNat
  data : dataStart.toNat % 4096 = 0 ∧ dataStart.toNat ≤ dataEnd.toNat ∧
    dataEnd.toNat ≤ stackStart.toNat
  stack : stackStart.toNat % 4096 = 0 ∧ heap.start.toNat = stackStart.toNat + 8 * 1024 * 8
  memory : heap.stop = memoryEnd

/-- `mmu_kernel_init` up to its write to `satp`. -/
def mmuKernelInit (s : Sections) (m : Memory) (pt : Word) : Option Memory := do
  let mapMultiple := fun m start bytes bits => mmuMapMultiple s.heap m pt start start bytes bits
  let m ← mapMultiple m textStart (s.textEnd - textStart) (pbRead ||| pbExecute)
  let m ← mapMultiple m s.dataStart (s.dataEnd - s.dataStart) (pbRead ||| pbWrite)
  let m ← mapMultiple m s.rodataStart (s.rodataEnd - s.rodataStart) pbRead
  let m ← mapMultiple m s.bssStart (s.bssEnd - s.bssStart) (pbRead ||| pbWrite)
  let m ← mapMultiple m s.stackStart (s.heap.start - s.stackStart) (pbRead ||| pbWrite)
  let m ← mapMultiple m s.heap.start (s.heap.stop - s.heap.start) (pbRead ||| pbWrite)
  let m ← mapMultiple m 0x0C000000 (0x0C2FFFFF - 0x0C000000) (pbRead ||| pbWrite)
  let m ← mapMultiple m 0x30000000 0x10000000 (pbRead ||| pbWrite)
  mapMultiple m 0x40000000 0x10000000 (pbRead ||| pbWrite)

/-- `SATP_MODE_SV39 | SATP_SET_ASID(KERNEL_ASID) | SATP_SET_PPN(pt)` -/
def satp (pt : Word) : Word :=
  ((8 : Word) <<< 60) ||| (((0xFFFF : Word) &&& 0xFFFF) <<< 44) |||
    ((pt >>> 12) &&& 0xFFFFFFFFFFF#64)

/-- The start of `main`: what it leaves in `satp` and in memory. -/
def main (s : Sections) (m : Memory) : Option (Word × Memory) :=
  let (pt, m) := Cpage.cpageZnalloc s.heap (Cpage.cpageInit s.heap m) 1
  (mmuKernelInit s m pt).map fun m => (satp pt, m)

/-- The regions of the calls, in their order. -/
def regions (s : Sections) : List Region :=
  [⟨textStart, s.textEnd - textStart, pbRead ||| pbExecute⟩,
    ⟨s.dataStart, s.dataEnd - s.dataStart, pbRead ||| pbWrite⟩,
    ⟨s.rodataStart, s.rodataEnd - s.rodataStart, pbRead⟩,
    ⟨s.bssStart, s.bssEnd - s.bssStart, pbRead ||| pbWrite⟩,
    ⟨s.stackStart, s.heap.start - s.stackStart, pbRead ||| pbWrite⟩,
    ⟨s.heap.start, s.heap.stop - s.heap.start, pbRead ||| pbWrite⟩,
    ⟨0x0C000000, 0x0C2FFFFF - 0x0C000000, pbRead ||| pbWrite⟩,
    ⟨0x30000000, 0x10000000, pbRead ||| pbWrite⟩,
    ⟨0x40000000, 0x10000000, pbRead ||| pbWrite⟩]

/-- The page of the root that `satp` names. -/
def rootOf (satp : Word) : Word :=
  (satp &&& 0xFFFFFFFFFFF#64) <<< 12

/-- What the kernel runs under: its sections and devices at their own addresses with
their own rights, no page that can be written and executed, none for user mode, and
nothing else. -/
structure KernelTable (s : Sections) (m : Memory) (root : Word) : Prop where
  mapped : ∀ r ∈ regions s, ∀ a, r.Covers a → mmuTranslate m root a = a ∧
    find (cells m) root (indices a 3) = some (leafEntry (pageOf a) r.bits)
  unmapped : ∀ a : Word, a.toNat < 2 ^ 39 → (∀ r ∈ regions s, ¬ r.Covers a) →
    mmuTranslate m root a = -1
  rights : ∀ a entry, find (cells m) root (indices a 3) = some entry →
    (entry &&& pbWrite = 0 ∨ entry &&& pbExecute = 0) ∧ entry &&& pbUser = 0

variable {s : Sections} {m : Memory}

theorem pageCount_sub {start stop : Word} (hLe : start.toNat ≤ stop.toNat) :
    pageCount (stop - start) = (stop.toNat - start.toNat + 4095) / 4096 := by
  rw [pageCount, BitVec.toNat_sub_of_le (BitVec.le_def.mpr hLe)]

/-- A section between two symbols. -/
theorem valid_section {start stop bits : Word} (hAligned : start.toNat % 4096 = 0)
    (hLe : start.toNat ≤ stop.toNat) (hLow : stop.toNat ≤ 0x8DC50000) (hBits : LeafBits bits) :
    Region.Valid ⟨start, stop - start, bits⟩ := by
  have hCount := pageCount_sub hLe
  have hEnd : start.toNat + 4096 * pageCount (stop - start) ≤ 2 ^ 38 := by omega
  exact ⟨hAligned, hEnd, hBits⟩

theorem regions_valid (s : Sections) : ∀ r ∈ regions s, r.Valid := by
  have hText := s.text
  have hBss := s.bss
  have hRodata := s.rodata
  have hData := s.data
  have hStack := s.stack
  have hHeap := s.heap.start_le_stop
  have hAligned := s.heap.start_aligned
  have hEnd : s.heap.stop.toNat = 0x8DC50000 := congrArg BitVec.toNat s.memory
  have hWrite : LeafBits (pbRead ||| pbWrite) := by decide
  have hStart : textStart.toNat % 4096 = 0 := by decide
  simp only [regions, List.forall_mem_cons]
  refine ⟨valid_section hStart hText.1 (by omega) (by decide),
    valid_section hData.1 hData.2.1 (by omega) hWrite,
    valid_section hRodata.1 hRodata.2.1 (by omega) (by decide),
    valid_section hBss.1 hBss.2.1 (by omega) hWrite,
    valid_section hStack.1 (by omega) (by omega) hWrite,
    valid_section hAligned hHeap (by omega) hWrite, ⟨by decide, by decide, hWrite⟩,
    ⟨by decide, by decide, hWrite⟩, ⟨by decide, by decide, hWrite⟩, by simp⟩

/-- The end of the last page of a region. -/
def Region.stop (r : Region) : Nat :=
  r.start.toNat + 4096 * pageCount r.bytes

theorem stop_section {start stop next bits : Word} (hAligned : start.toNat % 4096 = 0)
    (hLe : start.toNat ≤ stop.toNat) (hNext : stop.toNat ≤ next.toNat)
    (hNextAligned : next.toNat % 4096 = 0) :
    Region.stop ⟨start, stop - start, bits⟩ ≤ next.toNat := by
  have hCount := pageCount_sub hLe
  change start.toNat + 4096 * pageCount (stop - start) ≤ next.toNat
  omega

/-- No page is in two of the regions. -/
theorem regions_apart (s : Sections) :
    (regions s).Pairwise fun r r' => r.stop ≤ r'.start.toNat ∨ r'.stop ≤ r.start.toNat := by
  have hText := s.text
  have hBss := s.bss
  have hRodata := s.rodata
  have hData := s.data
  have hStack := s.stack
  have hHeap := s.heap.start_le_stop
  have hAligned := s.heap.start_aligned
  have hMemory : s.heap.stop.toNat = 0x8DC50000 := congrArg BitVec.toNat s.memory
  have hStart : textStart.toNat = 0x80050000 := rfl
  have h₁ := @stop_section textStart s.textEnd s.bssStart (pbRead ||| pbExecute) (by decide) hText.1
    hText.2 hBss.1
  have h₂ := @stop_section s.bssStart s.bssEnd s.rodataStart (pbRead ||| pbWrite) hBss.1 hBss.2.1
    hBss.2.2 hRodata.1
  have h₃ := @stop_section s.rodataStart s.rodataEnd s.dataStart pbRead hRodata.1 hRodata.2.1
    hRodata.2.2 hData.1
  have h₄ := @stop_section s.dataStart s.dataEnd s.stackStart (pbRead ||| pbWrite) hData.1 hData.2.1
    hData.2.2 hStack.1
  have h₅ := @stop_section s.stackStart s.heap.start s.heap.start (pbRead ||| pbWrite) hStack.1
    (by omega) le_rfl hAligned
  have h₆ := @stop_section s.heap.start s.heap.stop s.heap.stop (pbRead ||| pbWrite) hAligned
    hHeap le_rfl s.heap.stop_aligned
  have h₇ : Region.stop ⟨0x0C000000, 0x0C2FFFFF - 0x0C000000, pbRead ||| pbWrite⟩ = 0x0C300000 := by
    decide
  have h₈ : Region.stop ⟨0x30000000, 0x10000000, pbRead ||| pbWrite⟩ = 0x40000000 := by decide
  have h₉ : Region.stop ⟨0x40000000, 0x10000000, pbRead ||| pbWrite⟩ = 0x50000000 := by decide
  have h₁₀ : (0x0C000000 : Word).toNat = 0x0C000000 ∧ (0x30000000 : Word).toNat = 0x30000000 ∧
      (0x40000000 : Word).toNat = 0x40000000 := by decide
  simp only [regions, List.pairwise_cons, List.forall_mem_cons, h₇, h₈, h₉, List.Pairwise.nil,
    List.not_mem_nil, IsEmpty.forall_iff, implies_true, and_true]
  refine ⟨?_, ?_, ?_, ?_, ?_, ?_, ?_, ?_⟩ <;> omega

theorem mapRegion_eq {h : Cpage.Heap} {root : Word} (hValid : r.Valid) (m : Memory) :
    mmuMapMultiple h m root r.start r.start r.bytes r.bits = some (mapAll h root m r.maps) := by
  have hLower := hValid.lower
  have hCount : pageCount r.bytes = (r.bytes.toNat + 4095) / 4096 := rfl
  exact mmuMapMultiple_eq (by omega)

theorem mapRegions_eq {h : Cpage.Heap} {root : Word} (hValid : ∀ r ∈ rs, r.Valid) (m : Memory) :
    rs.foldlM (fun m r => mmuMapMultiple h m root r.start r.start r.bytes r.bits) m =
      some (mapAll h root m (rs.flatMap Region.maps)) := by
  induction rs generalizing m with
  | nil => rfl
  | cons r rest ih =>
      rw [List.foldlM_cons, mapRegion_eq (hValid r List.mem_cons_self), List.flatMap_cons,
        mapAll_append]
      exact ih (fun r hr => hValid r (List.mem_cons_of_mem _ hr)) _

theorem mmuKernelInit_eq (s : Sections) (m : Memory) (pt : Word) :
    mmuKernelInit s m pt = some (mapAll s.heap pt m ((regions s).flatMap Region.maps)) := by
  rw [← mapRegions_eq (regions_valid s)]
  simp only [mmuKernelInit, regions, List.foldlM_cons, List.foldlM_nil, Option.bind_eq_bind,
    Option.pure_def, Option.bind_fun_some]

/-- The pages that the tables take, of the 56320 pages of the memory. -/
theorem tables_le (s : Sections) : ((regions s).map Region.tables).sum ≤ 1520 := by
  have hText := s.text
  have hBss := s.bss
  have hRodata := s.rodata
  have hData := s.data
  have hStack := s.stack
  have hHeap := s.heap.start_le_stop
  have hAligned := s.heap.start_aligned
  have hMemory : s.heap.stop.toNat = 0x8DC50000 := congrArg BitVec.toNat s.memory
  have hStart : textStart.toNat = 0x80050000 := rfl
  have hSection {start stop bits : Word} (hLe : start.toNat ≤ stop.toNat) :
      Region.tables ⟨start, stop - start, bits⟩ =
        4 * ((start.toNat / 4096 % 512 + (stop.toNat - start.toNat + 4095) / 4096 + 511) / 512) := by
    rw [← pageCount_sub hLe]
    rfl
  have hDevices : Region.tables ⟨0x0C000000, 0x0C2FFFFF - 0x0C000000, pbRead ||| pbWrite⟩ = 8 ∧
      Region.tables ⟨0x30000000, 0x10000000, pbRead ||| pbWrite⟩ = 512 ∧
      Region.tables ⟨0x40000000, 0x10000000, pbRead ||| pbWrite⟩ = 512 := by decide
  simp only [regions, List.map_cons, List.map_nil, List.sum_cons, List.sum_nil, hDevices]
  rw [hSection hText.1, hSection hData.2.1, hSection hRodata.2.1, hSection hBss.2.1,
    hSection (by omega), hSection hHeap]
  omega

/-- The root that `satp` names is the page of the table. -/
theorem rootOf_satp {pt : Word} (hAligned : pt &&& 0xfff#64 = 0) (hLt : pt.toNat < 2 ^ 56) :
    rootOf (satp pt) = pt := by
  apply BitVec.eq_of_getLsbD_eq
  intro i hi
  have hMask (j : Nat) : (0xFFFFFFFFFFF#64).getLsbD j = decide (j < 44) :=
    getLsbD_lowMask 44 j (by decide)
  have hMode : ∀ j < 44, ((8 : Word) <<< 60).getLsbD j = false := by decide
  have hAsid : ∀ j < 44, (((0xFFFF : Word) &&& 0xFFFF) <<< 44).getLsbD j = false := by decide
  rw [rootOf, BitVec.getLsbD_shiftLeft, BitVec.getLsbD_and, hMask]
  by_cases hLow : i < 12
  · simp [hLow, getLsbD_of_and_0xfff hAligned hLow]
  · by_cases hHigh : 56 ≤ i
    · have hAbove : ¬ i - 12 < 44 := by omega
      simp [getLsbD_of_toNat_lt hLt hHigh, hAbove]
    · have hIndex : 12 + (i - 12) = i := by omega
      have hBelow : i - 12 < 44 := by omega
      rw [satp, BitVec.getLsbD_or, BitVec.getLsbD_or, hMode _ hBelow, hAsid _ hBelow,
        BitVec.getLsbD_and, BitVec.getLsbD_ushiftRight, hMask, hIndex]
      simp [hi, hLow, hBelow]

/-- The bits of a leaf that are not the page number are those of its region. -/
theorem leafEntry_and (p : Word) {bits mask : Word} (hMask : mask.toNat < 2 ^ 10)
    (hValid : mask &&& pbValid = 0) : leafEntry p bits &&& mask = bits &&& mask := by
  apply BitVec.eq_of_getLsbD_eq
  intro i hi
  rw [BitVec.getLsbD_and, BitVec.getLsbD_and]
  by_cases hHigh : 10 ≤ i
  · rw [getLsbD_of_toNat_lt hMask hHigh, Bool.and_false, Bool.and_false]
  · have hOther : pbValid.getLsbD i = true → mask.getLsbD i = false := by
      intro hBit
      have hAnd := congrArg (·.getLsbD i) hValid
      simpa [hBit] using hAnd
    by_cases hFirst : i = 0
    · rw [hFirst] at hOther ⊢
      rw [hOther (by decide), Bool.and_false, Bool.and_false]
    · have hOne : pbValid.getLsbD i = false := by
        simp [pbValid]
        omega
      simp only [leafEntry, BitVec.getLsbD_or, BitVec.getLsbD_shiftLeft, hOne]
      have h₁ : i < 28 := by omega
      have h₂ : i < 19 := by omega
      have h₃ : i < 10 := by omega
      simp [h₁, h₂, h₃]

/-- The leaf of an address of the kernel. -/
theorem find_kernel {root : Word} {s : Sections} {a : Word}
    (hFind : find (cells m) root (indices a 3) =
      ((lastMapping ((regions s).flatMap Region.maps) a).map fun c => leafEntry c.paddr c.bits))
    (hLow : a.toNat < 2 ^ 39) :
    find (cells m) root (indices a 3) = ((regions s).reverse.find? fun r => r.Covers a).map fun r =>
      leafEntry (pageOf a) r.bits := by
  rw [hFind, lastMapping_regions (regions_valid s) hLow, Option.map_map]
  rfl

theorem covers_unique {r' : Region} {s : Sections} (hr : r ∈ regions s) (hr' : r' ∈ regions s)
    (hCovers : r.Covers a) (hCovers' : r'.Covers a) : r = r' := by
  by_contra hNe
  have hSymm : Std.Symm fun r r' : Region =>
      r.stop ≤ r'.start.toNat ∨ r'.stop ≤ r.start.toNat := ⟨fun _ _ hApart => hApart.symm⟩
  have hApart := (regions_apart s).forall hr hr' hNe
  unfold Region.Covers at hCovers hCovers'
  unfold Region.stop at hApart
  omega

theorem find_covering {s : Sections} (hr : r ∈ regions s) (hCovers : r.Covers a) :
    (regions s).reverse.find? (fun r => r.Covers a) = some r := by
  have hSome : ((regions s).reverse.find? fun r => r.Covers a).isSome := by
    rw [List.find?_isSome]
    exact ⟨r, List.mem_reverse.mpr hr, by simpa using hCovers⟩
  obtain ⟨r', hFound⟩ := Option.isSome_iff_exists.mp hSome
  have hCovers' : r'.Covers a := by simpa using List.find?_some hFound
  have hr' := List.mem_reverse.mp (List.mem_of_find?_eq_some hFound)
  rw [hFound, covers_unique hr hr' hCovers hCovers']

theorem regions_rights (s : Sections) : ∀ r ∈ regions s,
    (r.bits &&& pbWrite = 0 ∨ r.bits &&& pbExecute = 0) ∧ r.bits &&& pbUser = 0 := by
  simp only [regions, List.forall_mem_cons, List.not_mem_nil, IsEmpty.forall_iff, implies_true]
  decide

theorem pageOf_or_offset (a : Word) : pageOf (pageOf a) ||| (a &&& 0xfff#64) = a := by
  apply BitVec.eq_of_getLsbD_eq
  intro i hi
  simp only [pageOf, BitVec.getLsbD_or, BitVec.getLsbD_and, BitVec.getLsbD_not, getLsbD_0xfff, hi,
    decide_true, Bool.true_and]
  by_cases hLow : i < 12
  · simp [hLow]
  · simp [hLow]

/-- The leaves make the page table. -/
theorem kernelTable_of_find {root : Word} {owned : Set Word} {s : Sections}
    (hLayout : Layout m root owned)
    (hFind : ∀ a, find (cells m) root (indices a 3) =
      ((lastMapping ((regions s).flatMap Region.maps) a).map fun c => leafEntry c.paddr c.bits)) :
    KernelTable s m root where
  mapped := by
    intro r hr a hCovers
    have hValid := regions_valid s r hr
    have hLower := hValid.lower
    have hLow : a.toNat < 2 ^ 39 := by
      have hTo := hCovers.2
      omega
    have hLeaf := find_kernel (hFind a) hLow
    rw [find_covering hr hCovers] at hLeaf
    refine ⟨?_, hLeaf⟩
    have hPage : (pageOf a).toNat < 2 ^ 56 := by
      rw [toNat_pageOf]
      omega
    rw [mmuTranslate_of_leaf hLayout hLeaf hValid.bits, and_page_mask hPage]
    exact pageOf_or_offset a
  unmapped := by
    intro a hLow hNone
    have hLeaf := find_kernel (hFind a) hLow
    have hNot : (regions s).reverse.find? (fun r => r.Covers a) = none := by
      rw [List.find?_eq_none]
      intro r hr
      simpa using hNone r (List.mem_reverse.mp hr)
    rw [mmuTranslate_eq hLayout, hLeaf, hNot]
    rfl
  rights := by
    intro a entry hEntry
    -- The high bits of an address do not count.
    have hSame : indices a 3 = indices (BitVec.ofNat 64 (a.toNat % 2 ^ 39)) 3 := by
      rw [indices_eq_iff, ← BitVec.toNat_inj, toNat_vpn27, toNat_vpn27, BitVec.toNat_ofNat]
      omega
    have hLow : (BitVec.ofNat 64 (a.toNat % 2 ^ 39)).toNat < 2 ^ 39 := by
      rw [BitVec.toNat_ofNat]
      omega
    rw [hSame, find_kernel (hFind _) hLow] at hEntry
    obtain ⟨r, hFound, rfl⟩ := Option.map_eq_some_iff.mp hEntry
    have hRights := regions_rights s r (List.mem_reverse.mp (List.mem_of_find?_eq_some hFound))
    rw [leafEntry_and _ (by decide) (by decide), leafEntry_and _ (by decide) (by decide),
      leafEntry_and _ (by decide) (by decide)]
    exact hRights

theorem addressed (s : Sections) : Addressed s.heap := by
  have hMemory : s.heap.stop.toNat = 0x8DC50000 := congrArg BitVec.toNat s.memory
  have hStack := s.stack
  have hData := s.data
  have hRodata := s.rodata
  have hBss := s.bss
  have hText := s.text
  have hStart : textStart.toNat = 0x80050000 := rfl
  have hPages : s.heap.pages = (s.heap.stop.toNat - s.heap.start.toNat) / 4096 :=
    Cpage.bkBytes_toNat s.heap
  have hRounded := Cpage.bkRounded_toNat s.heap
  have hLe := s.heap.start_le_stop
  exact ⟨by omega, by omega⟩

/-- With some room in the heap, `main` makes the page table of the kernel, in pages
of the heap, from any memory. -/
theorem main_kernelTable (s : Sections) (m : Memory) (hRoom : 1522 ≤ s.heap.pages) :
    ∃ value m', main s m = some (value, m') ∧ KernelTable s m' (rootOf value) ∧
      TakenPage s.heap m' (rootOf value) := by
  have hHeap := addressed s
  have hTables := tables_le s
  have hCost := cost_regions (regions_valid s)
  have hInit : FreeFrom s.heap (Cpage.cpageInit s.heap m) 0 :=
    fun _ _ hk => Cpage.taken_cpageInit s.heap m hk
  obtain ⟨hNew, -, -, hFree⟩ := @znalloc_newPage s.heap _ 0 ∅ hHeap
    (fun _ ht => absurd ht (Set.notMem_empty _)) hInit (by omega)
  rw [main]
  generalize Cpage.cpageZnalloc s.heap (Cpage.cpageInit s.heap m) 1 = page at *
  obtain ⟨hLayout, hNone⟩ := layout_of_zero hNew.zero
  have hStart : Tables s.heap page.1 {page.1} page.2 2 := by
    refine ⟨hLayout, ?_, hFree⟩
    rintro t rfl
    exact hNew.taken
  have hBits : ∀ c ∈ (regions s).flatMap Region.maps, c.bits &&& pbLeaf ≠ 0 := by
    intro c hc
    obtain ⟨r, hr, hc⟩ := List.mem_flatMap.mp hc
    rw [bits_of_mem_rangeMaps hc]
    exact (regions_valid s r hr).bits.2
  obtain ⟨owned, hDone, -, hFind⟩ := mapAll_spec hHeap ((regions s).flatMap Region.maps) hBits hStart
    (fun q hq => absurd hq (by simp)) (show 2 + cost none _ ≤ _ by omega)
  have hRoot : rootOf (satp page.1) = page.1 := by
    obtain ⟨i, hi, hAddr, -⟩ := hNew.taken
    have hPage := hHeap.toNat_pageAddr hi
    have hMemory : s.heap.stop.toNat = 0x8DC50000 := congrArg BitVec.toNat s.memory
    have hLe := s.heap.start_le_stop
    have hRounded := Cpage.bkRounded_toNat s.heap
    have hOffsets := hHeap.offsets
    rw [← hAddr] at hPage
    exact rootOf_satp hNew.aligned (by omega)
  refine ⟨satp page.1, mapAll s.heap page.1 page.2 ((regions s).flatMap Region.maps), ?_, ?_, ?_⟩
  · simp only [mmuKernelInit_eq, Option.map_some]
  · rw [hRoot]
    refine kernelTable_of_find hDone.layout fun a => ?_
    rw [hFind, hNone, Option.or_none]
  · rw [hRoot]
    exact hDone.pages page.1 hDone.layout.root_owned

/-- A kernel of some pages. -/
def linked : Sections where
  textEnd := 0x8005A234
  bssStart := 0x8005B000
  bssEnd := 0x8005B100
  rodataStart := 0x8005C000
  rodataEnd := 0x8005D010
  dataStart := 0x8005E000
  dataEnd := 0x8005E800
  stackStart := 0x8005F000
  heap := ⟨0x8006F000, memoryEnd, by decide, by decide, by decide⟩
  text := by decide
  bss := by decide
  rodata := by decide
  data := by decide
  stack := by decide
  memory := rfl

/-- The text of that kernel is where it was, and the byte behind the devices is not
mapped. -/
example : ∃ value m', main linked (fun _ => 0) = some (value, m') ∧
    mmuTranslate m' (rootOf value) 0x80051234 = 0x80051234 ∧
      mmuTranslate m' (rootOf value) 0x50000000 = -1 := by
  obtain ⟨value, m', hMain, hTable, -⟩ := main_kernelTable linked (fun _ => 0) (by decide)
  refine ⟨value, m', hMain, ?_, hTable.unmapped _ (by decide) ?_⟩
  · exact (hTable.mapped _ List.mem_cons_self 0x80051234 (by decide)).1
  · simp only [regions, List.forall_mem_cons, List.not_mem_nil, IsEmpty.forall_iff, implies_true]
    decide

end Kernel.MmuKernel
