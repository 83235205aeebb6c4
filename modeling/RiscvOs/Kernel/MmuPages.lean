import RiscvOs.Kernel.CpageBounds
import RiscvOs.Kernel.MmuCost
import RiscvOs.Kernel.MmuMultiple

/-! `mmu.c` on top of `cpage.c`: the page tables are pages of the heap that
`cpage_znalloc` gives, in the same memory as the bookkeeping bytes. -/
namespace Kernel.MmuPages

open Semantics Radix Mmu

variable (h : Cpage.Heap)

/-- One iteration of the loop of `mmu_map`. -/
def mapLevel (m : Memory) (table index : Word) : Word × Memory :=
  if ptEntry m table index &&& pbValid = 0 then
    let (newTable, m') := Cpage.cpageZnalloc h m 1
    (nextTable (branchEntry newTable), setPtEntry m' table index (branchEntry newTable))
  else (nextTable (ptEntry m table index), m)

/-- The loop of `mmu_map` from level `i` down to level 1. -/
def mapLoop (vaddr : Word) (m : Memory) (table : Word) : Nat → Word × Memory
  | 0 => (table, m)
  | i + 1 =>
      let (table', m') := mapLevel h m table (vpn vaddr (i + 1))
      mapLoop vaddr m' table' i

def mmuMap (m : Memory) (table vaddr paddr bits : Word) : Bool × Memory :=
  let (table', m') := mapLoop h vaddr m table 2
  (true, setPtEntry m' table' (vpn vaddr 0) (leafEntry paddr bits))

/-- The loop of `mmu_map_multiple`; it has no result when the fuel runs out. -/
def mapMultipleLoop (table vStart pStart bytes bits i : Word) (m : Memory) : Nat → Option Memory
  | 0 => none
  | fuel + 1 =>
      if i < bytes then
        mapMultipleLoop table vStart pStart bytes bits (i + 4096)
          (mmuMap h m table (vStart + i) (pStart + i) bits).2 fuel
      else some m

def mmuMapMultiple (m : Memory) (table vStart pStart bytes bits : Word) : Option Memory :=
  mapMultipleLoop h table vStart pStart bytes bits 0 m (2 ^ 52 + 1)

/-- Calls of `mmu_map` one after the other, on the same root. -/
def mapAll (root : Word) (m : Memory) (maps : List Mapping) : Memory :=
  maps.foldl (fun m c => (mmuMap h m root c.vaddr c.paddr c.bits).2) m

/-! ## Pages of the heap -/

/-- The pages of the heap have addresses. -/
structure Addressed : Prop where
  offsets : h.pages ≤ 2 ^ 19
  addresses : h.start.toNat + h.bkRounded.toNat + 4096 * h.pages ≤ 2 ^ 64

/-- The page and the one behind it are taken. -/
def TakenPage (m : Memory) (page : Word) : Prop :=
  ∃ i, i + 1 < h.pages ∧ page = h.pageAddr i ∧ Cpage.taken h m i = true

/-- The pages from `c` on are free. -/
def FreeFrom (m : Memory) (c : Nat) : Prop :=
  ∀ k, c ≤ k → k < h.pages → Cpage.taken h m k = false

/-- The bytes of `cpage.c` and the pages behind them. -/
def InHeap (x : Word) : Prop :=
  InRange h.start (h.bkRounded.toNat + 4096 * h.pages) x

variable {h} {m m' : Memory} {i j c : Nat} {x : Word}

namespace Addressed

theorem addressable (hHeap : Addressed h) (hi : i + 1 < h.pages) : Cpage.Addressable h i 2 where
  offset := by have := hHeap.offsets; omega
  size := by decide
  address := by have := hHeap.addresses; omega

theorem toNat_pageAddr (hHeap : Addressed h) (hi : i + 1 < h.pages) :
    (h.pageAddr i).toNat = h.start.toNat + h.bkRounded.toNat + 4096 * i :=
  (hHeap.addressable hi).toNat_pageAddr (by decide)

theorem toNat_curByte (hHeap : Addressed h) (hj : j < h.pages) :
    (h.curByte j).toNat = h.start.toNat + j := by
  have hFit := hHeap.addresses
  have hOffset := hHeap.offsets
  have hRounded := Cpage.bkRounded_toNat h
  have hStart := h.start.isLt
  unfold Cpage.Heap.curByte
  rw [BitVec.ofInt_natCast, BitVec.toNat_add, BitVec.toNat_ofNat]
  omega

theorem aligned (hHeap : Addressed h) (hi : i + 1 < h.pages) : h.pageAddr i &&& 0xfff#64 = 0 := by
  have hAddr := hHeap.toNat_pageAddr hi
  have hStart := h.start_aligned
  have hRounded := Cpage.bkRounded_toNat h
  apply BitVec.eq_of_toNat_eq
  rw [BitVec.toNat_and, show (0xfff#64).toNat = 2 ^ 12 - 1 from rfl,
    Nat.and_two_pow_sub_one_eq_mod, hAddr]
  change _ = 0
  omega

theorem apart (hHeap : Addressed h) (hi : i + 1 < h.pages) (hj : j + 1 < h.pages) (hNe : i ≠ j) :
    Apart (h.pageAddr i) 4096 (h.pageAddr j) 4096 := by
  have hOffset := hHeap.offsets
  rw [Cpage.pageAddr_of_lt h (by omega), Cpage.pageAddr_of_lt h (by omega)]
  exact apart_of_offsets (by decide) (by decide) (by omega) (by omega) (by omega)

/-- The bytes of a page are no bookkeeping bytes. -/
theorem curByte_ne (hHeap : Addressed h) (hi : i + 1 < h.pages) (hj : j < h.pages)
    (hx : InRange (h.pageAddr i) 4096 x) : x ≠ h.curByte j := by
  rintro rfl
  have hAddr := hHeap.toNat_pageAddr hi
  have hSum := hHeap.addresses
  have hByte := hHeap.toNat_curByte hj
  have hRounded := Cpage.le_bkRounded (by omega : 0 < h.pages)
  rw [inRange_iff_toNat (by omega), hByte, hAddr] at hx
  omega

theorem inHeap_page (hHeap : Addressed h) (hi : i + 1 < h.pages)
    (hx : InRange (h.pageAddr i) (4096 * 2) x) : InHeap h x := by
  have hAddr := hHeap.toNat_pageAddr hi
  have hSum := hHeap.addresses
  rw [inRange_iff_toNat (by omega), hAddr] at hx
  rw [InHeap, inRange_iff_toNat (by omega)]
  omega

theorem inHeap_curByte (hHeap : Addressed h) (hj : j < h.pages) : InHeap h (h.curByte j) := by
  have hSum := hHeap.addresses
  have hByte := hHeap.toNat_curByte hj
  have hRounded := Cpage.le_bkRounded (by omega : 0 < h.pages)
  rw [InHeap, inRange_iff_toNat (by omega), hByte]
  omega

end Addressed

/-- Memory with the bookkeeping bytes unchanged. -/
theorem taken_setPtEntry (hHeap : Addressed h) {index : BitVec 9} {entry : Word}
    (hi : i + 1 < h.pages) (hj : j < h.pages) :
    Cpage.taken h (setPtEntry m (h.pageAddr i) (index.setWidth 64) entry) j = Cpage.taken h m j := by
  apply Cpage.taken_congr
  exact setPtEntry_outside _ _ fun hIn => hHeap.curByte_ne hi hj hIn rfl

/-- A request of one page, when pages behind `c` are free: it takes two pages that
were free, at `c` or in front of it, and zeroes them. -/
theorem znalloc_one (hHeap : Addressed h) (hFree : FreeFrom h m c) (hc : c + 2 ≤ h.pages) :
    ∃ i, i ≤ c ∧ i + 1 < h.pages ∧ Cpage.taken h m i = false ∧ Cpage.taken h m (i + 1) = false ∧
      (Cpage.cpageZnalloc h m 1).1 = h.pageAddr i ∧
      (∀ k < h.pages, Cpage.taken h (Cpage.cpageZnalloc h m 1).2 k =
        (Cpage.taken h m k || (decide (i ≤ k) && decide (k < i + 2)))) ∧
      (∀ x, InRange (h.pageAddr i) (4096 * 2) x → (Cpage.cpageZnalloc h m 1).2 x = 0) ∧
      ∀ x, (∀ k < h.pages, x ≠ h.curByte k) → ¬ InRange (h.pageAddr i) (4096 * 2) x →
        (Cpage.cpageZnalloc h m 1).2 x = m x := by
  have hPair : Cpage.FreePair (Cpage.taken h m) h.pages c :=
    ⟨by omega, hFree c (by omega) (by omega), hFree (c + 1) (by omega) (by omega)⟩
  obtain ⟨i, hFirst⟩ := Cpage.exists_firstPair hPair
  have hi := hFirst.1.1
  have hFit := hHeap.addressable hi
  have hCall : Cpage.cpageZnalloc h m 1 = (h.pageAddr i, Cpage.allocated h m i 2) :=
    Cpage.cpageZnalloc_of_first (by decide) hFirst
  have hZeroed : Cpage.zeroed h m 1 = 4096 * 2 := Cpage.zeroed_first hFirst
  refine ⟨i, ?_, hi, hFirst.1.2.1, hFirst.1.2.2, by rw [hCall], ?_, ?_, ?_⟩
  · exact Nat.le_of_not_lt fun hLt => hFirst.2 c hLt hPair
  · intro k hk
    rw [hCall]
    exact Cpage.taken_allocated h m hFit.offset (by omega) hk
  · intro x hx
    rw [hCall]
    exact hFit.zero hx
  · intro x hx hOut
    refine Cpage.cpageZnalloc_frame (fun k hk => hx k ?_) ?_
    · exact Cpage.lt_of_mem_accesses (n := 1) (by decide) hFirst (show i + 2 - 2 + 2 ≤ h.pages by omega) hk
    · rwa [hCall, hZeroed]

/-! ## Tables -/

/-- The tables of a root are taken pages of the heap, and its last pages are free. -/
structure Tables (h : Cpage.Heap) (root : Word) (owned : Set Word) (m : Memory) (c : Nat) : Prop where
  layout : Layout m root owned
  pages : ∀ t ∈ owned, TakenPage h m t
  free : FreeFrom h m c

/-- Taken pages stay taken, and those that are no tables keep their bytes, as does
memory outside the heap. -/
structure Keeps (h : Cpage.Heap) (owned owned' : Set Word) (m m' : Memory) : Prop where
  subset : owned ⊆ owned'
  taken : ∀ k < h.pages, Cpage.taken h m k = true → Cpage.taken h m' k = true
  fresh : ∀ k, k + 1 < h.pages → Cpage.taken h m k = true → h.pageAddr k ∈ owned' →
    h.pageAddr k ∈ owned
  others : ∀ k, k + 1 < h.pages → Cpage.taken h m k = true → h.pageAddr k ∉ owned →
    Memory.AgreeOn m m' (h.pageAddr k) 4096
  frame : ∀ x, ¬ InHeap h x → m' x = m x

variable {root table : Word} {owned owned' owned'' : Set Word} {p : List (BitVec 9)} {m'' : Memory}

namespace Keeps

theorem refl (h : Cpage.Heap) (owned : Set Word) (m : Memory) : Keeps h owned owned m m :=
  ⟨fun _ hx => hx, fun _ _ hk => hk, fun _ _ _ hk => hk, fun _ _ _ _ _ _ => rfl, fun _ _ => rfl⟩

theorem trans (first : Keeps h owned owned' m m') (second : Keeps h owned' owned'' m' m'') :
    Keeps h owned owned'' m m'' where
  subset := first.subset.trans second.subset
  taken := fun k hk hTaken => second.taken k hk (first.taken k hk hTaken)
  fresh := fun k hk hTaken hMem =>
    first.fresh k hk hTaken (second.fresh k hk (first.taken k (by omega) hTaken) hMem)
  others := fun k hk hTaken hNot => (first.others k hk hTaken hNot).trans
    (second.others k hk (first.taken k (by omega) hTaken) fun hMem =>
      hNot (first.fresh k hk hTaken hMem))
  frame := fun x hx => (second.frame x hx).trans (first.frame x hx)

end Keeps

/-- An entry of a table is written. -/
theorem keeps_setPtEntry (hHeap : Addressed h) (hTables : Tables h root owned m c)
    (hTable : table ∈ owned) (index : BitVec 9) (entry : Word) :
    Keeps h owned owned m (setPtEntry m table (index.setWidth 64) entry) ∧
      (∀ t ∈ owned, TakenPage h (setPtEntry m table (index.setWidth 64) entry) t) ∧
      FreeFrom h (setPtEntry m table (index.setWidth 64) entry) c := by
  obtain ⟨i, hi, rfl, hTaken⟩ := hTables.pages table hTable
  refine ⟨⟨fun _ hx => hx, fun k hk => ?_, fun _ _ _ hk => hk, fun k hk hTaken' hNot x hx => ?_,
    fun x hx => ?_⟩, fun t ht => ?_, fun k hk hEnd => ?_⟩
  · rw [taken_setPtEntry hHeap hi hk]
    exact id
  · have hNe : i ≠ k := fun hSame => hNot (hSame ▸ hTable)
    exact setPtEntry_outside _ _ ((hHeap.apart hi hk hNe).not_inRange hx)
  · exact setPtEntry_outside _ _ fun hIn =>
      hx (hHeap.inHeap_page hi (Nat.lt_trans hIn (by decide)))
  · obtain ⟨j, hj, rfl, hTaken'⟩ := hTables.pages t ht
    exact ⟨j, hj, rfl, (taken_setPtEntry hHeap hi (by omega)).trans hTaken'⟩
  · exact (taken_setPtEntry hHeap hi hEnd).trans (hTables.free k hk hEnd)

/-- A new page for a table, apart from all tables of the root. -/
structure NewPage (h : Cpage.Heap) (owned : Set Word) (m : Memory) (t : Word) (m' : Memory) :
    Prop where
  aligned : t &&& 0xfff#64 = 0
  apart : ∀ n ∈ owned, Apart n 4096 t 4096
  taken : TakenPage h m' t
  before : ∀ k, k + 1 < h.pages → Cpage.taken h m k = true → h.pageAddr k ≠ t
  zero : ∀ x, InRange t 4096 x → m' x = 0

theorem znalloc_newPage (hHeap : Addressed h) (hPages : ∀ t ∈ owned, TakenPage h m t)
    (hFree : FreeFrom h m c) (hc : c + 2 ≤ h.pages) :
    NewPage h owned m (Cpage.cpageZnalloc h m 1).1 (Cpage.cpageZnalloc h m 1).2 ∧
      Keeps h owned owned m (Cpage.cpageZnalloc h m 1).2 ∧
      (∀ n ∈ owned, Memory.AgreeOn m (Cpage.cpageZnalloc h m 1).2 n 4096) ∧
      FreeFrom h (Cpage.cpageZnalloc h m 1).2 (c + 2) := by
  obtain ⟨i, hLow, hi, hFirst, hSecond, hPtr, hBits, hZero, hFrame⟩ :=
    znalloc_one hHeap hFree hc
  have hNot (k : Nat) (hTaken : Cpage.taken h m k = true) : k ≠ i ∧ k ≠ i + 1 := by
    constructor <;> rintro rfl
    · rw [hFirst] at hTaken
      cases hTaken
    · rw [hSecond] at hTaken
      cases hTaken
  have hKeep (k : Nat) (hk : k < h.pages) (hTaken : Cpage.taken h m k = true) :
      Cpage.taken h (Cpage.cpageZnalloc h m 1).2 k = true := by
    rw [hBits k hk, hTaken, Bool.true_or]
  have hSame (k : Nat) (hk : k + 1 < h.pages) (hTaken : Cpage.taken h m k = true) :
      Memory.AgreeOn m (Cpage.cpageZnalloc h m 1).2 (h.pageAddr k) 4096 := by
    obtain ⟨hNe, hNe'⟩ := hNot k hTaken
    intro x hx
    refine hFrame x (fun j hj => hHeap.curByte_ne hk hj hx) fun hIn => ?_
    have hPage := hHeap.toNat_pageAddr hi
    have hOther := hHeap.toNat_pageAddr hk
    have hSum := hHeap.addresses
    rw [inRange_iff_toNat (by omega)] at hx hIn
    omega
  refine ⟨⟨?_, fun n hn => ?_, ?_, fun k hk hTaken => ?_, fun x hx => ?_⟩,
    ⟨fun _ hx => hx, hKeep, fun _ _ _ hk => hk, fun k hk hTaken _ => hSame k hk hTaken,
      fun x hx => ?_⟩,
    fun n hn => ?_, fun k hk hEnd => ?_⟩
  · rw [hPtr]
    exact hHeap.aligned hi
  · obtain ⟨j, hj, rfl, hTaken⟩ := hPages n hn
    rw [hPtr]
    exact hHeap.apart hj hi (hNot j hTaken).1
  · refine ⟨i, hi, hPtr, ?_⟩
    rw [hBits i (by omega)]
    simp
  · rw [hPtr]
    intro hAddr
    have hPage := hHeap.toNat_pageAddr hi
    have hOther := hHeap.toNat_pageAddr hk
    rw [hAddr] at hOther
    exact (hNot k hTaken).1 (by omega)
  · rw [hPtr] at hx
    exact hZero x (Nat.lt_trans hx (by decide))
  · exact hFrame x (fun k hk hIs => hx (hIs ▸ hHeap.inHeap_curByte hk))
      fun hIn => hx (hHeap.inHeap_page hi hIn)
  · obtain ⟨j, hj, rfl, hTaken⟩ := hPages n hn
    exact hSame j hj hTaken
  · rw [hBits k hEnd, hFree k (by omega) hEnd]
    simp
    omega

/-- One level down, over a table that exists or is taken from the heap. -/
theorem mapLevel_spec (hHeap : Addressed h) (hTables : Tables h root owned m c)
    (hWalk : walk (cells m) root p = some table) (hp : p.length < 2) (index : BitVec 9)
    (hRoom : ptEntry m table (index.setWidth 64) &&& pbValid = 0 → c + 2 ≤ h.pages) :
    ∃ owned', Tables h root owned' (mapLevel h m table (index.setWidth 64)).2
        (if ptEntry m table (index.setWidth 64) &&& pbValid = 0 then c + 2 else c) ∧
      Keeps h owned owned' m (mapLevel h m table (index.setWidth 64)).2 ∧
      (∀ q, find (cells (mapLevel h m table (index.setWidth 64)).2) root q = find (cells m) root q) ∧
      walk (cells (mapLevel h m table (index.setWidth 64)).2) root (p ++ [index]) =
        some (mapLevel h m table (index.setWidth 64)).1 := by
  by_cases hOld : ptEntry m table (index.setWidth 64) &&& pbValid = 0
  · obtain ⟨hNew, hKeeps, hSame, hFree⟩ := znalloc_newPage hHeap hTables.pages hTables.free
      (hRoom hOld)
    have hOwned := hTables.layout.walk_owned hWalk
    simp only [mapLevel, if_pos hOld, nextTable_branchEntry hNew.aligned]
    generalize (Cpage.cpageZnalloc h m 1).1 = t at *
    generalize (Cpage.cpageZnalloc h m 1).2 = m₁ at *
    -- The page is zero already, so the tables are those of the call with a zeroed page.
    have hPage : m₁.fill t 4096 0 = m₁ := by
      funext x
      by_cases hx : InRange t 4096 x
      · rw [Memory.fill_inside _ _ hx, hNew.zero x hx]
      · exact Memory.fill_outside _ _ hx
    obtain ⟨path, hTidy, -⟩ := hTables.layout.tidy
    have hCells (n : Word) (hn : n ∈ owned) : cells m₁ n = cells m n := cells_congr (hSame n hn)
    obtain ⟨hLayout₁, hFind₁⟩ := hTables.layout.agree hSame
    have hWalk₁ : walk (cells m₁) root p = some table :=
      (hTidy.walk_congr hCells hTables.layout.root_owned p).trans hWalk
    have hOld₁ : ptEntry m₁ table (index.setWidth 64) &&& pbValid = 0 := by
      have hEntry : ptEntry m₁ table (index.setWidth 64) = ptEntry m table (index.setWidth 64) :=
        Memory.load64_congr fun x hx => hSame table hOwned x (inRange_of_ptEntryAddr hx)
      rwa [hEntry]
    obtain ⟨hLayout, hFind, hNext⟩ :=
      hLayout₁.addTable hWalk₁ hp index hOld₁ hNew.aligned hNew.apart
    rw [hPage] at hLayout hFind hNext
    have hTables₁ : Tables h root owned m₁ (c + 2) := by
      refine ⟨hLayout₁, fun n hn => ?_, hFree⟩
      obtain ⟨j, hj, rfl, hTaken⟩ := hTables.pages n hn
      exact ⟨j, hj, rfl, hKeeps.taken j (by omega) hTaken⟩
    obtain ⟨hWrite, hTaken, hFree'⟩ := keeps_setPtEntry hHeap hTables₁ hOwned index (branchEntry t)
    refine ⟨insert t owned, ⟨hLayout, ?_, hFree'⟩, ?_, fun q => (hFind q).trans (hFind₁ q), hNext⟩
    · rintro n (rfl | hn)
      · obtain ⟨i, hi, hAddr, hBit⟩ := hNew.taken
        exact ⟨i, hi, hAddr, hWrite.taken i (by omega) hBit⟩
      · exact hTaken n hn
    · have hBoth := hKeeps.trans hWrite
      refine ⟨Set.subset_insert t owned, hBoth.taken, fun k hk hBit hMem => ?_, hBoth.others,
        hBoth.frame⟩
      exact hMem.resolve_left (hNew.before k hk hBit)
  · have hCell := hTables.layout.cell_above hWalk hp index hOld
    simp only [mapLevel, if_neg hOld]
    refine ⟨owned, hTables, Keeps.refl h owned m, fun _ => trivial, ?_⟩
    rw [walk_append, hWalk]
    simp [walk, hCell]

theorem Tables.mono {c' : Nat} (hTables : Tables h root owned m c) (hLe : c ≤ c') :
    Tables h root owned m c' :=
  ⟨hTables.layout, hTables.pages, fun k hk hEnd => hTables.free k (by omega) hEnd⟩

/-- A path that exists takes no page, any other at most two pages at each level. -/
theorem mapLoop_spec (hHeap : Addressed h) (vaddr : Word) (i : Nat)
    (hTables : Tables h root owned m c) (hWalk : walk (cells m) root p = some table)
    (hp : p.length + i = 2)
    (hRoom : walk (cells m) root (p ++ upperIndices vaddr i) = none → c + 2 * i ≤ h.pages) :
    ∃ owned', Tables h root owned' (mapLoop h vaddr m table i).2
        (if (walk (cells m) root (p ++ upperIndices vaddr i)).isSome then c else c + 2 * i) ∧
      Keeps h owned owned' m (mapLoop h vaddr m table i).2 ∧
      (∀ q, find (cells (mapLoop h vaddr m table i).2) root q = find (cells m) root q) ∧
      walk (cells (mapLoop h vaddr m table i).2) root (p ++ upperIndices vaddr i) =
        some (mapLoop h vaddr m table i).1 := by
  induction i generalizing m table p owned c with
  | zero =>
      rw [upperIndices, List.append_nil, hWalk]
      exact ⟨owned, hTables, Keeps.refl h owned m, fun _ => rfl, hWalk⟩
  | succ i ih =>
      simp only [mapLoop, vpn_eq]
      have hPath : p ++ upperIndices vaddr (i + 1) =
          p ++ [index vaddr (i + 1)] ++ upperIndices vaddr i := by
        rw [List.append_assoc]
        rfl
      have hFirst : ptEntry m table ((index vaddr (i + 1)).setWidth 64) &&& pbValid = 0 →
          walk (cells m) root (p ++ upperIndices vaddr (i + 1)) = none := by
        intro hOld
        have hCell : cells m table (index vaddr (i + 1)) = .empty := by
          simp only [cells, cellOf, if_pos hOld]
        rw [walk_append, hWalk]
        simp [upperIndices, walk, hCell]
      obtain ⟨owned₁, hTables₁, hKeeps₁, hFind₁, hWalk₁⟩ := mapLevel_spec hHeap hTables hWalk
        (by omega) (index vaddr (i + 1)) fun hOld => by
          have hEnough := hRoom (hFirst hOld)
          omega
      by_cases hOld : ptEntry m table ((index vaddr (i + 1)).setWidth 64) &&& pbValid = 0
      · rw [if_pos hOld] at hTables₁
        have hEnough := hRoom (hFirst hOld)
        obtain ⟨owned₂, hTables₂, hKeeps₂, hFind₂, hWalk₂⟩ := ih hTables₁ hWalk₁ (by simp; omega)
          fun _ => by omega
        refine ⟨owned₂, ?_, hKeeps₁.trans hKeeps₂, fun q => (hFind₂ q).trans (hFind₁ q), ?_⟩
        · rw [hFirst hOld, if_neg (by simp)]
          refine hTables₂.mono ?_
          split
          · omega
          · omega
        · rw [hPath]
          exact hWalk₂
      · rw [if_neg hOld] at hTables₁
        have hSame : (mapLevel h m table ((index vaddr (i + 1)).setWidth 64)).2 = m := by
          rw [mapLevel, if_neg hOld]
        rw [hPath] at hRoom ⊢
        obtain ⟨owned₂, hTables₂, hKeeps₂, hFind₂, hWalk₂⟩ := ih hTables₁ hWalk₁ (by simp; omega)
          fun hNone => by
            rw [hSame] at hNone
            have hEnough := hRoom hNone
            omega
        refine ⟨owned₂, hTables₂.mono ?_, hKeeps₁.trans hKeeps₂,
          fun q => (hFind₂ q).trans (hFind₁ q), hWalk₂⟩
        rw [hSame]
        split <;> omega

/-- A call of `mmu_map`. -/
theorem mmuMap_spec (hHeap : Addressed h) (hTables : Tables h root owned m c)
    (vaddr paddr : Word) {bits : Word} (hBits : bits &&& pbLeaf ≠ 0)
    (hRoom : walk (cells m) root (upperIndices vaddr 2) = none → c + 4 ≤ h.pages) :
    ∃ owned', Tables h root owned' (mmuMap h m root vaddr paddr bits).2
        (if (walk (cells m) root (upperIndices vaddr 2)).isSome then c else c + 4) ∧
      Keeps h owned owned' m (mmuMap h m root vaddr paddr bits).2 ∧
      ∀ q, find (cells (mmuMap h m root vaddr paddr bits).2) root q =
        if q = indices vaddr 3 then some (leafEntry paddr bits) else find (cells m) root q := by
  obtain ⟨owned', hTables', hKeeps, hFind, hWalk⟩ := @mapLoop_spec h m c root root owned [] hHeap
    vaddr 2 hTables rfl rfl hRoom
  have hLeaf := hTables'.layout.setLeaf hWalk rfl (index vaddr 0) (leafEntry_valid paddr bits)
    (leafEntry_leaf paddr hBits)
  have hOwned := hTables'.layout.walk_owned hWalk
  obtain ⟨hWrite, hTaken, hFree⟩ := keeps_setPtEntry hHeap hTables' hOwned (index vaddr 0)
    (leafEntry paddr bits)
  simp only [mmuMap, vpn_eq]
  refine ⟨owned', ⟨hLeaf.1, hTaken, hFree⟩, hKeeps.trans hWrite, fun q => ?_⟩
  rw [hLeaf.2 q, hFind]
  rfl

/-! ## Runs -/

theorem mapAll_cons (root : Word) (m : Memory) (c : Mapping) (rest : List Mapping) :
    mapAll h root m (c :: rest) = mapAll h root (mmuMap h m root c.vaddr c.paddr c.bits).2 rest :=
  rfl

theorem mapAll_append (root : Word) (m : Memory) (maps maps' : List Mapping) :
    mapAll h root m (maps ++ maps') = mapAll h root (mapAll h root m maps) maps' :=
  List.foldl_append

/-- The calls of `mmu_map` that `mmu_map_multiple` makes from page `k` on. -/
theorem mapMultipleLoop_eq {vStart pStart bytes bits : Word} (hBytes : bytes.toNat ≤ 2 ^ 64 - 4096)
    {k fuel : Nat} (hk : k ≤ pageCount bytes) (hFuel : pageCount bytes - k < fuel) :
    mapMultipleLoop h root vStart pStart bytes bits (BitVec.ofNat 64 (4096 * k))
        (mapAll h root m (rangeMaps vStart pStart bits k)) fuel =
      some (mapAll h root m (rangeMaps vStart pStart bits (pageCount bytes))) := by
  induction fuel generalizing k with
  | zero => omega
  | succ fuel ih =>
      have hCount : pageCount bytes = (bytes.toNat + 4095) / 4096 := rfl
      have hIndex : (BitVec.ofNat 64 (4096 * k)).toNat = 4096 * k := by
        rw [BitVec.toNat_ofNat]
        omega
      rw [mapMultipleLoop]
      by_cases hLast : k = pageCount bytes
      · rw [if_neg (by rw [BitVec.lt_def, hIndex]; omega), hLast]
      · have hStep : BitVec.ofNat 64 (4096 * k) + 4096 = BitVec.ofNat 64 (4096 * (k + 1)) := by
          rw [Nat.mul_succ, BitVec.ofNat_add]
          rfl
        have hNext := ih (show k + 1 ≤ pageCount bytes by omega) (by omega)
        rw [rangeMaps_succ, mapAll_append] at hNext
        rw [if_pos (by rw [BitVec.lt_def, hIndex]; omega), hStep]
        exact hNext

theorem mmuMapMultiple_eq {vStart pStart bytes bits : Word} (hBytes : bytes.toNat ≤ 2 ^ 64 - 4096) :
    mmuMapMultiple h m root vStart pStart bytes bits =
      some (mapAll h root m (rangeMaps vStart pStart bits (pageCount bytes))) := by
  have hFuel : pageCount bytes - 0 < 2 ^ 52 + 1 := by
    unfold pageCount
    omega
  exact mapMultipleLoop_eq hBytes (Nat.zero_le _) hFuel

theorem lastMapping_cons (c : Mapping) (rest : List Mapping) (a : Word) :
    lastMapping (c :: rest) a =
      (lastMapping rest a).or (if vpn27 c.vaddr = vpn27 a then some c else none) := by
  have hAppend := lastMapping_append [c] rest a
  rw [List.singleton_append] at hAppend
  rw [hAppend]
  congr 1
  simp [lastMapping, List.find?_cons]
  split <;> simp_all

/-- A run of calls, when the free pages are enough. -/
theorem mapAll_spec (hHeap : Addressed h) (maps : List Mapping)
    (hBits : ∀ c ∈ maps, c.bits &&& pbLeaf ≠ 0) (hTables : Tables h root owned m c)
    {before : Option (List (BitVec 9))}
    (hBefore : ∀ q, before = some q → (walk (cells m) root q).isSome)
    (hRoom : c + cost before maps ≤ h.pages) :
    ∃ owned', Tables h root owned' (mapAll h root m maps) (c + cost before maps) ∧
      Keeps h owned owned' m (mapAll h root m maps) ∧
      ∀ a, find (cells (mapAll h root m maps)) root (indices a 3) =
        ((lastMapping maps a).map fun c => leafEntry c.paddr c.bits).or
          (find (cells m) root (indices a 3)) := by
  induction maps generalizing m owned c before with
  | nil => exact ⟨owned, hTables, Keeps.refl h owned m, fun _ => rfl⟩
  | cons call rest ih =>
      rw [cost] at hRoom ⊢
      have hNext : walk (cells m) root (upperIndices call.vaddr 2) = none →
          before ≠ some (upperIndices call.vaddr 2) := by
        intro hNone hSame
        have hSome := hBefore _ hSame
        rw [hNone] at hSome
        cases hSome
      obtain ⟨owned₁, hTables₁, hKeeps₁, hFind₁⟩ := mmuMap_spec hHeap hTables call.vaddr call.paddr
        (hBits call List.mem_cons_self) fun hNone => by
          rw [if_neg (hNext hNone)] at hRoom
          omega
      have hTables₁ := hTables₁.mono
        (show _ ≤ c + if before = some (upperIndices call.vaddr 2) then 0 else 4 by
          split
          · exact Nat.le_add_right ..
          next hNone => rw [if_neg (hNext (Option.not_isSome_iff_eq_none.mp hNone))])
      have hWalk : ∃ table, walk (cells (mmuMap h m root call.vaddr call.paddr call.bits).2) root
          (upperIndices call.vaddr 2) = some table := by
        have hLeaf := hFind₁ (indices call.vaddr 3)
        rw [if_pos rfl] at hLeaf
        exact walk_of_find hLeaf
      obtain ⟨owned₂, hTables₂, hKeeps₂, hFind₂⟩ := ih
        (fun c hc => hBits c (List.mem_cons_of_mem _ hc)) hTables₁
        (fun q hq => by
          obtain ⟨table, hTable⟩ := hWalk
          rw [← Option.some.inj hq, hTable]
          rfl) (by omega)
      rw [mapAll_cons, ← Nat.add_assoc]
      refine ⟨owned₂, hTables₂, hKeeps₁.trans hKeeps₂, fun a => ?_⟩
      rw [hFind₂, hFind₁, lastMapping_cons]
      by_cases hPage : vpn27 call.vaddr = vpn27 a
      · rw [if_pos hPage, if_pos ((indices_eq_iff a call.vaddr).mpr hPage.symm)]
        cases lastMapping rest a <;> rfl
      · rw [if_neg hPage, if_neg fun hSame => hPage ((indices_eq_iff a call.vaddr).mp hSame).symm]
        cases lastMapping rest a <;> rfl

end Kernel.MmuPages
