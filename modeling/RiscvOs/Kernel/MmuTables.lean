import RiscvOs.Kernel.Mmu
import RiscvOs.Semantics.RadixTable
import RiscvOs.Semantics.Word

/-! What a call of `mmu_map` does to the tree of page tables below a root. An
entry is read as a cell of a radix table; the tables of a root are pages
without a common byte. -/
namespace Kernel.Mmu

open Semantics Radix

section Entries

theorem nextTable_branchEntry {t : Word} (h : t &&& 0xfff#64 = 0) :
    nextTable (branchEntry t) = t := by
  apply BitVec.eq_of_getLsbD_eq
  intro i hi
  simp only [nextTable, branchEntry, pbValid, BitVec.getLsbD_and, BitVec.getLsbD_not,
    BitVec.getLsbD_shiftLeft, BitVec.getLsbD_or, BitVec.getLsbD_ushiftRight, getLsbD_0xfff]
  by_cases hLow : i < 12
  · simp only [hLow, getLsbD_of_and_0xfff h hLow, decide_true, Bool.not_true, Bool.and_false]
  · have hOne : (1#64).getLsbD (i - 2) = false := by
      simp
      omega
    simp [hi, hLow, hOne, show 2 + (i - 2) = i by omega, show ¬ i < 2 by omega]

/-- Above its ten low bits a leaf holds the page number of its address. -/
theorem getLsbD_leafEntry (p : Word) {bits : Word} (hBits : bits.toNat < 2 ^ 10) {i : Nat}
    (hi : 10 ≤ i) : (leafEntry p bits).getLsbD i = (decide (i < 54) && p.getLsbD (i + 2)) := by
  have hOne : (1 : Word).getLsbD i = false := by
    simp
    omega
  simp only [leafEntry, ppn, pbValid, BitVec.getLsbD_or, BitVec.getLsbD_and,
    BitVec.getLsbD_shiftLeft, BitVec.getLsbD_ushiftRight, getLsbD_0x1ff, getLsbD_0x3ffffff,
    getLsbD_of_toNat_lt hBits hi, hOne, Bool.or_false]
  grind

theorem getLsbD_pageMask (i : Nat) :
    (0x00fffffffffff000#64).getLsbD i = (decide (12 ≤ i) && decide (i < 56)) := by
  rw [show (0x00fffffffffff000#64) = BitVec.ofNat 64 (2 ^ 44 - 1) <<< 12 from rfl,
    BitVec.getLsbD_shiftLeft, getLsbD_lowMask 44 _ (by decide)]
  grind

/-- Decoding a leaf of the last level gives the page that was encoded. -/
theorem leafAddr_leafEntry (p bits a : Word) (hBits : bits.toNat < 2 ^ 10) :
    leafAddr (leafEntry p bits) a 0 = (p &&& 0x00fffffffffff000#64) ||| (a &&& 0xfff#64) := by
  apply BitVec.eq_of_getLsbD_eq
  intro i hi
  simp only [leafAddr, ppn, BitVec.getLsbD_or, BitVec.getLsbD_and, BitVec.getLsbD_shiftLeft,
    BitVec.getLsbD_ushiftRight, getLsbD_0x1ff, getLsbD_0x3ffffff, getLsbD_0xfff, getLsbD_pageMask]
  rw [getLsbD_leafEntry p hBits (by omega), getLsbD_leafEntry p hBits (by omega),
    getLsbD_leafEntry p hBits (by omega)]
  grind

theorem branchEntry_valid (t : Word) : branchEntry t &&& pbValid ≠ 0 := by
  intro h
  exact absurd (or_and_eq_zero h).2 (by decide)

theorem branchEntry_branch {t : Word} (h : t &&& 0xfff#64 = 0) : branchEntry t &&& pbLeaf = 0 := by
  apply BitVec.eq_of_getLsbD_eq
  intro i hi
  have hMask : pbLeaf.getLsbD i = (decide (1 ≤ i) && decide (i < 4)) := by
    rw [show pbLeaf = BitVec.ofNat 64 (2 ^ 3 - 1) <<< 1 from rfl, BitVec.getLsbD_shiftLeft,
      getLsbD_lowMask 3 _ (by decide)]
    grind
  rw [BitVec.getLsbD_and, hMask, branchEntry, BitVec.getLsbD_or, BitVec.getLsbD_ushiftRight]
  by_cases hi : i < 4
  · rw [getLsbD_of_and_0xfff h (show 2 + i < 12 by omega)]
    cases i <;> simp [pbValid]
  · simp [hi]

theorem leafEntry_valid (p bits : Word) : leafEntry p bits &&& pbValid ≠ 0 := by
  intro h
  exact absurd (or_and_eq_zero h).2 (by decide)

theorem leafEntry_leaf (p : Word) {bits : Word} (hBits : bits &&& pbLeaf ≠ 0) :
    leafEntry p bits &&& pbLeaf ≠ 0 := by
  intro h
  exact hBits (or_and_eq_zero (or_and_eq_zero h).1).2

/-- The user bit of a leaf is the one it was made with. -/
theorem leafEntry_and_pbUser (p bits : Word) : leafEntry p bits &&& pbUser = bits &&& pbUser := by
  apply BitVec.eq_of_getLsbD_eq
  intro i hi
  have hUser : pbUser.getLsbD i = decide (i = 4) := by
    rw [show pbUser = BitVec.twoPow 64 4 from rfl, BitVec.getLsbD_twoPow]
    simp [eq_comm]
  rw [BitVec.getLsbD_and, BitVec.getLsbD_and, hUser]
  by_cases h4 : i = 4
  · subst h4
    simp [leafEntry, pbValid]
  · simp [h4]

end Entries

/-- A table entry as a cell of a radix table. -/
def cellOf (entry : Word) : Cell Word Word :=
  if entry &&& pbValid = 0 then .empty
  else if entry &&& pbLeaf = 0 then .link (nextTable entry)
  else .leaf entry

/-- The tables in memory, each with 512 cells. -/
def cells (m : Memory) : Cells Word (BitVec 9) Word :=
  fun table i => cellOf (ptEntry m table (i.setWidth 64))

/-- The virtual page number at level `i`, as an index of a table. -/
def index (vaddr : Word) (i : Nat) : BitVec 9 :=
  vaddr.extractLsb' (12 + 9 * i) 9

/-- The indices of the levels below `i`, the highest level first. -/
def indices (vaddr : Word) : Nat → List (BitVec 9)
  | 0 => []
  | i + 1 => index vaddr i :: indices vaddr i

theorem vpn_eq (vaddr : Word) (i : Nat) : vpn vaddr i = (index vaddr i).setWidth 64 :=
  shift_and_mask vaddr (12 + 9 * i) 9 (by decide)

/-- The tables of a root are pages apart from each other and form a tree of
three levels. -/
structure Layout (m : Memory) (root : Word) (owned : Set Word) : Prop where
  tidy : ∃ path, Tidy (cells m) owned path 3 ∧ path root = []
  root_owned : root ∈ owned
  apart : ∀ t ∈ owned, ∀ t' ∈ owned, t ≠ t' → Apart t 4096 t' 4096

section Addresses

variable {m m' : Memory} {t t' x : Word} {i j : BitVec 9}

theorem ptEntryAddr_eq (t : Word) (i : BitVec 9) :
    ptEntryAddr t (i.setWidth 64) = t + BitVec.ofNat 64 (8 * i.toNat) := by
  unfold ptEntryAddr
  have := i.isLt
  bv_omega

theorem inRange_of_ptEntryAddr (h : InRange (ptEntryAddr t (i.setWidth 64)) 8 x) :
    InRange t 4096 x := by
  rw [ptEntryAddr_eq] at h
  have := i.isLt
  exact h.part (by omega) (by omega)

/-- Entries of tables that are apart, and different entries of one table. -/
theorem apart_ptEntryAddr (hTables : t ≠ t' → Apart t 4096 t' 4096) (h : ¬ (t' = t ∧ j = i)) :
    Apart (ptEntryAddr t (i.setWidth 64)) 8 (ptEntryAddr t' (j.setWidth 64)) 8 := by
  have hi := i.isLt
  have hj := j.isLt
  rw [ptEntryAddr_eq, ptEntryAddr_eq]
  by_cases hSame : t = t'
  · have hIndex : i.toNat ≠ j.toNat := fun hEq => h ⟨hSame.symm, BitVec.eq_of_toNat_eq hEq.symm⟩
    rw [hSame]
    exact apart_of_offsets (by decide) (by decide) (by omega) (by omega) (by omega)
  · exact (hTables hSame).part (by omega) (by omega) (by decide) (by decide)

theorem cells_congr (h : Memory.AgreeOn m m' t 4096) : cells m' t = cells m t := by
  funext i
  unfold cells ptEntry
  rw [Memory.load64_congr fun x hx => h x (inRange_of_ptEntryAddr hx)]

theorem cells_setPtEntry (m : Memory) (t entry : Word) (i : BitVec 9) :
    cells (setPtEntry m t (i.setWidth 64) entry) t i = cellOf entry := by
  unfold cells ptEntry setPtEntry
  rw [Memory.load64_store64]

theorem cells_setPtEntry_of_apart (m : Memory) (entry : Word)
    (hTables : t ≠ t' → Apart t 4096 t' 4096) (h : ¬ (t' = t ∧ j = i)) :
    cells (setPtEntry m t (i.setWidth 64) entry) t' j = cells m t' j := by
  unfold cells ptEntry setPtEntry
  rw [Memory.load64_store64_apart _ _ (apart_ptEntryAddr hTables h)]

/-- A page of zeros is an empty table. -/
theorem cells_fill_zero (m : Memory) (t : Word) (i : BitVec 9) :
    cells (m.fill t 4096 0) t i = .empty := by
  unfold cells ptEntry
  rw [Memory.load64_fill_zero m fun x hx => inRange_of_ptEntryAddr hx]
  rfl

theorem setPtEntry_outside (m : Memory) (entry : Word) (h : ¬ InRange t 4096 x) :
    setPtEntry m t (i.setWidth 64) entry x = m x := by
  unfold setPtEntry Memory.store64
  rw [if_neg fun hx => h (inRange_of_ptEntryAddr hx)]

end Addresses

namespace Layout

variable {m m' : Memory} {root table t : Word} {owned : Set Word} {p : List (BitVec 9)}

theorem apart_of_ne (h : Layout m root owned) {t t' : Word} (ht : t ∈ owned) (ht' : t' ∈ owned)
    (hNe : t ≠ t') : Apart t 4096 t' 4096 :=
  h.apart t ht t' ht' hNe

/-- Memory outside the tables does not matter. -/
theorem agree (h : Layout m root owned) (hAgree : ∀ t ∈ owned, Memory.AgreeOn m m' t 4096) :
    Layout m' root owned ∧ ∀ q, find (cells m') root q = find (cells m) root q := by
  obtain ⟨path, hTidy, hPath⟩ := h.tidy
  have hSame (t : Word) (ht : t ∈ owned) : cells m' t = cells m t := cells_congr (hAgree t ht)
  refine ⟨⟨⟨path, hTidy.congr hSame, hPath⟩, h.root_owned, h.apart⟩, fun q => ?_⟩
  exact hTidy.find_congr hSame h.root_owned q

theorem walk_owned (h : Layout m root owned) (hWalk : walk (cells m) root p = some table) :
    table ∈ owned := by
  obtain ⟨path, hTidy, -⟩ := h.tidy
  exact (hTidy.walk_spec h.root_owned hWalk).1

/-- A valid entry above the last level is a branch. -/
theorem cell_above (h : Layout m root owned) (hWalk : walk (cells m) root p = some table)
    (hp : p.length < 2) (i : BitVec 9) (hValid : ptEntry m table (i.setWidth 64) &&& pbValid ≠ 0) :
    cells m table i = .link (nextTable (ptEntry m table (i.setWidth 64))) := by
  obtain ⟨path, hTidy, hPath⟩ := h.tidy
  obtain ⟨hOwned, hTable⟩ := hTidy.walk_spec h.root_owned hWalk
  rw [hPath, List.nil_append] at hTable
  by_cases hBranch : ptEntry m table (i.setWidth 64) &&& pbLeaf = 0
  · simp only [cells, cellOf, if_neg hValid, if_pos hBranch]
  · have hLeaf : cells m table i = .leaf (ptEntry m table (i.setWidth 64)) := by
      simp only [cells, cellOf, if_neg hValid, if_neg hBranch]
    have hBottom := hTidy.leaf_bottom table hOwned i _ hLeaf
    rw [hTable] at hBottom
    omega

/-- The entry at the end of a path through all levels is written. -/
theorem setLeaf (h : Layout m root owned) (hWalk : walk (cells m) root p = some table)
    (hp : p.length = 2) (i : BitVec 9) {entry : Word} (hValid : entry &&& pbValid ≠ 0)
    (hLeaf : entry &&& pbLeaf ≠ 0) :
    Layout (setPtEntry m table (i.setWidth 64) entry) root owned ∧
      ∀ q, find (cells (setPtEntry m table (i.setWidth 64) entry)) root q =
        if q = p ++ [i] then some entry else find (cells m) root q := by
  obtain ⟨path, hTidy, hPath⟩ := h.tidy
  obtain ⟨hOwned, hTable⟩ := hTidy.walk_spec h.root_owned hWalk
  rw [hPath, List.nil_append] at hTable
  have hBottom : (path table).length + 1 = 3 := by rw [hTable, hp]
  have hChanged : ChangedAt (cells m) (cells (setPtEntry m table (i.setWidth 64) entry)) owned
      table i := fun n hn j hOther =>
    cells_setPtEntry_of_apart m entry (h.apart_of_ne hOwned hn) hOther
  have hCell : cells (setPtEntry m table (i.setWidth 64) entry) table i = .leaf entry := by
    rw [cells_setPtEntry, cellOf, if_neg hValid, if_neg hLeaf]
  refine ⟨⟨⟨path, hTidy.setLeaf hChanged hCell hBottom, hPath⟩, h.root_owned, h.apart⟩, ?_⟩
  exact hTidy.find_setLeaf hChanged hCell hBottom h.root_owned hPath hWalk

/-- A branch to a zeroed page that is apart from all tables is added. -/
theorem addTable (h : Layout m root owned) (hWalk : walk (cells m) root p = some table)
    (hp : p.length < 2) (i : BitVec 9) (hOld : ptEntry m table (i.setWidth 64) &&& pbValid = 0)
    (hAligned : t &&& 0xfff#64 = 0) (hApart : ∀ n ∈ owned, Apart n 4096 t 4096) :
    let m' := setPtEntry (m.fill t 4096 0) table (i.setWidth 64) (branchEntry t)
    Layout m' root (insert t owned) ∧ (∀ q, find (cells m') root q = find (cells m) root q) ∧
      walk (cells m') root (p ++ [i]) = some t := by
  intro m'
  obtain ⟨path, hTidy, hPath⟩ := h.tidy
  obtain ⟨hOwned, hTable⟩ := hTidy.walk_spec h.root_owned hWalk
  rw [hPath, List.nil_append] at hTable
  have hNew : t ∉ owned := fun ht => by
    have hSelf := (hApart t ht).1
    simp at hSelf
  have hNeTable : t ≠ table := fun hEq => hNew (hEq ▸ hOwned)
  have hFill (n : Word) (hn : n ∈ owned) : cells (m.fill t 4096 0) n = cells m n :=
    cells_congr (Memory.agreeOn_fill m 0 (hApart n hn).symm)
  have hEmpty : cells m table i = .empty := by
    simp only [cells, cellOf, if_pos hOld]
  have hChanged : ChangedAt (cells m) (cells m') owned table i := fun n hn j hOther => by
    rw [cells_setPtEntry_of_apart _ _ (h.apart_of_ne hOwned hn) hOther, hFill n hn]
  have hLink : cells m' table i = .link t := by
    rw [cells_setPtEntry, cellOf, if_neg (branchEntry_valid t), if_pos (branchEntry_branch hAligned),
      nextTable_branchEntry hAligned]
  have hZero (j : BitVec 9) : cells m' t j = .empty := by
    rw [cells_setPtEntry_of_apart _ _ (fun _ => hApart table hOwned) (fun hAt => hNeTable hAt.1),
      cells_fill_zero]
  have hNoLink (next : Word) : cells m table i ≠ .link next := by simp [hEmpty]
  obtain ⟨path', hTidy', hKeep⟩ :=
    hTidy.extend hChanged hLink hZero hOwned hNew (by rw [hTable]; omega)
  refine ⟨⟨⟨path', hTidy', (hKeep root h.root_owned).trans hPath⟩,
    Set.mem_insert_of_mem _ h.root_owned, ?_⟩, ?_, ?_⟩
  · rintro n (rfl | hn) n' (rfl | hn') hNe
    · exact absurd rfl hNe
    · exact (hApart n' hn').symm
    · exact hApart n hn
    · exact h.apart n hn n' hn' hNe
  · exact fun q => hTidy.find_extend hChanged hLink hZero hEmpty h.root_owned q
  · rw [walk_append, hTidy.walk_changedAt hChanged hNoLink h.root_owned hWalk]
    simp [walk, hLink]

end Layout

end Kernel.Mmu
