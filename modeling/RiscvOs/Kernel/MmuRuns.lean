import RiscvOs.Kernel.MmuTables

/-! Runs of `mmu_map` on one root. The tables below the root refine a finite
map from 27-bit virtual page numbers to leaves. -/
namespace Kernel.Mmu

open Semantics Radix

variable {answer : Nat → Word} {root : Word} {owned : Set Word}

/-- The tables after the answers from `lo` up to `hi` have become tables. -/
def grow (answer : Nat → Word) (owned : Set Word) (lo hi : Nat) : Set Word :=
  owned ∪ {t | ∃ k, lo ≤ k ∧ k < hi ∧ t = answer k}

/-- Each answer from `lo` up to `hi` is a page-aligned page apart from the
tables and from the answers before it. -/
def FreshTables (answer : Nat → Word) (owned : Set Word) (lo hi : Nat) : Prop :=
  ∀ k, lo ≤ k → k < hi → answer k ≠ 0 ∧ answer k &&& 0xfff#64 = 0 ∧
    ∀ t ∈ grow answer owned lo k, Apart t 4096 (answer k) 4096

theorem grow_self (owned : Set Word) (lo : Nat) : grow answer owned lo lo = owned := by
  ext t
  constructor
  · rintro (ht | ⟨k, hLow, hHigh, -⟩)
    · exact ht
    · omega
  · exact .inl

theorem grow_succ (owned : Set Word) (lo : Nat) :
    grow answer owned lo (lo + 1) = insert (answer lo) owned := by
  ext t
  constructor
  · rintro (ht | ⟨k, hLow, hHigh, rfl⟩)
    · exact .inr ht
    · rw [show k = lo by omega]
      exact .inl rfl
  · rintro (rfl | ht)
    · exact .inr ⟨lo, Nat.le_refl _, Nat.lt_succ_self _, rfl⟩
    · exact .inl ht

theorem grow_grow (owned : Set Word) {lo mid hi : Nat} (hLow : lo ≤ mid) (hHigh : mid ≤ hi) :
    grow answer (grow answer owned lo mid) mid hi = grow answer owned lo hi := by
  ext t
  constructor
  · rintro ((ht | ⟨k, hk, hk', rfl⟩) | ⟨k, hk, hk', rfl⟩)
    · exact .inl ht
    · exact .inr ⟨k, hk, by omega, rfl⟩
    · exact .inr ⟨k, by omega, hk', rfl⟩
  · rintro (ht | ⟨k, hk, hk', rfl⟩)
    · exact .inl (.inl ht)
    · by_cases hMid : k < mid
      · exact .inl (.inr ⟨k, hk, hMid, rfl⟩)
      · exact .inr ⟨k, by omega, hk', rfl⟩

theorem subset_grow (owned : Set Word) (lo hi : Nat) : owned ⊆ grow answer owned lo hi :=
  fun _ ht => .inl ht

namespace FreshTables

variable {lo mid hi : Nat}

theorem before (h : FreshTables answer owned lo hi) (hHigh : mid ≤ hi) :
    FreshTables answer owned lo mid :=
  fun k hk hk' => h k hk (by omega)

theorem after (h : FreshTables answer owned lo hi) (hLow : lo ≤ mid) :
    FreshTables answer (grow answer owned lo mid) mid hi := by
  intro k hk hk'
  rw [grow_grow owned hLow hk]
  exact h k (by omega) hk'

theorem subset {owned' : Set Word} (h : FreshTables answer owned' lo hi) (hOwned : owned ⊆ owned') :
    FreshTables answer owned lo hi := by
  intro k hk hk'
  obtain ⟨hSome, hAligned, hApart⟩ := h k hk hk'
  exact ⟨hSome, hAligned, fun t ht => hApart t (ht.imp_left (@hOwned t))⟩

/-- Only the answers between the bounds matter. -/
theorem congr {answer' : Nat → Word} (h : FreshTables answer owned lo hi)
    (hSame : ∀ k, lo ≤ k → k < hi → answer' k = answer k) : FreshTables answer' owned lo hi := by
  intro k hk hk'
  obtain ⟨hSome, hAligned, hApart⟩ := h k hk hk'
  rw [hSame k hk hk']
  refine ⟨hSome, hAligned, fun t ht => hApart t (ht.imp_right ?_)⟩
  rintro ⟨j, hj, hj', rfl⟩
  exact ⟨j, hj, hj', hSame j hj (by omega)⟩

end FreshTables

/-- What the creation of tables keeps: the tables stay a tree, the lookups
keep their results, and memory outside the tables is as before. -/
structure Extends (answer : Nat → Word) (root : Word) (owned : Set Word) (w w' : World) : Prop where
  calls_le : w.calls ≤ w'.calls
  layout : Layout w'.mem root (grow answer owned w.calls w'.calls)
  find_eq : ∀ q, find (cells w'.mem) root q = find (cells w.mem) root q
  frame : ∀ x, (∀ t ∈ grow answer owned w.calls w'.calls, ¬ InRange t 4096 x) →
    w'.mem x = w.mem x

namespace Extends

variable {w w' w'' : World}

theorem refl (h : Layout w.mem root owned) : Extends answer root owned w w :=
  ⟨Nat.le_refl _, by rwa [grow_self], fun _ => rfl, fun _ _ => rfl⟩

theorem trans (h : Extends answer root owned w w')
    (h' : Extends answer root (grow answer owned w.calls w'.calls) w' w'') :
    Extends answer root owned w w'' := by
  have hGrow : grow answer (grow answer owned w.calls w'.calls) w'.calls w''.calls =
      grow answer owned w.calls w''.calls := grow_grow owned h.calls_le h'.calls_le
  refine ⟨h.calls_le.trans h'.calls_le, ?_, ?_, ?_⟩
  · rw [← hGrow]
    exact h'.layout
  · exact fun q => (h'.find_eq q).trans (h.find_eq q)
  · intro x hx
    rw [← hGrow] at hx
    rw [h'.frame x hx, h.frame x fun t ht => hx t (subset_grow _ _ _ ht)]

end Extends

theorem cpageZnalloc_one (w : World) (hAnswer : answer w.calls ≠ 0) :
    cpageZnalloc answer 1 w = (answer w.calls,
      { mem := w.mem.fill (answer w.calls) 4096 0, calls := w.calls + 1 }) := by
  rw [cpageZnalloc, if_neg]
  · rfl
  · rintro (hPages | hNull)
    · omega
    · exact hAnswer hNull

theorem mapLevel_calls_le (w : World) (table i : Word) :
    w.calls ≤ (mapLevel answer w table i).2.calls := by
  simp only [mapLevel, cpageZnalloc]
  split
  · split <;> exact Nat.le_succ _
  · exact Nat.le_refl _

theorem mapLoop_calls_le (vaddr : Word) (w : World) (table : Word) (i : Nat) :
    w.calls ≤ (mapLoop answer vaddr w table i).2.calls := by
  induction i generalizing w table with
  | zero => exact Nat.le_refl _
  | succ i ih => exact (mapLevel_calls_le w table _).trans (ih _ _)

/-- One level down, over a table that exists or is created. -/
theorem mapLevel_spec {w : World} {table : Word} {p : List (BitVec 9)} (i : BitVec 9)
    (h : Layout w.mem root owned) (hWalk : walk (cells w.mem) root p = some table)
    (hp : p.length < 2)
    (hFresh : FreshTables answer owned w.calls
      (mapLevel answer w table (i.setWidth 64)).2.calls) :
    Extends answer root owned w (mapLevel answer w table (i.setWidth 64)).2 ∧
      walk (cells (mapLevel answer w table (i.setWidth 64)).2.mem) root (p ++ [i]) =
        some (mapLevel answer w table (i.setWidth 64)).1 := by
  by_cases hOld : ptEntry w.mem table (i.setWidth 64) &&& pbValid = 0
  · have hCalls : (mapLevel answer w table (i.setWidth 64)).2.calls = w.calls + 1 := by
      simp only [mapLevel, cpageZnalloc, if_pos hOld]
      split <;> rfl
    rw [hCalls] at hFresh
    obtain ⟨hNull, hAligned, hApart⟩ := hFresh w.calls (Nat.le_refl _) (Nat.lt_succ_self _)
    rw [grow_self] at hApart
    obtain ⟨hLayout, hFind, hNext⟩ := h.addTable hWalk hp i hOld hAligned hApart
    simp only [mapLevel, if_pos hOld, cpageZnalloc_one w hNull, nextTable_branchEntry hAligned]
    refine ⟨⟨Nat.le_succ _, ?_, hFind, ?_⟩, hNext⟩
    · rwa [grow_succ]
    · rw [grow_succ]
      intro x hx
      have hTable := hx table (Set.mem_insert_of_mem _ (h.walk_owned hWalk))
      exact (setPtEntry_outside _ _ hTable).trans
        (Memory.fill_outside _ _ (hx _ (Set.mem_insert _ _)))
  · have hCell := h.cell_above hWalk hp i hOld
    simp only [mapLevel, if_neg hOld]
    refine ⟨Extends.refl h, ?_⟩
    rw [walk_append, hWalk]
    simp [walk, hCell]

/-- The indices of the levels `i` down to 1. -/
def upperIndices (vaddr : Word) : Nat → List (BitVec 9)
  | 0 => []
  | i + 1 => index vaddr (i + 1) :: upperIndices vaddr i

theorem mapLoop_spec {w : World} {table : Word} {p : List (BitVec 9)} (vaddr : Word) (i : Nat)
    (h : Layout w.mem root owned) (hWalk : walk (cells w.mem) root p = some table)
    (hp : p.length + i = 2)
    (hFresh : FreshTables answer owned w.calls (mapLoop answer vaddr w table i).2.calls) :
    Extends answer root owned w (mapLoop answer vaddr w table i).2 ∧
      walk (cells (mapLoop answer vaddr w table i).2.mem) root (p ++ upperIndices vaddr i) =
        some (mapLoop answer vaddr w table i).1 := by
  induction i generalizing w table p owned with
  | zero =>
      refine ⟨Extends.refl h, ?_⟩
      rw [upperIndices, List.append_nil]
      exact hWalk
  | succ i ih =>
      simp only [mapLoop, vpn_eq] at hFresh ⊢
      have hLater := @mapLoop_calls_le answer vaddr
        (mapLevel answer w table ((index vaddr (i + 1)).setWidth 64)).2
        (mapLevel answer w table ((index vaddr (i + 1)).setWidth 64)).1 i
      have hNow := @mapLevel_calls_le answer w table
        ((index vaddr (i + 1)).setWidth 64)
      obtain ⟨hLevel, hNext⟩ := mapLevel_spec (index vaddr (i + 1)) h hWalk (by omega)
        (hFresh.before hLater)
      obtain ⟨hRest, hEnd⟩ := ih hLevel.layout hNext (by simp; omega) (hFresh.after hNow)
      refine ⟨hLevel.trans hRest, ?_⟩
      rwa [List.append_assoc] at hEnd

theorem mmuMap_calls_le (w : World) (table vaddr paddr bits : Word) :
    w.calls ≤ (mmuMap answer w table vaddr paddr bits).2.calls :=
  mapLoop_calls_le vaddr w table 2

/-- The permission bits of a mapping: within the ten low bits of an entry,
and at least one of `PB_READ`, `PB_WRITE` and `PB_EXECUTE`. -/
def LeafBits (bits : Word) : Prop :=
  bits.toNat < 2 ^ 10 ∧ bits &&& pbLeaf ≠ 0

instance (bits : Word) : Decidable (LeafBits bits) :=
  inferInstanceAs (Decidable (_ ∧ _))

/-- A call of `mmu_map` replaces one value of the map and nothing else. -/
theorem mmuMap_spec {w : World} (h : Layout w.mem root owned) (vaddr paddr : Word) {bits : Word}
    (hBits : bits &&& pbLeaf ≠ 0)
    (hFresh : FreshTables answer owned w.calls (mmuMap answer w root vaddr paddr bits).2.calls) :
    let w' := (mmuMap answer w root vaddr paddr bits).2
    Layout w'.mem root (grow answer owned w.calls w'.calls) ∧
      (∀ q, find (cells w'.mem) root q =
        if q = indices vaddr 3 then some (leafEntry paddr bits) else find (cells w.mem) root q) ∧
      ∀ x, (∀ t ∈ grow answer owned w.calls w'.calls, ¬ InRange t 4096 x) →
        w'.mem x = w.mem x := by
  obtain ⟨hTables, hWalk⟩ := mapLoop_spec (p := []) vaddr 2 h rfl rfl hFresh
  have hLeaf := hTables.layout.setLeaf hWalk rfl (index vaddr 0) (leafEntry_valid paddr bits)
    (leafEntry_leaf paddr hBits)
  have hOwned := hTables.layout.walk_owned hWalk
  simp only [mmuMap, vpn_eq]
  refine ⟨hLeaf.1, fun q => ?_, fun x hx => ?_⟩
  · rw [hLeaf.2 q, hTables.find_eq]
    rfl
  · exact (setPtEntry_outside _ _ (hx _ hOwned)).trans (hTables.frame x hx)

/-- `mmu_translate` looks up the leaf of the virtual page. -/
theorem translateLoop_eq {m : Memory} {path : Word → List (BitVec 9)}
    (h : Tidy (cells m) owned path 3) (vaddr : Word) {table : Word} (hTable : table ∈ owned)
    (i : Nat) (hi : (path table).length + i = 3) :
    translateLoop m vaddr table i =
      ((find (cells m) table (indices vaddr i)).map (leafAddr · vaddr 0)).getD (-1) := by
  induction i generalizing table with
  | zero => rfl
  | succ i ih =>
      rw [translateLoop, vpn_eq, indices, find]
      by_cases hValid : ptEntry m table ((index vaddr i).setWidth 64) &&& pbValid = 0
      · have hCell : cells m table (index vaddr i) = .empty := by
          simp only [cells, cellOf, if_pos hValid]
        simp [hCell, hValid]
      · by_cases hBranch : ptEntry m table ((index vaddr i).setWidth 64) &&& pbLeaf = 0
        · have hCell : cells m table (index vaddr i) =
              .link (nextTable (ptEntry m table ((index vaddr i).setWidth 64))) := by
            simp only [cells, cellOf, if_neg hValid, if_pos hBranch]
          have hNext := h.link_path table hTable _ _ hCell
          simp only [hCell, if_neg hValid, if_pos hBranch]
          refine ih (h.link_owned table hTable _ _ hCell) ?_
          rw [hNext, List.length_append, List.length_singleton]
          omega
        · have hCell : cells m table (index vaddr i) =
              .leaf (ptEntry m table ((index vaddr i).setWidth 64)) := by
            simp only [cells, cellOf, if_neg hValid, if_neg hBranch]
          have hBottom := h.leaf_bottom table hTable _ _ hCell
          obtain rfl : i = 0 := by omega
          simp only [hCell, if_neg hValid, if_neg hBranch, indices]
          rfl

theorem mmuTranslate_eq {m : Memory} (h : Layout m root owned) (vaddr : Word) :
    mmuTranslate m root vaddr =
      ((find (cells m) root (indices vaddr 3)).map (leafAddr · vaddr 0)).getD (-1) := by
  obtain ⟨path, hTidy, hPath⟩ := h.tidy
  exact translateLoop_eq hTidy vaddr h.root_owned 3 (by rw [hPath]; rfl)

/-- A zeroed page is a root without mappings. -/
theorem layout_of_zero {m : Memory} (hZero : ∀ x, InRange root 4096 x → m x = 0) :
    Layout m root {root} ∧ ∀ q, find (cells m) root q = none := by
  have hEmpty (i : BitVec 9) : cells m root i = .empty := by
    have hSame : cells (m.fill root 4096 0) root = cells m root :=
      cells_congr fun x hx => by rw [Memory.fill_inside _ _ hx, hZero x hx]
    rw [← hSame, cells_fill_zero]
  have hCells (n : Word) (hn : n ∈ ({root} : Set Word)) (i : BitVec 9) : cells m n i = .empty := by
    cases hn
    exact hEmpty i
  refine ⟨⟨⟨fun _ => [], ⟨?_, ?_, ?_, ?_⟩, rfl⟩, rfl, ?_⟩, fun q => ?_⟩
  · intro n hn i
    simp [hCells n hn]
  · intro n hn i
    simp [hCells n hn]
  · intro n hn i
    simp [hCells n hn]
  · intro n hn i
    simp [hCells n hn]
  · rintro n rfl n' rfl hNe
    exact absurd rfl hNe
  · cases q with
    | nil => rfl
    | cons i rest => simp [find, hEmpty]

/-- The 27-bit virtual page number. -/
def vpn27 (vaddr : Word) : BitVec 27 :=
  vaddr.extractLsb' 12 27

theorem index_eq_extract (vaddr : Word) {i : Nat} (hi : i < 3) :
    index vaddr i = (vpn27 vaddr).extractLsb' (9 * i) 9 := by
  apply BitVec.eq_of_getLsbD_eq
  intro j hj
  simp only [index, vpn27, BitVec.getLsbD_extractLsb', hj, decide_true, Bool.true_and]
  rw [decide_eq_true (by omega : 9 * i + j < 27), Bool.true_and, Nat.add_assoc]

/-- The three indices and the virtual page number determine each other. -/
theorem indices_eq_iff (a b : Word) : indices a 3 = indices b 3 ↔ vpn27 a = vpn27 b := by
  constructor
  · intro h
    have hIndex (i : Nat) (hi : i < 3) : index a i = index b i := by
      simp only [indices, List.cons.injEq] at h
      rcases (by omega : i = 2 ∨ i = 1 ∨ i = 0) with rfl | rfl | rfl
      · exact h.1
      · exact h.2.1
      · exact h.2.2.1
    apply BitVec.eq_of_getLsbD_eq
    intro j hj
    have hBit := congrArg (·.getLsbD (j % 9)) (hIndex (j / 9) (by omega))
    have hSmall : j % 9 < 9 := Nat.mod_lt _ (by decide)
    simp only [index, BitVec.getLsbD_extractLsb', hSmall, decide_true, Bool.true_and] at hBit
    rw [show 12 + 9 * (j / 9) + j % 9 = 12 + j by omega] at hBit
    simpa only [vpn27, BitVec.getLsbD_extractLsb', hj, decide_true, Bool.true_and] using hBit
  · intro h
    simp only [indices, index_eq_extract _ (show 2 < 3 by decide),
      index_eq_extract _ (show 1 < 3 by decide), index_eq_extract _ (show 0 < 3 by decide), h]

/-- The arguments of a call of `mmu_map`. -/
structure Mapping where
  vaddr : Word
  paddr : Word
  bits : Word

/-- The calls one after the other, on the same root. -/
def mapAll (answer : Nat → Word) (root : Word) (w : World) (maps : List Mapping) : World :=
  maps.foldl (fun w c => (mmuMap answer w root c.vaddr c.paddr c.bits).2) w

/-- The last of the calls for the page of an address. -/
def lastMapping (maps : List Mapping) (vaddr : Word) : Option Mapping :=
  maps.reverse.find? fun c => vpn27 c.vaddr = vpn27 vaddr

theorem mapAll_concat (w : World) (maps : List Mapping) (c : Mapping) :
    mapAll answer root w (maps ++ [c]) =
      (mmuMap answer (mapAll answer root w maps) root c.vaddr c.paddr c.bits).2 := by
  simp [mapAll]

theorem lastMapping_concat (maps : List Mapping) (c : Mapping) (a : Word) :
    lastMapping (maps ++ [c]) a =
      if vpn27 c.vaddr = vpn27 a then some c else lastMapping maps a := by
  simp only [lastMapping, List.reverse_append, List.reverse_singleton, List.singleton_append,
    List.find?_cons]
  by_cases hPage : vpn27 c.vaddr = vpn27 a
  · simp [hPage]
  · simp [hPage]

theorem mapAll_calls_le (w : World) (maps : List Mapping) :
    w.calls ≤ (mapAll answer root w maps).calls := by
  induction maps using List.reverseRecOn with
  | nil => exact Nat.le_refl _
  | append_singleton maps c ih =>
      rw [mapAll_concat]
      exact ih.trans (mmuMap_calls_le _ _ _ _ _)

/-- After any run, each page has the leaf of its last mapping; pages without
one have the leaf they had. -/
theorem mapAll_spec {w : World} (h : Layout w.mem root owned) (maps : List Mapping)
    (hBits : ∀ c ∈ maps, c.bits &&& pbLeaf ≠ 0)
    (hFresh : FreshTables answer owned w.calls (mapAll answer root w maps).calls) :
    let w' := mapAll answer root w maps
    Layout w'.mem root (grow answer owned w.calls w'.calls) ∧
      (∀ a, find (cells w'.mem) root (indices a 3) =
        ((lastMapping maps a).map fun c => leafEntry c.paddr c.bits).or
          (find (cells w.mem) root (indices a 3))) ∧
      ∀ x, (∀ t ∈ grow answer owned w.calls w'.calls, ¬ InRange t 4096 x) →
        w'.mem x = w.mem x := by
  induction maps using List.reverseRecOn with
  | nil =>
      refine ⟨?_, fun a => rfl, fun x _ => rfl⟩
      simp only [mapAll, List.foldl_nil, grow_self]
      exact h
  | append_singleton maps c ih =>
      rw [mapAll_concat] at hFresh ⊢
      have hPrior := @mapAll_calls_le answer root w maps
      have hLast := @mmuMap_calls_le answer (mapAll answer root w maps) root c.vaddr
        c.paddr c.bits
      obtain ⟨hLayout, hFind, hFrame⟩ := ih (fun d hd => hBits d (by simp [hd]))
        (hFresh.before hLast)
      obtain ⟨hLayout', hFind', hFrame'⟩ := mmuMap_spec hLayout c.vaddr c.paddr
        (hBits c (by simp)) (hFresh.after hPrior)
      rw [grow_grow owned hPrior hLast] at hLayout' hFrame'
      refine ⟨hLayout', fun a => ?_, fun x hx => ?_⟩
      · rw [hFind', hFind, lastMapping_concat]
        by_cases hPage : vpn27 c.vaddr = vpn27 a
        · rw [if_pos ((indices_eq_iff _ _).mpr hPage.symm), if_pos hPage]
          rfl
        · rw [if_neg fun hSame => hPage ((indices_eq_iff _ _).mp hSame).symm, if_neg hPage]
      · rw [hFrame' x hx, hFrame x fun t ht => hx t ?_]
        rw [← grow_grow owned hPrior hLast]
        exact subset_grow _ _ _ ht

theorem and_page_mask {p : Word} (hp : p.toNat < 2 ^ 56) :
    p &&& 0x00fffffffffff000#64 = p &&& ~~~0xfff#64 := by
  apply BitVec.eq_of_getLsbD_eq
  intro i hi
  rw [BitVec.getLsbD_and, BitVec.getLsbD_and, getLsbD_pageMask, BitVec.getLsbD_not, getLsbD_0xfff]
  by_cases hHigh : 56 ≤ i
  · simp [getLsbD_of_toNat_lt hp hHigh]
  · simp only [hi, decide_true, Bool.true_and, decide_eq_true (by omega : i < 56), Bool.and_true]
    congr 1
    grind

theorem mapLevel_calls_bound (w : World) (table i : Word) :
    (mapLevel answer w table i).2.calls ≤ w.calls + 1 := by
  simp only [mapLevel, cpageZnalloc]
  split
  · split <;> exact Nat.le_refl _
  · exact Nat.le_succ _

theorem mapLoop_calls_bound (vaddr : Word) (w : World) (table : Word) (i : Nat) :
    (mapLoop answer vaddr w table i).2.calls ≤ w.calls + i := by
  induction i generalizing w table with
  | zero => exact Nat.le_refl _
  | succ i ih =>
      have hLevel := @mapLevel_calls_bound answer w table (vpn vaddr (i + 1))
      have hRest := ih (mapLevel answer w table (vpn vaddr (i + 1))).2
        (mapLevel answer w table (vpn vaddr (i + 1))).1
      simp only [mapLoop]
      omega

/-- A call of `mmu_map` asks for two tables at most. -/
theorem mapAll_calls_bound (w : World) (maps : List Mapping) :
    (mapAll answer root w maps).calls ≤ w.calls + 2 * maps.length := by
  induction maps using List.reverseRecOn with
  | nil => exact Nat.le_refl _
  | append_singleton maps c ih =>
      have hLast := @mapLoop_calls_bound answer c.vaddr (mapAll answer root w maps) root 2
      rw [mapAll_concat, List.length_append, List.length_singleton]
      simp only [mmuMap]
      omega

/-- Consecutive pages behind a page-aligned base are fresh tables. -/
theorem freshTables_consecutive {base : Word} {n : Nat} (hAligned : base.toNat % 4096 = 0)
    (hPos : base ≠ 0) (hFit : base.toNat + 4096 * n ≤ 2 ^ 64)
    (hOwned : ∀ t ∈ owned, Apart t 4096 base (4096 * n)) :
    FreshTables (fun k => base + BitVec.ofNat 64 (4096 * k)) owned 0 n := by
  intro k _ hk
  have hBase : 0 < base.toNat := BitVec.toNat_pos_of_ne_zero hPos
  have hAddr : (base + BitVec.ofNat 64 (4096 * k)).toNat = base.toNat + 4096 * k := by
    rw [BitVec.toNat_add, BitVec.toNat_ofNat]
    omega
  refine ⟨?_, ?_, ?_⟩
  · intro hZero
    have hNone : (base + BitVec.ofNat 64 (4096 * k)).toNat = 0 := congrArg BitVec.toNat hZero
    omega
  · apply BitVec.eq_of_toNat_eq
    rw [BitVec.toNat_and, hAddr, show (0xfff#64).toNat = 2 ^ 12 - 1 from rfl,
      Nat.and_two_pow_sub_one_eq_mod]
    simp
    omega
  · rintro t (ht | ⟨j, -, hj, rfl⟩)
    · have hPart : Apart (t + BitVec.ofNat 64 0) 4096 (base + BitVec.ofNat 64 (4096 * k)) 4096 :=
        (hOwned t ht).part (by omega) (by omega) (by decide) (by decide)
      simpa using hPart
    · exact apart_of_offsets (by decide) (by decide) (by omega) (by omega) (by omega)

/-- From a zeroed root, whatever pages are mapped and remapped in whatever
order: an address translates through the last mapping of its page. -/
theorem mmuTranslate_mapAll {w : World} (hZero : ∀ x, InRange root 4096 x → w.mem x = 0)
    (maps : List Mapping) (hBits : ∀ c ∈ maps, LeafBits c.bits)
    (hPhysical : ∀ c ∈ maps, c.paddr.toNat < 2 ^ 56)
    (hFresh : FreshTables answer {root} w.calls (mapAll answer root w maps).calls) (a : Word) :
    mmuTranslate (mapAll answer root w maps).mem root a =
      match lastMapping maps a with
      | some c => (c.paddr &&& ~~~0xfff#64) ||| (a &&& 0xfff#64)
      | none => -1 := by
  obtain ⟨hStart, hNone⟩ := layout_of_zero hZero
  obtain ⟨hLayout, hFind, -⟩ := mapAll_spec hStart maps (fun c hc => (hBits c hc).2) hFresh
  rw [mmuTranslate_eq hLayout, hFind, hNone]
  cases hLast : lastMapping maps a with
  | none => rfl
  | some c =>
      have hMem : c ∈ maps := by simpa using List.mem_of_find?_eq_some hLast
      simp only [Option.map_some, Option.or_none, Option.getD_some]
      rw [leafAddr_leafEntry _ _ _ (hBits c hMem).1, and_page_mask (hPhysical c hMem)]

/-- A page that is mapped twice, and a page that is not mapped. -/
theorem mmuTranslate_mapAll_remapped :
    let w : World := ⟨fun _ => 0, 0⟩
    let answer := fun k => 0x80300000#64 + BitVec.ofNat 64 (4096 * k)
    let maps : List Mapping := [⟨0x1000, 0x80000000, 0b10⟩, ⟨0x1008, 0x80005000, 0b10110⟩]
    mmuTranslate (mapAll answer 0x80200000 w maps).mem 0x80200000 0x1234 = 0x80005234 ∧
      mmuTranslate (mapAll answer 0x80200000 w maps).mem 0x80200000 0x2000 = -1 := by
  intro w answer maps
  have hFresh : FreshTables answer {0x80200000} 0 4 :=
    freshTables_consecutive (by decide) (by decide) (by decide) (by
      rintro t rfl
      unfold Apart
      decide)
  have hZero : ∀ x, InRange 0x80200000 4096 x → w.mem x = 0 := fun _ _ => rfl
  have hTranslate := mmuTranslate_mapAll hZero maps (by decide) (by decide)
    (hFresh.before (mapAll_calls_bound w maps))
  exact ⟨hTranslate 0x1234, hTranslate 0x2000⟩

end Kernel.Mmu
