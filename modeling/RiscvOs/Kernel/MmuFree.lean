import RiscvOs.Kernel.MmuRanges
import RiscvOs.Semantics.RadixNodes

/-! `mmu_free` (`mmu.c`), which frees the tables of a root from the leaves up.
The calls of `cpage_free` are recorded; they write to the bookkeeping bytes of
the heap only, which are no part of a page. -/
namespace Kernel.Mmu

open Semantics Radix

/-- Memory, and the pages that `cpage_free` was called with so far. -/
structure Freed where
  mem : Memory
  pages : List Word

def cpageFree (page : Word) (s : Freed) : Freed :=
  { s with pages := s.pages ++ [page] }

/-- One iteration of the loop of `mmu_free`, with the call for a branch. -/
def freeEntry (free : Word → Freed → Option Freed) (table : Word) (s : Freed) (i : BitVec 9) :
    Option Freed :=
  let entry := ptEntry s.mem table (i.setWidth 64)
  if entry &&& pbValid ≠ 0 then
    if entry &&& pbLeaf = 0 then free (nextTable entry) s
    else some { s with mem := setPtEntry s.mem table (i.setWidth 64) 0 }
  else some s

/-- The indices of a table, in the order of the loop. -/
def entryIndices : List (BitVec 9) :=
  (List.range 512).map (BitVec.ofNat 9)

/-- `mmu_free`; a recursion deeper than the given depth has no result. -/
def mmuFree : Nat → Word → Freed → Option Freed
  | 0 => fun _ _ => none
  | depth + 1 => fun table s => do
      let s ← entryIndices.foldlM (freeEntry (mmuFree depth) table) s
      some (cpageFree table s)

theorem mmuFree_succ (depth : Nat) (table : Word) (s : Freed) :
    mmuFree (depth + 1) table s = (entryIndices.foldlM (freeEntry (mmuFree depth) table) s).bind
      fun s => some (cpageFree table s) :=
  rfl

theorem entryIndices_nodup : entryIndices.Nodup := by
  refine List.nodup_range.map_on fun i hi j hj hSame => ?_
  have hNat := congrArg BitVec.toNat hSame
  rw [List.mem_range] at hi hj
  rwa [BitVec.toNat_ofNat, BitVec.toNat_ofNat, Nat.mod_eq_of_lt hi, Nat.mod_eq_of_lt hj] at hNat

theorem mem_entryIndices (i : BitVec 9) : i ∈ entryIndices :=
  List.mem_map.mpr ⟨i.toNat, List.mem_range.mpr i.isLt, by simp⟩

section Cells

variable {free : Word → Freed → Option Freed} {table : Word} {s : Freed} {i : BitVec 9}

/-- What an iteration does, by the cell of the entry. -/
theorem freeEntry_eq : freeEntry free table s i = match cells s.mem table i with
    | .empty => some s
    | .link next => free next s
    | .leaf _ => some { s with mem := setPtEntry s.mem table (i.setWidth 64) 0 } := by
  unfold freeEntry cells cellOf
  by_cases hValid : ptEntry s.mem table (i.setWidth 64) &&& pbValid = 0
  · simp only [if_pos hValid, if_neg (not_not.mpr hValid)]
  · by_cases hBranch : ptEntry s.mem table (i.setWidth 64) &&& pbLeaf = 0
    · simp only [if_neg hValid, if_pos hValid, if_pos hBranch]
    · simp only [if_neg hValid, if_pos hValid, if_neg hBranch]

end Cells

section Tree

variable {m : Memory} {owned : Set Word} {path : Word → List (BitVec 9)} {table : Word}

/-- On the tables below a path the memory is still the one before. -/
def Untouched (m : Memory) (owned : Set Word) (path : Word → List (BitVec 9))
    (p : List (BitVec 9)) (s : Freed) : Prop :=
  ∀ n ∈ owned, p <+: path n → cells s.mem n = cells m n

/-- The tables elsewhere are not changed. -/
def Elsewhere (owned : Set Word) (path : Word → List (BitVec 9)) (p : List (BitVec 9))
    (s t : Freed) : Prop :=
  ∀ n ∈ owned, ¬ p <+: path n → cells t.mem n = cells s.mem n

/-- What `mmu_free` does to a table of a tree, when it does so to all tables
that are at most so deep. -/
def Frees (m : Memory) (owned : Set Word) (path : Word → List (BitVec 9)) (depth : Nat)
    (table : Word) : Prop :=
  ∀ s, Untouched m owned path (path table) s → ∃ t, mmuFree depth table s = some t ∧
    t.pages = s.pages ++ nodes (cells m) entryIndices depth table ∧
    Elsewhere owned path (path table) s t

/-- One iteration of the loop at an entry that is as before. -/
theorem freeEntry_spec (h : Tidy (cells m) owned path 3)
    (hApart : ∀ t ∈ owned, ∀ t' ∈ owned, t ≠ t' → Apart t 4096 t' 4096) (hTable : table ∈ owned)
    {depth : Nat} (hFrees : ∀ i next, cells m table i = .link next → Frees m owned path depth next)
    {s : Freed} {i : BitVec 9} (hCell : cells s.mem table i = cells m table i)
    (hBelow : Untouched m owned path (path table ++ [i]) s) :
    ∃ t, freeEntry (mmuFree depth) table s i = some t ∧
      t.pages = s.pages ++ visit (nodes (cells m) entryIndices depth) (cells m table i) ∧
      Elsewhere owned path (path table) s t ∧
      (∀ j, j ≠ i → cells t.mem table j = cells s.mem table j) ∧
      ∀ j, j ≠ i → ∀ n ∈ owned, path table ++ [j] <+: path n → cells t.mem n = cells s.mem n := by
  rw [freeEntry_eq, hCell]
  cases hCase : cells m table i with
  | empty =>
      refine ⟨s, rfl, by simp [visit], fun _ _ _ => rfl, fun _ _ => rfl, fun _ _ _ _ _ => rfl⟩
  | leaf value =>
      have hOther (n : Word) (hn : n ∈ owned) (j : BitVec 9) (hNe : ¬ (n = table ∧ j = i)) :
          cells (setPtEntry s.mem table (i.setWidth 64) 0) n j = cells s.mem n j :=
        cells_setPtEntry_of_apart _ _ (fun hDiff => hApart table hTable n hn hDiff) hNe
      refine ⟨_, rfl, by simp [visit], ?_, ?_, ?_⟩
      · intro n hn hPath
        funext j
        exact hOther n hn j fun hSame => hPath (hSame.1 ▸ List.prefix_rfl)
      · exact fun j hNe => hOther table hTable j fun hSame => hNe hSame.2
      · intro j _ n hn hPath
        funext k
        refine hOther n hn k fun hSame => ?_
        exact not_prefix_self _ _ (hSame.1 ▸ hPath)
  | link next =>
      have hNext := h.link_path table hTable i next hCase
      obtain ⟨t, hFree, hPages, hElse⟩ := hFrees i next hCase s (hNext ▸ hBelow)
      refine ⟨t, hFree, hPages, ?_, ?_, ?_⟩
      · intro n hn hPath
        refine hElse n hn fun hPrefix => hPath ?_
        rw [hNext] at hPrefix
        exact (List.prefix_append _ _).trans hPrefix
      · intro j _
        rw [hElse table hTable fun hPrefix => not_prefix_self _ _ (hNext ▸ hPrefix)]
      · intro j hNe n hn hPath
        refine hElse n hn fun hPrefix => hNe ?_
        rw [hNext] at hPrefix
        exact eq_of_prefixes hPath hPrefix

/-- The loop over entries that are as before. -/
theorem freeEntries_spec (h : Tidy (cells m) owned path 3)
    (hApart : ∀ t ∈ owned, ∀ t' ∈ owned, t ≠ t' → Apart t 4096 t' 4096) (hTable : table ∈ owned)
    {depth : Nat} (hFrees : ∀ i next, cells m table i = .link next → Frees m owned path depth next)
    {indices : List (BitVec 9)} (hNodup : indices.Nodup) {s : Freed}
    (hCells : ∀ i ∈ indices, cells s.mem table i = cells m table i)
    (hBelow : ∀ i ∈ indices, Untouched m owned path (path table ++ [i]) s) :
    ∃ t, indices.foldlM (freeEntry (mmuFree depth) table) s = some t ∧
      t.pages = s.pages ++
        indices.flatMap (fun i => visit (nodes (cells m) entryIndices depth) (cells m table i)) ∧
      Elsewhere owned path (path table) s t := by
  induction indices generalizing s with
  | nil => exact ⟨s, rfl, by simp, fun _ _ _ => rfl⟩
  | cons i rest ih =>
      obtain ⟨hFirst, hRest⟩ := List.nodup_cons.mp hNodup
      obtain ⟨t, hEntry, hPages, hElse, hOthers, hPaths⟩ := freeEntry_spec h hApart hTable hFrees
        (hCells i (List.mem_cons_self ..)) (hBelow i (List.mem_cons_self ..))
      have hNe (j : BitVec 9) (hj : j ∈ rest) : j ≠ i := fun hSame => hFirst (hSame ▸ hj)
      obtain ⟨u, hLoop, hMore, hElse'⟩ := @ih hRest t
        (fun j hj => (hOthers j (hNe j hj)).trans (hCells j (List.mem_cons_of_mem _ hj)))
        (fun j hj n hn hPath => (hPaths j (hNe j hj) n hn hPath).trans
          (hBelow j (List.mem_cons_of_mem _ hj) n hn hPath))
      refine ⟨u, ?_, ?_, fun n hn hPath => (hElse' n hn hPath).trans (hElse n hn hPath)⟩
      · rw [List.foldlM_cons, hEntry]
        exact hLoop
      · rw [hMore, hPages, List.flatMap_cons, List.append_assoc]

/-- A table of a tree is freed after all tables below it, each once. -/
theorem mmuFree_spec (h : Tidy (cells m) owned path 3)
    (hApart : ∀ t ∈ owned, ∀ t' ∈ owned, t ≠ t' → Apart t 4096 t' 4096) (hTable : table ∈ owned)
    (hLevel : (path table).length < 3) {depth : Nat} (hDepth : 3 ≤ (path table).length + depth) :
    Frees m owned path depth table := by
  induction depth generalizing table with
  | zero => omega
  | succ depth ih =>
      intro s hSame
      have hFrees (i : BitVec 9) (next : Word) (hCell : cells m table i = .link next) :
          Frees m owned path depth next := by
        have hNext := h.link_path table hTable i next hCell
        have hAbove := h.link_above table hTable i next hCell
        refine ih (h.link_owned table hTable i next hCell) ?_ ?_
        · rw [hNext]
          simpa using hAbove
        · rw [hNext, List.length_append, List.length_singleton]
          omega
      obtain ⟨t, hLoop, hPages, hElse⟩ := freeEntries_spec h hApart hTable hFrees
        entryIndices_nodup (s := s) (fun i _ => congrFun (hSame table hTable List.prefix_rfl) i)
        (fun i _ n hn hPath => hSame n hn ((List.prefix_append _ _).trans hPath))
      refine ⟨cpageFree table t, ?_, ?_, hElse⟩
      · rw [mmuFree_succ, hLoop]
        rfl
      · rw [cpageFree, hPages, nodes, List.append_assoc]

end Tree

section Fresh

variable {answer : Nat → Word} {owned owned' : Set Word} {lo hi k : Nat} {x : Word}

/-- A fresh page is none of the pages before it. -/
theorem FreshTables.ne (h : FreshTables answer owned lo hi) (hLow : lo ≤ k) (hHigh : k < hi)
    (hx : x ∈ grow answer owned lo k) : x ≠ answer k := by
  rintro rfl
  have hSelf := ((h k hLow hHigh).2.2 _ hx).1
  simp at hSelf

/-- A page that is held does not become a table. -/
theorem FreshTables.not_mem_grow (h : FreshTables answer owned lo hi) (hx : x ∈ owned)
    (hOld : x ∉ owned') : x ∉ grow answer owned' lo hi := by
  rintro (hMem | ⟨k, hLow, hHigh, rfl⟩)
  · exact hOld hMem
  · exact h.ne hLow hHigh (subset_grow _ _ _ hx) rfl

end Fresh

section Reached

variable {answer : Nat → Word} {m m' : Memory} {root table : Word} {owned : Set Word}
  {p : List (BitVec 9)}

/-- A change at a cell without a link takes no table out of reach. -/
theorem Layout.reached_of_changedAt (h : Layout m root owned) (hReached : Reached (cells m) root owned)
    {i : BitVec 9} (hChanged : ChangedAt (cells m) (cells m') owned table i)
    (hNoLink : ∀ next, cells m table i ≠ .link next) : Reached (cells m') root owned := by
  obtain ⟨path, hTidy, -⟩ := h.tidy
  intro n hn
  obtain ⟨q, hWalk⟩ := hReached n hn
  exact ⟨q, hTidy.walk_changedAt hChanged hNoLink h.root_owned hWalk⟩

theorem mapLevel_reached {w : World} (i : BitVec 9) (h : Layout w.mem root owned)
    (hReached : Reached (cells w.mem) root owned) (hWalk : walk (cells w.mem) root p = some table)
    (hp : p.length < 2)
    (hFresh : FreshTables answer owned w.calls
      (mapLevel answer w table (i.setWidth 64)).2.calls) :
    Reached (cells (mapLevel answer w table (i.setWidth 64)).2.mem) root
      (grow answer owned w.calls (mapLevel answer w table (i.setWidth 64)).2.calls) := by
  obtain ⟨-, hNext⟩ := mapLevel_spec i h hWalk hp hFresh
  by_cases hOld : ptEntry w.mem table (i.setWidth 64) &&& pbValid = 0
  · have hCalls : (mapLevel answer w table (i.setWidth 64)).2.calls = w.calls + 1 := by
      simp only [mapLevel, cpageZnalloc, if_pos hOld]
      split <;> rfl
    rw [hCalls] at hFresh ⊢
    obtain ⟨hNull, hAligned, hApart⟩ := hFresh w.calls (Nat.le_refl _) (Nat.lt_succ_self _)
    rw [grow_self] at hApart
    rw [grow_succ]
    simp only [mapLevel, if_pos hOld, cpageZnalloc_one w hNull,
      nextTable_branchEntry hAligned] at hNext ⊢
    have hChanged : ChangedAt (cells w.mem) (cells (setPtEntry (w.mem.fill (answer w.calls) 4096 0)
        table (i.setWidth 64) (branchEntry (answer w.calls)))) owned table i := by
      intro n hn j hOther
      rw [cells_setPtEntry_of_apart _ _ (h.apart_of_ne (h.walk_owned hWalk) hn) hOther,
        cells_congr (Memory.agreeOn_fill w.mem 0 (hApart n hn).symm)]
    have hEmpty : ∀ next, cells w.mem table i ≠ .link next := by
      intro next hLink
      simp [cells, cellOf, hOld] at hLink
    rintro n (rfl | hn)
    · exact ⟨_, hNext⟩
    · exact h.reached_of_changedAt hReached hChanged hEmpty n hn
  · simp only [mapLevel, if_neg hOld, grow_self]
    exact hReached

theorem mapLoop_reached {w : World} (vaddr : Word) (i : Nat) (h : Layout w.mem root owned)
    (hReached : Reached (cells w.mem) root owned) (hWalk : walk (cells w.mem) root p = some table)
    (hp : p.length + i = 2)
    (hFresh : FreshTables answer owned w.calls (mapLoop answer vaddr w table i).2.calls) :
    Reached (cells (mapLoop answer vaddr w table i).2.mem) root
      (grow answer owned w.calls (mapLoop answer vaddr w table i).2.calls) := by
  induction i generalizing w table p owned with
  | zero =>
      simp only [mapLoop, grow_self]
      exact hReached
  | succ i ih =>
      simp only [mapLoop, vpn_eq] at hFresh ⊢
      have hLater := @mapLoop_calls_le answer vaddr
        (mapLevel answer w table ((index vaddr (i + 1)).setWidth 64)).2
        (mapLevel answer w table ((index vaddr (i + 1)).setWidth 64)).1 i
      have hNow := @mapLevel_calls_le answer w table
        ((index vaddr (i + 1)).setWidth 64)
      obtain ⟨hLevel, hNext⟩ := mapLevel_spec (index vaddr (i + 1)) h hWalk (by omega)
        (hFresh.before hLater)
      have hReached' := mapLevel_reached (index vaddr (i + 1)) h hReached hWalk (by omega)
        (hFresh.before hLater)
      have hRest := ih hLevel.layout hReached' hNext (by simp; omega) (hFresh.after hNow)
      rwa [grow_grow owned hNow hLater] at hRest

/-- The tables that a call of `mmu_map` takes can be reached, and those before
it still can. -/
theorem mmuMap_reached {w : World} (h : Layout w.mem root owned)
    (hReached : Reached (cells w.mem) root owned) (vaddr paddr bits : Word)
    (hFresh : FreshTables answer owned w.calls (mmuMap answer w root vaddr paddr bits).2.calls) :
    Reached (cells (mmuMap answer w root vaddr paddr bits).2.mem) root
      (grow answer owned w.calls (mmuMap answer w root vaddr paddr bits).2.calls) := by
  obtain ⟨hTables, hWalk⟩ := mapLoop_spec (p := []) vaddr 2 h rfl rfl hFresh
  have hReached' := mapLoop_reached (p := []) vaddr 2 h hReached rfl rfl hFresh
  obtain ⟨path, hTidy, hPath⟩ := hTables.layout.tidy
  obtain ⟨hOwned, hTable⟩ := hTidy.walk_spec hTables.layout.root_owned hWalk
  rw [hPath, List.nil_append] at hTable
  simp only [mmuMap, vpn_eq]
  have hChanged : ChangedAt (cells (mapLoop answer vaddr w root 2).2.mem)
      (cells (setPtEntry (mapLoop answer vaddr w root 2).2.mem (mapLoop answer vaddr w root 2).1
        ((index vaddr 0).setWidth 64) (leafEntry paddr bits)))
      (grow answer owned w.calls (mapLoop answer vaddr w root 2).2.calls)
      (mapLoop answer vaddr w root 2).1 (index vaddr 0) := by
    intro n hn j hOther
    exact cells_setPtEntry_of_apart _ _ (hTables.layout.apart_of_ne hOwned hn) hOther
  refine hTables.layout.reached_of_changedAt hReached' hChanged ?_
  · intro next hLink
    have hAbove := hTidy.link_above _ hOwned _ next hLink
    rw [hTable] at hAbove
    exact absurd hAbove (by simp [upperIndices])

theorem mapAll_reached {w : World} (h : Layout w.mem root owned)
    (hReached : Reached (cells w.mem) root owned) (maps : List Mapping)
    (hBits : ∀ c ∈ maps, LeafBits c.bits)
    (hFresh : FreshTables answer owned w.calls (mapAll answer root w maps).calls) :
    Reached (cells (mapAll answer root w maps).mem) root
      (grow answer owned w.calls (mapAll answer root w maps).calls) := by
  induction maps using List.reverseRecOn with
  | nil =>
      simp only [mapAll, List.foldl_nil, grow_self]
      exact hReached
  | append_singleton maps c ih =>
      rw [mapAll_concat] at hFresh ⊢
      have hPrior := @mapAll_calls_le answer root w maps
      have hLast := @mmuMap_calls_le answer (mapAll answer root w maps) root c.vaddr
        c.paddr c.bits
      have hBits' : ∀ d ∈ maps, LeafBits d.bits := fun d hd => hBits d (by simp [hd])
      obtain ⟨hLayout, -⟩ := mapAll_spec h maps (fun d hd => (hBits' d hd).2) (hFresh.before hLast)
      have hNow := mmuMap_reached hLayout (ih hBits' (hFresh.before hLast)) c.vaddr c.paddr c.bits
        (hFresh.after hPrior)
      rwa [grow_grow owned hPrior hLast] at hNow

/-- Memory outside the tables does not matter for what can be reached. -/
theorem Layout.reached_agree (h : Layout m root owned) (hReached : Reached (cells m) root owned)
    (hAgree : ∀ t ∈ owned, Memory.AgreeOn m m' t 4096) : Reached (cells m') root owned := by
  obtain ⟨path, hTidy, -⟩ := h.tidy
  exact hTidy.reached_congr h.root_owned (fun t ht => cells_congr (hAgree t ht)) hReached

/-- A zeroed root is reached. -/
theorem reached_root (m : Memory) (root : Word) : Reached (cells m) root {root} := by
  rintro n rfl
  exact ⟨[], rfl⟩

end Reached

/-- The tables of a root are freed, each once, and nothing else is. -/
theorem Layout.mmuFree_root {m : Memory} {root : Word} {owned : Set Word} (h : Layout m root owned)
    (hReached : Reached (cells m) root owned) {depth : Nat} (hDepth : 3 ≤ depth) {s : Freed}
    (hMem : s.mem = m) : ∃ t tables, mmuFree depth root s = some t ∧ t.pages = s.pages ++ tables ∧
      tables.Nodup ∧ ∀ x, x ∈ tables ↔ x ∈ owned := by
  obtain ⟨path, hTidy, hPath⟩ := h.tidy
  have hSame : Untouched m owned path (path root) s := fun n _ _ => by rw [hMem]
  obtain ⟨t, hFree, hPages, -⟩ := mmuFree_spec hTidy h.apart h.root_owned
    (by rw [hPath]; decide) (Nat.le_add_left_of_le hDepth) s hSame
  refine ⟨t, _, hFree, hPages, hTidy.nodes_nodup entryIndices_nodup h.root_owned, fun x => ?_⟩
  exact hTidy.mem_nodes_iff (by decide) h.root_owned hPath hReached mem_entryIndices hDepth

end Kernel.Mmu
