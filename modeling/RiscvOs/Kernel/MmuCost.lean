import RiscvOs.Kernel.MmuRanges

/-! How many tables a run of `mmu_map` takes. A call takes none when the table of
level 0 is there already, so a range takes tables for each 2 MiB that it reaches. -/
namespace Kernel.Mmu

open Semantics Radix

/-- The pages that calls may take for tables, two for each table: none when the call
before was for the same table of level 0, whose path is given. -/
def cost : Option (List (BitVec 9)) → List Mapping → Nat
  | _, [] => 0
  | before, c :: rest =>
      (if before = some (upperIndices c.vaddr 2) then 0 else 4) + cost (some (upperIndices c.vaddr 2)) rest

theorem cost_le_none (before : Option (List (BitVec 9))) (maps : List Mapping) :
    cost before maps ≤ cost none maps := by
  cases maps with
  | nil => exact Nat.le_refl _
  | cons c rest =>
      simp only [cost, reduceCtorEq, ↓reduceIte]
      split <;> omega

theorem cost_append (before : Option (List (BitVec 9))) (maps maps' : List Mapping) :
    cost before (maps ++ maps') ≤ cost before maps + cost none maps' := by
  induction maps generalizing before with
  | nil =>
      rw [cost, Nat.zero_add]
      exact cost_le_none before maps'
  | cons c rest ih =>
      rw [List.cons_append, cost, cost, Nat.add_assoc]
      exact Nat.add_le_add_left (ih _) _

/-- The table of the last call. -/
def lastTable (before : Option (List (BitVec 9))) (maps : List Mapping) :
    Option (List (BitVec 9)) :=
  (maps.getLast?.map fun c => upperIndices c.vaddr 2).or before

theorem cost_concat (before : Option (List (BitVec 9))) (maps : List Mapping) (c : Mapping) :
    cost before (maps ++ [c]) = cost before maps +
      if lastTable before maps = some (upperIndices c.vaddr 2) then 0 else 4 := by
  induction maps generalizing before with
  | nil =>
      by_cases hSame : before = some (upperIndices c.vaddr 2)
      · simp [cost, lastTable, hSame]
      · simp [cost, lastTable, hSame]
  | cons d rest ih =>
      have hLast : lastTable (some (upperIndices d.vaddr 2)) rest = lastTable before (d :: rest) := by
        cases rest with
        | nil => rfl
        | cons e rest =>
            simp only [lastTable, List.getLast?_cons_cons]
            rw [List.getLast?_cons]
            rfl
      rw [List.cons_append, cost, cost, ih, hLast, Nat.add_assoc]

theorem toNat_index (a : Word) (i : Nat) : (index a i).toNat = a.toNat / 2 ^ (12 + 9 * i) % 2 ^ 9 := by
  rw [index, BitVec.extractLsb'_toNat, Nat.shiftRight_eq_div_pow]

/-- Addresses of the same 2 MiB have the same table of level 0. -/
theorem upperIndices_congr {a b : Word} (h : a.toNat / 2 ^ 21 = b.toNat / 2 ^ 21) :
    upperIndices a 2 = upperIndices b 2 := by
  have hOne : index a 1 = index b 1 := by
    apply BitVec.eq_of_toNat_eq
    rw [toNat_index, toNat_index]
    exact congrArg (· % 2 ^ 9) h
  have hTwo : index a 2 = index b 2 := by
    apply BitVec.eq_of_toNat_eq
    rw [toNat_index, toNat_index]
    omega
  simp only [upperIndices, hOne, hTwo]

/-- A range takes tables for each 2 MiB that it reaches. -/
theorem cost_rangeMaps {v p bits : Word} {n : Nat} (hEnd : v.toNat + 4096 * n ≤ 2 ^ 38) :
    cost none (rangeMaps v p bits n) ≤ 4 * ((v.toNat / 4096 % 512 + n + 511) / 512) := by
  induction n with
  | zero => exact Nat.zero_le _
  | succ n ih =>
      have hBefore := ih (by omega)
      rw [rangeMaps_succ, cost_concat]
      cases n with
      | zero =>
          have hCost : cost none (rangeMaps v p bits 0) = 0 := rfl
          split <;> omega
      | succ n =>
          have hPage (i : Nat) (hi : i ≤ n + 1) :
              (v + BitVec.ofNat 64 (4096 * i)).toNat = v.toNat + 4096 * i := by
            rw [BitVec.toNat_add, BitVec.toNat_ofNat]
            omega
          have hLast : lastTable none (rangeMaps v p bits (n + 1)) =
              some (upperIndices (v + BitVec.ofNat 64 (4096 * n)) 2) := by
            rw [lastTable, rangeMaps_succ, List.getLast?_concat]
            rfl
          rw [hLast]
          by_cases hSame : (v + BitVec.ofNat 64 (4096 * n)).toNat / 2 ^ 21 =
              (v + BitVec.ofNat 64 (4096 * (n + 1))).toNat / 2 ^ 21
          · rw [if_pos (congrArg some (upperIndices_congr hSame))]
            omega
          · rw [hPage n (by omega), hPage (n + 1) le_rfl] at hSame
            split <;> omega

section Calls

variable {answer : Nat → Word} {root : Word} {owned : Set Word}

/-- No table is taken on a path that exists. -/
theorem mapLoop_of_walk {vaddr : Word} {w : World} {table bottom : Word} {i : Nat}
    (hWalk : walk (cells w.mem) table (upperIndices vaddr i) = some bottom) :
    mapLoop answer vaddr w table i = (bottom, w) := by
  induction i generalizing table with
  | zero =>
      cases hWalk
      rfl
  | succ i ih =>
      rw [upperIndices, walk] at hWalk
      have hCell : cells w.mem table (index vaddr (i + 1)) =
          cellOf (ptEntry w.mem table ((index vaddr (i + 1)).setWidth 64)) := rfl
      rw [hCell, cellOf] at hWalk
      rw [mapLoop, vpn_eq]
      by_cases hOld : ptEntry w.mem table ((index vaddr (i + 1)).setWidth 64) &&& pbValid = 0
      · simp only [if_pos hOld, reduceCtorEq] at hWalk
      · by_cases hLink : ptEntry w.mem table ((index vaddr (i + 1)).setWidth 64) &&& pbLeaf = 0
        · simp only [if_neg hOld, if_pos hLink] at hWalk
          simp only [mapLevel, if_neg hOld]
          exact ih hWalk
        · simp only [if_neg hOld, if_neg hLink, reduceCtorEq] at hWalk

theorem mmuMap_calls_of_walk {w : World} {vaddr bottom : Word} (paddr bits : Word)
    (hWalk : walk (cells w.mem) root (upperIndices vaddr 2) = some bottom) :
    (mmuMap answer w root vaddr paddr bits).2.calls = w.calls := by
  simp only [mmuMap, mapLoop_of_walk hWalk]

theorem lastTable_concat (before : Option (List (BitVec 9))) (maps : List Mapping) (c : Mapping) :
    lastTable before (maps ++ [c]) = some (upperIndices c.vaddr 2) := by
  rw [lastTable, List.getLast?_concat]
  rfl

/-- The requests of a run are at most what its tables cost, and the table of the
last call is there. -/
theorem mapAll_cost {w : World} (h : Layout w.mem root owned) (maps : List Mapping)
    (hBits : ∀ c ∈ maps, c.bits &&& pbLeaf ≠ 0)
    (hFresh : FreshTables answer owned w.calls (mapAll answer root w maps).calls) :
    2 * (mapAll answer root w maps).calls ≤ 2 * w.calls + cost none maps ∧
      ∀ q, lastTable none maps = some q →
        ∃ bottom, walk (cells (mapAll answer root w maps).mem) root q = some bottom := by
  induction maps using List.reverseRecOn with
  | nil =>
      refine ⟨Nat.le_add_right .., fun q hq => ?_⟩
      cases hq
  | append_singleton maps c ih =>
      have hFind := (mapAll_spec h (maps ++ [c]) hBits hFresh).2.1 c.vaddr
      rw [lastMapping_concat, if_pos rfl] at hFind
      rw [mapAll_concat] at hFresh hFind ⊢
      have hLast := @mmuMap_calls_le answer (mapAll answer root w maps) root c.vaddr c.paddr c.bits
      have hBound := @mapLoop_calls_bound answer c.vaddr (mapAll answer root w maps) root 2
      obtain ⟨hCost, hTable⟩ := ih (fun d hd => hBits d (by simp [hd])) (hFresh.before hLast)
      rw [cost_concat, lastTable_concat]
      constructor
      · by_cases hSame : lastTable none maps = some (upperIndices c.vaddr 2)
        · obtain ⟨bottom, hWalk⟩ := hTable _ hSame
          rw [if_pos hSame, mmuMap_calls_of_walk c.paddr c.bits hWalk]
          exact hCost
        · rw [if_neg hSame]
          simp only [mmuMap]
          omega
      · intro q hq
        cases hq
        exact walk_of_find hFind

end Calls

end Kernel.Mmu
