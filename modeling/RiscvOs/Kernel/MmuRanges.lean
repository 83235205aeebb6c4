import RiscvOs.Kernel.MmuRuns

/-! `mmu_map_multiple` as a list of calls of `mmu_map`, one for each page, and
what an address of the range translates to. -/
namespace Kernel.Mmu

open Semantics Radix

variable {answer : Nat → Word} {root : Word} {owned : Set Word}

/-- The calls for the first `n` pages of a range. -/
def rangeMaps (vStart pStart bits : Word) (n : Nat) : List Mapping :=
  (List.range n).map fun i =>
    ⟨vStart + BitVec.ofNat 64 (4096 * i), pStart + BitVec.ofNat 64 (4096 * i), bits⟩

/-- The number of iterations of `mmu_map_multiple`. -/
def pageCount (bytes : Word) : Nat :=
  (bytes.toNat + 4095) / 4096

section Loop

variable {vStart pStart bytes bits : Word}

theorem rangeMaps_succ (vStart pStart bits : Word) (n : Nat) :
    rangeMaps vStart pStart bits (n + 1) = rangeMaps vStart pStart bits n ++
      [⟨vStart + BitVec.ofNat 64 (4096 * n), pStart + BitVec.ofNat 64 (4096 * n), bits⟩] := by
  rw [rangeMaps, List.range_succ, List.map_append]
  rfl

theorem bits_of_mem_rangeMaps {n : Nat} {c : Mapping} (hc : c ∈ rangeMaps vStart pStart bits n) :
    c.bits = bits := by
  obtain ⟨i, -, rfl⟩ := List.mem_map.mp hc
  rfl

theorem mapMultipleLoop_eq (w : World) (hBytes : bytes.toNat ≤ 2 ^ 64 - 4096) {k fuel : Nat}
    (hk : k ≤ pageCount bytes) (hFuel : pageCount bytes - k < fuel) :
    mapMultipleLoop answer root vStart pStart bytes bits (BitVec.ofNat 64 (4096 * k))
        (mapAll answer root w (rangeMaps vStart pStart bits k)) fuel =
      some (mapAll answer root w (rangeMaps vStart pStart bits (pageCount bytes))) := by
  induction fuel generalizing k with
  | zero => omega
  | succ fuel ih =>
      have hCount : pageCount bytes = (bytes.toNat + 4095) / 4096 := rfl
      have hi : (BitVec.ofNat 64 (4096 * k)).toNat = 4096 * k := by
        rw [BitVec.toNat_ofNat]
        omega
      rw [mapMultipleLoop]
      by_cases hLast : k = pageCount bytes
      · have hEnd : ¬ BitVec.ofNat 64 (4096 * k) < bytes := by
          rw [BitVec.lt_def, hi]
          omega
        rw [if_neg hEnd, hLast]
      · have hNext : BitVec.ofNat 64 (4096 * k) < bytes := by
          rw [BitVec.lt_def, hi]
          omega
        have hStep : BitVec.ofNat 64 (4096 * k) + 4096 = BitVec.ofNat 64 (4096 * (k + 1)) := by
          rw [Nat.mul_succ, BitVec.ofNat_add]
          rfl
        have hNow := @mapAll_concat answer root w
          (rangeMaps vStart pStart bits k) ⟨vStart + BitVec.ofNat 64 (4096 * k),
            pStart + BitVec.ofNat 64 (4096 * k), bits⟩
        rw [← rangeMaps_succ] at hNow
        rw [if_pos hNext, hStep, ← hNow]
        exact ih (by omega) (by omega)

/-- A counter that is a multiple of the page size never reaches the last
bytes of the address space. -/
theorem mapMultipleLoop_none (hBytes : 2 ^ 64 - 4096 < bytes.toNat) (w : World) {i : Word}
    (hi : i.toNat % 4096 = 0) (fuel : Nat) :
    mapMultipleLoop answer root vStart pStart bytes bits i w fuel = none := by
  induction fuel generalizing i w with
  | zero => rfl
  | succ fuel ih =>
      have hNext : i < bytes := by
        rw [BitVec.lt_def]
        omega
      rw [mapMultipleLoop, if_pos hNext]
      apply ih
      rw [BitVec.toNat_add]
      simp
      omega

/-- The loop ends unless the byte count reaches into the last page. -/
theorem mmuMapMultiple_eq (w : World) (hBytes : bytes.toNat ≤ 2 ^ 64 - 4096) :
    mmuMapMultiple answer w root vStart pStart bytes bits =
      some (mapAll answer root w (rangeMaps vStart pStart bits (pageCount bytes))) := by
  have hFuel : pageCount bytes - 0 < 2 ^ 52 + 1 := by
    unfold pageCount
    omega
  exact mapMultipleLoop_eq w hBytes (Nat.zero_le _) hFuel

theorem mmuMapMultiple_some {w w' : World}
    (hCall : mmuMapMultiple answer w root vStart pStart bytes bits = some w') :
    w' = mapAll answer root w (rangeMaps vStart pStart bits (pageCount bytes)) := by
  by_cases hBytes : bytes.toNat ≤ 2 ^ 64 - 4096
  · rw [mmuMapMultiple_eq w hBytes] at hCall
    exact (Option.some.inj hCall).symm
  · rw [mmuMapMultiple, mapMultipleLoop_none (by omega) w rfl] at hCall
    cases hCall

end Loop

section Lookup

theorem toNat_vpn27 (a : Word) : (vpn27 a).toNat = a.toNat / 4096 % 2 ^ 27 := by
  rw [vpn27, BitVec.extractLsb'_toNat, Nat.shiftRight_eq_div_pow]

/-- Pages of a range that are less than `2 ^ 27` pages apart are different. -/
theorem vpn27_range_inj (v : Word) {i j : Nat} (hi : i < 2 ^ 27) (hj : j < 2 ^ 27)
    (h : vpn27 (v + BitVec.ofNat 64 (4096 * i)) = vpn27 (v + BitVec.ofNat 64 (4096 * j))) :
    i = j := by
  have hNat := congrArg BitVec.toNat h
  rw [toNat_vpn27, toNat_vpn27, BitVec.toNat_add, BitVec.toNat_add, BitVec.toNat_ofNat,
    BitVec.toNat_ofNat] at hNat
  omega

/-- A later call for the page of an address hides the earlier ones. -/
theorem lastMapping_append (maps maps' : List Mapping) (a : Word) :
    lastMapping (maps ++ maps') a = (lastMapping maps' a).or (lastMapping maps a) := by
  rw [lastMapping, List.reverse_append, List.find?_append]
  rfl

/-- The page number of a translated address. -/
theorem toNat_pageAddr_div (p a : Word) :
    ((p &&& 0x00fffffffffff000#64) ||| (a &&& 0xfff#64)).toNat / 4096 =
      p.toNat / 4096 % 2 ^ 44 := by
  have hShift : ((p &&& 0x00fffffffffff000#64) ||| (a &&& 0xfff#64)) >>> 12 =
      (p >>> 12) &&& BitVec.ofNat 64 (2 ^ 44 - 1) := by
    apply BitVec.eq_of_getLsbD_eq
    intro i hi
    rw [BitVec.getLsbD_ushiftRight, BitVec.getLsbD_or, BitVec.getLsbD_and, BitVec.getLsbD_and,
      BitVec.getLsbD_and, BitVec.getLsbD_ushiftRight, getLsbD_pageMask, getLsbD_0xfff,
      getLsbD_lowMask 44 _ (by decide)]
    grind
  have hNat := congrArg BitVec.toNat hShift
  rwa [BitVec.toNat_ushiftRight, toNat_shift_and_mask p 12 44 (by decide),
    Nat.shiftRight_eq_div_pow] at hNat

theorem toNat_pageAddr_mod (p a : Word) :
    ((p &&& 0x00fffffffffff000#64) ||| (a &&& 0xfff#64)).toNat % 4096 = a.toNat % 4096 := by
  have hLow : ((p &&& 0x00fffffffffff000#64) ||| (a &&& 0xfff#64)) &&& 0xfff#64 =
      a &&& 0xfff#64 := by
    apply BitVec.eq_of_getLsbD_eq
    intro i hi
    rw [BitVec.getLsbD_and, BitVec.getLsbD_or, BitVec.getLsbD_and, BitVec.getLsbD_and,
      getLsbD_pageMask, getLsbD_0xfff]
    grind
  have hNat := congrArg BitVec.toNat hLow
  rw [BitVec.toNat_and, BitVec.toNat_and, show (0xfff#64).toNat = 2 ^ 12 - 1 from rfl,
    Nat.and_two_pow_sub_one_eq_mod, Nat.and_two_pow_sub_one_eq_mod] at hNat
  exact hNat

variable {vStart pStart bits a : Word} {n i : Nat}

/-- The last mapping of a page of a range, when no later page aliases it. -/
theorem lastMapping_rangeMaps (hn : n ≤ 2 ^ 27) (hi : i < n)
    (hPage : vpn27 (vStart + BitVec.ofNat 64 (4096 * i)) = vpn27 a) :
    lastMapping (rangeMaps vStart pStart bits n) a =
      some ⟨vStart + BitVec.ofNat 64 (4096 * i), pStart + BitVec.ofNat 64 (4096 * i), bits⟩ := by
  induction n with
  | zero => omega
  | succ n ih =>
      rw [rangeMaps_succ, lastMapping_concat]
      by_cases hLast : i = n
      · rw [← hLast, if_pos hPage]
      · rw [if_neg, ih (by omega) (by omega)]
        rw [← hPage]
        exact fun hSame => hLast (vpn27_range_inj vStart (by omega) (by omega) hSame).symm

/-- What a leaf of the last level translates to. -/
theorem mmuTranslate_of_leaf {m : Memory} {p : Word} (h : Layout m root owned)
    (hLeaf : find (cells m) root (indices a 3) = some (leafEntry p bits)) (hBits : LeafBits bits) :
    mmuTranslate m root a = (p &&& 0x00fffffffffff000#64) ||| (a &&& 0xfff#64) := by
  rw [mmuTranslate_eq h, hLeaf]
  exact leafAddr_leafEntry _ _ _ hBits.1

/-- Physical addresses have 56 bits. -/
theorem mmuTranslate_lt {m : Memory} (h : Layout m root owned) (a : Word) :
    mmuTranslate m root a = -1 ∨ (mmuTranslate m root a).toNat < 2 ^ 56 := by
  rw [mmuTranslate_eq h]
  cases hLeaf : find (cells m) root (indices a 3) with
  | none => exact .inl rfl
  | some entry =>
      refine .inr (Nat.lt_pow_two_of_testBit _ fun i hi => ?_)
      change (leafAddr entry a 0).getLsbD i = false
      simp only [leafAddr, ppn, BitVec.getLsbD_or, BitVec.getLsbD_and, BitVec.getLsbD_shiftLeft,
        BitVec.getLsbD_ushiftRight, getLsbD_0x1ff, getLsbD_0x3ffffff, getLsbD_0xfff]
      grind

end Lookup

/-- A range that is mapped on top of the tables that grew since `lo`. -/
theorem mmuMapMultiple_spec {w : World} {lo hi : Nat} (vStart pStart : Word) {bytes bits : Word}
    (h : Layout w.mem root (grow answer {root} lo w.calls)) (hLow : lo ≤ w.calls)
    (hBits : LeafBits bits) (hBytes : bytes.toNat ≤ 2 ^ 64 - 4096)
    (hFresh : FreshTables answer {root} lo hi) (hCalls : w.calls + 2 * pageCount bytes ≤ hi) :
    ∃ w', mmuMapMultiple answer w root vStart pStart bytes bits = some w' ∧
      w.calls ≤ w'.calls ∧ w'.calls ≤ w.calls + 2 * pageCount bytes ∧
      Layout w'.mem root (grow answer {root} lo w'.calls) ∧
      ∀ x, (∀ t ∈ grow answer {root} lo w'.calls, ¬ InRange t 4096 x) → w'.mem x = w.mem x := by
  have hMore := @mapAll_calls_le answer root w (rangeMaps vStart pStart bits (pageCount bytes))
  have hBound := @mapAll_calls_bound answer root w (rangeMaps vStart pStart bits (pageCount bytes))
  rw [rangeMaps, List.length_map, List.length_range, ← rangeMaps] at hBound
  obtain ⟨hLayout, -, hFrame⟩ := mapAll_spec h (rangeMaps vStart pStart bits (pageCount bytes))
    (fun c hc => by rw [bits_of_mem_rangeMaps hc]; exact hBits.2)
    ((hFresh.before (by omega)).after hLow)
  rw [grow_grow {root} hLow hMore] at hLayout hFrame
  exact ⟨_, mmuMapMultiple_eq w hBytes, hMore, hBound, hLayout, hFrame⟩

end Kernel.Mmu
