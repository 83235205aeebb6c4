import RiscvOs.Kernel.MmuRanges

/-! What `mmu_map_multiple` does for a range that starts inside a page. Its loop
takes one step for every 4096 bytes, so the page with the last bytes is missed
when the offset and these bytes are more than a page. -/
namespace Kernel.Mmu

open Semantics Radix

variable {answer : Nat → Word} {root : Word} {owned : Set Word}

section Entry

/-- The page number that a leaf holds: what `bits` has above its ten low bits
is mixed in. -/
theorem leafAddr_leafEntry_page (p bits a : Word) :
    leafAddr (leafEntry p bits) a 0 =
      ((p ||| (bits >>> 10 <<< 12)) &&& 0x00fffffffffff000#64) ||| (a &&& 0xfff#64) := by
  have hEntry (i : Nat) (hi : 10 ≤ i) (hHigh : i < 54) : (leafEntry p bits).getLsbD i =
      (p.getLsbD (i + 2) || bits.getLsbD i) := by
    have hOne : (1 : Word).getLsbD i = false := by
      simp
      omega
    simp only [leafEntry, ppn, pbValid, BitVec.getLsbD_or, BitVec.getLsbD_and,
      BitVec.getLsbD_shiftLeft, BitVec.getLsbD_ushiftRight, getLsbD_0x1ff, getLsbD_0x3ffffff,
      hOne, Bool.or_false]
    grind
  apply BitVec.eq_of_getLsbD_eq
  intro i hi
  simp only [leafAddr, ppn, BitVec.getLsbD_or, BitVec.getLsbD_and, BitVec.getLsbD_shiftLeft,
    BitVec.getLsbD_ushiftRight, getLsbD_0x1ff, getLsbD_0x3ffffff, getLsbD_0xfff, getLsbD_pageMask]
  by_cases hLow : i < 12
  · grind
  · by_cases hHigh : i < 56
    · have hBit := hEntry (i - 2) (by omega) (by omega)
      grind
    · grind

/-- The leaf stands for the page of the address. -/
def Encodes (paddr bits : Word) : Prop :=
  (paddr ||| (bits >>> 10 <<< 12)) &&& 0x00fffffffffff000#64 = paddr &&& ~~~0xfff#64

instance (paddr bits : Word) : Decidable (Encodes paddr bits) :=
  inferInstanceAs (Decidable (_ = _))

/-- An address of the page is found through the leaf exactly when it is encoded. -/
theorem leafAddr_eq_iff {p q bits a : Word} (hPage : q &&& ~~~0xfff#64 = p &&& ~~~0xfff#64)
    (hOffset : a &&& 0xfff#64 = q &&& 0xfff#64) :
    leafAddr (leafEntry p bits) a 0 = q ↔ Encodes p bits := by
  have hSplit : q = (q &&& ~~~0xfff#64) ||| (q &&& 0xfff#64) := by
    apply BitVec.eq_of_getLsbD_eq
    intro i hi
    simp only [BitVec.getLsbD_or, BitVec.getLsbD_and, BitVec.getLsbD_not, getLsbD_0xfff]
    grind
  have hHigh : leafAddr (leafEntry p bits) a 0 &&& ~~~0xfff#64 =
      (p ||| (bits >>> 10 <<< 12)) &&& 0x00fffffffffff000#64 := by
    rw [leafAddr_leafEntry_page]
    apply BitVec.eq_of_getLsbD_eq
    intro i hi
    simp only [BitVec.getLsbD_or, BitVec.getLsbD_and, BitVec.getLsbD_not, getLsbD_0xfff,
      getLsbD_pageMask]
    grind
  constructor
  · intro hEq
    rw [Encodes, ← hHigh, hEq, hPage]
  · intro hEncodes
    rw [leafAddr_leafEntry_page, hEncodes, hOffset, ← hPage]
    exact hSplit.symm

end Entry

section Pages

variable {v p k : Word}

theorem not_0xfff : ~~~0xfff#64 = -4096#64 := by decide

/-- A byte of a range lies in the page that its distance from the first page
says. -/
theorem vpn27_add (v k : Word) :
    vpn27 (v + BitVec.ofNat 64 (4096 * ((v.toNat % 4096 + k.toNat) / 4096))) = vpn27 (v + k) := by
  have hv := v.isLt
  have hk := k.isLt
  apply BitVec.eq_of_toNat_eq
  rw [toNat_vpn27, toNat_vpn27, BitVec.toNat_add, BitVec.toNat_add, BitVec.toNat_ofNat]
  omega

theorem offset_eq (hOffset : v &&& 0xfff#64 = p &&& 0xfff#64) :
    v.toNat % 4096 = p.toNat % 4096 := by
  have hNat := congrArg BitVec.toNat hOffset
  rwa [BitVec.toNat_and, BitVec.toNat_and, show (0xfff#64).toNat = 2 ^ 12 - 1 from rfl,
    Nat.and_two_pow_sub_one_eq_mod, Nat.and_two_pow_sub_one_eq_mod] at hNat

theorem add_page (hOffset : v &&& 0xfff#64 = p &&& 0xfff#64) (k : Word) :
    (p + k) &&& ~~~0xfff#64 =
      (p + BitVec.ofNat 64 (4096 * ((v.toNat % 4096 + k.toNat) / 4096))) &&& ~~~0xfff#64 := by
  have hp := p.isLt
  have hk := k.isLt
  have hSame := offset_eq hOffset
  apply BitVec.eq_of_toNat_eq
  rw [not_0xfff, toNat_and_neg_4096, toNat_and_neg_4096, BitVec.toNat_add, BitVec.toNat_add,
    BitVec.toNat_ofNat, hSame]
  omega

theorem add_offset (hOffset : v &&& 0xfff#64 = p &&& 0xfff#64) (k : Word) :
    (v + k) &&& 0xfff#64 = (p + k) &&& 0xfff#64 := by
  have hSame := offset_eq hOffset
  apply BitVec.eq_of_toNat_eq
  rw [BitVec.toNat_and, BitVec.toNat_and, show (0xfff#64).toNat = 2 ^ 12 - 1 from rfl,
    Nat.and_two_pow_sub_one_eq_mod, Nat.and_two_pow_sub_one_eq_mod, BitVec.toNat_add,
    BitVec.toNat_add]
  omega

/-- Addresses of one virtual page translate into one physical page. -/
theorem mmuTranslate_page {m : Memory} (h : Layout m root owned) {a b : Word}
    (hPage : vpn27 a = vpn27 b) :
    (mmuTranslate m root a).toNat / 4096 = (mmuTranslate m root b).toNat / 4096 := by
  rw [mmuTranslate_eq h, mmuTranslate_eq h, (indices_eq_iff a b).mpr hPage]
  cases find (cells m) root (indices b 3) with
  | none => rfl
  | some entry =>
      have hShift : leafAddr entry a 0 >>> 12 = leafAddr entry b 0 >>> 12 := by
        apply BitVec.eq_of_getLsbD_eq
        intro i hi
        simp only [leafAddr, BitVec.getLsbD_ushiftRight, BitVec.getLsbD_or, BitVec.getLsbD_and,
          getLsbD_0xfff]
        have hLow : ¬ 12 + i < 12 := by omega
        simp only [hLow, decide_false, Bool.and_false]
      have hNat := congrArg BitVec.toNat hShift
      rwa [BitVec.toNat_ushiftRight, BitVec.toNat_ushiftRight, Nat.shiftRight_eq_div_pow,
        Nat.shiftRight_eq_div_pow] at hNat

end Pages

/-- Every byte of the range translates to its place behind `p_start`, and the
other virtual pages translate as before. -/
def MapsRange (answer : Nat → Word) (root : Word) (w : World) (vStart pStart bytes bits : Word) :
    Prop :=
  ∃ w', mmuMapMultiple answer w root vStart pStart bytes bits = some w' ∧
    (∀ k, k < bytes → mmuTranslate w'.mem root (vStart + k) = pStart + k) ∧
    ∀ a, (∀ k, k < bytes → vpn27 (vStart + k) ≠ vpn27 a) →
      mmuTranslate w'.mem root a = mmuTranslate w.mem root a

/-- The range has fewer pages than an Sv39 table, leaves can stand for its
pages, and its bytes behind the last page of the loop translate already. -/
def Mappable (root : Word) (w : World) (vStart pStart bytes bits : Word) : Prop :=
  bytes = 0 ∨ vStart.toNat % 4096 + bytes.toNat ≤ 2 ^ 39 ∧
    (∀ i < pageCount bytes, Encodes (pStart + BitVec.ofNat 64 (4096 * i)) bits) ∧
    ∀ k, k < bytes → 4096 * pageCount bytes ≤ vStart.toNat % 4096 + k.toNat →
      mmuTranslate w.mem root (vStart + k) = pStart + k

section Range

variable {w : World} {vStart pStart bytes bits : Word} {n : Nat}

theorem lastMapping_rangeMaps_none {a : Word}
    (hOther : ∀ i < n, vpn27 (vStart + BitVec.ofNat 64 (4096 * i)) ≠ vpn27 a) :
    lastMapping (rangeMaps vStart pStart bits n) a = none := by
  induction n with
  | zero => rfl
  | succ n ih =>
      rw [rangeMaps_succ, lastMapping_concat, if_neg (hOther n (Nat.lt_succ_self n))]
      exact ih fun i hi => hOther i (Nat.lt_succ_of_lt hi)

/-- A byte in one of the pages of the loop. -/
theorem translate_inside (h : Layout w.mem root owned) (hBits : bits &&& pbLeaf ≠ 0)
    (hFresh : FreshTables answer owned w.calls
      (mapAll answer root w (rangeMaps vStart pStart bits n)).calls)
    (hn : n ≤ 2 ^ 27) (hOffset : vStart &&& 0xfff#64 = pStart &&& 0xfff#64) {k : Word}
    (hk : (vStart.toNat % 4096 + k.toNat) / 4096 < n) :
    mmuTranslate (mapAll answer root w (rangeMaps vStart pStart bits n)).mem root (vStart + k) =
        pStart + k ↔
      Encodes (pStart + BitVec.ofNat 64 (4096 * ((vStart.toNat % 4096 + k.toNat) / 4096))) bits := by
  obtain ⟨hLayout, hFind, -⟩ := mapAll_spec h (rangeMaps vStart pStart bits n)
    (fun c hc => by rwa [bits_of_mem_rangeMaps hc]) hFresh
  rw [mmuTranslate_eq hLayout, hFind, lastMapping_rangeMaps hn hk (vpn27_add vStart k)]
  exact leafAddr_eq_iff (add_page hOffset k) (add_offset hOffset k)

/-- An address in none of the pages of the loop. -/
theorem translate_outside (h : Layout w.mem root owned) (hBits : bits &&& pbLeaf ≠ 0)
    (hFresh : FreshTables answer owned w.calls
      (mapAll answer root w (rangeMaps vStart pStart bits n)).calls) {a : Word}
    (hOther : ∀ i < n, vpn27 (vStart + BitVec.ofNat 64 (4096 * i)) ≠ vpn27 a) :
    mmuTranslate (mapAll answer root w (rangeMaps vStart pStart bits n)).mem root a =
      mmuTranslate w.mem root a := by
  obtain ⟨hLayout, hFind, -⟩ := mapAll_spec h (rangeMaps vStart pStart bits n)
    (fun c hc => by rwa [bits_of_mem_rangeMaps hc]) hFresh
  rw [mmuTranslate_eq hLayout, hFind, lastMapping_rangeMaps_none hOther, mmuTranslate_eq h]
  rfl

/-- Behind the pages of the loop, when the range does not alias itself. -/
theorem vpn27_behind {k : Word} (hk : vStart.toNat % 4096 + k.toNat < 2 ^ 39)
    (hn : 4096 * n ≤ vStart.toNat % 4096 + k.toNat) :
    ∀ i < n, vpn27 (vStart + BitVec.ofNat 64 (4096 * i)) ≠ vpn27 (vStart + k) := by
  intro i hi hSame
  rw [← vpn27_add vStart k] at hSame
  have hEq := vpn27_range_inj vStart (by omega) (by omega) hSame
  omega

theorem toNat_ofNat_page {i : Nat} (hi : 4096 * i < bytes.toNat) :
    (BitVec.ofNat 64 (4096 * i)).toNat = 4096 * i := by
  rw [BitVec.toNat_ofNat, Nat.mod_eq_of_lt (hi.trans bytes.isLt)]

theorem mapsRange_of_mappable (h : Layout w.mem root owned) (hBits : bits &&& pbLeaf ≠ 0)
    (hFresh : FreshTables answer owned w.calls
      (mapAll answer root w (rangeMaps vStart pStart bits (pageCount bytes))).calls)
    (hOffset : vStart &&& 0xfff#64 = pStart &&& 0xfff#64)
    (hMappable : Mappable root w vStart pStart bytes bits) :
    MapsRange answer root w vStart pStart bytes bits := by
  have hCount : pageCount bytes = (bytes.toNat + 4095) / 4096 := rfl
  have hSize : bytes.toNat ≤ 2 ^ 39 := by
    rcases hMappable with rfl | ⟨hSize, -⟩
    · decide
    · omega
  refine ⟨_, mmuMapMultiple_eq w (by omega), fun k hk => ?_, fun a ha => ?_⟩
  · have hkNat : k.toNat < bytes.toNat := hk
    rcases hMappable with rfl | ⟨hRange, hEncodes, hRest⟩
    · exact absurd hkNat (Nat.not_lt_zero _)
    · by_cases hLast : (vStart.toNat % 4096 + k.toNat) / 4096 < pageCount bytes
      · exact (translate_inside h hBits hFresh (by omega) hOffset hLast).mpr (hEncodes _ hLast)
      · have hBehind : 4096 * pageCount bytes ≤ vStart.toNat % 4096 + k.toNat := by omega
        rw [translate_outside h hBits hFresh (vpn27_behind (by omega) hBehind)]
        exact hRest k hk hBehind
  · refine translate_outside h hBits hFresh fun i hi => ?_
    have hPage : 4096 * i < bytes.toNat := by omega
    exact ha _ (BitVec.lt_def.mpr (by rwa [toNat_ofNat_page hPage]))

theorem mappable_of_mapsRange (h : Layout w.mem root owned) (hBits : bits &&& pbLeaf ≠ 0)
    (hFresh : FreshTables answer owned w.calls
      (mapAll answer root w (rangeMaps vStart pStart bits (pageCount bytes))).calls)
    (hOffset : vStart &&& 0xfff#64 = pStart &&& 0xfff#64)
    (hMaps : MapsRange answer root w vStart pStart bytes bits) :
    Mappable root w vStart pStart bytes bits := by
  have hCount : pageCount bytes = (bytes.toNat + 4095) / 4096 := rfl
  have hSame := offset_eq hOffset
  obtain ⟨w', hCall, hInside, hOutside⟩ := hMaps
  obtain rfl := mmuMapMultiple_some hCall
  by_cases hNone : bytes = 0
  · exact .inl hNone
  have hSome : 0 < bytes.toNat := BitVec.toNat_pos_of_ne_zero hNone
  have hRange : vStart.toNat % 4096 + bytes.toNat ≤ 2 ^ 39 := by
    by_contra hLong
    -- the first byte and one of the page that aliases the first page
    let k := BitVec.ofNat 64 (2 ^ 39 - vStart.toNat % 4096)
    have hkNat : k.toNat = 2 ^ 39 - vStart.toNat % 4096 := by
      rw [BitVec.toNat_ofNat]
      omega
    have hFirst (x : Word) : x + 0 = x := BitVec.add_zero x
    have hPage : vpn27 (vStart + 0) = vpn27 (vStart + k) := by
      apply BitVec.eq_of_toNat_eq
      rw [hFirst, toNat_vpn27, toNat_vpn27, BitVec.toNat_add, hkNat]
      omega
    obtain ⟨hLayout, -⟩ := mapAll_spec h (rangeMaps vStart pStart bits (pageCount bytes))
      (fun c hc => by rwa [bits_of_mem_rangeMaps hc]) hFresh
    have hBoth := mmuTranslate_page hLayout hPage
    rw [hInside 0 (BitVec.lt_def.mpr hSome), hInside k (BitVec.lt_def.mpr (by omega)),
      hFirst, BitVec.toNat_add, hkNat] at hBoth
    have hp := pStart.isLt
    omega
  refine .inr ⟨hRange, fun i hi => ?_, fun k hk hBehind => ?_⟩
  · have hPage : 4096 * i < bytes.toNat := by omega
    have hAddr := toNat_ofNat_page hPage
    have hIndex : (vStart.toNat % 4096 + (BitVec.ofNat 64 (4096 * i)).toNat) / 4096 = i := by
      rw [hAddr]
      omega
    have hEncodes := (translate_inside h hBits hFresh (by omega) hOffset
      (k := BitVec.ofNat 64 (4096 * i)) (by rwa [hIndex])).mp
      (hInside _ (BitVec.lt_def.mpr (by rwa [hAddr])))
    rwa [hIndex] at hEncodes
  · have hkNat : k.toNat < bytes.toNat := hk
    rw [← hInside k hk]
    exact (translate_outside h hBits hFresh (vpn27_behind (by omega) hBehind)).symm

/-- For tables that `mmu_map` built from a zeroed root. -/
theorem mapsRange_iff (hZero : ∀ x, InRange root 4096 x → w.mem x = 0) (maps : List Mapping)
    (hMaps : ∀ c ∈ maps, c.bits &&& pbLeaf ≠ 0) (hBits : bits &&& pbLeaf ≠ 0)
    (hOffset : vStart &&& 0xfff#64 = pStart &&& 0xfff#64)
    (hFresh : FreshTables answer {root} w.calls (mapAll answer root (mapAll answer root w maps)
      (rangeMaps vStart pStart bits (pageCount bytes))).calls) :
    MapsRange answer root (mapAll answer root w maps) vStart pStart bytes bits ↔
      Mappable root (mapAll answer root w maps) vStart pStart bytes bits := by
  have hBuilt := @mapAll_calls_le answer root w maps
  have hMore := @mapAll_calls_le answer root (mapAll answer root w maps)
    (rangeMaps vStart pStart bits (pageCount bytes))
  obtain ⟨hLayout, -⟩ := mapAll_spec (layout_of_zero hZero).1 maps hMaps (hFresh.before hMore)
  exact ⟨mappable_of_mapsRange hLayout hBits (hFresh.after hBuilt) hOffset,
    mapsRange_of_mappable hLayout hBits (hFresh.after hBuilt) hOffset⟩

end Range

section Inputs

/-- Tables are taken from consecutive pages. -/
def nextTablePage (k : Nat) : Word :=
  0x80300000#64 + BitVec.ofNat 64 (4096 * k)

theorem freshTables_nextTablePage : FreshTables nextTablePage {0x80200000} 0 4 :=
  freshTables_consecutive (by decide) (by decide) (by decide) (by
    rintro t rfl
    unfold Apart
    decide)

/-- The range starts in the middle of a page, behind a mapped page. -/
theorem mapsRange_iff_unaligned :
    let w : World := mapAll nextTablePage 0x80200000 ⟨fun _ => 0, 0⟩ [⟨0x1000, 0x80000000, 0b10⟩]
    MapsRange nextTablePage 0x80200000 w 0x3800 0x80003800 0x1000 0b110 ↔
      Mappable 0x80200000 w 0x3800 0x80003800 0x1000 0b110 := by
  intro w
  have hCalls := @mapAll_calls_bound nextTablePage 0x80200000 ⟨fun _ => 0, 0⟩
    ([⟨0x1000, 0x80000000, 0b10⟩] ++ rangeMaps 0x3800 0x80003800 0b110 (pageCount 0x1000))
  have hFresh := freshTables_nextTablePage.before (hCalls.trans (by decide : 0 + 2 * _ ≤ 4))
  rw [mapAll, List.foldl_append] at hFresh
  exact mapsRange_iff (fun _ _ => rfl) _ (by decide) (by decide) (by decide) hFresh

/-- 4096 bytes from the middle of a page: their second half is not mapped. -/
theorem mmuMapMultiple_last_page :
    let w : World := ⟨fun _ => 0, 0⟩
    (∃ w', mmuMapMultiple nextTablePage w 0x80200000 0x1800 0x80000800 0x1000 0b110 = some w' ∧
      mmuTranslate w'.mem 0x80200000 0x2000 = -1) ∧
    ¬ MapsRange nextTablePage 0x80200000 w 0x1800 0x80000800 0x1000 0b110 := by
  intro w
  have hLayout : Layout w.mem 0x80200000 {0x80200000} := (layout_of_zero fun _ _ => rfl).1
  have hCalls := @mapAll_calls_bound nextTablePage 0x80200000 w
    (rangeMaps 0x1800 0x80000800 0b110 (pageCount 0x1000))
  have hFresh := freshTables_nextTablePage.before
    (hCalls.trans (by decide : 0 + 2 * _ ≤ 4))
  have hUnmapped : mmuTranslate w.mem 0x80200000 0x2000 = -1 := by
    rw [mmuTranslate_eq hLayout, (layout_of_zero fun _ _ => rfl).2]
    rfl
  have hAfter := translate_outside (a := 0x2000) hLayout (by decide) hFresh
    (by decide : ∀ i < pageCount 0x1000, _)
  refine ⟨⟨_, mmuMapMultiple_eq w (by decide), hAfter.trans hUnmapped⟩, fun hMaps => ?_⟩
  have hMappable := mappable_of_mapsRange hLayout (by decide) hFresh (by decide) hMaps
  rcases hMappable with hNone | ⟨-, -, hRest⟩
  · exact absurd hNone (by decide)
  · have hLast := hRest 0x800 (by decide) (by decide)
    exact absurd (hUnmapped.symm.trans hLast) (by decide)

end Inputs

end Kernel.Mmu
