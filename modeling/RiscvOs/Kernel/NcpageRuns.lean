import RiscvOs.Kernel.Ncpage
import RiscvOs.Semantics.Chain

/-! The pages of the heap over any run: the free list and the pages that are
held are all the pages, each once. -/
namespace Kernel.Ncpage

open Semantics

variable {h : Heap} {m m' : Memory} {s t : PagesUse} {page : Word} {i j : Nat} {nodes : List Word}

/-- The free list ends, its pages and the pages that are held are the pages of
the heap, and the next call of `ncpage_zalloc` returns `NULL` exactly if all are
held. -/
structure Sound (h : Heap) (s : PagesUse) : Prop where
  freeList : ∃ nodes, Chain s.pages.mem.load64 0 s.pages.pageHead nodes ∧
    (nodes ++ s.held).Perm h.pageList ∧ (nodes ++ s.held).Nodup
  exhausted : (ncpageZalloc s.pages).1 = 0 ↔ ∀ page ∈ h.pageList, page ∈ s.held

/-! ## The pages of the heap -/

theorem toNat_pageAt (hi : i ≤ h.pages) : (h.pageAt i).toNat = h.start.toNat + 4096 * i := by
  have hWhole := h.whole
  have hStop := h.stop.isLt
  unfold Heap.pageAt
  rw [BitVec.toNat_add, BitVec.toNat_ofNat]
  omega

theorem pageAt_succ (i : Nat) : h.pageAt i + 4096 = h.pageAt (i + 1) := by
  unfold Heap.pageAt
  rw [BitVec.add_assoc, Nat.mul_add, BitVec.ofNat_add]
  rfl

theorem pageAt_zero : h.pageAt 0 = h.start := by
  unfold Heap.pageAt
  rw [Nat.mul_zero]
  exact BitVec.add_zero _

/-- The loop of `ncpage_init` stops behind the last page. -/
theorem pageAt_lt_stop (hi : i ≤ h.pages) : h.pageAt i < h.stop ↔ i < h.pages := by
  have hWhole := h.whole
  rw [BitVec.lt_def, toNat_pageAt hi]
  omega

theorem apart_pageAt (hi : i < h.pages) (hj : j < h.pages) (hNe : i ≠ j) :
    Apart (h.pageAt i) 4096 (h.pageAt j) 4096 := by
  have hWhole := h.whole
  have hStop := h.stop.isLt
  exact apart_of_offsets (by decide) (by decide) (by omega) (by omega) (by omega)

theorem mem_pageList : page ∈ h.pageList ↔ ∃ i < h.pages, h.pageAt i = page := by
  simp [Heap.pageList]

theorem nodup_pageList (h : Heap) : h.pageList.Nodup := by
  refine List.Nodup.map_on (fun i hi j hj hEq => ?_) List.nodup_range
  have hNat := congrArg BitVec.toNat hEq
  rw [toNat_pageAt (List.mem_range.mp hi).le, toNat_pageAt (List.mem_range.mp hj).le] at hNat
  omega

theorem ne_null_of_mem (hMem : page ∈ h.pageList) : page ≠ 0 := by
  obtain ⟨i, hi, rfl⟩ := mem_pageList.mp hMem
  intro hNull
  have hZero := congrArg BitVec.toNat hNull
  rw [toNat_pageAt hi.le] at hZero
  change h.start.toNat + 4096 * i = 0 at hZero
  have hStart : h.start.toNat = 0 := by omega
  exact h.nonNull (BitVec.eq_of_toNat_eq hStart)

/-- Two pages share no byte. -/
theorem apart_of_mem {a b : Word} (ha : a ∈ h.pageList) (hb : b ∈ h.pageList) (hNe : a ≠ b) :
    Apart a 4096 b 4096 := by
  obtain ⟨i, hi, rfl⟩ := mem_pageList.mp ha
  obtain ⟨j, hj, rfl⟩ := mem_pageList.mp hb
  exact apart_pageAt hi hj fun hEq => hNe (congrArg h.pageAt hEq)

/-- A link stored in one page keeps the links in the others. -/
theorem load64_store64_pageAt (value : Word) (hi : i < h.pages) (hj : j < h.pages) (hNe : i ≠ j) :
    (m.store64 (h.pageAt i) value).load64 (h.pageAt j) = m.load64 (h.pageAt j) :=
  Memory.load64_store64_apart m value ((apart_pageAt hi hj hNe).mono (by decide) (by decide))

/-! ## The loop of `ncpage_init` -/

/-- From page `i` on, the loop links every page to the next one and the last
page to `NULL`; the pages before keep their links. -/
theorem initLoop_spec (n : Nat) (hi : i + n + 1 = h.pages) :
    ∃ m', Chain m'.load64 0 (h.pageAt i) ((List.range' i (n + 1)).map h.pageAt) ∧
      (∀ j < i, m'.load64 (h.pageAt j) = m.load64 (h.pageAt j)) ∧
      ∀ fuel, n < fuel → initLoop h.stop fuel m (h.pageAt i) (h.pageAt (i + 1)) = some m' := by
  induction n generalizing i m with
  | zero =>
      have hHere : h.pageAt i ∈ h.pageList := mem_pageList.mpr ⟨i, by omega, rfl⟩
      refine ⟨m.store64 (h.pageAt i) 0, ?_, fun j hj => ?_, fun fuel hFuel => ?_⟩
      · apply Chain.cons _ (ne_null_of_mem hHere)
        exact Memory.load64_store64 m _ 0
      · exact load64_store64_pageAt 0 (by omega) (by omega) (by omega)
      · cases fuel with
        | zero => cases hFuel
        | succ fuel =>
            apply if_neg
            rw [pageAt_lt_stop (by omega)]
            omega
  | succ n ih =>
      have hHere : h.pageAt i ∈ h.pageList := mem_pageList.mpr ⟨i, by omega, rfl⟩
      let m₁ := m.store64 (h.pageAt i) (h.pageAt (i + 1))
      obtain ⟨m', hChain, hSame, hLoop⟩ := ih (i := i + 1) (m := m₁) (by omega)
      refine ⟨m', ?_, fun j hj => ?_, fun fuel hFuel => ?_⟩
      · rw [List.range'_succ, List.map_cons]
        apply Chain.cons _ (ne_null_of_mem hHere)
        rw [hSame i (Nat.lt_succ_self i), Memory.load64_store64]
        exact hChain
      · rw [hSame j (Nat.lt_succ_of_lt hj)]
        exact load64_store64_pageAt _ (by omega) (by omega) (by omega)
      · cases fuel with
        | zero => cases hFuel
        | succ fuel =>
            have hMore : h.pageAt (i + 1) < h.stop := (pageAt_lt_stop (by omega)).mpr (by omega)
            have hStep : initLoop h.stop (fuel + 1) m (h.pageAt i) (h.pageAt (i + 1)) =
                initLoop h.stop fuel m₁ (h.pageAt (i + 1)) (h.pageAt (i + 1) + 4096) :=
              if_pos hMore
            rw [hStep, pageAt_succ]
            exact hLoop fuel (Nat.lt_of_succ_lt_succ hFuel)

/-! ## The invariant -/

/-- The free list. -/
structure Inv (h : Heap) (s : PagesUse) (nodes : List Word) : Prop where
  chain : Chain s.pages.mem.load64 0 s.pages.pageHead nodes
  perm : (nodes ++ s.held).Perm h.pageList

/-- What `ncpage_zalloc` takes is the first page of the free list. -/
theorem ncpageZalloc_eq {pages : Pages} (hChain : Chain pages.mem.load64 0 pages.pageHead nodes) :
    ncpageZalloc pages = (0, pages) ∧ nodes = [] ∨ ∃ page rest,
      nodes = page :: rest ∧ page ≠ 0 ∧ Chain pages.mem.load64 0 (pages.mem.load64 page) rest ∧
        ncpageZalloc pages = (page, { pages with pageHead := pages.mem.load64 page }) := by
  by_cases hNull : pages.pageHead = 0
  · exact .inl ⟨if_pos hNull, hChain.eq_null_iff.mp hNull⟩
  · have hHead := hChain.eq_null_iff
    obtain ⟨page, rest, rfl⟩ := List.exists_cons_of_ne_nil (fun hNil => hNull (hHead.mpr hNil))
    obtain ⟨hPage, -, hRest⟩ := hChain
    have hZalloc : ncpageZalloc pages =
        (pages.pageHead, { pages with pageHead := pages.mem.load64 pages.pageHead }) :=
      if_neg hNull
    rw [hPage] at hZalloc hNull
    exact .inr ⟨page, rest, rfl, hNull, hRest, hZalloc⟩

namespace Inv

theorem nodup (hInv : Inv h s nodes) : (nodes ++ s.held).Nodup :=
  hInv.perm.nodup_iff.mpr (nodup_pageList h)

theorem mem_pageList (hInv : Inv h s nodes) (hMem : page ∈ nodes ++ s.held) :
    page ∈ h.pageList :=
  hInv.perm.mem_iff.mp hMem

theorem sound (hInv : Inv h s nodes) : Sound h s where
  freeList := ⟨nodes, hInv.chain, hInv.perm, hInv.nodup⟩
  exhausted := by
    rcases ncpageZalloc_eq hInv.chain with ⟨hZalloc, hNodes⟩ | ⟨page, rest, hNodes, hNull, -, hZalloc⟩
    · rw [hZalloc]
      refine ⟨fun _ page hMem => ?_, fun _ => rfl⟩
      have hAll := hInv.perm.mem_iff.mpr hMem
      rw [hNodes] at hAll
      exact hAll
    · rw [hZalloc]
      refine ⟨fun hEq => absurd hEq hNull, fun hAll => ?_⟩
      have hNodup := hInv.nodup
      have hFirst : page ∈ nodes ++ s.held := by
        rw [hNodes]
        exact List.mem_cons_self
      have hHeld := hAll page (hInv.mem_pageList hFirst)
      rw [hNodes] at hNodup
      exact absurd (List.mem_append_right rest hHeld) (List.nodup_cons.mp hNodup).1

/-- The first free page becomes a held one. -/
theorem zalloc {pages : Pages} (hInv : Inv h s nodes) (hCall : ncpageZalloc s.pages = (page, pages)) :
    ∃ nodes', Inv h ⟨pages, if page = 0 then s.held else page :: s.held⟩ nodes' := by
  rcases ncpageZalloc_eq hInv.chain with ⟨hZalloc, -⟩ | ⟨first, rest, hNodes, hNull, hRest, hZalloc⟩
  · rw [hZalloc] at hCall
    obtain ⟨rfl, rfl⟩ := Prod.mk.inj hCall
    rw [if_pos rfl]
    exact ⟨nodes, hInv⟩
  · rw [hZalloc] at hCall
    obtain ⟨rfl, rfl⟩ := Prod.mk.inj hCall
    rw [if_neg hNull]
    have hPerm := hInv.perm
    rw [hNodes] at hPerm
    exact ⟨rest, hRest, List.perm_middle.trans hPerm⟩

/-- The memory of a held page does not matter. -/
theorem congr (hInv : Inv h s nodes) (hHeld : page ∈ s.held)
    (hOutside : ∀ x, ¬ InRange page 4096 x → m x = s.pages.mem x) :
    Inv h { s with pages := { s.pages with mem := m } } nodes := by
  refine ⟨hInv.chain.congr fun y hy => ?_, hInv.perm⟩
  have hNe : y ≠ page := by
    rintro rfl
    exact (List.nodup_append.mp hInv.nodup).2.2 y hy y hHeld rfl
  have hApart := apart_of_mem (hInv.mem_pageList (List.mem_append_left _ hy))
    (hInv.mem_pageList (List.mem_append_right _ hHeld)) hNe
  apply Memory.load64_congr
  intro x hx
  exact hOutside x ((hApart.mono (by decide) (le_refl 4096)).symm.not_inRange hx)

/-- A held page becomes the first free one. -/
theorem free (hInv : Inv h s nodes) (hHeld : page ∈ s.held) :
    Inv h ⟨ncpageFree s.pages page, s.held.erase page⟩ (page :: nodes) := by
  have hMem := hInv.mem_pageList (List.mem_append_right nodes hHeld)
  have hNull := ne_null_of_mem hMem
  have hFree : ncpageFree s.pages page =
      { mem := s.pages.mem.store64 page s.pages.pageHead, pageHead := page } :=
    if_neg hNull
  rw [hFree]
  have hStored := hInv.congr hHeld (m := s.pages.mem.store64 page s.pages.pageHead) fun x hx =>
    if_neg fun hIn => hx (by unfold InRange at hIn ⊢; omega)
  refine ⟨Chain.cons ?_ hNull, ?_⟩
  · rw [Memory.load64_store64]
    exact hStored.chain
  · change (page :: (nodes ++ s.held.erase page)).Perm h.pageList
    have hBack : s.held.Perm (page :: s.held.erase page) := List.perm_cons_erase hHeld
    have hMiddle : (page :: (nodes ++ s.held.erase page)).Perm
        (nodes ++ page :: s.held.erase page) := List.perm_middle.symm
    exact hMiddle.trans ((hBack.symm.append_left nodes).trans hInv.perm)

end Inv

/-- `ncpage_init` returns, with all pages in the free list. -/
theorem ncpageInit_spec (h : Heap) (m : Memory) : ∃ start, Inv h ⟨start, []⟩ h.pageList ∧
    ∀ fuel, h.pages < fuel → ncpageInit fuel h m = some start := by
  have hSome := h.nonEmpty
  -- The first iteration links the first page to itself; the next one overwrites that.
  obtain ⟨m', hChain, -, hLoop⟩ :=
    initLoop_spec (h := h) (i := 0) (m := m.store64 h.start h.start) (h.pages - 1) (by omega)
  have hAll : (List.range' 0 (h.pages - 1 + 1)).map h.pageAt = h.pageList := by
    rw [Nat.sub_add_cancel hSome, ← List.range_eq_range']
    rfl
  rw [hAll, pageAt_zero] at hChain
  refine ⟨⟨m', h.start⟩, ⟨hChain, ?_⟩, fun fuel hFuel => ?_⟩
  · change (h.pageList ++ []).Perm h.pageList
    rw [List.append_nil]
  · cases fuel with
    | zero => cases hFuel
    | succ fuel =>
        have hMore : h.start < h.stop := by
          rw [← pageAt_zero]
          exact (pageAt_lt_stop (Nat.zero_le _)).mpr hSome
        have hStep : initLoop h.stop (fuel + 1) m h.start h.start =
            initLoop h.stop fuel (m.store64 h.start h.start) h.start (h.start + 4096) :=
          if_pos hMore
        have hRest := hLoop fuel (by omega)
        rw [← pageAt_succ, pageAt_zero] at hRest
        change (do
          let m ← initLoop h.stop (fuel + 1) m h.start h.start
          some (⟨m, h.start⟩ : Pages)) = _
        rw [hStep, hRest]
        rfl

theorem Step.inv {event : Event} (hStep : Step s event t) (hInv : ∃ nodes, Inv h s nodes) :
    ∃ nodes, Inv h t nodes := by
  obtain ⟨nodes, hInv⟩ := hInv
  cases hStep with
  | zalloc hCall => exact hInv.zalloc hCall
  | free page hHeld => exact ⟨page :: nodes, hInv.free hHeld⟩
  | write page m hHeld hOutside => exact ⟨nodes, hInv.congr hHeld hOutside⟩

/-- After `ncpage_init` no run loses a page or gives it out twice. -/
theorem ncpage_conserves_pages (h : Heap) (m : Memory) :
    ∃ start, (∀ fuel, h.pages < fuel → ncpageInit fuel h m = some start) ∧
      ∀ events s, Run Step ⟨start, []⟩ events s → Sound h s := by
  obtain ⟨start, hStart, hInit⟩ := ncpageInit_spec h m
  refine ⟨start, hInit, fun events s run => ?_⟩
  obtain ⟨nodes, hInv⟩ := run.invariant (fun s => ∃ nodes, Inv h s nodes) ⟨_, hStart⟩
    (fun _ _ _ hInv hStep => Step.inv hStep hInv)
  exact hInv.sound

end Kernel.Ncpage
