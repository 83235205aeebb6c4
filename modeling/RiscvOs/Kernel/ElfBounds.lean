import Mathlib.Order.Bounds.Basic
import RiscvOs.Kernel.ElfImage
import RiscvOs.Kernel.ProcessFree

/-! The bounds that the first loop of `elf_load` keeps, against the addresses
that its segments take, and the pages that the second loop writes to. -/
namespace Kernel

open Semantics Mmu

/-- The `PT_LOAD` headers of a file. -/
def loads (m : Memory) (elf : Word) : List Phdr :=
  (phdrs m elf).filter (·.pType = ptLoad)

/-- The end of a header is compared with `adr_end` when a header before it
starts at or below it. -/
def Raises (segments : List Phdr) (c : Phdr) : Prop :=
  ∃ before after, segments = before ++ c :: after ∧ ∃ q ∈ before, q.pVaddr ≤ c.pVaddr

/-- From the lowest start up to the highest of the first start and the ends
that are compared. -/
structure Extent (segments : List Phdr) (lo hi : Nat) : Prop where
  least : IsLeast {v | ∃ q ∈ segments, q.pVaddr.toNat = v} lo
  greatest : IsGreatest {e | (∃ first ∈ segments.head?, first.pVaddr.toNat = e) ∨
    ∃ c, Raises segments c ∧ c.pVaddr.toNat + c.pMemsz.toNat = e} hi

/-- The pages of the addresses from `lo` up to `hi`, as the `int` that
`cpage_znalloc` takes. -/
def imagePages (lo hi : Nat) : Int :=
  (BitVec.ofNat 32 ((hi + 4095) / 4096 - lo / 4096)).toInt

/-- The range of an executable contains its segments, the copies stay in the
pages of the image, and without an image the load fails and writes nothing. -/
def LoadsSafely (answer : Nat → Word) (w : World) (p : Process) (elf : Word) : Prop :=
  isExecutable w.mem elf = true → (addressRange w.mem elf).checkLoad = true →
    (∀ phdr ∈ loads w.mem elf, ∀ a, InRange phdr.pVaddr phdr.pMemsz.toNat a →
      (addressRange w.mem elf).adrStart ≤ a ∧ a < (addressRange w.mem elf).adrEnd) ∧
    (imageAddr answer w elf ≠ 0 → ∀ x, ¬ InImage answer w elf x →
      CopiesSpare x elf (elf + ePhoff w.mem elf) (imageAddr answer w elf)
        (addressRange w.mem elf).adrStart
        (cpageZnalloc answer (addressRange w.mem elf).numPages w).2.mem 0 (2 ^ 16)) ∧
    (imageAddr answer w elf = 0 →
      ∃ w', elfLoad answer w p elf = some (false, p, w') ∧ w'.mem = w.mem)

/-- Every segment that is not empty ends at or below the extent, and its copy
in the pages that are allocated for the extent. -/
def Inside (segments : List Phdr) (lo hi : Nat) : Prop :=
  ∀ phdr ∈ segments, phdr.pMemsz ≠ 0 → phdr.pVaddr.toNat + phdr.pMemsz.toNat ≤ hi ∧
    (phdr.pMemsz.toNat < 2 ^ 63 →
      phdr.pVaddr.toNat - lo + phdr.pMemsz.toNat ≤ 4096 * (imagePages lo hi).toNat)

section Extent

variable {segments : List Phdr} {c d : Phdr} {lo hi : Nat}

theorem raises_append_singleton : Raises (segments ++ [c]) d ↔
    Raises segments d ∨ d = c ∧ ∃ q ∈ segments, q.pVaddr ≤ c.pVaddr := by
  constructor
  · rintro ⟨before, after, hSplit, hEarlier⟩
    induction after using List.reverseRecOn with
    | nil =>
        obtain ⟨rfl, hLast⟩ := List.append_inj' hSplit rfl
        obtain rfl : c = d := by simpa using hLast
        exact .inr ⟨rfl, hEarlier⟩
    | append_singleton rest last _ =>
        rw [← List.cons_append, ← List.append_assoc] at hSplit
        obtain ⟨hInit, -⟩ := List.append_inj' hSplit rfl
        exact .inl ⟨before, rest, hInit, hEarlier⟩
  · rintro (⟨before, after, rfl, hEarlier⟩ | ⟨rfl, hEarlier⟩)
    · exact ⟨before, after ++ [c], by simp, hEarlier⟩
    · exact ⟨segments, [], rfl, hEarlier⟩

theorem not_raises_singleton : ¬ Raises [c] d := by
  intro h
  rcases (@raises_append_singleton [] c d).mp h with ⟨before, after, hSplit, -⟩ | ⟨-, q, hq, -⟩
  · simp at hSplit
  · cases hq

theorem extent_singleton : Extent [c] c.pVaddr.toNat c.pVaddr.toNat where
  least := by simp
  greatest := by simp [not_raises_singleton]

/-- What a range has to bound and to attain behind one more segment. -/
theorem Extent.append {lo' hi' : Nat} (h : Extent segments lo hi) (hLo : lo' ≤ lo)
    (hLoC : lo' ≤ c.pVaddr.toNat) (hLoEq : lo' = lo ∨ lo' = c.pVaddr.toNat) (hHi : hi ≤ hi')
    (hHiC : (∃ q ∈ segments, q.pVaddr ≤ c.pVaddr) → c.pVaddr.toNat + c.pMemsz.toNat ≤ hi')
    (hHiEq : hi' = hi ∨ (∃ q ∈ segments, q.pVaddr ≤ c.pVaddr) ∧
      hi' = c.pVaddr.toNat + c.pMemsz.toNat) : Extent (segments ++ [c]) lo' hi' := by
  obtain ⟨⟨q, hq, hqLeast⟩, hLower⟩ := h.least
  obtain ⟨hAttained, hUpper⟩ := h.greatest
  have hHead : (segments ++ [c]).head? = segments.head? := by
    cases segments with
    | nil => cases hq
    | cons first rest => rfl
  refine ⟨⟨?_, ?_⟩, ?_, ?_⟩
  · rcases hLoEq with hEq | hEq
    · exact ⟨q, List.mem_append_left _ hq, by omega⟩
    · exact ⟨c, by simp, hEq.symm⟩
  · rintro v ⟨s, hs, rfl⟩
    rcases List.mem_append.mp hs with hs | hs
    · exact hLo.trans (hLower ⟨s, hs, rfl⟩)
    · rwa [List.mem_singleton.mp hs]
  · rcases hHiEq with hEq | ⟨hRaises, hEq⟩
    · rcases hAttained with hFirst | ⟨d, hd, hdEnd⟩
      · exact .inl (by rwa [hHead, hEq])
      · exact .inr ⟨d, raises_append_singleton.mpr (.inl hd), by omega⟩
    · exact .inr ⟨c, raises_append_singleton.mpr (.inr ⟨rfl, hRaises⟩), hEq.symm⟩
  · rintro e (hFirst | ⟨d, hd, rfl⟩)
    · exact (hUpper (.inl (by rwa [hHead] at hFirst))).trans hHi
    · rcases raises_append_singleton.mp hd with hd | ⟨rfl, hRaises⟩
      · exact (hUpper (.inr ⟨d, hd, rfl⟩)).trans hHi
      · exact hHiC hRaises

/-- One iteration extends the range by one segment. -/
theorem Extent.add {r : AddressRange} (h : Extent segments r.adrStart.toNat r.adrEnd.toNat)
    (hCheck : r.checkLoad = true) (hLoad : c.pType = ptLoad)
    (hNoWrap : c.pVaddr.toNat + c.pMemsz.toNat < 2 ^ 64) :
    Extent (segments ++ [c]) (r.add c).adrStart.toNat (r.add c).adrEnd.toNat := by
  have hEnd : (c.pVaddr + c.pMemsz).toNat = c.pVaddr.toNat + c.pMemsz.toNat := by
    rw [BitVec.toNat_add, Nat.mod_eq_of_lt hNoWrap]
  rw [AddressRange.add, if_pos hLoad, hCheck]
  simp only [Bool.not_true, Bool.false_eq_true, ↓reduceIte]
  split
  next hBelow =>
    -- The start moves, and the end of this segment is not looked at.
    have hBelow : c.pVaddr.toNat < r.adrStart.toNat := hBelow
    refine h.append hBelow.le le_rfl (.inr rfl) le_rfl (fun hRaises => ?_) (.inl rfl)
    obtain ⟨s, hs, hle⟩ := hRaises
    have hLow := h.least.2 ⟨s, hs, rfl⟩
    have hle : s.pVaddr.toNat ≤ c.pVaddr.toNat := hle
    omega
  next hAbove =>
    have hAbove : r.adrStart.toNat ≤ c.pVaddr.toNat := BitVec.not_lt.mp hAbove
    have hRaises : ∃ q ∈ segments, q.pVaddr ≤ c.pVaddr := by
      obtain ⟨q, hq, hqLeast⟩ := h.least.1
      exact ⟨q, hq, show q.pVaddr.toNat ≤ c.pVaddr.toNat by omega⟩
    split
    next hMore =>
      have hMore : r.adrEnd.toNat < (c.pVaddr + c.pMemsz).toNat := hMore
      exact h.append le_rfl hAbove (.inl rfl) hMore.le (fun _ => hEnd.ge) (.inr ⟨hRaises, hEnd⟩)
    next hLess =>
      have hLess : (c.pVaddr + c.pMemsz).toNat ≤ r.adrEnd.toNat := BitVec.not_lt.mp hLess
      exact h.append le_rfl hAbove (.inl rfl) le_rfl (fun _ => hEnd ▸ hLess) (.inl rfl)

/-- The first loop finds the extent of the segments. -/
theorem extent_foldl {first : Phdr} {rest : List Phdr}
    (hLoads : ∀ phdr ∈ first :: rest, phdr.pType = ptLoad)
    (hNoWrap : ∀ phdr ∈ first :: rest, phdr.pVaddr.toNat + phdr.pMemsz.toNat < 2 ^ 64) :
    ((first :: rest).foldl AddressRange.add ⟨0, 0, false⟩).checkLoad = true ∧
      Extent (first :: rest) ((first :: rest).foldl AddressRange.add ⟨0, 0, false⟩).adrStart.toNat
        ((first :: rest).foldl AddressRange.add ⟨0, 0, false⟩).adrEnd.toNat := by
  induction rest using List.reverseRecOn with
  | nil =>
      have hFirst : [first].foldl AddressRange.add ⟨0, 0, false⟩ =
          ⟨first.pVaddr, first.pVaddr, true⟩ := if_pos (hLoads first (by simp))
      rw [hFirst]
      exact ⟨rfl, extent_singleton⟩
  | append_singleton rest c ih =>
      have hSub (phdr : Phdr) (hMem : phdr ∈ first :: rest) : phdr ∈ first :: (rest ++ [c]) := by
        rw [← List.cons_append]
        exact List.mem_append_left _ hMem
      obtain ⟨hCheck, hExtent⟩ := ih (fun phdr hMem => hLoads phdr (hSub phdr hMem))
        (fun phdr hMem => hNoWrap phdr (hSub phdr hMem))
      have hLoad := hLoads c (by simp)
      rw [← List.cons_append, List.foldl_append]
      exact ⟨(AddressRange.add_of_load hLoad).1, hExtent.add hCheck hLoad (hNoWrap c (by simp))⟩

theorem Extent.unique {lo' hi' : Nat} (h : Extent segments lo hi) (h' : Extent segments lo' hi') :
    lo' = lo ∧ hi' = hi :=
  ⟨h'.least.unique h.least, h'.greatest.unique h.greatest⟩

/-- The first start lies in the range. -/
theorem Extent.le (h : Extent segments lo hi) : lo ≤ hi := by
  obtain ⟨q, hq, -⟩ := h.least.1
  obtain ⟨first, hFirst⟩ : ∃ first, segments.head? = some first := by
    cases segments with
    | nil => cases hq
    | cons first rest => exact ⟨first, rfl⟩
  have hLow := h.least.2 ⟨first, List.mem_of_head? hFirst, rfl⟩
  have hHigh := h.greatest.2 (.inl ⟨first, hFirst, rfl⟩)
  exact hLow.trans hHigh

end Extent

section Range

variable {m : Memory} {elf : Word} {lo hi : Nat}

theorem mem_loads {phdr : Phdr} :
    phdr ∈ loads m elf ↔ phdr ∈ phdrs m elf ∧ phdr.pType = ptLoad := by
  simp [loads]

/-- The first loop skips the other headers. -/
theorem addressRange_eq :
    addressRange m elf = (loads m elf).foldl AddressRange.add ⟨0, 0, false⟩ := by
  have hSkip : AddressRange.add = fun r phdr => if decide (phdr.pType = ptLoad) then r.add phdr else r := by
    funext r phdr
    by_cases hLoad : phdr.pType = ptLoad
    · simp [hLoad]
    · simp [hLoad, AddressRange.add]
  rw [addressRange, loads, List.foldl_filter, ← hSkip]

theorem checkLoad_iff : (addressRange m elf).checkLoad = true ↔ loads m elf ≠ [] := by
  rw [addressRange_eq]
  constructor
  · rintro hCheck hNone
    rw [hNone] at hCheck
    cases hCheck
  · intro hSome
    obtain ⟨init, last, hSplit⟩ := (List.eq_nil_or_concat' _).resolve_left hSome
    have hLast : last ∈ loads m elf := by simp [hSplit]
    rw [hSplit, List.foldl_append]
    exact (AddressRange.add_of_load (mem_loads.mp hLast).2).1

/-- What the first loop finds in a file with segments. -/
theorem extent_addressRange (hSome : loads m elf ≠ [])
    (hNoWrap : ∀ phdr ∈ loads m elf, phdr.pVaddr.toNat + phdr.pMemsz.toNat < 2 ^ 64) :
    Extent (loads m elf) (addressRange m elf).adrStart.toNat (addressRange m elf).adrEnd.toNat := by
  rw [addressRange_eq]
  have hLoads : ∀ phdr ∈ loads m elf, phdr.pType = ptLoad := fun phdr hMem => (mem_loads.mp hMem).2
  generalize loads m elf = segments at *
  cases segments with
  | nil => exact absurd rfl hSome
  | cons first rest => exact (extent_foldl hLoads hNoWrap).2

/-- The alignment of a bound at the end of the address space wraps, which the
conversion to an `int` makes up for. -/
theorem AddressRange.numPages_eq {r : AddressRange} (h : r.adrStart.toNat ≤ r.adrEnd.toNat) :
    r.numPages = imagePages r.adrStart.toNat r.adrEnd.toNat := by
  have hUp : (alignUp r.adrEnd).toNat = (r.adrEnd.toNat + 4095) % 2 ^ 64 / 4096 * 4096 := by
    have hSum : r.adrEnd + 4096 - 1 = r.adrEnd + 4095 := by bv_omega
    have hMask : alignUp r.adrEnd = (r.adrEnd + 4095) &&& -4096#64 := by
      rw [alignUp, hSum]
    rw [hMask, toNat_and_neg_4096, BitVec.toNat_add]
    rfl
  have hDown : (alignDown r.adrStart).toNat = r.adrStart.toNat / 4096 * 4096 :=
    toNat_and_neg_4096 _
  have hPages : r.pages.toNat =
      (2 ^ 64 - (alignDown r.adrStart).toNat + (alignUp r.adrEnd).toNat) % 2 ^ 64 / 4096 := by
    rw [AddressRange.pages, BitVec.toNat_udiv, BitVec.toNat_sub]
    rfl
  have hHigh := r.adrEnd.isLt
  rw [AddressRange.numPages, imagePages]
  refine congrArg BitVec.toInt (BitVec.eq_of_toNat_eq ?_)
  rw [BitVec.toNat_setWidth, BitVec.toNat_ofNat, hPages, hUp, hDown]
  omega

end Range

section Copies

variable {image adrStart : Word}

/-- The copy of a segment lies in the image when it ends there. -/
theorem target_inside_iff {phdr : Phdr} {size : Nat} (hLoad : phdr.pType = ptLoad)
    (hLow : adrStart.toNat ≤ phdr.pVaddr.toNat)
    (hNoWrap : phdr.pVaddr.toNat + phdr.pMemsz.toNat < 2 ^ 64) :
    (∀ x, InTarget image adrStart phdr x → InRange image size x) ↔
      (phdr.pMemsz ≠ 0 → phdr.pMemsz.toNat < 2 ^ 63 →
        phdr.pVaddr.toNat - adrStart.toNat + phdr.pMemsz.toNat ≤ size) := by
  have hBase (k : Nat) (hk : k < phdr.pMemsz.toNat) :
      (image + phdr.pVaddr - adrStart + BitVec.ofNat 64 k - image).toNat =
        phdr.pVaddr.toNat - adrStart.toNat + k := by
    bv_omega
  constructor
  · intro h hSome hPositive
    have hPos : 0 < phdr.pMemsz.toNat := by bv_omega
    have hLast := h (image + phdr.pVaddr - adrStart + BitVec.ofNat 64 (phdr.pMemsz.toNat - 1))
      ⟨hLoad, by
        rw [copySize_of_lt hPositive]
        unfold InRange
        bv_omega⟩
    unfold InRange at hLast
    rw [hBase _ (by omega)] at hLast
    omega
  · rintro h x ⟨-, hIn⟩
    by_cases hPositive : phdr.pMemsz.toNat < 2 ^ 63
    · rw [copySize_of_lt hPositive] at hIn
      have hSome : phdr.pMemsz ≠ 0 := by
        rintro hNone
        rw [hNone] at hIn
        cases hIn
      have hFits := h hSome hPositive
      unfold InRange at hIn ⊢
      bv_omega
    · have hNone : copySize phdr.pMemsz = 0 := by
        rw [copySize, BitVec.toInt_eq_toNat_cond, if_neg (by omega)]
        have hLt := phdr.pMemsz.isLt
        omega
      rw [hNone] at hIn
      cases hIn

end Copies

section Load

variable {answer : Nat → Word} {w : World} {p : Process} {elf : Word} {length lo hi : Nat}

/-- The range contains a segment when it is empty or ends in it. -/
theorem contains_iff {r : AddressRange} {phdr : Phdr} (hLow : r.adrStart.toNat ≤ phdr.pVaddr.toNat)
    (hNoWrap : phdr.pVaddr.toNat + phdr.pMemsz.toNat < 2 ^ 64) :
    (∀ a, InRange phdr.pVaddr phdr.pMemsz.toNat a → r.adrStart ≤ a ∧ a < r.adrEnd) ↔
      (phdr.pMemsz ≠ 0 → phdr.pVaddr.toNat + phdr.pMemsz.toNat ≤ r.adrEnd.toNat) := by
  constructor
  · intro h hSome
    have hLast := (h (phdr.pVaddr + BitVec.ofNat 64 (phdr.pMemsz.toNat - 1)) (by
      unfold InRange
      bv_omega)).2
    bv_omega
  · intro h a ha
    have hSome : phdr.pMemsz ≠ 0 := by
      rintro hNone
      rw [hNone] at ha
      cases ha
    have hEnd := h hSome
    unfold InRange at ha
    constructor
    · bv_omega
    · bv_omega

/-- The image is allocated for the extent of the segments. -/
theorem imageAddr_ne_zero_iff (hExtent : Extent (loads w.mem elf) lo hi)
    (hRange : Extent (loads w.mem elf) (addressRange w.mem elf).adrStart.toNat
      (addressRange w.mem elf).adrEnd.toNat) :
    imageAddr answer w elf ≠ 0 ↔ 0 < imagePages lo hi ∧ answer w.calls ≠ 0 := by
  obtain ⟨hLo, hHi⟩ := hRange.unique hExtent
  rw [imageAddr, AddressRange.numPages_eq hRange.le, ← hLo, ← hHi, cpageZnalloc]
  split
  next hNone =>
    simp only [ne_eq, not_true_eq_false, false_iff]
    exact fun h => hNone.elim (fun hLe => absurd h.1 (not_lt.mpr hLe)) h.2
  next hSome =>
    obtain ⟨hPages, hAnswer⟩ := not_or.mp hSome
    exact ⟨fun _ => ⟨not_le.mp hPages, hAnswer⟩, fun _ => hAnswer⟩

/-- Behind its checks `elf_load` returns nothing but `true`. -/
theorem elfLoad_ne_false {p' : Process} {w' : World} (hExecutable : isExecutable w.mem elf = true)
    (hCheck : (addressRange w.mem elf).checkLoad = true) :
    elfLoad answer w p elf ≠ some (false, p', w') := by
  simp only [elfLoad, hExecutable, hCheck, Bool.not_true, Bool.false_eq_true, ↓reduceIte,
    Option.bind_eq_bind, ne_eq, Option.bind_eq_some_iff, not_exists, not_and]
  intro w'' _ hResult
  cases hResult

/-- The copies of the second loop stay in the image when those of the header
table do. -/
theorem copies_inside_iff (hFile : FileAt w.mem elf length)
    (hApart : ∀ x, InRange elf length x → ¬ InImage answer w elf x) :
    (∀ x, ¬ InImage answer w elf x →
      CopiesSpare x elf (elf + ePhoff w.mem elf) (imageAddr answer w elf)
        (addressRange w.mem elf).adrStart
        (cpageZnalloc answer (addressRange w.mem elf).numPages w).2.mem 0 (2 ^ 16)) ↔
      ∀ phdr ∈ loads w.mem elf, ∀ x,
        InTarget (imageAddr answer w elf) (addressRange w.mem elf).adrStart phdr x →
          InImage answer w elf x := by
  have hAgree : Memory.AgreeOn w.mem
      (cpageZnalloc answer (addressRange w.mem elf).numPages w).2.mem elf length :=
    fun x hx => cpageZnalloc_outside fun hSome hIn => hApart x hx ⟨hSome, hIn⟩
  have hCount := (ePhnum w.mem elf).isLt
  have hOutside : ∀ x, InRange elf length x → x ∉ {x | InImage answer w elf x} := hApart
  refine (copiesSpare_iff hFile hOutside hAgree (by omega)).trans ?_
  rw [List.drop_zero]
  exact ⟨fun h phdr hMem => h phdr (mem_loads.mp hMem).1, fun h phdr hMem x hIn =>
    h phdr (mem_loads.mpr ⟨hMem, hIn.1⟩) x hIn⟩

/-- A load is safe when its segments end in the extent that the first loop
keeps, and an image is allocated for all of it that the copies need. -/
theorem loadsSafely_iff (hFile : FileAt w.mem elf length)
    (hApart : ∀ x, InRange elf length x → ¬ InImage answer w elf x)
    (hNoWrap : ∀ phdr ∈ loads w.mem elf, phdr.pVaddr.toNat + phdr.pMemsz.toNat < 2 ^ 64) :
    LoadsSafely answer w p elf ↔
      (isExecutable w.mem elf = true → loads w.mem elf ≠ [] →
        ∃ lo hi, Extent (loads w.mem elf) lo hi ∧ 0 < imagePages lo hi ∧ answer w.calls ≠ 0 ∧
          Inside (loads w.mem elf) lo hi) := by
  unfold LoadsSafely
  rw [checkLoad_iff]
  refine imp_congr_right fun hExecutable => imp_congr_right fun hSome => ?_
  have hExtent := extent_addressRange hSome hNoWrap
  have hPages := AddressRange.numPages_eq hExtent.le
  have hLow (phdr : Phdr) (hMem : phdr ∈ loads w.mem elf) :
      (addressRange w.mem elf).adrStart.toNat ≤ phdr.pVaddr.toNat :=
    hExtent.least.2 ⟨phdr, hMem, rfl⟩
  have hContains (phdr : Phdr) (hMem : phdr ∈ loads w.mem elf) :=
    contains_iff (hLow phdr hMem) (hNoWrap phdr hMem)
  have hTarget (hImage : imageAddr answer w elf ≠ 0) (phdr : Phdr) (hMem : phdr ∈ loads w.mem elf) :
      (∀ x, InTarget (imageAddr answer w elf) (addressRange w.mem elf).adrStart phdr x →
        InImage answer w elf x) ↔
      (phdr.pMemsz ≠ 0 → phdr.pMemsz.toNat < 2 ^ 63 →
        phdr.pVaddr.toNat - (addressRange w.mem elf).adrStart.toNat + phdr.pMemsz.toNat ≤
          4096 * (addressRange w.mem elf).numPages.toNat) := by
    rw [← @target_inside_iff (imageAddr answer w elf) _ _ _ (mem_loads.mp hMem).2
      (hLow phdr hMem) (hNoWrap phdr hMem)]
    simp only [InImage, ne_eq, hImage, not_false_eq_true, true_and]
  rw [copies_inside_iff hFile hApart]
  constructor
  · rintro ⟨hRange, hCopies, hNull⟩
    have hImage : imageAddr answer w elf ≠ 0 := by
      intro hNone
      obtain ⟨w', hFalse, -⟩ := hNull hNone
      exact elfLoad_ne_false hExecutable (checkLoad_iff.mpr hSome) hFalse
    obtain ⟨hPositive, hAnswer⟩ := (imageAddr_ne_zero_iff hExtent hExtent).mp hImage
    refine ⟨_, _, hExtent, hPositive, hAnswer, fun phdr hMem hSize => ⟨?_, ?_⟩⟩
    · exact (hContains phdr hMem).mp (hRange phdr hMem) hSize
    · have hFits := (hTarget hImage phdr hMem).mp (hCopies hImage phdr hMem) hSize
      rwa [hPages] at hFits
  · rintro ⟨lo, hi, hBounds, hPositive, hAnswer, hInside⟩
    obtain ⟨rfl, rfl⟩ := hBounds.unique hExtent
    have hImage := (imageAddr_ne_zero_iff hExtent hExtent).mpr ⟨hPositive, hAnswer⟩
    refine ⟨fun phdr hMem => ?_, fun _ phdr hMem => ?_, fun hNone => absurd hNone hImage⟩
    · exact (hContains phdr hMem).mpr fun hSize => (hInside phdr hMem hSize).1
    · refine (hTarget hImage phdr hMem).mpr fun hSize => ?_
      rw [hPages]
      exact (hInside phdr hMem hSize).2

end Load

section TwoSegments

theorem phdrs_twoSegments : phdrs (twoSegments 0x400000) 0x80070000 =
    [⟨1, 0x100, 0x400000, 16, 4096⟩, ⟨1, 0x1100, 0x401000, 16, 4096⟩] := by
  decide +kernel

theorem loads_twoSegments : loads (twoSegments 0x400000) 0x80070000 =
    [⟨1, 0x100, 0x400000, 16, 4096⟩, ⟨1, 0x1100, 0x401000, 16, 4096⟩] := by
  rw [loads, phdrs_twoSegments]
  decide

theorem addressRange_twoSegments : addressRange (twoSegments 0x400000) 0x80070000 =
    ⟨0x400000, 0x402000, true⟩ := by
  rw [addressRange, phdrs_twoSegments]
  decide

theorem extent_twoSegments :
    Extent (loads (twoSegments 0x400000) 0x80070000) 0x400000 0x402000 := by
  have hBounds := extent_addressRange (m := twoSegments 0x400000) (by rw [loads_twoSegments]; simp) (by
    rw [loads_twoSegments]
    decide)
  rwa [addressRange_twoSegments] at hBounds

theorem inside_twoSegments :
    Inside (loads (twoSegments 0x400000) 0x80070000) 0x400000 0x402000 := by
  rw [loads_twoSegments]
  unfold Inside
  decide

theorem loadsSafely_twoSegments :
    LoadsSafely imageThenTables ⟨twoSegments 0x400000, 0⟩ emptyProcess 0x80070000 := by
  have hFile : FileAt (twoSegments 0x400000) 0x80070000 0x3000 :=
    ⟨by decide, by decide +kernel, by decide⟩
  have hNoWrap : ∀ phdr ∈ loads (twoSegments 0x400000) 0x80070000,
      phdr.pVaddr.toNat + phdr.pMemsz.toNat < 2 ^ 64 := by
    rw [loads_twoSegments]
    decide
  have hApart (x : Word) (hx : InRange 0x80070000 0x3000 x) :
      ¬ InImage imageThenTables ⟨twoSegments 0x400000, 0⟩ 0x80070000 x := by
    intro hIn
    have hBounds := inImage_twoSegments addressRange_twoSegments (by decide) hIn
    unfold InRange at hx
    bv_omega
  exact (loadsSafely_iff hFile hApart hNoWrap).mpr fun _ _ =>
    ⟨0x400000, 0x402000, extent_twoSegments, by decide, by decide, inside_twoSegments⟩

end TwoSegments

/-- With one segment the range stays empty. -/
theorem not_loadsSafely_smallElf : FileAt smallElf 0x80059000 4096 ∧
    (∀ phdr ∈ loads smallElf 0x80059000, phdr.pVaddr.toNat + phdr.pMemsz.toNat < 2 ^ 64) ∧
    ¬ LoadsSafely nextPage ⟨smallElf, 0⟩ Process.zero 0x80059000 := by
  have hPhdrs : phdrs smallElf 0x80059000 = [⟨1, 0, 0x400000, 16, 16⟩] := by
    decide +kernel
  have hLoads : loads smallElf 0x80059000 = [⟨1, 0, 0x400000, 16, 16⟩] := by
    rw [loads, hPhdrs]
    decide
  have hRange : addressRange smallElf 0x80059000 = ⟨0x400000, 0x400000, true⟩ := by
    rw [addressRange, hPhdrs]
    decide
  refine ⟨⟨by decide, by decide +kernel, by decide⟩, ?_, ?_⟩
  · rw [hLoads]
    decide
  · intro h
    have hExecutable : isExecutable smallElf 0x80059000 = true := by decide +kernel
    have hCheck : (addressRange smallElf 0x80059000).checkLoad = true := by rw [hRange]
    have hContains := (h hExecutable hCheck).1 ⟨1, 0, 0x400000, 16, 16⟩
      (by rw [show loads (⟨smallElf, 0⟩ : World).mem 0x80059000 = _ from hLoads]; simp)
      0x400000 (by unfold InRange; decide)
    rw [show addressRange (⟨smallElf, 0⟩ : World).mem 0x80059000 = _ from hRange] at hContains
    exact absurd hContains.2 (by decide)

end Kernel
