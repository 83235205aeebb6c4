import RiscvOs.Kernel.Isolation

/-! What a loaded process finds at the addresses of its segments. The image is
copied to `p->image`, and the pages of its addresses are mapped to the physical
pages behind the last of them; the two agree when the image happens to lie
there. -/
namespace Kernel

open Semantics Radix Mmu

/-- A file whose segments lie in the file, end in the address space and do not
overlap. -/
structure WellFormed (m : Memory) (elf : Word) (length : Nat) : Prop extends
    FileAt m elf length where
  inside : ∀ phdr ∈ phdrs m elf, phdr.pType = ptLoad →
    phdr.pOffset.toNat + phdr.pFilesz.toNat ≤ length
  noWrap : ∀ phdr ∈ phdrs m elf, phdr.pType = ptLoad →
    phdr.pVaddr.toNat + phdr.pMemsz.toNat ≤ 2 ^ 64
  filesz_le : ∀ phdr ∈ phdrs m elf, phdr.pType = ptLoad →
    phdr.pFilesz.toNat ≤ phdr.pMemsz.toNat
  disjoint : (phdrs m elf).Pairwise fun a b => a.pType = ptLoad → b.pType = ptLoad →
    a.pVaddr.toNat + a.pMemsz.toNat ≤ b.pVaddr.toNat ∨
      b.pVaddr.toNat + b.pMemsz.toNat ≤ a.pVaddr.toNat

/-- The bytes of a segment are those of the file, and zero behind them. -/
def SegmentLoaded (m m' : Memory) (elf table : Word) (phdr : Phdr) : Prop :=
  (∀ k < phdr.pFilesz.toNat, m' (mmuTranslate m' table (phdr.pVaddr + BitVec.ofNat 64 k)) =
    m (elf + phdr.pOffset + BitVec.ofNat 64 k)) ∧
  ∀ k, phdr.pFilesz.toNat ≤ k → k < phdr.pMemsz.toNat →
    m' (mmuTranslate m' table (phdr.pVaddr + BitVec.ofNat 64 k)) = 0

/-- Every segment is loaded and the process starts at the entry point. -/
def Loaded (m m' : Memory) (elf : Word) (p : Process) : Prop :=
  p.frame.sepc = eEntry m elf ∧
    ∀ phdr ∈ phdrs m elf, phdr.pType = ptLoad → SegmentLoaded m m' elf p.ptable phdr

/-- The image lies where its addresses are mapped to, its pages hold every
segment, and the file is zero behind the file bytes of a segment. -/
structure InPlace (m : Memory) (elf : Word) (length : Nat) (image : Word) : Prop where
  allocated : image ≠ 0
  pages : (addressRange m elf).pages.toNat = (addressRange m elf).numPages.toNat
  image : image.toNat = (addressRange m elf).adrStart.toNat +
    4096 * (addressRange m elf).pages.toNat
  fits : ∀ phdr ∈ phdrs m elf, phdr.pType = ptLoad →
    phdr.pVaddr.toNat + phdr.pMemsz.toNat ≤
      (addressRange m elf).adrStart.toNat + 4096 * (addressRange m elf).pages.toNat
  tail : ∀ phdr ∈ phdrs m elf, phdr.pType = ptLoad →
    phdr.pOffset.toNat + phdr.pMemsz.toNat ≤ length ∧
      ∀ k, phdr.pFilesz.toNat ≤ k → k < phdr.pMemsz.toNat →
        m (elf + phdr.pOffset + BitVec.ofNat 64 k) = 0

section Range

theorem AddressRange.add_of_load {r : AddressRange} {phdr : Phdr} (hLoad : phdr.pType = ptLoad) :
    (r.add phdr).checkLoad = true ∧ (r.add phdr).adrStart ≤ phdr.pVaddr ∧
      (r.checkLoad = true → (r.add phdr).adrStart ≤ r.adrStart) := by
  unfold AddressRange.add
  rw [if_pos hLoad]
  cases hCheck : r.checkLoad with
  | false => simp
  | true =>
      simp only [Bool.not_true, Bool.false_eq_true, ↓reduceIte, forall_const]
      split
      next hLess => exact ⟨rfl, BitVec.le_refl _, BitVec.le_of_lt hLess⟩
      next hNot =>
        have hLe : r.adrStart ≤ phdr.pVaddr := BitVec.not_lt.mp hNot
        split
        · exact ⟨rfl, hLe, BitVec.le_refl _⟩
        · exact ⟨hCheck, hLe, BitVec.le_refl _⟩

theorem AddressRange.foldl_add_le {r : AddressRange} (hCheck : r.checkLoad = true)
    (segments : List Phdr) : (segments.foldl AddressRange.add r).adrStart ≤ r.adrStart := by
  induction segments generalizing r with
  | nil => exact BitVec.le_refl _
  | cons phdr rest ih =>
      rw [List.foldl_cons]
      by_cases hLoad : phdr.pType = ptLoad
      · obtain ⟨hNext, -, hLe⟩ := AddressRange.add_of_load (r := r) hLoad
        exact BitVec.le_trans (ih hNext) (hLe hCheck)
      · have hSame : r.add phdr = r := if_neg hLoad
        rw [hSame]
        exact ih hCheck

/-- The start of the range is at or below every segment. -/
theorem adrStart_le {m : Memory} {elf : Word} {phdr : Phdr} (hMem : phdr ∈ phdrs m elf)
    (hLoad : phdr.pType = ptLoad) : (addressRange m elf).adrStart.toNat ≤ phdr.pVaddr.toNat := by
  unfold addressRange
  generalize (⟨0, 0, false⟩ : AddressRange) = r
  generalize phdrs m elf = segments at hMem ⊢
  induction segments generalizing r with
  | nil => cases hMem
  | cons first rest ih =>
      rw [List.foldl_cons]
      rcases List.mem_cons.mp hMem with rfl | hMem
      · obtain ⟨hNext, hLe, -⟩ := AddressRange.add_of_load (r := r) hLoad
        exact BitVec.le_trans (AddressRange.foldl_add_le hNext rest) hLe
      · exact ih _ hMem

end Range

section InPlace

variable {answer : Nat → Word} {w w' : World} {p p' : Process} {elf image : Word} {m : Memory}
  {length : Nat} {owned : Set Word}

/-- The image of a segment ends below 4 GiB. -/
theorem InPlace.segment_lt (h : InPlace m elf length image)
    (hRam : InRam image (addressRange m elf).numPages.toNat) {phdr : Phdr}
    (hMem : phdr ∈ phdrs m elf) (hLoad : phdr.pType = ptLoad) :
    image.toNat + (phdr.pVaddr.toNat - (addressRange m elf).adrStart.toNat) +
      phdr.pMemsz.toNat < 2 ^ 32 := by
  have hLow := adrStart_le hMem hLoad
  have hHigh := h.fits phdr hMem hLoad
  have hPages := h.pages
  have hTop := hRam.2
  unfold ramEnd ramStart at hTop
  omega

/-- The byte of the image that stands for byte `k` of a segment. -/
theorem InPlace.target_toNat (h : InPlace m elf length image)
    (hRam : InRam image (addressRange m elf).numPages.toNat) {phdr : Phdr}
    (hMem : phdr ∈ phdrs m elf) (hLoad : phdr.pType = ptLoad) {k : Nat}
    (hk : k ≤ phdr.pMemsz.toNat) :
    (image + phdr.pVaddr - (addressRange m elf).adrStart + BitVec.ofNat 64 k).toNat =
      image.toNat + (phdr.pVaddr.toNat - (addressRange m elf).adrStart.toNat) + k := by
  have hLow := adrStart_le hMem hLoad
  have hEnd := h.segment_lt hRam hMem hLoad
  have hSplit : image + phdr.pVaddr - (addressRange m elf).adrStart =
      image + (phdr.pVaddr - (addressRange m elf).adrStart) := by
    rw [BitVec.sub_eq_add_neg, BitVec.sub_eq_add_neg, BitVec.add_assoc]
  have hDistance : (phdr.pVaddr - (addressRange m elf).adrStart).toNat =
      phdr.pVaddr.toNat - (addressRange m elf).adrStart.toNat := BitVec.toNat_sub_of_le hLow
  rw [hSplit, BitVec.toNat_add, BitVec.toNat_add, hDistance, BitVec.toNat_ofNat]
  omega

theorem InPlace.copySize_eq (h : InPlace m elf length image)
    (hRam : InRam image (addressRange m elf).numPages.toNat) {phdr : Phdr}
    (hMem : phdr ∈ phdrs m elf) (hLoad : phdr.pType = ptLoad) :
    copySize phdr.pMemsz = phdr.pMemsz.toNat := by
  have hEnd := h.segment_lt hRam hMem hLoad
  exact copySize_of_lt (by omega)

/-- The bytes that a copy writes to, by their distance from the image. -/
theorem InPlace.inTarget_iff (h : InPlace m elf length image)
    (hRam : InRam image (addressRange m elf).numPages.toNat) {phdr : Phdr}
    (hMem : phdr ∈ phdrs m elf) {x : Word} :
    InTarget image (addressRange m elf).adrStart phdr x ↔ phdr.pType = ptLoad ∧
      image.toNat + (phdr.pVaddr.toNat - (addressRange m elf).adrStart.toNat) ≤ x.toNat ∧
      x.toNat < image.toNat + (phdr.pVaddr.toNat - (addressRange m elf).adrStart.toNat) +
        phdr.pMemsz.toNat := by
  refine and_congr_right fun hLoad => ?_
  have hBase : (image + phdr.pVaddr - (addressRange m elf).adrStart).toNat =
      image.toNat + (phdr.pVaddr.toNat - (addressRange m elf).adrStart.toNat) := by
    simpa using h.target_toNat hRam hMem hLoad (Nat.zero_le _)
  have hEnd := h.segment_lt hRam hMem hLoad
  rw [h.copySize_eq hRam hMem hLoad, inRange_iff_toNat (by omega), hBase]

/-- The pages of the image are apart from the file and from the tables, old
and new. -/
structure FreshImage (answer : Nat → Word) (w : World) (elf : Word) (length : Nat)
    (owned : Set Word) (hi : Nat) : Prop where
  aligned : (imageAddr answer w elf).toNat % 4096 = 0
  ram : imageAddr answer w elf ≠ 0 →
    InRam (imageAddr answer w elf) (addressRange w.mem elf).numPages.toNat
  image_file : ∀ x, InRange elf length x → ¬ InImage answer w elf x
  image_tables : ∀ t ∈ grow answer owned (w.calls + 1) hi, ∀ x, InRange t 4096 x →
    ¬ InImage answer w elf x
  tables : FreshTables answer owned (w.calls + 1) hi

variable {hi : Nat}

/-- No copy leaves the pages of the image. -/
theorem FreshImage.copies_inside (hFresh : FreshImage answer w elf length owned hi)
    (h : InPlace w.mem elf length (imageAddr answer w elf)) {x : Word}
    (hx : InCopies answer w elf x) : InImage answer w elf x := by
  obtain ⟨phdr, hMem, hTarget⟩ := hx
  have hRam := hFresh.ram h.allocated
  obtain ⟨hLoad, hLow, hHigh⟩ := (h.inTarget_iff hRam hMem).mp hTarget
  have hStart := adrStart_le hMem hLoad
  have hEnd := h.fits phdr hMem hLoad
  have hPages := h.pages
  have hTop := hRam.2
  unfold ramEnd ramStart at hTop
  exact ⟨h.allocated, (inRange_iff_toNat (by omega)).mpr (by omega)⟩

theorem FreshImage.freshLoad (hFresh : FreshImage answer w elf length owned hi)
    (hFile : FileAt w.mem elf length) (h : InPlace w.mem elf length (imageAddr answer w elf)) :
    FreshLoad answer w elf length owned hi where
  file := hFile
  image_file := hFresh.image_file
  image_tables := fun t ht => hFresh.image_tables t (subset_grow _ _ _ ht)
  copies_file := fun x hx hIn => hFresh.image_file x hx (hFresh.copies_inside h hIn)
  copies_tables := fun t ht x hx hIn =>
    hFresh.image_tables t (subset_grow _ _ _ ht) x hx (hFresh.copies_inside h hIn)
  tables := hFresh.tables

/-- The image holds each segment behind the copies. -/
theorem FreshImage.copied_segment (hFresh : FreshImage answer w elf length owned hi)
    (hFile : WellFormed w.mem elf length) (h : InPlace w.mem elf length (imageAddr answer w elf))
    {phdr : Phdr} (hMem : phdr ∈ phdrs w.mem elf) (hLoad : phdr.pType = ptLoad) {k : Nat}
    (hk : k < phdr.pMemsz.toNat) :
    (copied answer w elf).mem (imageAddr answer w elf + phdr.pVaddr -
        (addressRange w.mem elf).adrStart + BitVec.ofNat 64 k) =
      w.mem (elf + phdr.pOffset + BitVec.ofNat 64 k) := by
  have hRam := hFresh.ram h.allocated
  have hSize := h.copySize_eq hRam hMem hLoad
  have hTail := (h.tail phdr hMem hLoad).1
  have hSource {y : Word} (hy : InRange (elf + phdr.pOffset) phdr.pMemsz.toNat y) :
      ¬ InImage answer w elf y := by
    refine hFresh.image_file y (InRange.part (i := phdr.pOffset.toNat) ?_ hTail hFile.fits)
    rwa [BitVec.ofNat_toNat, BitVec.setWidth_eq]
  rw [(hFresh.freshLoad hFile.toFileAt h).copied_mem,
    copyAll_inside hMem hLoad ?_ ?_ (by rwa [hSize])]
  · refine cpageZnalloc_outside fun hSome hIn => hSource ?_ ⟨hSome, hIn⟩
    have hOffset := phdr.pMemsz.isLt
    unfold InRange
    bv_omega
  · refine hFile.disjoint.imp_of_mem fun {a b} ha hb hApart y hy hy' => ?_
    obtain ⟨hLoadA, hLowA, hHighA⟩ := (h.inTarget_iff hRam ha).mp hy
    obtain ⟨hLoadB, hLowB, hHighB⟩ := (h.inTarget_iff hRam hb).mp hy'
    have hStartA := adrStart_le ha hLoadA
    have hStartB := adrStart_le hb hLoadB
    rcases hApart hLoadA hLoadB with hBefore | hBehind
    · omega
    · omega
  · intro q hq y hy hTarget
    rw [hSize] at hy
    exact hSource hy (hFresh.copies_inside h ⟨q, hq, hTarget⟩)

/-- A translated address from its page and its offset in that. -/
theorem eq_of_page {page start base d : Nat} (hBase : base % 4096 = 0) (hStart : start % 4096 = 0)
    (hDiv : page / 4096 = (base + 4096 * (d / 4096)) / 4096)
    (hMod : page % 4096 = (start + d) % 4096) : page = base + d := by
  omega

/-- The addresses of a segment lead to its bytes in the image. -/
theorem FreshImage.translate_segment (hFresh : FreshImage answer w elf length owned w'.calls)
    (hFile : WellFormed w.mem elf length) (h : InPlace w.mem elf length (imageAddr answer w elf))
    (hLoaded : elfLoad answer w p elf = some (true, p', w'))
    (hLayout : Layout w.mem p.ptable owned) {phdr : Phdr} (hMem : phdr ∈ phdrs w.mem elf)
    (hLoad : phdr.pType = ptLoad) {k : Nat} (hk : k < phdr.pMemsz.toNat) :
    mmuTranslate w'.mem p.ptable (phdr.pVaddr + BitVec.ofNat 64 k) =
      imageAddr answer w elf + phdr.pVaddr - (addressRange w.mem elf).adrStart +
        BitVec.ofNat 64 k := by
  have hRam := hFresh.ram h.allocated
  obtain ⟨hLayout', hFind, -⟩ := elfLoad_spec hLoaded hLayout (hFresh.freshLoad hFile.toFileAt h)
  obtain ⟨-, hFewer⟩ := pageCount_of_inRam hRam
  have hTarget := h.target_toNat hRam hMem hLoad hk.le
  have hStart := adrStart_le hMem hLoad
  have hEnd := h.fits phdr hMem hLoad
  have hPages := h.pages
  have hImage := h.image
  have hAligned := hFresh.aligned
  have hWrap := hFile.noWrap phdr hMem hLoad
  have hTop := hRam.2
  unfold ramEnd ramStart at hTop
  -- the distance of the address from the start of the image
  obtain ⟨d, hd⟩ := Nat.exists_eq_add_of_le (hStart.trans (Nat.le_add_right _ k))
  have hAddr : (phdr.pVaddr + BitVec.ofNat 64 k).toNat =
      (addressRange w.mem elf).adrStart.toNat + d := by
    rw [BitVec.toNat_add, BitVec.toNat_ofNat]
    omega
  have hSum : (imageAddr answer w elf).toNat + (phdr.pVaddr.toNat -
      (addressRange w.mem elf).adrStart.toNat) + k = (imageAddr answer w elf).toNat + d := by
    omega
  let i := d / 4096
  have hi : i < (addressRange w.mem elf).pages.toNat := by
    simp only [i]
    omega
  have hCount : i < pageCount (imageAddr answer w elf) := by
    unfold pageCount
    omega
  have hPhysical : ((imageAddr answer w elf).toNat + 4096 * i) / 4096 < 2 ^ 44 := by omega
  have hPage : vpn27 ((addressRange w.mem elf).adrStart + BitVec.ofNat 64 (4096 * i)) =
      vpn27 (phdr.pVaddr + BitVec.ofNat 64 k) := by
    apply BitVec.eq_of_toNat_eq
    rw [toNat_vpn27, toNat_vpn27, hAddr, BitVec.toNat_add, BitVec.toNat_ofNat]
    simp only [i]
    omega
  have hLeaf : find (cells w'.mem) p.ptable (indices (phdr.pVaddr + BitVec.ofNat 64 k) 3) =
      some (leafEntry ((addressRange w.mem elf).adrStart + (addressRange w.mem elf).pages * 4096 +
        BitVec.ofNat 64 (4096 * i)) imageBits) := by
    rw [hFind, imageMaps, lastMapping_rangeMaps hFewer hCount hPage]
    rfl
  have hPhys : ((addressRange w.mem elf).adrStart + (addressRange w.mem elf).pages * 4096 +
      BitVec.ofNat 64 (4096 * i)).toNat = (imageAddr answer w elf).toNat + 4096 * i := by
    rw [BitVec.toNat_add, BitVec.toNat_add, BitVec.toNat_mul, BitVec.toNat_ofNat,
      show (4096 : Word).toNat = 4096 from rfl]
    omega
  rw [mmuTranslate_of_leaf hLayout' hLeaf (by decide)]
  apply BitVec.eq_of_toNat_eq
  have hDiv := toNat_pageAddr_div ((addressRange w.mem elf).adrStart +
    (addressRange w.mem elf).pages * 4096 + BitVec.ofNat 64 (4096 * i))
    (phdr.pVaddr + BitVec.ofNat 64 k)
  have hMod := toNat_pageAddr_mod ((addressRange w.mem elf).adrStart +
    (addressRange w.mem elf).pages * 4096 + BitVec.ofNat 64 (4096 * i))
    (phdr.pVaddr + BitVec.ofNat 64 k)
  rw [hPhys] at hDiv
  rw [hAddr] at hMod
  rw [Nat.mod_eq_of_lt hPhysical] at hDiv
  rw [hTarget, hSum]
  exact eq_of_page hAligned (by omega) hDiv hMod

/-- A load whose image lies where its addresses are mapped to gives every
segment its bytes. -/
theorem loaded_of_inPlace (hFile : WellFormed w.mem elf length)
    (hLoaded : elfLoad answer w p elf = some (true, p', w'))
    (hLayout : Layout w.mem p.ptable owned)
    (hFresh : FreshImage answer w elf length owned w'.calls)
    (h : InPlace w.mem elf length (imageAddr answer w elf)) : Loaded w.mem w'.mem elf p' := by
  obtain ⟨-, -, hFrame⟩ := elfLoad_spec hLoaded hLayout (hFresh.freshLoad hFile.toFileAt h)
  have hProcess := (elfLoad_some hLoaded).1
  have hByte {phdr : Phdr} (hMem : phdr ∈ phdrs w.mem elf) (hLoad : phdr.pType = ptLoad) {k : Nat}
      (hk : k < phdr.pMemsz.toNat) :
      w'.mem (mmuTranslate w'.mem p.ptable (phdr.pVaddr + BitVec.ofNat 64 k)) =
        w.mem (elf + phdr.pOffset + BitVec.ofNat 64 k) := by
    have hRam := hFresh.ram h.allocated
    have hInside : InImage answer w elf (imageAddr answer w elf + phdr.pVaddr -
        (addressRange w.mem elf).adrStart + BitVec.ofNat 64 k) := by
      refine hFresh.copies_inside h ⟨phdr, hMem, (h.inTarget_iff hRam hMem).mpr ⟨hLoad, ?_⟩⟩
      rw [h.target_toNat hRam hMem hLoad hk.le]
      omega
    rw [hFresh.translate_segment hFile h hLoaded hLayout hMem hLoad hk,
      hFrame _ fun t ht hIn => hFresh.image_tables t ht _ hIn hInside]
    exact hFresh.copied_segment hFile h hMem hLoad hk
  rw [hProcess]
  refine ⟨rfl, fun phdr hMem hLoad => ⟨fun k hk => ?_, fun k hk hk' => ?_⟩⟩
  · exact hByte hMem hLoad (hk.trans_le (hFile.filesz_le phdr hMem hLoad))
  · rw [hByte hMem hLoad hk']
    exact (h.tail phdr hMem hLoad).2 k hk hk'

end InPlace

section TwoSegments

/-- An executable at 0x80070000 with two segments of a page each, the first of
them at the given address. -/
def twoSegments (vaddr : Word) : Memory :=
  let elf : Word := 0x80070000
  let m : Memory := fun _ => 0
  let m := (((m.store elf 0x7f).store (elf + 1) 0x45).store (elf + 2) 0x4c).store (elf + 3) 0x46
  let m := ((m.store (elf + 16) 2).store (elf + 18) 243).store (elf + 56) 2
  let m := ((m.store64 (elf + 32) 64).store (elf + 64) 1).store (elf + 120) 1
  let m := ((m.store64 (elf + 72) 0x100).store64 (elf + 80) vaddr).store64 (elf + 96) 16
  let m := ((m.store64 (elf + 104) 4096).store64 (elf + 128) 0x1100).store64 (elf + 136)
    (vaddr + 4096)
  ((m.store64 (elf + 152) 16).store64 (elf + 160) 4096).store (elf + 0x100) 0xaa

/-- The image at 0x80402000 and page tables from 0x80501000 on. -/
def imageThenTables (k : Nat) : Word :=
  if k = 0 then 0x80402000 else 0x80500000 + BitVec.ofNat 64 (4096 * k)

theorem twoSegments_outside (vaddr : Word) {x : Word} (hx : ¬ InRange 0x80070000 257 x) :
    twoSegments vaddr x = 0 := by
  have hFirst (m : Memory) (value : Byte) : m.store 0x80070000 value x = m x :=
    m.store_outside (k := 0) value hx (by decide)
  have hByte (m : Memory) (k : Word) (value : Byte) (hk : k.toNat < 257) :
      m.store (0x80070000 + k) value x = m x := m.store_outside value hx hk
  have hWord (m : Memory) (k value : Word) (hk : k.toNat + 8 ≤ 257) :
      m.store64 (0x80070000 + k) value x = m x := m.store64_outside value hx hk
  simp (disch := decide) only [twoSegments, hByte, hWord, hFirst]

theorem imageThenTables_toNat {k : Nat} (hk : 1 ≤ k) (hk' : k ≤ 2 ^ 48) :
    (imageThenTables k).toNat = 0x80500000 + 4096 * k := by
  rw [imageThenTables, if_neg (by omega), BitVec.toNat_add, BitVec.toNat_ofNat]
  simp
  omega

theorem freshTables_imageThenTables : FreshTables imageThenTables {0x804ff000} 1 (2 ^ 48) := by
  have hConsecutive : FreshTables (fun k => 0x80500000 + BitVec.ofNat 64 (4096 * k))
      {0x804ff000} 0 (2 ^ 48) :=
    freshTables_consecutive (by decide) (by decide) (by decide) (by
      rintro t rfl
      unfold Apart
      decide)
  exact ((hConsecutive.after (by decide)).subset (subset_grow _ 0 1)).congr
    fun k hk _ => if_neg (by omega)

/-- A process with an empty page table. -/
def emptyProcess : Process :=
  { Process.zero with ptable := 0x804ff000 }

theorem layout_emptyProcess (vaddr : Word) :
    Layout (twoSegments vaddr) emptyProcess.ptable {0x804ff000} :=
  (layout_of_zero fun x hx => twoSegments_outside vaddr (by
    change InRange 0x804ff000 4096 x at hx
    unfold InRange at hx ⊢
    bv_omega)).1

theorem imageAddr_twoSegments {vaddr : Word}
    (hRange : addressRange (twoSegments vaddr) 0x80070000 = ⟨vaddr, vaddr + 8192, true⟩)
    (hPages : (⟨vaddr, vaddr + 8192, true⟩ : AddressRange).numPages = 2) :
    imageAddr imageThenTables ⟨twoSegments vaddr, 0⟩ 0x80070000 = 0x80402000 := by
  rw [imageAddr, hRange, hPages]
  rfl

/-- The number of pages that the maps take is bounded by the physical address
of the image. -/
theorem twoSegments_calls {vaddr : Word} {p' : Process} {w' : World}
    (hAddr : imageAddr imageThenTables ⟨twoSegments vaddr, 0⟩ 0x80070000 = 0x80402000)
    (hLoad : elfLoad imageThenTables ⟨twoSegments vaddr, 0⟩ emptyProcess 0x80070000 =
      some (true, p', w')) : w'.calls ≤ 2 ^ 48 := by
  obtain ⟨-, hMaps⟩ := elfLoad_some hLoad
  have hBound := @mapAll_calls_bound imageThenTables emptyProcess.ptable
    (copied imageThenTables ⟨twoSegments vaddr, 0⟩ 0x80070000)
    (imageMaps (twoSegments vaddr) 0x80070000 0x80402000)
  have hStart : (copied imageThenTables ⟨twoSegments vaddr, 0⟩ 0x80070000).calls = 1 :=
    cpageZnalloc_calls _ _ _
  have hLength : (imageMaps (twoSegments vaddr) 0x80070000 0x80402000).length = 0x80402 := by
    rw [imageMaps, rangeMaps, List.length_map, List.length_range]
    decide
  rw [hMaps, hAddr]
  refine hBound.trans ?_
  rw [hStart, hLength]
  decide

theorem inImage_twoSegments {vaddr x : Word}
    (hRange : addressRange (twoSegments vaddr) 0x80070000 = ⟨vaddr, vaddr + 8192, true⟩)
    (hPages : (⟨vaddr, vaddr + 8192, true⟩ : AddressRange).numPages = 2)
    (hx : InImage imageThenTables ⟨twoSegments vaddr, 0⟩ 0x80070000 x) :
    0x80402000 ≤ x.toNat ∧ x.toNat < 0x80404000 := by
  have hIn := hx.2
  rw [imageAddr_twoSegments hRange hPages, hRange, hPages] at hIn
  exact (inRange_iff_toNat (by decide)).mp hIn

/-- Both segments are copied into the two pages of the image. -/
theorem inCopies_twoSegments {vaddr x : Word}
    (hPhdrs : phdrs (twoSegments vaddr) 0x80070000 =
      [⟨1, 0x100, vaddr, 16, 4096⟩, ⟨1, 0x1100, vaddr + 4096, 16, 4096⟩])
    (hRange : addressRange (twoSegments vaddr) 0x80070000 = ⟨vaddr, vaddr + 8192, true⟩)
    (hPages : (⟨vaddr, vaddr + 8192, true⟩ : AddressRange).numPages = 2)
    (hx : InCopies imageThenTables ⟨twoSegments vaddr, 0⟩ 0x80070000 x) :
    0x80402000 ≤ x.toNat ∧ x.toNat < 0x80404000 := by
  obtain ⟨phdr, hMem, -, hIn⟩ := hx
  rw [hPhdrs] at hMem
  rw [imageAddr_twoSegments hRange hPages, hRange] at hIn
  have hSize : copySize 4096 = 4096 := by decide
  simp only [List.mem_cons, List.not_mem_nil, or_false] at hMem
  rcases hMem with rfl | rfl
  · unfold InRange at hIn
    simp only [hSize] at hIn
    bv_omega
  · unfold InRange at hIn
    simp only [hSize] at hIn
    bv_omega

/-- The file loads, its image has two pages, the copies stay there, and memory
below the image is as it was. -/
theorem twoSegments_load {vaddr : Word}
    (hPhdrs : phdrs (twoSegments vaddr) 0x80070000 =
      [⟨1, 0x100, vaddr, 16, 4096⟩, ⟨1, 0x1100, vaddr + 4096, 16, 4096⟩])
    (hRange : addressRange (twoSegments vaddr) 0x80070000 = ⟨vaddr, vaddr + 8192, true⟩)
    (hPages : (⟨vaddr, vaddr + 8192, true⟩ : AddressRange).numPages = 2)
    (hFile : FileAt (twoSegments vaddr) 0x80070000 0x3000)
    (hExecutable : isExecutable (twoSegments vaddr) 0x80070000 = true) :
    ∃ p' w', elfLoad imageThenTables ⟨twoSegments vaddr, 0⟩ emptyProcess 0x80070000 =
        some (true, p', w') ∧
      imageAddr imageThenTables ⟨twoSegments vaddr, 0⟩ 0x80070000 = 0x80402000 ∧
      FreshImage imageThenTables ⟨twoSegments vaddr, 0⟩ 0x80070000 0x3000 {0x804ff000} w'.calls ∧
      FreshLoad imageThenTables ⟨twoSegments vaddr, 0⟩ 0x80070000 0x3000 {0x804ff000} w'.calls ∧
      ∀ x : Word, x.toNat < 0x80402000 → w'.mem x = twoSegments vaddr x := by
  have hAddr := imageAddr_twoSegments hRange hPages
  obtain ⟨p', w', hLoad⟩ : ∃ p' w', elfLoad imageThenTables ⟨twoSegments vaddr, 0⟩ emptyProcess
      0x80070000 = some (true, p', w') :=
    elfLoad_returns emptyProcess hExecutable (by rw [hRange]) (by rw [hAddr]; decide)
  have hCalls := twoSegments_calls hAddr hLoad
  have hInImage {x : Word} := inImage_twoSegments (x := x) hRange hPages
  have hInCopies {x : Word} := inCopies_twoSegments (x := x) hPhdrs hRange hPages
  have hFileFar {x : Word} (hx : InRange 0x80070000 0x3000 x) : x.toNat < 0x80402000 := by
    have hBounds := (inRange_iff_toNat (by decide)).mp hx
    have hEnd : (0x80070000 : Word).toNat = 0x80070000 := rfl
    omega
  have hTablesFar {t x : Word} (ht : t ∈ grow imageThenTables {0x804ff000} 1 w'.calls)
      (hx : InRange t 4096 x) : 0x80404000 ≤ x.toNat := by
    rcases ht with rfl | ⟨k, hk, hk', rfl⟩
    · have hBounds := (inRange_iff_toNat (by decide)).mp hx
      have hBase : (0x804ff000 : Word).toNat = 0x804ff000 := rfl
      omega
    · have hBase := imageThenTables_toNat hk (by omega)
      have hBounds := (inRange_iff_toNat (by omega)).mp hx
      omega
  have hTables := freshTables_imageThenTables.before hCalls
  have hFresh : FreshLoad imageThenTables ⟨twoSegments vaddr, 0⟩ 0x80070000 0x3000 {0x804ff000}
      w'.calls := by
    refine ⟨hFile, ?_, ?_, ?_, ?_, hTables⟩
    · exact fun x hx hIn => absurd (hInImage hIn).1 (not_le.mpr (hFileFar hx))
    · exact fun t ht x hx hIn =>
        absurd (hTablesFar (subset_grow _ _ _ ht) hx) (not_le.mpr (hInImage hIn).2)
    · exact fun x hx hIn => absurd (hInCopies hIn).1 (not_le.mpr (hFileFar hx))
    · exact fun t ht x hx hIn =>
        absurd (hTablesFar (subset_grow _ _ _ ht) hx) (not_le.mpr (hInCopies hIn).2)
  obtain ⟨-, -, hFrame⟩ := elfLoad_spec hLoad (layout_emptyProcess vaddr) hFresh
  refine ⟨p', w', hLoad, hAddr, ⟨?_, ?_, ?_, ?_, hTables⟩, hFresh, fun x hx => ?_⟩
  · rw [hAddr]
    decide
  · intro _
    rw [hAddr, hRange, hPages]
    unfold InRam ramStart ramEnd
    decide
  · exact fun x hx hIn => absurd (hInImage hIn).1 (not_le.mpr (hFileFar hx))
  · exact fun t ht x hx hIn => absurd (hTablesFar ht hx) (not_le.mpr (hInImage hIn).2)
  · rw [hFrame x fun t ht hIn => by
      have hFar := hTablesFar ht hIn
      omega]
    exact hFresh.copied_outside (fun hIn => absurd (hInImage hIn).1 (not_le.mpr hx))
      fun hIn => absurd (hInCopies hIn).1 (not_le.mpr hx)

theorem wellFormed_twoSegments {vaddr : Word}
    (hPhdrs : phdrs (twoSegments vaddr) 0x80070000 =
      [⟨1, 0x100, vaddr, 16, 4096⟩, ⟨1, 0x1100, vaddr + 4096, 16, 4096⟩])
    (hFile : FileAt (twoSegments vaddr) 0x80070000 0x3000) (hVaddr : vaddr.toNat + 8192 ≤ 2 ^ 64) :
    WellFormed (twoSegments vaddr) 0x80070000 0x3000 := by
  have hNext : (vaddr + 4096).toNat = vaddr.toNat + 4096 := by
    rw [BitVec.toNat_add]
    simp
    omega
  refine ⟨hFile, ?_, ?_, ?_, ?_⟩
  · simp only [hPhdrs, List.mem_cons, List.not_mem_nil, or_false, forall_eq_or_imp, forall_eq]
    decide
  · simp only [hPhdrs, List.mem_cons, List.not_mem_nil, or_false, forall_eq_or_imp, forall_eq, hNext,
      show (4096 : Word).toNat = 4096 from rfl]
    omega
  · simp only [hPhdrs, List.mem_cons, List.not_mem_nil, or_false, forall_eq_or_imp, forall_eq]
    decide
  · rw [hPhdrs, List.pairwise_pair]
    intro _ _
    rw [hNext]
    exact .inl (Nat.le_refl _)

/-- With the segments below their image, the image is where their addresses
lead. -/
theorem loaded_twoSegments : ∃ p' w',
    elfLoad imageThenTables ⟨twoSegments 0x80400000, 0⟩ emptyProcess 0x80070000 =
      some (true, p', w') ∧ Loaded (twoSegments 0x80400000) w'.mem 0x80070000 p' := by
  have hPhdrs : phdrs (twoSegments 0x80400000) 0x80070000 =
      [⟨1, 0x100, 0x80400000, 16, 4096⟩, ⟨1, 0x1100, 0x80401000, 16, 4096⟩] := by
    decide +kernel
  have hRange : addressRange (twoSegments 0x80400000) 0x80070000 =
      ⟨0x80400000, 0x80402000, true⟩ := by
    rw [addressRange, hPhdrs]
    decide
  have hFile : FileAt (twoSegments 0x80400000) 0x80070000 0x3000 :=
    ⟨by decide, by decide +kernel, by decide⟩
  obtain ⟨p', w', hLoad, hAddr, hFresh, -, -⟩ := twoSegments_load hPhdrs hRange (by decide) hFile
    (by decide +kernel)
  have hInPlace : InPlace (twoSegments 0x80400000) 0x80070000 0x3000 0x80402000 := by
    refine ⟨by decide, by rw [hRange]; decide, by rw [hRange]; decide, ?_, ?_⟩
    · rw [hPhdrs, hRange]
      decide
    · intro phdr hMem hLoad
      rw [hPhdrs] at hMem
      simp only [List.mem_cons, List.not_mem_nil, or_false] at hMem
      rcases hMem with rfl | rfl
      · refine ⟨by decide, fun k hk hk' => twoSegments_outside _ ?_⟩
        simp only at hk hk'
        unfold InRange
        bv_omega
      · refine ⟨by decide, fun k hk hk' => twoSegments_outside _ ?_⟩
        simp only at hk hk'
        unfold InRange
        bv_omega
  rw [← hAddr] at hInPlace
  exact ⟨p', w', hLoad, loaded_of_inPlace (w := ⟨twoSegments 0x80400000, 0⟩)
    (wellFormed_twoSegments hPhdrs hFile (by decide)) hLoad (layout_emptyProcess _) hFresh hInPlace⟩

/-- With the segments at the usual address they lead to memory behind their
virtual pages, which holds no byte of the file. -/
theorem not_loaded_twoSegments : ∃ p' w',
    WellFormed (twoSegments 0x400000) 0x80070000 0x3000 ∧
    elfLoad imageThenTables ⟨twoSegments 0x400000, 0⟩ emptyProcess 0x80070000 =
      some (true, p', w') ∧ ¬ Loaded (twoSegments 0x400000) w'.mem 0x80070000 p' := by
  have hPhdrs : phdrs (twoSegments 0x400000) 0x80070000 =
      [⟨1, 0x100, 0x400000, 16, 4096⟩, ⟨1, 0x1100, 0x401000, 16, 4096⟩] := by
    decide +kernel
  have hRange : addressRange (twoSegments 0x400000) 0x80070000 =
      ⟨0x400000, 0x402000, true⟩ := by
    rw [addressRange, hPhdrs]
    decide
  have hFile : FileAt (twoSegments 0x400000) 0x80070000 0x3000 :=
    ⟨by decide, by decide +kernel, by decide⟩
  obtain ⟨p', w', hLoad, hAddr, -, hFresh, hBelow⟩ := twoSegments_load hPhdrs hRange (by decide) hFile
    (by decide +kernel)
  refine ⟨p', w', wellFormed_twoSegments hPhdrs hFile (by decide), hLoad, fun hLoaded => ?_⟩
  obtain ⟨hLayout, hFind, -⟩ := elfLoad_spec hLoad (layout_emptyProcess _) hFresh
  have hByte := (hLoaded.2 _ (by rw [hPhdrs]; exact List.mem_cons_self ..) rfl).1 0 (by decide)
  have hLeaf : find (cells w'.mem) emptyProcess.ptable (indices 0x400000 3) =
      some (leafEntry (0x402000 + BitVec.ofNat 64 (4096 * 0)) imageBits) := by
    rw [hFind, hAddr, imageMaps, hRange,
      lastMapping_rangeMaps (by decide) (by decide : 0 < _) (by decide)]
    rfl
  have hTranslate : mmuTranslate w'.mem emptyProcess.ptable 0x400000 = 0x402000 := by
    rw [mmuTranslate_of_leaf hLayout hLeaf (by decide)]
    decide
  have hNone : w'.mem 0x402000 = 0 := by
    rw [hBelow _ (by decide)]
    exact twoSegments_outside _ (by unfold InRange; decide)
  rw [(elfLoad_some hLoad).1] at hByte
  rw [show (0x400000 : Word) + BitVec.ofNat 64 0 = 0x400000 from rfl] at hByte
  change w'.mem (mmuTranslate w'.mem emptyProcess.ptable 0x400000) = _ at hByte
  rw [hTranslate, hNone] at hByte
  exact absurd hByte (by decide +kernel)

end TwoSegments

end Kernel
