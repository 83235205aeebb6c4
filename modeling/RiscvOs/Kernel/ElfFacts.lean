import RiscvOs.Kernel.Elf
import RiscvOs.Kernel.ProcessTables

/-! What a successful `elf_load` does: the copies of its second loop, and the
page table behind them. -/
namespace Kernel

open Semantics Radix Mmu

section File

/-- A file in memory that holds its header and its program header table. -/
structure FileAt (m : Memory) (elf : Word) (length : Nat) : Prop where
  header : 64 ≤ length
  table : (ePhoff m elf).toNat + 56 * (ePhnum m elf).toNat ≤ length
  fits : length ≤ 2 ^ 64

variable {m m' : Memory} {elf : Word} {length : Nat}

theorem FileAt.ePhnum_congr (h : FileAt m elf length) (hAgree : Memory.AgreeOn m m' elf length) :
    ePhnum m' elf = ePhnum m elf :=
  have hHeader := h.header
  Memory.load16_congr (hAgree.part (i := 56) (by omega) h.fits)

theorem FileAt.phdrAt_congr (h : FileAt m elf length) (hAgree : Memory.AgreeOn m m' elf length)
    {i : Nat} (hi : i < (ePhnum m elf).toNat) :
    phdrAt m' (elf + ePhoff m elf) i = phdrAt m (elf + ePhoff m elf) i := by
  have hTable := h.table
  have hEntry : elf + ePhoff m elf + BitVec.ofNat 64 (56 * i) =
      elf + BitVec.ofNat 64 ((ePhoff m elf).toNat + 56 * i) := by
    rw [BitVec.ofNat_add, ← BitVec.add_assoc, BitVec.ofNat_toNat, BitVec.setWidth_eq]
  have hField (k : Nat) : elf + BitVec.ofNat 64 ((ePhoff m elf).toNat + 56 * i) +
      BitVec.ofNat 64 k = elf + BitVec.ofNat 64 ((ePhoff m elf).toNat + 56 * i + k) := by
    rw [BitVec.ofNat_add _ k, ← BitVec.add_assoc]
  have hWord (k : Nat) (hk : k + 8 ≤ 56) :
      m'.load64 (elf + BitVec.ofNat 64 ((ePhoff m elf).toNat + 56 * i) + BitVec.ofNat 64 k) =
        m.load64 (elf + BitVec.ofNat 64 ((ePhoff m elf).toNat + 56 * i) + BitVec.ofNat 64 k) := by
    rw [hField]
    exact Memory.load64_congr (hAgree.part (by omega) h.fits)
  have hType : m'.load32 (elf + BitVec.ofNat 64 ((ePhoff m elf).toNat + 56 * i)) =
      m.load32 (elf + BitVec.ofNat 64 ((ePhoff m elf).toNat + 56 * i)) :=
    Memory.load32_congr (hAgree.part (by omega) h.fits)
  simp only [phdrAt, hEntry, Phdr.mk.injEq]
  exact ⟨hType, hWord 8 (by decide), hWord 16 (by decide), hWord 32 (by decide),
    hWord 40 (by decide)⟩

theorem FileAt.ePhoff_congr (h : FileAt m elf length) (hAgree : Memory.AgreeOn m m' elf length) :
    ePhoff m' elf = ePhoff m elf :=
  have hHeader := h.header
  Memory.load64_congr (hAgree.part (i := 32) (by omega) h.fits)

theorem FileAt.congr (h : FileAt m elf length) (hAgree : Memory.AgreeOn m m' elf length) :
    FileAt m' elf length := by
  refine ⟨h.header, ?_, h.fits⟩
  rw [h.ePhoff_congr hAgree, h.ePhnum_congr hAgree]
  exact h.table

theorem FileAt.phdrs_congr (h : FileAt m elf length) (hAgree : Memory.AgreeOn m m' elf length) :
    phdrs m' elf = phdrs m elf := by
  rw [phdrs, phdrs, h.ePhnum_congr hAgree, h.ePhoff_congr hAgree]
  exact List.map_congr_left fun i hi => h.phdrAt_congr hAgree (List.mem_range.mp hi)

theorem memcmp_congr {a : Word} {bytes : List Byte} (hAgree : Memory.AgreeOn m m' a bytes.length)
    (hFit : bytes.length ≤ 2 ^ 64) : memcmp m' a bytes = memcmp m a bytes := by
  induction bytes generalizing a with
  | nil => rfl
  | cons b rest ih =>
      rw [List.length_cons] at hAgree hFit
      have hFirst : m' a = m a := hAgree a (by unfold InRange; simp)
      have hRest : Memory.AgreeOn m m' (a + 1) rest.length :=
        hAgree.part (i := 1) (by omega) hFit
      rw [memcmp, memcmp, hFirst, ih hRest (by omega)]

theorem FileAt.isExecutable_congr (h : FileAt m elf length)
    (hAgree : Memory.AgreeOn m m' elf length) : isExecutable m' elf = isExecutable m elf := by
  have hHeader := h.header
  have hMachine : eMachine m' elf = eMachine m elf :=
    Memory.load16_congr (hAgree.part (i := 18) (by omega) h.fits)
  have hType : eType m' elf = eType m elf :=
    Memory.load16_congr (hAgree.part (i := 16) (by omega) h.fits)
  have hMagic : memcmp m' elf elfmag = memcmp m elf elfmag := by
    refine memcmp_congr (fun x hx => hAgree x ?_) (by decide)
    exact Nat.lt_of_lt_of_le hx (by rw [elfmag]; simp; omega)
  rw [isExecutable, isExecutable, hMachine, hType, hMagic]

end File

section Copies

/-- The range that a copy writes to. -/
def InTarget (image adrStart : Word) (phdr : Phdr) (x : Word) : Prop :=
  phdr.pType = ptLoad ∧ InRange (image + phdr.pVaddr - adrStart) (copySize phdr.pMemsz) x

/-- The copies of a list of segments. -/
def copyAll (elf image adrStart : Word) (m : Memory) (segments : List Phdr) : Memory :=
  segments.foldl (copySegment elf image adrStart) m

variable {m m₀ : Memory} {elf image adrStart x : Word} {segments : List Phdr}

theorem copySegment_outside {phdr : Phdr} (hx : ¬ InTarget image adrStart phdr x) :
    copySegment elf image adrStart m phdr x = m x := by
  unfold copySegment
  split
  next hLoad => exact memcpy_outside m fun hIn => hx ⟨hLoad, hIn⟩
  · rfl

theorem copyAll_outside (hx : ∀ phdr ∈ segments, ¬ InTarget image adrStart phdr x) :
    copyAll elf image adrStart m segments x = m x := by
  induction segments generalizing m with
  | nil => rfl
  | cons phdr rest ih =>
      have hFirst : copySegment elf image adrStart m phdr x = m x :=
        copySegment_outside (hx phdr (List.mem_cons_self ..))
      rw [← hFirst]
      exact ih fun q hq => hx q (List.mem_cons_of_mem _ hq)

/-- Each copy arrives when its target is apart from the other targets, and
the source from all of them. -/
theorem copyAll_inside {phdr : Phdr} (hMem : phdr ∈ segments) (hLoad : phdr.pType = ptLoad)
    (hTargets : segments.Pairwise fun a b => ∀ y, InTarget image adrStart a y →
      ¬ InTarget image adrStart b y)
    (hSource : ∀ q ∈ segments, ∀ y, InRange (elf + phdr.pOffset) (copySize phdr.pMemsz) y →
      ¬ InTarget image adrStart q y) {k : Nat} (hk : k < copySize phdr.pMemsz) :
    copyAll elf image adrStart m segments (image + phdr.pVaddr - adrStart + BitVec.ofNat 64 k) =
      m (elf + phdr.pOffset + BitVec.ofNat 64 k) := by
  have hSize := copySize_lt phdr.pMemsz
  have hOffset (a : Word) : InRange a (copySize phdr.pMemsz) (a + BitVec.ofNat 64 k) :=
    inRange_offset a hk (by omega)
  induction segments generalizing m with
  | nil => cases hMem
  | cons first rest ih =>
      obtain ⟨hFirst, hRest⟩ := List.pairwise_cons.mp hTargets
      rcases List.mem_cons.mp hMem with rfl | hMem
      · have hTarget : InTarget image adrStart phdr
            (image + phdr.pVaddr - adrStart + BitVec.ofNat 64 k) := ⟨hLoad, hOffset _⟩
        refine (copyAll_outside fun q hq => hFirst q hq _ hTarget).trans ?_
        rw [copySegment, if_pos hLoad]
        exact memcpy_inside m (fun y hy hIn =>
          hSource phdr (List.mem_cons_self ..) y hy ⟨hLoad, hIn⟩) hk
      · refine (ih hMem hRest fun q hq => hSource q (List.mem_cons_of_mem _ hq)).trans ?_
        exact copySegment_outside (hSource first (List.mem_cons_self ..) _ (hOffset _))

/-- The loop copies the segments of the header table, as long as no copy
writes to the file. -/
theorem copyLoop_eq {length : Nat} (hFile : FileAt m₀ elf length)
    (hSpared : ∀ phdr ∈ phdrs m₀ elf, ∀ x, InRange elf length x →
      ¬ InTarget image adrStart phdr x)
    (hAgree : Memory.AgreeOn m₀ m elf length) {i fuel : Nat}
    (hFuel : (ePhnum m₀ elf).toNat ≤ i + fuel) :
    copyLoop elf (elf + ePhoff m₀ elf) image adrStart m i fuel =
      copyAll elf image adrStart m ((phdrs m₀ elf).drop i) := by
  have hLength : (phdrs m₀ elf).length = (ePhnum m₀ elf).toNat := by
    rw [phdrs, List.length_map, List.length_range]
  induction fuel generalizing m i with
  | zero =>
      rw [copyLoop, List.drop_eq_nil_of_le (by omega)]
      rfl
  | succ fuel ih =>
      rw [copyLoop, hFile.ePhnum_congr hAgree]
      by_cases hi : i < (ePhnum m₀ elf).toNat
      · have hItem : (phdrs m₀ elf)[i] = phdrAt m₀ (elf + ePhoff m₀ elf) i := by
          simp only [phdrs, List.getElem_map, List.getElem_range]
        have hMem : phdrAt m₀ (elf + ePhoff m₀ elf) i ∈ phdrs m₀ elf :=
          hItem ▸ List.getElem_mem _
        rw [if_pos hi, hFile.phdrAt_congr hAgree hi, List.drop_eq_getElem_cons (by omega), hItem]
        refine ih ?_ (by omega)
        exact hAgree.trans fun x hx => copySegment_outside (hSpared _ hMem x hx)
      · rw [if_neg hi, List.drop_eq_nil_of_le (by omega)]
        rfl

end Copies

section Load

variable {answer : Nat → Word} {w w' : World} {p p' : Process} {elf : Word}

/-- The address that `elf_load` gets for the image. -/
def imageAddr (answer : Nat → Word) (w : World) (elf : Word) : Word :=
  (cpageZnalloc answer (addressRange w.mem elf).numPages w).1

/-- Memory behind the second loop of `elf_load`. -/
def copied (answer : Nat → Word) (w : World) (elf : Word) : World :=
  { (cpageZnalloc answer (addressRange w.mem elf).numPages w).2 with
    mem := copyLoop elf (elf + ePhoff w.mem elf) (imageAddr answer w elf)
      (addressRange w.mem elf).adrStart
      (cpageZnalloc answer (addressRange w.mem elf).numPages w).2.mem 0 (2 ^ 16) }

/-- The calls of `mmu_map` for the image, with its address for the byte
count. -/
def imageMaps (m : Memory) (elf image : Word) : List Mapping :=
  let r := addressRange m elf
  rangeMaps r.adrStart (r.adrStart + r.pages * 4096) imageBits (pageCount image)

theorem elfLoad_some (hLoad : elfLoad answer w p elf = some (true, p', w')) :
    p' = { p with
      frame := { p.frame with sepc := eEntry w.mem elf }
      imagePgNum := (addressRange w.mem elf).pages
      image := imageAddr answer w elf } ∧
    w' = mapAll answer p.ptable (copied answer w elf)
      (imageMaps w.mem elf (imageAddr answer w elf)) := by
  simp only [elfLoad] at hLoad
  split at hLoad
  · cases hLoad
  · split at hLoad
    · cases hLoad
    · simp only [Option.bind_eq_bind, Option.bind_eq_some_iff, Option.some.injEq,
        Prod.mk.injEq, true_and] at hLoad
      obtain ⟨w'', hMap, rfl, rfl⟩ := hLoad
      exact ⟨rfl, mmuMapMultiple_some hMap⟩

/-- A load ends unless the image lies in the last page of the address
space. -/
theorem elfLoad_returns (p : Process) (hExecutable : isExecutable w.mem elf = true)
    (hCheck : (addressRange w.mem elf).checkLoad = true)
    (hImage : (imageAddr answer w elf).toNat ≤ 2 ^ 64 - 4096) :
    ∃ p' w', elfLoad answer w p elf = some (true, p', w') := by
  have hMap : mmuMapMultiple answer (copied answer w elf) p.ptable (addressRange w.mem elf).adrStart
      ((addressRange w.mem elf).adrStart + (addressRange w.mem elf).pages * 4096)
      (imageAddr answer w elf) imageBits = some _ := mmuMapMultiple_eq _ hImage
  simp only [elfLoad, hExecutable, hCheck, Bool.not_true, Bool.false_eq_true, ↓reduceIte,
    Option.bind_eq_bind]
  simp only [copied, imageAddr] at hMap
  rw [hMap]
  exact ⟨_, _, rfl⟩

/-- The pages allocated for the image. -/
def InImage (answer : Nat → Word) (w : World) (elf x : Word) : Prop :=
  imageAddr answer w elf ≠ 0 ∧
    InRange (imageAddr answer w elf) (4096 * (addressRange w.mem elf).numPages.toNat) x

/-- A byte that a copy of the file writes to. -/
def InCopies (answer : Nat → Word) (w : World) (elf x : Word) : Prop :=
  ∃ phdr ∈ phdrs w.mem elf,
    InTarget (imageAddr answer w elf) (addressRange w.mem elf).adrStart phdr x

/-- The new pages are apart from the file and the tables, and the copies
spare both. -/
structure FreshLoad (answer : Nat → Word) (w : World) (elf : Word) (length : Nat)
    (owned : Set Word) (hi : Nat) : Prop where
  file : FileAt w.mem elf length
  image_file : ∀ x, InRange elf length x → ¬ InImage answer w elf x
  image_tables : ∀ t ∈ owned, ∀ x, InRange t 4096 x → ¬ InImage answer w elf x
  copies_file : ∀ x, InRange elf length x → ¬ InCopies answer w elf x
  copies_tables : ∀ t ∈ owned, ∀ x, InRange t 4096 x → ¬ InCopies answer w elf x
  tables : FreshTables answer owned (w.calls + 1) hi

variable {length hi : Nat} {owned : Set Word}

theorem FreshLoad.copied_mem (hFresh : FreshLoad answer w elf length owned hi) :
    (copied answer w elf).mem =
      copyAll elf (imageAddr answer w elf) (addressRange w.mem elf).adrStart
        (cpageZnalloc answer (addressRange w.mem elf).numPages w).2.mem (phdrs w.mem elf) := by
  have hAgree : Memory.AgreeOn w.mem
      (cpageZnalloc answer (addressRange w.mem elf).numPages w).2.mem elf length :=
    fun x hx => cpageZnalloc_outside fun hSome hIn => hFresh.image_file x hx ⟨hSome, hIn⟩
  have hCount := (ePhnum w.mem elf).isLt
  exact copyLoop_eq hFresh.file (fun phdr hMem x hx hIn => hFresh.copies_file x hx ⟨phdr, hMem, hIn⟩)
    hAgree (by omega)

theorem FreshLoad.copied_outside (hFresh : FreshLoad answer w elf length owned hi) {x : Word}
    (hImage : ¬ InImage answer w elf x) (hCopies : ¬ InCopies answer w elf x) :
    (copied answer w elf).mem x = w.mem x := by
  rw [hFresh.copied_mem, copyAll_outside fun phdr hMem hIn => hCopies ⟨phdr, hMem, hIn⟩]
  exact cpageZnalloc_outside fun hSome hIn => hImage ⟨hSome, hIn⟩

theorem imageMaps_leaf {m : Memory} {image : Word} {c : Mapping} (hc : c ∈ imageMaps m elf image) :
    LeafBits c.bits := by
  rw [bits_of_mem_rangeMaps hc]
  decide

/-- The image is mapped over the mappings of the process. -/
theorem elfLoad_spec (hLoad : elfLoad answer w p elf = some (true, p', w'))
    (hLayout : Layout w.mem p.ptable owned)
    (hFresh : FreshLoad answer w elf length owned w'.calls) :
    Layout w'.mem p.ptable (grow answer owned (w.calls + 1) w'.calls) ∧
      (∀ a, find (cells w'.mem) p.ptable (indices a 3) =
        ((lastMapping (imageMaps w.mem elf (imageAddr answer w elf)) a).map
          fun c => leafEntry c.paddr c.bits).or (find (cells w.mem) p.ptable (indices a 3))) ∧
      ∀ x, (∀ t ∈ grow answer owned (w.calls + 1) w'.calls, ¬ InRange t 4096 x) →
        w'.mem x = (copied answer w elf).mem x := by
  obtain ⟨-, rfl⟩ := elfLoad_some hLoad
  have hCalls : (copied answer w elf).calls = w.calls + 1 := cpageZnalloc_calls _ _ _
  have hAgree (t : Word) (ht : t ∈ owned) :
      Memory.AgreeOn w.mem (copied answer w elf).mem t 4096 := fun x hx =>
    hFresh.copied_outside (hFresh.image_tables t ht x hx) (hFresh.copies_tables t ht x hx)
  obtain ⟨hKept, hSame⟩ := hLayout.agree hAgree
  have hTables := hFresh.tables
  rw [← hCalls] at hTables
  have hSpec := mapAll_spec hKept (imageMaps w.mem elf (imageAddr answer w elf))
    (fun c hc => (imageMaps_leaf hc).2) hTables
  simpa only [hSame, hCalls] using hSpec

end Load

end Kernel
