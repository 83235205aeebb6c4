import RiscvOs.Kernel.ProcessFree
import RiscvOs.Kernel.ProcessSpace

/-! What `p_free` frees. A file whose copies leave the image and reach a page
table makes it miss tables. -/
namespace Kernel

open Semantics Radix Mmu

variable {s t : Life} {event : LifeEvent} {events : List LifeEvent}

namespace Intact

/-- The calls of `cpage_free` before those for the page tables. -/
theorem held_nodup (h : Intact s) {tables : List Word} (hNodup : tables.Nodup)
    (hTables : ∀ x, x ∈ tables ↔ x ∈ s.tables) :
    (s.p.stack :: (if s.p.image ≠ 0 then [s.p.image] else []) ++ tables ++ [s.page]).Nodup := by
  have hTail : (tables ++ [s.page]).Nodup := by
    rw [List.nodup_append']
    refine ⟨hNodup, List.nodup_singleton _, ?_⟩
    rintro x hx (_ | ⟨_, ⟨⟩⟩)
    exact h.page_tables ((hTables _).mp hx)
  have hStack : s.p.stack ∉ tables ++ [s.page] := by
    rw [List.mem_append, List.mem_singleton, hTables]
    exact not_or.mpr ⟨h.stack_tables, h.stack_page⟩
  by_cases hImage : s.p.image = 0
  · simp only [hImage, ne_eq, not_true_eq_false, if_false, List.cons_append, List.nil_append]
    exact List.nodup_cons.mpr ⟨hStack, hTail⟩
  · obtain ⟨hPage, hOther, hTable⟩ := h.image hImage
    simp only [ne_eq, hImage, not_false_eq_true, if_true, List.cons_append, List.nil_append]
    refine List.nodup_cons.mpr ⟨?_, List.nodup_cons.mpr ⟨?_, hTail⟩⟩
    · rw [List.mem_cons]
      exact not_or.mpr ⟨hOther.symm, hStack⟩
    · rw [List.mem_append, List.mem_singleton, hTables]
      exact not_or.mpr ⟨hTable, hPage⟩

theorem teardownExact (h : Intact s) : TeardownExact s := by
  intro depth hDepth
  have hFreed : ∃ s' : Freed, s'.mem = s.w.mem ∧
      s'.pages = s.p.stack :: (if s.p.image ≠ 0 then [s.p.image] else []) ∧
      pFree depth s.w.mem s.page s.p = (mmuFree depth s.p.ptable s').bind
        fun t => some ({ s.p with state := .dead }, cpageFree s.page t) := by
    simp only [pFree, if_neg h.page, ne_eq, h.stack, h.root, not_false_eq_true, if_true]
    by_cases hImage : s.p.image = 0
    · simp only [hImage, not_true_eq_false, if_false]
      exact ⟨_, rfl, rfl, rfl⟩
    · simp only [hImage, not_false_eq_true, if_true]
      exact ⟨_, rfl, rfl, rfl⟩
  obtain ⟨s', hMem, hPages, hCall⟩ := hFreed
  obtain ⟨t, tables, hFree, hMore, hNodup, hTables⟩ :=
    h.layout.mmuFree_root h.reached hDepth hMem
  have hAll : (cpageFree s.page t).pages =
      s.p.stack :: (if s.p.image ≠ 0 then [s.p.image] else []) ++ tables ++ [s.page] := by
    rw [cpageFree, hMore, hPages]
  refine ⟨_, cpageFree s.page t, by rw [hCall, hFree]; rfl, ?_, fun x => ?_⟩
  · rw [hAll]
    exact h.held_nodup hNodup hTables
  · rw [hAll]
    change _ ↔ x = s.page ∨ x = s.p.stack ∨ (x = s.p.image ∧ s.p.image ≠ 0) ∨ x ∈ s.tables
    rw [← hTables]
    by_cases hImage : s.p.image = 0
    · simp [hImage]
      tauto
    · simp
      tauto

end Intact

/-- A process that `p_new` made, whatever is mapped and loaded: when no copy of
`elf_load` reaches its page tables, `p_free` frees exactly what it holds. -/
theorem teardown_exact {answer : Nat → Word} {g : Globals} {w w' : World} {p : Process}
    {user : Bool} (hNew : pNew answer g user w = some (some p, w'))
    (hFresh : FreshTables answer ∅ w.calls w'.calls)
    (run : Run (Guarded LifeStep Spares) (Life.start answer w p w') events s) :
    TeardownExact s := by
  have hIntact := run.invariant Intact (Intact.start hNew hFresh) (fun _ _ _ h step => h.step step)
  exact hIntact.teardownExact

section FirstProcess

theorem nextPage_ne {j k : Nat} (hj : j ≤ 2 ^ 48) (hk : k ≤ 2 ^ 48) (h : j ≠ k) :
    nextPage j ≠ nextPage k := by
  intro hSame
  have hNat := congrArg BitVec.toNat hSame
  rw [nextPage_toNat hj, nextPage_toNat hk] at hNat
  omega

/-- Pages of `nextPage` behind each other are fresh. -/
theorem freshTables_shift {owned : Set Word} {lo hi : Nat} {f : Nat → Nat} (hMono : StrictMono f)
    (hHigh : ∀ k < hi, f k < 2 ^ 48) (hOwned : owned ⊆ grow nextPage {0x80058000} 0 (f lo)) :
    FreshTables (fun k => nextPage (f k)) owned lo hi := by
  intro k hk hk'
  obtain ⟨hSome, hAligned, hApart⟩ := freshTables_nextPage (f k) (Nat.zero_le _) (hHigh k hk')
  have hStart := hMono.monotone hk
  refine ⟨hSome, hAligned, fun t ht => hApart t ?_⟩
  rcases ht with ht | ⟨j, hj, hj', rfl⟩
  · rcases hOwned ht with ht | ⟨j, hj, hj', rfl⟩
    · exact .inl ht
    · exact .inr ⟨j, hj, by omega, rfl⟩
  · exact .inr ⟨f j, Nat.zero_le _, hMono hj', rfl⟩

/-- A load of the file in `bootWorld` spares the pages that were taken before. -/
theorem pairElf_step (hFile : Memory.AgreeOn pairElf s.w.mem 0x80059000 4096)
    (hFew : s.w.calls ≤ 2 ^ 15) (hNone : s.p.image = 0)
    (hPages : s.pages ⊆ grow nextPage {0x80058000} 0 s.w.calls) :
    ∃ p' w', elfLoad nextPage s.w s.p 0x80059000 = some (true, p', w') ∧
      Guarded LifeStep Spares s (.load nextPage 0x80059000) (s.load nextPage p' w') := by
  obtain ⟨p', w', hLoad, -, hMore⟩ := pairElf_returns hFile s.p hFew
  have hFresh := freshLoad_pairElf hFile hFew hPages (show w'.calls ≤ 2 ^ 48 by omega)
  have hAddr := (imageAddr_pairElf hFile).1
  have hImage : p'.image = nextPage s.w.calls := by rw [(elfLoad_some hLoad).1, hAddr]
  refine ⟨p', w', hLoad, fun t ht x hx => ?_, .load hLoad hNone ?_ hFresh.image_tables ?_⟩
  · have hMem : t ∈ s.pages := by
      rcases ht with rfl | ht
      · exact s.page_mem
      · exact s.tables_subset ht
    -- the copies stay where they are allowed to go
    refine (@copiesSpare_iff _ _ _ _ _ 4096 0 (2 ^ 16) {x | InCopies nextPage s.w 0x80059000 x}
      hFresh.file hFresh.copies_file ?_ ?_).mpr ?_ x (hFresh.copies_tables t hMem x hx)
    · exact fun y hy => cpageZnalloc_outside fun hSome hIn => hFresh.image_file y hy ⟨hSome, hIn⟩
    · have hBits := (ePhnum s.w.mem 0x80059000).isLt
      omega
    · exact fun phdr hPhdr y hy => ⟨phdr, by simpa using hPhdr, hy⟩
  · rw [hImage]
    exact nextPage_ne_zero (by omega)
  · rw [hImage]
    refine ((freshTables_nextPage.after (Nat.zero_le _)).before (by omega)).subset ?_
    rintro x (rfl | hx)
    · exact .inr ⟨s.w.calls, Nat.zero_le _, Nat.lt_succ_self _, rfl⟩
    · rw [← grow_grow {0x80058000} (Nat.zero_le s.w.calls) (Nat.le_succ _)]
      exact subset_grow _ _ _ (hPages hx)

/-- The first process, with one more page that is mapped for it, loads its file. -/
theorem teardown_exact_first : ∃ p w₁, pNew nextPage bootGlobals true bootWorld =
    some (some p, w₁) ∧ ∃ p' w₂,
      let s := (Life.start nextPage bootWorld p w₁).map nextPage 0x10000000 0x10000000 pbReadWrite
      elfLoad nextPage s.w p 0x80059000 = some (true, p', w₂) ∧
      TeardownExact (s.load nextPage p' w₂) := by
  obtain ⟨p, w₁, hNew, hCalls⟩ := first_pNew
  obtain ⟨hBoot, -, -⟩ := bootWorld_spec
  obtain ⟨hRoot, hStack, hImage, -⟩ := pNew_maps hNew
  have hMore := (pNew_spec hNew (freshProcess_nextPage (by omega))).1
  have hFresh : FreshTables nextPage ∅ bootWorld.calls w₁.calls := by
    rw [hBoot]
    refine ((freshTables_nextPage.after (by decide)).before (by omega)).subset ?_
    exact Set.empty_subset _
  let s := (Life.start nextPage bootWorld p w₁).map nextPage 0x10000000 0x10000000 pbReadWrite
  have hLater : w₁.calls ≤ s.w.calls := mmuMap_calls_le _ _ _ _ _
  have hMany : s.w.calls ≤ w₁.calls + 2 := mapLoop_calls_bound _ _ _ 2
  have hPages : (Life.start nextPage bootWorld p w₁).pages ⊆
      grow nextPage {0x80058000} 0 w₁.calls := by
    rintro x (rfl | rfl | ⟨-, hSome⟩ | rfl | ⟨k, -, hk, rfl⟩)
    · exact .inr ⟨_, Nat.zero_le _, by omega, rfl⟩
    · exact .inr ⟨_, Nat.zero_le _, by omega, hStack⟩
    · exact absurd hImage hSome
    · exact .inr ⟨_, Nat.zero_le _, by omega, hRoot⟩
    · exact .inr ⟨k, Nat.zero_le _, hk, rfl⟩
  have hTables : FreshTables nextPage (Life.start nextPage bootWorld p w₁).pages w₁.calls
      s.w.calls :=
    ((freshTables_nextPage.after (Nat.zero_le _)).before (by omega)).subset hPages
  have hMap : Guarded LifeStep Spares (Life.start nextPage bootWorld p w₁)
      (.map nextPage 0x10000000 0x10000000 pbReadWrite) s := ⟨trivial, .map (by decide) hTables⟩
  have hTaken : grow nextPage {0x80058000} 0 w₁.calls ⊆ grow nextPage {0x80058000} 0 s.w.calls := by
    rw [← grow_grow {0x80058000} (Nat.zero_le w₁.calls) hLater]
    exact subset_grow _ _ _
  have hAll : s.pages ⊆ grow nextPage {0x80058000} 0 s.w.calls := by
    rintro x (hx | hx | hx | hx | ⟨k, -, hk, rfl⟩)
    · exact hTaken (hPages (.inl hx))
    · exact hTaken (hPages (.inr (.inl hx)))
    · exact hTaken (hPages (.inr (.inr (.inl hx))))
    · exact hTaken (hPages (.inr (.inr (.inr hx))))
    · exact .inr ⟨k, Nat.zero_le _, hk, rfl⟩
  have hFile : Memory.AgreeOn pairElf s.w.mem 0x80059000 4096 := by
    refine (first_file hNew hCalls).trans fun x hx => ?_
    refine (mmuMap_spec (Intact.start hNew hFresh).layout 0x10000000 0x10000000 (by decide)
      (hTables.subset (Life.tables_subset _))).2.2 x fun t ht hIn => ?_
    have hLow : 0x80059000 ≤ x.toNat ∧ x.toNat < 0x80060000 := by
      unfold InRange at hx
      bv_omega
    rcases hAll (s.tables_subset ht) with rfl | ⟨k, -, hk, rfl⟩
    · unfold InRange at hIn
      bv_omega
    · exact nextPage_not_inRange (by omega) hLow.2 hIn
  obtain ⟨p', w₂, hLoad, hStep⟩ := pairElf_step hFile (by omega) hImage hAll
  exact ⟨p, w₁, hNew, p', w₂, hLoad,
    teardown_exact hNew hFresh (((Run.nil _).snoc hMap).snoc hStep)⟩

/-- All pages of `nextPage` but the one before the page table. -/
def skipHole (k : Nat) : Nat :=
  if k < 3 then k else k + 1

def holePage (k : Nat) : Word :=
  nextPage (skipHole k)

/-- The page that was left out is answered to one request. -/
def reusePage (n k : Nat) : Word :=
  if k = n then nextPage 3 else holePage k

/-- A file with one segment of two pages that does not start at a page. -/
def overrunElf : Memory :=
  (smallElf.store64 (0x80059000 + 80) 0x400001).store64 (0x80059000 + 104) 8192

/-- The file and the pages behind it are written into memory. -/
def withFile (m : Memory) : Memory :=
  fun x => if 0x80059000 ≤ x.toNat ∧ x.toNat < 0x80060000 then overrunElf x else m x

theorem skipHole_strictMono : StrictMono skipHole := by
  intro j k hLess
  unfold skipHole
  split <;> split <;> omega

theorem overrunElf_outside {x : Word} (hx : ¬ InRange 0x80059000 4096 x) : overrunElf x = 0 := by
  rw [overrunElf, Memory.store64_outside (n := 4096) _ _ hx (by decide),
    Memory.store64_outside (n := 4096) _ _ hx (by decide)]
  exact smallElf_outside hx

theorem withFile_inside {m : Memory} {x : Word} (hx : InRange 0x80059000 0x7000 x) :
    withFile m x = overrunElf x := by
  unfold InRange at hx
  exact if_pos (by bv_omega)

theorem fileAt_overrunElf : FileAt overrunElf 0x80059000 0x7000 := by
  refine ⟨by decide, ?_, by decide⟩
  decide +kernel

/-- What `elf_load` reads of the file. -/
theorem withFile_header (m : Memory) : FileAt (withFile m) 0x80059000 0x7000 ∧
    phdrs (withFile m) 0x80059000 = [⟨1, 0, 0x400001, 16, 8192⟩] ∧
    addressRange (withFile m) 0x80059000 = ⟨0x400001, 0x400001, true⟩ ∧
    isExecutable (withFile m) 0x80059000 = true := by
  have hAgree : Memory.AgreeOn overrunElf (withFile m) 0x80059000 0x7000 :=
    fun x hx => withFile_inside hx
  have hPhdrs : phdrs (withFile m) 0x80059000 = [⟨1, 0, 0x400001, 16, 8192⟩] := by
    rw [fileAt_overrunElf.phdrs_congr hAgree]
    decide +kernel
  refine ⟨fileAt_overrunElf.congr hAgree, hPhdrs, ?_, ?_⟩
  · rw [addressRange, hPhdrs]
    decide
  · rw [fileAt_overrunElf.isExecutable_congr hAgree]
    decide +kernel

theorem hole_pNew : ∃ p w₁, pNew holePage bootGlobals true bootWorld = some (some p, w₁) ∧
    w₁.calls ≤ 2 ^ 47 + 5 := by
  have hFresh : FreshTables holePage (grow nextPage {0x80058000} 0 2) 2 (2 ^ 47 + 5) := by
    refine freshTables_shift skipHole_strictMono (fun k hk => ?_) subset_rfl
    unfold skipHole
    split <;> omega
  obtain ⟨p, w₁, hNew, hCalls, -⟩ := boot_pNew hFresh rfl (by decide)
  exact ⟨p, w₁, hNew, hCalls⟩

/-- A root that is the only table maps nothing. -/
theorem find_root_only {m : Memory} {root : Word} (h : Layout m root {root}) (a : Word) :
    find (cells m) root (indices a 3) = none := by
  obtain ⟨path, hTidy, hPath⟩ := h.tidy
  rw [indices, find]
  cases hCell : cells m root (index a 2) with
  | empty => rfl
  | link next =>
      obtain rfl := hTidy.link_owned root rfl _ next hCell
      have hLonger := hTidy.link_path next rfl _ next hCell
      simp at hLonger
  | leaf value =>
      have hBottom := hTidy.leaf_bottom root rfl _ value hCell
      rw [hPath] at hBottom
      cases hBottom

variable {w : World} {m : Memory}

/-- The image is one page, where there was a hole. -/
theorem imageAddr_withFile (hMem : w.mem = withFile m) :
    imageAddr (reusePage w.calls) w 0x80059000 = nextPage 3 ∧
      (addressRange w.mem 0x80059000).numPages = 1 := by
  obtain ⟨-, -, hRange, -⟩ := withFile_header m
  have hPages : (addressRange w.mem 0x80059000).numPages = 1 := by
    rw [hMem, hRange]
    decide
  refine ⟨?_, hPages⟩
  rw [imageAddr, hPages, (cpageZnalloc_page _ _).1, reusePage, if_pos rfl]

theorem inImage_withFile (hMem : w.mem = withFile m) {x : Word}
    (hx : InImage (reusePage w.calls) w 0x80059000 x) : InRange (nextPage 3) 4096 x := by
  obtain ⟨hAddr, hPages⟩ := imageAddr_withFile hMem
  have hIn := hx.2
  rw [hAddr, hPages] at hIn
  exact hIn

/-- The copy of the segment writes to the two pages from the image on. -/
theorem inCopies_withFile (hMem : w.mem = withFile m) {x : Word}
    (hx : InCopies (reusePage w.calls) w 0x80059000 x) : InRange (nextPage 3) 8192 x := by
  obtain ⟨-, hPhdrs, hRange, -⟩ := withFile_header m
  obtain ⟨phdr, hPhdr, -, hIn⟩ := hx
  rw [hMem, hPhdrs, List.mem_singleton] at hPhdr
  rw [hPhdr, (imageAddr_withFile hMem).1, hMem, hRange] at hIn
  have hSize : copySize 8192 = 8192 := by decide
  simpa only [hSize, BitVec.add_sub_cancel] using hIn

theorem freshLoad_withFile (hMem : w.mem = withFile m) {hi : Nat}
    (hTables : FreshTables (reusePage w.calls) ∅ (w.calls + 1) hi) :
    FreshLoad (reusePage w.calls) w 0x80059000 0x7000 ∅ hi where
  file := hMem ▸ (withFile_header m).1
  image_file := by
    intro x hx hIn
    have hImage := inImage_withFile hMem hIn
    unfold InRange at hx hImage
    rw [show nextPage 3 = 0x80063000 by decide] at hImage
    bv_omega
  image_tables := fun _ ht => absurd ht (Set.notMem_empty _)
  copies_file := by
    intro x hx hIn
    have hCopies := inCopies_withFile hMem hIn
    unfold InRange at hx hCopies
    rw [show nextPage 3 = 0x80063000 by decide] at hCopies
    bv_omega
  copies_tables := fun _ ht => absurd ht (Set.notMem_empty _)
  tables := hTables

/-- The second page of the copy is the page table of the process: it is filled
with zeros of the file. -/
theorem copied_withFile (hMem : w.mem = withFile m) {hi : Nat}
    (hTables : FreshTables (reusePage w.calls) ∅ (w.calls + 1) hi) {x : Word}
    (hx : InRange (nextPage 4) 4096 x) :
    (copied (reusePage w.calls) w 0x80059000).mem x = 0 := by
  obtain ⟨-, hPhdrs, hRange, -⟩ := withFile_header m
  rw [← hMem] at hPhdrs hRange
  have hStart : (addressRange w.mem 0x80059000).adrStart = 0x400001 := by rw [hRange]
  have hFresh := freshLoad_withFile hMem hTables
  have hSize : copySize 8192 = 8192 := by decide
  -- the offset of the byte in the table
  obtain ⟨j, hj, rfl⟩ := (inRange_iff_exists (by decide)).mp hx
  have hTarget : nextPage 4 + BitVec.ofNat 64 j =
      nextPage 3 + 0x400001 - 0x400001 + BitVec.ofNat 64 (4096 + j) := by
    rw [BitVec.ofNat_add, ← BitVec.add_assoc]
    rfl
  have hSource : (0x80059000 : Word) + (⟨1, 0, 0x400001, 16, 8192⟩ : Phdr).pOffset = 0x80059000 := by
    decide
  have hFile : ∀ k < 8192, InRange 0x80059000 0x7000 ((0x80059000 : Word) + BitVec.ofNat 64 k) := by
    intro k hk
    unfold InRange
    bv_omega
  have hCopy := @copyAll_inside
    (cpageZnalloc (reusePage w.calls) (addressRange w.mem 0x80059000).numPages w).2.mem 0x80059000
    (nextPage 3) 0x400001 [⟨1, 0, 0x400001, 16, 8192⟩] ⟨1, 0, 0x400001, 16, 8192⟩
    (List.mem_singleton_self _) rfl (List.pairwise_singleton _ _) ?_ (4096 + j)
    (by rw [hSize]; omega)
  · rw [hFresh.copied_mem, hPhdrs, hStart, (imageAddr_withFile hMem).1, hTarget]
    refine hCopy.trans ?_
    rw [hSource, cpageZnalloc_outside fun hSome hIn =>
      hFresh.image_file _ (hFile _ (by omega)) ⟨hSome, hIn⟩, hMem, withFile_inside (hFile _ (by omega))]
    apply overrunElf_outside
    unfold InRange
    bv_omega
  · intro q hq y hy hIn
    have hCopies : InCopies (reusePage w.calls) w 0x80059000 y := by
      refine ⟨q, by rwa [hPhdrs], ?_⟩
      rwa [hStart, (imageAddr_withFile hMem).1]
    refine hFresh.copies_file y ?_ hCopies
    rw [hSize, hSource] at hy
    unfold InRange at hy ⊢
    omega

theorem withFile_load (p : Process) (hMem : w.mem = withFile m) :
    ∃ p' w', elfLoad (reusePage w.calls) w p 0x80059000 = some (true, p', w') ∧
      p'.image = nextPage 3 ∧ w'.calls ≤ w.calls + 2 ^ 21 := by
  obtain ⟨-, -, hRange, hExecutable⟩ := withFile_header m
  rw [← hMem] at hRange hExecutable
  have hImage := (imageAddr_withFile hMem).1
  obtain ⟨p', w', hLoad⟩ := elfLoad_returns p hExecutable (by rw [hRange])
    (by rw [hImage]; decide)
  obtain ⟨hLoaded, hMaps⟩ := elfLoad_some hLoad
  refine ⟨p', w', hLoad, by rw [hLoaded, hImage], ?_⟩
  have hCalls : (copied (reusePage w.calls) w 0x80059000).calls = w.calls + 1 :=
    cpageZnalloc_calls _ _ _
  have hBound := @mapAll_calls_bound (reusePage w.calls) p.ptable
    (copied (reusePage w.calls) w 0x80059000)
    (imageMaps w.mem 0x80059000 (imageAddr (reusePage w.calls) w 0x80059000))
  have hFew : pageCount (nextPage 3) = 0x80063 := by decide
  rw [← hMaps, hCalls, imageMaps, rangeMaps, List.length_map, List.length_range, hImage,
    hFew] at hBound
  omega

/-- Different pages of `nextPage` are apart. -/
theorem nextPage_apart {j k : Nat} (hj : j < 2 ^ 48) (hk : k < 2 ^ 48) (h : j ≠ k) :
    Apart (nextPage j) 4096 (nextPage k) 4096 := by
  rcases Nat.lt_or_gt_of_ne h with hLess | hMore
  · exact (freshTables_nextPage k (Nat.zero_le _) hk).2.2 _ (.inr ⟨j, Nat.zero_le _, hLess, rfl⟩)
  · exact ((freshTables_nextPage j (Nat.zero_le _) hj).2.2 _
      (.inr ⟨k, Nat.zero_le _, hMore, rfl⟩)).symm

/-- The first process has got more tables than its root. -/
theorem hole_tables {p : Process} {w₁ : World}
    (hNew : pNew holePage bootGlobals true bootWorld = some (some p, w₁))
    (hFresh : FreshTables holePage ∅ bootWorld.calls w₁.calls) : 5 < w₁.calls := by
  have hIntact := Intact.start hNew hFresh
  obtain ⟨hBoot, -, -⟩ := bootWorld_spec
  obtain ⟨-, hStack, -, -, phys₂, phys₃, hMaps⟩ := pNew_maps hNew
  have hMore : bootWorld.calls + 3 ≤ w₁.calls := by
    rw [hMaps, ← allocPages_calls holePage bootWorld]
    exact mapAll_calls_le _ _
  by_contra hFew
  have hFive : w₁.calls = 5 := by omega
  have hLayout := hIntact.layout
  simp only [Life.start, hBoot, hFive, grow_self] at hLayout
  have hThere := stack_elsewhere hNew (freshProcess_of_fresh hFresh hMore)
    (by rw [hStack, hBoot]; exact nextPage_inRam (k := 5) (by decide))
  rw [mmuTranslate_eq hLayout, find_root_only hLayout] at hThere
  exact absurd hThere (by decide)

theorem hole_fresh {n : Nat} (hn : n ≤ 2 ^ 47 + 5) : FreshTables holePage ∅ bootWorld.calls n := by
  refine freshTables_shift skipHole_strictMono (fun k hk => ?_) (Set.empty_subset _)
  unfold skipHole
  split <;> omega

theorem hole_pages {p : Process} {w₁ : World}
    (hNew : pNew holePage bootGlobals true bootWorld = some (some p, w₁))
    (hCalls : w₁.calls ≤ 2 ^ 47 + 5) : ∀ x ∈ (Life.start holePage bootWorld p w₁).pages,
      ∃ k, 2 ≤ k ∧ k < w₁.calls ∧ x = holePage k := by
  have hMany := hole_tables hNew (hole_fresh hCalls)
  obtain ⟨hBoot, -, -⟩ := bootWorld_spec
  obtain ⟨hRoot, hStack, hImage, -⟩ := pNew_maps hNew
  rintro x (rfl | rfl | ⟨-, hSome⟩ | rfl | ⟨k, hk, hk', rfl⟩)
  · exact ⟨_, by omega, by omega, rfl⟩
  · exact ⟨_, by omega, by omega, hStack⟩
  · exact absurd hImage hSome
  · exact ⟨_, by omega, by omega, hRoot⟩
  · exact ⟨k, by omega, hk', rfl⟩

/-- The file is written and loaded: the steps are possible, and what remains of
the tables is the root with the tables for the image. -/
theorem hole_load {p : Process} {w₁ : World}
    (hNew : pNew holePage bootGlobals true bootWorld = some (some p, w₁))
    (hCalls : w₁.calls ≤ 2 ^ 47 + 5) :
    let s := { Life.start holePage bootWorld p w₁ with w.mem := withFile w₁.mem }
    LifeStep (Life.start holePage bootWorld p w₁) (.write (withFile w₁.mem)) s ∧
    ∃ p' w', LifeStep s (.load (reusePage w₁.calls) 0x80059000) (s.load (reusePage w₁.calls) p' w') ∧
      Intact { s with
        p := p'
        w := w'
        tables := grow (reusePage w₁.calls) {p.ptable} (w₁.calls + 1) w'.calls } ∧
      p'.stack = p.stack ∧ p'.image = nextPage 3 ∧ w'.calls ≤ 2 ^ 47 + 2 ^ 22 := by
  intro s
  have hPages := hole_pages hNew hCalls
  have hStart := Intact.start hNew (hole_fresh hCalls)
  obtain ⟨hBoot, -, -⟩ := bootWorld_spec
  obtain ⟨hRoot, -, hNone, -⟩ := pNew_maps hNew
  have hHigh (k : Nat) (hk : k ≤ 2 ^ 47 + 2 ^ 22) : skipHole k < 2 ^ 48 := by
    unfold skipHole
    split <;> omega
  have hWrite : ∀ t ∈ insert s.page s.tables, Memory.AgreeOn w₁.mem (withFile w₁.mem) t 4096 := by
    intro t ht x hx
    have hMem : t ∈ (Life.start holePage bootWorld p w₁).pages := by
      rcases ht with rfl | ht
      · exact Life.page_mem _
      · exact Life.tables_subset _ ht
    obtain ⟨k, -, hk, rfl⟩ := hPages t hMem
    refine if_neg fun hFile => ?_
    exact nextPage_not_inRange (hHigh k (by omega)).le hFile.2 hx
  refine ⟨.write hWrite, ?_⟩
  have hMem : s.w.mem = withFile w₁.mem := rfl
  obtain ⟨p', w', hLoad, hImage, hMore⟩ := withFile_load p hMem
  have hLast : w'.calls ≤ 2 ^ 47 + 2 ^ 22 := by
    change w'.calls ≤ w₁.calls + 2 ^ 21 at hMore
    omega
  have hReuse : FreshTables (reusePage w₁.calls) (insert (nextPage 3) s.pages) (w₁.calls + 1)
      w'.calls := by
    have hShift : FreshTables holePage (insert (nextPage 3) s.pages) (w₁.calls + 1) w'.calls := by
      refine freshTables_shift skipHole_strictMono (fun k hk => hHigh k (by omega)) ?_
      rintro x (rfl | hx)
      · refine .inr ⟨3, Nat.zero_le _, ?_, rfl⟩
        have hMany := hole_tables hNew (hole_fresh hCalls)
        unfold skipHole
        split <;> omega
      · obtain ⟨k, -, hk, rfl⟩ := hPages x hx
        exact .inr ⟨skipHole k, Nat.zero_le _, skipHole_strictMono (by omega), rfl⟩
    exact hShift.congr fun k hk _ => if_neg (by omega)
  have hApart : ∀ t ∈ s.pages, ∀ x, InRange t 4096 x →
      ¬ InImage (reusePage w₁.calls) s.w 0x80059000 x := by
    intro t ht x hx hIn
    obtain ⟨k, -, hk, rfl⟩ := hPages t ht
    have hHole : skipHole k ≠ 3 := by
      unfold skipHole
      split <;> omega
    have hOther : Apart (nextPage 3) 4096 (holePage k) 4096 :=
      nextPage_apart (by decide) (hHigh k (by omega)) hHole.symm
    exact hOther.not_inRange hx (inImage_withFile hMem hIn)
  have hSome : p'.image ≠ 0 := by
    rw [hImage]
    decide
  have hZero : ∀ x, InRange p.ptable 4096 x →
      (copied (reusePage w₁.calls) s.w 0x80059000).mem x = 0 := by
    intro x hx
    refine copied_withFile hMem (hReuse.subset (Set.empty_subset _)) ?_
    rwa [hRoot, hBoot] at hx
  refine ⟨p', w', .load hLoad hNone hSome hApart (hImage ▸ hReuse), ?_, ?_, hImage, hLast⟩
  · refine (hStart.write hWrite).loadOn ?_ hLoad hSome hApart (hImage ▸ hReuse)
      (layout_of_zero hZero).1 (reached_root _ _)
    rintro t rfl
    exact hStart.layout.root_owned
  · rw [(elfLoad_some hLoad).1]

/-- The first process loads a file whose segment is longer than its image; the
page table lies behind the image. -/
theorem not_teardown_exact : ∃ p w₁ events s,
    pNew holePage bootGlobals true bootWorld = some (some p, w₁) ∧
    FreshTables holePage ∅ bootWorld.calls w₁.calls ∧
    Run LifeStep (Life.start holePage bootWorld p w₁) events s ∧ ¬ TeardownExact s := by
  obtain ⟨p, w₁, hNew, hCalls⟩ := hole_pNew
  obtain ⟨hBoot, -, -⟩ := bootWorld_spec
  obtain ⟨hRoot, hStack, -⟩ := pNew_maps hNew
  have hMany := hole_tables hNew (hole_fresh hCalls)
  obtain ⟨hWrite, p', w', hLoad, hRest, hSameStack, hImage, hLast⟩ := hole_load hNew hCalls
  refine ⟨p, w₁, _, _, hNew, hole_fresh hCalls, ((Run.nil _).snoc hWrite).snoc hLoad, ?_⟩
  intro hExact
  obtain ⟨q, t, hFree, -, hPages⟩ := hExact 3 (Nat.le_refl _)
  obtain ⟨q', t', hFree', -, hPages'⟩ := hRest.teardownExact 3 (Nat.le_refl _)
  obtain ⟨-, rfl⟩ := Prod.mk.inj (Option.some.inj (hFree.symm.trans hFree'))
  -- the first of the tables that `p_new` took
  have hHeld : holePage 5 ∈ t.pages := by
    refine (hPages _).mpr (.inr (.inr (.inr (.inl (.inr ⟨5, ?_, hMany, rfl⟩)))))
    rw [hBoot]
  rw [hBoot] at hRoot hStack
  rcases (hPages' _).mp hHeld with hPage | hSame | ⟨hSame, -⟩ | hSame | ⟨k, hk, hk', hSame⟩
  · change holePage 5 = holePage bootWorld.calls at hPage
    rw [hBoot] at hPage
    exact absurd hPage (by decide)
  · change holePage 5 = p'.stack at hSame
    rw [hSameStack, hStack] at hSame
    exact absurd hSame (by decide)
  · change holePage 5 = p'.image at hSame
    rw [hImage] at hSame
    exact absurd hSame (by decide)
  · change holePage 5 = p.ptable at hSame
    rw [hRoot] at hSame
    exact absurd hSame (by decide)
  · have hLater : reusePage w₁.calls k = nextPage (k + 1) := by
      rw [reusePage, if_neg (by omega), holePage, skipHole, if_neg (by omega)]
    change k < w'.calls at hk'
    have hFirst : holePage 5 = nextPage 6 := rfl
    rw [hFirst] at hSame
    exact nextPage_ne (by decide) (by omega) (by omega) (hSame.trans hLater)

end FirstProcess

end Kernel
