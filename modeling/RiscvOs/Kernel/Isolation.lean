import RiscvOs.Kernel.ElfFacts

/-! Which physical pages a user process can reach after `p_new` and
`elf_load`. The callers of `mmu_map_multiple` pass the end of the virtual range
and a physical address where it takes a physical address and a byte count, so
a page of the stack or the image stands for physical memory elsewhere. -/
namespace Kernel

open Semantics Radix Mmu

/-- The ends of the memory region `ram` of the linker script. -/
def ramStart : Nat := 0x80050000

def ramEnd : Nat := ramStart + 220 * 1024 * 1024

/-- An allocation of `n` pages inside the memory region `ram`. -/
def InRam (base : Word) (n : Nat) : Prop :=
  ramStart ≤ base.toNat ∧ base.toNat + 4096 * n ≤ ramEnd

/-- A byte of an allocation of `n` pages; `NULL` is none. -/
def InAllocation (base : Word) (n : Nat) (x : Word) : Prop :=
  base ≠ 0 ∧ InRange base (4096 * n) x

/-- The leaf entry of a virtual address carries `PB_USER`. -/
def UserMapped (m : Memory) (table a : Word) : Prop :=
  ∃ entry, find (cells m) table (indices a 3) = some entry ∧ entry &&& pbUser ≠ 0

/-- User addresses lead to the stack page and to the image. -/
def Isolated (m : Memory) (p : Process) (imagePages : Nat) : Prop :=
  ∀ a, UserMapped m p.ptable a →
    InAllocation p.stack 1 (mmuTranslate m p.ptable a) ∨
      InAllocation p.image imagePages (mmuTranslate m p.ptable a)

theorem InAllocation.bounds {base x : Word} {n : Nat} (h : InAllocation base n x)
    (hRam : base ≠ 0 → InRam base n) : ramStart ≤ x.toNat ∧ x.toNat < ramEnd := by
  obtain ⟨hLow, hHigh⟩ := hRam h.1
  have hIn := h.2
  unfold ramEnd ramStart at *
  unfold InRange at hIn
  bv_omega

section Pages

variable {m : Memory} {p : Process} {n : Nat} {owned : Set Word} {a phys bits : Word}

theorem userMapped_of_leaf (hLeaf : find (cells m) p.ptable (indices a 3) = some (leafEntry phys bits))
    (hUser : bits &&& pbUser ≠ 0) : UserMapped m p.ptable a :=
  ⟨_, hLeaf, by rwa [leafEntry_and_pbUser]⟩

/-- A user page of an isolated process has its page number in RAM. -/
theorem Isolated.page_bounds (h : Isolated m p n) (hLayout : Layout m p.ptable owned)
    (hStack : p.stack ≠ 0 → InRam p.stack 1) (hImage : p.image ≠ 0 → InRam p.image n)
    (hLeaf : find (cells m) p.ptable (indices a 3) = some (leafEntry phys bits))
    (hBits : LeafBits bits) (hUser : bits &&& pbUser ≠ 0) :
    ramStart / 4096 ≤ phys.toNat / 4096 % 2 ^ 44 ∧ phys.toNat / 4096 % 2 ^ 44 < ramEnd / 4096 := by
  have hTranslate := mmuTranslate_of_leaf hLayout hLeaf hBits
  have hPage := toNat_pageAddr_div phys a
  rw [← hTranslate] at hPage
  have hBounds : ramStart ≤ (mmuTranslate m p.ptable a).toNat ∧
      (mmuTranslate m p.ptable a).toNat < ramEnd := by
    rcases h a (userMapped_of_leaf hLeaf hUser) with hIn | hIn
    · exact hIn.bounds hStack
    · exact hIn.bounds hImage
  unfold ramEnd ramStart at *
  omega

end Pages

variable {answer : Nat → Word} {g : Globals} {w w₁ w₂ : World} {p p' : Process} {elf : Word}
  {length : Nat}

/-- The number of bytes that are mapped for a stack or an image is an address
in RAM: more pages than RAM has, and fewer than there are page numbers. -/
theorem pageCount_of_inRam {base : Word} {n : Nat} (h : InRam base n) :
    56320 < pageCount base ∧ pageCount base ≤ 2 ^ 27 := by
  obtain ⟨hLow, hHigh⟩ := h
  unfold ramEnd ramStart at *
  unfold pageCount
  omega

/-- The pages of the image are mapped to more consecutive physical pages than
RAM has. -/
theorem not_isolated_of_image {owned : Set Word} {n : Nat}
    (hLoad : elfLoad answer w₁ p elf = some (true, p', w₂))
    (hLayout : Layout w₁.mem p.ptable owned)
    (hFresh : FreshLoad answer w₁ elf length owned w₂.calls)
    (hStack : p'.stack ≠ 0 → InRam p'.stack 1) (hSome : p'.image ≠ 0)
    (hImage : InRam p'.image n) : ¬ Isolated w₂.mem p' n := by
  obtain ⟨hLayout', hFind, -⟩ := elfLoad_spec hLoad hLayout hFresh
  obtain ⟨rfl, -⟩ := elfLoad_some hLoad
  obtain ⟨hMore, hFewer⟩ := pageCount_of_inRam hImage
  intro hIsolated
  have hPage (i : Nat) (hi : i ≤ 56320) :=
    hIsolated.page_bounds (a := (addressRange w₁.mem elf).adrStart + BitVec.ofNat 64 (4096 * i))
      hLayout' hStack (fun _ => hImage)
      (by
        rw [hFind, imageMaps, lastMapping_rangeMaps hFewer (lt_of_le_of_lt hi hMore) rfl]
        rfl)
      (by decide : LeafBits imageBits) (by decide)
  have hFirst := hPage 0 (by decide)
  have hLast := hPage 56320 (by decide)
  rw [BitVec.toNat_add, BitVec.toNat_ofNat] at hFirst hLast
  unfold ramEnd ramStart at *
  omega

/-- Without an image the stack pointer still leads to the physical page behind
its virtual page. -/
theorem not_isolated_of_stack {owned : Set Word} {n : Nat}
    (hNew : pNew answer g true w = some (some p, w₁))
    (hFreshProcess : FreshProcess answer w.calls w₁.calls)
    (hLoad : elfLoad answer w₁ p elf = some (true, p', w₂))
    (hFresh : FreshLoad answer w₁ elf length owned w₂.calls)
    (hLayout : Layout w₁.mem p.ptable owned) (hImage : p'.image = 0)
    (hSome : p'.stack ≠ 0) (hStack : InRam p'.stack 1) : ¬ Isolated w₂.mem p' n := by
  obtain ⟨-, -, ⟨phys₁, phys₂, phys₃, hNewFind⟩, -⟩ := pNew_spec hNew hFreshProcess
  obtain ⟨hLayout', hFind, -⟩ := elfLoad_spec hLoad hLayout hFresh
  obtain ⟨rfl, -⟩ := elfLoad_some hLoad
  obtain ⟨hMore, hFewer⟩ := pageCount_of_inRam hStack
  intro hIsolated
  have hNone : imageMaps w₁.mem elf (imageAddr answer w₁ elf) = [] := by
    rw [show imageAddr answer w₁ elf = 0 from hImage]
    rfl
  have hLeaf : find (cells w₂.mem) p.ptable (indices pDefaultStackPointer 3) =
      some (leafEntry (pDefaultStackPointer + 4096 + BitVec.ofNat 64 (4096 * 0))
        (stackBits true)) := by
    rw [hFind, hNone, hNewFind, lastMapping_append, stackMaps,
      lastMapping_rangeMaps hFewer (by omega) (i := 0) (by decide)]
    rfl
  have hPage := hIsolated.page_bounds hLayout' (fun _ => hStack)
    (fun hNull => absurd hImage hNull) hLeaf (by decide) (by decide)
  exact absurd hPage (by decide)

/-- Without a stack and an image nothing is mapped for the user. -/
theorem isolated_of_null {owned : Set Word} {n : Nat}
    (hNew : pNew answer g true w = some (some p, w₁))
    (hFreshProcess : FreshProcess answer w.calls w₁.calls)
    (hLoad : elfLoad answer w₁ p elf = some (true, p', w₂))
    (hFresh : FreshLoad answer w₁ elf length owned w₂.calls)
    (hLayout : Layout w₁.mem p.ptable owned) (hStack : p'.stack = 0) (hImage : p'.image = 0) :
    Isolated w₂.mem p' n := by
  obtain ⟨-, -, ⟨phys₁, phys₂, phys₃, hNewFind⟩, -⟩ := pNew_spec hNew hFreshProcess
  obtain ⟨-, hFind, -⟩ := elfLoad_spec hLoad hLayout hFresh
  obtain ⟨rfl, -⟩ := elfLoad_some hLoad
  rintro a ⟨entry, hEntry, hUser⟩
  have hNone : imageMaps w₁.mem elf (imageAddr answer w₁ elf) = [] := by
    rw [show imageAddr answer w₁ elf = 0 from hImage]
    rfl
  have hNoStack : stackMaps p.stack (stackBits true) = [] := by
    rw [show p.stack = 0 from hStack]
    rfl
  simp only [hFind, hNone, hNewFind, hNoStack, List.append_nil] at hEntry
  obtain ⟨c, hLast, rfl⟩ := Option.map_eq_some_iff.mp hEntry
  have hMem : c ∈ kernelMaps g (answer w.calls) phys₁ phys₂ phys₃ := by
    simpa using List.mem_of_find?_eq_some hLast
  rw [leafEntry_and_pbUser] at hUser
  rcases kernelMaps_bits hMem with hBits | hBits
  · exact absurd (by rw [hBits]; decide) hUser
  · exact absurd (by rw [hBits]; decide) hUser

/-- A user process reaches its own pages only if and only if it has none: both
allocations, of the stack and of the image, answered `NULL`. -/
theorem isolated_iff (hNew : pNew answer g true w = some (some p, w₁))
    (hFreshProcess : FreshProcess answer w.calls w₁.calls)
    (hLoad : elfLoad answer w₁ p elf = some (true, p', w₂))
    (hFresh : FreshLoad answer w₁ elf length
      (grow answer {answer (w.calls + 1)} (w.calls + 3) w₁.calls) w₂.calls)
    (hStack : answer (w.calls + 2) ≠ 0 → InRam (answer (w.calls + 2)) 1)
    (hImage : imageAddr answer w₁ elf ≠ 0 →
      InRam (imageAddr answer w₁ elf) (addressRange w₁.mem elf).numPages.toNat) :
    Isolated w₂.mem p' (addressRange w₁.mem elf).numPages.toNat ↔
      answer (w.calls + 2) = 0 ∧ imageAddr answer w₁ elf = 0 := by
  obtain ⟨hRoot, hStackPage, -⟩ := pNew_some hNew
  obtain ⟨-, hLayout, -⟩ := pNew_spec hNew hFreshProcess
  obtain ⟨hLoaded, -⟩ := elfLoad_some hLoad
  have hStack' : p'.stack = answer (w.calls + 2) := by rw [hLoaded, ← hStackPage]
  have hImage' : p'.image = imageAddr answer w₁ elf := by rw [hLoaded]
  rw [← hRoot] at hFresh
  rw [← hStack'] at hStack ⊢
  rw [← hImage'] at hImage ⊢
  constructor
  · intro hIsolated
    by_cases hNoImage : p'.image = 0
    · refine ⟨?_, hNoImage⟩
      by_contra hSome
      exact not_isolated_of_stack hNew hFreshProcess hLoad hFresh hLayout hNoImage hSome
        (hStack hSome) hIsolated
    · exact absurd hIsolated
        (not_isolated_of_image hLoad hLayout hFresh hStack hNoImage (hImage hNoImage))
  · rintro ⟨hNoStack, hNoImage⟩
    exact isolated_of_null hNew hFreshProcess hLoad hFresh hLayout hNoStack hNoImage

section FirstLoad

/-- An executable with one segment, at 0x80059000 in memory. -/
def smallElf : Memory :=
  let elf : Word := 0x80059000
  let m : Memory := fun _ => 0
  let m := (((m.store elf 0x7f).store (elf + 1) 0x45).store (elf + 2) 0x4c).store (elf + 3) 0x46
  let m := ((m.store (elf + 16) 2).store (elf + 18) 243).store (elf + 56) 1
  let m := (m.store64 (elf + 32) 64).store (elf + 64) 1
  ((m.store64 (elf + 80) 0x400000).store64 (elf + 96) 16).store64 (elf + 104) 16

/-- An executable with two segments of half a page, one behind the other. -/
def pairElf : Memory :=
  let elf : Word := 0x80059000
  let m := ((smallElf.store (elf + 56) 2).store64 (elf + 104) 0x800).store (elf + 120) 1
  let m := (m.store64 (elf + 128) 0x800).store64 (elf + 136) 0x400800
  (m.store64 (elf + 152) 16).store64 (elf + 160) 0x800

/-- Consecutive pages from 0x80060000 on. -/
def nextPage (k : Nat) : Word :=
  0x80060000 + BitVec.ofNat 64 (4096 * k)

/-- Of the mappings of the kernel those that `p_new` looks up: the page of the
spawn code and the page that the next process will get. -/
def bootMaps : List Mapping :=
  [⟨0x80051000, 0x80051000, pbExecute⟩, ⟨0x80062000, 0x80062000, pbReadWrite⟩]

def bootWorld : World :=
  mapAll nextPage 0x80058000 ⟨pairElf, 0⟩ bootMaps

def bootGlobals : Globals where
  kernelMmuTable := 0x80058000
  spawnThreadStart := 0x80051000
  spawnThreadEnd := 0x80051100
  spawnTrapStart := 0x80051100
  spawnTrapEnd := 0x80051200

theorem nextPage_toNat {k : Nat} (hk : k ≤ 2 ^ 48) :
    (nextPage k).toNat = 0x80060000 + 4096 * k := by
  rw [nextPage, BitVec.toNat_add, BitVec.toNat_ofNat]
  simp
  omega

/-- Pages of the answers are apart from the file and from the kernel's root. -/
theorem nextPage_not_inRange {k : Nat} (hk : k ≤ 2 ^ 48) {x : Word} (hx : x.toNat < 0x80060000) :
    ¬ InRange (nextPage k) 4096 x := by
  have hPage := nextPage_toNat hk
  unfold InRange
  bv_omega

theorem nextPage_ne_zero {k : Nat} (hk : k ≤ 2 ^ 48) : nextPage k ≠ 0 := by
  intro hNull
  have hPage := nextPage_toNat hk
  have hNone : (0 : Word).toNat = 0 := rfl
  rw [hNull, hNone] at hPage
  omega

/-- The first 2 ^ 15 of the pages lie in RAM. -/
theorem nextPage_inRam {k : Nat} (hk : k ≤ 2 ^ 15) : InRam (nextPage k) 1 := by
  unfold InRam ramEnd ramStart
  rw [nextPage_toNat (by omega)]
  omega

theorem freshTables_nextPage :
    FreshTables nextPage {0x80058000} 0 (2 ^ 48) :=
  freshTables_consecutive (by decide) (by decide) (by decide) (by
    rintro t rfl
    unfold Apart
    decide)

theorem smallElf_outside {x : Word} (hx : ¬ InRange 0x80059000 4096 x) : smallElf x = 0 := by
  have hFirst (m : Memory) (value : Byte) : m.store 0x80059000 value x = m x :=
    m.store_outside (k := 0) value hx (by decide)
  have hByte (m : Memory) (k : Word) (value : Byte) (hk : k.toNat < 4096) :
      m.store (0x80059000 + k) value x = m x := m.store_outside value hx hk
  have hWord (m : Memory) (k value : Word) (hk : k.toNat + 8 ≤ 4096) :
      m.store64 (0x80059000 + k) value x = m x := m.store64_outside value hx hk
  simp (disch := decide) only [smallElf, hByte, hWord, hFirst]

theorem pairElf_outside {x : Word} (hx : ¬ InRange 0x80059000 4096 x) : pairElf x = 0 := by
  have hByte (m : Memory) (k : Word) (value : Byte) (hk : k.toNat < 4096) :
      m.store (0x80059000 + k) value x = m x := m.store_outside value hx hk
  have hWord (m : Memory) (k value : Word) (hk : k.toNat + 8 ≤ 4096) :
      m.store64 (0x80059000 + k) value x = m x := m.store64_outside value hx hk
  simp (disch := decide) only [pairElf, hByte, hWord]
  exact smallElf_outside hx

theorem bootWorld_spec : bootWorld.calls = 2 ∧
    Layout bootWorld.mem 0x80058000 (grow nextPage {0x80058000} 0 2) ∧
    Memory.AgreeOn pairElf bootWorld.mem 0x80059000 4096 := by
  have hCalls : bootWorld.calls = 2 := by decide +kernel
  have hZero : ∀ x, InRange 0x80058000 4096 x → pairElf x = 0 := fun x hx =>
    pairElf_outside (by unfold InRange at hx ⊢; bv_omega)
  have hFresh : FreshTables nextPage {0x80058000} 0 bootWorld.calls :=
    freshTables_nextPage.before (by rw [hCalls]; decide)
  obtain ⟨hLayout, -, hFrame⟩ := mapAll_spec (w := ⟨pairElf, 0⟩) (layout_of_zero hZero).1
    bootMaps (by decide) hFresh
  refine ⟨hCalls, hCalls ▸ hLayout, fun x hx => hFrame x ?_⟩
  have hFile : 0x80059000 ≤ x.toNat ∧ x.toNat < 0x80060000 := by
    unfold InRange at hx
    bv_omega
  rintro t (rfl | ⟨k, -, hk, rfl⟩)
  · unfold InRange
    bv_omega
  · have hFew : k < 2 := hCalls ▸ hk
    exact nextPage_not_inRange (by omega) hFile.2

theorem freshProcess_nextPage {hi : Nat} (hHi : hi ≤ 2 ^ 48) :
    FreshProcess nextPage bootWorld.calls hi := by
  rw [bootWorld_spec.1]
  refine ⟨by decide, fun _ => ?_,
    ((freshTables_nextPage.after (by decide)).before hHi).subset ?_⟩
  · unfold Apart
    decide
  · rintro t rfl
    exact .inr ⟨3, by decide, by decide, rfl⟩

/-- The next process is created when its pages are apart from the tables of the
kernel and its own page is the one that the kernel has mapped. -/
theorem boot_pNew {answer : Nat → Word}
    (hFresh : FreshTables answer (grow nextPage {0x80058000} 0 2) 2 (2 ^ 47 + 5))
    (hPage : answer 2 = 0x80062000) (hStack : (answer 4).toNat < 2 ^ 56) :
    ∃ p w₁, pNew answer bootGlobals true bootWorld = some (some p, w₁) ∧
      w₁.calls ≤ 2 ^ 47 + 5 ∧
      w₁ = mapAll answer (answer (bootWorld.calls + 1)) (allocPages answer bootWorld)
        (newMaps answer bootGlobals true bootWorld) := by
  obtain ⟨hCalls, hLayout, -⟩ := bootWorld_spec
  refine pNew_returns hLayout ?_ ?_ ?_ ?_ ?_ ?_ ?_ ?_
  · decide +kernel
  · decide +kernel
  · rw [hCalls, hPage]
    decide +kernel
  · rw [hCalls]
    exact (hFresh 2 (by decide) (by decide)).1
  · rw [hCalls]
    exact freshProcess_of_fresh hFresh (by decide)
  · rw [hCalls]
    exact fun t ht k hk hk' => ((hFresh k hk hk').2.2 t (.inl ht)).symm
  · rw [hCalls]
    exact hStack
  · rw [hCalls]
    decide

/-- A range that is given an address in RAM for its number of bytes. -/
theorem cost_range {v p bits bytes : Word} (hStart : v.toNat ≤ 0x1cafe0000)
    (hBytes : bytes.toNat ≤ ramStart + 0x40000) :
    cost none (rangeMaps v p bits (pageCount bytes)) ≤ 4 * 1028 := by
  have hCount : pageCount bytes ≤ 0x80090 := by
    unfold pageCount ramStart at *
    omega
  have hCost := @cost_rangeMaps v p bits (pageCount bytes) (by omega)
  omega

/-- A new process whose ranges and pages are near the start of RAM. -/
theorem cost_newMaps {page phys₁ phys₂ phys₃ stack bits : Word}
    (hThread : g.spawnThreadStart.toNat ≤ 0x1cafe0000) (hTrap : g.spawnTrapStart.toNat ≤ 0x1cafe0000)
    (hPage : page.toNat ≤ 0x1cafe0000) (hPhys₁ : phys₁.toNat ≤ ramStart + 0x40000)
    (hPhys₂ : phys₂.toNat ≤ ramStart + 0x40000) (hPhys₃ : phys₃.toNat ≤ ramStart + 0x40000)
    (hStack : stack.toNat ≤ ramStart + 0x40000) :
    cost none (kernelMaps g page phys₁ phys₂ phys₃ ++ stackMaps stack bits) ≤ 2 ^ 15 - 2 ^ 10 := by
  have hText := cost_append none (rangeMaps g.spawnThreadStart g.spawnThreadEnd pbExecute
    (pageCount phys₁)) (rangeMaps g.spawnTrapStart g.spawnTrapEnd pbExecute (pageCount phys₂))
  have hKernel := cost_append none (rangeMaps g.spawnThreadStart g.spawnThreadEnd pbExecute
    (pageCount phys₁) ++ rangeMaps g.spawnTrapStart g.spawnTrapEnd pbExecute (pageCount phys₂))
    (rangeMaps page (page + sizeofFrame) pbReadWrite (pageCount phys₃))
  have hAll := cost_append none (kernelMaps g page phys₁ phys₂ phys₃) (stackMaps stack bits)
  have hFirst := @cost_range g.spawnThreadStart g.spawnThreadEnd pbExecute phys₁ hThread hPhys₁
  have hSecond := @cost_range g.spawnTrapStart g.spawnTrapEnd pbExecute phys₂ hTrap hPhys₂
  have hThird := @cost_range page (page + sizeofFrame) pbReadWrite phys₃ hPage hPhys₃
  have hLast := @cost_range pDefaultStackPointer (pDefaultStackPointer + 4096) bits stack
    (by decide) hStack
  rw [kernelMaps, stackMaps] at hAll ⊢
  omega

/-- What the kernel's tables translate the ranges of the first process to. -/
theorem newMaps_first : newMaps nextPage bootGlobals true bootWorld =
    kernelMaps bootGlobals 0x80062000 0x80051000 0x80051100 0x80062000 ++
      stackMaps 0x80064000 (stackBits true) := by
  have hThread : mmuTranslate bootWorld.mem bootGlobals.kernelMmuTable
      bootGlobals.spawnThreadStart = 0x80051000 := by decide +kernel
  have hTrap : mmuTranslate bootWorld.mem bootGlobals.kernelMmuTable
      bootGlobals.spawnTrapStart = 0x80051100 := by decide +kernel
  have hFrame : mmuTranslate bootWorld.mem bootGlobals.kernelMmuTable (nextPage 2) =
      0x80062000 := by decide +kernel
  rw [newMaps, bootWorld_spec.1, hThread, hTrap, hFrame, show nextPage 2 = 0x80062000 by decide,
    show nextPage (2 + 2) = 0x80064000 by decide]

/-- The first process is created, and leaves most of RAM free: each of its ranges has
about 2 ^ 19 pages, and all of them take less than 2 ^ 14 tables. -/
theorem first_pNew : ∃ p w₁, pNew nextPage bootGlobals true bootWorld = some (some p, w₁) ∧
    w₁.calls ≤ 2 ^ 14 := by
  obtain ⟨p, w₁, hNew, hFar, hMaps⟩ :=
    boot_pNew ((freshTables_nextPage.after (by decide)).before (by decide)) rfl (by decide)
  have hFresh := freshProcess_nextPage (show w₁.calls ≤ 2 ^ 48 by omega)
  have hBits : ∀ c ∈ newMaps nextPage bootGlobals true bootWorld, LeafBits c.bits :=
    fun c hc => newMaps_leaf hc
  have hCalls := hFresh.calls_le_cost hBits hMaps
  have hCost : cost none (newMaps nextPage bootGlobals true bootWorld) ≤ 2 ^ 15 - 2 ^ 10 := by
    rw [newMaps_first]
    exact cost_newMaps (by decide) (by decide) (by decide) (by decide) (by decide) (by decide)
      (by decide)
  rw [bootWorld_spec.1] at hCalls
  exact ⟨p, w₁, hNew, by omega⟩

theorem fileAt_pairElf : FileAt pairElf 0x80059000 4096 := by
  refine ⟨by decide, ?_, by decide⟩
  decide +kernel

section PairElf

variable (hFile : Memory.AgreeOn pairElf w.mem 0x80059000 4096)
include hFile

/-- What `elf_load` reads of the file. -/
theorem pairElf_header : FileAt w.mem 0x80059000 4096 ∧
    phdrs w.mem 0x80059000 = [⟨1, 0, 0x400000, 16, 0x800⟩, ⟨1, 0x800, 0x400800, 16, 0x800⟩] ∧
    addressRange w.mem 0x80059000 = ⟨0x400000, 0x401000, true⟩ ∧
    isExecutable w.mem 0x80059000 = true := by
  have hPhdrs : phdrs w.mem 0x80059000 =
      [⟨1, 0, 0x400000, 16, 0x800⟩, ⟨1, 0x800, 0x400800, 16, 0x800⟩] := by
    rw [fileAt_pairElf.phdrs_congr hFile]
    decide +kernel
  refine ⟨fileAt_pairElf.congr hFile, hPhdrs, ?_, ?_⟩
  · rw [addressRange, hPhdrs]
    decide
  · rw [fileAt_pairElf.isExecutable_congr hFile]
    decide +kernel

/-- The image is the next page. -/
theorem imageAddr_pairElf : imageAddr nextPage w 0x80059000 = nextPage w.calls ∧
    (addressRange w.mem 0x80059000).numPages = 1 := by
  obtain ⟨-, -, hRange, -⟩ := pairElf_header hFile
  have hPages : (addressRange w.mem 0x80059000).numPages = 1 := by
    rw [hRange]
    decide
  refine ⟨?_, hPages⟩
  rw [imageAddr, hPages, (cpageZnalloc_page _ _).1]

theorem inImage_pairElf {x : Word} (hx : InImage nextPage w 0x80059000 x) :
    InRange (nextPage w.calls) 4096 x := by
  obtain ⟨hAddr, hPages⟩ := imageAddr_pairElf hFile
  have hIn := hx.2
  rwa [hAddr, hPages] at hIn

/-- Each segment is copied to its half of the image. -/
theorem inCopies_pairElf {x : Word} (hx : InCopies nextPage w 0x80059000 x) :
    InRange (nextPage w.calls) 4096 x := by
  obtain ⟨-, hPhdrs, hRange, -⟩ := pairElf_header hFile
  obtain ⟨phdr, hMem, -, hIn⟩ := hx
  rw [(imageAddr_pairElf hFile).1, hRange] at hIn
  rw [hPhdrs] at hMem
  have hSize : copySize 0x800 = 0x800 := by decide
  simp only [List.mem_cons, List.not_mem_nil, or_false] at hMem
  rcases hMem with rfl | rfl
  · unfold InRange at hIn ⊢
    simp only [hSize] at hIn
    bv_omega
  · unfold InRange at hIn ⊢
    simp only [hSize] at hIn
    bv_omega

theorem pairElf_returns (p : Process) (hFew : w.calls ≤ 2 ^ 15) :
    ∃ p' w', elfLoad nextPage w p 0x80059000 = some (true, p', w') ∧
      w.calls + 1 ≤ w'.calls ∧ w'.calls ≤ w.calls + 2 ^ 22 := by
  obtain ⟨-, -, hRange, hExecutable⟩ := pairElf_header hFile
  have hImage := (imageAddr_pairElf hFile).1
  have hAddr := nextPage_toNat (k := w.calls) (by omega)
  obtain ⟨p', w', hLoad⟩ := elfLoad_returns p hExecutable (by rw [hRange]) (by rw [hImage]; omega)
  obtain ⟨-, hMaps⟩ := elfLoad_some hLoad
  have hCalls : (copied nextPage w 0x80059000).calls = w.calls + 1 := cpageZnalloc_calls _ _ _
  have hMore := @mapAll_calls_le nextPage p.ptable (copied nextPage w 0x80059000)
    (imageMaps w.mem 0x80059000 (imageAddr nextPage w 0x80059000))
  have hBound := @mapAll_calls_bound nextPage p.ptable (copied nextPage w 0x80059000)
    (imageMaps w.mem 0x80059000 (imageAddr nextPage w 0x80059000))
  rw [← hMaps, hCalls] at hMore
  rw [← hMaps, hCalls, imageMaps, rangeMaps, List.length_map, List.length_range, hImage,
    pageCount] at hBound
  exact ⟨p', w', hLoad, hMore, by omega⟩

/-- The image is apart from the file and from the tables before it. -/
theorem freshLoad_pairElf {owned : Set Word} {hi : Nat} (hFew : w.calls ≤ 2 ^ 15)
    (hOwned : owned ⊆ grow nextPage {0x80058000} 0 w.calls) (hHi : hi ≤ 2 ^ 48) :
    FreshLoad nextPage w 0x80059000 4096 owned hi := by
  have hPage {x : Word} (hx : InRange 0x80059000 4096 x) : ¬ InRange (nextPage w.calls) 4096 x := by
    apply nextPage_not_inRange (by omega)
    unfold InRange at hx
    bv_omega
  have hTable {t x : Word} (ht : t ∈ owned) (hx : InRange t 4096 x) :
      ¬ InRange (nextPage w.calls) 4096 x :=
    ((freshTables_nextPage w.calls (Nat.zero_le _) (by omega)).2.2 t (hOwned ht)).symm.not_inRange hx
  refine ⟨(pairElf_header hFile).1, fun x hx hIn => hPage hx (inImage_pairElf hFile hIn),
    fun t ht x hx hIn => hTable ht hx (inImage_pairElf hFile hIn),
    fun x hx hIn => hPage hx (inCopies_pairElf hFile hIn),
    fun t ht x hx hIn => hTable ht hx (inCopies_pairElf hFile hIn), ?_⟩
  refine ((freshTables_nextPage.after (Nat.zero_le _)).before hHi).subset fun t ht => ?_
  rw [← grow_grow {0x80058000} (Nat.zero_le w.calls) (Nat.le_succ _)]
  exact subset_grow _ _ _ (hOwned ht)

end PairElf

/-- The file is still there when the first process has been created. -/
theorem first_file (hNew : pNew nextPage bootGlobals true bootWorld = some (some p, w₁))
    (hCalls : w₁.calls ≤ 2 ^ 14) : Memory.AgreeOn pairElf w₁.mem 0x80059000 4096 := by
  obtain ⟨-, -, hBoot⟩ := bootWorld_spec
  obtain ⟨-, -, -, hFrame⟩ := pNew_spec hNew (freshProcess_nextPage (by omega))
  refine hBoot.trans fun x hx => hFrame x fun k _ hk => nextPage_not_inRange (by omega) ?_
  unfold InRange at hx
  bv_omega

/-- The first process is created and loads its file, with an image of one page. -/
theorem first_elfLoad : ∃ p w₁ p' w₂, pNew nextPage bootGlobals true bootWorld = some (some p, w₁) ∧
    elfLoad nextPage w₁ p 0x80059000 = some (true, p', w₂) ∧
    FreshProcess nextPage bootWorld.calls w₁.calls ∧
    FreshLoad nextPage w₁ 0x80059000 4096
      (grow nextPage {nextPage (bootWorld.calls + 1)} (bootWorld.calls + 3) w₁.calls) w₂.calls ∧
    w₁.calls ≤ 2 ^ 14 ∧ imageAddr nextPage w₁ 0x80059000 = nextPage w₁.calls ∧
    (addressRange w₁.mem 0x80059000).numPages = 1 := by
  obtain ⟨p, w₁, hNew, hCalls⟩ := first_pNew
  have hFile := first_file hNew hCalls
  have hProcess := freshProcess_nextPage (show w₁.calls ≤ 2 ^ 48 by omega)
  obtain ⟨p', w₂, hLoad, -, hMore⟩ := pairElf_returns hFile p (by omega)
  obtain ⟨hAddr, hPages⟩ := imageAddr_pairElf hFile
  have hLate := (pNew_spec hNew hProcess).1
  refine ⟨p, w₁, p', w₂, hNew, hLoad, hProcess,
    freshLoad_pairElf hFile (by omega) ?_ (by omega), hCalls, hAddr, hPages⟩
  rintro t (rfl | ⟨k, -, hk, rfl⟩)
  · exact .inr ⟨_, Nat.zero_le _, by omega, rfl⟩
  · exact .inr ⟨k, Nat.zero_le _, hk, rfl⟩

/-- The first process has a stack and an image in RAM, and the addresses of its image
lead to physical pages that are not in RAM. -/
theorem not_isolated_first : ∃ p w₁ p' w₂,
    pNew nextPage bootGlobals true bootWorld = some (some p, w₁) ∧
    elfLoad nextPage w₁ p 0x80059000 = some (true, p', w₂) ∧
    InRam p'.stack 1 ∧ InRam p'.image (addressRange w₁.mem 0x80059000).numPages.toNat ∧
    ¬ Isolated w₂.mem p' (addressRange w₁.mem 0x80059000).numPages.toNat := by
  obtain ⟨p, w₁, p', w₂, hNew, hLoad, hProcess, hFresh, hCalls, hAddr, hPages⟩ := first_elfLoad
  obtain ⟨hRoot, hStackPage, -⟩ := pNew_some hNew
  obtain ⟨-, hLayout, -⟩ := pNew_spec hNew hProcess
  obtain ⟨hLoaded, -⟩ := elfLoad_some hLoad
  have hStack : InRam p'.stack 1 := by
    rw [hLoaded, hStackPage, bootWorld_spec.1]
    exact nextPage_inRam (by decide)
  have hImage : p'.image = nextPage w₁.calls := by rw [hLoaded, hAddr]
  have hRam : InRam p'.image 1 := by
    rw [hImage]
    exact nextPage_inRam (by omega)
  rw [← hRoot] at hFresh
  refine ⟨p, w₁, p', w₂, hNew, hLoad, hStack, ?_⟩
  rw [hPages]
  refine ⟨hRam, ?_⟩
  exact not_isolated_of_image hLoad hLayout hFresh (fun _ => hStack)
    (hImage ▸ nextPage_ne_zero (by omega)) hRam

theorem isolated_iff_first : ∃ p w₁ p' w₂,
    pNew nextPage bootGlobals true bootWorld = some (some p, w₁) ∧
    elfLoad nextPage w₁ p 0x80059000 = some (true, p', w₂) ∧
    (Isolated w₂.mem p' (addressRange w₁.mem 0x80059000).numPages.toNat ↔
      nextPage (bootWorld.calls + 2) = 0 ∧ imageAddr nextPage w₁ 0x80059000 = 0) := by
  obtain ⟨p, w₁, p', w₂, hNew, hLoad, hProcess, hFresh, hCalls, hAddr, hPages⟩ := first_elfLoad
  refine ⟨p, w₁, p', w₂, hNew, hLoad, isolated_iff hNew hProcess hLoad hFresh (fun _ => ?_)
    fun _ => ?_⟩
  · rw [bootWorld_spec.1]
    exact nextPage_inRam (by decide)
  · rw [hAddr, hPages]
    exact nextPage_inRam (by omega)

end FirstLoad

end Kernel
