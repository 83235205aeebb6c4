import RiscvOs.Kernel.Isolation

/-! Which addresses a new process has. `p_init` and `p_new` pass the end of
each range where `mmu_map_multiple` takes its physical address, and the
physical address where it takes the number of bytes. -/
namespace Kernel

open Semantics Radix Mmu

/-- The page of an address is one that the range from `lo` up to `hi` touches. -/
def Touches (lo hi a : Word) : Prop :=
  ∃ x, lo ≤ x ∧ x < hi ∧ x.toNat / 4096 = a.toNat / 4096

/-- The end of the virtual stack. -/
def stackEnd (p : Process) : Word :=
  pDefaultStackPointer + p.stackPgNum * 4096

/-- A process at the address `addr` sees the spawn code, the trap code and its
frame where the kernel sees them, its stack pages at the stack pointer, and
nothing else. -/
structure SpaceExact (m : Memory) (g : Globals) (p : Process) (addr : Word) : Prop where
  thread : ∀ a, g.spawnThreadStart ≤ a → a < g.spawnThreadEnd →
    mmuTranslate m p.ptable a = mmuTranslate m g.kernelMmuTable a
  trap : ∀ a, g.spawnTrapStart ≤ a → a < g.spawnTrapEnd →
    mmuTranslate m p.ptable a = mmuTranslate m g.kernelMmuTable a
  frame : ∀ a, addr ≤ a → a < addr + sizeofFrame →
    mmuTranslate m p.ptable a = mmuTranslate m g.kernelMmuTable a
  stack : ∀ a, pDefaultStackPointer ≤ a → a < stackEnd p →
    mmuTranslate m p.ptable a = p.stack + (a - pDefaultStackPointer)
  other : ∀ a, a.toNat < 2 ^ 39 → ¬ Touches g.spawnThreadStart g.spawnThreadEnd a →
    ¬ Touches g.spawnTrapStart g.spawnTrapEnd a → ¬ Touches addr (addr + sizeofFrame) a →
    ¬ Touches pDefaultStackPointer (stackEnd p) a → mmuTranslate m p.ptable a = -1

/-- The spawn code and the trap code lie in the memory region `ram`. -/
structure TextInRam (g : Globals) : Prop where
  threadStart : ramStart ≤ g.spawnThreadStart.toNat ∧ g.spawnThreadStart.toNat ≤ ramEnd
  threadEnd : g.spawnThreadEnd.toNat ≤ ramEnd
  trapEnd : g.spawnTrapEnd.toNat ≤ ramEnd

/-- A range that ends in RAM touches no page behind it. -/
theorem not_touches {lo hi a : Word} (hEnd : hi.toNat ≤ ramEnd) (ha : ramEnd ≤ a.toNat) :
    ¬ Touches lo hi a := by
  rintro ⟨x, -, hx, hPage⟩
  have hBelow : x.toNat < hi.toNat := hx
  unfold ramEnd ramStart at *
  omega

section LastMapping

variable {maps : List Mapping} {a : Word}

/-- The page of a call has a last mapping. -/
theorem lastMapping_some {c : Mapping} (hc : c ∈ maps) (hPage : vpn27 c.vaddr = vpn27 a) :
    ∃ d ∈ maps, lastMapping maps a = some d := by
  have hSome : (lastMapping maps a).isSome := by
    rw [lastMapping, List.find?_isSome]
    exact ⟨c, List.mem_reverse.mpr hc, by simpa using hPage⟩
  obtain ⟨d, hd⟩ := Option.isSome_iff_exists.mp hSome
  exact ⟨d, by simpa using List.mem_of_find?_eq_some hd, hd⟩

/-- A page with a leaf is mapped. -/
theorem mmuTranslate_ne_of_leaf {m : Memory} {root p bits : Word} {owned : Set Word}
    (h : Layout m root owned) (hBits : LeafBits bits)
    (hLeaf : find (cells m) root (indices a 3) = some (leafEntry p bits)) :
    mmuTranslate m root a ≠ -1 := by
  rw [mmuTranslate_of_leaf h hLeaf hBits]
  intro hNone
  have hTop := congrArg (·.getLsbD 63) hNone
  simp at hTop

end LastMapping

variable {answer : Nat → Word} {g : Globals} {w w' : World} {p : Process} {user : Bool}
  {kernel : Set Word}

/-- The kernel sees the spawn code where it is, also after the pages of a new
process are allocated. -/
theorem threadPhys_eq (hKernel : Layout w.mem g.kernelMmuTable kernel)
    (hApart : ∀ t ∈ kernel, ∀ k, w.calls ≤ k → k < w.calls + 3 → Apart (answer k) 4096 t 4096)
    (hThread : mmuTranslate w.mem g.kernelMmuTable g.spawnThreadStart = g.spawnThreadStart) :
    threadPhys answer g w = g.spawnThreadStart := by
  obtain ⟨hSame, hFind⟩ := hKernel.agree fun t ht x hx => allocPages_outside
    fun k hk hk' => (hApart t ht k hk hk').not_inRange hx
  rw [threadPhys, mmuTranslate_eq hSame, hFind, ← mmuTranslate_eq hKernel, hThread]

/-- The range of the spawn code is mapped for as many bytes as its address
says, up to 4 GiB at least. -/
theorem mapped_behind_thread (hNew : pNew answer g user w = some (some p, w'))
    (hFresh : FreshProcess answer w.calls w'.calls)
    (hPhys : threadPhys answer g w = g.spawnThreadStart) (hText : TextInRam g) {a : Word}
    (hLow : g.spawnThreadStart.toNat ≤ a.toNat) (hHigh : a.toNat < 0x100000000) :
    mmuTranslate w'.mem p.ptable a ≠ -1 := by
  obtain ⟨hRoot, -, -, -, phys₂, phys₃, hMaps⟩ := pNew_maps hNew
  rw [hPhys, hRoot] at hMaps
  obtain ⟨-, hLayout, hFind, -⟩ := hFresh.mapAll (fun c hc => newMaps_leaf hc) hMaps
  obtain ⟨hStart, hEnd⟩ := hText.threadStart
  -- the page of `a` counted from the one of the spawn code
  let i := a.toNat / 4096 - g.spawnThreadStart.toNat / 4096
  have hCount : i < pageCount g.spawnThreadStart := by
    unfold pageCount ramEnd ramStart at *
    omega
  have hPage : vpn27 (g.spawnThreadStart + BitVec.ofNat 64 (4096 * i)) = vpn27 a := by
    apply BitVec.eq_of_toNat_eq
    rw [toNat_vpn27, toNat_vpn27, BitVec.toNat_add, BitVec.toNat_ofNat]
    unfold ramEnd ramStart at *
    omega
  have hCall : (⟨g.spawnThreadStart + BitVec.ofNat 64 (4096 * i),
      g.spawnThreadEnd + BitVec.ofNat 64 (4096 * i), pbExecute⟩ : Mapping) ∈
      kernelMaps g (answer w.calls) g.spawnThreadStart phys₂ phys₃ ++
        stackMaps p.stack (stackBits user) := by
    apply List.mem_append_left
    apply List.mem_append_left
    apply List.mem_append_left
    exact List.mem_map.mpr ⟨i, List.mem_range.mpr hCount, rfl⟩
  obtain ⟨d, hd, hLast⟩ := lastMapping_some hCall hPage
  rw [hRoot]
  refine mmuTranslate_ne_of_leaf (p := d.paddr) hLayout (newMaps_leaf hd) ?_
  rw [hFind, hLast]
  rfl

/-- No new process has exactly the addresses that it should have: pages behind
RAM are mapped that none of its ranges touches. -/
theorem not_spaceExact (hNew : pNew answer g user w = some (some p, w'))
    (hFresh : FreshProcess answer w.calls w'.calls)
    (hKernel : Layout w.mem g.kernelMmuTable kernel)
    (hApart : ∀ t ∈ kernel, ∀ k, w.calls ≤ k → k < w'.calls → Apart (answer k) 4096 t 4096)
    (hThread : mmuTranslate w.mem g.kernelMmuTable g.spawnThreadStart = g.spawnThreadStart)
    (hText : TextInRam g) (hPage : InRam (answer w.calls) 1) :
    ¬ SpaceExact w'.mem g p (answer w.calls) := by
  intro h
  obtain ⟨-, -, -, hPages, -⟩ := pNew_maps hNew
  obtain ⟨hMore, -⟩ := pNew_spec hNew hFresh
  have hPhys := threadPhys_eq hKernel
    (fun t ht k hk hk' => hApart t ht k hk (by omega)) hThread
  have hBeyond : ramEnd ≤ (0x90000000#64).toNat := by decide
  have hFrame : (answer w.calls + sizeofFrame).toNat ≤ ramEnd := by
    obtain ⟨hLow, hHigh⟩ := hPage
    unfold ramEnd ramStart sizeofFrame at *
    bv_omega
  have hStack : ¬ Touches pDefaultStackPointer (stackEnd p) 0x90000000 := by
    rintro ⟨x, hx, -, hSame⟩
    unfold pDefaultStackPointer at hx
    bv_omega
  refine mapped_behind_thread hNew hFresh hPhys hText
    (hText.threadStart.2.trans hBeyond) (by decide) ?_
  exact h.other 0x90000000 (by decide) (not_touches hText.threadEnd hBeyond)
    (not_touches hText.trapEnd hBeyond) (not_touches hFrame hBeyond) hStack

/-- A stack in RAM is not where the stack pointer leads. -/
theorem stack_elsewhere (hNew : pNew answer g user w = some (some p, w'))
    (hFresh : FreshProcess answer w.calls w'.calls) (hStack : InRam p.stack 1) :
    mmuTranslate w'.mem p.ptable pDefaultStackPointer = pDefaultStackPointer + 4096 := by
  obtain ⟨-, hLayout, ⟨phys₁, phys₂, phys₃, hFind⟩, -⟩ := pNew_spec hNew hFresh
  obtain ⟨hMore, hFewer⟩ := pageCount_of_inRam hStack
  have hLeaf : find (cells w'.mem) p.ptable (indices pDefaultStackPointer 3) =
      some (leafEntry (pDefaultStackPointer + 4096 + BitVec.ofNat 64 (4096 * 0))
        (stackBits user)) := by
    rw [hFind, lastMapping_append, stackMaps,
      lastMapping_rangeMaps hFewer (by omega) (i := 0) (by decide)]
    rfl
  rw [mmuTranslate_of_leaf hLayout hLeaf (stackBits_leaf user)]
  decide

section FirstProcess

theorem bootText : TextInRam bootGlobals := by
  constructor <;> decide

/-- The tables of the kernel and the pages of the first process. -/
theorem first_apart {n : Nat} (hn : n ≤ 2 ^ 48) : ∀ t ∈ grow nextPage {0x80058000} 0 2,
    ∀ k, 2 ≤ k → k < n → Apart (nextPage k) 4096 t 4096 := by
  intro t ht k hk hk'
  obtain ⟨-, -, hApart⟩ := freshTables_nextPage k (Nat.zero_le _) (by omega)
  refine (hApart t (ht.imp_right ?_)).symm
  rintro ⟨j, hj, hj', rfl⟩
  exact ⟨j, hj, by omega, rfl⟩

/-- The stack pointer of the first process leads to no stack. -/
theorem not_spaceExact_of_stack : ∃ p w₁, pNew nextPage bootGlobals true bootWorld =
    some (some p, w₁) ∧ ¬ SpaceExact w₁.mem bootGlobals p (nextPage 2) := by
  obtain ⟨p, w₁, hNew, hCalls⟩ := first_pNew
  obtain ⟨-, hStack, -, hPages, -⟩ := pNew_maps hNew
  rw [bootWorld_spec.1] at hStack
  refine ⟨p, w₁, hNew, fun h => ?_⟩
  have hThere := h.stack pDefaultStackPointer (BitVec.le_refl _)
    (by rw [stackEnd, hPages]; decide)
  rw [stack_elsewhere hNew (freshProcess_nextPage (by omega))
    (by rw [hStack]; exact nextPage_inRam (by decide)), hStack] at hThere
  exact absurd hThere (by decide)

theorem first_threadPhys : threadPhys nextPage bootGlobals bootWorld =
    bootGlobals.spawnThreadStart := by
  obtain ⟨hBoot, hLayout, -⟩ := bootWorld_spec
  refine threadPhys_eq hLayout ?_ ?_
  · rw [hBoot]
    exact first_apart (by decide)
  · decide +kernel

theorem not_spaceExact_first : ∃ p w₁, pNew nextPage bootGlobals true bootWorld =
    some (some p, w₁) ∧ ¬ SpaceExact w₁.mem bootGlobals p (nextPage bootWorld.calls) := by
  obtain ⟨p, w₁, hNew, hCalls⟩ := first_pNew
  obtain ⟨hBoot, hLayout, -⟩ := bootWorld_spec
  refine ⟨p, w₁, hNew, not_spaceExact hNew (freshProcess_nextPage (by omega)) hLayout ?_ ?_ bootText ?_⟩
  · rw [hBoot]
    exact first_apart (by omega)
  · decide +kernel
  · rw [hBoot]
    exact nextPage_inRam (by decide)

end FirstProcess

end Kernel
