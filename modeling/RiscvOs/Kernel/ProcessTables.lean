import RiscvOs.Kernel.Process
import RiscvOs.Kernel.MmuCost

/-! The page table that `p_new` leaves: which leaves it has, and what of
memory changes. -/
namespace Kernel

open Semantics Radix Mmu

variable {answer : Nat → Word} {g : Globals} {w w' : World} {p : Process} {user : Bool}

section Pages

theorem cpageZnalloc_page (answer : Nat → Word) (w : World) :
    (cpageZnalloc answer 1 w).1 = answer w.calls ∧
      (cpageZnalloc answer 1 w).2.calls = w.calls + 1 := by
  unfold cpageZnalloc
  split
  next hNull => exact ⟨(hNull.resolve_left (by decide)).symm, rfl⟩
  · exact ⟨rfl, rfl⟩

theorem cpageZnalloc_outside {n : Int} {x : Word}
    (hx : (cpageZnalloc answer n w).1 ≠ 0 →
      ¬ InRange (cpageZnalloc answer n w).1 (4096 * n.toNat) x) :
    (cpageZnalloc answer n w).2.mem x = w.mem x := by
  unfold cpageZnalloc at hx ⊢
  split at hx
  next hNull => rw [if_pos hNull]
  next hSome =>
    rw [if_neg hSome]
    exact Memory.fill_outside _ _ (hx fun hNull => hSome (.inr hNull))

theorem cpageZnalloc_calls (answer : Nat → Word) (n : Int) (w : World) :
    (cpageZnalloc answer n w).2.calls = w.calls + 1 := by
  unfold cpageZnalloc
  split <;> rfl

/-- The process page, the root page table and the stack. -/
def allocPages (answer : Nat → Word) (w : World) : World :=
  (cpageZnalloc answer 1 (cpageZnalloc answer 1 (cpageZnalloc answer 1 w).2).2).2

theorem allocPages_calls (answer : Nat → Word) (w : World) :
    (allocPages answer w).calls = w.calls + 3 := by
  simp only [allocPages, cpageZnalloc_page]

theorem allocPages_outside {x : Word}
    (hx : ∀ k, w.calls ≤ k → k < w.calls + 3 → ¬ InRange (answer k) 4096 x) :
    (allocPages answer w).mem x = w.mem x := by
  have hPage (v : World) (hLow : w.calls ≤ v.calls) (hHigh : v.calls < w.calls + 3) :
      (cpageZnalloc answer 1 v).2.mem x = v.mem x :=
    cpageZnalloc_outside fun _ => by
      rw [(cpageZnalloc_page answer v).1]
      exact hx v.calls hLow hHigh
  have hFirst := (cpageZnalloc_page answer w).2
  have hSecond := (cpageZnalloc_page answer (cpageZnalloc answer 1 w).2).2
  rw [allocPages, hPage _ (by omega) (by omega), hPage _ (by omega) (by omega),
    hPage _ (by omega) (by omega)]

/-- The root page table is zero when the stack is another page. -/
theorem allocPages_root (hRoot : answer (w.calls + 1) ≠ 0)
    (hStack : answer (w.calls + 2) ≠ 0 →
      Apart (answer (w.calls + 1)) 4096 (answer (w.calls + 2)) 4096) {x : Word}
    (hx : InRange (answer (w.calls + 1)) 4096 x) : (allocPages answer w).mem x = 0 := by
  have hFirst := (cpageZnalloc_page answer w).2
  have hSecond := (cpageZnalloc_page answer (cpageZnalloc answer 1 w).2).2
  rw [hFirst] at hSecond
  rw [allocPages, cpageZnalloc_outside]
  · have hNone : ¬ ((1 : Int) ≤ 0 ∨ answer (cpageZnalloc answer 1 w).2.calls = 0) := by
      rw [hFirst]
      exact not_or.mpr ⟨by decide, hRoot⟩
    rw [cpageZnalloc, if_neg hNone, hFirst]
    exact Memory.fill_inside _ _ hx
  · rw [(cpageZnalloc_page answer _).1, hSecond]
    exact fun hSome => (hStack hSome).symm.not_inRange hx

end Pages

/-- The calls of `mmu_map` for the spawn code and the trap frame. The byte
counts are the physical addresses that `p_init` passes in their place. -/
def kernelMaps (g : Globals) (page phys₁ phys₂ phys₃ : Word) : List Mapping :=
  rangeMaps g.spawnThreadStart g.spawnThreadEnd pbExecute (pageCount phys₁) ++
    rangeMaps g.spawnTrapStart g.spawnTrapEnd pbExecute (pageCount phys₂) ++
    rangeMaps page (page + sizeofFrame) pbReadWrite (pageCount phys₃)

/-- The calls for the stack, with its address for the byte count. -/
def stackMaps (stack bits : Word) : List Mapping :=
  rangeMaps pDefaultStackPointer (pDefaultStackPointer + 4096) bits (pageCount stack)

theorem mapAll_append (w : World) (root : Word) (maps maps' : List Mapping) :
    mapAll answer root w (maps ++ maps') = mapAll answer root (mapAll answer root w maps) maps' :=
  List.foldl_append

theorem kernelMaps_bits {page phys₁ phys₂ phys₃ : Word} {c : Mapping}
    (hc : c ∈ kernelMaps g page phys₁ phys₂ phys₃) : c.bits = pbExecute ∨ c.bits = pbReadWrite := by
  simp only [kernelMaps, List.mem_append] at hc
  rcases hc with (hc | hc) | hc
  · exact .inl (bits_of_mem_rangeMaps hc)
  · exact .inl (bits_of_mem_rangeMaps hc)
  · exact .inr (bits_of_mem_rangeMaps hc)

theorem mapKernelRange_some {table vStart vEnd bits : Word}
    (hCall : mapKernelRange answer g w table vStart vEnd bits = some w') :
    w' = mapAll answer table w (rangeMaps vStart vEnd bits
      (pageCount (mmuTranslate w.mem g.kernelMmuTable vStart))) :=
  mmuMapMultiple_some hCall

/-- What the kernel table translates the start of the spawn code to when
`p_new` maps it. -/
def threadPhys (answer : Nat → Word) (g : Globals) (w : World) : Word :=
  mmuTranslate (allocPages answer w).mem g.kernelMmuTable g.spawnThreadStart

/-- A process that `p_new` returns, and the calls of `mmu_map` behind it. -/
theorem pNew_maps (hNew : pNew answer g user w = some (some p, w')) :
    p.ptable = answer (w.calls + 1) ∧ p.stack = answer (w.calls + 2) ∧ p.image = 0 ∧
      p.stackPgNum = 1 ∧ ∃ phys₂ phys₃, w' = mapAll answer p.ptable (allocPages answer w)
        (kernelMaps g (answer w.calls) (threadPhys answer g w) phys₂ phys₃ ++
          stackMaps p.stack (stackBits user)) := by
  obtain ⟨hPage, hCalls⟩ := cpageZnalloc_page answer w
  obtain ⟨hRoot, hCalls'⟩ := cpageZnalloc_page answer (cpageZnalloc answer 1 w).2
  obtain ⟨hStack, -⟩ := cpageZnalloc_page answer
    (cpageZnalloc answer 1 (cpageZnalloc answer 1 w).2).2
  rw [hCalls'] at hStack
  rw [hCalls] at hRoot hStack
  simp only [pNew, pInit, Option.bind_eq_bind, Option.bind_eq_some_iff] at hNew
  obtain ⟨⟨q, v⟩, hInit, hNew⟩ := hNew
  split at hInit
  · cases hInit
    cases hNew
  · simp only [Option.bind_eq_some_iff, Option.some.injEq, Prod.mk.injEq] at hInit
    obtain ⟨v₁, hThread, v₂, hTrap, v₃, hFrame, rfl, rfl⟩ := hInit
    simp only [Option.bind_eq_some_iff, Option.some.injEq, Prod.mk.injEq] at hNew
    obtain ⟨v₄, hLast, rfl, rfl⟩ := hNew
    rw [hRoot] at hThread hTrap hFrame hLast
    rw [hPage] at hFrame
    rw [hStack] at hLast
    refine ⟨hRoot, hStack, rfl, rfl, mmuTranslate v₁.mem g.kernelMmuTable g.spawnTrapStart,
      mmuTranslate v₂.mem g.kernelMmuTable (answer w.calls), ?_⟩
    simp only [hRoot, hStack, kernelMaps, mapAll_append, stackMaps, threadPhys]
    rw [← allocPages] at hThread
    rw [← mapKernelRange_some hThread, ← mapKernelRange_some hTrap, ← mapKernelRange_some hFrame]
    exact mmuMapMultiple_some hLast

theorem pNew_some (hNew : pNew answer g user w = some (some p, w')) :
    p.ptable = answer (w.calls + 1) ∧ p.stack = answer (w.calls + 2) ∧ p.image = 0 ∧
      ∃ phys₁ phys₂ phys₃, w' = mapAll answer p.ptable (allocPages answer w)
        (kernelMaps g (answer w.calls) phys₁ phys₂ phys₃ ++ stackMaps p.stack (stackBits user)) := by
  obtain ⟨hRoot, hStack, hImage, -, phys₂, phys₃, hMaps⟩ := pNew_maps hNew
  exact ⟨hRoot, hStack, hImage, _, phys₂, phys₃, hMaps⟩

theorem stackBits_leaf (user : Bool) : LeafBits (stackBits user) := by
  cases user <;> decide

theorem kernelMaps_leaf {page phys₁ phys₂ phys₃ : Word} {c : Mapping}
    (hc : c ∈ kernelMaps g page phys₁ phys₂ phys₃) : LeafBits c.bits := by
  rcases kernelMaps_bits hc with hBits | hBits
  · rw [hBits]
    decide
  · rw [hBits]
    decide

/-- The pages that `p_new` asks for are apart from each other, and it gets
its root page table. -/
structure FreshProcess (answer : Nat → Word) (lo hi : Nat) : Prop where
  root : answer (lo + 1) ≠ 0
  stack : answer (lo + 2) ≠ 0 → Apart (answer (lo + 1)) 4096 (answer (lo + 2)) 4096
  tables : FreshTables answer {answer (lo + 1)} (lo + 3) hi

/-- Three fresh pages and fresh tables. -/
theorem freshProcess_of_fresh {owned : Set Word} {lo hi : Nat} (h : FreshTables answer owned lo hi)
    (hThree : lo + 3 ≤ hi) : FreshProcess answer lo hi where
  root := (h (lo + 1) (by omega) (by omega)).1
  stack := fun _ =>
    (h (lo + 2) (by omega) (by omega)).2.2 _ (.inr ⟨lo + 1, by omega, by omega, rfl⟩)
  tables := by
    refine (h.after (by omega)).subset ?_
    rintro t rfl
    exact .inr ⟨lo + 1, by omega, by omega, rfl⟩

/-- The tables of a new process hold what its calls of `mmu_map` put there. -/
theorem FreshProcess.mapAll (hFresh : FreshProcess answer w.calls w'.calls) {maps : List Mapping}
    (hBits : ∀ c ∈ maps, LeafBits c.bits)
    (hMaps : w' = Mmu.mapAll answer (answer (w.calls + 1)) (allocPages answer w) maps) :
    w.calls + 3 ≤ w'.calls ∧
      Layout w'.mem (answer (w.calls + 1))
        (grow answer {answer (w.calls + 1)} (w.calls + 3) w'.calls) ∧
      (∀ a, find (cells w'.mem) (answer (w.calls + 1)) (indices a 3) =
        (lastMapping maps a).map fun c => leafEntry c.paddr c.bits) ∧
      ∀ x, (∀ k, w.calls ≤ k → k < w'.calls → ¬ InRange (answer k) 4096 x) →
        w'.mem x = w.mem x := by
  have hLayout := layout_of_zero (m := (allocPages answer w).mem)
    fun x hx => allocPages_root hFresh.root hFresh.stack hx
  have hTables := hFresh.tables
  rw [← allocPages_calls answer w] at hTables
  have hCalls := @mapAll_calls_le answer (answer (w.calls + 1)) (allocPages answer w) maps
  obtain ⟨hEnd, hFind, hFrame⟩ := mapAll_spec hLayout.1 maps
    (fun c hc => (hBits c hc).2) (by rwa [← hMaps])
  rw [← hMaps, allocPages_calls] at hCalls hEnd hFrame
  rw [← hMaps] at hFind
  refine ⟨hCalls, hEnd, fun a => ?_, fun x hx => ?_⟩
  · rw [hFind, hLayout.2, Option.or_none]
  · rw [hFrame x, allocPages_outside fun k hk hk' => hx k hk (by omega)]
    rintro t (rfl | ⟨k, hk, hk', rfl⟩)
    · exact hx _ (by omega) (by omega)
    · exact hx k (by omega) hk'

/-- The pages that a new process takes for its tables. -/
theorem FreshProcess.calls_le_cost (hFresh : FreshProcess answer w.calls w'.calls)
    {maps : List Mapping} (hBits : ∀ c ∈ maps, LeafBits c.bits)
    (hMaps : w' = Mmu.mapAll answer (answer (w.calls + 1)) (allocPages answer w) maps) :
    2 * w'.calls ≤ 2 * (w.calls + 3) + cost none maps := by
  have hLayout := layout_of_zero (m := (allocPages answer w).mem)
    fun x hx => allocPages_root hFresh.root hFresh.stack hx
  have hTables := hFresh.tables
  rw [← allocPages_calls answer w] at hTables ⊢
  have hCost := (mapAll_cost hLayout.1 maps (fun c hc => (hBits c hc).2) (by rwa [← hMaps])).1
  rwa [← hMaps] at hCost

theorem newMaps_leaf {page stack phys₁ phys₂ phys₃ : Word} {c : Mapping}
    (hc : c ∈ kernelMaps g page phys₁ phys₂ phys₃ ++ stackMaps stack (stackBits user)) :
    LeafBits c.bits := by
  rcases List.mem_append.mp hc with hc | hc
  · exact kernelMaps_leaf hc
  · rw [bits_of_mem_rangeMaps hc]
    exact stackBits_leaf user

/-- The leaves of a new process are those of its calls of `mmu_map`. -/
theorem pNew_spec (hNew : pNew answer g user w = some (some p, w'))
    (hFresh : FreshProcess answer w.calls w'.calls) :
    w.calls + 3 ≤ w'.calls ∧
      Layout w'.mem p.ptable (grow answer {p.ptable} (w.calls + 3) w'.calls) ∧
      (∃ phys₁ phys₂ phys₃, ∀ a, find (cells w'.mem) p.ptable (indices a 3) =
        (lastMapping (kernelMaps g (answer w.calls) phys₁ phys₂ phys₃ ++
          stackMaps p.stack (stackBits user)) a).map fun c => leafEntry c.paddr c.bits) ∧
      ∀ x, (∀ k, w.calls ≤ k → k < w'.calls → ¬ InRange (answer k) 4096 x) →
        w'.mem x = w.mem x := by
  obtain ⟨hRoot, -, -, phys₁, phys₂, phys₃, hMaps⟩ := pNew_some hNew
  rw [hRoot] at hMaps ⊢
  obtain ⟨hCalls, hLayout, hFind, hFrame⟩ := hFresh.mapAll (fun c hc => newMaps_leaf hc) hMaps
  exact ⟨hCalls, hLayout, ⟨phys₁, phys₂, phys₃, hFind⟩, hFrame⟩

/-- A world on the way of `p_new`: the tables of the process so far, and the
kernel's tables as they were. -/
structure Building (answer : Nat → Word) (w : World) (kernel : Set Word) (v : World) : Prop where
  calls_le : w.calls + 3 ≤ v.calls
  layout : Layout v.mem (answer (w.calls + 1))
    (grow answer {answer (w.calls + 1)} (w.calls + 3) v.calls)
  kept : ∀ t ∈ kernel, Memory.AgreeOn w.mem v.mem t 4096

section Building

variable {kernel : Set Word} {hi : Nat} {v : World}

theorem building_start (hFresh : FreshProcess answer w.calls hi) (hHi : w.calls + 3 ≤ hi)
    (hApart : ∀ t ∈ kernel, ∀ k, w.calls ≤ k → k < hi → Apart (answer k) 4096 t 4096) :
    Building answer w kernel (allocPages answer w) := by
  have hZero := layout_of_zero (m := (allocPages answer w).mem)
    fun x hx => allocPages_root hFresh.root hFresh.stack hx
  refine ⟨(allocPages_calls answer w).ge, ?_, fun t ht x hx => allocPages_outside
    fun k hk hk' => (hApart t ht k hk (by omega)).not_inRange hx⟩
  rw [allocPages_calls, grow_self]
  exact hZero.1

theorem Building.map (h : Building answer w kernel v) (hFresh : FreshProcess answer w.calls hi)
    (hApart : ∀ t ∈ kernel, ∀ k, w.calls ≤ k → k < hi → Apart (answer k) 4096 t 4096)
    (vStart pStart : Word) {bytes bits : Word} (hBits : LeafBits bits)
    (hBytes : bytes.toNat < 2 ^ 56) (hRoom : v.calls + 2 ^ 45 ≤ hi) :
    ∃ v', mmuMapMultiple answer v (answer (w.calls + 1)) vStart pStart bytes bits = some v' ∧
      v'.calls ≤ v.calls + 2 ^ 45 ∧ Building answer w kernel v' := by
  have hLow := h.calls_le
  have hEnds : bytes.toNat ≤ 2 ^ 64 - 4096 := by omega
  have hCount : 2 * pageCount bytes ≤ 2 ^ 45 := by
    unfold pageCount
    omega
  obtain ⟨v', hMap, hMore, hBound, hLayout, hOutside⟩ :=
    mmuMapMultiple_spec vStart pStart h.layout hLow hBits hEnds hFresh.tables (by omega)
  refine ⟨v', hMap, by omega, by omega, hLayout, fun t ht x hx => ?_⟩
  rw [hOutside x, h.kept t ht x hx]
  rintro n (rfl | ⟨k, hk, hk', rfl⟩)
  · exact (hApart t ht _ (by omega) (by omega)).not_inRange hx
  · exact (hApart t ht k (by omega) (by omega)).not_inRange hx

/-- The tables of the kernel translate as before. -/
theorem Building.translate (h : Building answer w kernel v)
    (hKernel : Layout w.mem g.kernelMmuTable kernel) (a : Word) :
    mmuTranslate v.mem g.kernelMmuTable a = mmuTranslate w.mem g.kernelMmuTable a := by
  obtain ⟨hSame, hFind⟩ := hKernel.agree h.kept
  rw [mmuTranslate_eq hSame, hFind, ← mmuTranslate_eq hKernel]

theorem Building.mapKernel (h : Building answer w kernel v)
    (hFresh : FreshProcess answer w.calls hi)
    (hApart : ∀ t ∈ kernel, ∀ k, w.calls ≤ k → k < hi → Apart (answer k) 4096 t 4096)
    (hKernel : Layout w.mem g.kernelMmuTable kernel) {vStart : Word}
    (hMapped : mmuTranslate w.mem g.kernelMmuTable vStart ≠ -1) (vEnd : Word) {bits : Word}
    (hBits : LeafBits bits) (hRoom : v.calls + 2 ^ 45 ≤ hi) :
    ∃ v', mapKernelRange answer g v (answer (w.calls + 1)) vStart vEnd bits = some v' ∧
      v' = mapAll answer (answer (w.calls + 1)) v (rangeMaps vStart vEnd bits
        (pageCount (mmuTranslate w.mem g.kernelMmuTable vStart))) ∧
      v'.calls ≤ v.calls + 2 ^ 45 ∧ Building answer w kernel v' := by
  have hTranslate := h.translate hKernel vStart
  obtain ⟨v', hMap, hCalls, hv'⟩ := h.map hFresh hApart vStart vEnd hBits
    ((mmuTranslate_lt hKernel vStart).resolve_left hMapped) hRoom
  rw [← hTranslate] at hMap ⊢
  exact ⟨v', hMap, mapKernelRange_some hMap, hCalls, hv'⟩

/-- The calls of `mmu_map` for a new process, by what the tables of the kernel
translate the starts of its ranges to. -/
def newMaps (answer : Nat → Word) (g : Globals) (user : Bool) (w : World) : List Mapping :=
  kernelMaps g (answer w.calls) (mmuTranslate w.mem g.kernelMmuTable g.spawnThreadStart)
    (mmuTranslate w.mem g.kernelMmuTable g.spawnTrapStart)
    (mmuTranslate w.mem g.kernelMmuTable (answer w.calls)) ++
      stackMaps (answer (w.calls + 2)) (stackBits user)

/-- When the kernel maps its own ranges in tables apart from the new pages,
`p_new` returns. -/
theorem pNew_returns (hKernel : Layout w.mem g.kernelMmuTable kernel)
    (hThread : mmuTranslate w.mem g.kernelMmuTable g.spawnThreadStart ≠ -1)
    (hTrap : mmuTranslate w.mem g.kernelMmuTable g.spawnTrapStart ≠ -1)
    (hFrame : mmuTranslate w.mem g.kernelMmuTable (answer w.calls) ≠ -1)
    (hPage : answer w.calls ≠ 0) (hFresh : FreshProcess answer w.calls hi)
    (hApart : ∀ t ∈ kernel, ∀ k, w.calls ≤ k → k < hi → Apart (answer k) 4096 t 4096)
    (hStack : (answer (w.calls + 2)).toNat < 2 ^ 56) (hHi : w.calls + 3 + 2 ^ 47 ≤ hi) :
    ∃ p w', pNew answer g user w = some (some p, w') ∧ w'.calls ≤ hi ∧
      w' = mapAll answer (answer (w.calls + 1)) (allocPages answer w) (newMaps answer g user w) := by
  obtain ⟨hFirst, hCalls⟩ := cpageZnalloc_page answer w
  obtain ⟨hRoot, hCalls'⟩ := cpageZnalloc_page answer (cpageZnalloc answer 1 w).2
  obtain ⟨hLast, -⟩ := cpageZnalloc_page answer
    (cpageZnalloc answer 1 (cpageZnalloc answer 1 w).2).2
  rw [hCalls'] at hLast
  rw [hCalls] at hRoot hLast
  have hAlloc := allocPages_calls answer w
  obtain ⟨v₁, hMap₁, hEq₁, hCalls₁, hv₁⟩ := (building_start hFresh (by omega) hApart).mapKernel hFresh
    hApart hKernel hThread g.spawnThreadEnd (by decide : LeafBits pbExecute) (by omega)
  obtain ⟨v₂, hMap₂, hEq₂, hCalls₂, hv₂⟩ := hv₁.mapKernel hFresh hApart hKernel hTrap
    g.spawnTrapEnd (by decide : LeafBits pbExecute) (by omega)
  obtain ⟨v₃, hMap₃, hEq₃, hCalls₃, hv₃⟩ := hv₂.mapKernel hFresh hApart hKernel hFrame
    (answer w.calls + sizeofFrame) (by decide : LeafBits pbReadWrite) (by omega)
  obtain ⟨v₄, hMap₄, hCalls₄, -⟩ := hv₃.map hFresh hApart pDefaultStackPointer
    (pDefaultStackPointer + 1 * 4096) (stackBits_leaf user) hStack (by omega)
  have hEq₄ := mmuMapMultiple_some hMap₄
  have hMaps : v₄ = mapAll answer (answer (w.calls + 1)) (allocPages answer w)
      (newMaps answer g user w) := by
    simp only [newMaps, kernelMaps, mapAll_append, stackMaps]
    rw [← hEq₁, ← hEq₂, ← hEq₃]
    exact hEq₄
  rw [allocPages] at hMap₁
  simp only [pNew, pInit, hFirst, hRoot, hLast, if_neg hPage, Option.bind_eq_bind,
    Option.bind_some, hMap₁, hMap₂, hMap₃, hMap₄]
  exact ⟨_, _, rfl, by omega, hMaps⟩

end Building

end Kernel
