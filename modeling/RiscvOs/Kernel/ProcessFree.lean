import RiscvOs.Kernel.MmuFree
import RiscvOs.Kernel.ElfFacts
import RiscvOs.Semantics.Transition

/-! `p_free` (`process.c`), and the life of a process from `p_new` to it. -/
namespace Kernel

open Semantics Radix Mmu

/-- `p_free` on the process at the address `page`; the process is read before
its page is freed. -/
def pFree (depth : Nat) (m : Memory) (page : Word) (p : Process) : Option (Process × Freed) :=
  if page = 0 then some (p, ⟨m, []⟩)
  else do
    let p := { p with state := .dead }
    let s : Freed := ⟨m, []⟩
    let s := if p.stack ≠ 0 then cpageFree p.stack s else s
    let s := if p.image ≠ 0 then cpageFree p.image s else s
    let s ← if p.ptable ≠ 0 then mmuFree depth p.ptable s else some s
    some (p, cpageFree page s)

/-- A process in its page, and as a record the page tables that its calls of
`mmu_map` took from `cpage_znalloc`, with the root. -/
structure Life where
  page : Word
  p : Process
  w : World
  tables : Set Word

/-- What a process holds: its page, its stack, its image if there is one, and
its page tables. -/
def Life.pages (s : Life) : Set Word :=
  {x | x = s.page ∨ x = s.p.stack ∨ (x = s.p.image ∧ s.p.image ≠ 0) ∨ x ∈ s.tables}

/-- Behind `p_new`. -/
def Life.start (answer : Nat → Word) (w : World) (p : Process) (w' : World) : Life where
  page := answer w.calls
  p := p
  w := w'
  tables := grow answer {p.ptable} (w.calls + 3) w'.calls

/-- A call of `mmu_map` on the table of the process. -/
def Life.map (answer : Nat → Word) (vaddr paddr bits : Word) (s : Life) : Life :=
  let w' := (mmuMap answer s.w s.p.ptable vaddr paddr bits).2
  { s with w := w', tables := grow answer s.tables s.w.calls w'.calls }

/-- A call of `elf_load` that returned `true`; its first request is the image. -/
def Life.load (answer : Nat → Word) (p' : Process) (w' : World) (s : Life) : Life :=
  { s with p := p', w := w', tables := grow answer s.tables (s.w.calls + 1) w'.calls }

inductive LifeEvent where
  | map (answer : Nat → Word) (vaddr paddr bits : Word)
  | load (answer : Nat → Word) (elf : Word)
  | write (m : Memory)

/-- Calls of `mmu_map` with permission bits, one `elf_load` that gets an image,
and writes to other memory than the page and the tables of the process, in any
order. The pages that `cpage_znalloc` answers are fresh. -/
inductive LifeStep : Life → LifeEvent → Life → Prop where
  | map {s : Life} {answer : Nat → Word} {vaddr paddr bits : Word} (leaf : LeafBits bits)
      (fresh : FreshTables answer s.pages s.w.calls
        (mmuMap answer s.w s.p.ptable vaddr paddr bits).2.calls) :
      LifeStep s (.map answer vaddr paddr bits) (s.map answer vaddr paddr bits)
  | load {s : Life} {answer : Nat → Word} {elf : Word} {p' : Process} {w' : World}
      (call : elfLoad answer s.w s.p elf = some (true, p', w')) (first : s.p.image = 0)
      (image : p'.image ≠ 0)
      (apart : ∀ t ∈ s.pages, ∀ x, InRange t 4096 x → ¬ InImage answer s.w elf x)
      (fresh : FreshTables answer (insert p'.image s.pages) (s.w.calls + 1) w'.calls) :
      LifeStep s (.load answer elf) (s.load answer p' w')
  | write {s : Life} {m : Memory}
      (apart : ∀ t ∈ insert s.page s.tables, Memory.AgreeOn s.w.mem m t 4096) :
      LifeStep s (.write m) { s with w.mem := m }

/-- From the given iteration on, no copy of the second loop of `elf_load` writes
to an address. Each header is read when the loop comes to it. -/
def CopiesSpare (x elf table image adrStart : Word) (m : Memory) (i : Nat) : Nat → Prop
  | 0 => True
  | fuel + 1 => i < (ePhnum m elf).toNat →
      ¬ InTarget image adrStart (phdrAt m table i) x ∧
        CopiesSpare x elf table image adrStart
          (copySegment elf image adrStart m (phdrAt m table i)) (i + 1) fuel

/-- `elf_load` copies no byte of the file into the page of the process or into
one of its page tables. -/
def Spares (s : Life) : LifeEvent → Prop
  | .load answer elf => ∀ t ∈ insert s.page s.tables, ∀ x, InRange t 4096 x →
      CopiesSpare x elf (elf + ePhoff s.w.mem elf) (imageAddr answer s.w elf)
        (addressRange s.w.mem elf).adrStart
        (cpageZnalloc answer (addressRange s.w.mem elf).numPages s.w).2.mem 0 (2 ^ 16)
  | _ => True

/-- `p_free` returns, and has called `cpage_free` once for each page of the
process and for nothing else. -/
def TeardownExact (s : Life) : Prop :=
  ∀ depth, 3 ≤ depth → ∃ p' t, pFree depth s.w.mem s.page s.p = some (p', t) ∧
    t.pages.Nodup ∧ ∀ x, x ∈ t.pages ↔ x ∈ s.pages

/-- The page tables of a process are those of its record, and the pages that it
holds are different. -/
structure Intact (s : Life) : Prop where
  page : s.page ≠ 0
  stack : s.p.stack ≠ 0
  layout : Layout s.w.mem s.p.ptable s.tables
  reached : Reached (cells s.w.mem) s.p.ptable s.tables
  root : s.p.ptable ≠ 0
  stack_page : s.p.stack ≠ s.page
  page_tables : s.page ∉ s.tables
  stack_tables : s.p.stack ∉ s.tables
  image : s.p.image ≠ 0 → s.p.image ≠ s.page ∧ s.p.image ≠ s.p.stack ∧ s.p.image ∉ s.tables

variable {s t : Life} {event : LifeEvent} {events : List LifeEvent}

theorem copyLoop_spare {x elf table image adrStart : Word} {m : Memory} {i fuel : Nat}
    (h : CopiesSpare x elf table image adrStart m i fuel) :
    copyLoop elf table image adrStart m i fuel x = m x := by
  induction fuel generalizing m i with
  | zero => rfl
  | succ fuel ih =>
      rw [copyLoop]
      split
      next hi =>
        obtain ⟨hTarget, hRest⟩ := h hi
        rw [ih hRest]
        exact copySegment_outside hTarget
      · rfl

/-- As long as the copies stay in the pages, the second loop reads the headers
of the file. -/
theorem copiesSpare_iff {m m₀ : Memory} {elf image adrStart : Word} {length i fuel : Nat}
    {pages : Set Word} (hFile : FileAt m₀ elf length)
    (hApart : ∀ x, InRange elf length x → x ∉ pages) (hAgree : Memory.AgreeOn m₀ m elf length)
    (hFuel : (ePhnum m₀ elf).toNat ≤ i + fuel) :
    (∀ x ∉ pages, CopiesSpare x elf (elf + ePhoff m₀ elf) image adrStart m i fuel) ↔
      ∀ phdr ∈ (phdrs m₀ elf).drop i, ∀ x, InTarget image adrStart phdr x → x ∈ pages := by
  have hLength : (phdrs m₀ elf).length = (ePhnum m₀ elf).toNat := by
    rw [phdrs, List.length_map, List.length_range]
  induction fuel generalizing m i with
  | zero =>
      rw [List.drop_eq_nil_of_le (by omega)]
      simp [CopiesSpare]
  | succ fuel ih =>
      by_cases hi : i < (ePhnum m₀ elf).toNat
      · have hItem : (phdrs m₀ elf)[i] = phdrAt m₀ (elf + ePhoff m₀ elf) i := by
          simp only [phdrs, List.getElem_map, List.getElem_range]
        have hRest : (phdrs m₀ elf).drop i =
            phdrAt m₀ (elf + ePhoff m₀ elf) i :: (phdrs m₀ elf).drop (i + 1) := by
          rw [List.drop_eq_getElem_cons (by omega), hItem]
        have hNext (h : ∀ x, InTarget image adrStart (phdrAt m₀ (elf + ePhoff m₀ elf) i) x →
            x ∈ pages) := ih (i := i + 1) (hAgree.trans fun x hx =>
              @copySegment_outside m elf image adrStart x _ fun hIn => hApart x hx (h x hIn)) (by omega)
        simp only [CopiesSpare, hFile.ePhnum_congr hAgree, hi, true_implies,
          hFile.phdrAt_congr hAgree hi, hRest, List.mem_cons, forall_eq_or_imp]
        constructor
        · intro hSpare
          have hFirst (x : Word) (hIn : InTarget image adrStart
              (phdrAt m₀ (elf + ePhoff m₀ elf) i) x) : x ∈ pages := by
            by_contra hx
            exact (hSpare x hx).1 hIn
          exact ⟨hFirst, (hNext hFirst).mp fun x hx => (hSpare x hx).2⟩
        · rintro ⟨hFirst, hLater⟩ x hx
          exact ⟨fun hIn => hx (hFirst x hIn), (hNext hFirst).mpr hLater x hx⟩
      · rw [List.drop_eq_nil_of_le (by omega)]
        simp [CopiesSpare, hFile.ePhnum_congr hAgree, hi]

/-- The tables survive a load that spares them. -/
theorem copied_spare {answer : Nat → Word} {elf x : Word}
    (hImage : ¬ InImage answer s.w elf x)
    (hCopies : CopiesSpare x elf (elf + ePhoff s.w.mem elf) (imageAddr answer s.w elf)
      (addressRange s.w.mem elf).adrStart
      (cpageZnalloc answer (addressRange s.w.mem elf).numPages s.w).2.mem 0 (2 ^ 16)) :
    (copied answer s.w elf).mem x = s.w.mem x := by
  refine (copyLoop_spare hCopies).trans (cpageZnalloc_outside fun hSome hIn => ?_)
  exact hImage ⟨hSome, hIn⟩

theorem Life.tables_subset (s : Life) : s.tables ⊆ s.pages :=
  fun _ hx => .inr (.inr (.inr hx))

theorem Life.page_mem (s : Life) : s.page ∈ s.pages :=
  .inl rfl

theorem Life.stack_mem (s : Life) : s.p.stack ∈ s.pages :=
  .inr (.inl rfl)

namespace Intact

/-- The pages of the three requests of `p_new` and its tables. -/
theorem start {answer : Nat → Word} {g : Globals} {w w' : World} {p : Process} {user : Bool}
    (hNew : pNew answer g user w = some (some p, w'))
    (hFresh : FreshTables answer ∅ w.calls w'.calls) : Intact (Life.start answer w p w') := by
  obtain ⟨hRoot, hStack, hImage, -, phys₂, phys₃, hMaps⟩ := pNew_maps hNew
  have hCalls : w.calls + 3 ≤ w'.calls := by
    rw [hMaps, ← allocPages_calls answer w]
    exact mapAll_calls_le _ _
  have hPage (k : Nat) (hk : w.calls ≤ k) (hk' : k < w'.calls) : answer k ≠ 0 :=
    (hFresh k hk hk').1
  have hNe (j k : Nat) (hj : w.calls ≤ j) (hk : j < k) (hk' : k < w'.calls) :
      answer j ≠ answer k := hFresh.ne (by omega) hk' (.inr ⟨j, hj, hk, rfl⟩)
  have hProcess : FreshProcess answer w.calls w'.calls := freshProcess_of_fresh hFresh hCalls
  obtain ⟨-, hLayout, -⟩ := pNew_spec hNew hProcess
  have hZero := layout_of_zero (m := (allocPages answer w).mem)
    fun x hx => allocPages_root hProcess.root hProcess.stack hx
  have hReached : Reached (cells w'.mem) p.ptable
      (grow answer {p.ptable} (w.calls + 3) w'.calls) := by
    rw [hRoot] at hMaps ⊢
    have hGrown := mapAll_reached hZero.1 (reached_root _ _) _ (fun c hc => newMaps_leaf hc)
      (by rw [← hMaps, allocPages_calls]; exact hProcess.tables)
    rwa [← hMaps, allocPages_calls] at hGrown
  have hOutside (j : Nat) (hj : w.calls ≤ j) (hj' : j ≠ w.calls + 1) (hLow : j < w.calls + 3) :
      answer j ∉ grow answer {p.ptable} (w.calls + 3) w'.calls := by
    have hLater : FreshTables answer (grow answer ∅ w.calls (w.calls + 3)) (w.calls + 3) w'.calls :=
      hFresh.after (by omega)
    refine hLater.not_mem_grow (.inr ⟨j, hj, hLow, rfl⟩) ?_
    rw [hRoot, Set.mem_singleton_iff]
    rcases Nat.lt_or_gt_of_ne hj' with hLess | hMore
    · exact hNe _ _ hj hLess (by omega)
    · exact (hNe _ _ (by omega) hMore (by omega)).symm
  exact {
    page := hPage _ (Nat.le_refl _) (by omega)
    stack := hStack ▸ hPage _ (by omega) (by omega)
    layout := hLayout
    reached := hReached
    root := hRoot ▸ hPage _ (by omega) (by omega)
    stack_page := hStack ▸ (hNe _ _ (Nat.le_refl _) (by omega) (by omega)).symm
    page_tables := hOutside _ (Nat.le_refl _) (by omega) (by omega)
    stack_tables := hStack ▸ hOutside _ (by omega) (by omega) (by omega)
    image := fun hSome => absurd hImage hSome }

theorem map (h : Intact s) {answer : Nat → Word} {vaddr paddr bits : Word} (hBits : LeafBits bits)
    (hFresh : FreshTables answer s.pages s.w.calls
      (mmuMap answer s.w s.p.ptable vaddr paddr bits).2.calls) :
    Intact (s.map answer vaddr paddr bits) where
  page := h.page
  stack := h.stack
  layout := (mmuMap_spec h.layout vaddr paddr hBits.2 (hFresh.subset s.tables_subset)).1
  reached := mmuMap_reached h.layout h.reached vaddr paddr bits (hFresh.subset s.tables_subset)
  root := h.root
  stack_page := h.stack_page
  page_tables := hFresh.not_mem_grow s.page_mem h.page_tables
  stack_tables := hFresh.not_mem_grow s.stack_mem h.stack_tables
  image := by
    intro hSome
    obtain ⟨hPage, hStack, hTables⟩ := h.image hSome
    exact ⟨hPage, hStack, hFresh.not_mem_grow (.inr (.inr (.inl ⟨rfl, hSome⟩))) hTables⟩

/-- The first page of an image is one of its pages. -/
theorem inImage_imageAddr {answer : Nat → Word} {w : World} {elf : Word}
    (hImage : imageAddr answer w elf ≠ 0) : InImage answer w elf (imageAddr answer w elf) := by
  refine ⟨hImage, ?_⟩
  have hPages : 0 < (addressRange w.mem elf).numPages := by
    by_contra hNone
    exact hImage (congrArg Prod.fst (if_pos (.inl (by omega))))
  unfold InRange
  simp
  omega

/-- A load after which some tables, the root among them, still form a tree. -/
theorem loadOn (h : Intact s) {answer : Nat → Word} {elf : Word} {p' : Process} {w' : World}
    {kept : Set Word} (hKept : kept ⊆ s.tables)
    (hLoad : elfLoad answer s.w s.p elf = some (true, p', w')) (hImage : p'.image ≠ 0)
    (hApart : ∀ t ∈ s.pages, ∀ x, InRange t 4096 x → ¬ InImage answer s.w elf x)
    (hFresh : FreshTables answer (insert p'.image s.pages) (s.w.calls + 1) w'.calls)
    (hLayout : Layout (copied answer s.w elf).mem s.p.ptable kept)
    (hReached : Reached (cells (copied answer s.w elf).mem) s.p.ptable kept) :
    Intact { s with p := p', w := w', tables := grow answer kept (s.w.calls + 1) w'.calls } := by
  obtain ⟨rfl, hMaps⟩ := elfLoad_some hLoad
  have hCalls : (copied answer s.w elf).calls = s.w.calls + 1 := cpageZnalloc_calls _ _ _
  have hTables : FreshTables answer kept (copied answer s.w elf).calls
      (mapAll answer s.p.ptable (copied answer s.w elf)
        (imageMaps s.w.mem elf (imageAddr answer s.w elf))).calls := by
    rw [hCalls, ← hMaps]
    exact hFresh.subset fun x hx => .inr (s.tables_subset (hKept hx))
  have hOther (x : Word) (hx : x ∈ s.pages) : imageAddr answer s.w elf ≠ x := by
    rintro rfl
    refine hApart _ hx (imageAddr answer s.w elf) ?_ (inImage_imageAddr hImage)
    unfold InRange
    simp
  have hLayout' := (mapAll_spec hLayout _ (fun c hc => (imageMaps_leaf hc).2) hTables).1
  have hReached' := mapAll_reached hLayout hReached _ (fun c hc => imageMaps_leaf hc) hTables
  rw [← hMaps, hCalls] at hLayout' hReached'
  exact {
    page := h.page
    stack := h.stack
    layout := hLayout'
    reached := hReached'
    root := h.root
    stack_page := h.stack_page
    page_tables := hFresh.not_mem_grow (.inr s.page_mem) fun hx => h.page_tables (hKept hx)
    stack_tables := hFresh.not_mem_grow (.inr s.stack_mem) fun hx => h.stack_tables (hKept hx)
    image := fun _ => ⟨hOther _ s.page_mem, hOther _ s.stack_mem,
      hFresh.not_mem_grow (.inl rfl) fun hx => hOther _ (s.tables_subset (hKept hx)) rfl⟩ }

theorem load (h : Intact s) {answer : Nat → Word} {elf : Word} {p' : Process} {w' : World}
    (hLoad : elfLoad answer s.w s.p elf = some (true, p', w')) (hImage : p'.image ≠ 0)
    (hApart : ∀ t ∈ s.pages, ∀ x, InRange t 4096 x → ¬ InImage answer s.w elf x)
    (hFresh : FreshTables answer (insert p'.image s.pages) (s.w.calls + 1) w'.calls)
    (hSpares : Spares s (.load answer elf)) : Intact (s.load answer p' w') := by
  have hAgree (t : Word) (ht : t ∈ s.tables) :
      Memory.AgreeOn s.w.mem (copied answer s.w elf).mem t 4096 := fun x hx =>
    copied_spare (hApart t (s.tables_subset ht) x hx) (hSpares t (.inr ht) x hx)
  exact h.loadOn subset_rfl hLoad hImage hApart hFresh (h.layout.agree hAgree).1
    (h.layout.reached_agree h.reached hAgree)

theorem write (h : Intact s) {m : Memory}
    (hApart : ∀ t ∈ insert s.page s.tables, Memory.AgreeOn s.w.mem m t 4096) :
    Intact { s with w.mem := m } where
  page := h.page
  stack := h.stack
  layout := (h.layout.agree fun t ht => hApart t (.inr ht)).1
  reached := h.layout.reached_agree h.reached fun t ht => hApart t (.inr ht)
  root := h.root
  stack_page := h.stack_page
  page_tables := h.page_tables
  stack_tables := h.stack_tables
  image := h.image

theorem step (h : Intact s) (hStep : Guarded LifeStep Spares s event t) : Intact t := by
  obtain ⟨hSpares, hStep⟩ := hStep
  cases hStep with
  | map leaf fresh => exact h.map leaf fresh
  | load call _ image apart fresh => exact h.load call image apart fresh hSpares
  | write apart => exact h.write apart

end Intact

end Kernel
