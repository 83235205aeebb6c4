import RiscvOs.Kernel.MmuPages
import RiscvOs.Kernel.CpageRuns

/-! Several address spaces in one heap: roots with calls of `mmu_map`, next to pages
that the rest of the kernel takes and writes. -/
namespace Kernel.MmuSpaces

open Semantics Radix Mmu MmuPages Function

/-- The memory, the calls for each root, and the pages of the rest of the kernel with
what was written there. -/
structure State where
  mem : Memory
  spaces : Word → Option (List Mapping)
  data : Set Word
  written : Memory

inductive Op where
  | create
  | map (root : Word) (c : Mapping)
  | alloc
  | store (page address : Word) (value : Byte)

/-- A root and a page of data are both answers of `cpage_znalloc(1)`. -/
inductive Step (h : Cpage.Heap) : State → Op → State → Prop where
  | create (s : State) :
      Step h s .create
        { s with
          mem := (Cpage.cpageZnalloc h s.mem 1).2
          spaces := update s.spaces (Cpage.cpageZnalloc h s.mem 1).1 (some []) }
  | map (s : State) {root : Word} {maps : List Mapping} {c : Mapping}
      (hRoot : s.spaces root = some maps) :
      Step h s (.map root c)
        { s with
          mem := (mmuMap h s.mem root c.vaddr c.paddr c.bits).2
          spaces := update s.spaces root (some (maps ++ [c])) }
  | alloc (s : State) :
      Step h s .alloc
        { s with
          mem := (Cpage.cpageZnalloc h s.mem 1).2
          data := insert (Cpage.cpageZnalloc h s.mem 1).1 s.data
          written := s.written.fill (Cpage.cpageZnalloc h s.mem 1).1 4096 0 }
  | store (s : State) {page address : Word} {value : Byte} (hPage : page ∈ s.data)
      (hAddress : InRange page 4096 address) :
      Step h s (.store page address value)
        { s with mem := s.mem.store address value, written := s.written.store address value }

/-- Pages of the heap are free from some page on, and are enough for the request. -/
def Roomy (h : Cpage.Heap) (m : Memory) (count : Nat) : Prop :=
  ∃ c, FreeFrom h m c ∧ c + count ≤ h.pages

def Allowed (h : Cpage.Heap) (s : State) : Op → Prop
  | .create => Roomy h s.mem 2
  | .map _ c => Roomy h s.mem 4 ∧ LeafBits c.bits ∧ c.paddr.toNat < 2 ^ 56
  | .alloc => Roomy h s.mem 2
  | .store .. => True

/-- Every root translates by its own calls alone, and the pages of the rest of the
kernel have what was written there. -/
structure Sound (s : State) : Prop where
  translate : ∀ root maps, s.spaces root = some maps → ∀ a, mmuTranslate s.mem root a =
    match lastMapping maps a with
    | some c => (c.paddr &&& ~~~0xfff#64) ||| (a &&& 0xfff#64)
    | none => -1
  data : ∀ page ∈ s.data, Memory.AgreeOn s.written s.mem page 4096

/-- A root with its tables. -/
structure Space (h : Cpage.Heap) (m : Memory) (root : Word) (maps : List Mapping)
    (owned : Set Word) : Prop where
  layout : Layout m root owned
  pages : ∀ t ∈ owned, TakenPage h m t
  find : ∀ a, find (cells m) root (indices a 3) =
    (lastMapping maps a).map fun c => leafEntry c.paddr c.bits
  calls : ∀ c ∈ maps, LeafBits c.bits ∧ c.paddr.toNat < 2 ^ 56

/-- Each page of the heap is a table of one root, or a page of data, or neither. -/
structure Inv (h : Cpage.Heap) (owned : Word → Set Word) (s : State) : Prop where
  space : ∀ root maps, s.spaces root = some maps → Space h s.mem root maps (owned root)
  apart : ∀ root root', s.spaces root ≠ none → s.spaces root' ≠ none →
    ∀ t ∈ owned root, t ∈ owned root' → root = root'
  taken : ∀ page ∈ s.data, TakenPage h s.mem page
  others : ∀ page ∈ s.data, ∀ root, s.spaces root ≠ none → page ∉ owned root
  written : ∀ page ∈ s.data, Memory.AgreeOn s.written s.mem page 4096

variable {h : Cpage.Heap} {s t : State} {op : Op} {owned : Word → Set Word} {m m' : Memory}
  {root page : Word} {tables tables' : Set Word} {maps : List Mapping}

/-- A page that is no table of a root stays when its tables change. -/
theorem kept_page (hKeeps : Keeps h tables tables' m m') (hTaken : TakenPage h m page)
    (hNot : page ∉ tables) :
    Memory.AgreeOn m m' page 4096 ∧ TakenPage h m' page ∧ page ∉ tables' := by
  obtain ⟨k, hk, rfl, hBit⟩ := hTaken
  exact ⟨hKeeps.others k hk hBit hNot, ⟨k, hk, rfl, hKeeps.taken k (by omega) hBit⟩,
    fun hMem => hNot (hKeeps.fresh k hk hBit hMem)⟩

theorem Space.congr (hSpace : Space h m root maps tables)
    (hSame : ∀ t ∈ tables, Memory.AgreeOn m m' t 4096 ∧ TakenPage h m' t) :
    Space h m' root maps tables := by
  obtain ⟨hLayout, hFind⟩ := hSpace.layout.agree fun t ht => (hSame t ht).1
  exact ⟨hLayout, fun t ht => (hSame t ht).2, fun a => (hFind _).trans (hSpace.find a), hSpace.calls⟩

theorem Inv.sound (inv : Inv h owned s) : Sound s where
  translate := by
    intro root maps hRoot a
    have hSpace := inv.space root maps hRoot
    rw [mmuTranslate_eq hSpace.layout, hSpace.find]
    cases hLast : lastMapping maps a with
    | none => rfl
    | some c =>
        obtain ⟨hBits, hPhysical⟩ := hSpace.calls c (by simpa using List.mem_of_find?_eq_some hLast)
        simp only [Option.map_some, Option.getD_some]
        rw [leafAddr_leafEntry _ _ _ hBits.1, and_page_mask hPhysical]
  data := inv.written

/-- A request of one page by anyone leaves all tables and all data. -/
theorem inv_znalloc (hHeap : Addressed h) (inv : Inv h owned s) (hRoomy : Roomy h s.mem 2) :
    let page := (Cpage.cpageZnalloc h s.mem 1).1
    let m' := (Cpage.cpageZnalloc h s.mem 1).2
    Inv h owned { s with mem := m' } ∧ TakenPage h m' page ∧ (∀ x, InRange page 4096 x → m' x = 0) ∧
      (∀ root, s.spaces root ≠ none → root ≠ page ∧ page ∉ owned root) ∧ page ∉ s.data := by
  intro page m'
  obtain ⟨c, hFree, hc⟩ := hRoomy
  obtain ⟨hNew, hKeeps, -, -⟩ :=
    @znalloc_newPage h s.mem c ∅ hHeap (fun _ ht => absurd ht (Set.notMem_empty _)) hFree hc
  have hOld (t : Word) (hTaken : TakenPage h s.mem t) :
      Memory.AgreeOn s.mem m' t 4096 ∧ TakenPage h m' t ∧ t ≠ page := by
    obtain ⟨hSame, hStill, -⟩ := kept_page hKeeps hTaken (Set.notMem_empty t)
    obtain ⟨k, hk, rfl, hBit⟩ := hTaken
    exact ⟨hSame, hStill, hNew.before k hk hBit⟩
  refine ⟨⟨fun root maps hRoot => ?_, inv.apart, fun t ht => (hOld t (inv.taken t ht)).2.1,
    inv.others, fun t ht => ?_⟩, hNew.taken, hNew.zero, fun root hRoot => ?_, fun hIs => ?_⟩
  · have hSpace := inv.space root maps hRoot
    exact hSpace.congr fun t ht => ⟨(hOld t (hSpace.pages t ht)).1, (hOld t (hSpace.pages t ht)).2.1⟩
  · exact (inv.written t ht).trans (hOld t (inv.taken t ht)).1
  · obtain ⟨maps, hMaps⟩ := Option.ne_none_iff_exists'.mp hRoot
    have hSpace := inv.space root maps hMaps
    exact ⟨(hOld root (hSpace.pages root hSpace.layout.root_owned)).2.2,
      fun hMem => (hOld page (hSpace.pages page hMem)).2.2 rfl⟩
  · exact (hOld page (inv.taken page hIs)).2.2 rfl

theorem inv_create (hHeap : Addressed h) (inv : Inv h owned s) (hRoomy : Roomy h s.mem 2) :
    Inv h (update owned (Cpage.cpageZnalloc h s.mem 1).1 {(Cpage.cpageZnalloc h s.mem 1).1})
      { s with
        mem := (Cpage.cpageZnalloc h s.mem 1).2
        spaces := update s.spaces (Cpage.cpageZnalloc h s.mem 1).1 (some []) } := by
  obtain ⟨inv', hTaken, hZero, hNew, hData⟩ := inv_znalloc hHeap inv hRoomy
  generalize (Cpage.cpageZnalloc h s.mem 1).1 = page at *
  generalize (Cpage.cpageZnalloc h s.mem 1).2 = m' at *
  have hSpaces (root : Word) (hNe : root ≠ page) : update s.spaces page (some []) root = s.spaces root :=
    update_of_ne hNe _ _
  have hOwned (root : Word) (hNe : root ≠ page) : update owned page {page} root = owned root :=
    update_of_ne hNe _ _
  refine ⟨fun root maps hRoot => ?_, fun root root' hRoot hRoot' t ht ht' => ?_, inv'.taken,
    fun t ht root hRoot hMem => ?_, inv'.written⟩
  · by_cases hIs : root = page
    · subst hIs
      simp only [update_self] at hRoot ⊢
      obtain rfl := Option.some.inj hRoot
      obtain ⟨hLayout, hNone⟩ := layout_of_zero hZero
      refine ⟨hLayout, ?_, fun a => hNone _, by simp⟩
      rintro t rfl
      exact hTaken
    · simp only [hSpaces root hIs] at hRoot
      rw [hOwned root hIs]
      exact inv'.space root maps hRoot
  · by_cases hIs : root = page
    · by_cases hIs' : root' = page
      · rw [hIs, hIs']
      · rw [hIs, update_self] at ht
        rw [hOwned root' hIs', ht] at ht'
        simp only [hSpaces root' hIs'] at hRoot'
        exact absurd ht' (hNew root' hRoot').2
    · simp only [hSpaces root hIs] at hRoot
      rw [hOwned root hIs] at ht
      by_cases hIs' : root' = page
      · rw [hIs', update_self] at ht'
        exact absurd (ht' ▸ ht) (hNew root hRoot).2
      · simp only [hSpaces root' hIs'] at hRoot'
        rw [hOwned root' hIs'] at ht'
        exact inv.apart root root' hRoot hRoot' t ht ht'
  · by_cases hIs : root = page
    · rw [hIs, update_self] at hMem
      exact hData (hMem ▸ ht)
    · simp only [hSpaces root hIs] at hRoot
      rw [hOwned root hIs] at hMem
      exact inv.others t ht root hRoot hMem

theorem inv_alloc (hHeap : Addressed h) (inv : Inv h owned s) (hRoomy : Roomy h s.mem 2) :
    Inv h owned
      { s with
        mem := (Cpage.cpageZnalloc h s.mem 1).2
        data := insert (Cpage.cpageZnalloc h s.mem 1).1 s.data
        written := s.written.fill (Cpage.cpageZnalloc h s.mem 1).1 4096 0 } := by
  obtain ⟨inv', hTaken, hZero, hNew, hData⟩ := inv_znalloc hHeap inv hRoomy
  generalize (Cpage.cpageZnalloc h s.mem 1).1 = page at *
  generalize (Cpage.cpageZnalloc h s.mem 1).2 = m' at *
  refine ⟨inv'.space, inv'.apart, ?_, ?_, ?_⟩
  · rintro t (rfl | ht)
    · exact hTaken
    · exact inv'.taken t ht
  · rintro t (rfl | ht) root hRoot
    · exact (hNew root hRoot).2
    · exact inv'.others t ht root hRoot
  · intro t ht x hx
    change m' x = s.written.fill page 4096 0 x
    by_cases hIn : InRange page 4096 x
    · rw [Memory.fill_inside _ _ hIn]
      exact hZero x hIn
    · rw [Memory.fill_outside _ _ hIn]
      rcases ht with rfl | ht
      · exact absurd hx hIn
      · exact inv'.written t ht x hx

/-- A call of `mmu_map` for one root changes its tables, and takes its pages from
the free ones. -/
theorem inv_map (hHeap : Addressed h) (inv : Inv h owned s) {c : Mapping}
    (hRoot : s.spaces root = some maps) (hRoomy : Roomy h s.mem 4) (hBits : LeafBits c.bits)
    (hPhysical : c.paddr.toNat < 2 ^ 56) :
    ∃ tables, Inv h (update owned root tables)
      { s with
        mem := (mmuMap h s.mem root c.vaddr c.paddr c.bits).2
        spaces := update s.spaces root (some (maps ++ [c])) } := by
  have hSpace := inv.space root maps hRoot
  obtain ⟨count, hFree, hCount⟩ := hRoomy
  obtain ⟨tables, hTables, hKeeps, hFind⟩ := mmuMap_spec hHeap
    ⟨hSpace.layout, hSpace.pages, hFree⟩ c.vaddr c.paddr hBits.2 fun _ => hCount
  generalize (mmuMap h s.mem root c.vaddr c.paddr c.bits).2 = m' at *
  have hHere : s.spaces root ≠ none := by simp [hRoot]
  have hSpaces (r : Word) (hNe : r ≠ root) :
      update s.spaces root (some (maps ++ [c])) r = s.spaces r := update_of_ne hNe _ _
  have hOwned (r : Word) (hNe : r ≠ root) : update owned root tables r = owned r := update_of_ne hNe _ _
  have hOther (r : Word) (hNe : r ≠ root) (hSome : s.spaces r ≠ none) (t : Word) (ht : t ∈ owned r) :
      TakenPage h s.mem t ∧ t ∉ owned root := by
    obtain ⟨maps', hMaps'⟩ := Option.ne_none_iff_exists'.mp hSome
    exact ⟨(inv.space r maps' hMaps').pages t ht,
      fun hMem => hNe (inv.apart r root hSome hHere t ht hMem)⟩
  have hStays (t : Word) (hTaken : TakenPage h s.mem t) (hNot : t ∉ owned root) :=
    kept_page hKeeps hTaken hNot
  refine ⟨tables, ⟨fun r maps' hMaps' => ?_, fun r r' hSome hSome' t ht ht' => ?_, fun t ht => ?_,
    fun t ht r hSome hMem => ?_, fun t ht => ?_⟩⟩
  · by_cases hIs : r = root
    · subst hIs
      simp only [update_self] at hMaps' ⊢
      obtain rfl := Option.some.inj hMaps'
      refine ⟨hTables.layout, hTables.pages, fun a => ?_, fun d hd => ?_⟩
      · rw [hFind, lastMapping_concat]
        by_cases hPage : vpn27 c.vaddr = vpn27 a
        · rw [if_pos hPage, if_pos ((indices_eq_iff a c.vaddr).mpr hPage.symm)]
          rfl
        · rw [if_neg hPage, if_neg fun hSame => hPage ((indices_eq_iff a c.vaddr).mp hSame).symm]
          exact hSpace.find a
      · rcases List.mem_append.mp hd with hd | hd
        · exact hSpace.calls d hd
        · rw [List.mem_singleton.mp hd]
          exact ⟨hBits, hPhysical⟩
    · simp only [hSpaces r hIs] at hMaps'
      rw [hOwned r hIs]
      refine (inv.space r maps' hMaps').congr fun t ht => ?_
      obtain ⟨hTaken, hNot⟩ := hOther r hIs (by simp [hMaps']) t ht
      exact ⟨(hStays t hTaken hNot).1, (hStays t hTaken hNot).2.1⟩
  · by_cases hIs : r = root
    · by_cases hIs' : r' = root
      · rw [hIs, hIs']
      · simp only [hSpaces r' hIs'] at hSome'
        rw [hIs, update_self] at ht
        rw [hOwned r' hIs'] at ht'
        obtain ⟨hTaken, hNot⟩ := hOther r' hIs' hSome' t ht'
        exact absurd ht (hStays t hTaken hNot).2.2
    · simp only [hSpaces r hIs] at hSome
      rw [hOwned r hIs] at ht
      by_cases hIs' : r' = root
      · rw [hIs', update_self] at ht'
        obtain ⟨hTaken, hNot⟩ := hOther r hIs hSome t ht
        exact absurd ht' (hStays t hTaken hNot).2.2
      · simp only [hSpaces r' hIs'] at hSome'
        rw [hOwned r' hIs'] at ht'
        exact inv.apart r r' hSome hSome' t ht ht'
  · exact (hStays t (inv.taken t ht) (inv.others t ht root hHere)).2.1
  · by_cases hIs : r = root
    · rw [hIs, update_self] at hMem
      exact (hStays t (inv.taken t ht) (inv.others t ht root hHere)).2.2 hMem
    · simp only [hSpaces r hIs] at hSome
      rw [hOwned r hIs] at hMem
      exact inv.others t ht r hSome hMem
  · exact (inv.written t ht).trans (hStays t (inv.taken t ht) (inv.others t ht root hHere)).1

/-- The rest of the kernel writes to one of its pages. -/
theorem inv_store (hHeap : Addressed h) (inv : Inv h owned s) {address : Word} {value : Byte}
    (hPage : page ∈ s.data) (hAddress : InRange page 4096 address) :
    Inv h owned
      { s with mem := s.mem.store address value, written := s.written.store address value } := by
  obtain ⟨i, hi, rfl, -⟩ := inv.taken page hPage
  have hTaken (t : Word) (hIs : TakenPage h s.mem t) : TakenPage h (s.mem.store address value) t := by
    obtain ⟨k, hk, rfl, hBit⟩ := hIs
    refine ⟨k, hk, rfl, (Cpage.taken_congr h ?_).trans hBit⟩
    exact Memory.store_of_ne _ _ (hHeap.curByte_ne hi (by omega) hAddress).symm
  have hSame (t : Word) (hIs : TakenPage h s.mem t) (hNe : t ≠ h.pageAddr i) :
      Memory.AgreeOn s.mem (s.mem.store address value) t 4096 := by
    obtain ⟨k, hk, rfl, -⟩ := hIs
    intro x hx
    refine Memory.store_of_ne _ _ fun hIs => ?_
    have hApart := hHeap.apart hk hi fun hEq => hNe (hEq ▸ rfl)
    exact hApart.not_inRange hAddress (hIs ▸ hx)
  refine ⟨fun root maps hRoot => ?_, inv.apart, fun t ht => hTaken t (inv.taken t ht), inv.others,
    fun t ht x hx => ?_⟩
  · have hSome : s.spaces root = some maps := hRoot
    have hSpace := inv.space root maps hSome
    refine hSpace.congr fun t ht => ⟨hSame t (hSpace.pages t ht) ?_, hTaken t (hSpace.pages t ht)⟩
    rintro rfl
    exact inv.others _ hPage root (by simp [hSome]) ht
  · change s.mem.store address value x = s.written.store address value x
    by_cases hIs : x = address
    · rw [hIs, Memory.store_same, Memory.store_same]
    · rw [Memory.store_of_ne _ _ hIs, Memory.store_of_ne _ _ hIs]
      exact inv.written t ht x hx

theorem inv_step (hHeap : Addressed h) (inv : Inv h owned s)
    (step : Guarded (Step h) (Allowed h) s op t) : ∃ owned', Inv h owned' t := by
  obtain ⟨hAllowed, step⟩ := step
  cases step with
  | create => exact ⟨_, inv_create hHeap inv hAllowed⟩
  | map hRoot =>
      obtain ⟨tables, inv'⟩ := inv_map hHeap inv hRoot hAllowed.1 hAllowed.2.1 hAllowed.2.2
      exact ⟨_, inv'⟩
  | alloc => exact ⟨_, inv_alloc hHeap inv hAllowed⟩
  | store hPage hAddress => exact ⟨_, inv_store hHeap inv hPage hAddress⟩

theorem inv_start (h : Cpage.Heap) (m : Memory) :
    Inv h (fun _ => ∅) { mem := m, spaces := fun _ => none, data := ∅, written := m } :=
  ⟨by simp, by simp, by simp, by simp, by simp⟩

/-- In every run of the allocator's users that finds enough free pages, whatever
the bookkeeping bytes were before, each root translates by its own calls, and no
page of data is touched by page tables. -/
theorem sound_of_run (hHeap : Addressed h) (m : Memory) {ops : List Op}
    (run : Run (Guarded (Step h) (Allowed h))
      { mem := m, spaces := fun _ => none, data := ∅, written := m } ops s) : Sound s := by
  obtain ⟨owned, inv⟩ := run.invariant (fun s => ∃ owned, Inv h owned s) ⟨_, inv_start h m⟩
    fun _ _ _ ⟨_, inv⟩ step => inv_step hHeap inv step
  exact inv.sound

/-! ## A first space -/

theorem addressed_ramHeap : Addressed Cpage.ramHeap where
  offsets := by rw [Cpage.ramHeap_pages]; decide
  addresses := by decide

/-- `cpage_init` frees all pages. -/
theorem exists_freeFrom : ∃ m, FreeFrom Cpage.ramHeap m 0 :=
  ⟨Cpage.ramInit, fun _ _ hk => Cpage.taken_cpageInit _ _ hk⟩

/-- A space is created, and a page is mapped. -/
example : ∃ (root : Word) (s : State),
    s.spaces root = some [⟨0x1000, 0x80005000, 0b110⟩] ∧
      mmuTranslate s.mem root 0x1234 = 0x80005234 := by
  have hPages : 2 ≤ Cpage.ramHeap.pages ∧ 2 + 4 ≤ Cpage.ramHeap.pages := by
    rw [Cpage.ramHeap_pages]
    decide
  obtain ⟨m, hStart⟩ := exists_freeFrom
  have hFree := (@znalloc_newPage Cpage.ramHeap m 0 ∅ addressed_ramHeap
    (fun _ ht => absurd ht (Set.notMem_empty _)) hStart hPages.1).2.2.2
  have hCreate := Step.create (h := Cpage.ramHeap) ⟨m, fun _ => none, ∅, m⟩
  generalize Cpage.cpageZnalloc Cpage.ramHeap m 1 = first at hFree hCreate
  have hFirst : Guarded (Step Cpage.ramHeap) (Allowed Cpage.ramHeap) ⟨m, fun _ => none, ∅, m⟩
      .create _ :=
    ⟨⟨0, hStart, hPages.1⟩, hCreate⟩
  have hRoot : update (fun _ => none) first.1 (some []) first.1 = some ([] : List Mapping) :=
    update_self ..
  have hSecond : Guarded (Step Cpage.ramHeap) (Allowed Cpage.ramHeap)
      ⟨first.2, update (fun _ => none) first.1 (some []), ∅, m⟩
      (.map first.1 ⟨0x1000, 0x80005000, 0b110⟩) _ :=
    ⟨⟨⟨2, hFree, hPages.2⟩, by decide, by decide⟩, .map _ hRoot⟩
  have hSound := sound_of_run addressed_ramHeap m
    (Run.snoc (Run.snoc (Run.nil _) hFirst) hSecond)
  have hAt := hSound.translate first.1 [⟨0x1000, 0x80005000, 0b110⟩] (by simp) 0x1234
  exact ⟨first.1, _, by simp, hAt.trans (by decide)⟩

end Kernel.MmuSpaces
