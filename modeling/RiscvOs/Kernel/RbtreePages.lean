import RiscvOs.Kernel.RbtreeNodes
import RiscvOs.Kernel.KmallocFrame
import RiscvOs.Kernel.CpageBounds

/-! The pages of the nodes of a tree. `create_node` takes them from `cpage.c`, and
the functions that remove nodes give them to `kfree`. -/
namespace Kernel.RbtreePages

open Semantics SortedMap Rbtree
open Kmalloc (Closed Outside)

/-- The kernel's memory, in which the pages of `cpage.c` have their own addresses,
and the tree. The fields of its nodes are in the tree: no allocator reads them. -/
structure State where
  heap : Kmalloc.Heap
  tree : RBTree

inductive Call where
  | insert (key value : Word)
  | delete (key : Word)
  | free

def Kfree (heap : Kmalloc.Heap) (ptr : Word) (heap' : Kmalloc.Heap) : Prop :=
  ∃ fuel, Kmalloc.kfree fuel heap ptr = some heap'

/-- `insert_this` goes the way of `rb_find`, and calls `create_node` at its end. -/
inductive Step (h : Cpage.Heap) : State → Call → State → Prop where
  | create {s : State} {tree : RBTree} {key value : Word} (hNew : rbFind s.tree key = none)
      (hInsert : rbInsert (Cpage.cpageZnalloc h s.heap.mem 1).1 s.tree key value = some tree) :
      Step h s (.insert key value)
        ⟨{ s.heap with mem := (Cpage.cpageZnalloc h s.heap.mem 1).2 }, tree⟩
  | replace {s : State} {tree : RBTree} {key value : Word} (hOld : rbFind s.tree key ≠ none)
      (hInsert : rbInsert 0 s.tree key value = some tree) :
      Step h s (.insert key value) ⟨s.heap, tree⟩
  | delete {s : State} {heap : Kmalloc.Heap} {tree : RBTree} {key : Word} {freed : List Word}
      (hDelete : rbDelete s.tree key = some (tree, freed)) (hFree : Run Kfree s.heap freed heap) :
      Step h s (.delete key) ⟨heap, tree⟩
  | free {s : State} {heap : Kmalloc.Heap} (hFree : Run Kfree s.heap (rbFree s.tree).2 heap) :
      Step h s .free ⟨heap, (rbFree s.tree).1⟩

def State.addrs (s : State) : List Word :=
  s.tree.root.addrs

def State.keys (s : State) : List Word :=
  s.tree.root.entries.map Prod.fst

/-- What is asked of the calls between two states: the page of a node that is gone
is free. When the keys are the same again, so are the bytes of `cpage.c` and the
free list of `kmalloc.c`. -/
structure Restores (h : Cpage.Heap) (s t : State) : Prop where
  returned : ∀ page ∈ s.addrs, page ∉ t.addrs →
    Cpage.taken h t.heap.mem (Cpage.pageIndex h page) = false
  bookkeeping : t.keys = s.keys → ∀ k < h.pages, t.heap.mem (h.curByte k) = s.heap.mem (h.curByte k)
  freeList : t.keys = s.keys → t.heap.head = s.heap.head ∧
    ∀ a, a = s.heap.head ∨ Kmalloc.FreeNode s.heap.mem s.heap.head a →
      Memory.AgreeOn s.heap.mem t.heap.mem a 24

/-- The same between any two states of the runs of some calls. -/
def GivesBack (h : Cpage.Heap) (s : State) (calls : List Call) : Prop :=
  ∀ before between after t u, calls = before ++ between ++ after →
    Run (Step h) s before t → Run (Step h) t between u → Restores h t u

/-- The call finds no node to remove. -/
def RemovesNone (s : State) : Call → Prop
  | .insert .. => True
  | .delete key => rbFind s.tree key = none
  | .free => s.tree.root = .null

/-- The pages of the heap have addresses, and the free list of `kmalloc.c` lies
elsewhere. -/
structure Layout (h : Cpage.Heap) (nodes : List Word) : Prop where
  offsets : h.pages ≤ 2 ^ 19
  addresses : h.start.toNat + h.bkRounded.toNat + 4096 * h.pages ≤ 2 ^ 64
  apart : ∀ u ∈ nodes, ∀ w ∈ nodes, Kmalloc.Sep u w
  outside : ∀ u ∈ nodes, Apart u 24 h.start (h.bkRounded.toNat + 4096 * h.pages)

/-- An empty tree, and a free list of the given nodes. -/
structure Start (nodes : List Word) (s : State) : Prop where
  empty : s.tree.root = .null
  head : s.heap.head ∈ nodes
  closed : Closed s.heap.mem nodes

variable {h : Cpage.Heap} {nodes : List Word} {s t u : State} {m : Memory} {i : Nat}

namespace Layout

theorem addressable (hLayout : Layout h nodes) (hi : i + 1 < h.pages) :
    Cpage.Addressable h i 2 where
  offset := by have := hLayout.offsets; omega
  size := by decide
  address := by have := hLayout.addresses; omega

theorem toNat_pageAddr (hLayout : Layout h nodes) (hi : i + 1 < h.pages) :
    (h.pageAddr i).toNat = h.start.toNat + h.bkRounded.toNat + 4096 * i :=
  (hLayout.addressable hi).toNat_pageAddr (by decide)

theorem le_bkRounded (hi : i + 1 < h.pages) :
    4096 ≤ h.bkRounded.toNat ∧ h.pages ≤ h.bkRounded.toNat :=
  Cpage.le_bkRounded (by omega)

/-- A bookkeeping byte as a number. -/
theorem toNat_curByte (hLayout : Layout h nodes) {k : Nat} (hk : k < h.pages) :
    (h.curByte k).toNat = h.start.toNat + k := by
  have hFit := hLayout.addresses
  have hOffset := hLayout.offsets
  have hStart := h.start.isLt
  have hRounded := Cpage.bkRounded_toNat h
  unfold Cpage.Heap.curByte
  rw [BitVec.ofInt_natCast, BitVec.toNat_add, BitVec.toNat_ofNat]
  omega

end Layout

/-- What `create_node` gets: no page, or the first of a pair of free pages, which
it takes. -/
theorem cpageZnalloc_one (hLayout : Layout h nodes) (m : Memory) :
    Cpage.cpageZnalloc h m 1 = (0, m) ∨
      ∃ i, i + 1 < h.pages ∧ Cpage.taken h m i = false ∧
        (Cpage.cpageZnalloc h m 1).1 = h.pageAddr i ∧ h.pageAddr i ≠ 0 ∧
        (∀ k < h.pages, Cpage.taken h (Cpage.cpageZnalloc h m 1).2 k =
          (Cpage.taken h m k || (decide (i ≤ k) && decide (k < i + 2)))) ∧
        ∀ x, ¬ InRange h.start (h.bkRounded.toNat + 4096 * h.pages) x →
          (Cpage.cpageZnalloc h m 1).2 x = m x := by
  rcases Cpage.cpageZnalloc_cases h m 1 with hNull | ⟨hOne, i, hFirst⟩
  · exact .inl hNull
  · have hi := hFirst.1.1
    have hFit := hLayout.addressable hi
    have hAddr := hLayout.toNat_pageAddr hi
    have hRounded := Layout.le_bkRounded hi
    have hCall : Cpage.cpageZnalloc h m 1 = (h.pageAddr i, Cpage.allocated h m i 2) :=
      Cpage.cpageZnalloc_of_first hOne hFirst
    have hZeroed : Cpage.zeroed h m 1 = 4096 * 2 := Cpage.zeroed_first hFirst
    refine .inr ⟨i, hi, hFirst.1.2.1, by rw [hCall], hFit.pageAddr_ne_zero (by decide) (by omega),
      fun k hk => ?_, fun x hx => ?_⟩
    · rw [hCall]
      exact Cpage.taken_allocated h m hFit.offset (by omega) hk
    · refine Cpage.cpageZnalloc_frame (fun k hk hSame => hx ?_) fun hIn => hx ?_
      · have hBound : k < h.pages :=
          Cpage.lt_of_mem_accesses hOne hFirst (show i + 2 - 2 + 2 ≤ h.pages by omega) hk
        have hByte := hLayout.toNat_curByte hBound
        have hSum := hLayout.addresses
        rw [hSame, inRange_iff_toNat (by omega), hByte]
        omega
      · have hSum := hLayout.addresses
        rw [hCall, hZeroed, inRange_iff_toNat (by rw [hAddr]; omega), hAddr] at hIn
        rw [inRange_iff_toNat (by omega)]
        omega

/-! ## `kfree` with pages -/

/-- The address is that of a page that `create_node` can get. -/
def IsPage (h : Cpage.Heap) (page : Word) : Prop :=
  ∃ i, i + 1 < h.pages ∧ page = h.pageAddr i

/-- The node that `kfree` makes of the bytes in front of a page, and of its first
ones. -/
theorem Layout.node_eq (hLayout : Layout h nodes) (hi : i + 1 < h.pages) :
    h.pageAddr i - 8 = h.start + BitVec.ofNat 64 (h.bkRounded.toNat + 4096 * i - 8) := by
  have hAddr := hLayout.toNat_pageAddr hi
  have hFit := hLayout.addresses
  have hRounded := Layout.le_bkRounded hi
  bv_omega

theorem Layout.sep (hLayout : Layout h nodes) {pages : List Word}
    (hPages : ∀ page ∈ pages, IsPage h page) :
    ∀ u ∈ nodes ++ pages.map (· - 8), ∀ w ∈ nodes ++ pages.map (· - 8), Kmalloc.Sep u w := by
  have hFit := hLayout.addresses
  have hMixed : ∀ u ∈ nodes, ∀ w ∈ pages.map (· - 8), Apart u 24 w 24 := by
    intro u hu w hw
    obtain ⟨page, hPage, rfl⟩ := List.mem_map.mp hw
    obtain ⟨i, hi, rfl⟩ := hPages page hPage
    have hRounded := Layout.le_bkRounded hi
    rw [hLayout.node_eq hi]
    exact (hLayout.outside u hu).part_right (by omega) (by decide) (by decide)
  intro u hu w hw hNe
  rcases List.mem_append.mp hu with hu | hu <;> rcases List.mem_append.mp hw with hw | hw
  · exact hLayout.apart u hu w hw hNe
  · exact hMixed u hu w hw
  · exact (hMixed w hw u hu).symm
  · obtain ⟨page, hPage, rfl⟩ := List.mem_map.mp hu
    obtain ⟨page', hPage', rfl⟩ := List.mem_map.mp hw
    obtain ⟨i, hi, rfl⟩ := hPages page hPage
    obtain ⟨j, hj, rfl⟩ := hPages page' hPage'
    have hRounded := Layout.le_bkRounded hi
    have hOther : i ≠ j := fun hSame => hNe (by rw [hSame])
    rw [hLayout.node_eq hi, hLayout.node_eq hj]
    exact apart_of_offsets (by decide) (by decide) (by omega) (by omega) (by omega)

theorem Layout.not_mem_nodes (hLayout : Layout h nodes) {page : Word} (hPage : IsPage h page) :
    page - 8 ∉ nodes := by
  intro hMem
  obtain ⟨i, hi, rfl⟩ := hPage
  have hFit := hLayout.addresses
  have hRounded := Layout.le_bkRounded hi
  have hApart := hLayout.outside _ hMem
  have hInside : InRange h.start (h.bkRounded.toNat + 4096 * h.pages) (h.pageAddr i - 8) := by
    rw [hLayout.node_eq hi]
    unfold InRange
    bv_omega
  have hSelf : InRange (h.pageAddr i - 8) 24 (h.pageAddr i - 8) := by
    unfold InRange
    rw [BitVec.sub_self]
    decide
  exact hApart.not_inRange hInside hSelf

/-- `kfree` of pages writes to the nodes of the free list and to those in front of
the pages. -/
theorem kfree_pages {heap heap' : Kmalloc.Heap} {pages : List Word} (hLayout : Layout h nodes)
    (hHead : heap.head ∈ nodes) (hClosed : Closed heap.mem nodes)
    (hPages : ∀ page ∈ pages, IsPage h page) (hNodup : pages.Nodup)
    (run : Run Kfree heap pages heap') :
    ∃ listed, heap'.head ∈ listed ∧ (∀ v ∈ listed, v ∈ nodes ++ pages.map (· - 8)) ∧
      Closed heap'.mem listed ∧
      ∀ x, Outside (nodes ++ pages.map (· - 8)) x → heap'.mem x = heap.mem x := by
  induction run with
  | nil => exact ⟨nodes, hHead, fun v hv => by simpa using hv, hClosed, fun _ _ => rfl⟩
  | @snoc middle last pages page prior hLast ih =>
      have hPrior : ∀ page ∈ pages, IsPage h page := fun page hPage =>
        hPages page (List.mem_append_left _ hPage)
      obtain ⟨hNodup, -, hFresh⟩ := List.nodup_append.mp hNodup
      obtain ⟨listed, hListed, hNodes, hClosed', hSame⟩ := ih hPrior hNodup
      obtain ⟨fuel, hFree⟩ := hLast
      have hPage : IsPage h page := hPages page (by simp)
      have hAll : ∀ v ∈ (page - 8) :: listed, v ∈ nodes ++ (pages ++ [page]).map (· - 8) := by
        intro v hv
        rw [List.map_append, ← List.append_assoc]
        rcases List.mem_cons.mp hv with rfl | hv
        · simp
        · exact List.mem_append_left _ (hNodes v hv)
      have hSep := hLayout.sep hPages
      have hNew : page - 8 ∉ listed := by
        intro hMem
        rcases List.mem_append.mp (hNodes _ hMem) with hNode | hEarlier
        · exact hLayout.not_mem_nodes hPage hNode
        · obtain ⟨other, hOther, hEq⟩ := List.mem_map.mp hEarlier
          have hTwice : other = page := by bv_omega
          exact hFresh other hOther page (List.mem_singleton_self page) hTwice
      obtain ⟨hHead', hLinks, hKept⟩ := Kmalloc.kfree_frame
        (fun v hv w hw => hSep v (hAll v hv) w (hAll w hw)) hClosed' hListed hNew hFree
      have hOutside : ∀ x, Outside (nodes ++ (pages ++ [page]).map (· - 8)) x →
          last.mem x = heap.mem x := by
        intro x hx
        rw [hKept x fun v hv => hx v (hAll v hv), hSame x fun v hv => hx v ?_]
        rw [List.map_append, ← List.append_assoc]
        exact List.mem_append_left _ hv
      rcases hLinks with hLinks | hLinks
      · exact ⟨listed, hHead' ▸ hListed, fun v hv => hAll v (List.mem_cons_of_mem _ hv), hLinks,
          hOutside⟩
      · exact ⟨(page - 8) :: listed, hHead' ▸ List.mem_cons_of_mem _ hListed, hAll, hLinks, hOutside⟩

/-! ## One call -/

/-- What holds as long as no node is removed. -/
structure Inv (h : Cpage.Heap) (nodes : List Word) (s : State) : Prop where
  ordered : Ordered s.tree.root.entries
  nodup : s.addrs.Nodup
  pages : ∀ page ∈ s.addrs, ∃ i, i + 1 < h.pages ∧ page = h.pageAddr i ∧
    Cpage.taken h s.heap.mem i = true
  head : s.heap.head ∈ nodes
  closed : Closed s.heap.mem nodes

/-- Every node stays, and there are more unless the memory is the same. -/
structure Grows (s t : State) : Prop where
  nodes : ∀ page ∈ s.addrs, page ∈ t.addrs
  count : t.heap = s.heap ∧ t.addrs.length = s.addrs.length ∨ s.addrs.length < t.addrs.length

theorem Start.inv (hStart : Start nodes s) : Inv h nodes s := by
  have hNone : s.addrs = [] := by
    unfold State.addrs
    rw [hStart.empty]
    rfl
  refine ⟨?_, ?_, fun page hPage => ?_, hStart.head, hStart.closed⟩
  · rw [hStart.empty]
    exact List.Pairwise.nil
  · rw [hNone]
    exact List.nodup_nil
  · rw [hNone] at hPage
    cases hPage

theorem Grows.refl (s : State) : Grows s s :=
  ⟨fun _ hPage => hPage, .inl ⟨rfl, rfl⟩⟩

theorem Grows.trans (first : Grows s t) (second : Grows t u) : Grows s u := by
  refine ⟨fun page hPage => second.nodes page (first.nodes page hPage), ?_⟩
  rcases first.count with ⟨hHeap, hCount⟩ | hMore <;>
    rcases second.count with ⟨hHeap', hCount'⟩ | hMore'
  · exact .inl ⟨hHeap'.trans hHeap, hCount'.trans hCount⟩
  all_goals exact .inr (by omega)

theorem length_keys (s : State) : s.keys.length = s.addrs.length := by
  rw [State.keys, List.length_map, State.addrs, length_addrs]

theorem Grows.restores (h : Cpage.Heap) (hGrows : Grows s t) : Restores h s t := by
  have hHeap (hKeys : t.keys = s.keys) : t.heap = s.heap := by
    have hCount := congrArg List.length hKeys
    rw [length_keys, length_keys] at hCount
    rcases hGrows.count with ⟨hHeap, -⟩ | hMore
    · exact hHeap
    · omega
  refine ⟨fun page hPage hGone => absurd (hGrows.nodes page hPage) hGone, fun hKeys k _ => ?_,
    fun hKeys => ?_⟩
  · rw [hHeap hKeys]
  · rw [hHeap hKeys]
    exact ⟨rfl, fun _ _ _ _ => rfl⟩

theorem ordered_rbInsert {page key value : Word} {tree tree' : RBTree}
    (hOrdered : Ordered tree.root.entries) (hInsert : rbInsert page tree key value = some tree') :
    Ordered tree'.root.entries := by
  obtain ⟨tree'', hInsert', hEntries⟩ := rbInsert_entries page hOrdered key value
  cases hInsert'.symm.trans hInsert
  rw [hEntries]
  split
  · exact hOrdered
  · exact hOrdered.put key value

/-- A change of the tree with the same nodes. -/
theorem Inv.of_perm {tree : RBTree} (hInv : Inv h nodes s) (hOrdered : Ordered tree.root.entries)
    (hPerm : tree.root.addrs.Perm s.addrs) :
    Inv h nodes ⟨s.heap, tree⟩ ∧ Grows s ⟨s.heap, tree⟩ :=
  ⟨⟨hOrdered, hPerm.nodup_iff.mpr hInv.nodup,
      fun page hPage => hInv.pages page (hPerm.mem_iff.mp hPage), hInv.head, hInv.closed⟩,
    ⟨fun _ hPage => hPerm.mem_iff.mpr hPage, .inl ⟨rfl, hPerm.length_eq⟩⟩⟩

/-- `create_node` leaves the free list alone. -/
theorem Layout.closed_of_frame {m' : Memory} (hLayout : Layout h nodes) (hClosed : Closed m nodes)
    (hFrame : ∀ x, ¬ InRange h.start (h.bkRounded.toNat + 4096 * h.pages) x → m' x = m x) :
    Closed m' nodes := by
  intro v hv
  have hSame : Memory.AgreeOn m m' v 24 := fun x hx =>
    hFrame x fun hArea => (hLayout.outside v hv).not_inRange hArea hx
  obtain ⟨-, hPrev, hNext⟩ := Kmalloc.fields_congr hSame
  rw [hPrev, hNext]
  exact hClosed v hv

theorem Inv.create {tree : RBTree} {key value : Word} (hLayout : Layout h nodes)
    (hInv : Inv h nodes s) (hNew : rbFind s.tree key = none)
    (hInsert : rbInsert (Cpage.cpageZnalloc h s.heap.mem 1).1 s.tree key value = some tree) :
    let s' : State := ⟨{ s.heap with mem := (Cpage.cpageZnalloc h s.heap.mem 1).2 }, tree⟩
    Inv h nodes s' ∧ Grows s s' := by
  have hOrdered := ordered_rbInsert hInv.ordered hInsert
  have hAddrs := addrs_rbInsert hInsert
  rcases cpageZnalloc_one hLayout s.heap.mem with hNull | ⟨i, hi, hFree, hPage, hNe, hTaken, hFrame⟩
  · rw [hNull] at hAddrs ⊢
    rw [if_neg (by simp)] at hAddrs
    exact hInv.of_perm hOrdered hAddrs
  · rw [hPage, if_pos ⟨hNe, hNew⟩] at hAddrs
    have hOld : h.pageAddr i ∉ s.addrs := by
      intro hMem
      obtain ⟨j, hj, hSame, hTaken'⟩ := hInv.pages _ hMem
      have hIndex : i = j := by
        have hi' := hLayout.toNat_pageAddr hi
        have hj' := hLayout.toNat_pageAddr hj
        rw [hSame] at hi'
        omega
      rw [← hIndex, hFree] at hTaken'
      cases hTaken'
    refine ⟨⟨hOrdered, hAddrs.nodup_iff.mpr (List.nodup_cons.mpr ⟨hOld, hInv.nodup⟩),
      fun page hMem => ?_, hInv.head, hLayout.closed_of_frame hInv.closed hFrame⟩,
      ⟨fun page hMem => hAddrs.mem_iff.mpr (List.mem_cons_of_mem _ hMem), .inr ?_⟩⟩
    · rcases List.mem_cons.mp (hAddrs.mem_iff.mp hMem) with rfl | hMem
      · refine ⟨i, hi, rfl, ?_⟩
        rw [hTaken i (by omega)]
        simp
      · obtain ⟨j, hj, rfl, hTaken'⟩ := hInv.pages page hMem
        refine ⟨j, hj, rfl, ?_⟩
        rw [hTaken j (by omega), hTaken', Bool.true_or]
    · have hLength := hAddrs.length_eq
      change s.addrs.length < tree.root.addrs.length
      rw [hLength]
      exact Nat.lt_succ_self _

/-- A call that removes no node keeps every page where it is. -/
theorem Inv.step {call : Call} (hLayout : Layout h nodes) (hInv : Inv h nodes s)
    (hKeep : RemovesNone s call) (hStep : Step h s call t) : Inv h nodes t ∧ Grows s t := by
  cases hStep with
  | create hNew hInsert => exact hInv.create hLayout hNew hInsert
  | replace hOld hInsert =>
      have hAddrs := addrs_rbInsert hInsert
      rw [if_neg (by simp)] at hAddrs
      exact hInv.of_perm (ordered_rbInsert hInv.ordered hInsert) hAddrs
  | delete hDelete hFree =>
      have hFrees := rbDelete_frees hDelete hInv.ordered
      have hAbsent := (rbFind_eq_get hInv.ordered _).symm.trans hKeep
      obtain ⟨rfl, hPerm⟩ := hFrees.perm_of_absent hAbsent
      obtain rfl := hFree.eq_of_nil
      refine hInv.of_perm ?_ hPerm
      rw [hFrees.absent hAbsent]
      exact hInv.ordered
  | free hFree =>
      have hEmpty : s.tree.root = .null := hKeep
      unfold rbFree at hFree ⊢
      rw [hEmpty] at hFree
      obtain rfl := hFree.eq_of_nil
      refine hInv.of_perm List.Pairwise.nil ?_
      unfold State.addrs
      rw [hEmpty]

/-- A page whose node is freed stays taken. Its own byte of `cpage.c` may be in
front of the first page, so that page is chosen where it is among them. -/
theorem Inv.exists_lost {freed : List Word} (hLayout : Layout h nodes) (hInv : Inv h nodes s)
    (hNodes : (freed ++ t.addrs).Subperm s.addrs) (hFreed : freed ≠ [])
    (hFree : Run Kfree s.heap freed t.heap) :
    ∃ page ∈ s.addrs, page ∉ t.addrs ∧
      Cpage.taken h t.heap.mem (Cpage.pageIndex h page) = true := by
  have hNodup : (freed ++ t.addrs).Nodup := by
    obtain ⟨nodes', hPerm, hSub⟩ := hNodes
    exact hPerm.nodup_iff.mp (hSub.nodup hInv.nodup)
  obtain ⟨hFreedNodup, -, hApart⟩ := List.nodup_append.mp hNodup
  have hMem : ∀ page ∈ freed, page ∈ s.addrs := fun page hPage =>
    hNodes.subset (List.mem_append_left _ hPage)
  have hPages : ∀ page ∈ freed, IsPage h page := fun page hPage => by
    obtain ⟨i, hi, hAddr, -⟩ := hInv.pages page (hMem page hPage)
    exact ⟨i, hi, hAddr⟩
  obtain ⟨-, -, -, -, hSame⟩ :=
    kfree_pages hLayout hInv.head hInv.closed hPages hFreedNodup hFree
  have hKept {i : Nat} (hi : i + 1 < h.pages) (hPage : h.pageAddr i ∈ freed)
      (hFirst : h.pageAddr 0 ∈ freed → i = 0) :
      ∃ page ∈ s.addrs, page ∉ t.addrs ∧
        Cpage.taken h t.heap.mem (Cpage.pageIndex h page) = true := by
    have hRounded := Layout.le_bkRounded hi
    have hFit := hLayout.addresses
    have hOffsets := hLayout.offsets
    have hByte := hLayout.toNat_curByte (show i < h.pages by omega)
    have hOutside : Outside (nodes ++ freed.map (· - 8)) (h.curByte i) := by
      intro v hv hIn
      rcases List.mem_append.mp hv with hv | hv
      · refine (hLayout.outside v hv).not_inRange ?_ hIn
        rw [inRange_iff_toNat (by omega), hByte]
        omega
      · obtain ⟨page, hFreedPage, rfl⟩ := List.mem_map.mp hv
        obtain ⟨j, hj, rfl⟩ := hPages page hFreedPage
        have hAddr := hLayout.toNat_pageAddr hj
        have hNode : (h.pageAddr j - 8).toNat = (h.pageAddr j).toNat - 8 := by bv_omega
        rw [inRange_iff_toNat (by omega), hByte, hNode, hAddr] at hIn
        by_cases hZero : j = 0
        · subst hZero
          have := hFirst hFreedPage
          omega
        · omega
    refine ⟨h.pageAddr i, hMem _ hPage, fun hStay => hApart _ hPage _ hStay rfl, ?_⟩
    obtain ⟨j, hj, hAddr, hTaken⟩ := hInv.pages _ (hMem _ hPage)
    rw [hAddr, Cpage.pageIndex_pageAddr h (by omega)]
    have hIndex : i = j := by
      have hi' := hLayout.toNat_pageAddr hi
      have hj' := hLayout.toNat_pageAddr hj
      rw [hAddr] at hi'
      omega
    rw [← hIndex] at hTaken ⊢
    rw [Cpage.taken_congr h (hSame _ hOutside), hTaken]
  by_cases hFirst : h.pageAddr 0 ∈ freed
  · obtain ⟨i, hi, -⟩ := hPages _ hFirst
    exact hKept (by omega) hFirst fun _ => rfl
  · obtain ⟨page, hPage⟩ := List.exists_mem_of_ne_nil freed hFreed
    obtain ⟨i, hi, rfl⟩ := hPages page hPage
    exact hKept hi hPage fun hZero => absurd hZero hFirst

/-- A call that removes a node loses its page. -/
theorem Inv.removesNone_of_restores {call : Call} (hLayout : Layout h nodes)
    (hInv : Inv h nodes s) (hStep : Step h s call t) (hRestores : Restores h s t) :
    RemovesNone s call := by
  have hNotLost {freed : List Word} (hNodes : (freed ++ t.addrs).Subperm s.addrs)
      (hFree : Run Kfree s.heap freed t.heap) : freed = [] := by
    by_contra hFreed
    obtain ⟨page, hPage, hGone, hTaken⟩ := hInv.exists_lost hLayout hNodes hFreed hFree
    rw [hRestores.returned page hPage hGone] at hTaken
    cases hTaken
  cases hStep with
  | create => trivial
  | replace => trivial
  | delete hDelete hFree =>
      have hFrees := rbDelete_frees hDelete hInv.ordered
      obtain rfl := hNotLost hFrees.nodes hFree
      have hCount := hFrees.count
      by_contra hPresent
      rw [RemovesNone, rbFind_eq_get hInv.ordered] at hPresent
      rw [if_neg hPresent] at hCount
      cases hCount
  | free hFree =>
      have hPerm : (rbEraseNode s.tree.root).Perm s.addrs := rbEraseNode_perm _
      have hNone : rbEraseNode s.tree.root = [] := by
        refine hNotLost ?_ hFree
        change (rbEraseNode s.tree.root ++ []).Subperm s.addrs
        rw [List.append_nil]
        exact hPerm.subperm
      unfold RemovesNone
      cases hRoot : s.tree.root with
      | null => rfl
      | node => simp [hRoot, rbEraseNode] at hNone

/-! ## Runs -/

/-- No call of a run finds a node to remove. -/
def KeepsNodes (h : Cpage.Heap) (s : State) (calls : List Call) : Prop :=
  ∀ before call after t u, calls = before ++ call :: after →
    Run (Step h) s before t → Step h t call u → RemovesNone t call

theorem KeepsNodes.grows {before between after calls : List Call} (hLayout : Layout h nodes)
    (hKeeps : KeepsNodes h s calls) (first : Run (Step h) s before t) (hInv : Inv h nodes t)
    (hCalls : calls = before ++ between ++ after) (run : Run (Step h) t between u) :
    Inv h nodes u ∧ Grows t u := by
  induction run generalizing after with
  | nil => exact ⟨hInv, .refl _⟩
  | @snoc middle last between call prior hLast ih =>
      have hCalls' : calls = before ++ between ++ call :: after := by
        rw [hCalls]
        simp
      obtain ⟨hMiddle, hGrows⟩ := ih hCalls'
      have hKeep := hKeeps (before ++ between) call after middle last hCalls'
        (first.trans prior) hLast
      obtain ⟨hInv', hGrows'⟩ := hMiddle.step hLayout hKeep hLast
      exact ⟨hInv', hGrows.trans hGrows'⟩

theorem GivesBack.inv {before after calls : List Call} (hLayout : Layout h nodes)
    (hStart : Start nodes s) (hGives : GivesBack h s calls) (hCalls : calls = before ++ after)
    (run : Run (Step h) s before t) : Inv h nodes t := by
  induction run generalizing after with
  | nil => exact hStart.inv
  | @snoc middle last before call prior hLast ih =>
      have hCalls' : calls = before ++ call :: after := by
        rw [hCalls]
        simp
      have hMiddle := ih hCalls'
      have hRestores := hGives before [call] after middle last hCalls prior
        (.snoc (.nil _) hLast)
      exact (hMiddle.step hLayout (hMiddle.removesNone_of_restores hLayout hLast hRestores) hLast).1

/-- The pages of removed nodes come back in the runs in which no call removes a
node, and in no others. -/
theorem givesBack_iff (hLayout : Layout h nodes) (hStart : Start nodes s) (calls : List Call) :
    GivesBack h s calls ↔ KeepsNodes h s calls := by
  constructor
  · intro hGives before call after t u hCalls run hStep
    have hInv := hGives.inv hLayout hStart hCalls run
    refine hInv.removesNone_of_restores hLayout hStep ?_
    exact hGives before [call] after t u (by rw [hCalls]; simp) run (.snoc (.nil _) hStep)
  · intro hKeeps before between after t u hCalls first run
    have hPrefix : calls = [] ++ before ++ (between ++ after) := by
      rw [hCalls, List.nil_append, List.append_assoc]
    have hInv : Inv h nodes t := (hKeeps.grows hLayout (.nil s) hStart.inv hPrefix first).1
    exact (hKeeps.grows hLayout first hInv hCalls run).2.restores h

section Boot

open Cpage (ramHeap)

/-- The kernel's memory behind `init_kernel_heap`, and the tree of `rb_new`. -/
def bootState : State :=
  ⟨Kmalloc.initKernelHeap fun _ => 0, ⟨.null⟩⟩

theorem layout_boot : Layout ramHeap [Kmalloc.kernelHeapStartVaddr] where
  offsets := by rw [Cpage.ramHeap_pages]; decide
  addresses := by rw [Cpage.ramHeap_pages]; decide
  apart := by
    intro v hv w hw
    rw [List.mem_singleton.mp hv, List.mem_singleton.mp hw]
    exact Kmalloc.sep_self _
  outside := by
    intro v hv
    rw [List.mem_singleton.mp hv, Cpage.ramHeap_pages]
    unfold Apart
    decide

theorem start_boot : Start [Kmalloc.kernelHeapStartVaddr] bootState where
  empty := rfl
  head := List.mem_singleton_self _
  closed := by
    have hSep := Kmalloc.sep_self Kmalloc.kernelHeapStartVaddr
    intro v hv
    rw [List.mem_singleton.mp hv, List.mem_singleton, List.mem_singleton]
    simp only [bootState, Kmalloc.initKernelHeap]
    rw [Kmalloc.next_setNext hSep, Kmalloc.prev_setNext hSep, Kmalloc.prev_setPrev hSep, if_pos rfl,
      if_pos rfl]
    exact ⟨rfl, rfl⟩

/-- Insertions alone. -/
theorem givesBack_two_inserts : GivesBack ramHeap bootState [.insert 2 20, .insert 1 10] := by
  refine (givesBack_iff layout_boot start_boot _).mpr ?_
  intro before call after t u hCalls _ _
  have hMem : call ∈ [Call.insert 2 20, .insert 1 10] := by
    rw [hCalls]
    simp
  simp only [List.mem_cons, List.not_mem_nil, or_false] at hMem
  rcases hMem with rfl | rfl <;> trivial

/-- The first node gets the first page. -/
def oneNode : State :=
  ⟨{ bootState.heap with mem := (Cpage.cpageZnalloc ramHeap bootState.heap.mem 1).2 },
    ⟨.node (ramHeap.pageAddr 0) 1 10 .black .null .null⟩⟩

theorem boot_firstPair :
    Cpage.FirstPair (Cpage.taken ramHeap bootState.heap.mem) ramHeap.pages 0 :=
  ⟨⟨by rw [Cpage.ramHeap_pages]; decide, by decide +kernel, by decide +kernel⟩, by simp⟩

theorem boot_page : (Cpage.cpageZnalloc ramHeap bootState.heap.mem 1).1 = ramHeap.pageAddr 0 := by
  rw [Cpage.cpageZnalloc_of_first (by decide) boot_firstPair]
  rfl

theorem step_oneNode : Step ramHeap bootState (.insert 1 10) oneNode := by
  refine .create rfl ?_
  rw [boot_page]
  decide +kernel

theorem boot_zero {x : Word} (hx : ¬ InRange Kmalloc.kernelHeapStartVaddr 24 x) :
    bootState.heap.mem x = 0 := by
  simp only [bootState, Kmalloc.initKernelHeap]
  rw [Kmalloc.setNext_outside _ _ hx, Kmalloc.setPrev_outside _ _ hx,
    Kmalloc.setSize_outside _ _ hx, Memory.fill, ite_self]

/-- The bytes in front of the first page are zero, so that `kfree` returns at its
error. -/
theorem size_oneNode : Kmalloc.size oneNode.heap.mem (ramHeap.pageAddr 0 - 8) = 0 := by
  refine Memory.load64_zero fun x hx => ?_
  have hAddr : (ramHeap.pageAddr 0).toNat = 0x80060000 + 57344 := by decide
  have hNode : (ramHeap.pageAddr 0 - 8).toNat = 0x80060000 + 57344 - 8 := by decide
  rw [inRange_iff_toNat (by rw [hNode]; decide), hNode] at hx
  have hZeroed : Cpage.zeroed ramHeap bootState.heap.mem 1 = 4096 * 2 :=
    Cpage.zeroed_first boot_firstPair
  have hKept : oneNode.heap.mem x = bootState.heap.mem x := by
    refine Cpage.cpageZnalloc_frame (fun k hk hSame => ?_) fun hIn => ?_
    · have hBound := Cpage.lt_of_mem_accesses (by decide) boot_firstPair (by decide) hk
      rw [Cpage.ramHeap_pages] at hBound
      have hByte := layout_boot.toNat_curByte (show k < ramHeap.pages by
        rw [Cpage.ramHeap_pages]; exact hBound)
      have hStart : ramHeap.start.toNat = 0x80060000 := by decide
      rw [hSame] at hx
      omega
    · rw [boot_page, hZeroed, inRange_iff_toNat (by rw [hAddr]; decide), hAddr] at hIn
      omega
  have hHead : Kmalloc.kernelHeapStartVaddr.toNat = 0x120000000 := by decide
  rw [hKept]
  refine boot_zero fun hIn => ?_
  rw [inRange_iff_toNat (by rw [hHead]; decide), hHead] at hIn
  omega

theorem not_givesBack_insert_delete :
    ¬ GivesBack ramHeap bootState [.insert 1 10, .delete 1] := by
  intro hGives
  have hNonzero : ramHeap.pageAddr 0 ≠ 0 := by decide
  have hFree : Kmalloc.kfree 0 oneNode.heap (ramHeap.pageAddr 0) = some oneNode.heap := by
    rw [Kmalloc.kfree, if_neg hNonzero]
    exact if_pos size_oneNode
  have hStep : Step ramHeap oneNode (.delete 1) ⟨oneNode.heap, ⟨.null⟩⟩ :=
    .delete (by decide +kernel) (.snoc (.nil _) ⟨0, hFree⟩)
  have hRestores := hGives [.insert 1 10] [.delete 1] [] oneNode _ rfl
    (.snoc (.nil _) step_oneNode) (.snoc (.nil _) hStep)
  have hInv : Inv ramHeap [Kmalloc.kernelHeapStartVaddr] oneNode :=
    (start_boot.inv.step layout_boot (show RemovesNone bootState (.insert 1 10) from trivial)
      step_oneNode).1
  have hNone := hInv.removesNone_of_restores layout_boot hStep hRestores
  cases hNone

end Boot

end Kernel.RbtreePages
