import RiscvOs.Kernel.KmallocGrow

/-! The bytes that the list operations of `kmalloc.c` leave alone. They write
to the fields of nodes only, so a new page stays zero behind its node until a
block is cut from it. -/
namespace Kernel.Kmalloc

open Semantics Extent

/-- The address is in no node. -/
def Outside (nodes : List Word) (x : Word) : Prop :=
  ∀ u ∈ nodes, ¬ InRange u 24 x

/-- All links of the nodes lead to nodes. -/
def Closed (m : Memory) (nodes : List Word) : Prop :=
  ∀ u ∈ nodes, next m u ∈ nodes ∧ prev m u ∈ nodes

/-- A page of a row of pages. -/
def pageAt (v : Word) (j : Nat) : Word :=
  v + BitVec.ofNat 64 (4096 * j)

/-- The nodes at the start of the pages of a row end at pages of the row. -/
def PageSizes (m : Memory) (v : Word) (n : Nat) : Prop :=
  ∀ j < n, ∃ k, 0 < k ∧ j + k ≤ n ∧ size m (pageAt v j) = BitVec.ofNat 64 (4096 * k)

theorem pageAt_zero (v : Word) : pageAt v 0 = v := by
  simp [pageAt]

theorem pageAt_add (v : Word) (j k : Nat) :
    pageAt v j + BitVec.ofNat 64 (4096 * k) = pageAt v (j + k) := by
  rw [pageAt, pageAt, BitVec.add_assoc, ← BitVec.ofNat_add, Nat.mul_add]

section Nodes

variable {m m' : Memory} {nodes : List Word} {a b x v : Word} {n : Nat}

theorem setSize_outside (m : Memory) (value : Word) (hx : ¬ InRange a 24 x) :
    setSize m a value x = m x := by
  rw [setSize_eq]
  exact Memory.store64_outside _ _ hx (by decide)

theorem setPrev_outside (m : Memory) (value : Word) (hx : ¬ InRange a 24 x) :
    setPrev m a value x = m x :=
  Memory.store64_outside _ _ hx (by decide)

theorem setNext_outside (m : Memory) (value : Word) (hx : ¬ InRange a 24 x) :
    setNext m a value x = m x :=
  Memory.store64_outside _ _ hx (by decide)

theorem nodeAppend_outside (hcb : next m a ≠ b) (hSep : Sep (next m a) b)
    (hx : Outside [a, b, next m a] x) : nodeAppend m a b x = m x := by
  have hA := hx a (by simp)
  have hB := hx b (by simp)
  have hC := hx (next m a) (by simp)
  rw [nodeAppend_eq hcb hSep, setNext_outside _ _ hA, setPrev_outside _ _ hC,
    setPrev_outside _ _ hB, setNext_outside _ _ hB]

/-- What `node_remove` keeps when all links lead to nodes. -/
theorem nodeRemove_frame (hSep : ∀ u ∈ nodes, ∀ w ∈ nodes, Sep u w) (hClosed : Closed m nodes)
    (ha : a ∈ nodes) :
    Closed (nodeRemove m a) nodes ∧ (∀ u ∈ nodes, size (nodeRemove m a) u = size m u) ∧
      ∀ x, Outside nodes x → nodeRemove m a x = m x := by
  obtain ⟨hNext, hPrev⟩ := hClosed a ha
  have hFields (u : Word) (hu : u ∈ nodes) := nodeRemove_fields (m := m) (a := a) (y := u) (by
    intro w hw z hz
    simp only [List.mem_cons, List.not_mem_nil, or_false] at hw hz
    refine hSep w ?_ z ?_
    · rcases hw with rfl | rfl
      · exact hPrev
      · exact hNext
    · rcases hz with rfl | rfl
      · exact ha
      · exact hu)
  refine ⟨fun u hu => ?_, fun u hu => (hFields u hu).2.2, fun x hx => ?_⟩
  · obtain ⟨hLinkNext, hLinkPrev, -⟩ := hFields u hu
    rw [hLinkNext, hLinkPrev]
    refine ⟨?_, ?_⟩
    · split
      · exact hNext
      · exact (hClosed u hu).1
    · split
      · exact hPrev
      · exact (hClosed u hu).2
  · rw [nodeRemove_eq (hSep _ hNext a ha), setNext_outside _ _ (hx _ hPrev),
      setPrev_outside _ _ (hx _ hNext)]

/-- A node takes over the size of the node behind it. -/
theorem setSize_frame (hSep : ∀ u ∈ nodes, ∀ w ∈ nodes, Sep u w) (hClosed : Closed m nodes)
    (hFirst : ∀ j < n, pageAt v j ∈ nodes) (hSizes : PageSizes m v n) (ha : a ∈ nodes)
    (hEnd : next m a ≠ pageAt v n) (hTouch : a + size m a = next m a) :
    let m₁ := setSize m a (size m a + size m (next m a))
    Closed m₁ nodes ∧ PageSizes m₁ v n := by
  intro m₁
  refine ⟨fun u hu => ?_, fun j hj => ?_⟩
  · rw [next_setSize (hSep a ha u hu), prev_setSize (hSep a ha u hu)]
    exact hClosed u hu
  · obtain ⟨k, hk, hLe, hSize⟩ := hSizes j hj
    rw [size_setSize (hSep a ha _ (hFirst j hj))]
    by_cases hHere : a = pageAt v j
    · have hNext : next m a = pageAt v (j + k) := by
        rw [← hTouch, hHere, hSize, pageAt_add]
      have hLt : j + k < n := by
        refine Nat.lt_of_le_of_ne hLe fun hEq => hEnd ?_
        rw [hNext, hEq]
      obtain ⟨k', -, hLe', hSize'⟩ := hSizes (j + k) hLt
      refine ⟨k + k', by omega, by omega, ?_⟩
      rw [if_pos hHere, hNext, hHere, hSize, hSize', ← BitVec.ofNat_add, Nat.mul_add]
    · exact ⟨k, hk, hLe, by rw [if_neg hHere, hSize]⟩

/-- Each iteration of `coalesce_free_list` writes to nodes only. -/
theorem coalesceLoop_frame (hSep : ∀ u ∈ nodes, ∀ w ∈ nodes, Sep u w)
    (hFirst : ∀ j < n, pageAt v j ∈ nodes) {head : Word}
    (hEnd : ∀ u ∈ nodes, u ≠ head → u ≠ pageAt v n) (hClosed : Closed m nodes)
    (hSizes : PageSizes m v n) {temp : Word} (hTemp : temp ∈ nodes) {fuel : Nat}
    (hLoop : coalesceLoop head m temp fuel = some m') :
    Closed m' nodes ∧ PageSizes m' v n ∧ ∀ x, Outside nodes x → m' x = m x := by
  induction fuel generalizing m temp with
  | zero => cases hLoop
  | succ fuel ih =>
      rw [coalesceLoop] at hLoop
      split at hLoop
      · cases hLoop
        exact ⟨hClosed, hSizes, fun _ _ => rfl⟩
      next hNext =>
        split at hLoop
        next hTouch =>
          obtain ⟨hClosed₁, hSizes₁⟩ := setSize_frame hSep hClosed hFirst hSizes hTemp
            (hEnd _ (hClosed temp hTemp).1 hNext) hTouch
          obtain ⟨hClosed₂, hSize₂, hSame₂⟩ :=
            nodeRemove_frame hSep hClosed₁ (hClosed₁ temp hTemp).1
          have hSizes₂ : PageSizes _ v n := fun j hj => by
            rw [hSize₂ _ (hFirst j hj)]
            exact hSizes₁ j hj
          obtain ⟨hClosed', hSizes', hSame'⟩ := ih hClosed₂ hSizes₂ hTemp hLoop
          refine ⟨hClosed', hSizes', fun x hx => ?_⟩
          rw [hSame' x hx, hSame₂ x hx, setSize_outside _ _ (hx temp hTemp)]
        · exact ih hClosed hSizes (hClosed temp hTemp).1 hLoop

/-- A node that is appended becomes one of the nodes. -/
theorem nodeAppend_frame (hSep : ∀ u ∈ b :: nodes, ∀ w ∈ b :: nodes, Sep u w)
    (hClosed : Closed m nodes) (ha : a ∈ nodes) (hb : b ∉ nodes) :
    Closed (nodeAppend m a b) (b :: nodes) ∧
      ∀ x, Outside (b :: nodes) x → nodeAppend m a b x = m x := by
  obtain ⟨hNext, -⟩ := hClosed a ha
  have hBehind : next m a ≠ b := fun hEq => hb (hEq ▸ hNext)
  have hMem : ∀ u ∈ [a, b, next m a], u ∈ b :: nodes := by
    intro u hu
    simp only [List.mem_cons, List.not_mem_nil, or_false] at hu
    rcases hu with rfl | rfl | rfl
    · exact List.mem_cons_of_mem _ ha
    · exact List.mem_cons_self ..
    · exact List.mem_cons_of_mem _ hNext
  have hFields (u : Word) (hu : u ∈ b :: nodes) := nodeAppend_fields (y := u) hBehind fun w hw z hz => by
    refine hSep w (hMem w hw) z ?_
    rcases List.mem_append.mp (show z ∈ [a, b, next m a] ++ [u] from hz) with hz | hz
    · exact hMem z hz
    · exact List.mem_singleton.mp hz ▸ hu
  refine ⟨fun u hu => ?_, fun x hx => ?_⟩
  · obtain ⟨hLinkNext, hLinkPrev, -⟩ := hFields u hu
    rw [hLinkNext, hLinkPrev]
    have hOld (hNew : b ≠ u) : u ∈ nodes := (List.mem_cons.mp hu).resolve_left hNew.symm
    refine ⟨?_, ?_⟩
    · split
      · exact List.mem_cons_self ..
      split
      · exact List.mem_cons_of_mem _ hNext
      next hNew => exact List.mem_cons_of_mem _ (hClosed u (hOld hNew)).1
    · split
      · exact List.mem_cons_self ..
      split
      · exact List.mem_cons_of_mem _ ha
      next hNew => exact List.mem_cons_of_mem _ (hClosed u (hOld hNew)).2
  · exact nodeAppend_outside hBehind (hSep _ (hMem _ (by simp)) b (List.mem_cons_self ..))
      fun u hu => hx u (hMem u hu)

theorem mem_of_placeLoop (hClosed : Closed m nodes) {head ptr temp place : Word}
    (hTemp : temp ∈ nodes) {fuel : Nat} (hPlace : placeLoop m head ptr temp fuel = some place) :
    place ∈ nodes := by
  induction fuel generalizing temp with
  | zero => cases hPlace
  | succ fuel ih =>
      rw [placeLoop] at hPlace
      split at hPlace
      · cases hPlace
        exact hTemp
      · exact ih (hClosed temp hTemp).2 hPlace

/-- `kfree` writes to nodes only, the one in front of the pointer among them. -/
theorem kfree_frame {h h' : Heap} {ptr : Word} {fuel : Nat}
    (hSep : ∀ u ∈ (ptr - 8) :: nodes, ∀ w ∈ (ptr - 8) :: nodes, Sep u w)
    (hClosed : Closed h.mem nodes) (hHead : h.head ∈ nodes) (hNew : ptr - 8 ∉ nodes)
    (hFree : kfree fuel h ptr = some h') :
    h'.head = h.head ∧ (Closed h'.mem nodes ∨ Closed h'.mem ((ptr - 8) :: nodes)) ∧
      ∀ x, Outside ((ptr - 8) :: nodes) x → h'.mem x = h.mem x := by
  rw [kfree] at hFree
  split at hFree
  · cases hFree
    exact ⟨rfl, .inl hClosed, fun _ _ => rfl⟩
  dsimp only at hFree
  split at hFree
  · cases hFree
    exact ⟨rfl, .inl hClosed, fun _ _ => rfl⟩
  simp only [Option.bind_eq_bind, Option.bind_eq_some_iff] at hFree
  obtain ⟨temp, hPlace, m', hCoalesce, hLast⟩ := hFree
  cases hLast
  have hTemp := mem_of_placeLoop hClosed (hClosed h.head hHead).2 hPlace
  obtain ⟨hClosed₁, hSame₁⟩ := nodeAppend_frame hSep hClosed hTemp hNew
  -- A row of no pages: the sizes are arbitrary.
  obtain ⟨hClosed', -, hSame'⟩ := coalesceLoop_frame (n := 0) (v := h.head) hSep
    (fun _ hj => absurd hj (Nat.not_lt_zero _))
    (fun u _ hu => by rwa [pageAt_zero]) hClosed₁ (fun _ hj => absurd hj (Nat.not_lt_zero _))
    (hClosed₁ h.head (List.mem_cons_of_mem _ hHead)).1 hCoalesce
  exact ⟨rfl, .inr hClosed', fun x hx => (hSame' x hx).trans (hSame₁ x hx)⟩

end Nodes

section Pages

variable {answer : Nat → Word} {h h₁ : Heap} {n : Nat} {free held : List Extent} {x : Word}

theorem mem_pages {v : Word} {e : Extent} : e ∈ pages v n ↔ ∃ j < n, e = (pageAt v j, 4096) := by
  induction n generalizing v with
  | zero => simp [pages]
  | succ n ih =>
      rw [pages, List.mem_cons, ih]
      constructor
      · rintro (rfl | ⟨j, hj, rfl⟩)
        · exact ⟨0, Nat.succ_pos n, by rw [pageAt_zero]⟩
        · refine ⟨j + 1, Nat.succ_lt_succ hj, ?_⟩
          rw [pageAt, pageAt, ofNat_page]
      · rintro ⟨j, hj, rfl⟩
        cases j with
        | zero => exact .inl (by rw [pageAt_zero])
        | succ j =>
            refine .inr ⟨j, Nat.lt_of_succ_lt_succ hj, ?_⟩
            rw [pageAt, pageAt, ofNat_page]

/-- The pages behind the heap. -/
theorem toNat_pageAt (hRoom : Room h n) {j : Nat} (hj : j < n) :
    (pageAt (h.heapVAddr + 4096) j).toNat = h.heapVAddr.toNat + 4096 * (j + 1) := by
  unfold Room at hRoom
  rw [pageAt, ofNat_page, BitVec.toNat_add, BitVec.toNat_ofNat]
  omega

/-- No node of the list starts behind the last page. -/
theorem Cut.ne_pageAt (hCut : Cut h₁ (free ++ pages (h.heapVAddr + 4096) n) held)
    (hRoom : Room h n) (hAddr : h₁.heapVAddr = h.heapVAddr + BitVec.ofNat 64 (4096 * n))
    {e : Extent} (he : e ∈ free ++ pages (h.heapVAddr + 4096) n) :
    e.1 ≠ pageAt (h.heapVAddr + 4096) n := by
  obtain ⟨hLeast, hLo, hHi⟩ := hCut.holds.separate.within e (List.mem_append_left _ he)
  unfold Room at hRoom
  have hEnd : h₁.heapVAddr.toNat = h.heapVAddr.toNat + 4096 * n := by
    rw [hAddr, BitVec.toNat_add, BitVec.toNat_ofNat]
    omega
  intro hEq
  rw [hEq, pageAt, ofNat_page, BitVec.toNat_add, BitVec.toNat_ofNat] at hLo hHi
  omega

/-- The bytes of the new pages behind their nodes. -/
def Fresh (h : Heap) (n : Nat) (x : Word) : Prop :=
  h.heapVAddr.toNat + 4096 ≤ x.toNat ∧ x.toNat < h.heapVAddr.toNat + 4096 * (n + 1) ∧
    24 ≤ (x.toNat - h.heapVAddr.toNat) % 4096

/-- One iteration with a page writes to the page and to nodes. -/
theorem Cut.page_frame (hCut : Cut h free held) (hRoom : Room h (n + 1))
    (hx : Outside (h.head :: (free ++ [(h.heapVAddr + 4096, 4096)]).map Prod.fst) x) :
    let v := h.heapVAddr + 4096
    let m := setSize (h.mem.fill v 4096 0) v 4096
    nodeAppend m (prev m h.head) v x = h.mem.fill v 4096 0 x := by
  intro v m
  rw [Room, Nat.mul_succ, ← Nat.add_assoc] at hRoom
  have hAbove := hCut.above
  have hAddr := toNat_nextPage (v := h.heapVAddr) (by omega)
  have hHolds : Holds m h.head (h.heapVAddr.toNat + 4096 + 4096) free ((v, 4096) :: held) :=
    hCut.holds.page_spec hAddr (by omega) (by omega)
  have hRing : Ring (next m) (prev m) h.head (free.map Prod.fst ++ []) := by
    rw [List.append_nil]
    exact hHolds.ring
  have hPrev : prev m h.head = (free.map Prod.fst).getLastD h.head := hHolds.ring.last
  have hNext : next m (prev m h.head) = h.head := by
    rw [hPrev]
    exact hRing.between.1
  have hNode : v ∈ (free ++ (v, 4096) :: held).map Prod.fst := by simp
  have hHead : h.head ≠ v := by
    intro hEq
    refine (List.nodup_cons.mp hHolds.nodup).1 ?_
    rw [hEq]
    exact hNode
  have hLast : prev m h.head ∈ h.head :: (free ++ [(v, 4096)]).map Prod.fst := by
    have hMem := hHolds.ring.prev_mem (List.mem_cons_self ..)
    rw [List.map_append, ← List.cons_append]
    exact List.mem_append_left _ hMem
  have hPage : v ∈ h.head :: (free ++ [(v, 4096)]).map Prod.fst := by
    rw [List.map_append, ← List.cons_append]
    exact List.mem_append_right _ (List.mem_singleton_self v)
  have hSep : Sep h.head v := hHolds.sep (List.mem_cons_self ..) (List.mem_cons_of_mem _ hNode)
  have hAppend : nodeAppend m (prev m h.head) v x = m x := by
    refine nodeAppend_outside (by rwa [hNext]) (by rwa [hNext]) fun u hu => ?_
    rw [hNext] at hu
    simp only [List.mem_cons, List.not_mem_nil, or_false] at hu
    rcases hu with rfl | rfl | rfl
    · exact hx _ hLast
    · exact hx v hPage
    · exact hx h.head (List.mem_cons_self ..)
  rw [hAppend]
  exact setSize_outside _ _ (hx v hPage)

/-- A byte of a new page behind its node is in no node. -/
theorem Cut.outside_of_fresh (hCut : Cut h free held) (hRoom : Room h n) (hx : Fresh h n x) :
    Outside (h.head :: (free ++ pages (h.heapVAddr + 4096) n).map Prod.fst) x := by
  obtain ⟨hFirst, hLast, hBehind⟩ := hx
  have hAbove := hCut.above
  have hLimit := hCut.holds.limit
  intro u hu
  rw [List.map_append, List.mem_cons, List.mem_append] at hu
  rcases hu with rfl | hu | hu
  · rw [inRange_iff_toNat (by omega)]
    omega
  · obtain ⟨e, he, rfl⟩ := List.mem_map.mp hu
    obtain ⟨hLeast, -, hHi⟩ := hCut.holds.separate.within e (List.mem_append_left _ he)
    rw [inRange_iff_toNat (by omega)]
    omega
  · obtain ⟨e, he, rfl⟩ := List.mem_map.mp hu
    obtain ⟨j, hj, rfl⟩ := mem_pages.mp he
    have hPage := toNat_pageAt hRoom hj
    unfold Room at hRoom
    simp only
    rw [inRange_iff_toNat (by omega), hPage]
    omega

/-- The loop over the pages writes to the pages and to nodes, and the new
pages are zero behind their nodes. -/
theorem extendLoop_frame (hCut : Cut h free held) (hRoom : Room h n)
    (hLoop : extendLoop answer h n = (true, h₁)) :
    (∀ x, x.toNat < h.heapVAddr.toNat + 4096 → Outside (h.head :: free.map Prod.fst) x →
      h₁.mem x = h.mem x) ∧ ∀ x, Fresh h n x → h₁.mem x = 0 := by
  induction n generalizing h free with
  | zero =>
      cases hLoop
      refine ⟨fun _ _ _ => rfl, fun x hx => ?_⟩
      obtain ⟨hFirst, hLast, -⟩ := hx
      omega
  | succ n ih =>
      rw [extendLoop] at hLoop
      simp only at hLoop
      split at hLoop
      · cases hLoop
      · obtain ⟨hCut', hRoom'⟩ := hCut.page hRoom
        obtain ⟨hOld, hNew⟩ := ih hCut' hRoom' hLoop
        have hSpace := hRoom
        rw [Room, Nat.mul_succ, ← Nat.add_assoc] at hSpace
        have hAddr := toNat_nextPage (v := h.heapVAddr) (by omega)
        have hTop : (h.heapVAddr + 4096).toNat + 4096 ≤ 2 ^ 64 := by omega
        refine ⟨fun x hx hOutside => ?_, fun x hx => ?_⟩
        · have hPage : ¬ InRange (h.heapVAddr + 4096) 4096 x := by
            rw [inRange_iff_toNat hTop]
            omega
          have hNodes : Outside (h.head :: (free ++ [(h.heapVAddr + 4096, 4096)]).map Prod.fst) x := by
            intro u hu
            rw [List.map_append, ← List.cons_append, List.mem_append] at hu
            rcases hu with hu | hu
            · exact hOutside u hu
            · obtain rfl := List.mem_singleton.mp hu
              simp only
              rw [inRange_iff_toNat (by omega)]
              omega
          rw [hOld x (by simp only [hAddr]; omega) hNodes]
          exact (hCut.page_frame hRoom hNodes).trans (Memory.fill_outside _ _ hPage)
        · obtain ⟨hFirst, hLast, hBehind⟩ := hx
          rw [Nat.mul_succ] at hLast
          by_cases hHere : x.toNat < h.heapVAddr.toNat + 8192
          · have hPage : InRange (h.heapVAddr + 4096) 4096 x := by
              rw [inRange_iff_toNat hTop]
              omega
            have hNodes : Outside (h.head :: (free ++ [(h.heapVAddr + 4096, 4096)]).map Prod.fst) x :=
              hCut.outside_of_fresh (n := 1) (by unfold Room; omega) ⟨hFirst, by omega, hBehind⟩
            rw [hOld x (by simp only [hAddr]; omega) hNodes]
            exact (hCut.page_frame hRoom hNodes).trans (Memory.fill_inside _ _ hPage)
          · refine hNew x ⟨?_, ?_, ?_⟩
            · simp only [hAddr]
              omega
            · simp only [hAddr]
              rwa [Nat.add_assoc, Nat.add_comm 4096]
            · simp only [hAddr]
              rw [← Nat.sub_sub, ← Nat.mod_eq_sub_mod (by omega)]
              exact hBehind

/-- What is left of the pages of a request before the block is cut: the node
of the first page ends at one of them, and the pages are zero outside the
nodes. -/
theorem Cut.grown_frame (hCut : Cut h free held) (hRoom : Room h n) (hn : 0 < n)
    (hLoop : Kmalloc.extendLoop answer h n = (true, h₁)) {m : Memory} {fuel : Nat}
    (hCoalesce : coalesceFreeList fuel h₁.head h₁.mem = some m) :
    ∃ nodes k, (∀ u ∈ nodes, ∀ w ∈ nodes, Sep u w) ∧ Closed m nodes ∧
      h.heapVAddr + 4096 ∈ nodes ∧ 0 < k ∧ k ≤ n ∧
      size m (h.heapVAddr + 4096) = BitVec.ofNat 64 (4096 * k) ∧
      ∀ x, Fresh h n x → m x = 0 ∧ Outside nodes x := by
  obtain ⟨ok, h', k, hLoop', hExtended, hHead, hCut'⟩ := extendLoop_extended answer h n
  rw [hLoop] at hLoop'
  obtain ⟨rfl, rfl⟩ := Prod.mk.inj hLoop'
  cases hExtended with
  | all hPages hAddr hCalls =>
      have hAfter := hCut' free held hCut hRoom
      obtain ⟨-, hZero⟩ := extendLoop_frame hCut hRoom hLoop
      let nodes := h₁.head :: (free ++ pages (h.heapVAddr + 4096) n).map Prod.fst
      have hSep : ∀ u ∈ nodes, ∀ w ∈ nodes, Sep u w := fun u hu w hw =>
        hAfter.holds.sep (Holds.mem_of_ring hu) (Holds.mem_of_ring hw)
      have hPage (j : Nat) (hj : j < n) : (pageAt (h.heapVAddr + 4096) j, 4096) ∈
          free ++ pages (h.heapVAddr + 4096) n :=
        List.mem_append_right _ (mem_pages.mpr ⟨j, hj, rfl⟩)
      have hFirst (j : Nat) (hj : j < n) : pageAt (h.heapVAddr + 4096) j ∈ nodes :=
        List.mem_cons_of_mem _ (List.mem_map_of_mem (hPage j hj))
      have hEnd : ∀ u ∈ nodes, u ≠ h₁.head → u ≠ pageAt (h.heapVAddr + 4096) n := by
        intro u hu hNe
        obtain ⟨e, he, rfl⟩ := List.mem_map.mp ((List.mem_cons.mp hu).resolve_left hNe)
        exact hAfter.ne_pageAt hRoom hAddr he
      have hClosed : Closed h₁.mem nodes := fun u hu =>
        ⟨hAfter.holds.ring.next_mem hu, hAfter.holds.ring.prev_mem hu⟩
      have hSizes : PageSizes h₁.mem (h.heapVAddr + 4096) n := by
        intro j hj
        have hSize := hAfter.holds.sizes _ (List.mem_append_left held (hPage j hj))
        refine ⟨1, Nat.one_pos, hj, ?_⟩
        rw [hSize]
        rfl
      obtain ⟨hClosed', hSizes', hSame⟩ := coalesceLoop_frame hSep hFirst hEnd hClosed hSizes
        (hClosed h₁.head (List.mem_cons_self ..)).1 hCoalesce
      obtain ⟨k, hk, hLe, hSize⟩ := hSizes' 0 hn
      have hNode := hFirst 0 hn
      rw [pageAt_zero] at hSize hNode
      refine ⟨nodes, k, hSep, hClosed', hNode, hk, by omega, hSize, fun x hx => ?_⟩
      have hOutside : Outside nodes x := by
        simp only [nodes, hHead]
        exact hCut.outside_of_fresh hRoom hx
      rw [hSame x hOutside]
      exact ⟨hZero x hx, hOutside⟩

end Pages

end Kernel.Kmalloc
