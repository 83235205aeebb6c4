import Mathlib.Data.List.Pairwise
import RiscvOs.Kernel.Kmalloc
import RiscvOs.Semantics.Extents
import RiscvOs.Semantics.Ring

/-! What the list operations of `kmalloc.c` do to a heap that is cut into
free nodes and held blocks. Both start with their size; a free node has two
links behind it. -/
namespace Kernel.Kmalloc

open Semantics Extent

/-- Two nodes are the same, or their fields share no byte. -/
def Sep (x y : Word) : Prop :=
  x ≠ y → Apart x 24 y 24

section Fields

variable {m : Memory} {x y : Word} {value : Word}

theorem load64_store64_field (m : Memory) (h : Sep x y) (value : Word) {i j : Nat} (hi : i < 3)
    (hj : j < 3) :
    (m.store64 (x + BitVec.ofNat 64 (8 * i)) value).load64 (y + BitVec.ofNat 64 (8 * j)) =
      if x = y ∧ i = j then value else m.load64 (y + BitVec.ofNat 64 (8 * j)) := by
  split
  next hSame =>
    obtain ⟨rfl, rfl⟩ := hSame
    exact Memory.load64_store64 ..
  next hOther =>
    refine Memory.load64_store64_apart _ _ ?_
    by_cases hxy : x = y
    · have hij : i ≠ j := fun hEq => hOther ⟨hxy, hEq⟩
      rw [hxy]
      exact apart_of_offsets (by decide) (by decide) (by omega) (by omega) (by omega)
    · exact (h hxy).part (by omega) (by omega) (by decide) (by decide)

theorem size_eq (m : Memory) (x : Word) : size m x = m.load64 (x + BitVec.ofNat 64 (8 * 0)) := by
  simp [size]

theorem setSize_eq (m : Memory) (x value : Word) :
    setSize m x value = m.store64 (x + BitVec.ofNat 64 (8 * 0)) value := by
  simp [setSize]

theorem prev_eq (m : Memory) (x : Word) : prev m x = m.load64 (x + BitVec.ofNat 64 (8 * 1)) := rfl

theorem setPrev_eq (m : Memory) (x value : Word) :
    setPrev m x value = m.store64 (x + BitVec.ofNat 64 (8 * 1)) value := rfl

theorem next_eq (m : Memory) (x : Word) : next m x = m.load64 (x + BitVec.ofNat 64 (8 * 2)) := rfl

theorem setNext_eq (m : Memory) (x value : Word) :
    setNext m x value = m.store64 (x + BitVec.ofNat 64 (8 * 2)) value := rfl

theorem size_setSize (h : Sep x y) :
    size (setSize m x value) y = if x = y then value else size m y := by
  rw [size_eq, setSize_eq, load64_store64_field m h value (by decide) (by decide), size_eq]
  simp

theorem size_setPrev (h : Sep x y) : size (setPrev m x value) y = size m y := by
  rw [size_eq, setPrev_eq, load64_store64_field m h value (by decide) (by decide), size_eq]
  simp

theorem size_setNext (h : Sep x y) : size (setNext m x value) y = size m y := by
  rw [size_eq, setNext_eq, load64_store64_field m h value (by decide) (by decide), size_eq]
  simp

theorem prev_setSize (h : Sep x y) : prev (setSize m x value) y = prev m y := by
  rw [prev_eq, setSize_eq, load64_store64_field m h value (by decide) (by decide), prev_eq]
  simp

theorem prev_setPrev (h : Sep x y) :
    prev (setPrev m x value) y = if x = y then value else prev m y := by
  rw [prev_eq, setPrev_eq, load64_store64_field m h value (by decide) (by decide), prev_eq]
  simp

theorem prev_setNext (h : Sep x y) : prev (setNext m x value) y = prev m y := by
  rw [prev_eq, setNext_eq, load64_store64_field m h value (by decide) (by decide), prev_eq]
  simp

theorem next_setSize (h : Sep x y) : next (setSize m x value) y = next m y := by
  rw [next_eq, setSize_eq, load64_store64_field m h value (by decide) (by decide), next_eq]
  simp

theorem next_setPrev (h : Sep x y) : next (setPrev m x value) y = next m y := by
  rw [next_eq, setPrev_eq, load64_store64_field m h value (by decide) (by decide), next_eq]
  simp

theorem next_setNext (h : Sep x y) :
    next (setNext m x value) y = if x = y then value else next m y := by
  rw [next_eq, setNext_eq, load64_store64_field m h value (by decide) (by decide), next_eq]
  simp

/-- The fields of a node are in its first 24 bytes. -/
theorem fields_congr {m' : Memory} (h : Memory.AgreeOn m m' y 24) :
    size m' y = size m y ∧ prev m' y = prev m y ∧ next m' y = next m y := by
  have hField (i : Nat) (hi : i < 3) : m'.load64 (y + BitVec.ofNat 64 (8 * i)) =
      m.load64 (y + BitVec.ofNat 64 (8 * i)) :=
    Memory.load64_congr fun x hx => h x (hx.part (by omega) (by omega))
  rw [size_eq, size_eq]
  exact ⟨hField 0 (by decide), hField 1 (by decide), hField 2 (by decide)⟩

end Fields

section Links

variable {m : Memory} {a b y : Word}

theorem sep_self (x : Word) : Sep x x :=
  fun hne => absurd rfl hne

/-- The four writes of `node_append`. -/
theorem nodeAppend_eq (hcb : next m a ≠ b) (hSep : Sep (next m a) b) :
    nodeAppend m a b =
      setNext (setPrev (setPrev (setNext m b (next m a)) b a) (next m a) b) a b := by
  have hNextB : next (setPrev (setNext m b (next m a)) b a) b = next m a := by
    rw [next_setPrev (sep_self b), next_setNext (sep_self b), if_pos rfl]
  have hPrevB : prev (setPrev (setPrev (setNext m b (next m a)) b a) (next m a) b) b = a := by
    rw [prev_setPrev hSep, if_neg hcb, prev_setPrev (sep_self b), if_pos rfl]
  simp only [nodeAppend, hNextB, hPrevB]

/-- What `node_append` leaves in the fields of any node. -/
theorem nodeAppend_fields (hcb : next m a ≠ b)
    (hSep : ∀ x ∈ [a, b, next m a], ∀ z ∈ [a, b, next m a, y], Sep x z) :
    next (nodeAppend m a b) y = (if a = y then b else if b = y then next m a else next m y) ∧
      prev (nodeAppend m a b) y = (if next m a = y then b else if b = y then a else prev m y) ∧
      size (nodeAppend m a b) y = size m y := by
  have hA := hSep a (by simp) y (by simp)
  have hB := hSep b (by simp) y (by simp)
  have hC := hSep (next m a) (by simp) y (by simp)
  rw [nodeAppend_eq hcb (hSep _ (by simp) b (by simp))]
  refine ⟨?_, ?_, ?_⟩
  · rw [next_setNext hA, next_setPrev hC, next_setPrev hB, next_setNext hB]
  · rw [prev_setNext hA, prev_setPrev hC, prev_setPrev hB, prev_setNext hB]
  · rw [size_setNext hA, size_setPrev hC, size_setPrev hB, size_setNext hB]

/-- The two writes of `node_remove`. -/
theorem nodeRemove_eq (hSep : Sep (next m a) a) :
    nodeRemove m a = setNext (setPrev m (next m a) (prev m a)) (prev m a) (next m a) := by
  have hNextA : next (setPrev m (next m a) (prev m a)) a = next m a := next_setPrev hSep
  have hPrevA : prev (setPrev m (next m a) (prev m a)) a = prev m a := by
    rw [prev_setPrev hSep, ite_self]
  simp only [nodeRemove, hNextA, hPrevA]

/-- What `node_remove` leaves in the fields of any node. -/
theorem nodeRemove_fields (hSep : ∀ x ∈ [prev m a, next m a], ∀ z ∈ [a, y], Sep x z) :
    next (nodeRemove m a) y = (if prev m a = y then next m a else next m y) ∧
      prev (nodeRemove m a) y = (if next m a = y then prev m a else prev m y) ∧
      size (nodeRemove m a) y = size m y := by
  have hP := hSep (prev m a) (by simp) y (by simp)
  have hN := hSep (next m a) (by simp) y (by simp)
  rw [nodeRemove_eq (hSep _ (by simp) a (by simp))]
  refine ⟨?_, ?_, ?_⟩
  · rw [next_setNext hP, next_setPrev hN]
  · rw [prev_setNext hP, prev_setPrev hN]
  · rw [size_setNext hP, size_setPrev hN]

/-- `node_remove` takes a node out of the ring and leaves all sizes. -/
theorem ring_nodeRemove {units as bs : List Word} {head c : Word}
    (hRing : Ring (next m) (prev m) head (as ++ c :: bs))
    (hUnits : ∀ x ∈ head :: (as ++ c :: bs), x ∈ units)
    (hSep : ∀ x ∈ units, ∀ z ∈ units, Sep x z) :
    Ring (next (nodeRemove m c)) (prev (nodeRemove m c)) head (as ++ bs) ∧
      ∀ x ∈ units, size (nodeRemove m c) x = size m x := by
  obtain ⟨hNextC, hPrevC⟩ := hRing.links_of_split
  obtain ⟨hBefore, hAfter⟩ := Ring.neighbours_mem head as bs
  have hOthers (x : Word) (hx : x ∈ head :: (as ++ bs)) : x ∈ units ∧ x ≠ c := by
    refine ⟨hUnits x ?_, ?_⟩
    · simp only [List.mem_cons, List.mem_append] at hx ⊢
      exact hx.imp_right (Or.imp_right .inr)
    · rintro rfl
      exact hRing.nodup_of_split.1 hx
  have hC : c ∈ units := hUnits c (by simp)
  have hFields (y : Word) (hy : y ∈ units) := nodeRemove_fields (m := m) (a := c) (y := y) (by
      intro x hx z hz
      rw [hNextC, hPrevC] at hx
      simp only [List.mem_cons, List.not_mem_nil, or_false] at hx hz
      refine hSep x ?_ z ?_
      · rcases hx with rfl | rfl
        · exact (hOthers _ hBefore).1
        · exact (hOthers _ hAfter).1
      · rcases hz with rfl | rfl
        · exact hC
        · exact hy)
  rw [hNextC, hPrevC] at hFields
  refine ⟨hRing.remove ?_ ?_ ?_ ?_, fun x hx => (hFields x hx).2.2⟩
  · rw [(hFields _ (hOthers _ hBefore).1).1, if_pos rfl]
  · rw [(hFields _ (hOthers _ hAfter).1).2.1, if_pos rfl]
  · intro x hx hxa
    rw [(hFields x (hOthers x hx).1).1, if_neg hxa.symm]
  · intro x hx hxc
    rw [(hFields x (hOthers x hx).1).2.1, if_neg hxc.symm]

end Links

/-- The head and the units of a separate family above it share no field. -/
theorem sep_of_separate {head : Word} {hi : Nat} {units : List Extent}
    (h : Separate (head.toNat + 24) hi 24 units) (hLimit : hi ≤ 2 ^ 64) {x y : Word}
    (hx : x ∈ head :: units.map Prod.fst) (hy : y ∈ head :: units.map Prod.fst) : Sep x y := by
  have hHead (e : Extent) (he : e ∈ units) : Apart head 24 e.1 24 := by
    obtain ⟨hLeast, hLo, hHi⟩ := h.within e he
    have hEnd : head.toNat + (24 : Word).toNat ≤ 2 ^ 64 := by
      simp
      omega
    exact Disjoint.apart (a := (head, 24)) (b := e) (.inl hLo) (Nat.le_refl 24) hLeast (by decide)
      (by decide) hEnd (by omega)
  intro hne
  rcases List.mem_cons.mp hx with hx | hx <;> rcases List.mem_cons.mp hy with hy | hy
  · exact absurd (hx.trans hy.symm) hne
  · rw [hx]
    obtain ⟨e, he, rfl⟩ := List.mem_map.mp hy
    exact hHead e he
  · rw [hy]
    obtain ⟨e, he, rfl⟩ := List.mem_map.mp hx
    exact (hHead e he).symm
  · obtain ⟨e, he, rfl⟩ := List.mem_map.mp hx
    obtain ⟨f, hf, rfl⟩ := List.mem_map.mp hy
    obtain ⟨hLeast, -, hHi⟩ := h.within e he
    obtain ⟨hLeast', -, hHi'⟩ := h.within f hf
    have hDisjoint : Extent.Disjoint e f :=
      h.disjoint.forall he hf fun hEq => hne (congrArg Prod.fst hEq)
    exact hDisjoint.apart hLeast hLeast' (by decide) (by decide) (by omega) (by omega)

theorem nodup_of_separate {head : Word} {hi : Nat} {units : List Extent}
    (h : Separate (head.toNat + 24) hi 24 units) : (head :: units.map Prod.fst).Nodup := by
  refine List.nodup_cons.mpr ⟨fun hMem => ?_, ?_⟩
  · obtain ⟨e, he, hEq⟩ := List.mem_map.mp hMem
    have hLo := (h.within e he).lo_le
    rw [hEq] at hLo
    omega
  · rw [List.Nodup, List.pairwise_map]
    refine h.disjoint.imp_of_mem fun {e f} he hf hDisjoint hEq => ?_
    have hE := (h.within e he).least_le
    have hF := (h.within f hf).least_le
    unfold Extent.Disjoint at hDisjoint
    rw [hEq] at hDisjoint
    omega

/-- The heap below `hi` is cut into the node of the head, the free nodes of
the list and the held blocks; each of them starts with its size. -/
structure Holds (m : Memory) (head : Word) (hi : Nat) (free held : List Extent) : Prop where
  ring : Ring (next m) (prev m) head (free.map Prod.fst)
  head_size : size m head = 0
  sizes : ∀ e ∈ free ++ held, size m e.1 = e.2
  separate : Separate (head.toNat + 24) hi 24 (free ++ held)
  limit : hi ≤ 2 ^ 64

namespace Holds

variable {m m' : Memory} {head : Word} {hi : Nat} {free free' held held' xs ys : List Extent}
  {e c : Extent}

theorem sep (h : Holds m head hi free held) {x y : Word}
    (hx : x ∈ head :: (free ++ held).map Prod.fst) (hy : y ∈ head :: (free ++ held).map Prod.fst) :
    Sep x y :=
  sep_of_separate h.separate h.limit hx hy

theorem mem_free (he : e ∈ free) : e.1 ∈ head :: (free ++ held).map Prod.fst :=
  List.mem_cons_of_mem _ (List.mem_map_of_mem (List.mem_append_left _ he))

theorem mem_of_ring {x : Word} (hx : x ∈ head :: free.map Prod.fst) :
    x ∈ head :: (free ++ held).map Prod.fst := by
  rw [List.map_append, ← List.cons_append]
  exact List.mem_append_left _ hx

/-- The addresses of all nodes and blocks differ. -/
theorem nodup (h : Holds m head hi free held) :
    (head :: (free ++ held).map Prod.fst).Nodup :=
  nodup_of_separate h.separate

theorem ne_head (h : Holds m head hi free held) (he : e ∈ free ++ held) : e.1 ≠ head := by
  intro hEq
  refine (List.nodup_cons.mp h.nodup).1 ?_
  rw [← hEq]
  exact List.mem_map_of_mem he

/-- The links of a node of the list. -/
theorem links (h : Holds m head hi (xs ++ e :: ys) held) :
    next m e.1 = (ys.map Prod.fst).headD head ∧ prev m e.1 = (xs.map Prod.fst).getLastD head := by
  have hRing := h.ring
  rw [List.map_append, List.map_cons] at hRing
  exact hRing.links_of_split

/-- Memory that keeps the nodes of the list and the sizes of the blocks. -/
theorem congr (h : Holds m head hi free held)
    (hFree : ∀ x ∈ head :: free.map Prod.fst, Memory.AgreeOn m m' x 24)
    (hHeld : ∀ e ∈ held, Memory.AgreeOn m m' e.1 8) : Holds m' head hi free held := by
  refine ⟨h.ring.congr ?_ ?_, ?_, fun e he => ?_, h.separate, h.limit⟩
  · exact fun x hx => (fields_congr (hFree x hx)).2.2
  · exact fun x hx => (fields_congr (hFree x hx)).2.1
  · rw [(fields_congr (hFree head (List.mem_cons_self ..))).1, h.head_size]
  · rw [← h.sizes e he]
    rcases List.mem_append.mp he with hf | hh
    · exact (fields_congr (hFree e.1 (List.mem_cons_of_mem _ (List.mem_map_of_mem hf)))).1
    · exact Memory.load64_congr (hHeld e hh)

theorem perm_held (h : Holds m head hi free held) (hPerm : held.Perm held') :
    Holds m head hi free held' :=
  ⟨h.ring, h.head_size, fun e he => h.sizes e ((hPerm.append_left free).mem_iff.mpr he),
    h.separate.perm (hPerm.append_left free), h.limit⟩

/-- The bytes of a held block behind its size may change. -/
theorem payload (h : Holds m head hi free held) (he : e ∈ held)
    (hOutside : ∀ x, ¬ InRange (e.1 + 8) (e.2.toNat - 8) x → m' x = m x) :
    Holds m' head hi free held := by
  obtain ⟨hLeast, hLo, hHi⟩ := h.separate.within e (List.mem_append_right _ he)
  have hLimit := h.limit
  have hOther (f : Extent) (hf : f ∈ free ++ held) (hne : f ≠ e) :
      Apart f.1 24 (e.1 + 8) (e.2.toNat - 8) := by
    obtain ⟨hLeast', -, hHi'⟩ := h.separate.within f hf
    have hDisjoint : Extent.Disjoint f e :=
      h.separate.disjoint.forall hf (List.mem_append_right _ he) hne
    have hApart : Apart f.1 24 e.1 e.2.toNat :=
      hDisjoint.apart hLeast' (Nat.le_refl _) (by decide) (by omega) (by omega) (by omega)
    exact hApart.part_right (j := 8) (by omega) (by decide) (by omega)
  have hNodup := h.nodup
  rw [List.map_append, ← List.cons_append] at hNodup
  refine h.congr (fun x hx y hy => hOutside y ?_) (fun f hf y hy => hOutside y ?_)
  · rcases List.mem_cons.mp hx with rfl | hx
    · have hEnd : x.toNat + (24 : Word).toNat ≤ 2 ^ 64 := by
        simp
        omega
      have hApart : Apart x 24 e.1 e.2.toNat :=
        Disjoint.apart (a := (x, 24)) (b := e) (.inl hLo) (Nat.le_refl 24) (Nat.le_refl _)
          (by decide) (by omega) hEnd (by omega)
      exact (hApart.part_right (j := 8) (by omega) (by decide) (by omega)).symm.not_inRange hy
    · obtain ⟨f, hf, rfl⟩ := List.mem_map.mp hx
      refine (hOther f (List.mem_append_left _ hf) ?_).symm.not_inRange hy
      rintro rfl
      exact (List.nodup_append.mp hNodup).2.2 f.1
        (List.mem_cons_of_mem _ (List.mem_map_of_mem hf)) f.1 (List.mem_map_of_mem he) rfl
  · by_cases hSame : f = e
    · subst hSame
      have hApart : Apart f.1 8 (f.1 + BitVec.ofNat 64 8) (f.2.toNat - 8) :=
        apart_behind f.1 (by decide) (by omega) (by omega)
      exact hApart.symm.not_inRange hy
    · exact ((hOther f (List.mem_append_right _ hf) hSame).mono (by decide)
        (Nat.le_refl _)).symm.not_inRange hy

/-- A held block is put into the free list between two neighbours. -/
theorem append_spec (h : Holds m head hi (xs ++ ys) (e :: held)) :
    Holds (nodeAppend m ((xs.map Prod.fst).getLastD head) e.1) head hi (xs ++ e :: ys) held := by
  have hRing := h.ring
  rw [List.map_append] at hRing
  obtain ⟨hNextA, -⟩ := hRing.between
  have hPerm : (xs ++ ys ++ e :: held).Perm (xs ++ e :: ys ++ held) := by
    rw [List.append_assoc, List.append_assoc]
    exact List.Perm.append_left xs List.perm_middle
  have hNodup := h.nodup
  have hUnit (x : Word) (hx : x ∈ head :: (xs.map Prod.fst ++ ys.map Prod.fst)) :
      x ∈ head :: (xs ++ ys ++ e :: held).map Prod.fst ∧ x ≠ e.1 := by
    have hIn : x ∈ head :: (xs ++ ys).map Prod.fst := by rwa [List.map_append]
    refine ⟨?_, ?_⟩
    · rw [List.map_append]
      rcases List.mem_cons.mp hIn with rfl | hIn
      · exact List.mem_cons_self ..
      · exact List.mem_cons_of_mem _ (List.mem_append_left _ hIn)
    · rintro rfl
      rw [List.map_append, ← List.cons_append] at hNodup
      exact (List.nodup_append.mp hNodup).2.2 _ hIn e.1 (by simp) rfl
  have hA := (Ring.neighbours_mem head (xs.map Prod.fst) (ys.map Prod.fst)).1
  have hC : next m ((xs.map Prod.fst).getLastD head) ∈
      head :: (xs.map Prod.fst ++ ys.map Prod.fst) := hRing.next_mem hA
  have hE : e.1 ∈ head :: (xs ++ ys ++ e :: held).map Prod.fst := by simp
  have hFields (y : Word) (hy : y ∈ head :: (xs ++ ys ++ e :: held).map Prod.fst) :=
    nodeAppend_fields (m := m) (a := (xs.map Prod.fst).getLastD head) (b := e.1) (y := y)
      (hUnit _ hC).2 (by
        intro x hx z hz
        simp only [List.mem_cons, List.not_mem_nil, or_false] at hx hz
        refine h.sep ?_ ?_
        · rcases hx with rfl | rfl | rfl
          · exact (hUnit _ hA).1
          · exact hE
          · exact (hUnit _ hC).1
        · rcases hz with rfl | rfl | rfl | rfl
          · exact (hUnit _ hA).1
          · exact hE
          · exact (hUnit _ hC).1
          · exact hy)
  refine ⟨?_, ?_, ?_, h.separate.perm hPerm, h.limit⟩
  · rw [List.map_append, List.map_cons]
    have hBFields := hFields e.1 hE
    have hAFields := hFields _ (hUnit _ hA).1
    have hCFields := hFields _ (hUnit _ hC).1
    have hab := (hUnit _ hA).2
    have hcb := (hUnit _ hC).2
    rw [hNextA] at hCFields hcb hFields hBFields hAFields
    refine hRing.insert (fun hMem => (hUnit _ hMem).2 rfl) ?_ ?_ ?_ ?_ ?_ ?_
    · rw [hBFields.1, if_neg hab, if_pos rfl]
    · rw [hBFields.2.1, if_neg hcb, if_pos rfl]
    · rw [hAFields.1, if_pos rfl]
    · rw [hCFields.2.1, if_pos rfl]
    · intro x hx hxa
      rw [(hFields x (hUnit x hx).1).1, if_neg hxa.symm, if_neg (hUnit x hx).2.symm]
    · intro x hx hxc
      rw [(hFields x (hUnit x hx).1).2.1, if_neg hxc.symm, if_neg (hUnit x hx).2.symm]
  · rw [(hFields head (List.mem_cons_self ..)).2.2, h.head_size]
  · intro f hf
    have hf' := hPerm.mem_iff.mpr hf
    rw [(hFields f.1 (List.mem_cons_of_mem _ (List.mem_map_of_mem hf'))).2.2, h.sizes f hf']

/-- A free node takes over the next node of the list, which starts where it
ends. -/
theorem mergeNext (h : Holds m head hi (xs ++ e :: c :: ys) held) (hTouch : e.1 + e.2 = c.1) :
    next m e.1 = c.1 ∧ c.1 ≠ head ∧
      let m₁ := setSize m e.1 (size m e.1 + size m (next m e.1))
      Holds (nodeRemove m₁ (next m₁ e.1)) head hi (xs ++ (e.1, e.2 + c.2) :: ys) held := by
  have hE : e.1 ∈ head :: (xs ++ e :: c :: ys ++ held).map Prod.fst := mem_free (by simp)
  have hNextE : next m e.1 = c.1 := h.links.1
  have hPerm : (xs ++ e :: c :: ys ++ held).Perm (e :: c :: (xs ++ ys ++ held)) := by
    rw [List.append_assoc, List.append_assoc, List.cons_append, List.cons_append]
    exact List.perm_middle.trans (List.Perm.cons e List.perm_middle)
  have hPerm' : ((e.1, e.2 + c.2) :: (xs ++ ys ++ held)).Perm
      (xs ++ (e.1, e.2 + c.2) :: ys ++ held) := by
    rw [List.append_assoc, List.append_assoc, List.cons_append]
    exact List.perm_middle.symm
  obtain ⟨hHead, hDistinct⟩ := List.nodup_cons.mp h.nodup
  rw [(hPerm.map Prod.fst).nodup_iff, List.map_cons, List.nodup_cons] at hDistinct
  have hOther (x : Word) (hx : x ∈ (xs ++ e :: c :: ys ++ held).map Prod.fst) : x ≠ head :=
    fun hEq => hHead (hEq ▸ hx)
  refine ⟨hNextE, hOther c.1 (List.mem_map_of_mem (by simp)), ?_⟩
  intro m₁
  have hm₁ : m₁ = setSize m e.1 (e.2 + c.2) := by
    simp only [m₁, hNextE, h.sizes e (by simp), h.sizes c (by simp)]
  have hNext₁ (x : Word) (hx : x ∈ head :: (xs ++ e :: c :: ys ++ held).map Prod.fst) :
      next m₁ x = next m x := by
    rw [hm₁, next_setSize (h.sep hE hx)]
  have hPrev₁ (x : Word) (hx : x ∈ head :: (xs ++ e :: c :: ys ++ held).map Prod.fst) :
      prev m₁ x = prev m x := by
    rw [hm₁, prev_setSize (h.sep hE hx)]
  have hSize₁ (x : Word) (hx : x ∈ head :: (xs ++ e :: c :: ys ++ held).map Prod.fst) :
      size m₁ x = if e.1 = x then e.2 + c.2 else size m x := by
    rw [hm₁, size_setSize (h.sep hE hx)]
  -- The node `c` leaves the ring behind the node `e`.
  have hRing₁ : Ring (next m₁) (prev m₁) head
      ((xs.map Prod.fst ++ [e.1]) ++ c.1 :: ys.map Prod.fst) := by
    have hSplit := h.ring.congr (fun x hx => hNext₁ x (mem_of_ring hx))
      (fun x hx => hPrev₁ x (mem_of_ring hx))
    rw [List.map_append, List.map_cons, List.map_cons] at hSplit
    rwa [List.append_assoc]
  have hUnits (x : Word) (hx : x ∈ head :: ((xs.map Prod.fst ++ [e.1]) ++ c.1 :: ys.map Prod.fst)) :
      x ∈ head :: (xs ++ e :: c :: ys ++ held).map Prod.fst := by
    refine mem_of_ring ?_
    rw [List.map_append, List.map_cons, List.map_cons]
    rwa [List.append_assoc] at hx
  obtain ⟨hRing₂, hSize₂⟩ := ring_nodeRemove hRing₁ hUnits fun x hx z hz => h.sep hx hz
  rw [show next m₁ e.1 = c.1 from (hNext₁ _ hE).trans hNextE]
  refine ⟨?_, ?_, ?_, ?_, h.limit⟩
  · rw [List.map_append, List.map_cons, List.append_cons]
    exact hRing₂
  · rw [hSize₂ head (List.mem_cons_self ..), hSize₁ head (List.mem_cons_self ..),
      if_neg (hOther e.1 (List.mem_map_of_mem (by simp))), h.head_size]
  · intro f hf
    rcases List.mem_cons.mp (hPerm'.mem_iff.mpr hf) with rfl | hOld
    · rw [hSize₂ _ hE, hSize₁ _ hE, if_pos rfl]
    · have hUnit := hPerm.mem_iff.mpr (List.mem_cons_of_mem _ (List.mem_cons_of_mem _ hOld))
      have hIn : f.1 ∈ head :: (xs ++ e :: c :: ys ++ held).map Prod.fst :=
        List.mem_cons_of_mem _ (List.mem_map_of_mem hUnit)
      have hNe : e.1 ≠ f.1 := fun hEq =>
        hDistinct.1 (hEq ▸ List.mem_map_of_mem (List.mem_cons_of_mem _ hOld))
      rw [hSize₂ _ hIn, hSize₁ _ hIn, if_neg hNe, h.sizes f hUnit]
  · exact ((h.separate.perm hPerm).merge hTouch (by decide) (by omega) h.limit).perm hPerm'

/-- `coalesce_free_list` behind a node merges it with the nodes behind it. -/
theorem coalesceLoop_spec {rest : List Extent} (h : Holds m head hi (xs ++ e :: rest) held) {fuel : Nat}
    (hFuel : rest.length < fuel) :
    ∃ m', coalesceLoop head m e.1 fuel = some m' ∧
      Holds m' head hi (xs ++ mergeFrom e rest) held := by
  induction rest generalizing xs e m fuel with
  | nil =>
      cases fuel with
      | zero => simp at hFuel
      | succ fuel =>
          refine ⟨m, ?_, h⟩
          have hLast : next m e.1 = head := h.links.1
          rw [coalesceLoop, if_pos hLast]
  | cons c rest ih =>
      cases fuel with
      | zero => simp at hFuel
      | succ fuel =>
          have hRest : rest.length < fuel := by simpa using hFuel
          have hNextE : next m e.1 = c.1 := h.links.1
          have hHead : next m e.1 ≠ head := by
            rw [hNextE]
            exact h.ne_head (by simp)
          rw [coalesceLoop, if_neg hHead, mergeFrom, h.sizes e (by simp)]
          by_cases hTouch : e.1 + e.2 = c.1
          · rw [if_pos (by rw [hNextE, hTouch]), if_pos hTouch]
            obtain ⟨-, -, hMerged⟩ := h.mergeNext hTouch
            rw [h.sizes e (by simp)] at hMerged
            exact ih (e := (e.1, e.2 + c.2)) hMerged hRest
          · rw [if_neg (by rw [hNextE]; exact hTouch), if_neg hTouch, hNextE]
            have hSplit : Holds m head hi ((xs ++ [e]) ++ c :: rest) held := by
              rwa [List.append_assoc]
            obtain ⟨m', hLoop, hHolds⟩ := ih hSplit hRest
            refine ⟨m', hLoop, ?_⟩
            rwa [List.append_assoc] at hHolds

/-- The lists that `coalesce_free_list` leaves. -/
theorem coalesce_spec (h : Holds m head hi free held) {fuel : Nat} (hFuel : free.length < fuel) :
    ∃ m', coalesceFreeList fuel head m = some m' ∧ Holds m' head hi (mergeAll free) held := by
  unfold coalesceFreeList
  cases free with
  | nil =>
      have hNext : next m head = head := h.ring.first
      cases fuel with
      | zero => simp at hFuel
      | succ fuel =>
          refine ⟨m, ?_, h⟩
          rw [coalesceLoop, hNext, if_pos hNext]
  | cons e rest =>
      have hNext : next m head = e.1 := h.ring.first
      have hSplit : Holds m head hi ([] ++ e :: rest) held := h
      rw [hNext]
      exact hSplit.coalesceLoop_spec (by simp at hFuel; omega)

/-- A block is cut from the end of a free node that keeps room for a node. -/
theorem carve_spec (h : Holds m head hi (xs ++ e :: ys) held) {bytes : Word} (hBytes : bytes ≤ e.2)
    (hLeast : 24 ≤ bytes.toNat) (hRest : 24 ≤ (e.2 - bytes).toNat) :
    (carve m e.1 bytes).1 = e.1 + e.2 - bytes + 8 ∧
      Holds (carve m e.1 bytes).2 head hi (xs ++ (e.1, e.2 - bytes) :: ys)
        ((e.1 + e.2 - bytes, bytes) :: held) := by
  have hSize : size m e.1 = e.2 := h.sizes e (by simp)
  have hLarge : ¬ e.2 - bytes < 16 := fun hSmall => by
    have : (e.2 - bytes).toNat < 16 := hSmall
    omega
  have hPerm : (xs ++ e :: ys ++ held).Perm (e :: (xs ++ ys ++ held)) := by
    rw [List.append_assoc, List.append_assoc, List.cons_append]
    exact List.perm_middle
  have hPerm' : ((e.1, e.2 - bytes) :: (e.1 + e.2 - bytes, bytes) :: (xs ++ ys ++ held)).Perm
      (xs ++ (e.1, e.2 - bytes) :: ys ++ (e.1 + e.2 - bytes, bytes) :: held) := by
    have hBlock : ((e.1 + e.2 - bytes, bytes) :: (xs ++ ys ++ held)).Perm
        (xs ++ ys ++ (e.1 + e.2 - bytes, bytes) :: held) := List.perm_middle.symm
    refine (hBlock.cons _).trans ?_
    rw [List.append_assoc, List.append_assoc, List.cons_append]
    exact List.perm_middle.symm
  have hCut := ((h.separate.perm hPerm).cut hBytes (by decide) hLeast hRest h.limit).perm hPerm'
  have hSep {x y : Word} := sep_of_separate hCut h.limit (x := x) (y := y)
  have hNode : e.1 ∈ head :: (xs ++ (e.1, e.2 - bytes) :: ys ++
      (e.1 + e.2 - bytes, bytes) :: held).map Prod.fst := by simp
  have hBlock : e.1 + e.2 - bytes ∈ head :: (xs ++ (e.1, e.2 - bytes) :: ys ++
      (e.1 + e.2 - bytes, bytes) :: held).map Prod.fst := by simp
  have hNodup := nodup_of_separate hCut
  have hHead (x : Word) (hx : x ∈ (xs ++ (e.1, e.2 - bytes) :: ys ++
      (e.1 + e.2 - bytes, bytes) :: held).map Prod.fst) : x ≠ head := fun hEq =>
    (List.nodup_cons.mp hNodup).1 (hEq ▸ hx)
  have hUnits := (hPerm'.map Prod.fst).nodup_iff.mpr (List.nodup_cons.mp hNodup).2
  have hFirst (x : Word) (hx : x ∈ ((e.1 + e.2 - bytes, bytes) :: (xs ++ ys ++ held)).map Prod.fst) :
      e.1 ≠ x := fun hEq => (List.nodup_cons.mp hUnits).1 (hEq ▸ hx)
  have hSecond (x : Word) (hx : x ∈ (xs ++ ys ++ held).map Prod.fst) :
      e.1 + e.2 - bytes ≠ x := fun hEq =>
    (List.nodup_cons.mp (List.nodup_cons.mp hUnits).2).1 (hEq ▸ hx)
  have hCarve : carve m e.1 bytes = (e.1 + e.2 - bytes + 8,
      setSize (setSize m (e.1 + e.2 - bytes) bytes) e.1 (e.2 - bytes)) := by
    simp only [carve, hSize, if_neg hLarge]
    rfl
  rw [hCarve]
  refine ⟨rfl, ?_, ?_, ?_, hCut, h.limit⟩
  · have hSame : (xs ++ (e.1, e.2 - bytes) :: ys).map Prod.fst = (xs ++ e :: ys).map Prod.fst := by
      simp
    rw [hSame]
    have hIn (x : Word) (hx : x ∈ head :: (xs ++ e :: ys).map Prod.fst) :
        x ∈ head :: (xs ++ (e.1, e.2 - bytes) :: ys ++
          (e.1 + e.2 - bytes, bytes) :: held).map Prod.fst := by
      rw [← hSame] at hx
      exact mem_of_ring hx
    refine h.ring.congr (fun x hx => ?_) (fun x hx => ?_)
    · rw [next_setSize (hSep hNode (hIn x hx)), next_setSize (hSep hBlock (hIn x hx))]
    · rw [prev_setSize (hSep hNode (hIn x hx)), prev_setSize (hSep hBlock (hIn x hx))]
  · have hHeadNode : e.1 ≠ head := fun hEq => hHead e.1 (by simp) hEq
    have hHeadBlock : e.1 + e.2 - bytes ≠ head := fun hEq => hHead _ (by simp) hEq
    rw [size_setSize (hSep hNode (List.mem_cons_self ..)), if_neg hHeadNode,
      size_setSize (hSep hBlock (List.mem_cons_self ..)), if_neg hHeadBlock, h.head_size]
  · intro f hf
    have hIn : f.1 ∈ head :: (xs ++ (e.1, e.2 - bytes) :: ys ++
        (e.1 + e.2 - bytes, bytes) :: held).map Prod.fst :=
      List.mem_cons_of_mem _ (List.mem_map_of_mem hf)
    rw [size_setSize (hSep hNode hIn), size_setSize (hSep hBlock hIn)]
    rcases List.mem_cons.mp (hPerm'.mem_iff.mpr hf) with rfl | hf
    · rw [if_pos rfl]
    · rcases List.mem_cons.mp hf with rfl | hf
      · rw [if_neg (hFirst _ (by simp)), if_pos rfl]
      · rw [if_neg (hFirst _ (List.mem_cons_of_mem _ (List.mem_map_of_mem hf))),
          if_neg (hSecond _ (List.mem_map_of_mem hf)), h.sizes f (hPerm.mem_iff.mpr (List.mem_cons_of_mem _ hf))]

/-- One page is mapped behind the heap; it is a block until it is in the
list. -/
theorem page_spec (h : Holds m head hi free held) {v : Word} (hAddr : v.toNat = hi)
    (hFit : hi + 4096 ≤ 2 ^ 64) (hAbove : head.toNat + 24 ≤ hi) :
    let m' := setSize (m.fill v 4096 0) v 4096
    Holds m' head (hi + 4096) free ((v, 4096) :: held) := by
  intro m'
  have hPage : Separate (head.toNat + 24) (hi + 4096) 24 ((v, 4096) :: (free ++ held)) :=
    h.separate.above (by rw [hAddr]; exact hAbove) hAddr.ge (by rw [hAddr]; rfl)
      (show 24 ≤ (4096 : Word).toNat by decide)
  have hUnits : Separate (head.toNat + 24) (hi + 4096) 24 (free ++ (v, 4096) :: held) :=
    hPage.perm List.perm_middle.symm
  have hSep {x : Word} (hx : x ∈ head :: (free ++ held).map Prod.fst) :
      x ≠ v ∧ Apart v 4096 x 24 := by
    rcases List.mem_cons.mp hx with rfl | hx
    · refine ⟨fun hEq => by rw [hEq] at hAbove; omega, ?_⟩
      have hEnd : x.toNat + (24 : Word).toNat ≤ 2 ^ 64 := by
        simp
        omega
      have hBelow : x.toNat + (24 : Word).toNat ≤ v.toNat := by
        rw [hAddr]
        exact hAbove
      have hTop : v.toNat + (4096 : Word).toNat ≤ 2 ^ 64 := by
        rw [hAddr]
        exact hFit
      exact (Disjoint.apart (a := (x, 24)) (b := (v, 4096)) (.inl hBelow) (Nat.le_refl 24)
        (Nat.le_refl 4096) (by decide) (by decide) hEnd hTop).symm
    · obtain ⟨e, he, rfl⟩ := List.mem_map.mp hx
      obtain ⟨hLeast, hLo, hHi⟩ := h.separate.within e he
      have hTop : v.toNat + (4096 : Word).toNat ≤ 2 ^ 64 := by
        rw [hAddr]
        exact hFit
      have hLimit := h.limit
      refine ⟨fun hEq => by rw [hEq] at hHi; omega, ?_⟩
      exact (hPage.disjoint_of_mem he).apart (a := (v, 4096)) (Nat.le_refl 4096) hLeast (by decide)
        (by decide) hTop (by omega)
  have hAgree (x : Word) (hx : x ∈ head :: (free ++ held).map Prod.fst) :
      Memory.AgreeOn m m' x 24 := by
    obtain ⟨-, hApart⟩ := hSep hx
    refine Memory.AgreeOn.trans (Memory.agreeOn_fill m 0 hApart) ?_
    exact Memory.agreeOn_store64 _ _ (hApart.mono (by decide) (Nat.le_refl 24))
  have hKept := h.congr (fun x hx => hAgree x (mem_of_ring hx)) fun e he x hx =>
    hAgree e.1 (List.mem_cons_of_mem _ (List.mem_map_of_mem (List.mem_append_right _ he))) x
      (Nat.lt_of_lt_of_le hx (by decide))
  refine ⟨hKept.ring, hKept.head_size, fun e he => ?_, hUnits, hFit⟩
  rcases List.mem_cons.mp (List.perm_middle.mem_iff.mp he) with rfl | he
  · exact Memory.load64_store64 _ _ _
  · exact hKept.sizes e he

/-- The page is put at the end of the list. -/
theorem extend_spec (h : Holds m head hi free held) {v : Word} (hAddr : v.toNat = hi)
    (hFit : hi + 4096 ≤ 2 ^ 64) (hAbove : head.toNat + 24 ≤ hi) :
    let m' := setSize (m.fill v 4096 0) v 4096
    Holds (nodeAppend m' (prev m' head) v) head (hi + 4096) (free ++ [(v, 4096)]) held := by
  intro m'
  have hHeld : Holds m' head (hi + 4096) free ((v, 4096) :: held) := h.page_spec hAddr hFit hAbove
  have hPrev : prev m' head = (free.map Prod.fst).getLastD head := hHeld.ring.last
  rw [hPrev]
  have hSplit : Holds m' head (hi + 4096) (free ++ []) ((v, 4096) :: held) := by
    rwa [List.append_nil]
  exact hSplit.append_spec

/-- The search of `kfree` ends at a node of the list or at the head. -/
theorem placeLoop_spec (h : Holds m head hi (xs ++ ys) held) (ptr : Word) {fuel : Nat}
    (hFuel : xs.length < fuel) :
    ∃ xs' ys', xs ++ ys = xs' ++ ys' ∧
      placeLoop m head ptr ((xs.map Prod.fst).getLastD head) fuel =
        some ((xs'.map Prod.fst).getLastD head) := by
  induction xs using List.reverseRecOn generalizing ys fuel with
  | nil =>
      cases fuel with
      | zero => simp at hFuel
      | succ fuel =>
          refine ⟨[], ys, rfl, ?_⟩
          simp [placeLoop]
  | append_singleton xs e ih =>
      cases fuel with
      | zero => simp at hFuel
      | succ fuel =>
          have hSplit : Holds m head hi (xs ++ e :: ys) held := by
            simpa using h
          have hPrev : prev m e.1 = (xs.map Prod.fst).getLastD head := hSplit.links.2
          rw [List.map_append, List.map_singleton, List.getLastD_concat, placeLoop]
          split
          · refine ⟨xs ++ [e], ys, rfl, ?_⟩
            rw [List.map_append, List.map_singleton, List.getLastD_concat]
          · obtain ⟨xs', ys', hList, hLoop⟩ := ih hSplit (by simp at hFuel; omega)
            refine ⟨xs', ys', by rw [← hList]; simp, ?_⟩
            rw [hPrev]
            exact hLoop

end Holds

end Kernel.Kmalloc
