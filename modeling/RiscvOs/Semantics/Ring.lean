import Mathlib.Data.List.Nodup

/-! Circular doubly linked lists through a head. The links may be fields of
nodes in any store; only what they return for the nodes of the ring matters.
The ring is the list of its neighbouring pairs, so an insertion replaces one
pair by two and a removal two pairs by one. -/
namespace Semantics

variable {Node : Type*} {next prev next' prev' : Node → Node} {head b : Node}
  {nodes xs ys : List Node}

/-- The pairs of neighbours, from the head around to the head. -/
def ringLinks (head : Node) (nodes : List Node) : List (Node × Node) :=
  (head :: nodes).zip (nodes ++ [head])

structure Ring (next prev : Node → Node) (head : Node) (nodes : List Node) : Prop where
  linked : ∀ l ∈ ringLinks head nodes, next l.1 = l.2 ∧ prev l.2 = l.1
  nodup : (head :: nodes).Nodup

theorem map_fst_ringLinks (head : Node) (nodes : List Node) :
    (ringLinks head nodes).map Prod.fst = head :: nodes :=
  List.map_fst_zip (by simp)

theorem map_snd_ringLinks (head : Node) (nodes : List Node) :
    (ringLinks head nodes).map Prod.snd = nodes ++ [head] :=
  List.map_snd_zip (by simp)

/-- Between two parts of the ring lies one pair, from the last node of the
first part to the first node of the second. -/
theorem ringLinks_split (head : Node) (xs ys : List Node) :
    ∃ before after,
      ringLinks head (xs ++ ys) = before ++ (xs.getLastD head, ys.headD head) :: after ∧
      ∀ b, ringLinks head (xs ++ b :: ys) =
        before ++ (xs.getLastD head, b) :: (b, ys.headD head) :: after := by
  have hSecond : ys ++ [head] = ys.headD head :: (ys ++ [head]).tail := by
    cases ys <;> rfl
  have hFirst : head :: xs = (head :: xs).dropLast ++ [xs.getLastD head] := by
    have hLast : xs.getLastD head = (head :: xs).getLast (List.cons_ne_nil _ _) :=
      (List.getLast_eq_getLastD _).symm
    rw [hLast, List.dropLast_append_getLast]
  have hLength : (head :: xs).dropLast.length = xs.length := by simp
  refine ⟨(head :: xs).dropLast.zip xs, ys.zip (ys ++ [head]).tail, ?_, fun b => ?_⟩
  · calc ringLinks head (xs ++ ys)
        = ((head :: xs) ++ ys).zip (xs ++ (ys ++ [head])) := by simp [ringLinks]
      _ = ((head :: xs).dropLast ++ xs.getLastD head :: ys).zip
            (xs ++ ys.headD head :: (ys ++ [head]).tail) := by
          rw [hFirst, List.append_assoc, ← hSecond]
          simp
      _ = _ := by rw [List.zip_append hLength, List.zip_cons_cons]
  · calc ringLinks head (xs ++ b :: ys)
        = ((head :: xs) ++ b :: ys).zip (xs ++ b :: (ys ++ [head])) := by simp [ringLinks]
      _ = ((head :: xs).dropLast ++ xs.getLastD head :: b :: ys).zip
            (xs ++ b :: ys.headD head :: (ys ++ [head]).tail) := by
          rw [hFirst, List.append_assoc, ← hSecond]
          simp
      _ = _ := by rw [List.zip_append hLength, List.zip_cons_cons, List.zip_cons_cons]

namespace Ring

/-- The nodes on both sides of a place in the ring. -/
theorem between (h : Ring next prev head (xs ++ ys)) :
    next (xs.getLastD head) = ys.headD head ∧ prev (ys.headD head) = xs.getLastD head := by
  obtain ⟨before, after, hLinks, -⟩ := ringLinks_split head xs ys
  exact h.linked (xs.getLastD head, ys.headD head) (by simp [hLinks])

theorem first (h : Ring next prev head nodes) : next head = nodes.headD head :=
  (between (show Ring next prev head ([] ++ nodes) from h)).1

theorem last (h : Ring next prev head nodes) : prev head = nodes.getLastD head := by
  have hSplit : Ring next prev head (nodes ++ []) := by rwa [List.append_nil]
  exact hSplit.between.2

/-- The links of a node in the ring. -/
theorem links_of_split (h : Ring next prev head (xs ++ b :: ys)) :
    next b = ys.headD head ∧ prev b = xs.getLastD head := by
  refine ⟨?_, h.between.2⟩
  have hSplit : Ring next prev head ((xs ++ [b]) ++ ys) := by
    rwa [List.append_assoc]
  have hNext := hSplit.between.1
  rwa [List.getLastD_concat] at hNext

theorem links_of_cons (h : Ring next prev head (b :: ys)) :
    next b = ys.headD head ∧ prev b = head :=
  links_of_split (show Ring next prev head ([] ++ b :: ys) from h)

theorem next_mem (h : Ring next prev head nodes) {x : Node} (hx : x ∈ head :: nodes) :
    next x ∈ head :: nodes := by
  rw [← map_fst_ringLinks, List.mem_map] at hx
  obtain ⟨l, hl, rfl⟩ := hx
  have hTarget : l.2 ∈ nodes ++ [head] := by
    rw [← map_snd_ringLinks]
    exact List.mem_map_of_mem hl
  rw [(h.linked l hl).1]
  simpa [or_comm] using hTarget

theorem prev_mem (h : Ring next prev head nodes) {x : Node} (hx : x ∈ head :: nodes) :
    prev x ∈ head :: nodes := by
  have hTarget : x ∈ (ringLinks head nodes).map Prod.snd := by
    rw [map_snd_ringLinks]
    simpa [or_comm] using hx
  obtain ⟨l, hl, rfl⟩ := List.mem_map.mp hTarget
  rw [(h.linked l hl).2, ← map_fst_ringLinks head nodes]
  exact List.mem_map_of_mem hl

/-- Links that agree on the nodes of the ring. -/
theorem congr (h : Ring next prev head nodes) (hNext : ∀ x ∈ head :: nodes, next' x = next x)
    (hPrev : ∀ x ∈ head :: nodes, prev' x = prev x) : Ring next' prev' head nodes := by
  refine ⟨fun l hl => ?_, h.nodup⟩
  obtain ⟨hFirst, hSecond⟩ := h.linked l hl
  have hSource : l.1 ∈ head :: nodes := by
    rw [← map_fst_ringLinks]
    exact List.mem_map_of_mem hl
  have hTarget : l.2 ∈ head :: nodes := by
    rw [← hFirst]
    exact h.next_mem hSource
  exact ⟨(hNext _ hSource).trans hFirst, (hPrev _ hTarget).trans hSecond⟩

/-- In a split of the pairs, the sources and the targets of the other pairs
differ from those of the pair at the split. -/
theorem ne_of_split {before after : List (Node × Node)} {a c : Node}
    (hNodup : (head :: nodes).Nodup)
    (hLinks : ringLinks head nodes = before ++ (a, c) :: after) {l : Node × Node}
    (hl : l ∈ before ++ after) : l.1 ≠ a ∧ l.2 ≠ c := by
  have hSources : (before ++ (a, c) :: after).Pairwise fun p q => p.1 ≠ q.1 := by
    rw [← hLinks, ← List.pairwise_map, map_fst_ringLinks]
    exact hNodup
  have hTargets : (before ++ (a, c) :: after).Pairwise fun p q => p.2 ≠ q.2 := by
    rw [← hLinks, ← List.pairwise_map, map_snd_ringLinks]
    exact (List.perm_append_singleton head nodes).nodup_iff.mpr hNodup
  rw [List.pairwise_append, List.pairwise_cons] at hSources hTargets
  rcases List.mem_append.mp hl with hl | hl
  · exact ⟨hSources.2.2 l hl _ (List.mem_cons_self ..), hTargets.2.2 l hl _ (List.mem_cons_self ..)⟩
  · exact ⟨(hSources.2.1.1 l hl).symm, (hTargets.2.1.1 l hl).symm⟩

theorem mem_of_link {l : Node × Node} (hl : l ∈ ringLinks head nodes) :
    l.1 ∈ head :: nodes ∧ l.2 ∈ head :: nodes := by
  have hSource : l.1 ∈ (ringLinks head nodes).map Prod.fst := List.mem_map_of_mem hl
  have hTarget : l.2 ∈ (ringLinks head nodes).map Prod.snd := List.mem_map_of_mem hl
  rw [map_fst_ringLinks] at hSource
  rw [map_snd_ringLinks] at hTarget
  exact ⟨hSource, by simpa [or_comm] using hTarget⟩

/-- The neighbours of a place in the ring. -/
theorem neighbours_mem (head : Node) (xs ys : List Node) :
    xs.getLastD head ∈ head :: (xs ++ ys) ∧ ys.headD head ∈ head :: (xs ++ ys) := by
  refine ⟨?_, ?_⟩
  · rw [← List.cons_append]
    exact List.mem_append_left _ List.getLastD_mem_cons
  · cases ys <;> simp

/-- A new node between two neighbours. -/
theorem insert (h : Ring next prev head (xs ++ ys)) (hNew : b ∉ head :: (xs ++ ys))
    (hBNext : next' b = ys.headD head) (hBPrev : prev' b = xs.getLastD head)
    (hANext : next' (xs.getLastD head) = b) (hCPrev : prev' (ys.headD head) = b)
    (hNext : ∀ x ∈ head :: (xs ++ ys), x ≠ xs.getLastD head → next' x = next x)
    (hPrev : ∀ x ∈ head :: (xs ++ ys), x ≠ ys.headD head → prev' x = prev x) :
    Ring next' prev' head (xs ++ b :: ys) := by
  obtain ⟨before, after, hLinks, hLinks'⟩ := ringLinks_split head xs ys
  have hOther (l : Node × Node) (hl : l ∈ before ++ after) : next' l.1 = l.2 ∧ prev' l.2 = l.1 := by
    have hOld : l ∈ ringLinks head (xs ++ ys) := by
      rw [hLinks]
      rcases List.mem_append.mp hl with hl | hl <;> simp [hl]
    obtain ⟨hSource, hTarget⟩ := ne_of_split h.nodup hLinks hl
    obtain ⟨hMem, hMem'⟩ := mem_of_link hOld
    exact ⟨(hNext _ hMem hSource).trans (h.linked l hOld).1,
      (hPrev _ hMem' hTarget).trans (h.linked l hOld).2⟩
  refine ⟨fun l hl => ?_, ?_⟩
  · rw [hLinks' b, List.mem_append, List.mem_cons, List.mem_cons] at hl
    rcases hl with hl | rfl | rfl | hl
    · exact hOther l (List.mem_append_left _ hl)
    · exact ⟨hANext, hBPrev⟩
    · exact ⟨hBNext, hCPrev⟩
    · exact hOther l (List.mem_append_right _ hl)
  · have hPerm : (head :: (xs ++ b :: ys)).Perm (b :: head :: (xs ++ ys)) := by
      rw [← List.cons_append, ← List.cons_append]
      exact List.perm_middle
    exact hPerm.nodup_iff.mpr (List.nodup_cons.mpr ⟨hNew, h.nodup⟩)

/-- A node of the ring differs from all others. -/
theorem nodup_of_split (h : Ring next prev head (xs ++ b :: ys)) :
    b ∉ head :: (xs ++ ys) ∧ (head :: (xs ++ ys)).Nodup := by
  have hPerm : (head :: (xs ++ b :: ys)).Perm (b :: head :: (xs ++ ys)) := by
    rw [← List.cons_append, ← List.cons_append]
    exact List.perm_middle
  exact List.nodup_cons.mp (hPerm.nodup_iff.mp h.nodup)

/-- A node leaves the ring; its own links do not matter any more. -/
theorem remove (h : Ring next prev head (xs ++ b :: ys))
    (hANext : next' (xs.getLastD head) = ys.headD head)
    (hCPrev : prev' (ys.headD head) = xs.getLastD head)
    (hNext : ∀ x ∈ head :: (xs ++ ys), x ≠ xs.getLastD head → next' x = next x)
    (hPrev : ∀ x ∈ head :: (xs ++ ys), x ≠ ys.headD head → prev' x = prev x) :
    Ring next' prev' head (xs ++ ys) := by
  obtain ⟨before, after, hLinks, hLinks'⟩ := ringLinks_split head xs ys
  have hNodup := h.nodup_of_split.2
  refine ⟨fun l hl => ?_, hNodup⟩
  obtain ⟨hMem, hMem'⟩ := mem_of_link hl
  rw [hLinks, List.mem_append, List.mem_cons] at hl
  have hOther (hl : l ∈ before ++ after) : next' l.1 = l.2 ∧ prev' l.2 = l.1 := by
    have hOld : l ∈ ringLinks head (xs ++ b :: ys) := by
      rw [hLinks' b]
      rcases List.mem_append.mp hl with hl | hl <;> simp [hl]
    obtain ⟨hSource, hTarget⟩ := ne_of_split hNodup hLinks hl
    exact ⟨(hNext _ hMem hSource).trans (h.linked l hOld).1,
      (hPrev _ hMem' hTarget).trans (h.linked l hOld).2⟩
  rcases hl with hl | rfl | hl
  · exact hOther (List.mem_append_left _ hl)
  · exact ⟨hANext, hCPrev⟩
  · exact hOther (List.mem_append_right _ hl)

end Ring

end Semantics
