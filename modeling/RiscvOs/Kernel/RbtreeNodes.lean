import RiscvOs.Kernel.RbtreeRuns

/-! The nodes that the calls on a tree add, free and lose, whichever way they
take. -/
namespace Kernel.Rbtree

open Semantics SortedMap RBNode List

variable {n n' : RBNode} {fuel : Nat} {key value page : Word} {freed : List Word}

/-! ## Insertions -/

/-- A node is added where `rb_find` finds none and there is a page for it. -/
theorem addrs_insertThis (h : insertThis page n key value = some n') :
    n'.addrs.Perm
      ((if page ≠ 0 ∧ findLoop key n = none then [page] else []) ++ n.addrs) := by
  induction n generalizing n' with
  | null =>
      cases h
      unfold createNode
      by_cases hPage : page = 0
      · rw [if_pos hPage, if_neg (by simp [hPage])]
        exact .refl _
      · rw [if_neg hPage, if_pos ⟨hPage, rfl⟩]
        exact .refl _
  | node addr key' value' color left right ihLeft ihRight =>
      rw [insertThis] at h
      rw [findLoop]
      rcases lt_trichotomy key key' with hKey | rfl | hKey
      · simp only [keyCompare_of_lt hKey, Int.reduceNeg, Int.reduceEq, ↓reduceIte, Int.reduceLT,
          Option.bind_eq_bind, Option.bind_eq_some_iff] at h ⊢
        obtain ⟨left', hLeft, hBalance⟩ := h
        have hAddrs : n'.addrs = left'.addrs ++ addr :: right.addrs := inorder_insertBalance hBalance
        rw [hAddrs, addrs_node, ← List.append_assoc]
        exact (ihLeft hLeft).append_right _
      · simp only [keyCompare_self, ↓reduceIte] at h ⊢
        rw [if_neg (by simp)]
        have hAddrs : n'.addrs = left.addrs ++ addr :: right.addrs := inorder_insertBalance h
        exact .of_eq hAddrs
      · simp only [keyCompare_of_gt hKey, Int.reduceEq, ↓reduceIte, Int.reduceLT,
          Option.bind_eq_bind, Option.bind_eq_some_iff] at h ⊢
        obtain ⟨right', hRight, hBalance⟩ := h
        have hAddrs : n'.addrs = left.addrs ++ addr :: right'.addrs :=
          inorder_insertBalance hBalance
        rw [hAddrs, addrs_node]
        exact (perm_right (ihRight hRight).symm).symm

theorem addrs_rbInsert {tree tree' : RBTree} (h : rbInsert page tree key value = some tree') :
    tree'.root.addrs.Perm
      ((if page ≠ 0 ∧ rbFind tree key = none then [page] else []) ++ tree.root.addrs) := by
  simp only [rbInsert, Option.bind_eq_bind, Option.bind_eq_some_iff] at h
  obtain ⟨root, hInsert, hLast⟩ := h
  cases hLast
  rw [addrs_blacken]
  exact addrs_insertThis hInsert

/-! ## Deletions -/

/-- Freed nodes of the right side, and what is left of it. -/
theorem subperm_right {left right right' : List Word} {addr : Word}
    (h : (freed ++ right').Subperm right) :
    (freed ++ (left ++ addr :: right')).Subperm (left ++ addr :: right) := by
  have hOrder : (freed ++ (left ++ addr :: right')).Perm (left ++ addr :: (freed ++ right')) :=
    perm_right (.refl _)
  exact hOrder.subperm.trans
    ((List.subperm_append_left left).mpr ((List.subperm_cons addr).mpr h))

/-- A node that borrows from the right keeps a left child. -/
theorem left_ne_null_of_redToLeft {addr addr₁ key' key₁ value₁ : Word} {color color₁ : Color}
    {left right left₁ right₁ : RBNode} (hLeft : left ≠ null)
    (hMove : redToLeft (node addr key' value color left right) =
      some (node addr₁ key₁ value₁ color₁ left₁ right₁))
    (hOrdered : Ordered (node addr key' value color left right).entries) : left₁ ≠ null := by
  rintro rfl
  obtain ⟨hEntries, hRoot⟩ := redToLeft_spec hMove hOrdered
  obtain ⟨e, he⟩ : ∃ e, e ∈ left.entries := by
    cases left with
    | null => exact absurd rfl hLeft
    | node addrL keyL valueL colorL leftL rightL => exact ⟨(keyL, valueL), by simp [entries]⟩
  have hLess : e.1 < key' := hOrdered.lt_of_mem_left he
  have hMem : e ∈ (node addr₁ key₁ value₁ color₁ null right₁).entries := by
    rw [hEntries, entries]
    exact List.mem_append_left _ he
  rw [← hEntries] at hOrdered
  rcases List.mem_cons.mp hMem with rfl | hRight
  · exact absurd hLess (not_lt.mpr hRoot)
  · have hGreater : key₁ < e.1 := Ordered.lt_of_mem_right (l := []) hOrdered hRight
    exact absurd (hGreater.trans hLess) (not_lt.mpr hRoot)

/-- `remove_min` frees one node. The others are nodes of the tree, each once. -/
theorem removeMin_frees (h : removeMin fuel n = some (n', freed)) (hNode : n ≠ null)
    (hOrdered : Ordered n.entries) :
    (freed ++ n'.addrs).Subperm n.addrs ∧ freed.length = 1 := by
  induction fuel generalizing n n' freed with
  | zero => cases h
  | succ fuel ih =>
      cases n with
      | null => exact absurd rfl hNode
      | node addr key value color left right =>
          cases left with
          | null =>
              cases h
              exact ⟨List.singleton_subperm_iff.mpr (by simp), rfl⟩
          | node addrL keyL valueL colorL leftL rightL =>
              simp only [removeMin, Option.bind_eq_bind, Option.bind_eq_some_iff] at h
              obtain ⟨n₁, hMove, h⟩ := h
              cases n₁ with
              | null => cases h
              | node addr₁ key₁ value₁ color₁ left₁ right₁ =>
                  simp only [Option.bind_eq_some_iff] at h
                  obtain ⟨⟨left', freed'⟩, hRest, n₂, hBalance, hLast⟩ := h
                  cases hLast
                  have hLeft := left_ne_null_of_redToLeft (by simp) hMove hOrdered
                  rw [← (redToLeft_spec hMove hOrdered).1] at hOrdered
                  obtain ⟨hNodes, hCount⟩ := ih hRest hLeft hOrdered.left
                  refine ⟨?_, hCount⟩
                  rw [← addrs_redToLeft hMove, addrs_rbBalance hBalance, addrs_node, addrs_node,
                    ← List.append_assoc]
                  exact (List.subperm_append_right _).mpr hNodes

/-- What a deletion does, also when it loses children of the node that it frees. -/
structure Frees (key : Word) (n n' : RBNode) (freed : List Word) : Prop where
  nodes : (freed ++ n'.addrs).Subperm n.addrs
  count : freed.length = if get n.entries key = none then 0 else 1
  absent : get n.entries key = none → n'.entries = n.entries

theorem Frees.of_absent (hAddrs : n'.addrs = n.addrs) (hEntries : n'.entries = n.entries)
    (hAbsent : get n.entries key = none) : Frees key n n' [] where
  nodes := (Perm.of_eq hAddrs).subperm
  count := (if_pos hAbsent).symm
  absent := fun _ => hEntries

theorem Frees.of_present {found : Word} (hNodes : (freed ++ n'.addrs).Subperm n.addrs)
    (hCount : freed.length = 1) (hFound : get n.entries key = some found) :
    Frees key n n' freed where
  nodes := hNodes
  count := by rw [hCount, if_neg (by rw [hFound]; simp)]
  absent := fun hAbsent => by rw [hFound] at hAbsent; cases hAbsent

theorem removeIt_frees (h : removeIt fuel n key = some (n', freed)) (hOrdered : Ordered n.entries) :
    Frees key n n' freed := by
  induction fuel generalizing n n' freed with
  | zero => cases h
  | succ fuel ih =>
      cases removed_of_removeIt h with
      | null =>
          cases h
          exact .of_absent rfl rfl rfl
      | @absentLeft addr key' value color right _ hKey hEntries =>
          obtain ⟨n₁, hBalance, -⟩ := rbBalance_spec (node addr key' value color null right)
          cases (removeIt_absentLeft hKey hBalance).symm.trans h
          refine .of_absent (addrs_rbBalance hBalance) hEntries ?_
          rw [entries, hOrdered.get_lt hKey]
          rfl
      | @goLeft addr key' value addr₁ key₁ value₁ color color₁ left right left₁ right₁ left' _ freed'
          hKey hLeft hMove hRest hEntries =>
          obtain ⟨n₁, hBalance, -⟩ :=
            rbBalance_spec (node addr₁ key₁ value₁ color₁ left'.blacken right₁)
          cases (removeIt_goLeft hKey hLeft hMove hRest hBalance).symm.trans h
          obtain ⟨hSame, hRoot⟩ := redToLeft_spec hMove hOrdered
          rw [← hSame] at hOrdered
          obtain ⟨hNodes, hCount, hAbsent⟩ := ih hRest hOrdered.left
          have hGet : get (node addr key' value color left right).entries key =
              get left₁.entries key := by
            rw [← hSame, entries, hOrdered.get_lt (hKey.trans_le hRoot)]
          refine ⟨?_, ?_, fun hNone => ?_⟩
          · rw [addrs_rbBalance hBalance, ← addrs_redToLeft hMove, addrs_node, addrs_node,
              addrs_blacken, ← List.append_assoc]
            exact (List.subperm_append_right _).mpr hNodes
          · rw [hGet, hCount]
          · rw [hEntries, ← hSame, hAbsent (hGet ▸ hNone), entries]
      | @free addr key' value addr₁ value₁ color color₁ left right left₁ hKey hTurn =>
          cases (removeIt_free hKey hTurn).symm.trans h
          have hSame := (redFromLeft_spec hTurn hOrdered).1
          rw [← hSame] at hOrdered
          have hFound : get (node addr₁ key value₁ color₁ left₁ null).entries key = some value₁ :=
            hOrdered.get_eq
          refine .of_present ?_ rfl (hSame ▸ hFound)
          rw [← addrs_redFromLeft hTurn]
          exact List.singleton_subperm_iff.mpr (by simp)
      | @absentRight addr key' value addr₁ key₁ value₁ color color₁ left right left₁ _ hKey hTurn
          hOther hEntries =>
          obtain ⟨n₁, hBalance, -⟩ := rbBalance_spec (node addr₁ key₁ value₁ color₁ left₁ null)
          cases (removeIt_absentRight hKey hTurn hOther hBalance).symm.trans h
          obtain ⟨hSame, hRoot⟩ := redFromLeft_spec hTurn hOrdered
          have hKey₁ : key₁ < key := lt_of_le_of_ne (le_trans hRoot hKey) hOther.symm
          rw [← hSame] at hOrdered
          refine .of_absent ((addrs_rbBalance hBalance).trans (addrs_redFromLeft hTurn))
            (hEntries.trans hSame) ?_
          rw [← hSame, entries, hOrdered.get_gt hKey₁]
          rfl
      | @replace addr key' value addr₁ key₁ value₁ addr₂ value₂ color color₁ color₂ left right left₁
          right₁ left₂ right₂ right' _ freed' e hKey hTurn hRight hMove hMin hRest hEntries =>
          obtain ⟨n₁, hBalance, -⟩ := rbBalance_spec (node addr₂ e.1 e.2 color₂ left₂ right')
          cases (removeIt_replace hKey hTurn hRight hMove hMin hRest hBalance).symm.trans h
          have hSame₁ := (redFromLeft_spec hTurn hOrdered).1
          rw [← hSame₁] at hOrdered
          have hSame := (redToRight_spec hMove hOrdered).1
          rw [← hSame] at hOrdered
          have hNode : right₂ ≠ null := by
            rintro rfl
            cases hMin
          obtain ⟨hNodes, hCount⟩ := removeMin_frees hRest hNode hOrdered.right
          have hFound : get (node addr₂ key value₂ color₂ left₂ right₂).entries key = some value₂ :=
            hOrdered.get_eq
          refine .of_present ?_ hCount ((hSame.trans hSame₁) ▸ hFound)
          rw [addrs_rbBalance hBalance, ← addrs_redFromLeft hTurn, ← addrs_redToRight hMove,
            addrs_node, addrs_node]
          exact subperm_right hNodes
      | @goRight addr key' value addr₁ key₁ value₁ addr₂ key₂ value₂ color color₁ color₂ left right
          left₁ right₁ left₂ right₂ right' _ freed' hKey hTurn hRight hMove hOther hRest hEntries =>
          obtain ⟨n₁, hBalance, -⟩ :=
            rbBalance_spec (node addr₂ key₂ value₂ color₂ left₂ right'.blacken)
          cases (removeIt_goRight hKey hTurn hRight hMove hOther hRest hBalance).symm.trans h
          obtain ⟨hSame₁, hRoot₁⟩ := redFromLeft_spec hTurn hOrdered
          rw [← hSame₁] at hOrdered
          obtain ⟨hSame, hRoot⟩ := redToRight_spec hMove hOrdered
          rw [← hSame] at hOrdered
          have hKey₂ : key₂ < key :=
            lt_of_le_of_ne (le_trans hRoot (le_trans hRoot₁ hKey)) hOther.symm
          obtain ⟨hNodes, hCount, hAbsent⟩ := ih hRest hOrdered.right
          have hGet : get (node addr key' value color left right).entries key =
              get right₂.entries key := by
            rw [← hSame₁, ← hSame, entries, hOrdered.get_gt hKey₂]
          refine ⟨?_, ?_, fun hNone => ?_⟩
          · rw [addrs_rbBalance hBalance, ← addrs_redFromLeft hTurn, ← addrs_redToRight hMove,
              addrs_node, addrs_node, addrs_blacken]
            exact subperm_right hNodes
          · rw [hGet, hCount]
          · rw [hEntries, ← hSame₁, ← hSame, hAbsent (hGet ▸ hNone), entries]

theorem rbDelete_frees {tree tree' : RBTree} (h : rbDelete tree key = some (tree', freed))
    (hOrdered : Ordered tree.root.entries) : Frees key tree.root tree'.root freed := by
  simp only [rbDelete, rbRemoveKeyNode, Option.bind_eq_bind, Option.bind_eq_some_iff] at h
  obtain ⟨removal, ⟨⟨root, freed'⟩, hRemove, hBlacken⟩, hLast⟩ := h
  cases hBlacken
  cases hLast
  obtain ⟨hNodes, hCount, hAbsent⟩ := removeIt_frees hRemove hOrdered
  exact ⟨by rwa [addrs_blacken], hCount, fun hNone => by rw [entries_blacken, hAbsent hNone]⟩

/-- The nodes stay where the key is absent. -/
theorem Frees.perm_of_absent (h : Frees key n n' freed) (hAbsent : get n.entries key = none) :
    freed = [] ∧ n'.addrs.Perm n.addrs := by
  have hNone : freed = [] := by
    have hCount := h.count
    rw [if_pos hAbsent] at hCount
    exact List.length_eq_zero_iff.mp hCount
  have hNodes := h.nodes
  rw [hNone, List.nil_append] at hNodes
  refine ⟨hNone, hNodes.perm_of_length_le ?_⟩
  rw [length_addrs, length_addrs, h.absent hAbsent]

/-! ## The whole tree -/

theorem rbEraseNode_perm (n : RBNode) : (rbEraseNode n).Perm n.addrs := by
  induction n with
  | null => exact .refl _
  | node addr key value color left right ihLeft ihRight =>
      rw [rbEraseNode, addrs_node, List.append_assoc]
      exact ihLeft.append ((ihRight.append_right [addr]).trans List.perm_append_comm)

end Kernel.Rbtree
