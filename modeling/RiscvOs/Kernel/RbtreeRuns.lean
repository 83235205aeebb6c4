import RiscvOs.Kernel.RbtreeEntries

/-! Runs of `rb_insert` and `rb_delete`. The recursion of `remove_it` goes
through `rb_remove_key_node` and blackens every node it returns, so later
deletions may meet a node without right child that still has a left one, or a
node without left child that still has a right one. -/
namespace Kernel.Rbtree

open Semantics SortedMap RBNode

section Compare

variable {a b : Word}

theorem keyCompare_of_lt (h : a < b) : keyCompare a b = -1 := by
  rw [keyCompare, if_neg h.not_gt, if_pos h]

theorem keyCompare_of_gt (h : b < a) : keyCompare a b = 1 := by
  rw [keyCompare, if_pos h]

@[simp] theorem keyCompare_self (a : Word) : keyCompare a a = 0 := by
  rw [keyCompare, if_neg (lt_irrefl a), if_neg (lt_irrefl a)]

theorem keyCompare_eq_zero : keyCompare a b = 0 ↔ a = b := by
  rcases lt_trichotomy a b with h | rfl | h
  · simp [keyCompare_of_lt h, h.ne]
  · simp
  · simp [keyCompare_of_gt h, h.ne']

theorem keyCompare_ne_neg_one (h : b ≤ a) : keyCompare a b ≠ -1 := by
  rcases h.eq_or_lt with rfl | h
  · simp
  · simp [keyCompare_of_gt h]

end Compare

theorem findLoop_eq_get (key : Word) (n : RBNode) (h : Ordered n.entries) :
    findLoop key n = get n.entries key := by
  induction n with
  | null => rfl
  | node addr key' value color left right ihLeft ihRight =>
      rw [findLoop]
      rcases lt_trichotomy key key' with hLt | rfl | hGt
      · simp only [keyCompare_of_lt hLt]
        exact (ihLeft h.left).trans (h.get_lt hLt).symm
      · simp only [keyCompare_self]
        exact h.get_eq.symm
      · simp only [keyCompare_of_gt hGt]
        exact (ihRight h.right).trans (h.get_gt hGt).symm

/-- An insertion never fails. It replaces one entry of the map, unless the key
is new and there is no page for its node. -/
theorem insertThis_entries (page : Word) (n : RBNode) (key value : Word) (h : Ordered n.entries) :
    ∃ n', insertThis page n key value = some n' ∧
      n'.entries = if page = 0 ∧ get n.entries key = none then n.entries
        else put key value n.entries := by
  induction n with
  | null =>
      refine ⟨_, rfl, ?_⟩
      rw [createNode]
      by_cases hPage : page = 0
      · rw [if_pos hPage, if_pos ⟨hPage, rfl⟩]
      · rw [if_neg hPage, if_neg fun hNone => hPage hNone.1]
        rfl
  | node addr key' value' color left right ihLeft ihRight =>
      rw [insertThis]
      rcases lt_trichotomy key key' with hLt | rfl | hGt
      · obtain ⟨left', hLeft, hEntries⟩ := ihLeft h.left
        obtain ⟨n', hBalance, hSame⟩ := insertBalance_spec (node addr key' value' color left' right)
        refine ⟨n', by simpa [keyCompare_of_lt hLt, hLeft] using hBalance, ?_⟩
        rw [hSame, entries, entries, put_lt _ _ _ hLt, h.get_lt hLt, hEntries]
        split <;> rfl
      · obtain ⟨n', hBalance, hSame⟩ := insertBalance_spec (node addr key value color left right)
        refine ⟨n', by simpa using hBalance, ?_⟩
        have hGet : get (node addr key value' color left right).entries key = some value' :=
          h.get_eq
        rw [hSame, hGet, if_neg (by simp)]
        exact (h.put_eq value).symm
      · obtain ⟨right', hRight, hEntries⟩ := ihRight h.right
        obtain ⟨n', hBalance, hSame⟩ := insertBalance_spec (node addr key' value' color left right')
        refine ⟨n', by simpa [keyCompare_of_gt hGt, hRight] using hBalance, ?_⟩
        rw [hSame, entries, entries, h.put_gt value hGt, h.get_gt hGt, hEntries]
        split <;> rfl

/-- The way `remove_min` takes ends at a node without children. -/
inductive MinSafe : RBNode → Prop where
  | last (addr key value : Word) (color : Color) : MinSafe (node addr key value color null null)
  | down {addr key value addr' key' value' : Word} {color color' : Color}
      {left right left' right' : RBNode} (hLeft : left ≠ null)
      (hMove : redToLeft (node addr key value color left right) =
        some (node addr' key' value' color' left' right'))
      (rest : MinSafe left') : MinSafe (node addr key value color left right)

/-- The way `remove_it` takes with a key finds the nodes it flips and rotates,
and the node it frees at its end has no child. -/
inductive PathSafe (key : Word) : RBNode → Prop where
  | null : PathSafe key null
  | absentLeft {addr key' value : Word} {color : Color} {right : RBNode} (hKey : key < key') :
      PathSafe key (node addr key' value color null right)
  | goLeft {addr key' value addr₁ key₁ value₁ : Word} {color color₁ : Color}
      {left right left₁ right₁ : RBNode} (hKey : key < key') (hLeft : left ≠ .null)
      (hMove : redToLeft (node addr key' value color left right) =
        some (node addr₁ key₁ value₁ color₁ left₁ right₁))
      (rest : PathSafe key left₁) : PathSafe key (node addr key' value color left right)
  | free {addr key' value addr₁ value₁ : Word} {color color₁ : Color} {left right : RBNode}
      (hKey : key' ≤ key)
      (hTurn : redFromLeft (node addr key' value color left right) =
        some (node addr₁ key value₁ color₁ .null .null)) :
      PathSafe key (node addr key' value color left right)
  | absentRight {addr key' value addr₁ key₁ value₁ : Word} {color color₁ : Color}
      {left right left₁ : RBNode} (hKey : key' ≤ key)
      (hTurn : redFromLeft (node addr key' value color left right) =
        some (node addr₁ key₁ value₁ color₁ left₁ .null))
      (hOther : key ≠ key₁) : PathSafe key (node addr key' value color left right)
  | replace {addr key' value addr₁ key₁ value₁ addr₂ value₂ : Word} {color color₁ color₂ : Color}
      {left right left₁ right₁ left₂ right₂ : RBNode} (hKey : key' ≤ key)
      (hTurn : redFromLeft (node addr key' value color left right) =
        some (node addr₁ key₁ value₁ color₁ left₁ right₁)) (hRight : right₁ ≠ .null)
      (hMove : redToRight (node addr₁ key₁ value₁ color₁ left₁ right₁) =
        some (node addr₂ key value₂ color₂ left₂ right₂))
      (hMin : MinSafe right₂) : PathSafe key (node addr key' value color left right)
  | goRight {addr key' value addr₁ key₁ value₁ addr₂ key₂ value₂ : Word}
      {color color₁ color₂ : Color} {left right left₁ right₁ left₂ right₂ : RBNode}
      (hKey : key' ≤ key)
      (hTurn : redFromLeft (node addr key' value color left right) =
        some (node addr₁ key₁ value₁ color₁ left₁ right₁)) (hRight : right₁ ≠ .null)
      (hMove : redToRight (node addr₁ key₁ value₁ color₁ left₁ right₁) =
        some (node addr₂ key₂ value₂ color₂ left₂ right₂)) (hOther : key ≠ key₂)
      (rest : PathSafe key right₂) : PathSafe key (node addr key' value color left right)

theorem min_eq_head (n : RBNode) : min n = n.entries.head? := by
  fun_induction min n with
  | case1 => rfl
  | case2 => rfl
  | case3 addr key value color left right hLeft ih =>
      rw [ih]
      cases left with
      | null => exact absurd rfl hLeft
      | node => simp [entries, List.head?_append]

/-- The entry of a node goes, and the entries of its children stay. -/
theorem erase_node {addr key value : Word} {color : Color} {left right : RBNode}
    (h : Ordered (node addr key value color left right).entries) :
    erase key (node addr key value color left right).entries = left.entries ++ right.entries :=
  h.erase_eq

/-- The children of a rearranged node are smaller than the node before. -/
theorem size_children {addr' key' value' : Word} {color' : Color} {left' right' n : RBNode}
    (h : (node addr' key' value' color' left' right').entries = n.entries) :
    left'.size < n.size ∧ right'.size < n.size := by
  have hLength := congrArg List.length h
  simp only [entries, List.length_append, List.length_cons, ← size_eq_length] at hLength
  omega

/-- The nodes freed on the right of a node. -/
theorem perm_right {α : Type} {freed left right right' : List α} {a : α}
    (h : (freed ++ right').Perm right) :
    (freed ++ (left ++ a :: right')).Perm (left ++ a :: right) :=
  calc (freed ++ (left ++ a :: right')).Perm (left ++ (freed ++ a :: right')) :=
        List.perm_append_comm_assoc ..
    _ |>.Perm (left ++ a :: (freed ++ right')) := List.perm_middle.append_left left
    _ |>.Perm (left ++ a :: right) := (h.cons a).append_left left

section Ways

variable {fuel : Nat} {key addr key' value addr₁ key₁ value₁ addr₂ key₂ value₂ : Word}
  {color color₁ color₂ : Color} {left right left₁ right₁ left₂ right₂ left' right' n' : RBNode}
  {freed : List Word} {e : Word × Word}

theorem removeMin_down (hLeft : left ≠ null)
    (hMove : redToLeft (node addr key' value color left right) =
      some (node addr₁ key₁ value₁ color₁ left₁ right₁))
    (hRest : removeMin fuel left₁ = some (left', freed))
    (hBalance : rbBalance (node addr₁ key₁ value₁ color₁ left' right₁) = some n') :
    removeMin (fuel + 1) (node addr key' value color left right) = some (n', freed) := by
  cases left with
  | null => exact absurd rfl hLeft
  | node => simp [removeMin, hMove, hRest, hBalance]

theorem removeIt_absentLeft (hKey : key < key')
    (hBalance : rbBalance (node addr key' value color null right) = some n') :
    removeIt (fuel + 1) (node addr key' value color null right) key = some (n', []) := by
  simp [removeIt, keyCompare_of_lt hKey, isNull, hBalance]

theorem removeIt_goLeft (hKey : key < key') (hLeft : left ≠ null)
    (hMove : redToLeft (node addr key' value color left right) =
      some (node addr₁ key₁ value₁ color₁ left₁ right₁))
    (hRest : removeIt fuel left₁ key = some (left', freed))
    (hBalance : rbBalance (node addr₁ key₁ value₁ color₁ left'.blacken right₁) = some n') :
    removeIt (fuel + 1) (node addr key' value color left right) key = some (n', freed) := by
  cases left with
  | null => exact absurd rfl hLeft
  | node => simp [removeIt, keyCompare_of_lt hKey, isNull, hMove, hRest, hBalance]

theorem removeIt_free (hKey : key' ≤ key)
    (hTurn : redFromLeft (node addr key' value color left right) =
      some (node addr₁ key value₁ color₁ left₁ null)) :
    removeIt (fuel + 1) (node addr key' value color left right) key = some (null, [addr₁]) := by
  simp [removeIt, keyCompare_ne_neg_one hKey, hTurn, isNull]

theorem removeIt_absentRight (hKey : key' ≤ key)
    (hTurn : redFromLeft (node addr key' value color left right) =
      some (node addr₁ key₁ value₁ color₁ left₁ null)) (hOther : key ≠ key₁)
    (hBalance : rbBalance (node addr₁ key₁ value₁ color₁ left₁ null) = some n') :
    removeIt (fuel + 1) (node addr key' value color left right) key = some (n', []) := by
  simp [removeIt, keyCompare_ne_neg_one hKey, hTurn, isNull, keyCompare_eq_zero, hOther, hBalance]

theorem removeIt_replace (hKey : key' ≤ key)
    (hTurn : redFromLeft (node addr key' value color left right) =
      some (node addr₁ key₁ value₁ color₁ left₁ right₁)) (hRight : right₁ ≠ null)
    (hMove : redToRight (node addr₁ key₁ value₁ color₁ left₁ right₁) =
      some (node addr₂ key value₂ color₂ left₂ right₂)) (hMin : min right₂ = some e)
    (hRest : removeMin fuel right₂ = some (right', freed))
    (hBalance : rbBalance (node addr₂ e.1 e.2 color₂ left₂ right') = some n') :
    removeIt (fuel + 1) (node addr key' value color left right) key = some (n', freed) := by
  cases right₁ with
  | null => exact absurd rfl hRight
  | node =>
      simp [removeIt, keyCompare_ne_neg_one hKey, hTurn, isNull, hMove, hMin, hRest, hBalance]

theorem removeIt_goRight (hKey : key' ≤ key)
    (hTurn : redFromLeft (node addr key' value color left right) =
      some (node addr₁ key₁ value₁ color₁ left₁ right₁)) (hRight : right₁ ≠ null)
    (hMove : redToRight (node addr₁ key₁ value₁ color₁ left₁ right₁) =
      some (node addr₂ key₂ value₂ color₂ left₂ right₂)) (hOther : key ≠ key₂)
    (hRest : removeIt fuel right₂ key = some (right', freed))
    (hBalance : rbBalance (node addr₂ key₂ value₂ color₂ left₂ right'.blacken) = some n') :
    removeIt (fuel + 1) (node addr key' value color left right) key = some (n', freed) := by
  cases right₁ with
  | null => exact absurd rfl hRight
  | node =>
      simp [removeIt, keyCompare_ne_neg_one hKey, hTurn, isNull, hMove, keyCompare_eq_zero, hOther,
        hRest, hBalance]

end Ways

/-- The node that `remove_min` frees is the one with the least entry. -/
theorem removeMin_spec {n : RBNode} (hSafe : MinSafe n) {fuel : Nat} (hFuel : n.size ≤ fuel)
    (hOrdered : Ordered n.entries) :
    ∃ e n' freed, min n = some e ∧ removeMin fuel n = some (n', freed) ∧
      n.entries = e :: n'.entries ∧ freed ++ n'.addrs = n.addrs := by
  induction hSafe generalizing fuel with
  | last addr key value color =>
      cases fuel with
      | zero => simp [size] at hFuel
      | succ fuel => exact ⟨(key, value), null, [addr], rfl, rfl, rfl, rfl⟩
  | @down addr key value addr' key' value' color color' left right left' right' hLeft hMove rest ih =>
      obtain ⟨hEntries, -⟩ := redToLeft_spec hMove hOrdered
      have hSize := (size_children hEntries).1
      have hOrdered' : Ordered (node addr' key' value' color' left' right').entries := by
        rwa [hEntries]
      cases fuel with
      | zero => omega
      | succ fuel =>
          obtain ⟨e, left'', freed, hMin, hRemove, hSplit, hAddrs⟩ :=
            ih (by omega : left'.size ≤ fuel) hOrdered'.left
          obtain ⟨n', hBalance, hSame⟩ :=
            rbBalance_spec (node addr' key' value' color' left'' right')
          refine ⟨e, n', freed, ?_, removeMin_down hLeft hMove hRemove hBalance, ?_, ?_⟩
          · rw [min_eq_head, ← hEntries, entries, hSplit]
            rfl
          · rw [hSame, ← hEntries, entries, hSplit, entries]
            rfl
          · rw [addrs_rbBalance hBalance, ← addrs_redToLeft hMove, addrs_node, addrs_node, ← hAddrs,
              List.append_assoc]

/-- A deletion whose way is safe removes the entries of its key and keeps all
others, and it frees the nodes that are gone. -/
theorem removeIt_spec {key : Word} {n : RBNode} (hSafe : PathSafe key n) {fuel : Nat}
    (hFuel : n.size < fuel) (hOrdered : Ordered n.entries) :
    ∃ n' freed, removeIt fuel n key = some (n', freed) ∧ n'.entries = erase key n.entries ∧
      (freed ++ n'.addrs).Perm n.addrs := by
  obtain ⟨fuel, rfl⟩ : ∃ k, fuel = k + 1 := ⟨fuel - 1, by omega⟩
  induction hSafe generalizing fuel with
  | null => exact ⟨null, [], rfl, rfl, .refl _⟩
  | @absentLeft addr key' value color right hKey =>
      obtain ⟨n', hBalance, hSame⟩ := rbBalance_spec (node addr key' value color null right)
      refine ⟨n', [], removeIt_absentLeft hKey hBalance, ?_, .of_eq (addrs_rbBalance hBalance)⟩
      rw [hSame]
      exact (hOrdered.erase_lt hKey).symm
  | @goLeft addr key' value addr₁ key₁ value₁ color color₁ left right left₁ right₁ hKey hLeft hMove
      rest ih =>
      obtain ⟨hEntries, hRoot⟩ := redToLeft_spec hMove hOrdered
      have hAddrs := addrs_redToLeft hMove
      have hSize := (size_children hEntries).1
      have hKey₁ : key < key₁ := hKey.trans_le hRoot
      rw [← hEntries] at hOrdered ⊢
      obtain ⟨fuel, rfl⟩ : ∃ k, fuel = k + 1 := ⟨fuel - 1, by omega⟩
      obtain ⟨left', freed, hRemove, hRest, hPerm⟩ := ih hOrdered.left fuel (by omega)
      obtain ⟨n', hBalance, hSame⟩ :=
        rbBalance_spec (node addr₁ key₁ value₁ color₁ left'.blacken right₁)
      refine ⟨n', freed, removeIt_goLeft hKey hLeft hMove hRemove hBalance, ?_, ?_⟩
      · rw [hSame, entries, entries_blacken, hRest]
        exact (hOrdered.erase_lt hKey₁).symm
      · rw [← hAddrs, addrs_rbBalance hBalance, addrs_node, addrs_node, addrs_blacken,
          ← List.append_assoc]
        exact hPerm.append_right _
  | @free addr key' value addr₁ value₁ color color₁ left right hKey hTurn =>
      obtain ⟨hEntries, -⟩ := redFromLeft_spec hTurn hOrdered
      have hAddrs := addrs_redFromLeft hTurn
      refine ⟨null, [addr₁], removeIt_free hKey hTurn, ?_, .of_eq hAddrs⟩
      rw [← hEntries] at hOrdered ⊢
      exact hOrdered.erase_eq.symm
  | @absentRight addr key' value addr₁ key₁ value₁ color color₁ left right left₁ hKey hTurn hOther =>
      obtain ⟨hEntries, hRoot⟩ := redFromLeft_spec hTurn hOrdered
      have hKey₁ : key₁ < key := lt_of_le_of_ne (le_trans hRoot hKey) hOther.symm
      obtain ⟨n', hBalance, hSame⟩ := rbBalance_spec (node addr₁ key₁ value₁ color₁ left₁ null)
      refine ⟨n', [], removeIt_absentRight hKey hTurn hOther hBalance, ?_,
        .of_eq ((addrs_rbBalance hBalance).trans (addrs_redFromLeft hTurn))⟩
      rw [← hEntries] at hOrdered ⊢
      rw [hSame]
      exact (hOrdered.erase_gt hKey₁).symm
  | @replace addr key' value addr₁ key₁ value₁ addr₂ value₂ color color₁ color₂ left right left₁ right₁
      left₂ right₂ hKey hTurn hRight hMove hMin =>
      obtain ⟨hEntries₁, -⟩ := redFromLeft_spec hTurn hOrdered
      rw [← hEntries₁] at hOrdered ⊢
      have hSize₁ := congrArg List.length hEntries₁
      obtain ⟨hEntries, -⟩ := redToRight_spec hMove hOrdered
      have hAddrs := (addrs_redToRight hMove).trans (addrs_redFromLeft hTurn)
      have hSize := (size_children hEntries).2
      rw [← hEntries] at hOrdered ⊢
      rw [← size_eq_length, ← size_eq_length] at hSize₁
      obtain ⟨e, right', freed, hLeast, hRemove, hSplit, hFreed⟩ :=
        removeMin_spec hMin (by omega : right₂.size ≤ fuel) hOrdered.right
      obtain ⟨n', hBalance, hSame⟩ := rbBalance_spec (node addr₂ e.1 e.2 color₂ left₂ right')
      refine ⟨n', freed, removeIt_replace hKey hTurn hRight hMove hLeast hRemove hBalance, ?_, ?_⟩
      · rw [hSame, erase_node hOrdered, hSplit]
        rfl
      · rw [← hAddrs, addrs_rbBalance hBalance, addrs_node, addrs_node]
        exact perm_right (.of_eq hFreed)
  | @goRight addr key' value addr₁ key₁ value₁ addr₂ key₂ value₂ color color₁ color₂ left right left₁
      right₁ left₂ right₂ hKey hTurn hRight hMove hOther rest ih =>
      obtain ⟨hEntries₁, hRoot₁⟩ := redFromLeft_spec hTurn hOrdered
      rw [← hEntries₁] at hOrdered ⊢
      have hSize₁ := congrArg List.length hEntries₁
      obtain ⟨hEntries, hRoot⟩ := redToRight_spec hMove hOrdered
      have hAddrs := (addrs_redToRight hMove).trans (addrs_redFromLeft hTurn)
      have hSize := (size_children hEntries).2
      have hKey₂ : key₂ < key :=
        lt_of_le_of_ne (le_trans hRoot (le_trans hRoot₁ hKey)) hOther.symm
      rw [← hEntries] at hOrdered ⊢
      rw [← size_eq_length, ← size_eq_length] at hSize₁
      obtain ⟨fuel, rfl⟩ : ∃ k, fuel = k + 1 := ⟨fuel - 1, by omega⟩
      obtain ⟨right', freed, hRemove, hRest, hPerm⟩ := ih hOrdered.right fuel (by omega)
      obtain ⟨n', hBalance, hSame⟩ :=
        rbBalance_spec (node addr₂ key₂ value₂ color₂ left₂ right'.blacken)
      refine ⟨n', freed, removeIt_goRight hKey hTurn hRight hMove hOther hRemove hBalance, ?_, ?_⟩
      · rw [hSame, entries, entries_blacken, hRest]
        exact (hOrdered.erase_gt hKey₂).symm
      · rw [← hAddrs, addrs_rbBalance hBalance, addrs_node, addrs_node, addrs_blacken]
        exact perm_right hPerm

theorem mem_of_removeMin {fuel : Nat} {n n' : RBNode} {freed : List Word} {e : Word × Word}
    (h : removeMin fuel n = some (n', freed)) (he : e ∈ n'.entries) : e ∈ n.entries := by
  induction fuel generalizing n n' freed with
  | zero => cases h
  | succ fuel ih =>
      cases n with
      | null =>
          cases h
          exact he
      | node addr key value color left right =>
          cases left with
          | null =>
              cases h
              cases he
          | node addrL keyL valueL colorL leftL rightL =>
              simp only [removeMin, Option.bind_eq_bind, Option.bind_eq_some_iff] at h
              obtain ⟨n₁, hMove, h⟩ := h
              rw [← entries_redToLeft hMove]
              cases n₁ with
              | null => cases h
              | node addr₁ key₁ value₁ color₁ left₁ right₁ =>
                  simp only [Option.bind_eq_some_iff] at h
                  obtain ⟨⟨left', freed'⟩, hRest, n₂, hBalance, hLast⟩ := h
                  cases hLast
                  rw [entries_rbBalance hBalance, entries, List.mem_append] at he
                  rw [entries, List.mem_append]
                  exact he.imp_left (ih hRest)

/-- What the call of `remove_it` on a tree, which left the tree `n'`, did
there. -/
inductive Removed (fuel : Nat) (key : Word) : RBNode → RBNode → Prop where
  | null : Removed fuel key null null
  | absentLeft {addr key' value : Word} {color : Color} {right n' : RBNode} (hKey : key < key')
      (hEntries : n'.entries = (node addr key' value color null right).entries) :
      Removed fuel key (node addr key' value color null right) n'
  | goLeft {addr key' value addr₁ key₁ value₁ : Word} {color color₁ : Color}
      {left right left₁ right₁ left' n' : RBNode} {freed : List Word} (hKey : key < key')
      (hLeft : left ≠ .null) (hMove : redToLeft (node addr key' value color left right) =
        some (node addr₁ key₁ value₁ color₁ left₁ right₁))
      (hRest : removeIt fuel left₁ key = some (left', freed))
      (hEntries : n'.entries = left'.entries ++ (key₁, value₁) :: right₁.entries) :
      Removed fuel key (node addr key' value color left right) n'
  | free {addr key' value addr₁ value₁ : Word} {color color₁ : Color} {left right left₁ : RBNode}
      (hKey : key' ≤ key) (hTurn : redFromLeft (node addr key' value color left right) =
        some (node addr₁ key value₁ color₁ left₁ .null)) :
      Removed fuel key (node addr key' value color left right) .null
  | absentRight {addr key' value addr₁ key₁ value₁ : Word} {color color₁ : Color}
      {left right left₁ n' : RBNode} (hKey : key' ≤ key)
      (hTurn : redFromLeft (node addr key' value color left right) =
        some (node addr₁ key₁ value₁ color₁ left₁ .null)) (hOther : key ≠ key₁)
      (hEntries : n'.entries = (node addr₁ key₁ value₁ color₁ left₁ .null).entries) :
      Removed fuel key (node addr key' value color left right) n'
  | replace {addr key' value addr₁ key₁ value₁ addr₂ value₂ : Word} {color color₁ color₂ : Color}
      {left right left₁ right₁ left₂ right₂ right' n' : RBNode} {freed : List Word}
      {e : Word × Word} (hKey : key' ≤ key)
      (hTurn : redFromLeft (node addr key' value color left right) =
        some (node addr₁ key₁ value₁ color₁ left₁ right₁)) (hRight : right₁ ≠ .null)
      (hMove : redToRight (node addr₁ key₁ value₁ color₁ left₁ right₁) =
        some (node addr₂ key value₂ color₂ left₂ right₂)) (hMin : min right₂ = some e)
      (hRest : removeMin fuel right₂ = some (right', freed))
      (hEntries : n'.entries = left₂.entries ++ e :: right'.entries) :
      Removed fuel key (node addr key' value color left right) n'
  | goRight {addr key' value addr₁ key₁ value₁ addr₂ key₂ value₂ : Word}
      {color color₁ color₂ : Color} {left right left₁ right₁ left₂ right₂ right' n' : RBNode}
      {freed : List Word} (hKey : key' ≤ key)
      (hTurn : redFromLeft (node addr key' value color left right) =
        some (node addr₁ key₁ value₁ color₁ left₁ right₁)) (hRight : right₁ ≠ .null)
      (hMove : redToRight (node addr₁ key₁ value₁ color₁ left₁ right₁) =
        some (node addr₂ key₂ value₂ color₂ left₂ right₂)) (hOther : key ≠ key₂)
      (hRest : removeIt fuel right₂ key = some (right', freed))
      (hEntries : n'.entries = left₂.entries ++ (key₂, value₂) :: right'.entries) :
      Removed fuel key (node addr key' value color left right) n'

theorem removed_of_removeIt {key : Word} {fuel : Nat} {n n' : RBNode} {freed : List Word}
    (h : removeIt (fuel + 1) n key = some (n', freed)) : Removed fuel key n n' := by
  cases n with
  | null =>
      cases h
      exact .null
  | node addr key' value color left right =>
      rcases lt_or_ge key key' with hKey | hKey
      · cases left with
        | null =>
            simp only [removeIt, keyCompare_of_lt hKey, isNull, ↓reduceIte, Option.bind_eq_bind,
              Option.bind_eq_some_iff] at h
            obtain ⟨n₁, hBalance, hLast⟩ := h
            cases hLast
            exact .absentLeft hKey (entries_rbBalance hBalance)
        | node addrL keyL valueL colorL leftL rightL =>
            simp only [removeIt, keyCompare_of_lt hKey, isNull, ↓reduceIte, Bool.false_eq_true,
              Option.bind_eq_bind, Option.bind_eq_some_iff] at h
            obtain ⟨n₁, hMove, h⟩ := h
            cases n₁ with
            | null => cases h
            | node addr₁ key₁ value₁ color₁ left₁ right₁ =>
                simp only [Option.bind_eq_some_iff] at h
                obtain ⟨⟨left', freed'⟩, hRest, n₂, hBalance, hLast⟩ := h
                cases hLast
                have hEntries := entries_rbBalance hBalance
                rw [entries, entries_blacken] at hEntries
                exact .goLeft hKey (by simp) hMove hRest hEntries
      · simp only [removeIt, keyCompare_ne_neg_one hKey, ↓reduceIte, Option.bind_eq_bind,
          Option.bind_eq_some_iff] at h
        obtain ⟨n₁, hTurn, h⟩ := h
        cases n₁ with
        | null => cases h
        | node addr₁ key₁ value₁ color₁ left₁ right₁ =>
            cases right₁ with
            | null =>
                by_cases hSame : key = key₁
                · subst hSame
                  simp only [keyCompare_self, isNull, decide_true, Bool.and_self, ↓reduceIte,
                    Option.some.injEq, Prod.mk.injEq] at h
                  rw [← h.1]
                  exact .free hKey hTurn
                · simp only [keyCompare_eq_zero, hSame, isNull, decide_false, Bool.false_and,
                    Bool.false_eq_true, ↓reduceIte, Option.bind_eq_some_iff] at h
                  obtain ⟨n₂, hBalance, hLast⟩ := h
                  cases hLast
                  exact .absentRight hKey hTurn hSame (entries_rbBalance hBalance)
            | node addrR keyR valueR colorR leftR rightR =>
                simp only [isNull, Bool.and_false, Bool.false_eq_true, ↓reduceIte,
                  Option.bind_eq_some_iff] at h
                obtain ⟨n₂, hMove, h⟩ := h
                cases n₂ with
                | null => cases h
                | node addr₂ key₂ value₂ color₂ left₂ right₂ =>
                    by_cases hSame : key = key₂
                    · subst hSame
                      simp only [keyCompare_self, ↓reduceIte, Option.bind_eq_some_iff] at h
                      obtain ⟨e, hMin, ⟨right', freed'⟩, hRest, n₃, hBalance, hLast⟩ := h
                      cases hLast
                      exact .replace hKey hTurn (by simp) hMove hMin hRest
                        (entries_rbBalance hBalance)
                    · simp only [keyCompare_eq_zero, hSame, ↓reduceIte,
                        Option.bind_eq_some_iff] at h
                      obtain ⟨⟨right', freed'⟩, hRest, n₃, hBalance, hLast⟩ := h
                      cases hLast
                      have hEntries := entries_rbBalance hBalance
                      rw [entries, entries_blacken] at hEntries
                      exact .goRight hKey hTurn (by simp) hMove hSame hRest hEntries

/-- A deletion brings no entry in, whatever the way. -/
theorem mem_of_removeIt {key : Word} {fuel : Nat} {n n' : RBNode} {freed : List Word}
    {e : Word × Word} (h : removeIt fuel n key = some (n', freed)) (he : e ∈ n'.entries) :
    e ∈ n.entries := by
  induction fuel generalizing n n' freed with
  | zero => cases h
  | succ fuel ih =>
      cases removed_of_removeIt h with
      | null => exact he
      | absentLeft hKey hEntries => rwa [hEntries] at he
      | goLeft hKey hLeft hMove hRest hEntries =>
          rw [hEntries, List.mem_append] at he
          rw [← entries_redToLeft hMove, entries, List.mem_append]
          exact he.imp_left (ih hRest)
      | free hKey hTurn => cases he
      | absentRight hKey hTurn hOther hEntries => rwa [hEntries, entries_redFromLeft hTurn] at he
      | replace hKey hTurn hRight hMove hMin hRest hEntries =>
          rw [hEntries, List.mem_append, List.mem_cons] at he
          rw [← entries_redFromLeft hTurn, ← entries_redToRight hMove, entries, List.mem_append,
            List.mem_cons]
          rw [min_eq_head] at hMin
          rcases he with hLeft | rfl | hRight
          · exact .inl hLeft
          · exact .inr (.inr (List.mem_of_head? hMin))
          · exact .inr (.inr (mem_of_removeMin hRest hRight))
      | goRight hKey hTurn hRight hMove hOther hRest hEntries =>
          rw [hEntries, List.mem_append, List.mem_cons] at he
          rw [← entries_redFromLeft hTurn, ← entries_redToRight hMove, entries, List.mem_append,
            List.mem_cons]
          exact he.imp_right (Or.imp_right (ih hRest))

/-- When no entry but the least is lost, the way of `remove_min` was safe. -/
theorem minSafe_of_removeMin {fuel : Nat} {n n' : RBNode} {freed : List Word} {e : Word × Word}
    (hRemove : removeMin fuel n = some (n', freed)) (hSplit : n.entries = e :: n'.entries)
    (hOrdered : Ordered n.entries) : MinSafe n := by
  induction fuel generalizing n n' freed e with
  | zero => cases hRemove
  | succ fuel ih =>
      cases n with
      | null => cases hSplit
      | node addr key value color left right =>
          cases left with
          | null =>
              cases hRemove
              cases right with
              | null => exact .last addr key value color
              | node => simp [entries] at hSplit
          | node addrL keyL valueL colorL leftL rightL =>
              simp only [removeMin, Option.bind_eq_bind, Option.bind_eq_some_iff] at hRemove
              obtain ⟨n₁, hMove, hRemove⟩ := hRemove
              obtain ⟨hEntries, -⟩ := redToLeft_spec hMove hOrdered
              cases n₁ with
              | null => cases hRemove
              | node addr₁ key₁ value₁ color₁ left₁ right₁ =>
                  simp only [Option.bind_eq_some_iff] at hRemove
                  obtain ⟨⟨left', freed'⟩, hRest, n₂, hBalance, hLast⟩ := hRemove
                  cases hLast
                  rw [← hEntries] at hOrdered hSplit
                  rw [entries_rbBalance hBalance, entries, entries, ← List.cons_append] at hSplit
                  exact .down (by simp) hMove
                    (ih hRest (List.append_cancel_right hSplit) hOrdered.left)

/-- When exactly the entries of the key are gone, the way was safe. -/
theorem pathSafe_of_removeIt {key : Word} {fuel : Nat} {n n' : RBNode} {freed : List Word}
    (hRemove : removeIt fuel n key = some (n', freed))
    (hErase : n'.entries = erase key n.entries) (hOrdered : Ordered n.entries) :
    PathSafe key n := by
  induction fuel generalizing n n' freed with
  | zero => cases hRemove
  | succ fuel ih =>
      cases removed_of_removeIt hRemove with
      | null => exact .null
      | absentLeft hKey hEntries => exact .absentLeft hKey
      | goLeft hKey hLeft hMove hRest hEntries =>
          obtain ⟨hSame, hRoot⟩ := redToLeft_spec hMove hOrdered
          rw [← hSame] at hOrdered hErase
          rw [hEntries, entries, hOrdered.erase_lt (hKey.trans_le hRoot)] at hErase
          exact .goLeft hKey hLeft hMove
            (ih hRest (List.append_cancel_right hErase) hOrdered.left)
      | @free addr key' value addr₁ value₁ color color₁ left right left₁ hKey hTurn =>
          rw [← entries_redFromLeft hTurn] at hOrdered hErase
          rw [erase_node hOrdered] at hErase
          cases left₁ with
          | null => exact .free hKey hTurn
          | node => simp [entries] at hErase
      | absentRight hKey hTurn hOther hEntries => exact .absentRight hKey hTurn hOther
      | replace hKey hTurn hRight hMove hMin hRest hEntries =>
          rw [← entries_redFromLeft hTurn, ← entries_redToRight hMove] at hOrdered hErase
          rw [hEntries, erase_node hOrdered] at hErase
          exact .replace hKey hTurn hRight hMove
            (minSafe_of_removeMin hRest (List.append_cancel_left hErase).symm hOrdered.right)
      | @goRight addr key' value addr₁ key₁ value₁ addr₂ key₂ value₂ color color₁ color₂ left right
          left₁ right₁ left₂ right₂ right' n' freed' hKey hTurn hRight hMove hOther hRest hEntries =>
          obtain ⟨hSame₁, hRoot₁⟩ := redFromLeft_spec hTurn hOrdered
          rw [← hSame₁] at hOrdered hErase
          obtain ⟨hSame, hRoot⟩ := redToRight_spec hMove hOrdered
          rw [← hSame] at hOrdered hErase
          have hKey₂ : key₂ < key :=
            lt_of_le_of_ne (le_trans hRoot (le_trans hRoot₁ hKey)) hOther.symm
          rw [hEntries, entries, hOrdered.erase_gt hKey₂] at hErase
          have hLast := List.append_cancel_left hErase
          rw [List.cons.injEq] at hLast
          exact .goRight hKey hTurn hRight hMove hOther (ih hRest hLast.2 hOrdered.right)

theorem rbFind_eq_get {tree : RBTree} (h : Ordered tree.root.entries) (key : Word) :
    rbFind tree key = get tree.root.entries key :=
  findLoop_eq_get key tree.root h

theorem rbInsert_entries (page : Word) {tree : RBTree} (h : Ordered tree.root.entries)
    (key value : Word) : ∃ tree', rbInsert page tree key value = some tree' ∧
      tree'.root.entries = if page = 0 ∧ get tree.root.entries key = none then tree.root.entries
        else put key value tree.root.entries := by
  obtain ⟨root, hInsert, hEntries⟩ := insertThis_entries page tree.root key value h
  exact ⟨⟨root.blacken⟩, by simp [rbInsert, hInsert], by simpa using hEntries⟩

theorem rbInsert_cases (page : Word) {tree : RBTree} (h : Ordered tree.root.entries)
    (key value : Word) : ∃ tree', rbInsert page tree key value = some tree' ∧
      (tree'.root.entries = put key value tree.root.entries ∨
        page = 0 ∧ tree'.root.entries = tree.root.entries) := by
  obtain ⟨tree', hInsert, hEntries⟩ := rbInsert_entries page h key value
  refine ⟨tree', hInsert, ?_⟩
  split at hEntries
  next hNone => exact .inr ⟨hNone.1, hEntries⟩
  next => exact .inl hEntries

theorem rbInsert_spec {page : Word} (hPage : page ≠ 0) {tree : RBTree}
    (h : Ordered tree.root.entries) (key value : Word) :
    ∃ tree', rbInsert page tree key value = some tree' ∧
      tree'.root.entries = put key value tree.root.entries := by
  obtain ⟨tree', hInsert, hEntries⟩ := rbInsert_cases page h key value
  exact ⟨tree', hInsert, hEntries.resolve_right fun hNone => hPage hNone.1⟩

theorem rbDelete_spec {tree : RBTree} (h : Ordered tree.root.entries) {key : Word}
    (hSafe : PathSafe key tree.root) :
    ∃ tree' freed, rbDelete tree key = some (tree', freed) ∧
      tree'.root.entries = erase key tree.root.entries ∧
      (freed ++ tree'.root.addrs).Perm tree.root.addrs := by
  obtain ⟨root, freed, hRemove, hEntries, hPerm⟩ := removeIt_spec hSafe (Nat.lt_succ_self _) h
  refine ⟨⟨root.blacken⟩, freed, ?_, by simpa using hEntries, by simpa using hPerm⟩
  simp [rbDelete, rbRemoveKeyNode, hRemove]

theorem mem_of_rbDelete {tree tree' : RBTree} {key : Word} {freed : List Word} {e : Word × Word}
    (h : rbDelete tree key = some (tree', freed)) (he : e ∈ tree'.root.entries) :
    e ∈ tree.root.entries := by
  simp only [rbDelete, rbRemoveKeyNode, Option.bind_eq_bind, Option.bind_eq_some_iff] at h
  obtain ⟨removal, ⟨⟨root, freed'⟩, hRemove, hBlacken⟩, hLast⟩ := h
  cases hBlacken
  cases hLast
  rw [entries_blacken] at he
  exact mem_of_removeIt hRemove he

/-- An insertion brings its own entry in only, whether or not there is a page. -/
theorem mem_of_insertThis {page key value : Word} {n n' : RBNode} {e : Word × Word}
    (h : insertThis page n key value = some n') (he : e ∈ n'.entries) :
    e ∈ n.entries ∨ e.2 = value := by
  induction n generalizing n' with
  | null =>
      cases h
      unfold createNode at he
      split at he
      · exact .inl he
      · exact .inr (congrArg Prod.snd (List.mem_singleton.mp he))
  | node addr key' value' color left right ihLeft ihRight =>
      rw [insertThis] at h
      rw [entries, List.mem_append, List.mem_cons]
      split at h
      · rw [entries_insertBalance h, entries, List.mem_append, List.mem_cons] at he
        rcases he with hLeft | rfl | hRight
        · exact .inl (.inl hLeft)
        · exact .inr rfl
        · exact .inl (.inr (.inr hRight))
      · split at h
        · simp only [Option.bind_eq_bind, Option.bind_eq_some_iff] at h
          obtain ⟨left', hLeft, hBalance⟩ := h
          rw [entries_insertBalance hBalance, entries, List.mem_append, List.mem_cons] at he
          rcases he with hMem | hMem
          · exact (ihLeft hLeft hMem).imp_left .inl
          · exact .inl (.inr hMem)
        · simp only [Option.bind_eq_bind, Option.bind_eq_some_iff] at h
          obtain ⟨right', hRight, hBalance⟩ := h
          rw [entries_insertBalance hBalance, entries, List.mem_append, List.mem_cons] at he
          rcases he with hMem | hMem | hMem
          · exact .inl (.inl hMem)
          · exact .inl (.inr (.inl hMem))
          · exact (ihRight hRight hMem).imp_left fun hOld => .inr (.inr hOld)

theorem mem_of_rbInsert {page key value : Word} {tree tree' : RBTree} {e : Word × Word}
    (h : rbInsert page tree key value = some tree') (he : e ∈ tree'.root.entries) :
    e ∈ tree.root.entries ∨ e.2 = value := by
  simp only [rbInsert, Option.bind_eq_bind, Option.bind_eq_some_iff] at h
  obtain ⟨root, hInsert, hLast⟩ := h
  cases hLast
  rw [entries_blacken] at he
  exact mem_of_insertThis hInsert he

/-- `PathSafe` is exact: it holds where a deletion ends and takes away the
entries of its key only. -/
theorem pathSafe_iff {tree : RBTree} (h : Ordered tree.root.entries) (key : Word) :
    PathSafe key tree.root ↔ ∃ tree' freed, rbDelete tree key = some (tree', freed) ∧
      tree'.root.entries = erase key tree.root.entries := by
  constructor
  · intro hSafe
    obtain ⟨tree', freed, hDelete, hEntries, -⟩ := rbDelete_spec h hSafe
    exact ⟨tree', freed, hDelete, hEntries⟩
  rintro ⟨tree', freed, hDelete, hEntries⟩
  simp only [rbDelete, rbRemoveKeyNode, Option.bind_eq_bind, Option.bind_eq_some_iff] at hDelete
  obtain ⟨removal, ⟨⟨root, freed'⟩, hRemove, hBlacken⟩, hLast⟩ := hDelete
  cases hBlacken
  cases hLast
  rw [entries_blacken] at hEntries
  exact pathSafe_of_removeIt hRemove hEntries h

/-- A call of `rb_insert`, with the page its node would get, or of
`rb_delete`. -/
inductive Op where
  | insert (page key value : Word)
  | delete (key : Word)

def Op.apply (tree : RBTree) : Op → Option RBTree
  | insert page key value => rbInsert page tree key value
  | delete key => (rbDelete tree key).map Prod.fst

/-- The calls one after the other. -/
def runOps (tree : RBTree) : List Op → Option RBTree
  | [] => some tree
  | op :: rest => (op.apply tree).bind (runOps · rest)

/-- What a call makes of the value of a key. -/
def Op.write (key : Word) (held : Option Word) : Op → Option Word
  | insert _ key' value => if key = key' then some value else held
  | delete key' => if key = key' then none else held

/-- The value of the last insertion of a key, unless the key was deleted
after it. -/
def lastWrite (ops : List Op) (key : Word) : Option Word :=
  ops.foldl (Op.write key) none

/-- A node is allocated where one is asked for. -/
def Allocated : Op → Prop
  | .insert page _ _ => page ≠ 0
  | .delete _ => True

instance : DecidablePred Allocated
  | .insert page _ _ => inferInstanceAs (Decidable (page ≠ 0))
  | .delete _ => inferInstanceAs (Decidable True)

/-- The way of a deletion is safe in the tree before it. -/
def Allowed (tree : RBTree) : Op → Prop
  | .insert .. => True
  | .delete key => PathSafe key tree.root

/-- Every call is allowed in the tree that the calls before it leave. -/
def AllowedFrom (tree : RBTree) : List Op → Prop
  | [] => True
  | op :: rest => Allowed tree op ∧ ∀ tree', op.apply tree = some tree' → AllowedFrom tree' rest

/-- One call does to the tree what it does to the map. -/
theorem Op.apply_spec {tree : RBTree} (h : Ordered tree.root.entries) {op : Op}
    (hAllocated : Allocated op) (hAllowed : Allowed tree op) :
    ∃ tree', op.apply tree = some tree' ∧ Ordered tree'.root.entries ∧
      ∀ key, get tree'.root.entries key = op.write key (get tree.root.entries key) := by
  cases op with
  | insert page key' value =>
      obtain ⟨tree', hInsert, hEntries⟩ := rbInsert_spec hAllocated h key' value
      refine ⟨tree', hInsert, hEntries ▸ h.put key' value, fun key => ?_⟩
      rw [hEntries, get_put]
      rfl
  | delete key' =>
      obtain ⟨tree', freed, hDelete, hEntries, -⟩ := rbDelete_spec h hAllowed
      refine ⟨tree', by rw [Op.apply, hDelete]; rfl, hEntries ▸ h.erase key', fun key => ?_⟩
      rw [hEntries, get_erase]
      rfl

theorem runOps_spec {tree : RBTree} (h : Ordered tree.root.entries) {ops : List Op}
    (hAllocated : ∀ op ∈ ops, Allocated op) (hAllowed : AllowedFrom tree ops) :
    ∃ tree', runOps tree ops = some tree' ∧ Ordered tree'.root.entries ∧
      ∀ key, get tree'.root.entries key =
        ops.foldl (Op.write key) (get tree.root.entries key) := by
  induction ops generalizing tree with
  | nil => exact ⟨tree, rfl, h, fun _ => rfl⟩
  | cons op rest ih =>
      obtain ⟨hNow, hLater⟩ := hAllowed
      obtain ⟨tree₁, hApply, hOrdered, hWrite⟩ :=
        op.apply_spec h (hAllocated op (List.mem_cons_self ..)) hNow
      obtain ⟨tree₂, hRun, hOrdered', hWrites⟩ :=
        ih hOrdered (fun o ho => hAllocated o (List.mem_cons_of_mem _ ho)) (hLater tree₁ hApply)
      refine ⟨tree₂, by rw [runOps, hApply]; exact hRun, hOrdered', fun key => ?_⟩
      rw [hWrites, hWrite]
      rfl

/-- Every run whose deletions take safe ways keeps a finite map. -/
theorem rbFind_of_allowed_run {ops : List Op} (hAllocated : ∀ op ∈ ops, Allocated op)
    (hAllowed : AllowedFrom ⟨null⟩ ops) :
    ∃ tree, runOps ⟨null⟩ ops = some tree ∧ ∀ key, rbFind tree key = lastWrite ops key := by
  have hStart : Ordered (RBTree.mk null).root.entries := List.Pairwise.nil
  obtain ⟨tree, hRun, hOrdered, hWrites⟩ := runOps_spec hStart hAllocated hAllowed
  refine ⟨tree, hRun, fun key => ?_⟩
  rw [rbFind_eq_get hOrdered, hWrites]
  rfl

/-- A run with a deletion of the least key, whose way goes to the left. -/
theorem rbFind_of_allowed_run_three :
    let ops : List Op := [.insert 0x1000 1 10, .insert 0x2000 2 20, .insert 0x3000 3 30, .delete 1]
    ∃ tree, runOps ⟨null⟩ ops = some tree ∧ ∀ key, rbFind tree key = lastWrite ops key := by
  intro ops
  refine rbFind_of_allowed_run (by decide) ⟨trivial, fun tree₁ h₁ => ⟨trivial, fun tree₂ h₂ =>
    ⟨trivial, fun tree₃ h₃ => ⟨?_, fun _ _ => trivial⟩⟩⟩⟩
  cases h₁
  cases h₂
  cases h₃
  exact .goLeft (by decide) (by decide) rfl (.free (by decide) rfl)

/-- The deletion of an absent key blackens a red left child; the deletion of
the key above it then drops the child. -/
theorem rbFind_lost_key :
    ¬ ∀ ops : List Op, (∀ op ∈ ops, Allocated op) →
      ∃ tree, runOps ⟨null⟩ ops = some tree ∧ ∀ key, rbFind tree key = lastWrite ops key := by
  intro h
  obtain ⟨tree, hRun, hFind⟩ := h
    [.insert 0x1000 1 10, .insert 0x2000 3 30, .delete 2, .delete 3] (by decide)
  cases hRun
  exact absurd (hFind 1) (by decide)

end Kernel.Rbtree
