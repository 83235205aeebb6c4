import RiscvOs.Kernel.Rbtree
import RiscvOs.Semantics.SortedMap

/-! The entries of a tree in the order of its keys. Every rotation and every
change of a color keeps them; `PathSafe` says when a deletion frees no node
that still has a child. -/
namespace Kernel.Rbtree

open Semantics SortedMap RBNode

/-- The order of `unsigned long` keys. -/
instance : LinearOrder Word where
  le_refl := BitVec.le_refl
  le_trans _ _ _ := BitVec.le_trans
  le_antisymm _ _ := BitVec.le_antisymm
  le_total := BitVec.le_total
  lt_iff_le_not_ge a b := by rw [BitVec.not_le]; exact ⟨fun h => ⟨BitVec.le_of_lt h, h⟩, And.right⟩
  toDecidableLE := inferInstance
  toDecidableEq := inferInstance
  toDecidableLT := inferInstance

def RBNode.entries : RBNode → List (Word × Word)
  | null => []
  | node _ key value _ left right => left.entries ++ (key, value) :: right.entries

/-- What `f` reads from the nodes, in the order of the tree. -/
def RBNode.inorder {β : Type} (f : Word → Word → Word → β) : RBNode → List β
  | null => []
  | node addr key value _ left right => left.inorder f ++ f addr key value :: right.inorder f

/-- The addresses of the nodes. -/
def RBNode.addrs (n : RBNode) : List Word :=
  n.inorder fun addr _ _ => addr

@[simp] theorem addrs_null : null.addrs = [] := rfl

@[simp] theorem addrs_node (addr key value : Word) (color : Color) (left right : RBNode) :
    (node addr key value color left right).addrs = left.addrs ++ addr :: right.addrs := rfl

theorem entries_eq_inorder (n : RBNode) : n.entries = n.inorder fun _ key value => (key, value) := by
  induction n with
  | null => rfl
  | node addr key value color left right ihLeft ihRight =>
      rw [entries, inorder, ihLeft, ihRight]

/-- The key of the root is at least `bound`. -/
def RBNode.RootGe (bound : Word) : RBNode → Prop
  | null => True
  | node _ key _ _ _ _ => bound ≤ key

def RBNode.RootLe (bound : Word) : RBNode → Prop
  | null => True
  | node _ key _ _ _ _ => key ≤ bound

theorem size_eq_length (n : RBNode) : n.size = n.entries.length := by
  induction n with
  | null => rfl
  | node addr key value color left right ihLeft ihRight =>
      simp only [size, entries, List.length_append, List.length_cons, ihLeft, ihRight]
      omega

theorem length_addrs (n : RBNode) : n.addrs.length = n.entries.length := by
  induction n with
  | null => rfl
  | node addr key value color left right ihLeft ihRight =>
      simp only [addrs_node, entries, List.length_append, List.length_cons, ihLeft, ihRight]

@[simp] theorem entries_blacken (n : RBNode) : n.blacken.entries = n.entries := by
  cases n <;> rfl

@[simp] theorem addrs_blacken (n : RBNode) : n.blacken.addrs = n.addrs := by
  cases n <;> rfl

section Repairs

variable {n n' : RBNode} {β : Type} {f : Word → Word → Word → β}

theorem inorder_flip (h : n.flip = some n') : n'.inorder f = n.inorder f := by
  cases n with
  | null => cases h
  | node addr key value color left right =>
      cases h
      rfl

theorem flipColor_eq (h : flipColor n = some n') :
    ∃ addr key value color left right left' right', n = node addr key value color left right ∧
      n' = node addr key value color.flip left' right' ∧ left.flip = some left' ∧
      right.flip = some right' := by
  cases n with
  | null => cases h
  | node addr key value color left right =>
      simp only [flipColor, Option.bind_eq_bind, Option.bind_eq_some_iff, Option.some.injEq] at h
      obtain ⟨left', hLeft, right', hRight, rfl⟩ := h
      exact ⟨addr, key, value, color, left, right, left', right', rfl, rfl, hLeft, hRight⟩

theorem inorder_flipColor (h : flipColor n = some n') : n'.inorder f = n.inorder f := by
  obtain ⟨addr, key, value, color, left, right, left', right', rfl, rfl, hLeft, hRight⟩ :=
    flipColor_eq h
  simp only [inorder, inorder_flip hLeft, inorder_flip hRight]

theorem inorder_rotateLeft (h : rotateLeft n = some n') : n'.inorder f = n.inorder f := by
  unfold rotateLeft at h
  split at h <;> cases h
  · rfl
  · simp [inorder]

theorem inorder_rotateRight (h : rotateRight n = some n') : n'.inorder f = n.inorder f := by
  unfold rotateRight at h
  split at h <;> cases h
  · rfl
  · simp [inorder]

theorem inorder_repairIf {test : Bool} {repair : RBNode → Option RBNode}
    (hSame : ∀ n', repair n = some n' → n'.inorder f = n.inorder f)
    (h : repairIf test repair n = some n') : n'.inorder f = n.inorder f := by
  unfold repairIf at h
  split at h
  · exact hSame n' h
  · cases h
    rfl

theorem inorder_repairLeft (h : repairLeft n = some n') : n'.inorder f = n.inorder f := by
  simp only [repairLeft, Option.bind_eq_bind, Option.bind_eq_some_iff] at h
  obtain ⟨n₁, hRotate, hFlip⟩ := h
  rw [inorder_repairIf (fun _ => inorder_flipColor) hFlip,
    inorder_repairIf (fun _ => inorder_rotateRight) hRotate]

theorem inorder_insertBalance (h : insertBalance n = some n') : n'.inorder f = n.inorder f := by
  simp only [insertBalance, Option.bind_eq_bind, Option.bind_eq_some_iff] at h
  obtain ⟨n₁, hRotate, hLeft⟩ := h
  rw [inorder_repairLeft hLeft, inorder_repairIf (fun _ => inorder_rotateLeft) hRotate]

theorem inorder_rbBalance (h : rbBalance n = some n') : n'.inorder f = n.inorder f := by
  simp only [rbBalance, Option.bind_eq_bind, Option.bind_eq_some_iff] at h
  obtain ⟨n₁, hRotate, hLeft⟩ := h
  rw [inorder_repairLeft hLeft, inorder_repairIf (fun _ => inorder_rotateLeft) hRotate]

theorem inorder_moveRedToLeft (h : moveRedToLeft n = some n') :
    n'.inorder f = n.inorder f := by
  unfold moveRedToLeft at h
  cases hFlip : flipColor n with
  | none => simp [hFlip] at h
  | some flipped =>
      rw [← inorder_flipColor hFlip]
      simp only [hFlip] at h
      split at h
      next hNone => cases hNone
      next hNull =>
        cases hNull
        cases h
        rfl
      next addr key value color left right hNode =>
        cases hNode
        split at h
        · simp only [Option.bind_eq_bind, Option.bind_eq_some_iff] at h
          obtain ⟨right', hRight, rotated, hRotate, hLast⟩ := h
          rw [inorder_flipColor hLast, inorder_rotateLeft hRotate, inorder,
            inorder_rotateRight hRight, inorder]
        · cases h
          rfl

theorem inorder_moveRedToRight (h : moveRedToRight n = some n') :
    n'.inorder f = n.inorder f := by
  simp only [moveRedToRight, Option.bind_eq_bind, Option.bind_eq_some_iff] at h
  obtain ⟨flipped, hFlip, h⟩ := h
  rw [← inorder_flipColor hFlip]
  split at h
  · simp only [Option.bind_eq_some_iff] at h
    obtain ⟨rotated, hRotate, hLast⟩ := h
    rw [inorder_flipColor hLast, inorder_rotateRight hRotate]
  · cases h
    rfl

theorem inorder_redToLeft (h : redToLeft n = some n') : n'.inorder f = n.inorder f :=
  inorder_repairIf (fun _ => inorder_moveRedToLeft) h

theorem inorder_redToRight (h : redToRight n = some n') : n'.inorder f = n.inorder f :=
  inorder_repairIf (fun _ => inorder_moveRedToRight) h

theorem inorder_redFromLeft (h : redFromLeft n = some n') : n'.inorder f = n.inorder f :=
  inorder_repairIf (fun _ => inorder_rotateRight) h

theorem addrs_rbBalance (h : rbBalance n = some n') : n'.addrs = n.addrs :=
  inorder_rbBalance h

theorem addrs_redToLeft (h : redToLeft n = some n') : n'.addrs = n.addrs :=
  inorder_redToLeft h

theorem addrs_redToRight (h : redToRight n = some n') : n'.addrs = n.addrs :=
  inorder_redToRight h

theorem addrs_redFromLeft (h : redFromLeft n = some n') : n'.addrs = n.addrs :=
  inorder_redFromLeft h

theorem entries_flipColor (h : flipColor n = some n') : n'.entries = n.entries := by
  simpa only [entries_eq_inorder] using inorder_flipColor h

theorem entries_rotateRight (h : rotateRight n = some n') : n'.entries = n.entries := by
  simpa only [entries_eq_inorder] using inorder_rotateRight h

theorem entries_insertBalance (h : insertBalance n = some n') : n'.entries = n.entries := by
  simpa only [entries_eq_inorder] using inorder_insertBalance h

theorem entries_rbBalance (h : rbBalance n = some n') : n'.entries = n.entries := by
  simpa only [entries_eq_inorder] using inorder_rbBalance h

theorem entries_moveRedToLeft (h : moveRedToLeft n = some n') : n'.entries = n.entries := by
  simpa only [entries_eq_inorder] using inorder_moveRedToLeft h

theorem entries_moveRedToRight (h : moveRedToRight n = some n') : n'.entries = n.entries := by
  simpa only [entries_eq_inorder] using inorder_moveRedToRight h

theorem entries_redToLeft (h : redToLeft n = some n') : n'.entries = n.entries := by
  simpa only [entries_eq_inorder] using inorder_redToLeft h

theorem entries_redToRight (h : redToRight n = some n') : n'.entries = n.entries := by
  simpa only [entries_eq_inorder] using inorder_redToRight h

theorem entries_redFromLeft (h : redFromLeft n = some n') : n'.entries = n.entries := by
  simpa only [entries_eq_inorder] using inorder_redFromLeft h

/-- A rotation or a flip behind its own test for red children has the nodes
it needs. -/
theorem rotateLeft_of_red (h : n.right.isRed) : ∃ n', rotateLeft n = some n' := by
  cases n with
  | null => exact ⟨null, rfl⟩
  | node addr key value color left right =>
      cases right with
      | null => cases h
      | node => exact ⟨_, rfl⟩

theorem rotateRight_of_red (h : n.left.isRed) : ∃ n', rotateRight n = some n' := by
  cases n with
  | null => exact ⟨null, rfl⟩
  | node addr key value color left right =>
      cases left with
      | null => cases h
      | node => exact ⟨_, rfl⟩

theorem flipColor_of_red (hLeft : n.left.isRed) (hRight : n.right.isRed) :
    ∃ n', flipColor n = some n' := by
  cases n with
  | null => cases hLeft
  | node addr key value color left right =>
      cases left with
      | null => cases hLeft
      | node =>
          cases right with
          | null => cases hRight
          | node => exact ⟨_, rfl⟩

theorem repairIf_of (test : Bool) {repair : RBNode → Option RBNode}
    (hSome : test = true → ∃ n', repair n = some n') : ∃ n', repairIf test repair n = some n' := by
  cases test with
  | false => exact ⟨n, rfl⟩
  | true => exact hSome rfl

theorem repairLeft_exists (n : RBNode) : ∃ n', repairLeft n = some n' := by
  obtain ⟨n₁, h₁⟩ := repairIf_of (n.left.isRed && n.left.left.isRed)
    fun h => rotateRight_of_red (Bool.and_eq_true_iff.mp h).1
  obtain ⟨n₂, h₂⟩ := repairIf_of (n₁.left.isRed && n₁.right.isRed)
    fun h => flipColor_of_red (Bool.and_eq_true_iff.mp h).1 (Bool.and_eq_true_iff.mp h).2
  refine ⟨n₂, ?_⟩
  rw [repairLeft, h₁]
  exact h₂

theorem insertBalance_spec (n : RBNode) :
    ∃ n', insertBalance n = some n' ∧ n'.entries = n.entries := by
  obtain ⟨n₁, h₁⟩ := repairIf_of (n.right.isRed && !n.left.isRed)
    fun h => rotateLeft_of_red (Bool.and_eq_true_iff.mp h).1
  obtain ⟨n₂, h₂⟩ := repairLeft_exists n₁
  have hBalance : insertBalance n = some n₂ := by
    rw [insertBalance, h₁]
    exact h₂
  exact ⟨n₂, hBalance, entries_insertBalance hBalance⟩

theorem rbBalance_spec (n : RBNode) :
    ∃ n', rbBalance n = some n' ∧ n'.entries = n.entries := by
  obtain ⟨n₁, h₁⟩ := repairIf_of n.right.isRed rotateLeft_of_red
  obtain ⟨n₂, h₂⟩ := repairLeft_exists n₁
  have hBalance : rbBalance n = some n₂ := by
    rw [rbBalance, h₁]
    exact h₂
  exact ⟨n₂, hBalance, entries_rbBalance hBalance⟩

end Repairs

section Moves

variable {n n' : RBNode} {addr key value : Word} {color : Color} {left right : RBNode}

theorem RBNode.RootGe.mono {a b : Word} (hab : a ≤ b) (h : n.RootGe b) : n.RootGe a := by
  cases n with
  | null => trivial
  | node => exact hab.trans h

theorem RBNode.RootLe.mono {a b : Word} (hab : a ≤ b) (h : n.RootLe a) : n.RootLe b := by
  cases n with
  | null => trivial
  | node => exact le_trans h hab

/-- A flip keeps the root. -/
theorem root_flipColor (h : flipColor n = some n') (bound : Word) :
    (n.RootGe bound → n'.RootGe bound) ∧ (n.RootLe bound → n'.RootLe bound) := by
  obtain ⟨addr, key, value, color, left, right, left', right', rfl, rfl, -, -⟩ := flipColor_eq h
  exact ⟨id, id⟩

/-- A rotation to the left makes a greater key the root. -/
theorem rootGe_rotateLeft (h : rotateLeft (node addr key value color left right) = some n')
    (hOrdered : Ordered (node addr key value color left right).entries) : n'.RootGe key := by
  cases right with
  | null => cases h
  | node addr' key' value' color' left' right' =>
      cases h
      exact (hOrdered.lt_of_mem_right (a := (key', value')) (by simp [entries])).le

theorem rootLe_rotateRight (h : rotateRight (node addr key value color left right) = some n')
    (hOrdered : Ordered (node addr key value color left right).entries) : n'.RootLe key := by
  cases left with
  | null => cases h
  | node addr' key' value' color' left' right' =>
      cases h
      exact (hOrdered.lt_of_mem_left (a := (key', value')) (by simp [entries])).le

theorem moveRedToLeft_spec
    (h : moveRedToLeft (node addr key value color left right) = some n')
    (hOrdered : Ordered (node addr key value color left right).entries) :
    n'.entries = (node addr key value color left right).entries ∧ n'.RootGe key := by
  refine ⟨entries_moveRedToLeft h, ?_⟩
  unfold moveRedToLeft at h
  cases hFlip : flipColor (node addr key value color left right) with
  | none => simp [hFlip] at h
  | some flipped =>
      have hRoot := (root_flipColor hFlip key).1 (le_refl key)
      rw [← entries_flipColor hFlip] at hOrdered
      simp only [hFlip] at h
      cases flipped with
      | null =>
          cases h
          trivial
      | node addr' key' value' color' left' right' =>
          dsimp only at h
          split at h
          · simp only [Option.bind_eq_bind, Option.bind_eq_some_iff] at h
            obtain ⟨right'', hRight, rotated, hRotate, hLast⟩ := h
            have hSame : (node addr' key' value' color' left' right'').entries =
                (node addr' key' value' color' left' right').entries := by
              simp only [entries, entries_rotateRight hRight]
            rw [← hSame] at hOrdered
            exact (root_flipColor hLast key).1
              ((rootGe_rotateLeft hRotate hOrdered).mono hRoot)
          · cases h
            exact hRoot

theorem moveRedToRight_spec
    (h : moveRedToRight (node addr key value color left right) = some n')
    (hOrdered : Ordered (node addr key value color left right).entries) :
    n'.entries = (node addr key value color left right).entries ∧ n'.RootLe key := by
  refine ⟨entries_moveRedToRight h, ?_⟩
  simp only [moveRedToRight, Option.bind_eq_bind, Option.bind_eq_some_iff] at h
  obtain ⟨flipped, hFlip, h⟩ := h
  have hRoot := (root_flipColor hFlip key).2 (le_refl key)
  rw [← entries_flipColor hFlip] at hOrdered
  split at h
  · simp only [Option.bind_eq_some_iff] at h
    obtain ⟨rotated, hRotate, hLast⟩ := h
    cases flipped with
    | null => cases hRotate; cases hLast
    | node addr' key' value' color' left' right' =>
        exact (root_flipColor hLast key).2
          ((rootLe_rotateRight hRotate hOrdered).mono hRoot)
  · cases h
    exact hRoot

theorem redToLeft_spec (h : redToLeft (node addr key value color left right) = some n')
    (hOrdered : Ordered (node addr key value color left right).entries) :
    n'.entries = (node addr key value color left right).entries ∧ n'.RootGe key := by
  refine ⟨entries_redToLeft h, ?_⟩
  unfold redToLeft repairIf at h
  split at h
  · exact (moveRedToLeft_spec h hOrdered).2
  · cases h
    exact le_refl key

theorem redToRight_spec (h : redToRight (node addr key value color left right) = some n')
    (hOrdered : Ordered (node addr key value color left right).entries) :
    n'.entries = (node addr key value color left right).entries ∧ n'.RootLe key := by
  refine ⟨entries_redToRight h, ?_⟩
  unfold redToRight repairIf at h
  split at h
  · exact (moveRedToRight_spec h hOrdered).2
  · cases h
    exact le_refl key

theorem redFromLeft_spec (h : redFromLeft (node addr key value color left right) = some n')
    (hOrdered : Ordered (node addr key value color left right).entries) :
    n'.entries = (node addr key value color left right).entries ∧ n'.RootLe key := by
  refine ⟨entries_redFromLeft h, ?_⟩
  unfold redFromLeft repairIf at h
  split at h
  · exact rootLe_rotateRight h hOrdered
  · cases h
    exact le_refl key

end Moves

end Kernel.Rbtree
