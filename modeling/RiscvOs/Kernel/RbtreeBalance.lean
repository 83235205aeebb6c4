import RiscvOs.Kernel.RbtreeRuns
import Mathlib.Data.Nat.Log

/-! The left-leaning red-black invariants, that `rb_insert` keeps them and the
height that follows from them. -/
namespace Kernel.Rbtree

open Semantics SortedMap RBNode

/-- The black nodes among one node of the color. -/
def Color.blacks : Color → Nat
  | black => 1
  | red => 0

/-- The numbers of black nodes on the paths to the null children. -/
def RBNode.blackDepths : RBNode → List Nat
  | null => [0]
  | node _ _ _ color left right => (left.blackDepths ++ right.blackDepths).map (· + color.blacks)

/-- No red right child, and no red node with a red left child. -/
def RBNode.Leaning : RBNode → Prop
  | null => True
  | node _ _ _ color left right =>
      right.isRed = false ∧ (color = .red → left.isRed = false) ∧ left.Leaning ∧ right.Leaning

def RBNode.height : RBNode → Nat
  | null => 0
  | node _ _ _ _ left right => max left.height right.height + 1

/-- The left-leaning red-black invariants. -/
structure Llrb (n : RBNode) : Prop where
  ordered : Ordered n.entries
  root : n.isRed = false
  leaning : n.Leaning
  even : ∃ h, ∀ d ∈ n.blackDepths, d = h

/-- The trees of one black height that lean to the left, with the color of
their root. -/
inductive Balanced : Color → Nat → RBNode → Prop where
  | null : Balanced .black 0 null
  | red {h : Nat} {addr key value : Word} {left right : RBNode}
      (hLeft : Balanced .black h left) (hRight : Balanced .black h right) :
      Balanced .red h (node addr key value .red left right)
  | black {h : Nat} {color : Color} {addr key value : Word} {left right : RBNode}
      (hLeft : Balanced color h left) (hRight : Balanced .black h right) :
      Balanced .black (h + 1) (node addr key value .black left right)

namespace Balanced

variable {h : Nat} {color : Color} {n : RBNode}

theorem isRed_eq (hn : Balanced color h n) : n.isRed = decide (color = .red) := by
  cases hn <;> rfl

theorem isRed_black (hn : Balanced .black h n) : n.isRed = false := hn.isRed_eq

theorem isRed_red (hn : Balanced .red h n) : n.isRed = true := hn.isRed_eq

/-- No two red nodes in a row at the root. -/
theorem not_redRed (hn : Balanced color h n) : (n.isRed && n.left.isRed) = false := by
  cases hn with
  | null => rfl
  | red hLeft hRight => exact hLeft.isRed_black
  | black => rfl

theorem leaning (hn : Balanced color h n) : n.Leaning := by
  induction hn with
  | null => trivial
  | red hLeft hRight ihLeft ihRight =>
      exact ⟨hRight.isRed_black, fun _ => hLeft.isRed_black, ihLeft, ihRight⟩
  | black hLeft hRight ihLeft ihRight =>
      exact ⟨hRight.isRed_black, fun hRed => (nomatch hRed), ihLeft, ihRight⟩

theorem depth_eq (hn : Balanced color h n) : ∀ d ∈ n.blackDepths, d = h := by
  induction hn with
  | null => simp [blackDepths]
  | red hLeft hRight ihLeft ihRight =>
      intro d hd
      simp only [blackDepths, Color.blacks, List.mem_map, List.mem_append] at hd
      obtain ⟨d', hd', rfl⟩ := hd
      exact hd'.elim (ihLeft d') (ihRight d')
  | black hLeft hRight ihLeft ihRight =>
      intro d hd
      simp only [blackDepths, Color.blacks, List.mem_map, List.mem_append] at hd
      obtain ⟨d', hd', rfl⟩ := hd
      exact congrArg (· + 1) (hd'.elim (ihLeft d') (ihRight d'))

theorem blacken (hn : Balanced color h n) : ∃ h', Balanced .black h' n.blacken := by
  cases hn with
  | null => exact ⟨0, .null⟩
  | red hLeft hRight => exact ⟨_, .black hLeft hRight⟩
  | black hLeft hRight => exact ⟨_, .black hLeft hRight⟩

end Balanced

theorem blackDepths_ne_nil (n : RBNode) : n.blackDepths ≠ [] := by
  induction n with
  | null => simp [blackDepths]
  | node addr key value color left right ihLeft ihRight => simp [blackDepths, ihLeft]

/-- The color of a node as `is_red` sees it. -/
def RBNode.rootColor (n : RBNode) : Color :=
  if n.isRed then .red else .black

theorem balanced_of_depths {h : Nat} {n : RBNode} (hLeaning : n.Leaning)
    (hDepths : ∀ d ∈ n.blackDepths, d = h) : Balanced n.rootColor h n := by
  induction n generalizing h with
  | null =>
      cases hDepths 0 (List.mem_singleton_self 0)
      exact .null
  | node addr key value color left right ihLeft ihRight =>
      obtain ⟨hRightBlack, hLeftBlack, hLeft, hRight⟩ := hLeaning
      have hSum : ∀ d, d ∈ left.blackDepths ∨ d ∈ right.blackDepths → d + color.blacks = h :=
        fun d hd => hDepths _ (List.mem_map_of_mem (List.mem_append.mpr hd))
      obtain ⟨d, hd⟩ := List.exists_mem_of_ne_nil _ (blackDepths_ne_nil left)
      have hFirst := hSum d (.inl hd)
      have hLeft' := ihLeft (h := d) hLeft fun d' hd' => by have := hSum d' (.inl hd'); omega
      have hRight' := ihRight (h := d) hRight fun d' hd' => by have := hSum d' (.inr hd'); omega
      rw [rootColor, hRightBlack] at hRight'
      cases color with
      | black =>
          rw [← hFirst]
          exact .black hLeft' hRight'
      | red =>
          rw [rootColor, hLeftBlack rfl] at hLeft'
          rw [← hFirst]
          exact .red hLeft' hRight'

theorem llrb_iff {n : RBNode} : Llrb n ↔ Ordered n.entries ∧ ∃ h, Balanced .black h n := by
  constructor
  · rintro ⟨hOrdered, hRoot, hLeaning, h, hDepths⟩
    have hBalanced := balanced_of_depths hLeaning hDepths
    rw [rootColor, hRoot] at hBalanced
    exact ⟨hOrdered, h, hBalanced⟩
  · rintro ⟨hOrdered, h, hBalanced⟩
    exact ⟨hOrdered, hBalanced.isRed_black, hBalanced.leaning, h, hBalanced.depth_eq⟩

section Repairs

variable {color : Color} {addr key value addrL keyL valueL addrR keyR valueR : Word}
  {left right leftL rightL leftR rightR : RBNode}

@[simp] theorem isRed_node :
    (node addr key value color left right).isRed = decide (color = .red) := rfl

@[simp] theorem left_node : (node addr key value color left right).left = left := rfl

@[simp] theorem right_node : (node addr key value color left right).right = right := rfl

/-- Nothing to repair: no two red nodes in a row, and no two red children. -/
theorem repairLeft_of_even (hLeft : (left.isRed && left.left.isRed) = false)
    (hRight : right.isRed = false) :
    repairLeft (node addr key value color left right) =
      some (node addr key value color left right) := by
  rw [Bool.and_eq_false_iff] at hLeft
  rcases hLeft with hLeft | hLeft <;> simp [repairLeft, repairIf, hLeft, hRight]

/-- Two red nodes in a row are rotated to the right and flipped. -/
theorem repairLeft_redRed {addrA keyA valueA : Word} {leftA rightA : RBNode} :
    repairLeft (node addr key value color
      (node addrL keyL valueL .red (node addrA keyA valueA .red leftA rightA) rightL) right) =
    some (node addrL keyL valueL color.flip (node addrA keyA valueA .black leftA rightA)
      (node addr key value .black rightL right)) := by
  simp [repairLeft, repairIf, rotateRight, flipColor, RBNode.flip, Color.flip]

/-- Two red children are flipped. -/
theorem repairLeft_redChildren (hLeft : leftL.isRed = false) :
    repairLeft (node addr key value color (node addrL keyL valueL .red leftL rightL)
      (node addrR keyR valueR .red leftR rightR)) =
    some (node addr key value color.flip (node addrL keyL valueL .black leftL rightL)
      (node addrR keyR valueR .black leftR rightR)) := by
  simp [repairLeft, repairIf, flipColor, RBNode.flip, Color.flip, hLeft]

theorem insertBalance_of_black (hRight : right.isRed = false) :
    insertBalance (node addr key value color left right) =
      repairLeft (node addr key value color left right) := by
  simp [insertBalance, repairIf, hRight]

theorem insertBalance_of_redLeft (hLeft : left.isRed = true) :
    insertBalance (node addr key value color left right) =
      repairLeft (node addr key value color left right) := by
  simp [insertBalance, repairIf, hLeft]

/-- A red right child is rotated to the left. -/
theorem insertBalance_of_redRight (hLeft : left.isRed = false) :
    insertBalance (node addr key value color left (node addrR keyR valueR .red leftR rightR)) =
      repairLeft (node addrR keyR valueR color (node addr key value .red left leftR) rightR) := by
  simp [insertBalance, repairIf, rotateLeft, hLeft]

end Repairs

section Insert

variable {h : Nat} {color : Color} {addr key value : Word} {left right : RBNode}

/-- What `insert_this` may leave of a red node: its left child may be red too,
which the black parent repairs. -/
inductive RedRed (h : Nat) : RBNode → Prop where
  | mk {color : Color} {addr key value : Word} {left right : RBNode}
      (hLeft : Balanced color h left) (hRight : Balanced .black h right) :
      RedRed h (node addr key value .red left right)

/-- What `insert_this` makes of a tree whose root has the color. -/
def Inserted : Color → Nat → RBNode → Prop
  | .black, h, n => ∃ color, Balanced color h n
  | .red, h, n => RedRed h n

theorem Balanced.inserted {n : RBNode} (hn : Balanced color h n) : Inserted color h n := by
  cases hn with
  | null => exact ⟨_, .null⟩
  | red hLeft hRight => exact .mk hLeft hRight
  | black hLeft hRight => exact ⟨_, .black hLeft hRight⟩

/-- An insertion into the left child of a black node. -/
theorem insertBalance_black_left {colorL : Color} (hLeft : Inserted colorL h left)
    (hRight : Balanced .black h right) :
    ∃ n', insertBalance (node addr key value .black left right) = some n' ∧
      Inserted .black (h + 1) n' := by
  rw [insertBalance_of_black hRight.isRed_black]
  cases colorL with
  | black =>
      obtain ⟨colorL, hLeft⟩ := hLeft
      exact ⟨_, repairLeft_of_even hLeft.not_redRed hRight.isRed_black, _, .black hLeft hRight⟩
  | red =>
      obtain @⟨colorA, addrL, keyL, valueL, leftL, rightL, hLL, hLR⟩ := hLeft
      cases hLL with
      | null =>
          exact ⟨_, repairLeft_of_even rfl hRight.isRed_black, _, .black (.red .null hLR) hRight⟩
      | black hA hB =>
          exact ⟨_, repairLeft_of_even rfl hRight.isRed_black, _,
            .black (.red (.black hA hB) hLR) hRight⟩
      | red hA hB => exact ⟨_, repairLeft_redRed, _, .red (.black hA hB) (.black hLR hRight)⟩

/-- An insertion into the right child of a black node. -/
theorem insertBalance_black_right {colorL : Color} (hLeft : Balanced colorL h left)
    (hRight : Inserted .black h right) :
    ∃ n', insertBalance (node addr key value .black left right) = some n' ∧
      Inserted .black (h + 1) n' := by
  obtain ⟨colorR, hRight⟩ := hRight
  cases colorR with
  | black => exact insertBalance_black_left hLeft.inserted hRight
  | red =>
      cases hRight with
      | red hRL hRR =>
          cases colorL with
          | black =>
              rw [insertBalance_of_redRight hLeft.isRed_black]
              exact ⟨_, repairLeft_of_even hLeft.isRed_black hRR.isRed_black, _,
                .black (.red hLeft hRL) hRR⟩
          | red =>
              rw [insertBalance_of_redLeft hLeft.isRed_red]
              cases hLeft with
              | red hLL hLR =>
                  exact ⟨_, repairLeft_redChildren hLL.isRed_black, _,
                    .red (.black hLL hLR) (.black hRL hRR)⟩

theorem insertBalance_red_left (hLeft : Inserted .black h left) (hRight : Balanced .black h right) :
    ∃ n', insertBalance (node addr key value .red left right) = some n' ∧ Inserted .red h n' := by
  obtain ⟨colorL, hLeft⟩ := hLeft
  rw [insertBalance_of_black hRight.isRed_black]
  exact ⟨_, repairLeft_of_even hLeft.not_redRed hRight.isRed_black, .mk hLeft hRight⟩

theorem insertBalance_red_right (hLeft : Balanced .black h left) (hRight : Inserted .black h right) :
    ∃ n', insertBalance (node addr key value .red left right) = some n' ∧ Inserted .red h n' := by
  obtain ⟨colorR, hRight⟩ := hRight
  cases colorR with
  | black => exact insertBalance_red_left hLeft.inserted hRight
  | red =>
      cases hRight with
      | red hRL hRR =>
          rw [insertBalance_of_redRight hLeft.isRed_black]
          exact ⟨_, repairLeft_of_even hLeft.isRed_black hRR.isRed_black, .mk (.red hLeft hRL) hRR⟩

end Insert

/-- The invariant of the recursion: a black subtree stays balanced, a red one
may come back with a red left child. -/
theorem insertThis_balanced (page key value : Word) {color : Color} {h : Nat} {n : RBNode}
    (hn : Balanced color h n) :
    ∃ n', insertThis page n key value = some n' ∧ Inserted color h n' := by
  induction hn with
  | null =>
      refine ⟨_, rfl, ?_⟩
      unfold createNode
      split
      · exact ⟨_, .null⟩
      · exact ⟨_, .red .null .null⟩
  | red hLeft hRight ihLeft ihRight =>
      obtain ⟨left', hInsertL, hLeft'⟩ := ihLeft
      obtain ⟨right', hInsertR, hRight'⟩ := ihRight
      simp only [insertThis, hInsertL, hInsertR]
      split
      · exact insertBalance_red_left hLeft.inserted hRight
      · split
        · exact insertBalance_red_left hLeft' hRight
        · exact insertBalance_red_right hLeft hRight'
  | black hLeft hRight ihLeft ihRight =>
      obtain ⟨left', hInsertL, hLeft'⟩ := ihLeft
      obtain ⟨right', hInsertR, hRight'⟩ := ihRight
      simp only [insertThis, hInsertL, hInsertR]
      split
      · exact insertBalance_black_left hLeft.inserted hRight
      · split
        · exact insertBalance_black_left hLeft' hRight
        · exact insertBalance_black_right hLeft hRight'

theorem rbInsert_llrb (page key value : Word) {tree : RBTree} (h : Llrb tree.root) :
    ∃ tree', rbInsert page tree key value = some tree' ∧ Llrb tree'.root ∧
      tree'.root.entries = if page = 0 ∧ get tree.root.entries key = none then tree.root.entries
        else put key value tree.root.entries := by
  obtain ⟨hOrdered, height, hBalanced⟩ := llrb_iff.mp h
  obtain ⟨root, hInsert, color, hRoot⟩ := insertThis_balanced page key value hBalanced
  obtain ⟨tree', hInsert', hEntries⟩ := rbInsert_entries page hOrdered key value
  have hTree : tree' = ⟨root.blacken⟩ := by simpa [rbInsert, hInsert] using hInsert'.symm
  subst hTree
  refine ⟨_, hInsert', llrb_iff.mpr ⟨?_, hRoot.blacken⟩, hEntries⟩
  rw [hEntries]
  split
  · exact hOrdered
  · exact hOrdered.put key value

section Height

variable {h : Nat} {color : Color} {n : RBNode}

theorem Balanced.height_le (hn : Balanced color h n) : n.height ≤ 2 * h + (1 - color.blacks) := by
  induction hn with
  | null => exact Nat.zero_le _
  | red hLeft hRight ihLeft ihRight =>
      simp only [RBNode.height, Color.blacks] at *
      omega
  | black hLeft hRight ihLeft ihRight =>
      simp only [RBNode.height, Color.blacks] at *
      omega

theorem Balanced.two_pow_le (hn : Balanced color h n) : 2 ^ h ≤ n.size + 1 := by
  induction hn with
  | null => exact Nat.le_refl _
  | red hLeft hRight ihLeft ihRight =>
      rw [size]
      omega
  | black hLeft hRight ihLeft ihRight =>
      rw [size, Nat.pow_succ]
      omega

theorem Llrb.height_le (h : Llrb n) : n.height ≤ 2 * Nat.log 2 (n.size + 1) := by
  obtain ⟨-, height, hBalanced⟩ := llrb_iff.mp h
  have hLog : height ≤ Nat.log 2 (n.size + 1) :=
    Nat.le_log_of_pow_le Nat.one_lt_two hBalanced.two_pow_le
  calc n.height ≤ 2 * height := hBalanced.height_le
    _ ≤ 2 * Nat.log 2 (n.size + 1) := Nat.mul_le_mul_left 2 hLog

end Height

theorem llrb_null : Llrb null :=
  llrb_iff.mpr ⟨List.Pairwise.nil, 0, .null⟩

/-- Insertions one after the other keep the invariants, and each adds one node
at most. -/
theorem runOps_inserts (inserts : List (Word × Word × Word)) {tree : RBTree}
    (h : Llrb tree.root) :
    ∃ tree', runOps tree (inserts.map fun e => .insert e.1 e.2.1 e.2.2) = some tree' ∧
      Llrb tree'.root ∧ tree'.root.size ≤ tree.root.size + inserts.length := by
  induction inserts generalizing tree with
  | nil => exact ⟨tree, rfl, h, Nat.le_refl _⟩
  | cons e rest ih =>
      obtain ⟨tree₁, hInsert, hLlrb₁, hEntries⟩ := rbInsert_llrb e.1 e.2.1 e.2.2 h
      obtain ⟨tree₂, hRun, hLlrb₂, hSize₂⟩ := ih hLlrb₁
      have hSize₁ : tree₁.root.size ≤ tree.root.size + 1 := by
        rw [size_eq_length, size_eq_length, hEntries]
        split
        · exact Nat.le_succ _
        · exact length_put_le _ _ _
      refine ⟨tree₂, ?_, hLlrb₂, ?_⟩
      · rw [List.map_cons, runOps, Op.apply, hInsert]
        exact hRun
      · rw [List.length_cons]
        omega

/-- `rb_insert` keeps the invariants for every tree, key and value. The content
has the key mapped to the value, unless the key is new and there is no page for
its node; then the content stays. So the height after any insertions is
logarithmic. -/
theorem rbInsert_keeps_llrb :
    (∀ (page : Word) (tree : RBTree) (key value : Word), Llrb tree.root →
      ∃ tree', rbInsert page tree key value = some tree' ∧ Llrb tree'.root ∧
        tree'.root.entries = if page = 0 ∧ get tree.root.entries key = none
          then tree.root.entries else put key value tree.root.entries) ∧
    ∀ inserts : List (Word × Word × Word),
      ∃ tree, runOps ⟨null⟩ (inserts.map fun e => .insert e.1 e.2.1 e.2.2) = some tree ∧
        tree.root.height ≤ 2 * Nat.log 2 (inserts.length + 1) := by
  refine ⟨fun page tree key value h => rbInsert_llrb page key value h, fun inserts => ?_⟩
  obtain ⟨tree, hRun, hLlrb, hSize⟩ := runOps_inserts inserts (show Llrb (RBTree.mk null).root from llrb_null)
  have hLength : tree.root.size ≤ inserts.length := hSize.trans_eq (Nat.zero_add _)
  refine ⟨tree, hRun, hLlrb.height_le.trans (Nat.mul_le_mul_left 2 ?_)⟩
  exact Nat.log_mono_right (Nat.succ_le_succ hLength)

/-- A third key, which rotates the root to the right and flips it. -/
theorem rbInsert_keeps_llrb_three :
    ∃ tree', rbInsert 0x3000 ⟨node 0x1000 3 30 .black (node 0x2000 2 20 .red null null) null⟩ 1 10 =
        some tree' ∧ Llrb tree'.root ∧ tree'.root.entries = [(1, 10), (2, 20), (3, 30)] :=
  rbInsert_keeps_llrb.1 0x3000 ⟨node 0x1000 3 30 .black (node 0x2000 2 20 .red null null) null⟩ 1 10
    (llrb_iff.mpr ⟨by simp [entries, Ordered], 1, .black (.red .null .null) .null⟩)

/-- Without a page for its node, a new key is not in the tree afterwards. -/
theorem rbInsert_without_page :
    ¬ ∀ (page : Word) (tree : RBTree) (key value : Word), Llrb tree.root →
      ∃ tree', rbInsert page tree key value = some tree' ∧ Llrb tree'.root ∧
        tree'.root.entries = put key value tree.root.entries := by
  intro h
  obtain ⟨tree', hInsert, -, hEntries⟩ := h 0 ⟨null⟩ 1 10 llrb_null
  cases hInsert
  cases hEntries

end Kernel.Rbtree
