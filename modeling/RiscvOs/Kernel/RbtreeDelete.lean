import RiscvOs.Kernel.RbtreeBalance

/-! `rb_delete` on left-leaning red-black trees. The way down finds every node
that it flips and rotates; the way up blackens the subtrees that come back
red, which makes them one black node higher than their siblings. -/
namespace Kernel.Rbtree

open Semantics SortedMap RBNode

/-- The colors of a child from which `remove_it` and `remove_min` do not
borrow. -/
def RBNode.isTwo (n : RBNode) : Bool :=
  !n.isRed && !n.left.isRed

/-- Every node on the way to the least key has two children from which nothing
can be borrowed. -/
def mergesMin : RBNode → Bool
  | null => false
  | node _ _ _ _ left right =>
      if left.isNull && right.isNull then true
      else left.isTwo && right.isTwo && mergesMin left

/-- The key is there, and every node on the way to the one that is freed for
it has two children from which nothing can be borrowed. -/
def merges (key : Word) : RBNode → Bool
  | null => false
  | node _ key' _ _ left right =>
      if left.isNull && right.isNull then key = key'
      else left.isTwo && right.isTwo &&
        if key < key' then merges key left
        else if key = key' then mergesMin right
        else merges key right

/-- The same below a black node with a red left child. When the way goes to the
right, `remove_it` first turns the red node to that side. -/
def mergesBelow (key : Word) : RBNode → Bool
  | null => false
  | node addr key' value _ left right =>
      if key < key' then merges key left
      else merges key (node addr key' value .red left.right right)

/-- The same for a child of the root. -/
def mergesChild (key : Word) (n : RBNode) : Bool :=
  if n.isNull then true
  else if n.left.isRed then mergesBelow key n
  else merges key n

/-- No subtree below the root comes back from `remove_it` with a red root. -/
def keepsHeight (key : Word) : RBNode → Bool
  | null => true
  | node addr key' value color left right =>
      if left.isRed then mergesBelow key (node addr key' value color left right)
      else if key < key' then mergesChild key left
      else if key = key' then true
      else mergesChild key right

/-- `node->color = RB_TREE_COLOR_RED`, what a flip makes of a black child. -/
def RBNode.redden : RBNode → RBNode
  | null => null
  | node addr key value _ left right => node addr key value .red left right

@[simp] theorem merges_redden (key : Word) (n : RBNode) : merges key n.redden = merges key n := by
  cases n <;> rfl

@[simp] theorem mergesMin_redden (n : RBNode) : mergesMin n.redden = mergesMin n := by
  cases n <;> rfl

/-- A black node with a red left child. -/
inductive Three : Nat → RBNode → Prop where
  | mk {h : Nat} {addr key value : Word} {left right : RBNode}
      (hLeft : Balanced .red h left) (hRight : Balanced .black h right) :
      Three (h + 1) (node addr key value .black left right)

section Moves

variable {h : Nat} {color : Color} {addr key value addrL keyL valueL addrR keyR valueR : Word}
  {left right leftL rightL leftR rightR : RBNode}

theorem redToLeft_stay (hStay : left.isTwo = false) :
    redToLeft (node addr key value color left right) =
      some (node addr key value color left right) := by
  rw [isTwo] at hStay
  simp only [redToLeft, repairIf, left_node, hStay, Bool.false_eq_true, ↓reduceIte]

theorem redToRight_stay (hStay : right.isTwo = false) :
    redToRight (node addr key value color left right) =
      some (node addr key value color left right) := by
  rw [isTwo] at hStay
  simp only [redToRight, repairIf, right_node, hStay, Bool.false_eq_true, ↓reduceIte]

/-- The right child gives its red node to the left. -/
theorem redToLeft_borrow {addrX keyX valueX : Word} {leftX rightX : RBNode}
    (hTwo : leftL.isRed = false) :
    redToLeft (node addr key value color (node addrL keyL valueL .black leftL rightL)
      (node addrR keyR valueR .black (node addrX keyX valueX .red leftX rightX) rightR)) =
    some (node addrX keyX valueX color
      (node addr key value .black (node addrL keyL valueL .red leftL rightL) leftX)
      (node addrR keyR valueR .black rightX rightR)) := by
  cases color <;>
    simp [redToLeft, repairIf, hTwo, moveRedToLeft, flipColor, RBNode.flip, Color.flip, rotateRight,
      rotateLeft]

theorem redToRight_borrow {addrX keyX valueX : Word} {leftX rightX : RBNode}
    (hTwo : leftR.isRed = false) :
    redToRight (node addr key value color
      (node addrL keyL valueL .black (node addrX keyX valueX .red leftX rightX) rightL)
      (node addrR keyR valueR .black leftR rightR)) =
    some (node addrL keyL valueL color (node addrX keyX valueX .black leftX rightX)
      (node addr key value .black rightL (node addrR keyR valueR .red leftR rightR))) := by
  cases color <;>
    simp [redToRight, repairIf, hTwo, moveRedToRight, flipColor, RBNode.flip, Color.flip,
      rotateRight]

/-- Neither child has a red node to give: both are merged with the node. -/
theorem redToLeft_merge (hLeft : leftL.isRed = false) (hRight : leftR.isRed = false) :
    redToLeft (node addr key value color (node addrL keyL valueL .black leftL rightL)
      (node addrR keyR valueR .black leftR rightR)) =
    some (node addr key value color.flip (node addrL keyL valueL .red leftL rightL)
      (node addrR keyR valueR .red leftR rightR)) := by
  simp [redToLeft, repairIf, hLeft, hRight, moveRedToLeft, flipColor, RBNode.flip, Color.flip]

theorem redToRight_merge (hLeft : leftL.isRed = false) (hRight : leftR.isRed = false) :
    redToRight (node addr key value color (node addrL keyL valueL .black leftL rightL)
      (node addrR keyR valueR .black leftR rightR)) =
    some (node addr key value color.flip (node addrL keyL valueL .red leftL rightL)
      (node addrR keyR valueR .red leftR rightR)) := by
  simp [redToRight, repairIf, hLeft, hRight, moveRedToRight, flipColor, RBNode.flip, Color.flip]

/-- Before the way goes to the left, the left child has a red node to lose or
is red itself. -/
theorem redToLeft_cases (hLeft : Balanced .black (h + 1) left)
    (hRight : Balanced .black (h + 1) right) :
    (∃ addr' key' value' left' right', redToLeft (node addr key value color left right) =
        some (node addr' key' value' color left' right') ∧ Three (h + 1) left' ∧
      Balanced .black (h + 1) right' ∧ (left.isTwo && right.isTwo) = false ∧
      ∀ k < key, mergesBelow k left' = mergesChild k left) ∨
    redToLeft (node addr key value color left right) =
        some (node addr key value color.flip left.redden right.redden) ∧
      Balanced .red h left.redden ∧ Balanced .red h right.redden ∧
      (left.isTwo && right.isTwo) = true := by
  cases hLeft with
  | @black h colorL addrL keyL valueL leftL rightL hLL hLR =>
      cases hRight with
      | @black h colorR addrR keyR valueR leftR rightR hRL hRR =>
          cases colorL with
          | red =>
              refine .inl ⟨_, _, _, _, _, redToLeft_stay ?_, .mk hLL hLR, .black hRL hRR, ?_, ?_⟩
              · simp [isTwo, hLL.isRed_red]
              · simp [isTwo, hLL.isRed_red]
              · simp [mergesChild, isNull, hLL.isRed_red]
          | black =>
              cases colorR with
              | red =>
                  cases hRL with
                  | red hX hY =>
                      refine .inl ⟨_, _, _, _, _, redToLeft_borrow hLL.isRed_black,
                        .mk (.red hLL hLR) hX, .black hY hRR, ?_, fun k hk => ?_⟩
                      · simp [isTwo]
                      · rw [mergesBelow, if_pos hk, mergesChild]
                        simp only [isNull, left_node, hLL.isRed_black, Bool.false_eq_true, ↓reduceIte]
                        rfl
              | black =>
                  refine .inr ⟨redToLeft_merge hLL.isRed_black hRL.isRed_black, .red hLL hLR,
                    .red hRL hRR, ?_⟩
                  simp [isTwo, hLL.isRed_black, hRL.isRed_black]

/-- Before the way goes to the right, the right child has a red node to lose,
or the node itself goes there with a red child, or the right child is red. -/
theorem redToRight_cases (hLeft : Balanced .black (h + 1) left)
    (hRight : Balanced .black (h + 1) right) :
    redToRight (node addr key value color left right) = some (node addr key value color left right) ∧
      Three (h + 1) right ∧ (left.isTwo && right.isTwo) = false ∨
    (∃ addr' key' value' left' middle, redToRight (node addr key value color left right) =
        some (node addr' key' value' color left' (node addr key value .black middle right.redden)) ∧
      Balanced .black (h + 1) left' ∧ Balanced .black h middle ∧ Balanced .red h right.redden ∧
      (left.isTwo && right.isTwo) = false ∧ right.left.isRed = false) ∨
    redToRight (node addr key value color left right) =
        some (node addr key value color.flip left.redden right.redden) ∧
      Balanced .red h left.redden ∧ Balanced .red h right.redden ∧
      (left.isTwo && right.isTwo) = true := by
  cases hLeft with
  | @black h colorL addrL keyL valueL leftL rightL hLL hLR =>
      cases hRight with
      | @black h colorR addrR keyR valueR leftR rightR hRL hRR =>
          cases colorR with
          | red =>
              refine .inl ⟨redToRight_stay ?_, .mk hRL hRR, ?_⟩ <;> simp [isTwo, hRL.isRed_red]
          | black =>
              cases colorL with
              | red =>
                  cases hLL with
                  | red hX hY =>
                      refine .inr (.inl ⟨_, _, _, _, _, redToRight_borrow hRL.isRed_black,
                        .black hX hY, hLR, .red hRL hRR, ?_, hRL.isRed_black⟩)
                      simp [isTwo]
              | black =>
                  refine .inr (.inr ⟨redToRight_merge hLL.isRed_black hRL.isRed_black,
                    .red hLL hLR, .red hRL hRR, ?_⟩)
                  simp [isTwo, hLL.isRed_black, hRL.isRed_black]

end Moves

section Repairs

variable {h : Nat} {color : Color} {addr key value : Word} {left right : RBNode}

theorem rbBalance_of_black (hRight : right.isRed = false) :
    rbBalance (node addr key value color left right) =
      repairLeft (node addr key value color left right) := by
  simp [rbBalance, repairIf, hRight]

theorem rbBalance_of_redRight {addrR keyR valueR : Word} {leftR rightR : RBNode} :
    rbBalance (node addr key value color left (node addrR keyR valueR .red leftR rightR)) =
      repairLeft (node addrR keyR valueR color (node addr key value .red left leftR) rightR) := by
  simp [rbBalance, repairIf, rotateLeft]

/-- Nothing to repair on the way up. -/
theorem rbBalance_of_balanced {colorL : Color} (hLeft : Balanced colorL h left)
    (hRight : Balanced .black h right) :
    rbBalance (node addr key value color left right) =
      some (node addr key value color left right) := by
  rw [rbBalance_of_black hRight.isRed_black]
  exact repairLeft_of_even hLeft.not_redRed hRight.isRed_black

/-- A black node over two subtrees of one height. It comes back red where both
were red. -/
theorem rbBalance_black (addr key value : Word) {colorL colorR : Color} (hLeft : Balanced colorL h left)
    (hRight : Balanced colorR h right) :
    ∃ n', rbBalance (node addr key value .black left right) = some n' ∧
      Balanced (if colorL = .red ∧ colorR = .red then .red else .black) (h + 1) n' := by
  cases colorR with
  | black => exact ⟨_, rbBalance_of_balanced hLeft hRight, by simpa using .black hLeft hRight⟩
  | red =>
      cases hRight with
      | red hRL hRR =>
          rw [rbBalance_of_redRight]
          cases hLeft with
          | null =>
              exact ⟨_, repairLeft_of_even rfl hRR.isRed_black, .black (.red .null hRL) hRR⟩
          | black hLL hLR =>
              exact ⟨_, repairLeft_of_even rfl hRR.isRed_black,
                .black (.red (.black hLL hLR) hRL) hRR⟩
          | red hLL hLR => exact ⟨_, repairLeft_redRed, .red (.black hLL hLR) (.black hRL hRR)⟩

end Repairs

section RemoveMin

theorem Balanced.ne_null {color : Color} {h : Nat} {n : RBNode} (hn : Balanced color (h + 1) n) :
    n ≠ .null := by
  cases hn <;> simp

theorem mergesMin_node {h : Nat} {addr key value : Word} {color : Color} {left right : RBNode}
    (hLeft : Balanced .black (h + 1) left) :
    mergesMin (node addr key value color left right) =
      (left.isTwo && right.isTwo && mergesMin left) := by
  cases hLeft
  rfl

/-- `remove_min` below a red node, or below a black one with a red left child.
Both are there to be lost; a red node comes back black where it was merged. -/
theorem removeMin_balanced (fuel : Nat) :
    (∀ {h : Nat} {n : RBNode}, Balanced .red h n → n.size ≤ fuel → MinSafe n ∧
      ∃ n' freed, removeMin fuel n = some (n', freed) ∧
        Balanced (if mergesMin n then .black else .red) h n') ∧
    ∀ {h : Nat} {n : RBNode}, Three h n → n.size ≤ fuel → MinSafe n ∧
      ∃ n' freed, removeMin fuel n = some (n', freed) ∧ Balanced .black h n' := by
  induction fuel with
  | zero =>
      constructor
      · rintro h n ⟨hLeft, hRight⟩ hFuel
        simp [size] at hFuel
      · rintro h n ⟨hLeft, hRight⟩ hFuel
        simp [size] at hFuel
  | succ fuel ih =>
      obtain ⟨ihRed, ihThree⟩ := ih
      constructor
      · intro h n hn hFuel
        cases hn with
        | @red h addr key value left right hLeft hRight =>
            cases h with
            | zero =>
                cases hLeft
                cases hRight
                exact ⟨.last addr key value .red, null, [addr], rfl, .null⟩
            | succ h =>
                have hNull := hLeft.ne_null
                rcases @redToLeft_cases h .red addr key value left right hLeft hRight with
                  ⟨addr', key', value', left', right', hMove, hThree, hRight', hTwo, -⟩ |
                  ⟨hMove, hLeft', hRight', hTwo⟩
                · have hSize := (size_children (entries_redToLeft hMove)).1
                  obtain ⟨hSafe, left'', freed, hRest, hLeft''⟩ := ihThree hThree (by omega)
                  refine ⟨.down hNull hMove hSafe, _, freed,
                    removeMin_down hNull hMove hRest (rbBalance_of_balanced hLeft'' hRight'), ?_⟩
                  rw [mergesMin_node hLeft, hTwo]
                  exact .red hLeft'' hRight'
                · have hSize := (size_children (entries_redToLeft hMove)).1
                  obtain ⟨hSafe, left'', freed, hRest, hLeft''⟩ := ihRed hLeft' (by omega)
                  obtain ⟨n', hBalance, hn'⟩ := rbBalance_black addr key value hLeft'' hRight'
                  refine ⟨.down hNull hMove hSafe, n', freed,
                    removeMin_down hNull hMove hRest hBalance, ?_⟩
                  rw [mergesMin_node hLeft, hTwo]
                  rw [mergesMin_redden] at hn'
                  cases hMerge : mergesMin left <;> simpa [hMerge] using hn'
      · intro h n hn hFuel
        cases hn with
        | @mk h addr key value left right hLeft hRight =>
            have hNull : left ≠ null := by
              cases hLeft
              simp
            have hMove : redToLeft (node addr key value .black left right) = _ :=
              redToLeft_stay (by simp [isTwo, hLeft.isRed_red])
            rw [size] at hFuel
            obtain ⟨hSafe, left', freed, hRest, hLeft'⟩ := ihRed hLeft (by omega)
            exact ⟨.down hNull hMove hSafe, _, freed,
              removeMin_down hNull hMove hRest (rbBalance_of_balanced hLeft' hRight),
              .black hLeft' hRight⟩

end RemoveMin

section Depths

variable {h : Nat} {color : Color} {addr key value : Word} {n n' left right : RBNode}

/-- A path with more than `h` black nodes. -/
def Deep (h : Nat) (n : RBNode) : Prop :=
  ∃ d ∈ n.blackDepths, h < d

/-- Two paths that differ in their black nodes. -/
def Uneven (n : RBNode) : Prop :=
  ∃ d ∈ n.blackDepths, ∃ d' ∈ n.blackDepths, d < d'

theorem mem_blackDepths_left {d : Nat} (hd : d ∈ left.blackDepths) :
    d + color.blacks ∈ (node addr key value color left right).blackDepths :=
  List.mem_map_of_mem (List.mem_append_left _ hd)

theorem mem_blackDepths_right {d : Nat} (hd : d ∈ right.blackDepths) :
    d + color.blacks ∈ (node addr key value color left right).blackDepths :=
  List.mem_map_of_mem (List.mem_append_right _ hd)

theorem Balanced.mem_blackDepths (hn : Balanced color h n) : h ∈ n.blackDepths := by
  obtain ⟨d, hd⟩ := List.exists_mem_of_ne_nil _ (blackDepths_ne_nil n)
  rwa [← hn.depth_eq d hd]

theorem Uneven.not_balanced (hUneven : Uneven n) : ¬ Balanced color h n := by
  rintro hn
  obtain ⟨d, hd, d', hd', hLt⟩ := hUneven
  rw [hn.depth_eq d hd, hn.depth_eq d' hd'] at hLt
  exact lt_irrefl h hLt

/-- The black nodes of every path are those of the same path before, and `k`
more. -/
def Shifted (k : Nat) (n n' : RBNode) : Prop :=
  n'.blackDepths = n.blackDepths.map (· + k)

theorem Shifted.trans {k k' : Nat} {n'' : RBNode} (hFirst : Shifted k n n')
    (hSecond : Shifted k' n' n'') : Shifted (k + k') n n'' := by
  rw [Shifted, hSecond, hFirst, List.map_map]
  exact List.map_congr_left fun d _ => Nat.add_assoc d k k'

theorem Deep.shifted {k : Nat} (hDeep : Deep h n) (hShift : Shifted k n n') : Deep h n' := by
  obtain ⟨d, hd, hLt⟩ := hDeep
  exact ⟨d + k, hShift ▸ List.mem_map_of_mem hd, hLt.trans_le (Nat.le_add_right d k)⟩

theorem Uneven.shifted {k : Nat} (hUneven : Uneven n) (hShift : Shifted k n n') : Uneven n' := by
  obtain ⟨d, hd, d', hd', hLt⟩ := hUneven
  exact ⟨d + k, hShift ▸ List.mem_map_of_mem hd, d' + k, hShift ▸ List.mem_map_of_mem hd',
    Nat.add_lt_add_right hLt k⟩

theorem shifted_blacken (n : RBNode) : ∃ k, Shifted k n n.blacken := by
  cases n with
  | null => exact ⟨0, rfl⟩
  | node addr key value color left right =>
      refine ⟨1 - color.blacks, ?_⟩
      cases color <;> simp [Shifted, RBNode.blacken, blackDepths, Color.blacks, Function.comp_def]

theorem shifted_rotateLeft (h : rotateLeft n = some n') (hRed : n.right.isRed = true) :
    Shifted 0 n n' := by
  cases n with
  | null => cases hRed
  | node addr key value color left right =>
      cases right with
      | null => cases hRed
      | node addrR keyR valueR colorR leftR rightR =>
          cases of_decide_eq_true hRed
          cases h
          simp [Shifted, blackDepths, Color.blacks, Function.comp_def]

theorem shifted_rotateRight (h : rotateRight n = some n') (hRed : n.left.isRed = true) :
    Shifted 0 n n' := by
  cases n with
  | null => cases hRed
  | node addr key value color left right =>
      cases left with
      | null => cases hRed
      | node addrL keyL valueL colorL leftL rightL =>
          cases of_decide_eq_true hRed
          cases h
          simp [Shifted, blackDepths, Color.blacks, Function.comp_def]

theorem shifted_flipColor (h : flipColor n = some n') (hLeft : n.left.isRed = true)
    (hRight : n.right.isRed = true) : ∃ k, Shifted k n n' := by
  cases n with
  | null => cases hLeft
  | node addr key value color left right =>
      cases left with
      | null => cases hLeft
      | node addrL keyL valueL colorL leftL rightL =>
          cases right with
          | null => cases hRight
          | node addrR keyR valueR colorR leftR rightR =>
              cases of_decide_eq_true hLeft
              cases of_decide_eq_true hRight
              cases h
              cases color with
              | black => exact ⟨0, by simp [Shifted, blackDepths, Color.blacks, Color.flip, Function.comp_def]⟩
              | red => exact ⟨2, by simp [Shifted, blackDepths, Color.blacks, Color.flip, Function.comp_def]⟩

theorem shifted_repairIf {test : Bool} {repair : RBNode → Option RBNode}
    (hShift : test = true → ∀ n', repair n = some n' → ∃ k, Shifted k n n')
    (h : repairIf test repair n = some n') : ∃ k, Shifted k n n' := by
  unfold repairIf at h
  split at h
  next hTest => exact hShift hTest n' h
  next =>
    cases h
    exact ⟨0, (List.map_id _).symm⟩

/-- The repairs on the way up add black nodes to all paths alike. -/
theorem shifted_rbBalance (h : rbBalance n = some n') : ∃ k, Shifted k n n' := by
  simp only [rbBalance, repairLeft, Option.bind_eq_bind, Option.bind_eq_some_iff] at h
  obtain ⟨n₁, hRotateLeft, n₂, hRotateRight, hFlip⟩ := h
  obtain ⟨k₁, h₁⟩ := shifted_repairIf (fun hRed _ h => ⟨0, shifted_rotateLeft h hRed⟩) hRotateLeft
  obtain ⟨k₂, h₂⟩ := shifted_repairIf
    (fun hRed _ h => ⟨0, shifted_rotateRight h (Bool.and_eq_true_iff.mp hRed).1⟩) hRotateRight
  obtain ⟨k₃, h₃⟩ := shifted_repairIf (fun hRed _ h => shifted_flipColor h
    (Bool.and_eq_true_iff.mp hRed).1 (Bool.and_eq_true_iff.mp hRed).2) hFlip
  exact ⟨_, (h₁.trans h₂).trans h₃⟩

theorem Deep.blacken (hDeep : Deep h n) : Deep h n.blacken := by
  obtain ⟨k, hShift⟩ := shifted_blacken n
  exact hDeep.shifted hShift

theorem Uneven.blacken (hUneven : Uneven n) : Uneven n.blacken := by
  obtain ⟨k, hShift⟩ := shifted_blacken n
  exact hUneven.shifted hShift

/-- One child is higher than the other. -/
def Raised (h : Nat) (left right : RBNode) : Prop :=
  (∃ color, Deep h left ∧ Balanced color h right) ∨ ∃ color, Balanced color h left ∧ Deep h right

theorem Raised.deep (hRaised : Raised h left right) :
    Deep (h + color.blacks) (node addr key value color left right) := by
  rcases hRaised with ⟨colorR, ⟨d, hd, hLt⟩, hRight⟩ | ⟨colorL, hLeft, d, hd, hLt⟩
  · exact ⟨_, mem_blackDepths_left hd, Nat.add_lt_add_right hLt _⟩
  · exact ⟨_, mem_blackDepths_right hd, Nat.add_lt_add_right hLt _⟩

theorem Raised.uneven (hRaised : Raised h left right) :
    Uneven (node addr key value color left right) := by
  rcases hRaised with ⟨colorR, ⟨d, hd, hLt⟩, hRight⟩ | ⟨colorL, hLeft, d, hd, hLt⟩
  · exact ⟨_, mem_blackDepths_right hRight.mem_blackDepths, _, mem_blackDepths_left hd,
      Nat.add_lt_add_right hLt _⟩
  · exact ⟨_, mem_blackDepths_left hLeft.mem_blackDepths, _, mem_blackDepths_right hd,
      Nat.add_lt_add_right hLt _⟩

/-- A red node with a child of the right height is too high when blackened. -/
theorem deep_blacken_red {colorL : Color} (hLeft : Balanced colorL h left ∨ Balanced colorL h right) :
    Deep h (node addr key value .red left right).blacken := by
  rcases hLeft with hLeft | hRight
  · exact ⟨h + Color.black.blacks, mem_blackDepths_left hLeft.mem_blackDepths, Nat.lt_succ_self h⟩
  · exact ⟨h + Color.black.blacks, mem_blackDepths_right hRight.mem_blackDepths, Nat.lt_succ_self h⟩

end Depths

section Return

variable {h : Nat} {good : Prop} [Decidable good] {left right : RBNode}

/-- What `remove_it` returns for a subtree of the black height `h`: a black root,
or a root that the blackening makes too high. -/
def Returned (good : Prop) [Decidable good] (h : Nat) (n : RBNode) : Prop :=
  if good then Balanced .black h n else Deep h n.blacken

/-- What `remove_it` returns for a black node. -/
def ReturnedBlack (good : Prop) [Decidable good] (h : Nat) (n : RBNode) : Prop :=
  if good then Balanced .black h n else Deep h n ∧ Uneven n

theorem Balanced.blacken_eq {n : RBNode} (hn : Balanced .black h n) : n.blacken = n := by
  cases hn <;> rfl

@[simp] theorem isRed_blacken (n : RBNode) : n.blacken.isRed = false := by
  cases n <;> rfl

theorem ReturnedBlack.returned {n : RBNode} (hn : ReturnedBlack good h n) : Returned good h n := by
  unfold ReturnedBlack at hn
  unfold Returned
  split at hn
  next hGood =>
    rw [if_pos hGood]
    exact hn
  next hGood =>
    rw [if_neg hGood]
    exact hn.1.blacken

theorem rbBalance_raised (addr key value : Word) (hRaised : Raised h left right) :
    ∃ n', rbBalance (node addr key value .black left right) = some n' ∧
      Deep (h + 1) n' ∧ Uneven n' := by
  obtain ⟨n', hBalance, -⟩ := rbBalance_spec (node addr key value .black left right)
  obtain ⟨k, hShift⟩ := shifted_rbBalance hBalance
  exact ⟨n', hBalance, hRaised.deep.shifted hShift, hRaised.uneven.shifted hShift⟩

/-- The repairs of a black node behind the return from its left child. -/
theorem rbBalance_returned_left (addr key value : Word) {colorR : Color} (hLeft : Returned good h left)
    (hRight : Balanced colorR h right) :
    ∃ n', rbBalance (node addr key value .black left.blacken right) = some n' ∧
      ReturnedBlack good (h + 1) n' := by
  by_cases hGood : good
  · rw [Returned, if_pos hGood] at hLeft
    obtain ⟨n', hBalance, hn'⟩ := rbBalance_black addr key value hLeft hRight
    rw [hLeft.blacken_eq]
    refine ⟨n', hBalance, ?_⟩
    rw [ReturnedBlack, if_pos hGood]
    simpa using hn'
  · rw [Returned, if_neg hGood] at hLeft
    obtain ⟨n', hBalance, hn'⟩ := rbBalance_raised addr key value (.inl ⟨colorR, hLeft, hRight⟩)
    refine ⟨n', hBalance, ?_⟩
    rw [ReturnedBlack, if_neg hGood]
    exact hn'

theorem rbBalance_returned_right (addr key value : Word) {colorL : Color} (hLeft : Balanced colorL h left)
    (hRight : Returned good h right) :
    ∃ n', rbBalance (node addr key value .black left right.blacken) = some n' ∧
      ReturnedBlack good (h + 1) n' := by
  by_cases hGood : good
  · rw [Returned, if_pos hGood] at hRight
    obtain ⟨n', hBalance, hn'⟩ := rbBalance_black addr key value hLeft hRight
    rw [hRight.blacken_eq]
    refine ⟨n', hBalance, ?_⟩
    rw [ReturnedBlack, if_pos hGood]
    simpa using hn'
  · rw [Returned, if_neg hGood] at hRight
    obtain ⟨n', hBalance, hn'⟩ := rbBalance_raised addr key value (.inr ⟨colorL, hLeft, hRight⟩)
    refine ⟨n', hBalance, ?_⟩
    rw [ReturnedBlack, if_neg hGood]
    exact hn'

end Return

section RemoveIt

variable {fuel : Nat} {key : Word}

/-- `remove_it` at a red node. -/
def RedSpec (fuel : Nat) (key : Word) : Prop :=
  ∀ {h : Nat} {n : RBNode}, Balanced .red h n → Ordered n.entries → n.size < fuel →
    PathSafe key n ∧ ∃ n' freed, removeIt fuel n key = some (n', freed) ∧
      Returned (merges key n) h n'

/-- `remove_it` at a black node with a red left child. -/
def ThreeSpec (fuel : Nat) (key : Word) : Prop :=
  ∀ {h : Nat} {n : RBNode}, Three h n → Ordered n.entries → n.size < fuel →
    PathSafe key n ∧ ∃ n' freed, removeIt fuel n key = some (n', freed) ∧
      ReturnedBlack (mergesBelow key n) h n'

/-- `remove_it` at a black node whose right child is red, where the way does not
go to the left. -/
def TurnedSpec (fuel : Nat) (key : Word) : Prop :=
  ∀ {h : Nat} {addr key' value : Word} {left right : RBNode}, Balanced .black h left →
    Balanced .red h right → key' ≤ key →
    Ordered (node addr key' value .black left right).entries →
    (node addr key' value .black left right).size < fuel →
    PathSafe key (node addr key' value .black left right) ∧
      ∃ n' freed, removeIt fuel (node addr key' value .black left right) key = some (n', freed) ∧
        ReturnedBlack (key = key' ∨ merges key right = true) (h + 1) n'

theorem redFromLeft_stay {addr key' value : Word} {color : Color} {left right : RBNode}
    (hLeft : left.isRed = false) :
    redFromLeft (node addr key' value color left right) =
      some (node addr key' value color left right) := by
  simp [redFromLeft, repairIf, hLeft]

theorem isTwo_of_red {h : Nat} {n : RBNode} (hn : Balanced .red h n) : n.isTwo = false := by
  simp [isTwo, hn.isRed_red]

theorem Balanced.ne_null_of_red {h : Nat} {n : RBNode} (hn : Balanced .red h n) : n ≠ .null := by
  cases hn
  simp

theorem threeSpec_succ (hRed : RedSpec fuel key) : ThreeSpec (fuel + 1) key := by
  intro h n hn hOrdered hFuel
  cases hn with
  | @mk h addr key' value left right hLeft hRight =>
      rw [size] at hFuel
      rcases lt_or_ge key key' with hKey | hKey
      · have hMove : redToLeft (node addr key' value .black left right) = _ :=
          redToLeft_stay (isTwo_of_red hLeft)
        obtain ⟨hSafe, left', freed, hRest, hLeft'⟩ := hRed hLeft hOrdered.left (by omega)
        obtain ⟨n', hBalance, hn'⟩ := rbBalance_returned_left addr key' value hLeft' hRight
        refine ⟨.goLeft hKey hLeft.ne_null_of_red hMove hSafe, n', freed,
          removeIt_goLeft hKey hLeft.ne_null_of_red hMove hRest hBalance, ?_⟩
        simpa only [mergesBelow, if_pos hKey] using hn'
      · cases hLeft with
        | @red h addrL keyL valueL leftL rightL hLL hLR =>
            have hKeyL : keyL < key' := hOrdered.lt_of_mem_left (a := (keyL, valueL)) (by simp [entries])
            have hTurn : redFromLeft (node addr key' value .black
                (node addrL keyL valueL .red leftL rightL) right) =
                some (node addrL keyL valueL .black leftL (node addr key' value .red rightL right)) :=
              rfl
            have hMove : redToRight (node addrL keyL valueL .black leftL
                (node addr key' value .red rightL right)) = _ := redToRight_stay rfl
            have hOrdered' := hOrdered
            rw [← entries_redFromLeft hTurn] at hOrdered'
            rw [size] at hFuel
            obtain ⟨hSafe, right', freed, hRest, hRight'⟩ := hRed (.red hLR hRight)
              hOrdered'.right (by rw [size]; omega)
            obtain ⟨n', hBalance, hn'⟩ := rbBalance_returned_right addrL keyL valueL hLL hRight'
            have hOther : key ≠ keyL := (hKeyL.trans_le hKey).ne'
            refine ⟨.goRight hKey hTurn (by simp) hMove hOther hSafe, n', freed,
              removeIt_goRight hKey hTurn (by simp) hMove hOther hRest hBalance, ?_⟩
            rw [mergesBelow, if_neg hKey.not_gt]
            exact hn'

theorem turnedSpec_succ (hRed : RedSpec fuel key) : TurnedSpec (fuel + 1) key := by
  intro h addr key' value left right hLeft hRight hKey hOrdered hFuel
  have hTurn : redFromLeft (node addr key' value .black left right) = _ :=
    redFromLeft_stay hLeft.isRed_black
  have hMove : redToRight (node addr key' value .black left right) = _ :=
    redToRight_stay (isTwo_of_red hRight)
  have hNull := hRight.ne_null_of_red
  rw [size] at hFuel
  by_cases hFound : key = key'
  · subst hFound
    obtain ⟨hSafe, right', freed, hRest, hRight'⟩ :=
      (removeMin_balanced fuel).1 hRight (by omega)
    obtain ⟨e, -, -, hMin, -⟩ := removeMin_spec hSafe (Nat.le_refl _) hOrdered.right
    obtain ⟨n', hBalance, hn'⟩ := rbBalance_black addr e.1 e.2 hLeft hRight'
    refine ⟨.replace hKey hTurn hNull hMove hSafe, n', freed,
      removeIt_replace hKey hTurn hNull hMove hMin hRest hBalance, ?_⟩
    rw [ReturnedBlack, if_pos (.inl rfl)]
    simpa using hn'
  · obtain ⟨hSafe, right', freed, hRest, hRight'⟩ := hRed hRight hOrdered.right (by omega)
    obtain ⟨n', hBalance, hn'⟩ := rbBalance_returned_right addr key' value hLeft hRight'
    refine ⟨.goRight hKey hTurn hNull hMove hFound hSafe, n', freed,
      removeIt_goRight hKey hTurn hNull hMove hFound hRest hBalance, ?_⟩
    simpa only [hFound, false_or] using hn'

/-- What comes back at a node with two black children of the height `h + 1`.
`two` says that nothing could be borrowed, so that the node was merged with its
children; `next` that the child comes back black then, and `child` that it does
not come back too high. -/
inductive Back (color : Color) (h : Nat) (two next child : Bool) : RBNode → Prop where
  | kept {addr key value : Word} {left right : RBNode} (hTwo : two = false) (hChild : child = true)
      (hLeft : Balanced .black (h + 1) left) (hRight : Balanced .black (h + 1) right) :
      Back color h two next child (node addr key value color left right)
  | raised {addr key value : Word} {left right : RBNode} (hTwo : two = false)
      (hChild : child = false) (hRaised : Raised (h + 1) left right) :
      Back color h two next child (node addr key value color left right)
  | merged {addr key value : Word} {colorL colorR : Color} {left right n' : RBNode}
      (hTwo : two = true) (hNext : next = !(colorL = .red && colorR = .red)) (hChild : child = true)
      (hLeft : Balanced colorL h left) (hRight : Balanced colorR h right)
      (hBalance : rbBalance (node addr key value color.flip left right) = some n') :
      Back color h two next child n'
  | mergedRaised {addr key value : Word} {left right n' : RBNode} (hTwo : two = true)
      (hNext : next = false) (hChild : child = false) (hRaised : Raised h left right)
      (hBalance : rbBalance (node addr key value color.flip left right) = some n') :
      Back color h two next child n'

section Back

variable {color : Color} {h : Nat} {two next child : Bool} {good : Prop} [Decidable good]
  {left right n' : RBNode}

/-- A child that had a red node to lose comes back. -/
theorem Back.of_left (addr key value : Word) (hTwo : two = false) (hChild : child = true ↔ good)
    (hLeft : ReturnedBlack good (h + 1) left) (hRight : Balanced .black (h + 1) right) :
    Back color h two next child (node addr key value color left.blacken right) := by
  rw [ReturnedBlack] at hLeft
  split at hLeft
  next hGood =>
    rw [hLeft.blacken_eq]
    exact .kept hTwo (hChild.mpr hGood) hLeft hRight
  next hGood =>
    have hNot := Bool.eq_false_of_not_eq_true fun hTrue => hGood (hChild.mp hTrue)
    exact .raised hTwo hNot (.inl ⟨.black, hLeft.1.blacken, hRight⟩)

theorem Back.of_right (addr key value : Word) (hTwo : two = false) (hChild : child = true ↔ good)
    (hLeft : Balanced .black (h + 1) left) (hRight : ReturnedBlack good (h + 1) right) :
    Back color h two next child (node addr key value color left right.blacken) := by
  rw [ReturnedBlack] at hRight
  split at hRight
  next hGood =>
    rw [hRight.blacken_eq]
    exact .kept hTwo (hChild.mpr hGood) hLeft hRight
  next hGood =>
    have hNot := Bool.eq_false_of_not_eq_true fun hTrue => hGood (hChild.mp hTrue)
    exact .raised hTwo hNot (.inr ⟨.black, hLeft, hRight.1.blacken⟩)

/-- A child that was merged with its parent comes back. -/
theorem Back.of_left_merged {addr key value : Word} (hTwo : two = true) (hNext : next = true ↔ good)
    (hChild : child = next) (hLeft : Returned good h left) (hRight : Balanced .red h right)
    (hBalance : rbBalance (node addr key value color.flip left.blacken right) = some n') :
    Back color h two next child n' := by
  rw [Returned] at hLeft
  split at hLeft
  next hGood =>
    have hYes := hNext.mpr hGood
    rw [hLeft.blacken_eq] at hBalance
    exact .merged hTwo (by simpa using hYes) (hChild.trans hYes) hLeft hRight hBalance
  next hGood =>
    have hNot := Bool.eq_false_of_not_eq_true fun hTrue => hGood (hNext.mp hTrue)
    exact .mergedRaised hTwo hNot (hChild.trans hNot) (.inl ⟨.red, hLeft, hRight⟩) hBalance

theorem Back.of_right_merged {addr key value : Word} (hTwo : two = true) (hNext : next = true ↔ good)
    (hChild : child = next) (hLeft : Balanced .red h left) (hRight : Returned good h right)
    (hBalance : rbBalance (node addr key value color.flip left right.blacken) = some n') :
    Back color h two next child n' := by
  rw [Returned] at hRight
  split at hRight
  next hGood =>
    have hYes := hNext.mpr hGood
    rw [hRight.blacken_eq] at hBalance
    exact .merged hTwo (by simpa using hYes) (hChild.trans hYes) hLeft hRight hBalance
  next hGood =>
    have hNot := Bool.eq_false_of_not_eq_true fun hTrue => hGood (hNext.mp hTrue)
    exact .mergedRaised hTwo hNot (hChild.trans hNot) (.inr ⟨.red, hLeft, hRight⟩) hBalance

end Back

theorem mergesChild_of_two {n : RBNode} (hNull : n ≠ null) (hTwo : n.left.isRed = false) :
    mergesChild key n = merges key n := by
  cases n with
  | null => exact absurd rfl hNull
  | node => simp_all [mergesChild, isNull]

theorem rbBalance_stay (addr key value : Word) (color : Color) {left right : RBNode}
    (hLeft : left.isRed = false) (hRight : right.isRed = false) :
    rbBalance (node addr key value color left right) =
      some (node addr key value color left right) := by
  rw [rbBalance_of_black hRight]
  exact repairLeft_of_even (by simp [hLeft]) hRight

section Step

variable {h : Nat} {color : Color} {addr key' value : Word} {left right : RBNode}

theorem removeIt_step_left (hRed : RedSpec fuel key) (hThree : ThreeSpec fuel key)
    (hLeft : Balanced .black (h + 1) left) (hRight : Balanced .black (h + 1) right)
    (hKey : key < key') (hOrdered : Ordered (node addr key' value color left right).entries)
    (hFuel : (node addr key' value color left right).size < fuel + 1) :
    PathSafe key (node addr key' value color left right) ∧
      ∃ n' freed, removeIt (fuel + 1) (node addr key' value color left right) key =
          some (n', freed) ∧
        Back color h (left.isTwo && right.isTwo) (merges key left) (mergesChild key left) n' := by
  have hNull := hLeft.ne_null
  rcases @redToLeft_cases h color addr key' value left right hLeft hRight with
    ⟨addr₁, key₁, value₁, left₁, right₁, hMove, hLeft₁, hRight₁, hTwo, hBelow⟩ |
    ⟨hMove, hLeft₁, hRight₁, hTwo⟩
  · have hSize := (size_children (entries_redToLeft hMove)).1
    rw [← entries_redToLeft hMove] at hOrdered
    obtain ⟨hSafe, left', freed, hRest, hLeft'⟩ := hThree hLeft₁ hOrdered.left (by omega)
    have hBalance := rbBalance_stay addr₁ key₁ value₁ color
      (isRed_blacken left') hRight₁.isRed_black
    refine ⟨.goLeft hKey hNull hMove hSafe, _, freed,
      removeIt_goLeft hKey hNull hMove hRest hBalance, ?_⟩
    rw [hBelow key hKey] at hLeft'
    exact .of_left addr₁ key₁ value₁ hTwo Iff.rfl hLeft' hRight₁
  · have hSize := (size_children (entries_redToLeft hMove)).1
    rw [← entries_redToLeft hMove] at hOrdered
    obtain ⟨hSafe, left', freed, hRest, hLeft'⟩ := hRed hLeft₁ hOrdered.left (by omega)
    obtain ⟨n', hBalance, -⟩ :=
      rbBalance_spec (node addr key' value color.flip left'.blacken right.redden)
    have hChild : mergesChild key left = merges key left := by
      rw [Bool.and_eq_true, isTwo, Bool.and_eq_true] at hTwo
      exact mergesChild_of_two hNull (by simpa using hTwo.1.2)
    refine ⟨.goLeft hKey hNull hMove hSafe, n', freed,
      removeIt_goLeft hKey hNull hMove hRest hBalance, ?_⟩
    rw [merges_redden] at hLeft'
    exact .of_left_merged hTwo Iff.rfl hChild hLeft' hRight₁ hBalance

theorem removeIt_step_right (hRed : RedSpec fuel key) (hThree : ThreeSpec fuel key)
    (hTurned : TurnedSpec fuel key) (hLeft : Balanced .black (h + 1) left)
    (hRight : Balanced .black (h + 1) right) (hKey : key' ≤ key)
    (hOrdered : Ordered (node addr key' value color left right).entries)
    (hFuel : (node addr key' value color left right).size < fuel + 1) :
    PathSafe key (node addr key' value color left right) ∧
      ∃ n' freed, removeIt (fuel + 1) (node addr key' value color left right) key =
          some (n', freed) ∧
        Back color h (left.isTwo && right.isTwo)
          (if key = key' then mergesMin right else merges key right)
          (if key = key' then true else mergesChild key right) n' := by
  have hNull := hRight.ne_null
  have hTurn : redFromLeft (node addr key' value color left right) = _ :=
    redFromLeft_stay hLeft.isRed_black
  rcases @redToRight_cases h color addr key' value left right hLeft hRight with
    ⟨hMove, hThree₁, hTwo⟩ |
    ⟨addr₁, key₁, value₁, left₁, middle, hMove, hLeft₁, hMiddle, hRight₁, hTwo, hOne⟩ |
    ⟨hMove, hLeft₁, hRight₁, hTwo⟩
  · -- the right child has a red node to lose
    rw [size] at hFuel
    by_cases hFound : key = key'
    · subst hFound
      obtain ⟨hSafe, right', freed, hRest, hRight'⟩ :=
        (removeMin_balanced fuel).2 hThree₁ (by omega)
      obtain ⟨e, -, -, hMin, -⟩ := removeMin_spec hSafe (Nat.le_refl _) hOrdered.right
      have hBalance := rbBalance_stay addr e.1 e.2 color hLeft.isRed_black hRight'.isRed_black
      exact ⟨.replace hKey hTurn hNull hMove hSafe, _, freed,
        removeIt_replace hKey hTurn hNull hMove hMin hRest hBalance,
        .kept hTwo (if_pos rfl) hLeft hRight'⟩
    · obtain ⟨hSafe, right', freed, hRest, hRight'⟩ := hThree hThree₁ hOrdered.right (by omega)
      have hBalance := rbBalance_stay addr key' value color hLeft.isRed_black (isRed_blacken right')
      refine ⟨.goRight hKey hTurn hNull hMove hFound hSafe, _, freed,
        removeIt_goRight hKey hTurn hNull hMove hFound hRest hBalance, ?_⟩
      have hChild : mergesChild key right = mergesBelow key right := by
        cases hThree₁ with
        | mk hRL hRR => simp [mergesChild, isNull, hRL.isRed_red]
      rw [if_neg hFound, if_neg hFound, hChild]
      exact .of_right addr key' value hTwo Iff.rfl hLeft hRight'
  · -- the left child gives its red node, and the node itself goes to the right
    have hSize := (size_children (entries_redToRight hMove)).2
    rw [← entries_redToRight hMove] at hOrdered
    have hOther : key ≠ key₁ :=
      ((hOrdered.lt_of_mem_right (a := (key', value)) (by simp [entries])).trans_le hKey).ne'
    obtain ⟨hSafe, right', freed, hRest, hRight'⟩ :=
      hTurned hMiddle hRight₁ hKey hOrdered.right (by omega)
    have hBalance := rbBalance_stay addr₁ key₁ value₁ color hLeft₁.isRed_black (isRed_blacken right')
    refine ⟨.goRight hKey hTurn hNull hMove hOther hSafe, _, freed,
      removeIt_goRight hKey hTurn hNull hMove hOther hRest hBalance, ?_⟩
    rw [merges_redden, ← mergesChild_of_two hNull hOne] at hRight'
    have hChild : (if key = key' then true else mergesChild key right) = true ↔
        key = key' ∨ mergesChild key right = true := by
      by_cases hFound : key = key'
      · simp [hFound]
      · simp [hFound]
    exact .of_right addr₁ key₁ value₁ hTwo hChild hLeft₁ hRight'
  · -- the node is merged with its children
    have hSize := (size_children (entries_redToRight hMove)).2
    rw [← entries_redToRight hMove] at hOrdered
    by_cases hFound : key = key'
    · subst hFound
      obtain ⟨hSafe, right', freed, hRest, hRight'⟩ :=
        (removeMin_balanced fuel).1 hRight₁ (by omega)
      obtain ⟨e, -, -, hMin, -⟩ := removeMin_spec hSafe (Nat.le_refl _) hOrdered.right
      obtain ⟨n', hBalance, -⟩ := rbBalance_spec (node addr e.1 e.2 color.flip left.redden right')
      refine ⟨.replace hKey hTurn hNull hMove hSafe, n', freed,
        removeIt_replace hKey hTurn hNull hMove hMin hRest hBalance,
        .merged hTwo ?_ (if_pos rfl) hLeft₁ hRight' hBalance⟩
      rw [if_pos rfl, mergesMin_redden]
      cases mergesMin right <;> rfl
    · obtain ⟨hSafe, right', freed, hRest, hRight'⟩ := hRed hRight₁ hOrdered.right (by omega)
      obtain ⟨n', hBalance, -⟩ :=
        rbBalance_spec (node addr key' value color.flip left.redden right'.blacken)
      have hChild : mergesChild key right = merges key right := by
        rw [Bool.and_eq_true, isTwo, isTwo, Bool.and_eq_true, Bool.and_eq_true] at hTwo
        exact mergesChild_of_two hNull (by simpa using hTwo.2.2)
      refine ⟨.goRight hKey hTurn hNull hMove hFound hSafe, n', freed,
        removeIt_goRight hKey hTurn hNull hMove hFound hRest hBalance, ?_⟩
      rw [if_neg hFound, if_neg hFound]
      rw [merges_redden] at hRight'
      exact .of_right_merged hTwo Iff.rfl hChild hLeft₁ hRight' hBalance

theorem Balanced.deep_blacken {n : RBNode} (hn : Balanced .red h n) : Deep h n.blacken := by
  cases hn with
  | red hLeft hRight => exact deep_blacken_red (.inl hLeft)

/-- A red node comes back black where it was merged and its child came back
black. -/
theorem Back.returned {two next child : Bool} {n' : RBNode}
    (hBack : Back .red h two next child n') : Returned (two && next) (h + 1) n' := by
  cases hBack with
  | kept hTwo hChild hLeft hRight =>
      rw [Returned, if_neg (by simp [hTwo])]
      exact deep_blacken_red (.inl hLeft)
  | raised hTwo hChild hRaised =>
      rw [Returned, if_neg (by simp [hTwo])]
      rcases hRaised with ⟨colorR, -, hRight⟩ | ⟨colorL, hLeft, -⟩
      · exact deep_blacken_red (.inr hRight)
      · exact deep_blacken_red (.inl hLeft)
  | @merged addr key value colorL colorR left right n' hTwo hNext hChild hLeft hRight hBalance =>
      obtain ⟨n'', hBalance', hn'⟩ := rbBalance_black addr key value hLeft hRight
      cases hBalance'.symm.trans hBalance
      unfold Returned
      split
      next hGood =>
        have hColors : ¬ (colorL = .red ∧ colorR = .red) :=
          not_and_or.mpr (by simpa [hTwo, hNext] using hGood)
        rwa [if_neg hColors] at hn'
      next hGood =>
        have hColors : colorL = .red ∧ colorR = .red := by
          simpa [hTwo, hNext] using hGood
        rw [if_pos hColors] at hn'
        exact hn'.deep_blacken
  | @mergedRaised addr key value left right n' hTwo hNext hChild hRaised hBalance =>
      obtain ⟨n'', hBalance', hDeep, -⟩ := rbBalance_raised addr key value hRaised
      cases hBalance'.symm.trans hBalance
      rw [Returned, if_neg (by simp [hNext])]
      exact hDeep.blacken

theorem removeIt_leaf (fuel : Nat) (key addr key' value : Word) (color : Color) :
    PathSafe key (node addr key' value color null null) ∧
      ∃ freed, removeIt (fuel + 1) (node addr key' value color null null) key =
        some (if key = key' then null else node addr key' value color null null, freed) := by
  have hTurn : redFromLeft (node addr key' value color null null) = _ := redFromLeft_stay rfl
  have hBalance : rbBalance (node addr key' value color null null) = _ :=
    rbBalance_stay addr key' value color rfl rfl
  rcases lt_trichotomy key key' with hKey | rfl | hKey
  · rw [if_neg hKey.ne]
    exact ⟨.absentLeft hKey, _, removeIt_absentLeft hKey hBalance⟩
  · rw [if_pos rfl]
    exact ⟨.free le_rfl hTurn, _, removeIt_free le_rfl hTurn⟩
  · rw [if_neg hKey.ne']
    exact ⟨.absentRight hKey.le hTurn hKey.ne', _,
      removeIt_absentRight hKey.le hTurn hKey.ne' hBalance⟩

theorem redSpec_succ (hRed : RedSpec fuel key) (hThree : ThreeSpec fuel key)
    (hTurned : TurnedSpec fuel key) : RedSpec (fuel + 1) key := by
  intro h n hn hOrdered hFuel
  cases hn with
  | @red h addr key' value left right hLeft hRight =>
      cases h with
      | zero =>
          cases hLeft
          cases hRight
          obtain ⟨hSafe, freed, hRemove⟩ := removeIt_leaf fuel key addr key' value .red
          refine ⟨hSafe, _, freed, hRemove, ?_⟩
          by_cases hFound : key = key'
          · rw [if_pos hFound, Returned, if_pos (by simp [merges, isNull, hFound])]
            exact .null
          · rw [if_neg hFound, Returned, if_neg (by simp [merges, isNull, hFound])]
            exact (Balanced.red .null .null).deep_blacken
      | succ h =>
          have hMerges : merges key (node addr key' value .red left right) =
              (left.isTwo && right.isTwo && if key < key' then merges key left
                else if key = key' then mergesMin right else merges key right) := by
            cases hLeft
            rfl
          rcases lt_or_ge key key' with hKey | hKey
          · obtain ⟨hSafe, n', freed, hRemove, hBack⟩ :=
              removeIt_step_left hRed hThree hLeft hRight hKey hOrdered hFuel
            refine ⟨hSafe, n', freed, hRemove, ?_⟩
            rw [hMerges, if_pos hKey]
            exact hBack.returned
          · obtain ⟨hSafe, n', freed, hRemove, hBack⟩ :=
              removeIt_step_right hRed hThree hTurned hLeft hRight hKey hOrdered hFuel
            refine ⟨hSafe, n', freed, hRemove, ?_⟩
            rw [hMerges, if_neg hKey.not_gt]
            exact hBack.returned

end Step

theorem removeIt_specs (fuel : Nat) (key : Word) :
    RedSpec fuel key ∧ ThreeSpec fuel key ∧ TurnedSpec fuel key := by
  induction fuel with
  | zero =>
      exact ⟨fun _ _ hFuel => absurd hFuel (Nat.not_lt_zero _),
        fun _ _ hFuel => absurd hFuel (Nat.not_lt_zero _),
        fun _ _ _ _ hFuel => absurd hFuel (Nat.not_lt_zero _)⟩
  | succ fuel ih =>
      obtain ⟨hRed, hThree, hTurned⟩ := ih
      exact ⟨redSpec_succ hRed hThree hTurned, threeSpec_succ hRed, turnedSpec_succ hRed⟩

end RemoveIt

section Root

variable {h : Nat}

/-- The root may be merged with its children, and it is blackened at the end. -/
theorem rbBalance_red (addr key value : Word) {colorL colorR : Color} {left right : RBNode}
    (hLeft : Balanced colorL h left) (hRight : Balanced colorR h right) :
    ∃ n' h', rbBalance (node addr key value .red left right) = some n' ∧
      Balanced .black h' n'.blacken := by
  cases colorR with
  | black => exact ⟨_, _, rbBalance_of_balanced hLeft hRight, .black hLeft hRight⟩
  | red =>
      cases hRight with
      | red hRL hRR =>
          rw [rbBalance_of_redRight]
          cases hLeft with
          | null =>
              exact ⟨_, _, repairLeft_of_even rfl hRR.isRed_black, .black (.red .null hRL) hRR⟩
          | black hLL hLR =>
              exact ⟨_, _, repairLeft_of_even rfl hRR.isRed_black,
                .black (.red (.black hLL hLR) hRL) hRR⟩
          | red hLL hLR =>
              exact ⟨_, _, repairLeft_redRed, .black (.black hLL hLR) (.black hRL hRR)⟩

theorem Back.root {two next child : Bool} {n' : RBNode} (hBack : Back .black h two next child n') :
    if child then ∃ h', Balanced .black h' n'.blacken else Uneven n' := by
  cases hBack with
  | kept hTwo hChild hLeft hRight =>
      rw [if_pos hChild]
      exact ⟨_, .black hLeft hRight⟩
  | raised hTwo hChild hRaised =>
      rw [if_neg (by simp [hChild])]
      exact hRaised.uneven
  | @merged addr key value colorL colorR left right n' hTwo hNext hChild hLeft hRight hBalance =>
      obtain ⟨n'', h', hBalance', hn'⟩ := rbBalance_red addr key value hLeft hRight
      cases hBalance'.symm.trans hBalance
      rw [if_pos hChild]
      exact ⟨h', hn'⟩
  | @mergedRaised addr key value left right n' hTwo hNext hChild hRaised hBalance =>
      obtain ⟨k, hShift⟩ := shifted_rbBalance hBalance
      rw [if_neg (by simp [hChild])]
      exact hRaised.uneven.shifted hShift

/-- `remove_it` at the root. -/
theorem removeIt_root (key : Word) {n : RBNode} (hn : Balanced .black h n) (hOrdered : Ordered n.entries) :
    PathSafe key n ∧ ∃ n' freed, removeIt (n.size + 1) n key = some (n', freed) ∧
      if keepsHeight key n then ∃ h', Balanced .black h' n'.blacken else Uneven n' := by
  obtain ⟨hRed, hThree, hTurned⟩ := removeIt_specs n.size key
  cases hn with
  | null => exact ⟨.null, _, _, rfl, 0, .null⟩
  | @black h colorL addr key' value left right hLeft hRight =>
      cases colorL with
      | red =>
          obtain ⟨hSafe, n', freed, hRemove, hn'⟩ :=
            (removeIt_specs _ key).2.1 (.mk hLeft hRight) hOrdered (Nat.lt_succ_self _)
          refine ⟨hSafe, n', freed, hRemove, ?_⟩
          rw [keepsHeight, if_pos hLeft.isRed_red]
          unfold ReturnedBlack at hn'
          split at hn'
          next hGood =>
            rw [if_pos hGood]
            exact hn'.blacken
          next hGood =>
            rw [if_neg hGood]
            exact hn'.2
      | black =>
          have hKeeps : keepsHeight key (node addr key' value .black left right) =
              if key < key' then mergesChild key left
                else if key = key' then true else mergesChild key right := by
            rw [keepsHeight, if_neg (by simp [hLeft.isRed_black])]
          cases h with
          | zero =>
              cases hLeft
              cases hRight
              obtain ⟨hSafe, freed, hRemove⟩ := removeIt_leaf 1 key addr key' value .black
              refine ⟨hSafe, _, freed, hRemove, ?_⟩
              rw [hKeeps, if_pos (by simp [mergesChild, isNull])]
              split
              · exact ⟨0, .null⟩
              · exact ⟨1, .black .null .null⟩
          | succ h =>
              rw [hKeeps]
              rcases lt_or_ge key key' with hKey | hKey
              · obtain ⟨hSafe, n', freed, hRemove, hBack⟩ :=
                  removeIt_step_left hRed hThree hLeft hRight hKey hOrdered (Nat.lt_succ_self _)
                refine ⟨hSafe, n', freed, hRemove, ?_⟩
                rw [if_pos hKey]
                exact hBack.root
              · obtain ⟨hSafe, n', freed, hRemove, hBack⟩ :=
                  removeIt_step_right hRed hThree hTurned hLeft hRight hKey hOrdered
                    (Nat.lt_succ_self _)
                refine ⟨hSafe, n', freed, hRemove, ?_⟩
                rw [if_neg hKey.not_gt]
                exact hBack.root

theorem rbDelete_root {tree : RBTree} (h : Llrb tree.root) (key : Word) :
    PathSafe key tree.root ∧ ∃ root freed, rbDelete tree key = some (⟨root.blacken⟩, freed) ∧
      if keepsHeight key tree.root then ∃ h', Balanced .black h' root.blacken else Uneven root := by
  obtain ⟨hOrdered, height, hBalanced⟩ := llrb_iff.mp h
  obtain ⟨hSafe, root, freed, hRemove, hRoot⟩ := removeIt_root key hBalanced hOrdered
  exact ⟨hSafe, root, freed, by simp [rbDelete, rbRemoveKeyNode, hRemove], hRoot⟩

end Root

/-- `rb_delete` keeps the left-leaning red-black invariants exactly where no
subtree below the root comes back red. -/
theorem rbDelete_keeps_llrb_iff {tree : RBTree} (h : Llrb tree.root) (key : Word) :
    (∃ tree' freed, rbDelete tree key = some (tree', freed) ∧ Llrb tree'.root) ↔
      keepsHeight key tree.root = true := by
  obtain ⟨hSafe, root, freed, hDelete, hRoot⟩ := rbDelete_root h key
  constructor
  · rintro ⟨tree', freed', hDelete', hLlrb⟩
    cases hDelete.symm.trans hDelete'
    obtain ⟨-, height, hBalanced⟩ := llrb_iff.mp hLlrb
    by_contra hKeeps
    rw [if_neg hKeeps] at hRoot
    exact hRoot.blacken.not_balanced hBalanced
  · intro hKeeps
    rw [if_pos hKeeps] at hRoot
    obtain ⟨tree', freed', hDelete', hEntries, -⟩ := rbDelete_spec h.ordered hSafe
    cases hDelete.symm.trans hDelete'
    refine ⟨_, _, hDelete, llrb_iff.mpr ⟨?_, hRoot⟩⟩
    rw [hEntries]
    exact h.ordered.erase key

/-- A tree of two keys, after the deletion of a key between them. -/
theorem rbDelete_keeps_llrb_iff_two :
    let tree : RBTree := ⟨node 0x1000 3 30 .black (node 0x2000 1 10 .red null null) null⟩
    (∃ tree' freed, rbDelete tree 1 = some (tree', freed) ∧ Llrb tree'.root) ↔
      keepsHeight 1 tree.root = true :=
  rbDelete_keeps_llrb_iff (llrb_iff.mpr ⟨by simp [entries, Ordered], 1,
    .black (.red .null .null) .null⟩) 1

/-- The deletion of an absent key blackens the red left child of the root. -/
theorem rbDelete_uneven :
    ¬ ∀ (tree : RBTree) (key : Word), Llrb tree.root →
      ∃ tree' freed, rbDelete tree key = some (tree', freed) ∧ Llrb tree'.root := by
  intro h
  obtain ⟨tree', freed, hDelete, hLlrb⟩ :=
    h ⟨node 0x1000 3 30 .black (node 0x2000 1 10 .red null null) null⟩ 2
      (llrb_iff.mpr ⟨by simp [entries, Ordered], 1, .black (.red .null .null) .null⟩)
  cases hDelete
  obtain ⟨height, hEven⟩ := hLlrb.even
  have hShort := hEven 1 (by decide)
  have hLong := hEven 2 (by decide)
  omega

/-- On the left-leaning red-black trees `rb_delete` ends, finds every node that
it flips, rotates or reads, takes the key away and nothing else, and frees one
node exactly where the key was there. -/
theorem rbDelete_of_llrb {tree : RBTree} (h : Llrb tree.root) (key : Word) :
    ∃ tree' freed, rbDelete tree key = some (tree', freed) ∧ Ordered tree'.root.entries ∧
      tree'.root.entries = erase key tree.root.entries ∧
      freed.length = (if get tree.root.entries key = none then 0 else 1) ∧
      (freed ++ tree'.root.addrs).Perm tree.root.addrs := by
  obtain ⟨tree', freed, hDelete, hEntries, hPerm⟩ :=
    rbDelete_spec h.ordered (rbDelete_root h key).1
  refine ⟨tree', freed, hDelete, hEntries ▸ h.ordered.erase key, hEntries, ?_, hPerm⟩
  have hNodes := hPerm.length_eq
  have hErase := h.ordered.length_erase key
  rw [List.length_append, length_addrs, length_addrs, hEntries] at hNodes
  omega

/-- Both children of the root are black, and the node of the key is a leaf. -/
theorem rbDelete_of_llrb_three :
    let tree : RBTree := ⟨node 0x2000 2 20 .black (node 0x1000 1 10 .black null null)
      (node 0x3000 3 30 .black null null)⟩
    ∃ tree' freed, rbDelete tree 1 = some (tree', freed) ∧ Ordered tree'.root.entries ∧
      tree'.root.entries = erase 1 tree.root.entries ∧
      freed.length = (if get tree.root.entries 1 = none then 0 else 1) ∧
      (freed ++ tree'.root.addrs).Perm tree.root.addrs :=
  rbDelete_of_llrb (llrb_iff.mpr ⟨by simp [entries, Ordered], 2,
    .black (.black .null .null) (.black .null .null)⟩) 1

end Kernel.Rbtree
