import RiscvOs.Semantics.Memory

/-! `rbtree.c`, the left-leaning red-black tree of the run queue. A tree is
a value whose nodes keep their addresses. A result `none` is a run that reads
or writes through a null pointer. -/
namespace Kernel.Rbtree

open Semantics

/-- `RB_TREE_COLOR_BLACK` and `RB_TREE_COLOR_RED` -/
inductive Color where
  | black
  | red
  deriving DecidableEq, Repr

/-- `!color` -/
def Color.flip : Color → Color
  | black => red
  | red => black

inductive RBNode where
  | null
  | node (addr key value : Word) (color : Color) (left right : RBNode)
  deriving DecidableEq, Repr

structure RBTree where
  root : RBNode
  deriving DecidableEq, Repr

namespace RBNode

def isRed : RBNode → Bool
  | null => false
  | node _ _ _ color _ _ => color = .red

def isNull : RBNode → Bool
  | null => true
  | node .. => false

/-- `node->left` behind a test that `node` is not null. -/
def left : RBNode → RBNode
  | null => null
  | node _ _ _ _ left _ => left

def right : RBNode → RBNode
  | null => null
  | node _ _ _ _ _ right => right

/-- `!node->color` -/
def flip : RBNode → Option RBNode
  | null => none
  | node addr key value color left right => some (node addr key value color.flip left right)

/-- `node->color = RB_TREE_COLOR_BLACK`, for a node that is not null. -/
def blacken : RBNode → RBNode
  | null => null
  | node addr key value _ left right => node addr key value .black left right

def size : RBNode → Nat
  | null => 0
  | node _ _ _ _ left right => left.size + right.size + 1

end RBNode

open RBNode

/-- 1, -1 or 0 -/
def keyCompare (key1 key2 : Word) : Int :=
  if key1 > key2 then 1
  else if key1 < key2 then -1
  else 0

def flipColor : RBNode → Option RBNode
  | null => none
  | node addr key value color left right => do
      let left' ← left.flip
      let right' ← right.flip
      some (node addr key value color.flip left' right')

def rotateLeft : RBNode → Option RBNode
  | null => some null
  | node _ _ _ _ _ null => none
  | node addr key value color left (node addr' key' value' _ left' right') =>
      some (node addr' key' value' color (node addr key value .red left left') right')

def rotateRight : RBNode → Option RBNode
  | null => some null
  | node _ _ _ _ null _ => none
  | node addr key value color (node addr' key' value' _ left' right') right =>
      some (node addr' key' value' color left' (node addr key value .red right' right))

/-- `page` is the answer of `cpage_znalloc(1)`. -/
def createNode (page key value : Word) : RBNode :=
  if page = 0 then null else node page key value .red null null

/-- `if (test) node = f(node)` -/
def repairIf (test : Bool) (f : RBNode → Option RBNode) (n : RBNode) : Option RBNode :=
  if test then f n else some n

/-- The last two repairs, which `insert_this` and `rb_balance` share. -/
def repairLeft (n : RBNode) : Option RBNode := do
  let n ← repairIf (n.left.isRed && n.left.left.isRed) rotateRight n
  repairIf (n.left.isRed && n.right.isRed) flipColor n

/-- The repairs behind the descent of `insert_this`. -/
def insertBalance (n : RBNode) : Option RBNode := do
  let n ← repairIf (n.right.isRed && !n.left.isRed) rotateLeft n
  repairLeft n

def insertThis (page : Word) : RBNode → Word → Word → Option RBNode
  | null, key, value => some (createNode page key value)
  | node addr key' value' color left right, key, value =>
      let res := keyCompare key key'
      if res = 0 then insertBalance (node addr key' value color left right)
      else if res < 0 then do
        let left' ← insertThis page left key value
        insertBalance (node addr key' value' color left' right)
      else do
        let right' ← insertThis page right key value
        insertBalance (node addr key' value' color left right')

/-- The node itself, as the key and the value read from it. -/
def min : RBNode → Option (Word × Word)
  | null => none
  | node _ key value _ null _ => some (key, value)
  | node _ _ _ _ left _ => min left

def rbBalance (n : RBNode) : Option RBNode := do
  let n ← repairIf n.right.isRed rotateLeft n
  repairLeft n

def moveRedToLeft (n : RBNode) : Option RBNode :=
  match flipColor n with
  | none => none
  | some null => some null
  | some (node addr key value color left right) =>
      if right.left.isRed then do
        let right' ← rotateRight right
        let n ← rotateLeft (node addr key value color left right')
        flipColor n
      else some (node addr key value color left right)

def moveRedToRight (n : RBNode) : Option RBNode := do
  let n ← flipColor n
  if n.left.left.isRed then do
    let n ← rotateRight n
    flipColor n
  else some n

/-- `if (!is_red(node->left) && !is_red(node->left->left)) node = move_red_to_left(node)` -/
def redToLeft (n : RBNode) : Option RBNode :=
  repairIf (!n.left.isRed && !n.left.left.isRed) moveRedToLeft n

/-- `if (!is_red(node->right) && !is_red(node->right->left)) node = move_red_to_right(node)` -/
def redToRight (n : RBNode) : Option RBNode :=
  repairIf (!n.right.isRed && !n.right.left.isRed) moveRedToRight n

/-- `if (is_red(node->left)) node = rotate_right(node)` -/
def redFromLeft (n : RBNode) : Option RBNode :=
  repairIf n.left.isRed rotateRight n

/-- A tree and the addresses given to `kfree`. -/
abbrev Removal := RBNode × List Word

/-- The fuel bounds the depth of the recursion. -/
def removeMin : Nat → RBNode → Option Removal
  | 0, _ => none
  | _ + 1, null => some (null, [])
  | _ + 1, node addr _ _ _ null _ => some (null, [addr])
  | fuel + 1, n => do
      match ← redToLeft n with
      | null => none
      | node addr key value color left right => do
          let (left', freed) ← removeMin fuel left
          let n ← rbBalance (node addr key value color left' right)
          some (n, freed)

/-- The recursive calls go through `rb_remove_key_node`, which blackens the
tree that `remove_it` returns. -/
def removeIt : Nat → RBNode → Word → Option Removal
  | 0, _, _ => none
  | _ + 1, null, _ => some (null, [])
  | fuel + 1, node addr key' value color left right, key =>
      if keyCompare key key' = -1 then
        if left.isNull then do
          let n ← rbBalance (node addr key' value color left right)
          some (n, [])
        else do
          match ← redToLeft (node addr key' value color left right) with
          | null => none
          | node addr key' value color left right => do
              let (left', freed) ← removeIt fuel left key
              let n ← rbBalance (node addr key' value color left'.blacken right)
              some (n, freed)
      else do
        match ← redFromLeft (node addr key' value color left right) with
        | null => none
        | node addr key' value color left right =>
            if keyCompare key key' = 0 && right.isNull then some (null, [addr])
            else if right.isNull then do
              let n ← rbBalance (node addr key' value color left right)
              some (n, [])
            else do
              match ← redToRight (node addr key' value color left right) with
              | null => none
              | node addr key' value color left right =>
                  if keyCompare key key' = 0 then do
                    let (minKey, minValue) ← min right
                    let (right', freed) ← removeMin fuel right
                    let n ← rbBalance (node addr minKey minValue color left right')
                    some (n, freed)
                  else do
                    let (right', freed) ← removeIt fuel right key
                    let n ← rbBalance (node addr key' value color left right'.blacken)
                    some (n, freed)

def rbRemoveKeyNode (fuel : Nat) (n : RBNode) (key : Word) : Option Removal := do
  let (n', freed) ← removeIt fuel n key
  some (n'.blacken, freed)

def rbInsert (page : Word) (tree : RBTree) (key value : Word) : Option RBTree := do
  let root ← insertThis page tree.root key value
  some ⟨root.blacken⟩

/-- The loop of `rb_find`. -/
def findLoop (key : Word) : RBNode → Option Word
  | null => none
  | node _ key' value _ left right =>
      let cmp := keyCompare key key'
      if cmp = 0 then some value
      else if cmp < 0 then findLoop key left
      else findLoop key right

/-- `some value` is the result `true`. -/
def rbFind (tree : RBTree) (key : Word) : Option Word :=
  findLoop key tree.root

def rbDelete (tree : RBTree) (key : Word) : Option (RBTree × List Word) := do
  let (root, freed) ← rbRemoveKeyNode (tree.root.size + 1) tree.root key
  some (⟨root⟩, freed)

/-- The addresses that `rb_erase_node` gives to `kfree`. -/
def rbEraseNode : RBNode → List Word
  | null => []
  | node addr _ _ _ left right => rbEraseNode left ++ rbEraseNode right ++ [addr]

def rbFree (tree : RBTree) : RBTree × List Word :=
  (⟨null⟩, rbEraseNode tree.root)

end Kernel.Rbtree
