import RiscvOs.Kernel.Process
import RiscvOs.Kernel.RbtreeRuns
import Mathlib.Logic.Function.Basic

/-! `p_scheduling.c`, the run queue. The functions that change the queue pass
the address of the pointer `p_scheduling_tree` to `rb_insert` and `rb_delete`,
which take the pointer itself for the field `root`. `schedule_find_next` takes
the pointer for the address of an `RBTree` and reads its field `root`: that is
where the root node has its key. A result `none` is a run that reads through
a pointer to no node of the tree or to no process; what such a read may find is
up to the steps below. -/
namespace Kernel.Scheduling

open Semantics Function Rbtree RBNode

/-- `p_scheduling_tree`, the processes by their addresses, and `p_current`. -/
structure Sched where
  tree : RBTree
  procs : Word → Process
  current : Nat → Word

/-- `p_scheduling_tree = rb_new()`: the zeroed pages, read as a node. -/
def rbNew (page : Word) : RBTree :=
  if page = 0 then ⟨null⟩ else ⟨node page 0 0 .black null null⟩

/-- `scheduling_init(1)` -/
def schedulingInit (page : Word) (s : Sched) : Sched :=
  { s with tree := rbNew page }

/-- The node at an address. -/
def nodeAt (a : Word) : RBNode → Option RBNode
  | null => none
  | node addr key value color left right =>
      if addr = a then some (node addr key value color left right)
      else (nodeAt a left).or (nodeAt a right)

/-- `p_scheduling_tree->root`: the key of the root, as an address. -/
def rootField : RBNode → Option Word
  | null => none
  | node _ key _ _ _ _ => some key

/-- `schedule_find_next` on the given hart at the given time, up to its test
of the process. -/
def leftmostValue (s : Sched) : Option Word := do
  let temp ← rootField s.tree.root
  let temp ← nodeAt temp s.tree.root
  let (_, value) ← min temp
  if value = 0 then none else some value

/-- `schedule_find_next` from its test of the process that it came to. -/
def takeNext (hart : Nat) (time p : Word) (s : Sched) : Option (Word × Sched) := do
  if (s.procs p).state = .running then
    let process := { s.procs p with startTime := time, hartNum := hart }
    let (tree, _) ← rbDelete s.tree process.vRuntime
    some (p, { tree, procs := update s.procs p process, current := update s.current hart p })
  else some (0, s)

/-- The process, or `NULL` as 0. -/
def scheduleFindNext (hart : Nat) (time : Word) (s : Sched) : Option (Word × Sched) := do
  let p ← leftmostValue s
  takeNext hart time p s

/-- The walk of `schedule_find_next` begins at a node of the tree. -/
def Begins (s : Sched) : Prop :=
  ∃ a u, rootField s.tree.root = some a ∧ nodeAt a s.tree.root = some u

/-- The walk begins at an address where the tree has no node. The memory there may
be a node that `rb_delete` has freed, or anything else. -/
def Strays (s : Sched) : Prop :=
  ∃ a, rootField s.tree.root = some a ∧ a ≠ 0 ∧ nodeAt a s.tree.root = none

/-- `page` is the answer of `cpage_znalloc(1)` to `create_node`. -/
def scheduleAdd (page p : Word) (s : Sched) : Option Sched := do
  let process := { s.procs p with state := .running }
  let tree ← rbInsert page s.tree process.vRuntime p
  some { s with tree, procs := update s.procs p process }

def scheduleRemove (p : Word) (s : Sched) : Option Sched := do
  let (tree, _) ← rbDelete s.tree (s.procs p).vRuntime
  some { s with tree }

/-- The entries of the queue by their keys. -/
def Sched.lookup (s : Sched) (key : Word) : Option Word :=
  SortedMap.get s.tree.root.entries key

/-- A process is the value of a node of the tree. -/
def InTree (s : Sched) (p : Word) : Prop :=
  p ≠ 0 ∧ ∃ key, s.lookup key = some p

/-- The walk of `schedule_find_next` ends at a node with this entry. -/
def Found (s : Sched) (key p : Word) : Prop :=
  ∃ a u, rootField s.tree.root = some a ∧ nodeAt a s.tree.root = some u ∧ min u = some (key, p)

theorem Begins.not_strays {s : Sched} (h : Begins s) : ¬ Strays s := by
  obtain ⟨a, u, hRoot, hNode⟩ := h
  rintro ⟨b, hRoot', -, hNone⟩
  obtain rfl := Option.some.inj (hRoot.symm.trans hRoot')
  cases hNode.symm.trans hNone

/-- The deletion of the process that `schedule_find_next` finds takes a safe
way. -/
def WalkSafe (s : Sched) : Prop :=
  ∀ key p, Found s key p → p ≠ 0 → PathSafe key s.tree.root

/-- The node at an address is on the way to the least key. -/
def LeftSpine (a : Word) : RBNode → Prop
  | null => False
  | node addr _ _ _ left _ => addr = a ∨ LeftSpine a left

/-- The key of the root happens to be the address of a node on the way to the
least key, which belongs to a process. -/
structure FindSafe (s : Sched) : Prop where
  walk : WalkSafe s
  root : ∃ a, rootField s.tree.root = some a ∧ LeftSpine a s.tree.root
  least : ∃ key p, min s.tree.root = some (key, p) ∧ p ≠ 0

end Kernel.Scheduling
