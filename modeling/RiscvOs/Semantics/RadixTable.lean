import Mathlib.Data.Set.Insert

/-! Tables of cells that are empty, link to a further table or hold a value,
such as page tables. A lookup follows one index of a path at each table. The
tables may live in any store; only their cells are looked at. -/
namespace Semantics.Radix

variable {Node Index Value : Type*}

inductive Cell (Node Value : Type*) where
  | empty
  | link (next : Node)
  | leaf (value : Value)

abbrev Cells (Node Index Value : Type*) := Node → Index → Cell Node Value

/-- The value at the end of the path. -/
def find (cells : Cells Node Index Value) (node : Node) : List Index → Option Value
  | [] => none
  | i :: rest =>
      match cells node i with
      | .empty => none
      | .link next => find cells next rest
      | .leaf value => if rest.isEmpty then some value else none

/-- The table at the end of a path of links. -/
def walk (cells : Cells Node Index Value) (node : Node) : List Index → Option Node
  | [] => some node
  | i :: rest =>
      match cells node i with
      | .link next => walk cells next rest
      | _ => none

/-- The owned tables form a tree: a link leads to the table whose path is one
index longer, and values are found in the tables of the last level only. -/
structure Tidy (cells : Cells Node Index Value) (owned : Set Node) (path : Node → List Index)
    (depth : Nat) : Prop where
  link_owned : ∀ n ∈ owned, ∀ i next, cells n i = .link next → next ∈ owned
  link_path : ∀ n ∈ owned, ∀ i next, cells n i = .link next → path next = path n ++ [i]
  link_above : ∀ n ∈ owned, ∀ i next, cells n i = .link next → (path n).length + 1 < depth
  leaf_bottom : ∀ n ∈ owned, ∀ i value, cells n i = .leaf value → (path n).length + 1 = depth

/-- Among the owned tables, only this cell has changed. -/
def ChangedAt (cells cells' : Cells Node Index Value) (owned : Set Node) (node : Node)
    (i : Index) : Prop :=
  ∀ n ∈ owned, ∀ j, ¬ (n = node ∧ j = i) → cells' n j = cells n j

section Walk

variable {cells cells' : Cells Node Index Value}

theorem walk_append (node : Node) (p q : List Index) :
    walk cells node (p ++ q) = (walk cells node p).bind (walk cells · q) := by
  induction p generalizing node with
  | nil => rfl
  | cons i rest ih =>
      simp only [List.cons_append, walk]
      cases cells node i with
      | link next => exact ih next
      | empty => rfl
      | leaf value => rfl

theorem find_append {node next : Node} {p : List Index} (q : List Index)
    (hWalk : walk cells node p = some next) : find cells node (p ++ q) = find cells next q := by
  induction p generalizing node with
  | nil =>
      cases hWalk
      rfl
  | cons i rest ih =>
      simp only [walk] at hWalk
      simp only [List.cons_append, find]
      cases hCell : cells node i with
      | link child =>
          rw [hCell] at hWalk
          exact ih hWalk
      | empty => simp [hCell] at hWalk
      | leaf value => simp [hCell] at hWalk

/-- A value is found behind a path of links. -/
theorem walk_of_find {node : Node} {p : List Index} {i : Index} {value : Value}
    (hFind : find cells node (p ++ [i]) = some value) : ∃ next, walk cells node p = some next := by
  induction p generalizing node with
  | nil => exact ⟨node, rfl⟩
  | cons j rest ih =>
      simp only [List.cons_append, find] at hFind
      simp only [walk]
      cases hCell : cells node j with
      | empty => simp [hCell] at hFind
      | link next =>
          rw [hCell] at hFind
          exact ih hFind
      | leaf value => simp [hCell] at hFind

end Walk

namespace Tidy

variable {cells cells' : Cells Node Index Value} {owned : Set Node} {path : Node → List Index}
  {depth : Nat} {node : Node} {i : Index}

/-- Lookups read cells of owned tables only. -/
theorem find_congr (h : Tidy cells owned path depth) (hSame : ∀ n ∈ owned, cells' n = cells n)
    {n : Node} (hn : n ∈ owned) (q : List Index) : find cells' n q = find cells n q := by
  induction q generalizing n with
  | nil => rfl
  | cons j rest ih =>
      simp only [find, hSame n hn]
      cases hCell : cells n j with
      | empty => rfl
      | link next => exact ih (h.link_owned n hn j next hCell)
      | leaf value => rfl

theorem walk_congr (h : Tidy cells owned path depth) (hSame : ∀ n ∈ owned, cells' n = cells n)
    {n : Node} (hn : n ∈ owned) (q : List Index) : walk cells' n q = walk cells n q := by
  induction q generalizing n with
  | nil => rfl
  | cons j rest ih =>
      simp only [walk, hSame n hn]
      cases hCell : cells n j with
      | empty => rfl
      | link next => exact ih (h.link_owned n hn j next hCell)
      | leaf value => rfl

theorem congr (h : Tidy cells owned path depth) (hSame : ∀ n ∈ owned, cells' n = cells n) :
    Tidy cells' owned path depth := by
  refine ⟨?_, ?_, ?_, ?_⟩ <;> intro n hn <;> rw [hSame n hn]
  · exact h.link_owned n hn
  · exact h.link_path n hn
  · exact h.link_above n hn
  · exact h.leaf_bottom n hn

/-- Where a path of links leads from an owned table. -/
theorem walk_spec (h : Tidy cells owned path depth) {n next : Node} (hn : n ∈ owned)
    {p : List Index} (hWalk : walk cells n p = some next) :
    next ∈ owned ∧ path next = path n ++ p := by
  induction p generalizing n with
  | nil =>
      cases hWalk
      exact ⟨hn, by simp⟩
  | cons j rest ih =>
      simp only [walk] at hWalk
      cases hCell : cells n j with
      | link child =>
          rw [hCell] at hWalk
          obtain ⟨hOwned, hPath⟩ := ih (h.link_owned n hn j child hCell) hWalk
          refine ⟨hOwned, ?_⟩
          rw [hPath, h.link_path n hn j child hCell, List.append_assoc]
          rfl
      | empty => simp [hCell] at hWalk
      | leaf value => simp [hCell] at hWalk

/-- A walk survives a change at a cell that is not a link. -/
theorem walk_changedAt (h : Tidy cells owned path depth)
    (hChanged : ChangedAt cells cells' owned node i) (hNoLink : ∀ next, cells node i ≠ .link next)
    {n next : Node} (hn : n ∈ owned) {p : List Index} (hWalk : walk cells n p = some next) :
    walk cells' n p = some next := by
  induction p generalizing n with
  | nil => exact hWalk
  | cons j rest ih =>
      simp only [walk] at hWalk ⊢
      cases hCell : cells n j with
      | link child =>
          have hOther : ¬ (n = node ∧ j = i) := by
            rintro ⟨rfl, rfl⟩
            exact hNoLink child hCell
          rw [hChanged n hn j hOther, hCell]
          rw [hCell] at hWalk
          exact ih (h.link_owned n hn j child hCell) hWalk
      | empty => simp [hCell] at hWalk
      | leaf value => simp [hCell] at hWalk

section Extend

variable {next : Node} (h : Tidy cells owned path depth)
  (hChanged : ChangedAt cells cells' owned node i) (hLink : cells' node i = .link next)
  (hEmpty : ∀ j, cells' next j = .empty)
include h hChanged hLink hEmpty

/-- An empty cell above the last level becomes a link to an empty table that
was not owned; the other tables keep their paths. -/
theorem extend (hNode : node ∈ owned) (hNew : next ∉ owned)
    (hAbove : (path node).length + 1 < depth) :
    ∃ path', Tidy cells' (insert next owned) path' depth ∧ ∀ n ∈ owned, path' n = path n := by
  classical
  have hPath (n : Node) (hn : n ∈ owned) :
      Function.update path next (path node ++ [i]) n = path n :=
    Function.update_of_ne (fun hEq : n = next => hNew (hEq ▸ hn)) _ _
  have hCases (n : Node) (hn : n ∈ insert next owned) (j : Index) :
      cells' n j = .empty ∨ (n = node ∧ j = i) ∨ (n ∈ owned ∧ cells' n j = cells n j) := by
    rcases hn with rfl | hn
    · exact .inl (hEmpty j)
    · by_cases hAt : n = node ∧ j = i
      · exact .inr (.inl hAt)
      · exact .inr (.inr ⟨hn, hChanged n hn j hAt⟩)
  refine ⟨Function.update path next (path node ++ [i]), ⟨?_, ?_, ?_, ?_⟩, hPath⟩ <;> intro n hn j <;>
    rcases hCases n hn j with hNone | ⟨rfl, rfl⟩ | ⟨hOwned, hSame⟩
  · simp [hNone]
  · rintro child hCell
    rw [hLink] at hCell
    cases hCell
    exact Set.mem_insert _ _
  · rw [hSame]
    exact fun child hCell => Set.mem_insert_of_mem _ (h.link_owned n hOwned j child hCell)
  · simp [hNone]
  · rintro child hCell
    rw [hLink] at hCell
    cases hCell
    rw [Function.update_self, hPath n hNode]
  · rw [hSame]
    intro child hCell
    rw [hPath n hOwned, hPath child (h.link_owned n hOwned j child hCell)]
    exact h.link_path n hOwned j child hCell
  · simp [hNone]
  · rintro child hCell
    rwa [hPath n hNode]
  · rw [hSame, hPath n hOwned]
    exact h.link_above n hOwned j
  · simp [hNone]
  · simp [hLink]
  · rw [hSame, hPath n hOwned]
    exact h.leaf_bottom n hOwned j

/-- A new table is empty, so no lookup notices it. -/
theorem find_extend (hOld : cells node i = .empty) {n : Node} (hn : n ∈ owned) (q : List Index) :
    find cells' n q = find cells n q := by
  induction q generalizing n with
  | nil => rfl
  | cons j rest ih =>
      by_cases hAt : n = node ∧ j = i
      · obtain ⟨rfl, rfl⟩ := hAt
        cases rest with
        | nil => simp [find, hLink, hOld]
        | cons k rest => simp [find, hLink, hOld, hEmpty]
      · simp only [find, hChanged n hn j hAt]
        cases hCell : cells n j with
        | empty => rfl
        | link child => exact ih (h.link_owned n hn j child hCell)
        | leaf value => rfl

end Extend

section SetLeaf

variable {value : Value} (h : Tidy cells owned path depth)
  (hChanged : ChangedAt cells cells' owned node i) (hLeaf : cells' node i = .leaf value)
  (hBottom : (path node).length + 1 = depth)
include h hChanged hLeaf hBottom

/-- A cell of the last level gets a value. -/
theorem setLeaf : Tidy cells' owned path depth := by
  have hCases (n : Node) (hn : n ∈ owned) (j : Index) :
      (n = node ∧ j = i) ∨ cells' n j = cells n j := by
    by_cases hAt : n = node ∧ j = i
    · exact .inl hAt
    · exact .inr (hChanged n hn j hAt)
  refine ⟨?_, ?_, ?_, ?_⟩ <;> intro n hn j <;> rcases hCases n hn j with ⟨rfl, rfl⟩ | hSame
  · simp [hLeaf]
  · rw [hSame]
    exact h.link_owned n hn j
  · simp [hLeaf]
  · rw [hSame]
    exact h.link_path n hn j
  · simp [hLeaf]
  · rw [hSame]
    exact h.link_above n hn j
  · exact fun _ _ => hBottom
  · rw [hSame]
    exact h.leaf_bottom n hn j

/-- Paths that do not end at the cell keep their values. -/
theorem find_setLeaf_of_ne (hNode : node ∈ owned) {n : Node} (hn : n ∈ owned) (q : List Index)
    (hOther : path n ++ q ≠ path node ++ [i]) : find cells' n q = find cells n q := by
  induction q generalizing n with
  | nil => rfl
  | cons j rest ih =>
      by_cases hAt : n = node ∧ j = i
      · obtain ⟨rfl, rfl⟩ := hAt
        have hRest : rest ≠ [] := fun hNil => hOther (by rw [hNil])
        have hNoLink (next : Node) : cells n j ≠ .link next := fun hCell => by
          have := h.link_above n hNode j next hCell
          omega
        cases hCell : cells n j with
        | empty => simp [find, hLeaf, hCell, hRest]
        | link next => exact absurd hCell (hNoLink next)
        | leaf old => simp [find, hLeaf, hCell, hRest]
      · simp only [find, hChanged n hn j hAt]
        cases hCell : cells n j with
        | empty => rfl
        | leaf old => rfl
        | link next =>
            refine ih (h.link_owned n hn j next hCell) ?_
            rw [h.link_path n hn j next hCell, List.append_assoc]
            exact hOther

/-- The lookup as a function update. -/
theorem find_setLeaf [DecidableEq Index] {root : Node} (hRoot : root ∈ owned)
    (hRootPath : path root = []) {p : List Index} (hWalk : walk cells root p = some node)
    (q : List Index) :
    find cells' root q = if q = p ++ [i] then some value else find cells root q := by
  obtain ⟨hNode, hPath⟩ := h.walk_spec hRoot hWalk
  rw [hRootPath, List.nil_append] at hPath
  split
  next hSame =>
    have hNoLink (next : Node) : cells node i ≠ .link next := fun hCell => by
      have := h.link_above node hNode i next hCell
      omega
    rw [hSame, find_append [i] (h.walk_changedAt hChanged hNoLink hRoot hWalk)]
    simp [find, hLeaf]
  next hOther =>
    refine h.find_setLeaf_of_ne hChanged hLeaf hBottom hNode hRoot q ?_
    rwa [hRootPath, hPath, List.nil_append]

end SetLeaf

end Tidy

end Semantics.Radix
