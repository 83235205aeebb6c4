import RiscvOs.Semantics.RadixTable
import Mathlib.Data.List.Induction
import Mathlib.Data.List.Nodup

/-! The tables below a table, each after the tables that it links to. In a tree
every table that a path of links reaches is visited exactly once. -/
namespace Semantics.Radix

variable {Node Index Value : Type*}

/-- What is visited for a cell. -/
def visit (below : Node → List Node) : Cell Node Value → List Node
  | .link next => below next
  | _ => []

/-- The tables of at most so many levels below a table, and the table itself. -/
def nodes (cells : Cells Node Index Value) (indices : List Index) : Nat → Node → List Node
  | 0 => fun _ => []
  | depth + 1 => fun n =>
      (indices.flatMap fun i => visit (nodes cells indices depth) (cells n i)) ++ [n]

/-- Every table is at the end of a path of links. -/
def Reached (cells : Cells Node Index Value) (root : Node) (owned : Set Node) : Prop :=
  ∀ n ∈ owned, ∃ p, walk cells root p = some n

variable {cells : Cells Node Index Value} {owned : Set Node} {path : Node → List Index}
  {depth k : Nat} {indices : List Index} {n x : Node}

theorem not_prefix_self (p : List Index) (i : Index) : ¬ p ++ [i] <+: p := by
  intro h
  have hLength := h.length_le
  rw [List.length_append, List.length_singleton] at hLength
  omega

/-- Two cells of one table are on different paths. -/
theorem eq_of_prefixes {p q : List Index} {i j : Index} (h : p ++ [i] <+: q)
    (h' : p ++ [j] <+: q) : i = j := by
  have hSame := (List.prefix_of_prefix_length_le h h' (by simp)).eq_of_length (by simp)
  exact List.singleton_inj.mp (List.append_cancel_left hSame)

theorem mem_visit {below : Node → List Node} {cell : Cell Node Value} (hx : x ∈ visit below cell) :
    ∃ next, cell = .link next ∧ x ∈ below next := by
  cases cell with
  | link next => exact ⟨next, rfl, hx⟩
  | empty => cases hx
  | leaf value => cases hx

namespace Tidy

/-- A visited table is owned, and its path goes on from the one of the table
above. -/
theorem of_mem_nodes (h : Tidy cells owned path depth) (hn : n ∈ owned)
    (hx : x ∈ nodes cells indices k n) : x ∈ owned ∧ path n <+: path x := by
  induction k generalizing n with
  | zero => cases hx
  | succ k ih =>
      rw [nodes, List.mem_append, List.mem_flatMap, List.mem_singleton] at hx
      rcases hx with ⟨i, -, hx⟩ | rfl
      · obtain ⟨next, hCell, hx⟩ := mem_visit hx
        obtain ⟨hOwned, hPath⟩ := ih (h.link_owned n hn i next hCell) hx
        rw [h.link_path n hn i next hCell] at hPath
        exact ⟨hOwned, (List.prefix_append _ _).trans hPath⟩
      · exact ⟨hn, List.prefix_rfl⟩

/-- What is visited for a cell lies behind the index of the cell. -/
theorem of_mem_visit (h : Tidy cells owned path depth) (hn : n ∈ owned) {i : Index}
    (hx : x ∈ visit (nodes cells indices k) (cells n i)) :
    x ∈ owned ∧ path n ++ [i] <+: path x := by
  obtain ⟨next, hCell, hx⟩ := mem_visit hx
  have hNext := h.of_mem_nodes (h.link_owned n hn i next hCell) hx
  rwa [h.link_path n hn i next hCell] at hNext

/-- No table is visited twice. -/
theorem nodes_nodup (h : Tidy cells owned path depth) (hIndices : indices.Nodup) (hn : n ∈ owned) :
    (nodes cells indices k n).Nodup := by
  induction k generalizing n with
  | zero => exact List.nodup_nil
  | succ k ih =>
      rw [nodes, List.nodup_append', List.nodup_flatMap]
      refine ⟨⟨fun i _ => ?_, ?_⟩, List.nodup_singleton _, ?_⟩
      · cases hCell : cells n i with
        | link next => exact ih (h.link_owned n hn i next hCell)
        | empty => exact List.nodup_nil
        | leaf value => exact List.nodup_nil
      · refine hIndices.imp fun hNe x hx hx' => hNe ?_
        exact eq_of_prefixes (h.of_mem_visit hn hx).2 (h.of_mem_visit hn hx').2
      · rintro x hx (_ | ⟨_, ⟨⟩⟩)
        rw [List.mem_flatMap] at hx
        obtain ⟨i, -, hx⟩ := hx
        exact not_prefix_self _ _ (h.of_mem_visit hn hx).2

/-- A table at the end of a path of links is visited. -/
theorem mem_nodes_of_walk (hIndices : ∀ i, i ∈ indices) {p : List Index} (hp : p.length < k)
    (hWalk : walk cells n p = some x) : x ∈ nodes cells indices k n := by
  induction k generalizing n p with
  | zero => omega
  | succ k ih =>
      rw [nodes, List.mem_append, List.mem_flatMap, List.mem_singleton]
      cases p with
      | nil =>
          cases hWalk
          exact .inr rfl
      | cons i rest =>
          simp only [walk] at hWalk
          refine .inl ⟨i, hIndices i, ?_⟩
          cases hCell : cells n i with
          | link next =>
              rw [hCell] at hWalk
              exact ih (Nat.lt_of_succ_lt_succ hp) hWalk
          | empty => simp [hCell] at hWalk
          | leaf value => simp [hCell] at hWalk

/-- Only the cells of owned tables matter for what can be reached. -/
theorem reached_congr {cells' : Cells Node Index Value} (h : Tidy cells owned path depth)
    (hRoot : n ∈ owned) (hSame : ∀ t ∈ owned, cells' t = cells t) (hReached : Reached cells n owned) :
    Reached cells' n owned := by
  intro t ht
  obtain ⟨p, hWalk⟩ := hReached t ht
  refine ⟨p, ?_⟩
  clear ht hReached
  induction p generalizing n with
  | nil => exact hWalk
  | cons i rest ih =>
      simp only [walk] at hWalk ⊢
      rw [hSame n hRoot]
      cases hCell : cells n i with
      | link next =>
          rw [hCell] at hWalk
          exact ih (h.link_owned n hRoot i next hCell) hWalk
      | empty => simp [hCell] at hWalk
      | leaf value => simp [hCell] at hWalk

/-- The path to a table has fewer indices than there are levels. -/
theorem walk_length (h : Tidy cells owned path depth) (hDepth : 0 < depth) (hn : n ∈ owned)
    (hPath : path n = []) {p : List Index} (hWalk : walk cells n p = some x) : p.length < depth := by
  cases p using List.reverseRecOn with
  | nil => exact hDepth
  | append_singleton p i =>
      rw [walk_append] at hWalk
      obtain ⟨t, hTable, hLast⟩ := Option.bind_eq_some_iff.mp hWalk
      obtain ⟨hOwned, hSame⟩ := h.walk_spec hn hTable
      rw [hPath, List.nil_append] at hSame
      cases hCell : cells t i with
      | link next =>
          have hAbove := h.link_above t hOwned i next hCell
          rw [hSame] at hAbove
          rwa [List.length_append, List.length_singleton]
      | empty => simp [walk, hCell] at hLast
      | leaf value => simp [walk, hCell] at hLast

/-- The visit from the root finds exactly the owned tables. -/
theorem mem_nodes_iff (h : Tidy cells owned path depth) (hDepth : 0 < depth) (hRoot : n ∈ owned)
    (hPath : path n = []) (hReached : Reached cells n owned) (hIndices : ∀ i, i ∈ indices)
    (hk : depth ≤ k) : x ∈ nodes cells indices k n ↔ x ∈ owned := by
  constructor
  · exact fun hx => (h.of_mem_nodes hRoot hx).1
  · intro hx
    obtain ⟨p, hWalk⟩ := hReached x hx
    have hp := h.walk_length hDepth hRoot hPath hWalk
    exact mem_nodes_of_walk hIndices (by omega) hWalk

end Tidy

end Semantics.Radix
