import Mathlib.Data.List.Nodup
import Mathlib.Logic.Function.Basic

/-! Singly linked lists that end in a null address. The links may be fields of
nodes in any store; only what they return for the nodes of the chain matters. -/
namespace Semantics

open Function

variable {Node : Type*}

/-- From the address the links lead through the nodes to the null address. -/
def Chain (next : Node → Node) (null : Node) : Node → List Node → Prop
  | a, [] => a = null
  | a, x :: rest => a = x ∧ x ≠ null ∧ Chain next null (next x) rest

namespace Chain

variable {next next' : Node → Node} {null a x : Node} {nodes nodes' : List Node}

theorem nil : Chain next null null [] :=
  rfl

/-- A new first node. -/
theorem cons (h : Chain next null (next x) nodes) (hx : x ≠ null) :
    Chain next null x (x :: nodes) :=
  ⟨rfl, hx, h⟩

/-- The address is null exactly for the empty chain. -/
theorem eq_null_iff (h : Chain next null a nodes) : a = null ↔ nodes = [] := by
  cases nodes with
  | nil => exact ⟨fun _ => rfl, fun _ => h⟩
  | cons x rest =>
      refine ⟨fun hNull => ?_, nofun⟩
      exact absurd (h.1.symm.trans hNull) h.2.1

/-- Links that agree on the nodes of the chain. -/
theorem congr (h : Chain next null a nodes) (hSame : ∀ y ∈ nodes, next' y = next y) :
    Chain next' null a nodes := by
  induction nodes generalizing a with
  | nil => exact h
  | cons x rest ih =>
      refine ⟨h.1, h.2.1, ?_⟩
      rw [hSame x List.mem_cons_self]
      exact ih h.2.2 (fun y hy => hSame y (List.mem_cons_of_mem _ hy))

/-- The address determines the chain. -/
theorem unique (h : Chain next null a nodes) (h' : Chain next null a nodes') :
    nodes = nodes' := by
  induction nodes generalizing a nodes' with
  | nil => exact (h'.eq_null_iff.mp h).symm
  | cons x rest ih =>
      cases nodes' with
      | nil => exact absurd (h.1.symm.trans h') h.2.1
      | cons y rest' =>
          obtain ⟨rfl, -, hRest⟩ := h
          obtain ⟨rfl, -, hRest'⟩ := h'
          rw [ih hRest hRest']

/-- The chain from a node inside it. -/
theorem suffix {xs ys : List Node} (h : Chain next null a (xs ++ x :: ys)) :
    Chain next null x (x :: ys) := by
  induction xs generalizing a with
  | nil => exact ⟨rfl, h.2⟩
  | cons y rest ih => exact ih h.2.2

/-- A chain that ends never comes back to a node. -/
theorem nodup (h : Chain next null a nodes) : nodes.Nodup := by
  induction nodes generalizing a with
  | nil => exact List.nodup_nil
  | cons x rest ih =>
      refine List.nodup_cons.mpr ⟨fun hMem => ?_, ih h.2.2⟩
      obtain ⟨xs, ys, rfl⟩ := List.append_of_mem hMem
      have hHere : Chain next null x (x :: (xs ++ x :: ys)) := ⟨rfl, h.2⟩
      have hLength := congrArg List.length (unique hHere h.2.2.suffix)
      simp at hLength
      omega

end Chain

end Semantics
