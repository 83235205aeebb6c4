import Mathlib.Data.List.Basic
import Mathlib.Data.Fintype.Card
import Mathlib.Logic.Relation

/-! Depth-first walks through a graph whose edges have names. The walk lists the
path of every edge that it takes, the path of a node being the names on the way
to it. -/
namespace Semantics.DepthFirst

variable {Node Symbol : Type*}

/-- The edges that leave a node, in order. -/
abbrev Edges (Node Symbol : Type*) := Node → List (List Symbol × Node)

/-- The path of each edge, before the paths behind it. -/
def branches (behind : Node → List Symbol → List (List Symbol)) (path : List Symbol)
    (edges : List (List Symbol × Node)) : List (List Symbol) :=
  edges.flatMap fun edge => (path ++ edge.1) :: behind edge.2 (path ++ edge.1)

/-- The paths of the edges up to a depth, each before those behind it. -/
def walk (out : Edges Node Symbol) : Nat → Node → List Symbol → List (List Symbol)
  | 0, _, _ => []
  | depth + 1, node, path => branches (walk out depth) path (out node)

/-- The walk from a node ends within the given height, and the property holds of
every node on it. -/
def Within (out : Edges Node Symbol) (P : Node → Prop) : Nat → Node → Prop
  | 0, _ => False
  | height + 1, node => P node ∧ ∀ edge ∈ out node, Within out P height edge.2

/-- The second list is the first one without some of its edges, and with other
names. -/
inductive Thins : List (List Symbol × Node) → List (List Symbol × Node) → Prop where
  | nil : Thins [] []
  | keep {seen kept : List (List Symbol × Node)} (name name' : List Symbol) (node : Node)
      (rest : Thins seen kept) : Thins ((name', node) :: seen) ((name, node) :: kept)
  | drop {seen kept : List (List Symbol × Node)} (edge : List Symbol × Node)
      (rest : Thins seen kept) : Thins (edge :: seen) kept

section Branches

variable {behind behind' : Node → List Symbol → List (List Symbol)} {path path' line : List Symbol}
  {edge : List Symbol × Node} {edges edges' : List (List Symbol × Node)}

@[simp] theorem branches_nil : branches behind path [] = [] :=
  rfl

@[simp] theorem branches_cons : branches behind path (edge :: edges) =
    (path ++ edge.1) :: behind edge.2 (path ++ edge.1) ++ branches behind path edges :=
  rfl

theorem mem_branches : line ∈ branches behind path edges ↔
    ∃ edge ∈ edges, line = path ++ edge.1 ∨ line ∈ behind edge.2 (path ++ edge.1) := by
  simp only [branches, List.mem_flatMap, List.mem_cons]

/-- An edge that is kept was seen, under some name. -/
theorem Thins.exists_mem (h : Thins edges edges') (hEdge : edge ∈ edges') :
    ∃ name, (name, edge.2) ∈ edges := by
  induction h with
  | nil => cases hEdge
  | keep name name' node rest ih =>
      rcases List.mem_cons.mp hEdge with rfl | hEdge
      · exact ⟨name', List.mem_cons_self ..⟩
      · obtain ⟨name, hSeen⟩ := ih hEdge
        exact ⟨name, List.mem_cons_of_mem _ hSeen⟩
  | drop edge rest ih =>
      obtain ⟨name, hSeen⟩ := ih hEdge
      exact ⟨name, List.mem_cons_of_mem _ hSeen⟩

/-- Fewer edges have no more branches, whatever their names. -/
theorem Thins.length_branches_le (h : Thins edges edges')
    (hBehind : ∀ edge ∈ edges', ∀ path path',
      (behind' edge.2 path).length ≤ (behind edge.2 path').length) (path path' : List Symbol) :
    (branches behind' path edges').length ≤ (branches behind path' edges).length := by
  induction h with
  | nil => exact Nat.le_refl _
  | keep name name' node rest ih =>
      have hHere : (behind' node (path ++ name)).length ≤ (behind node (path' ++ name')).length :=
        hBehind (name, node) (List.mem_cons_self ..) _ _
      have hLater := ih fun edge hEdge => hBehind edge (List.mem_cons_of_mem _ hEdge)
      simp only [branches_cons, List.length_append, List.length_cons]
      omega
  | drop edge rest ih =>
      have hLater := ih hBehind
      simp only [branches_cons, List.length_append, List.length_cons]
      omega

/-- Fewer edges have the same branches only when there are no fewer, and the
names are the same. -/
theorem Thins.eq_of_branches_eq (h : Thins edges edges')
    (hBehind : ∀ edge ∈ edges', ∀ path path',
      (behind' edge.2 path).length ≤ (behind edge.2 path').length)
    (hEq : branches behind path edges = branches behind' path edges') :
    edges = edges' ∧
      ∀ edge ∈ edges', behind edge.2 (path ++ edge.1) = behind' edge.2 (path ++ edge.1) := by
  induction h with
  | nil => exact ⟨rfl, fun edge hEdge => absurd hEdge List.not_mem_nil⟩
  | keep name name' node rest ih =>
      have hLaterBehind := fun edge hEdge => hBehind edge (List.mem_cons_of_mem _ hEdge)
      have hHere : (behind' node (path ++ name)).length ≤ (behind node (path ++ name')).length :=
        hBehind (name, node) (List.mem_cons_self ..) _ _
      have hLater := rest.length_branches_le hLaterBehind path path
      simp only [branches_cons, List.cons_append, List.cons.injEq] at hEq
      obtain ⟨hName, hRest⟩ := hEq
      obtain rfl := List.append_cancel_left hName
      have hLengths := congrArg List.length hRest
      simp only [List.length_append] at hLengths
      obtain ⟨hSame, hTail⟩ := List.append_inj hRest (by omega)
      obtain ⟨rfl, hTails⟩ := ih hLaterBehind hTail
      refine ⟨rfl, fun edge hEdge => ?_⟩
      rcases List.mem_cons.mp hEdge with rfl | hEdge
      · exact hSame
      · exact hTails edge hEdge
  | drop edge rest ih =>
      have hLater := rest.length_branches_le hBehind path path
      have hLengths := congrArg List.length hEq
      simp only [branches_cons, List.length_append, List.length_cons] at hLengths
      omega

/-- Edges that are filtered, and named, in a way of their own. -/
theorem thins_filterMap {Source : Type*} {f : Source → List Symbol × Node}
    {g : Source → Option (List Symbol × Node)} {sources : List Source}
    (h : ∀ source ∈ sources, ∀ edge, g source = some edge → edge.2 = (f source).2) :
    Thins (sources.map f) (sources.filterMap g) := by
  induction sources with
  | nil => exact .nil
  | cons source sources ih =>
      have hRest := ih fun source hSource => h source (List.mem_cons_of_mem _ hSource)
      rw [List.map_cons, List.filterMap_cons]
      cases hEdge : g source with
      | none => exact .drop (f source) hRest
      | some edge =>
          have hNode : edge.2 = (f source).2 := h source (List.mem_cons_self ..) edge hEdge
          obtain ⟨name, node⟩ := edge
          obtain rfl : node = (f source).2 := hNode
          exact .keep name (f source).1 (f source).2 hRest

end Branches

variable {out seen kept : Edges Node Symbol} {P Q : Node → Prop} {height depth : Nat} {node : Node}
  {path line : List Symbol}

theorem Within.mono (h : Within out P height node) (hMono : ∀ node, P node → Q node) :
    Within out Q height node := by
  induction height generalizing node with
  | zero => exact h
  | succ height ih => exact ⟨hMono node h.1, fun edge hEdge => ih (h.2 edge hEdge)⟩

theorem Within.and (h : Within out P height node) (h' : Within out Q height node) :
    Within out (fun node => P node ∧ Q node) height node := by
  induction height generalizing node with
  | zero => exact h
  | succ height ih =>
      exact ⟨⟨h.1, h'.1⟩, fun edge hEdge => ih (h.2 edge hEdge) (h'.2 edge hEdge)⟩

/-- Every line ends in the name of an edge. -/
theorem exists_of_mem_walk (h : Within out P height node)
    (hLine : line ∈ walk out height node path) :
    ∃ front node' edge, P node' ∧ edge ∈ out node' ∧ line = front ++ edge.1 := by
  induction height generalizing node path with
  | zero => cases hLine
  | succ height ih =>
      obtain ⟨edge, hEdge, hHere | hBehind⟩ := mem_branches.mp hLine
      · exact ⟨path, node, edge, h.1, hEdge, hHere⟩
      · exact ih (h.2 edge hEdge) hBehind

/-- Walks along the same edges are the same, the deeper one finding no more. -/
theorem walk_eq_of_within (h : Within kept (fun node => seen node = kept node) height node)
    (hDepth : height ≤ depth) : walk seen depth node path = walk kept height node path := by
  induction height generalizing node depth path with
  | zero => cases h
  | succ height ih =>
      obtain ⟨depth, rfl⟩ : ∃ d, depth = d + 1 := ⟨depth - 1, by omega⟩
      obtain ⟨hSame, hBehind⟩ := h
      rw [walk, walk, hSame]
      refine List.flatMap_congr fun edge hEdge => ?_
      rw [ih (hBehind edge hEdge) (Nat.le_of_succ_le_succ hDepth)]

/-- A walk that leaves edges out is no longer than the other one, whatever the
names. -/
theorem length_walk_le (h : Within kept (fun node => Thins (seen node) (kept node)) height node)
    (hDepth : height ≤ depth) (path path' : List Symbol) :
    (walk kept height node path).length ≤ (walk seen depth node path').length := by
  induction height generalizing node depth path path' with
  | zero => exact Nat.zero_le _
  | succ height ih =>
      obtain ⟨depth, rfl⟩ : ∃ d, depth = d + 1 := ⟨depth - 1, by omega⟩
      exact h.1.length_branches_le
        (fun edge hEdge => ih (h.2 edge hEdge) (Nat.le_of_succ_le_succ hDepth)) path path'

/-- Two walks of which one leaves edges out are equal only when it leaves out
none, and takes the same names. -/
theorem within_of_walk_eq (h : Within kept (fun node => Thins (seen node) (kept node)) height node)
    (hDepth : height ≤ depth) (hEq : walk seen depth node path = walk kept height node path) :
    Within kept (fun node => seen node = kept node) height node := by
  induction height generalizing node depth path with
  | zero => exact h
  | succ height ih =>
      obtain ⟨depth, rfl⟩ : ∃ d, depth = d + 1 := ⟨depth - 1, by omega⟩
      obtain ⟨hThins, hBehind⟩ := h
      have hLengths : ∀ edge ∈ kept node, ∀ path path',
          (walk kept height edge.2 path).length ≤ (walk seen depth edge.2 path').length :=
        fun edge hEdge => length_walk_le (hBehind edge hEdge) (by omega)
      obtain ⟨hSame, hWalks⟩ := hThins.eq_of_branches_eq hLengths hEq
      exact ⟨hSame, fun edge hEdge => ih (hBehind edge hEdge) (by omega) (hWalks edge hEdge)⟩

/-- Where a name that a walk does not have would show that edges are missing, the
walk has seen all of them. -/
theorem within_of_forall_mem_walk {Bad : List Symbol → Prop}
    (hBad : ∀ front name, Bad name → Bad (front ++ name))
    (h : Within kept (fun node => (∀ edge ∈ seen node, ¬ Bad edge.1) → Thins (seen node) (kept node))
      height node)
    (hDepth : height ≤ depth) (hWalk : ∀ line ∈ walk seen depth node path, ¬ Bad line) :
    Within kept (fun node => Thins (seen node) (kept node)) height node := by
  induction height generalizing node depth path with
  | zero => exact h
  | succ height ih =>
      obtain ⟨depth, rfl⟩ : ∃ d, depth = d + 1 := ⟨depth - 1, by omega⟩
      obtain ⟨hHere, hBehind⟩ := h
      have hThins : Thins (seen node) (kept node) := by
        refine hHere fun edge hEdge hName => ?_
        exact hWalk _ (mem_branches.mpr ⟨edge, hEdge, .inl rfl⟩) (hBad path edge.1 hName)
      refine ⟨hThins, fun edge hEdge => ?_⟩
      obtain ⟨name', hSeen⟩ := hThins.exists_mem hEdge
      have hLines : ∀ line ∈ walk seen depth edge.2 (path ++ name'), ¬ Bad line :=
        fun line hLine => hWalk line (mem_branches.mpr ⟨_, hSeen, .inr hLine⟩)
      exact ih (hBehind edge hEdge) (by omega) hLines

/-! ## Walks that end -/

/-- An edge leads from the first node to the second one. -/
def Edge (out : Edges Node Symbol) (a b : Node) : Prop :=
  ∃ edge ∈ out a, edge.2 = b

variable {a b : Node}

theorem Within.succ (h : Within out P height node) : Within out P (height + 1) node := by
  induction height generalizing node with
  | zero => cases h
  | succ height ih => exact ⟨h.1, fun edge hEdge => ih (h.2 edge hEdge)⟩

theorem Within.le (h : Within out P height node) (hDepth : height ≤ depth) :
    Within out P depth node := by
  induction hDepth with
  | refl => exact h
  | step hDepth ih => exact ih.succ

theorem Within.edge (h : Within out P (height + 1) a) (hEdge : Edge out a b) :
    Within out P height b := by
  obtain ⟨edge, hMem, rfl⟩ := hEdge
  exact h.2 edge hMem

/-- The height goes down along the edges. -/
theorem Within.below (h : Within out P height a) (hPath : Relation.TransGen (Edge out) a b) :
    ∃ lower < height, Within out P lower b := by
  induction hPath with
  | single hEdge =>
      cases height with
      | zero => cases h
      | succ height => exact ⟨height, Nat.lt_succ_self _, h.edge hEdge⟩
  | tail _ hEdge ih =>
      obtain ⟨lower, hLower, hWithin⟩ := ih
      cases lower with
      | zero => cases hWithin
      | succ lower => exact ⟨lower, by omega, hWithin.edge hEdge⟩

/-- No node on a walk that ends lies behind itself. -/
theorem Within.acyclic (h : Within out P height a) : ¬ Relation.TransGen (Edge out) a a := by
  intro hCycle
  induction height using Nat.strong_induction_on with
  | _ height ih =>
      obtain ⟨lower, hLower, hWithin⟩ := h.below hCycle
      exact ih lower hLower hWithin

theorem Within.holds (h : Within out P height node) : P node := by
  cases height with
  | zero => cases h
  | succ height => exact h.1

/-- Walks along finitely many edges have a common height. -/
theorem exists_height {edges : List (List Symbol × Node)}
    (h : ∀ edge ∈ edges, ∃ height, Within out P height edge.2) :
    ∃ height, ∀ edge ∈ edges, Within out P height edge.2 := by
  induction edges with
  | nil => exact ⟨0, fun edge hEdge => absurd hEdge List.not_mem_nil⟩
  | cons edge edges ih =>
      obtain ⟨first, hFirst⟩ := h edge List.mem_cons_self
      obtain ⟨rest, hRest⟩ := ih fun edge hEdge => h edge (List.mem_cons_of_mem _ hEdge)
      refine ⟨max first rest, fun edge' hEdge => ?_⟩
      rcases List.mem_cons.mp hEdge with rfl | hEdge
      · exact hFirst.le (Nat.le_max_left _ _)
      · exact (hRest edge' hEdge).le (Nat.le_max_right _ _)

/-- In a finite graph a walk ends unless it comes to a node that lies behind
itself. -/
theorem exists_within_iff [Finite Node] : (∃ height, Within out P height node) ↔
    ∀ reached, Relation.ReflTransGen (Edge out) node reached →
      P reached ∧ ¬ Relation.TransGen (Edge out) reached reached := by
  constructor
  · rintro ⟨height, h⟩ reached hReached
    have hThere : ∃ lower, Within out P lower reached := by
      rcases Relation.reflTransGen_iff_eq_or_transGen.mp hReached with rfl | hPath
      · exact ⟨height, h⟩
      · obtain ⟨lower, -, hWithin⟩ := h.below hPath
        exact ⟨lower, hWithin⟩
    obtain ⟨lower, hWithin⟩ := hThere
    exact ⟨hWithin.holds, hWithin.acyclic⟩
  · intro h
    -- Backwards along the edges between reached nodes, of which there is no cycle.
    let behind : Node → Node → Prop := fun b a =>
      Relation.ReflTransGen (Edge out) node a ∧ Relation.TransGen (Edge out) a b
    have hTrans : IsTrans Node behind :=
      ⟨fun _ _ _ hFirst hSecond => ⟨hSecond.1, hSecond.2.trans hFirst.2⟩⟩
    have hIrrefl : Std.Irrefl behind := ⟨fun a hLoop => (h a hLoop.1).2 hLoop.2⟩
    have hWf : WellFounded behind := Finite.wellFounded_of_trans_of_irrefl behind
    have hAll : ∀ a, Relation.ReflTransGen (Edge out) node a → ∃ height, Within out P height a := by
      intro a
      induction a using hWf.induction with
      | _ a ih =>
          intro hReached
          have hBehind : ∀ edge ∈ out a, ∃ height, Within out P height edge.2 := by
            intro edge hEdge
            have hStep : Edge out a edge.2 := ⟨edge, hEdge, rfl⟩
            exact ih edge.2 ⟨hReached, .single hStep⟩ (hReached.tail hStep)
          obtain ⟨height, hHeight⟩ := exists_height hBehind
          exact ⟨height + 1, (h a hReached).1, hHeight⟩
    exact hAll node .refl

end Semantics.DepthFirst
