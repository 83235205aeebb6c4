import RiscvOs.Semantics.Transition
import Mathlib.Logic.Function.Basic

/-! Threads that interleave over a shared state. A thread is the list of the
statements that it has still to execute; a step of a statement, such as a loop
or a wait, may leave statements in its place. -/
namespace Semantics

structure Threads (Thread Statement Shared : Type*) where
  rest : Thread → List Statement
  shared : Shared

variable {Thread Statement Shared View : Type*}

/-- What one step of a statement of a thread leaves to do of the statement,
and the shared state behind it. -/
abbrev Action (Thread Statement Shared : Type*) :=
  Thread → Statement → Shared → List Statement × Shared

namespace Threads

/-- The thread makes the next step of the first of its statements. -/
inductive Step [DecidableEq Thread] (act : Action Thread Statement Shared) :
    Threads Thread Statement Shared → Thread → Threads Thread Statement Shared → Prop where
  | act {s : Threads Thread Statement Shared} {thread : Thread} {statement : Statement}
      {tail : List Statement} (hNext : s.rest thread = statement :: tail) :
      Step act s thread
        { rest := Function.update s.rest thread ((act thread statement s.shared).1 ++ tail)
          shared := (act thread statement s.shared).2 }

/-- Every thread has executed all its statements. -/
def Done (s : Threads Thread Statement Shared) : Prop :=
  ∀ thread, s.rest thread = []

/-- What a thread makes of its view of the shared state when it executes the
rest of its statements alone. -/
def outcome (view : Thread → Shared → View) (effect : Thread → Statement → View → View)
    (s : Threads Thread Statement Shared) (thread : Thread) : View :=
  (s.rest thread).foldl (fun v statement => effect thread statement v) (view thread s.shared)

/-- The step of a statement has its effect on the view of its own thread, and
no effect on the views of the others. -/
structure Sequential (view : Thread → Shared → View) (effect : Thread → Statement → View → View)
    (act : Action Thread Statement Shared) (thread : Thread) (statement : Statement)
    (shared : Shared) : Prop where
  own : (act thread statement shared).1.foldl (fun v statement => effect thread statement v)
      (view thread (act thread statement shared).2) = effect thread statement (view thread shared)
  other : ∀ thread', thread' ≠ thread →
    view thread' (act thread statement shared).2 = view thread' shared

variable {act : Action Thread Statement Shared} {view : Thread → Shared → View}
  {effect : Thread → Statement → View → View} {s t : Threads Thread Statement Shared}
  {thread : Thread} {statement : Statement} {tail : List Statement} {schedule : List Thread}

theorem outcome_of_rest_nil (h : s.rest thread = []) :
    outcome view effect s thread = view thread s.shared := by
  rw [outcome, h]
  rfl

variable [DecidableEq Thread]

theorem outcome_step (hNext : s.rest thread = statement :: tail)
    (hSequential : Sequential view effect act thread statement s.shared) (thread' : Thread) :
    outcome view effect
        { rest := Function.update s.rest thread ((act thread statement s.shared).1 ++ tail)
          shared := (act thread statement s.shared).2 } thread' =
      outcome view effect s thread' := by
  by_cases hSame : thread' = thread
  · subst hSame
    simp only [outcome, Function.update_self, hNext, List.foldl_append, List.foldl_cons]
    rw [hSequential.own]
  · simp only [outcome, Function.update_of_ne hSame]
    rw [hSequential.other thread' hSame]

end Threads

end Semantics
