import Mathlib.Data.List.Basic

/-! Components that are used by calls. A call takes the component to its next
state and returns an output. One component behaves as another when related
states give equal outputs and stay related. -/
namespace Semantics

variable {State Abstract Call Output : Type*}

/-- Make the calls of the list one after the other and collect their outputs. -/
def calls (call : State → Call → State × Output) : State → List Call → State × List Output
  | s, [] => (s, [])
  | s, c :: rest =>
      let (s', output) := call s c
      let (last, outputs) := calls call s' rest
      (last, output :: outputs)

/-- Every call keeps the relation and has the output of the abstract call. -/
def Refines (call : State → Call → State × Output) (spec : Abstract → Call → Abstract × Output)
    (related : State → Abstract → Prop) : Prop :=
  ∀ s a c, related s a →
    related (call s c).1 (spec a c).1 ∧ (call s c).2 = (spec a c).2

/-- A component that refines another one refines it along all lists of calls. -/
theorem Refines.calls {call : State → Call → State × Output}
    {spec : Abstract → Call → Abstract × Output} {related : State → Abstract → Prop}
    (hRefines : Refines call spec related) (list : List Call) {s : State} {a : Abstract}
    (hRelated : related s a) :
    related (calls call s list).1 (calls spec a list).1 ∧
      (Semantics.calls call s list).2 = (Semantics.calls spec a list).2 := by
  induction list generalizing s a with
  | nil => exact ⟨hRelated, rfl⟩
  | cons c rest ih =>
      obtain ⟨hNext, hOutput⟩ := hRefines s a c hRelated
      obtain ⟨hLast, hOutputs⟩ := ih hNext
      refine ⟨hLast, ?_⟩
      change (call s c).2 :: _ = (spec a c).2 :: _
      rw [hOutput, hOutputs]

end Semantics
